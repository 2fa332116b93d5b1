/-
  OrderedIndex/RowId.lean
  =======================
  **Row identifiers** — 64-bit words, given out in increasing order from 1.  In an
  index key the row id only breaks ties between rows with equal columns.
-/

namespace OrderedIndex

/-- The identifier of a row within its table. -/
structure RowId where
  word : UInt64
  deriving DecidableEq, Inhabited

namespace RowId

instance : Ord RowId := ⟨compareOn word⟩

instance : Std.TransOrd RowId := inferInstanceAs (Std.TransCmp (compareOn word))

/-- The smallest row id.  No row has it, so a key that ends in it comes before the keys of all rows
    with the same columns. -/
def min : RowId := ⟨0⟩

/-- The row id after this one; the largest has none. -/
def next? (id : RowId) : Option RowId :=
  if id.word.toNat + 1 < UInt64.size then some ⟨id.word + 1⟩ else none

/-- The row id as messages show it. -/
def render (id : RowId) : String := "row:" ++ toString id.word.toNat

end RowId
end OrderedIndex
