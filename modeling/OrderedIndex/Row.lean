/-
  OrderedIndex/Row.lean
  =====================
  **Rows**, whole and partial.  A search row has slots that may be unset, which
  is not the same as holding NULL; it serves as a bound of a scan and as what an
  index key tells about its row.
-/
import OrderedIndex.Value
import OrderedIndex.RowId

namespace OrderedIndex

/-- A row of a table. -/
structure Row where
  id : RowId
  values : List Value
  deriving DecidableEq

/-- A row of which some values, and perhaps the id, are known. -/
structure SearchRow where
  rowId : Option RowId
  values : List (Option Value)
  deriving DecidableEq

/-- What can be asked for the value at a column position. -/
class RowView (ρ : Type) where
  value? : ρ → Nat → Option Value

def Row.value? (r : Row) (column : Nat) : Option Value := r.values[column]?

instance : RowView Row := ⟨Row.value?⟩

namespace SearchRow

def value? (r : SearchRow) (column : Nat) : Option Value := r.values[column]?.join

instance : RowView SearchRow := ⟨value?⟩

/-- No id and `columns` unset slots. -/
def unset (columns : Nat) : SearchRow := ⟨none, List.replicate columns none⟩

/-- Sets a slot.  A row that is too short grows, with unset slots in between. -/
def set (r : SearchRow) (column : Nat) (v : Value) : SearchRow :=
  let slots := r.values ++ List.replicate (column + 1 - r.values.length) none
  { r with values := slots.set column (some v) }

/-- Everything that a whole row tells. -/
def ofRow (r : Row) : SearchRow := ⟨some r.id, r.values.map some⟩

end SearchRow
end OrderedIndex
