/-
  OrderedIndex/Direction.lean
  ===========================
  **Sort directions** of an index column, on comparisons and on bytes.
-/
import OrderedIndex.Bytes

namespace OrderedIndex

/-- Which end of a column's order comes first. -/
inductive Direction
  /-- Smallest first, so NULL comes first. -/
  | ascending
  /-- Largest first, so NULL comes last. -/
  | descending
  deriving DecidableEq, Repr, Inhabited

namespace Direction

/-- A comparison as the direction sees it. -/
def apply : Direction → Ordering → Ordering
  | ascending, o => o
  | descending, o => o.swap

/-- The bytes of a component as the direction writes them: a descending column complements them. -/
def orient : Direction → Bytes → Bytes
  | ascending, bs => bs
  | descending, bs => bs.complement

@[simp] theorem orient_orient (d : Direction) (bs : Bytes) : d.orient (d.orient bs) = bs := by
  cases d <;> simp [orient]

@[simp] theorem length_orient (d : Direction) (bs : Bytes) : (d.orient bs).length = bs.length := by
  cases d <;> simp [orient]

theorem orient_append (d : Direction) (as bs : Bytes) :
    d.orient (as ++ bs) = d.orient as ++ d.orient bs := by
  cases d <;> simp [orient]

end Direction
end OrderedIndex
