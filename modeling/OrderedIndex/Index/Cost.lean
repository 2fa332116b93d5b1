/-
  OrderedIndex/Index/Cost.lean
  ============================
  **Cost estimates** of a scan, in 64-bit arithmetic: a step whose result no word
  holds, or a division by zero, leaves the estimate undefined.

  Only a leading run of equality conditions narrows an estimate further and
  further; the first other condition ends it.
-/
import OrderedIndex.Index.Descriptor

namespace OrderedIndex

/-- What a query demands of one column. -/
structure Condition where
  equality : Bool
  /-- A smallest value. -/
  lower : Bool
  /-- A largest value. -/
  upper : Bool
  deriving DecidableEq

namespace Condition

def none : Condition := ⟨false, false, false⟩
def onEquality : Condition := ⟨true, false, false⟩
def onLower : Condition := ⟨false, true, false⟩
def onUpper : Condition := ⟨false, false, true⟩
def onRange : Condition := ⟨false, true, true⟩

def union (a b : Condition) : Condition :=
  ⟨a.equality || b.equality, a.lower || b.lower, a.upper || b.upper⟩

/-- Whether `a` demands all that `b` does. -/
def contains (a b : Condition) : Bool :=
  (a.equality || !b.equality) && (a.lower || !b.lower) && (a.upper || !b.upper)

/-- The demands as a number: 1 for equality, 2 for a smallest value, 4 for a largest. -/
def bits (c : Condition) : Nat := c.equality.toNat + 2 * c.lower.toNat + 4 * c.upper.toNat

end Condition

namespace Cost

/-- Rows added before an estimate, so that small tables still order plans. -/
def rowOffset : Nat := 1000

/-- The number, if a word holds it. -/
def word? (n : Nat) : Option Nat := if n < UInt64.size then some n else none

/-- The difference, if it is not negative. -/
def minus? (a b : Nat) : Option Nat := if b ≤ a then some (a - b) else none

/-- The quotient, if there is one. -/
def over? (a b : Nat) : Option Nat := if b = 0 then none else some (a / b)

/-- The steps to find one of `rows` entries: one more for each halving. -/
def lookup (rows : Nat) : Nat := if rows = 0 then 1 else Nat.log2 rows + 2

/-- The share of distinct values in the run so far, with a further column of the given share, in
    percent. -/
def joinSelectivity? (run column : Nat) : Option Nat := do
  let a ← minus? 100 run
  let b ← minus? 100 column
  minus? 100 ((← word? (a * b)) / 100)

/-- The cost of a scan over `n` entries, narrowed by the conditions on the columns that are left.
    `cost`, `rows` and `selectivity` are what the columns before them came to. -/
def narrow (unique : Bool) (masks : List Condition) (n : Nat) :
    (cost rows selectivity : Nat) → List IndexColumn → Option Nat
  | cost, _, _, [] => some cost
  | cost, rows, selectivity, c :: rest =>
    let mask := masks.getD c.column.id .none
    if mask.contains .onEquality then
      if unique && rest.isEmpty then word? (lookup n + 1)
      else do
        let selectivity ← joinSelectivity? selectivity
          (Column.clampPercent c.column.selectivity).toNat
        let distinct := max ((← word? (n * selectivity)) / 100) 1
        let rows := max (← over? n distinct) 1
        let cost ← word? (lookup n + rows)
        narrow unique masks n cost rows selectivity rest
    else if mask.contains .onRange then word? (lookup n + rows / 4)
    else if mask.contains .onLower then word? (lookup n + rows / 3)
    else if mask.contains .onUpper then some (rows / 3)
    else some cost

/-- The cost of a scan of an index with `rowCount` entries.  `masks` has a condition for each table
    column; without it the query demands nothing. -/
def range (columns : List IndexColumn) (unique : Bool) (masks : Option (List Condition))
    (rowCount : Nat) :
    Option Nat :=
  let n := min (rowCount + rowOffset) (UInt64.size - 1)
  match masks with
  | none => some n
  | some masks => narrow unique masks n n n 0 columns

end Cost
end OrderedIndex
