/-
  OrderedIndex/Column.lean
  ========================
  **Columns** of a table.
-/
import OrderedIndex.Value

namespace OrderedIndex

/-- A column: where its values stand in a row, and which values it takes. -/
structure Column where
  /-- The position of the column's values in a row. -/
  id : Nat
  name : String
  type : ColumnType
  nullable : Bool
  /-- The estimated share of distinct values, in percent. -/
  selectivity : UInt8
  deriving DecidableEq

namespace Column

/-- A column that takes NULL, of unknown selectivity. -/
def new (id : Nat) (name : String) (type : ColumnType) : Column := ⟨id, name, type, true, 50⟩

def notNull (c : Column) : Column := { c with nullable := false }

/-- A percentage of at least 1 and at most 100. -/
def clampPercent (n : UInt8) : UInt8 := if n < 1 then 1 else if 100 < n then 100 else n

def withSelectivity (c : Column) (percent : UInt8) : Column :=
  { c with selectivity := clampPercent percent }

/-- The column as a table definition writes it. -/
def sql (c : Column) : String :=
  c.name ++ " " ++ c.type.sqlName ++ (if c.nullable then "" else " NOT NULL")

/-- Whether the value may stand in the column. -/
def accepts (c : Column) (v : Value) : Bool :=
  match v.type? with
  | none => c.nullable
  | some t => t == c.type

end Column
end OrderedIndex
