/-
  OrderedIndex/Index/Config.lean
  ==============================
  **Settings** shared by the indexes of a table.
-/

namespace OrderedIndex

/-- When a unique index may hold a key more than once. -/
inductive RepeatPolicy
  /-- When a column of the key is NULL. -/
  | whenAnyNull
  | never
  /-- When every column of the key is NULL. -/
  | whenAllNull
  deriving DecidableEq

structure IndexConfig where
  repeatPolicy : RepeatPolicy
  /-- The factor of every cost estimate. -/
  costMultiplier : Float
  /-- Whether an index on a large-object column is refused. -/
  checkColumnTypes : Bool

/-- Keys with NULL may repeat, an estimate is ten times the base cost, and column types are
    checked. -/
def IndexConfig.default : IndexConfig := ⟨.whenAnyNull, 10, true⟩

instance : Inhabited IndexConfig := ⟨.default⟩

end OrderedIndex
