/-
  OrderedIndex/StoreError.lean
  ============================
  **Faults of the store.**
-/

namespace OrderedIndex

/-- Why a store refuses an operation. -/
inductive StoreError
  /-- The map has been removed; `name` is the last name it had. -/
  | closed (name : String)
  /-- The new name of a map is the name of another one. -/
  | mapExists (name : String)
  deriving DecidableEq

def StoreError.message : StoreError → String
  | closed name => "map is closed: " ++ name
  | mapExists name => "map already exists: " ++ name

end OrderedIndex
