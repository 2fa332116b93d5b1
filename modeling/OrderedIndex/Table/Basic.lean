/-
  OrderedIndex/Table/Basic.lean
  =============================
  **Tables** — rows under their ids in a primary map, and secondary indexes.  A
  table is a definition and handles; its rows and entries are in the store.
-/
import OrderedIndex.Index.Basic
import OrderedIndex.StoredRow

namespace OrderedIndex

/-- The identifier of a table. -/
structure TableId where
  number : Nat
  deriving DecidableEq

def TableId.render (id : TableId) : String := toString id.number

structure Table where
  id : TableId
  name : String
  columns : List Column
  /-- The map of the rows. -/
  primary : MapId
  /-- The indexes in the order in which they were made. -/
  indexes : List Index
  /-- The last row id given out; `RowId.min` stands for none. -/
  lastRowId : RowId
  nextIndexId : IndexId
  config : IndexConfig

namespace Table

/-- The name of the map of a table's rows. -/
def mapNameOf (name : String) (id : TableId) : String := name ++ "_" ++ id.render

/-- A table without indexes. -/
def new (id : TableId) (name : String) (columns : List Column) (primary : MapId) (lastRowId : RowId)
    (config : IndexConfig) : Table :=
  ⟨id, name, columns, primary, [], lastRowId, ⟨1⟩, config⟩

/-! ### Parts -/

/-- The first column of the given name. -/
def column (t : Table) (name : String) : Except Error Column :=
  match t.columns.find? (·.name == name) with
  | some c => .ok c
  | none => .error (.columnNotFound name)

/-- The index of the given name. -/
def index (t : Table) (name : String) : Except Error Index :=
  match t.indexes.find? (·.name == name) with
  | some ix => .ok ix
  | none => .error (.indexNotFound name)

def hasIndex (t : Table) (name : String) : Bool := t.indexes.any (·.name == name)

/-- A search row for the table with nothing set. -/
def templateRow (t : Table) : SearchRow := .unset t.columns.length

/-! ### Rows -/

/-- The entries of the primary map. -/
def entries (t : Table) (s : Store) : Except Error (SortedMap Bytes Bytes) :=
  (s.read t.primary).mapError .store

/-- The stored row of the given id. -/
def getRow (t : Table) (s : Store) (id : RowId) : Except Error Row := do
  match (← t.entries s).get? (Key.ofRowId id) with
  | none => throw (.rowNotFound t.name id)
  | some stored =>
    let values ← (StoredRow.decode stored).mapError .codec
    return ⟨id, values⟩

/-- The row that a key of the primary map stands for. -/
def rowAt (t : Table) (s : Store) (key : Bytes) : Except Error Row := do
  let id ← (Key.toRowId key).mapError .codec
  t.getRow s id

/-- All rows, in the order of their ids. -/
def rows (t : Table) (s : Store) : Except Error (List Row) := do
  (← t.entries s).keys.mapM (t.rowAt s)

/-- The number of rows. -/
def size (t : Table) (s : Store) : Except Error Nat := (t.entries s).map (·.size)

/-- Checks that there is a value for each column and that each fits. -/
def checkValues (t : Table) (values : List Value) : Except Error Unit :=
  if values.length ≠ t.columns.length then
    .error (.wrongValueCount t.name t.columns.length values.length)
  else
    match (t.columns.zip values).find? (fun cv => !cv.1.accepts cv.2) with
    | some (c, v) => .error (.valueDoesNotFit v c)
    | none => .ok ()

end Table
end OrderedIndex
