/-
  OrderedIndex/Index/Basic.lean
  =============================
  **Secondary indexes** — one entry for each row, under the row's key, with an
  empty value.  The entries live in a map of the store; the index itself is a
  definition and a handle.

  Uniqueness needs no structure beside the map.  Keys are ordered by the index
  columns first, so the first key at or after the row's columns with the smallest
  row id is the only one that can stand in the way.
-/
import OrderedIndex.Index.Config
import OrderedIndex.Index.Cost
import OrderedIndex.Index.KeyLayout
import OrderedIndex.Store.KeyIter

namespace OrderedIndex

structure Index where
  descriptor : Descriptor
  map : MapId
  /-- The number of columns of the table. -/
  columnCount : Nat
  config : IndexConfig

/-- Whether a unique index may hold the key of `existing` once more. -/
def RepeatPolicy.permits (policy : RepeatPolicy) (l : KeyLayout) (existing : SearchRow) : Bool :=
  match policy with
  | whenAnyNull => l.anyNull existing
  | never => false
  | whenAllNull => l.allNull existing

namespace Index

def name (ix : Index) : String := ix.descriptor.name

/-- The index under another name, on the same map. -/
def withName (ix : Index) (name : String) : Index :=
  { ix with descriptor := { ix.descriptor with name } }

def layout (ix : Index) : KeyLayout := .ofColumns ix.descriptor.columns ix.columnCount

/-- The entries of the index. -/
def entries (ix : Index) (s : Store) : Except Error (SortedMap Bytes Bytes) :=
  (s.read ix.map).mapError .store

/-- Opens the map of an index, which is made if there is none. -/
def create (s : Store) (d : Descriptor) (columnCount : Nat) (config : IndexConfig) :
    Except Error (Index × Store) :=
  let refused := if config.checkColumnTypes then d.columns.find? (·.column.type.isLargeObject)
    else none
  match refused with
  | some c => .error (.unsupportedColumn d.sql c.column)
  | none =>
    let (map, s) := s.openMap d.mapName
    .ok (⟨d, map, columnCount, config⟩, s)

/-! ### Entries -/

/-- The row that keeps a unique index from taking `row`. -/
def conflict? (ix : Index) (s : Store) (row : Row) : Except Error (Option RowId) := do
  let start ← ix.layout.encodeAs row .min
  match (← ix.entries s).ceiling? start with
  | none => return none
  | some key =>
    let existing ← ix.layout.decode key
    if ix.layout.compareRows row existing = .eq ∧
      !ix.config.repeatPolicy.permits ix.layout existing then
      return some (existing.rowId.getD .min)
    else return none

/-- Fails if the index is unique and holds the key of `row` already. -/
def checkUnique (ix : Index) (s : Store) (row : Row) : Except Error Unit := do
  if ix.descriptor.unique then
    match ← ix.conflict? s row with
    | some conflicting =>
      throw (.duplicateKey ix.descriptor.sql (ix.layout.describe row) conflicting)
    | none => return ()

/-- Adds the entry of a row. -/
def add (ix : Index) (s : Store) (row : Row) : Except Error Store := do
  ix.checkUnique s row
  let key ← ix.layout.encode row
  let (_, s) ← (s.put ix.map key []).mapError .store
  return s

/-- Removes the entry of a row, which must be there. -/
def remove (ix : Index) (s : Store) (row : Row) : Except Error Store := do
  let key ← ix.layout.encode row
  match ← (s.remove ix.map key).mapError .store with
  | (some _, s) => return s
  | (none, _) => throw (.entryNotFound ix.descriptor.sql row.id)

/-- Removes every entry. -/
def clear (ix : Index) (s : Store) : Except Error Store := (s.clear ix.map).mapError .store

/-- The number of entries. -/
def size (ix : Index) (s : Store) : Except Error Nat := (ix.entries s).map (·.size)

/-- The number of entries as cost estimates take it, which is the exact one. -/
def approximateSize (ix : Index) (s : Store) : Except Error Nat := ix.size s

/-- Whether the index has no entries, so that it has to be filled from its table. -/
def needsRebuild (ix : Index) (s : Store) : Except Error Bool := (ix.size s).map (· == 0)

/-! ### The map of the index -/

/-- Renames the index and its map.  The index has its new name first, and gets the old one back if
    the map does not get its own. -/
def renameInPlace (ix : Index) (s : Store) (name : String) : Except Error Unit × Index × Store :=
  let renamed := ix.withName name
  match s.rename ix.map renamed.descriptor.mapName with
  | .error e => (.error (.store e), renamed.withName ix.name, s)
  | .ok s => (.ok (), renamed, s)

/-- The index under its new name, and the store, if the renaming succeeds. -/
def rename (ix : Index) (s : Store) (name : String) : Except Error (Index × Store) :=
  let (outcome, renamed) := ix.renameInPlace s name
  outcome.map fun _ => renamed

/-- Removes the map of the index, unless that has been done already. -/
def drop (ix : Index) (s : Store) : Except Error Store :=
  if s.isClosed ix.map then .ok s else (s.removeMap ix.map).mapError .store

/-! ### Cost -/

/-- The estimated cost of a scan under the given conditions, one for each table column. -/
def estimateCost (ix : Index) (s : Store) (masks : Option (List Condition)) :
    Except Error Float := do
  let size ← ix.approximateSize s
  match Cost.range ix.descriptor.columns ix.descriptor.unique masks size with
  | some cost => return ix.config.costMultiplier * (UInt64.ofNat cost).toFloat
  | none => throw .costOverflow

end Index
end OrderedIndex
