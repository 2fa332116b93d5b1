/-
  OrderedIndex/Table/Session.lean
  ===============================
  **Sessions** — a table opened on a store, and the operations that change rows.

  Every operation gives a result together with the session afterwards, also when it
  fails.  Inserting and deleting undo what they did to the indexes before they fail.
-/
import OrderedIndex.Index.Group
import OrderedIndex.Table.Basic

namespace OrderedIndex

/-- A table opened on a store. -/
structure Session where
  store : Store
  table : Table

namespace Session

/-- Opens a table, whose primary map is made if there is none.  Row ids go on after the largest
    stored one.  Indexes are not stored: they have to be declared again. -/
def openTable (store : Store) (id : TableId) (name : String) (columns : List Column)
    (config : IndexConfig) :
    Except Error Session := do
  let (primary, store) := store.openMap (Table.mapNameOf name id)
  let lastRowId ← match ← (store.lastKey primary).mapError Error.store with
    | some key => (Key.toRowId key).mapError Error.codec
    | none => pure RowId.min
  return ⟨store, .new id name columns primary lastRowId config⟩

/-- A table opened on a store of its own. -/
def fresh (id : TableId) (name : String) (columns : List Column) (config : IndexConfig) : Session :=
  let (primary, store) := Store.empty.openMap (Table.mapNameOf name id)
  ⟨store, .new id name columns primary .min config⟩

/-- Opening a table on an empty store does not fail. -/
theorem openTable_empty (id : TableId) (name : String) (columns : List Column)
    (config : IndexConfig) :
    openTable .empty id name columns config = .ok (fresh id name columns config) := rfl

/-- Inserts a row, and gives its id. -/
def insert (s : Session) (values : List Value) : Except Error RowId × Session :=
  match s.table.checkValues values with
  | .error e => (.error e, s)
  | .ok () =>
    match s.table.lastRowId.next? with
    | none => (.error (.rowIdsExhausted s.table.name), s)
    | some id =>
      let row : Row := ⟨id, values⟩
      match Index.addToAll row s.table.indexes s.store with
      | (.error e, store) => (.error e, { s with store })
      | (.ok (), store) =>
        match store.put s.table.primary (Key.ofRowId id) (StoredRow.encode values) with
        | .error e =>
          (.error (.store e), { s with store := Index.withdrawFromAll row s.table.indexes store })
        | .ok (_, store) => (.ok id, ⟨store, { s.table with lastRowId := id }⟩)

/-- Deletes a row, and gives it. -/
def delete (s : Session) (id : RowId) : Except Error Row × Session :=
  match s.table.getRow s.store id with
  | .error e => (.error e, s)
  | .ok row =>
    match Index.removeFromAll row s.table.indexes s.store with
    | (.error e, store) => (.error e, { s with store })
    | (.ok (), store) =>
      match store.remove s.table.primary (Key.ofRowId id) with
      | .error e =>
        (.error (.store e), { s with store := Index.restoreToAll row s.table.indexes store })
      | .ok (_, store) => (.ok row, { s with store })

/-- Removes all entries of the indexes, and then all rows.  The first map that has been removed ends
    it. -/
def truncate (s : Session) : Except Error Unit × Session :=
  match Index.clearAll s.table.indexes s.store with
  | (.error e, store) => (.error e, { s with store })
  | (.ok (), store) =>
    match store.clear s.table.primary with
    | .error e => (.error (.store e), { s with store })
    | .ok store => (.ok (), { s with store })

end Session
end OrderedIndex
