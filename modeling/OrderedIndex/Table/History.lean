/-
  OrderedIndex/Table/History.lean
  ===============================
  **Histories of a table over several sessions.**  What a session leaves behind is
  the store.  The next one opens the table on it again and, since indexes are not
  stored, may declare again those that were there at the end.
-/
import OrderedIndex.Table.Command

namespace OrderedIndex

/-! ### Declarations -/

/-- What an index is declared by. -/
structure Declaration where
  name : String
  columns : List (String × Direction)
  unique : Bool
  deriving DecidableEq

def Declaration.command (d : Declaration) : Command := .createIndex d.name d.columns d.unique

def Index.declaration (ix : Index) : Declaration :=
  ⟨ix.name, ix.descriptor.columns.map fun c => (c.column.name, c.direction), ix.descriptor.unique⟩

/-- The declarations of the indexes in the order in which they were made. -/
def Table.declarations (t : Table) : List Declaration := t.indexes.map Index.declaration

/-! ### Events -/

/-- A command, or the end of a session and the beginning of the next one. -/
inductive Event
  | command (c : Command)
  | reopening
  deriving DecidableEq

namespace Session

/-- Opens the table once more, without its indexes. -/
def reopen (s : Session) : Except Error Session :=
  openTable s.store s.table.id s.table.name s.table.columns s.table.config

/-- Opens the table once more, and declares its indexes again. -/
def resume (s : Session) : Except Error Session :=
  s.reopen.map (·.runAll (s.table.declarations.map Declaration.command))

/-- The id of the row that an event stores. -/
def stores? (s : Session) : Event → Option RowId
  | .command (.insert values) => (s.insert values).1.toOption
  | _ => none

section

/- How the next session begins. -/
variable (again : Session → Except Error Session)

/-- The session after an event; a command may succeed or fail. -/
def pass (s : Session) : Event → Except Error Session
  | .command c => .ok (s.run c).2
  | .reopening => again s

def passAll (s : Session) (es : List Event) : Except Error Session := es.foldlM (pass again) s

/-- The events of a history, each with the session in which it takes place. -/
def visits (s : Session) : List Event → List (Session × Event)
  | [] => []
  | e :: es =>
    (s, e) :: match s.pass again e with
      | .error _ => []
      | .ok s => visits s es

/-- The ids of the rows stored in the course of a history. -/
def issued (s : Session) (es : List Event) : List RowId :=
  (s.visits again es).filterMap fun v => v.1.stores? v.2

end

end Session
end OrderedIndex
