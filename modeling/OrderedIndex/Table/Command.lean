/-
  OrderedIndex/Table/Command.lean
  ===============================
  **Commands** — the operations that change a table, as data, so that a history of
  a table is a list of them.
-/
import OrderedIndex.Table.Indexing

namespace OrderedIndex

/-- An operation that changes a table. -/
inductive Command
  | insert (values : List Value)
  | delete (id : RowId)
  | truncate
  | createIndex (name : String) (columns : List (String × Direction)) (unique : Bool)
  | dropIndex (name : String)
  | renameIndex (name newName : String)
  deriving DecidableEq

/-- What an operation gives when it succeeds. -/
inductive Reply
  | rowId (id : RowId)
  | row (row : Row)
  | indexId (id : IndexId)
  | done
  deriving DecidableEq

namespace Session

/-- Runs one command. -/
def run (s : Session) : Command → Except Error Reply × Session
  | .insert values =>
    let (id, s) := s.insert values
    (id.map .rowId, s)
  | .delete id =>
    let (row, s) := s.delete id
    (row.map .row, s)
  | .truncate =>
    let (done, s) := s.truncate
    (done.map fun _ => .done, s)
  | .createIndex name columns unique =>
    let (id, s) := s.createIndex name columns unique
    (id.map .indexId, s)
  | .dropIndex name =>
    let (done, s) := s.dropIndex name
    (done.map fun _ => .done, s)
  | .renameIndex name newName =>
    let (done, s) := s.renameIndex name newName
    (done.map fun _ => .done, s)

/-- The session after some commands, whether they succeed or fail. -/
def runAll (s : Session) (cs : List Command) : Session := cs.foldl (fun s c => (s.run c).2) s

end Session
end OrderedIndex
