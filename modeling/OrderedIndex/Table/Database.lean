/-
  OrderedIndex/Table/Database.lean
  ================================
  **Databases** — several tables open on one store.  Nothing but their names keeps
  the maps of different tables apart.
-/
import OrderedIndex.Table.Command

namespace OrderedIndex

/-- Tables open on one store, in the order in which they were opened. -/
structure Database where
  store : Store
  tables : List Table

namespace Database

def empty : Database := ⟨.empty, []⟩

/-- Opens one more table. -/
def openTable (db : Database) (id : TableId) (name : String) (columns : List Column)
    (config : IndexConfig) :
    Except Error Database :=
  (Session.openTable db.store id name columns config).map fun s => ⟨s.store, db.tables ++ [s.table]⟩

/-- One of the tables on the store. -/
def session? (db : Database) (table : Nat) : Option Session :=
  db.tables[table]?.map fun t => ⟨db.store, t⟩

/-- The database after one of its tables has been worked with. -/
def update (db : Database) (table : Nat) (s : Session) : Database :=
  ⟨s.store, db.tables.set table s.table⟩

/-- Runs a command on one of the tables. -/
def run (db : Database) (table : Nat) (c : Command) : Option (Except Error Reply × Database) :=
  (db.session? table).map fun s =>
    let (reply, s) := s.run c
    (reply, db.update table s)

/-! ### Histories -/

/-- What a table is opened with. -/
structure Opening where
  id : TableId
  name : String
  columns : List Column
  config : IndexConfig

/-- Opens one table after the other. -/
def openAll (db : Database) (openings : List Opening) : Except Error Database :=
  openings.foldlM (fun db o => db.openTable o.id o.name o.columns o.config) db

/-- The database after a command on one of its tables, whether it succeeds or fails. -/
def perform (db : Database) (step : Nat × Command) : Database :=
  match db.run step.1 step.2 with
  | none => db
  | some (_, db) => db

def runAll (db : Database) (steps : List (Nat × Command)) : Database := steps.foldl perform db

/-- The steps of a history, each with the database on which it is taken. -/
def visits (db : Database) : List (Nat × Command) → List (Database × (Nat × Command))
  | [] => []
  | step :: steps => (db, step) :: (db.perform step).visits steps

end Database
end OrderedIndex
