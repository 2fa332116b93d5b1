/-
  OrderedIndex/Table/Shared.lean
  ==============================
  **Tables that are not alone on their store.**  Other code has handles of maps of the
  same store, and works with them between the commands on the table.
-/
import OrderedIndex.Store.Client
import OrderedIndex.Table.Command

namespace OrderedIndex

/-- A table, and the other code on its store. -/
structure Shared where
  session : Session
  /-- The handles that the other code has been given. -/
  handles : List MapId

namespace Shared

/-- What happens on the store. -/
inductive Event
  | command (c : Command)
  | call (c : StoreCall)
  deriving DecidableEq

/-- Opens a table on a store that other code has worked with. -/
def openTable (client : Client) (id : TableId) (name : String) (columns : List Column)
    (config : IndexConfig) :
    Except Error Shared :=
  (Session.openTable client.store id name columns config).map fun s => ⟨s, client.handles⟩

def run (sh : Shared) : Event → Shared
  | .command c => { sh with session := (sh.session.run c).2 }
  | .call c =>
    let client := (Client.mk sh.session.store sh.handles).run c
    ⟨{ sh.session with store := client.store }, client.handles⟩

def runAll (sh : Shared) (events : List Event) : Shared := events.foldl run sh

/-- The events of a history, each with the state in which it happens. -/
def visits (sh : Shared) : List Event → List (Shared × Event)
  | [] => []
  | event :: events => (sh, event) :: (sh.run event).visits events

end Shared
end OrderedIndex
