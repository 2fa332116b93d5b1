/-
  OrderedIndex/Store/Client.lean
  ==============================
  **Clients of a store** — the calls that are made through the handles a store has
  given out, as data, so that a history of a store is a list of them.

  Handles are known by their numbers, in the order in which they were given out.
  Opening a map gives one, and cloning gives one more that leads to the same map.
-/
import OrderedIndex.Store.Basic

namespace OrderedIndex

/-- A call through a handle that changes the map behind it. -/
inductive MapCall
  | put (key value : Bytes)
  | remove (key : Bytes)
  | clear
  | rename (name : String)
  | removeMap
  deriving DecidableEq

/-- Makes a call, which gives what a key was bound to, if the call is about a key.  One that fails
    leaves the store. -/
def Store.perform (s : Store) (m : MapId) (call : MapCall) :
    Except StoreError (Option Bytes) × Store :=
  let outcome :=
    match call with
    | .put key value => s.put m key value
    | .remove key => s.remove m key
    | .clear => (s.clear m).map (none, ·)
    | .rename name => (s.rename m name).map (none, ·)
    | .removeMap => (s.removeMap m).map (none, ·)
  match outcome with
  | .error e => (.error e, s)
  | .ok (old, s) => (.ok old, s)

/-- What a client does with a store. -/
inductive StoreCall
  | openMap (name : String)
  | clone (handle : Nat)
  | via (handle : Nat) (call : MapCall)
  deriving DecidableEq

/-- A store and the handles it has given out. -/
structure Client where
  store : Store
  handles : List MapId
  deriving DecidableEq

namespace Client

def empty : Client := ⟨.empty, []⟩

/-- The client after a call, whether it succeeds or fails.  Through a number that no handle has
    there is no call. -/
def run (c : Client) : StoreCall → Client
  | .openMap name =>
    let (m, store) := c.store.openMap name
    ⟨store, c.handles ++ [m]⟩
  | .clone handle => { c with handles := c.handles ++ c.handles[handle]?.toList }
  | .via handle call =>
    match c.handles[handle]? with
    | none => c
    | some m => { c with store := (c.store.perform m call).2 }

def runAll (c : Client) (calls : List StoreCall) : Client := calls.foldl run c

/-- The map that a call removes. -/
def removes? (c : Client) : StoreCall → Option MapId
  | .openMap _ | .clone _ => none
  | .via handle call => c.handles[handle]?.filter fun m =>
    call = .removeMap ∧ (c.store.perform m call).1.isOk

/-- The maps that are removed in the course of a history. -/
def removals (c : Client) : List StoreCall → List MapId
  | [] => []
  | call :: calls => (c.removes? call).toList ++ (c.run call).removals calls

end Client
end OrderedIndex
