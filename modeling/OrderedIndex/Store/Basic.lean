/-
  OrderedIndex/Store/Basic.lean
  =============================
  **The ordered store** — maps from byte strings to byte strings, each open one
  reachable under one name of a directory.

  A `MapId` is a handle: it goes on meaning the same map when the map is renamed,
  and every operation on it fails once the map is removed.  An operation that fails
  gives back no store, so it changes nothing.
-/
import OrderedIndex.Bytes
import OrderedIndex.SortedMap
import OrderedIndex.StoreError

namespace OrderedIndex

/-- A handle to a map of a store. -/
structure MapId where
  index : Nat
  deriving DecidableEq, Inhabited

/-- A map, open or removed. -/
structure MapState where
  name : String
  entries : SortedMap Bytes Bytes
  /-- Whether the map has been removed. -/
  closed : Bool
  deriving DecidableEq

structure Store where
  /-- Every map there has been, in the order in which they were made. -/
  maps : List MapState
  directory : SortedMap String MapId
  deriving DecidableEq

namespace Store

def empty : Store := ⟨[], .empty⟩

/-! ### The directory -/

/-- The map of the given name, which is made if there is none. -/
def openMap (s : Store) (name : String) : MapId × Store :=
  match s.directory.get? name with
  | some m => (m, s)
  | none =>
    let m : MapId := ⟨s.maps.length⟩
    (m, ⟨s.maps ++ [⟨name, .empty, false⟩], s.directory.insert name m⟩)

def hasMap (s : Store) (name : String) : Bool := s.directory.contains name

/-- The names of the open maps, in order. -/
def mapNames (s : Store) : List String := s.directory.keys

/-! ### Single maps -/

/-- The map behind a handle.  A handle of another store reads as a removed map. -/
def state (s : Store) (m : MapId) : MapState := s.maps.getD m.index ⟨"", .empty, true⟩

/-- The name of a map; of a removed one, the last it had. -/
def nameOf (s : Store) (m : MapId) : String := (s.state m).name

def isClosed (s : Store) (m : MapId) : Bool := (s.state m).closed

/-- The entries of an open map. -/
def read (s : Store) (m : MapId) : Except StoreError (SortedMap Bytes Bytes) :=
  if s.isClosed m then .error (.closed (s.nameOf m)) else .ok (s.state m).entries

/-- The store with other entries in one map. -/
def setEntries (s : Store) (m : MapId) (entries : SortedMap Bytes Bytes) : Store :=
  { s with maps := s.maps.modify m.index fun st => { st with entries } }

def get (s : Store) (m : MapId) (key : Bytes) : Except StoreError (Option Bytes) :=
  (s.read m).map (·.get? key)

/-- Inserts or replaces an entry, and gives what the key was bound to. -/
def put (s : Store) (m : MapId) (key value : Bytes) : Except StoreError (Option Bytes × Store) :=
  (s.read m).map fun entries => (entries.get? key, s.setEntries m (entries.insert key value))

/-- Removes an entry, and gives what the key was bound to. -/
def remove (s : Store) (m : MapId) (key : Bytes) : Except StoreError (Option Bytes × Store) :=
  (s.read m).map fun entries => (entries.get? key, s.setEntries m (entries.erase key))

/-- Removes every entry; the map stays. -/
def clear (s : Store) (m : MapId) : Except StoreError Store :=
  (s.read m).map fun _ => s.setEntries m .empty

def size (s : Store) (m : MapId) : Except StoreError Nat := (s.read m).map (·.size)

/-! ### Neighbours -/

/-- The smallest key at or after `key`. -/
def ceilingKey (s : Store) (m : MapId) (key : Bytes) : Except StoreError (Option Bytes) :=
  (s.read m).map (·.ceiling? key)

/-- The smallest key after `key`. -/
def higherKey (s : Store) (m : MapId) (key : Bytes) : Except StoreError (Option Bytes) :=
  (s.read m).map (·.higher? key)

/-- The largest key before `key`. -/
def lowerKey (s : Store) (m : MapId) (key : Bytes) : Except StoreError (Option Bytes) :=
  (s.read m).map (·.lower? key)

def firstKey (s : Store) (m : MapId) : Except StoreError (Option Bytes) := (s.read m).map (·.first?)

def lastKey (s : Store) (m : MapId) : Except StoreError (Option Bytes) := (s.read m).map (·.last?)

/-! ### Names and removal -/

/-- Gives a map another name, which must be free.  Its own name is always allowed. -/
def rename (s : Store) (m : MapId) (name : String) : Except StoreError Store :=
  let old := s.nameOf m
  if s.isClosed m then .error (.closed old)
  else if old = name then .ok s
  else if s.hasMap name then .error (.mapExists name)
  else
    .ok {
      maps := s.maps.modify m.index fun st => { st with name }
      directory :=
        match s.directory.get? old with
        | none => s.directory
        | some m => (s.directory.erase old).insert name m }

/-- Removes a map with all its entries, and frees its name. -/
def removeMap (s : Store) (m : MapId) : Except StoreError Store :=
  if s.isClosed m then .error (.closed (s.nameOf m))
  else
    .ok {
      maps := s.maps.modify m.index fun st => { st with entries := .empty, closed := true }
      directory := s.directory.erase (s.nameOf m) }

/-- Every open map by its name, with its entries. -/
def contents (s : Store) : List (String × List (Bytes × Bytes)) :=
  s.directory.entries.map fun e => (e.1, (s.state e.2).entries.entries)

end Store
end OrderedIndex
