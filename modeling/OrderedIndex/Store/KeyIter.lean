/-
  OrderedIndex/Store/KeyIter.lean
  ===============================
  **Key iterators** — a place in the key order of a map, not a copy of its keys.
  Each step looks at the map as it is then, for the first key after the last one
  given.  The first step that finds none, or finds the map removed, is the last.
-/
import OrderedIndex.Store.Basic

namespace OrderedIndex

/-- Where the next key is looked for. -/
inductive KeyStart
  | anywhere
  | atOrAfter (key : Bytes)
  | after (key : Bytes)
  deriving DecidableEq

namespace KeyStart

/-- The first key of a map at or behind the place. -/
def seek (entries : SortedMap Bytes Bytes) : KeyStart → Option Bytes
  | anywhere => entries.first?
  | atOrAfter key => entries.ceiling? key
  | after key => entries.higher? key

end KeyStart

structure KeyIter where
  map : MapId
  start : KeyStart
  /-- Whether the iterator has come to its end. -/
  done : Bool
  deriving DecidableEq

namespace KeyIter

/-- The next key, a fault, or the end. -/
def next (s : Store) (it : KeyIter) : Option (Except StoreError Bytes) × KeyIter :=
  if it.done then (none, it)
  else
    match s.read it.map with
    | .error e => (some (.error e), { it with done := true })
    | .ok entries =>
      match it.start.seek entries with
      | none => (none, { it with done := true })
      | some key => (some (.ok key), { it with start := .after key })

/-- Everything that is still to come while the store stays as it is. -/
def drain (s : Store) (it : KeyIter) : List (Except StoreError Bytes) :=
  go ((s.state it.map).entries.size + 1) it
where
  go : Nat → KeyIter → List (Except StoreError Bytes)
    | 0, _ => []
    | rounds + 1, it =>
      match it.next s with
      | (none, _) => []
      | (some key, it) => key :: go rounds it

end KeyIter

namespace Store

/-- An iterator over the keys of an open map, from a key on if one is given. -/
def keyIter (s : Store) (m : MapId) (start : Option Bytes) : Except StoreError KeyIter :=
  (s.read m).map fun _ => ⟨m, start.elim .anywhere .atOrAfter, false⟩

/-- The keys of an open map, from a key on if one is given. -/
def keys (s : Store) (m : MapId) (start : Option Bytes) : Except StoreError (List Bytes) := do
  let it ← s.keyIter m start
  (it.drain s).mapM id

end Store
end OrderedIndex
