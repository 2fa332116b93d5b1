/-
  OrderedIndex/Index/Cursor.lean
  ==============================
  **Cursors** — one pass over entries of an index, in key order, up to a bound.

  The entry a cursor stands on is decoded when it is first asked for, and its row
  is loaded when that is asked for; both are kept until the cursor moves.  Once a
  cursor is exhausted, by the end of the keys, by the bound or by a fault of
  `advance`, it stays so and stands on nothing.
-/
import OrderedIndex.Index.KeyLayout
import OrderedIndex.Store.KeyIter

namespace OrderedIndex

/-- Where a cursor takes its keys from. -/
inductive KeySource
  /-- The keys of a map, as the map is at each step. -/
  | live (it : KeyIter)
  /-- One key that has been found beforehand. -/
  | once (key : Option Bytes)
  deriving DecidableEq

namespace KeySource

def next (s : Store) : KeySource → Option (Except StoreError Bytes) × KeySource
  | live it =>
    let (key, it) := it.next s
    (key, live it)
  | once key => (key.map .ok, once none)

/-- At least as many steps as the source has before it ends, while the store stays as it is. -/
def stepBound (s : Store) : KeySource → Nat
  | live it => (s.state it.map).entries.size + 1
  | once _ => 1

end KeySource

/-- Loads rows by id.  `σ` is what loading may change. -/
abbrev RowSource (σ : Type) := RowId → σ → Except Error Row × σ

structure Cursor where
  layout : KeyLayout
  keys : KeySource
  /-- The first key beyond this row ends the pass. -/
  upper : Option SearchRow
  exhausted : Bool
  /-- The key of the current entry. -/
  key : Option Bytes
  /-- What the key tells, once it has been decoded. -/
  decoded : Option SearchRow
  /-- The whole row, once it has been loaded. -/
  loaded : Option Row
  /-- Whether the current entry was found ahead of the first step and has not been handed out by
      `next` yet. -/
  unread : Bool
  deriving DecidableEq

namespace Cursor

/-- A cursor in front of the first key. -/
def new (layout : KeyLayout) (keys : KeySource) (upper : Option SearchRow) : Cursor :=
  ⟨layout, keys, upper, false, none, none, none, false⟩

/-- The cursor at its end. -/
def finish (c : Cursor) : Cursor :=
  { c with exhausted := true, key := none, decoded := none, loaded := none }

/-! ### Moving -/

/-- Moves onto a key, unless it lies beyond the upper bound. -/
def enter (c : Cursor) (key : Bytes) : Except Error Bool × Cursor :=
  match c.upper with
  | none => (.ok true, { c with key := some key })
  | some upper =>
    match c.layout.decode key with
    | .error e => (.error e, c.finish)
    | .ok row =>
      if c.layout.compareRows row upper = .gt then (.ok false, c.finish)
      else (.ok true, { c with key := some key, decoded := some row })

/-- Moves to the next entry, if there is one. -/
def advance (s : Store) (c : Cursor) : Except Error Bool × Cursor :=
  if c.exhausted then (.ok false, c)
  else
    let (key, keys) := c.keys.next s
    let c := { c with keys, decoded := none, loaded := none, unread := false }
    match key with
    | none => (.ok false, c.finish)
    | some (.error e) => (.error (.store e), c.finish)
    | some (.ok key) => c.enter key

/-- Moves onto the first entry ahead of the caller. -/
def position (s : Store) (c : Cursor) : Except Error Cursor :=
  match c.advance s with
  | (.error e, _) => .error e
  | (.ok unread, c) => .ok { c with unread }

/-! ### The current entry -/

/-- What the key of the current entry tells. -/
def searchRow (c : Cursor) : Except Error (Option SearchRow) × Cursor :=
  match c.decoded, c.key with
  | none, some key =>
    match c.layout.decode key with
    | .error e => (.error e, c)
    | .ok row => (.ok (some row), { c with decoded := some row })
  | decoded, _ => (.ok decoded, c)

/-- The row id of the current entry. -/
def rowId (c : Cursor) : Except Error (Option RowId) × Cursor :=
  let (row, c) := c.searchRow
  (row.map fun row => row.bind SearchRow.rowId, c)

/-- The row of the current entry. -/
def current {σ : Type} (load : RowSource σ) (c : Cursor) (st : σ) :
    Except Error (Option Row) × Cursor × σ :=
  match c.loaded with
  | some row => (.ok (some row), c, st)
  | none =>
    match c.rowId with
    | (.error e, c) => (.error e, c, st)
    | (.ok none, c) => (.ok none, c, st)
    | (.ok (some id), c) =>
      match load id st with
      | (.error e, st) => (.error e, c, st)
      | (.ok row, st) => (.ok (some row), { c with loaded := some row }, st)

/-! ### Handing out entries -/

/-- Moves to the next entry that has not been handed out. -/
def step (s : Store) (c : Cursor) : Except Error Bool × Cursor :=
  if c.unread then (.ok true, { c with unread := false }) else c.advance s

/-- The next entry, a fault, or the end. -/
def next (s : Store) (c : Cursor) : Option (Except Error SearchRow) × Cursor :=
  match c.step s with
  | (.error e, c) => (some (.error e), c)
  | (.ok false, c) => (none, c)
  | (.ok true, c) =>
    match c.searchRow with
    | (.error e, c) => (some (.error e), c)
    | (.ok row, c) => (row.map .ok, c)

/-- At least as many steps as the cursor has before it ends, while the store stays as it is. -/
def stepBound (s : Store) (c : Cursor) : Nat := c.keys.stepBound s + 1

/-- All entries that are still to come while the store stays as it is. -/
def collect (s : Store) (c : Cursor) : List (Except Error SearchRow) × Cursor :=
  go (c.stepBound s + 1) c
where
  go : Nat → Cursor → List (Except Error SearchRow) × Cursor
    | 0, c => ([], c)
    | rounds + 1, c =>
      match c.next s with
      | (none, c) => ([], c)
      | (some row, c) =>
        let (rows, c) := go rounds c
        (row :: rows, c)

/-- The rows of all entries that are still to come, up to the first fault. -/
def intoRows {σ : Type} (load : RowSource σ) (s : Store) (c : Cursor) (st : σ) :
    Except Error (List Row) × σ :=
  go (c.stepBound s + 1) c st
where
  go : Nat → Cursor → σ → Except Error (List Row) × σ
    | 0, _, st => (.ok [], st)
    | rounds + 1, c, st =>
      match c.step s with
      | (.error e, _) => (.error e, st)
      | (.ok false, _) => (.ok [], st)
      | (.ok true, c) =>
        match c.current load st with
        | (.error e, _, st) => (.error e, st)
        | (.ok row, c, st) =>
          let (rows, st) := go rounds c st
          (rows.map (row.toList ++ ·), st)

end Cursor
end OrderedIndex
