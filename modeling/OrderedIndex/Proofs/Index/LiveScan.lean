/-
  OrderedIndex/Proofs/Index/LiveScan.lean
  =======================================
  **Scans of an index that changes**, by rows that are added and removed between the
  steps of the cursor, before it and behind it.

  An advance of the cursor is a step over the keys of the index, cut off at the first
  that is beyond the upper bound (`LiveScan.gives`).  The keys tell rows in the order of
  the index, and a row within the bounds precedes all that are beyond, so no row within
  is passed over because of one that is not.
-/
import OrderedIndex.Proofs.Index.Bounds
import OrderedIndex.Proofs.Index.Unique

namespace OrderedIndex

theorem KeyLayout.KeysOfRows.perform {ix : Index} {s : Store} {m : SortedMap Bytes Bytes}
    (h : ix.layout.KeysOfRows m) (hread : s.read ix.map = .ok m) (c : Index.Change) :
    ∃ m', (ix.perform s c).2.read ix.map = .ok m' ∧ ix.layout.KeysOfRows m' := by
  obtain ⟨m', hread', rfl | ⟨row, hok⟩ | ⟨row, hok⟩ | rfl⟩ := Index.read_perform hread c
  · exact ⟨_, hread', h⟩
  · obtain ⟨key, entries, hkey, hentries, rfl⟩ := Index.entriesWith_eq_ok hok
    cases hread.symm.trans hentries
    exact ⟨_, hread', h.insert hkey⟩
  · obtain ⟨key, entries, -, hentries, -, rfl⟩ := Index.entriesWithout_eq_ok hok
    cases hread.symm.trans hentries
    exact ⟨_, hread', h.of_subset (m.erase_subset key)⟩
  · exact ⟨_, hread', KeyLayout.keysOfRows_empty⟩

namespace Cursor

/-- The key is that of a row beyond the upper bound. -/
def Beyond (l : KeyLayout) (upper : Option SearchRow) (key : Bytes) : Prop :=
  ∃ row, l.encode row = .ok key ∧ within l upper row = false

/-- The cursor looks for its next key in a map, from a place on. -/
structure Seeks (c : Cursor) (l : KeyLayout) (upper : Option SearchRow) (map : MapId)
    (start : KeyStart) : Prop where
  layout : c.layout = l
  upper : c.upper = upper
  exhausted : c.exhausted = false
  keys : c.keys = .live ⟨map, start, false⟩

variable {c : Cursor} {l : KeyLayout} {upper : Option SearchRow} {map : MapId} {start : KeyStart}
  {s : Store} {m : SortedMap Bytes Bytes}

theorem Beyond.lt {row : Row} {key k : Bytes} (h : Beyond l upper k) (hkey : l.encode row = .ok key)
    (hin : within l upper row = true) : compare key k = .lt := by
  obtain ⟨b, hb, hout⟩ := h
  exact (KeyLayout.precedes_iff hkey hb).1
    (KeyLayout.precedes_of_within (KeyLayout.encodable_of_encode hkey)
    (KeyLayout.encodable_of_encode hb) hin hout)

theorem advance_of_exhausted (h : c.exhausted = true) (s : Store) :
    c.advance s = (.ok false, c) := by
  rw [advance, if_pos h]

/-- An advance comes to the end, or moves onto the next key. -/
theorem Seeks.advance_cases (h : c.Seeks l upper map start) (hread : s.read map = .ok m)
    (hm : l.KeysOfRows m) :
    ((∀ key, start.seek m = some key → Beyond l upper key) ∧
        ∃ c', c.advance s = (.ok false, c') ∧ c'.exhausted = true ∧ c'.key = none) ∨
      ∃ key c', start.seek m = some key ∧ ¬Beyond l upper key ∧ c.advance s = (.ok true, c') ∧
        c'.key = some key ∧
        c'.Seeks l upper map (.after key) := by
  obtain ⟨rfl, rfl, hexhausted, hkeys⟩ := h
  rcases KeyIter.next_cases s ⟨map, start, false⟩ rfl with
    ⟨e, herror, -⟩ | ⟨entries, hok, ⟨hseek, hnext⟩ | ⟨key, hseek, hnext⟩⟩
  · cases hread.symm.trans herror
  · cases hread.symm.trans hok
    refine .inl ⟨?_, ?_⟩
    · intro key hkey
      cases hseek.symm.trans hkey
    · simp only [advance, hexhausted, hkeys, KeySource.next, hnext]
      exact ⟨_, rfl, rfl, rfl⟩
  · cases hread.symm.trans hok
    obtain ⟨row, hrow⟩ := hm key (KeyStart.seek_eq_some_iff.1 hseek).1
    have hadvance := advance_of_key (s := s) hexhausted (by rw [hkeys, KeySource.next, hnext])
    rw [hadvance]
    rcases hin : within c.layout c.upper row with _ | _
    · refine .inl ⟨?_, _, enter_of_beyond hrow hin, rfl, rfl⟩
      intro k hk
      cases hseek.symm.trans hk
      exact ⟨row, hrow, hin⟩
    · obtain ⟨search, decoded, henter, -⟩ := enter_of_within (c := { c with
        keys := .live ⟨map, .after key, false⟩, decoded := none, loaded := none,
        unread := false }) hrow hin
      refine .inr ⟨key, _, hseek, ?_, henter, rfl, rfl, rfl, hexhausted, rfl⟩
      intro hbeyond
      exact absurd (hbeyond.lt hrow hin) (not_compare_lt_self key)

end Cursor

/-- A cursor over an index, and the store that they are over. -/
structure LiveScan where
  index : Index
  store : Store
  cursor : Cursor

namespace LiveScan

inductive Event
  | advance
  | change (c : Index.Change)
  deriving DecidableEq

/-- An advance: the entries of the index as they are then, the outcome, and the key the cursor is on
    from then on. -/
structure Move where
  entries : Except Error (SortedMap Bytes Bytes)
  moved : Except Error Bool
  key : Option Bytes

def run (p : LiveScan) : Event → LiveScan
  | .advance => { p with cursor := (p.cursor.advance p.store).2 }
  | .change c => { p with store := (p.index.perform p.store c).2 }

def move? (p : LiveScan) : Event → Option Move
  | .advance =>
    let (moved, cursor) := p.cursor.advance p.store
    some ⟨p.index.entries p.store, moved, cursor.key⟩
  | .change _ => none

def moves (p : LiveScan) : List Event → List Move
  | [] => []
  | event :: events => (p.move? event).toList ++ (p.run event).moves events

/-- The keys that the cursor moves onto. -/
def keys (moves : List Move) : List Bytes := moves.filterMap Move.key

namespace Move

def moment (x : Move) : Moment Error where
  read := x.entries
  answer :=
    match x.moved with
    | .error e => some (.error e)
    | .ok true => x.key.map .ok
    | .ok false => none

/-- The entries are those of an index, and the cursor is on a key exactly if it has moved. -/
def Regular (l : KeyLayout) (x : Move) : Prop :=
  ∃ m, l.KeysOfRows m ∧ ((∃ key, x = ⟨.ok m, .ok true, some key⟩) ∨ x = ⟨.ok m, .ok false, none⟩)

variable {x : Move} {l : KeyLayout}

theorem Regular.key? (h : x.Regular l) : x.moment.key? = x.key := by
  obtain ⟨m, -, ⟨key, rfl⟩ | rfl⟩ := h <;> rfl

theorem Regular.answer_eq_none_iff (h : x.Regular l) :
    x.moment.answer = none ↔ x.moved = .ok false := by
  obtain ⟨m, -, ⟨key, rfl⟩ | rfl⟩ := h <;> simp [moment]

theorem Regular.answer_of_moved (h : x.Regular l) (hmoved : x.moved = .ok true) :
    ∃ key, x.moment.answer = some (.ok key) := by
  obtain ⟨m, -, ⟨key, rfl⟩ | rfl⟩ := h
  · exact ⟨key, rfl⟩
  · cases hmoved

theorem keys_moments {moves : List Move} (h : ∀ x ∈ moves, x.Regular l) :
    Moment.keys (moves.map moment) = keys moves := by
  rw [Moment.keys, keys, List.filterMap_map]
  exact List.filterMap_congr fun x hx => (h x hx).key?

end Move

variable {p : LiveScan} {upper : Option SearchRow} {start : KeyStart} {m : SortedMap Bytes Bytes}

theorem silent_of_exhausted (hexhausted : p.cursor.exhausted = true) (hkey : p.cursor.key = none)
    (hread : p.store.read p.index.map = .ok m) (hm : p.index.layout.KeysOfRows m)
    (events : List Event) :
    ∀ x ∈ p.moves events, x.Regular p.index.layout ∧ x.moment.answer = none := by
  induction events generalizing p m with
  | nil => simp [moves]
  | cons event events ih =>
    cases event with
    | change c =>
      obtain ⟨m', hread', hm'⟩ := hm.perform hread c
      exact ih (p := p.run (.change c)) hexhausted hkey hread' hm'
    | advance =>
      have hadvance := Cursor.advance_of_exhausted hexhausted p.store
      have hentries : p.index.entries p.store = .ok m := by rw [Index.entries, hread]; rfl
      simp only [moves, move?, hadvance, Option.toList_some,
        List.singleton_append, List.forall_mem_cons]
      refine ⟨⟨⟨m, hm, .inr ?_⟩, rfl⟩, ?_⟩
      · rw [hentries, hkey]
      · exact ih (p := p.run .advance) (by simp only [run, hadvance, hexhausted])
          (by simp only [run, hadvance, hkey])
          hread hm

/-- **The advances are steps over the keys of the index**, up to the first that is beyond the
    bound. -/
theorem gives (hseeks : p.cursor.Seeks p.index.layout upper p.index.map start)
    (hread : p.store.read p.index.map = .ok m) (hm : p.index.layout.KeysOfRows m)
    (events : List Event) :
    (∀ x ∈ p.moves events, x.Regular p.index.layout) ∧
      start.Gives (Cursor.Beyond p.index.layout upper) ((p.moves events).map Move.moment) := by
  induction events generalizing p start m with
  | nil => exact ⟨by simp [moves], .nil⟩
  | cons event events ih =>
    cases event with
    | change c =>
      obtain ⟨m', hread', hm'⟩ := hm.perform hread c
      exact ih (p := p.run (.change c)) hseeks hread' hm'
    | advance =>
      have hentries : p.index.entries p.store = .ok m := by rw [Index.entries, hread]; rfl
      rcases hseeks.advance_cases hread hm with
        ⟨hend, c', hadvance, hexhausted, hkey⟩ | ⟨key, c', hseek, hwithin, hadvance, hkey, hseeks'⟩
      · have hrest :=
          silent_of_exhausted (p := { p with cursor := c' }) hexhausted hkey hread hm events
        simp only [moves, move?, run, hadvance, hentries, hkey, Option.toList_some,
          List.singleton_append, List.forall_mem_cons, List.map_cons]
        refine ⟨⟨⟨m, hm, .inr rfl⟩, fun x hx => (hrest x hx).1⟩, .ended hend ?_⟩
        intro x hx
        obtain ⟨y, hy, rfl⟩ := List.mem_map.1 hx
        exact (hrest y hy).2
      · obtain ⟨hregular, hgives⟩ := ih (p := { p with cursor := c' }) hseeks' hread hm
        simp only [moves, move?, run, hadvance, hentries, hkey, Option.toList_some,
          List.singleton_append, List.forall_mem_cons, List.map_cons]
        exact ⟨⟨⟨m, hm, .inl ⟨key, rfl⟩⟩, hregular⟩, .found hseek hwithin hgives⟩

/-! ### Scans within bounds -/

/-- The advances go through the rows, and these are what is within the bounds, whatever is added and
    removed meanwhile. -/
structure Faithful (l : KeyLayout) (lower upper : Option SearchRow) (moves : List Move)
    (rows : List Row) : Prop where
  encoded : rows.mapM l.encode = .ok (keys moves)
  ordered : rows.Pairwise l.Precedes
  inBounds : ∀ row ∈ rows, l.InBounds lower upper row
  /-- An advance moves onto an entry that is there at the time, or gives false and is on none. -/
  moved : ∀ x ∈ moves,
    (x.moved = .ok true ∧ ∃ entries key, x.entries = .ok entries ∧ x.key = some key ∧
      key ∈ entries.keys) ∨
      x.moved = .ok false ∧ x.key = none
  /-- When an advance first gives false, no entry within the bounds is behind the last one. -/
  ended : ∀ before x after, moves = before ++ x :: after → (∀ y ∈ before, y.moved = .ok true) →
    x.moved = .ok false →
    ∃ entries, x.entries = .ok entries ∧ ∀ row, l.Holds entries row → l.InBounds lower upper row →
      ∃ last ∈ rows.getLast?, ¬l.Precedes last row
  /-- An entry within the bounds that is there at every advance up to the end comes exactly once. -/
  once : ∀ before x after, moves = before ++ x :: after → x.moved = .ok false →
    ∀ row key, l.encode row = .ok key → l.InBounds lower upper row →
      (∀ y ∈ before ++ [x], ∃ entries, y.entries = .ok entries ∧ key ∈ entries.keys) →
      (keys moves).count key = 1
  exhausted : ∀ before x after, moves = before ++ x :: after → x.moved = .ok false →
    ∀ y ∈ after, y.moved = .ok false

/-- The advances are steps over the keys of an index from a place on, which is that of the lower
    bound. -/
structure Steps (l : KeyLayout) (lower upper : Option SearchRow) (start : KeyStart)
    (moves : List Move) : Prop where
  regular : ∀ x ∈ moves, x.Regular l
  gives : start.Gives (Cursor.Beyond l upper) (moves.map Move.moment)
  covers_iff : ∀ r key, l.encode r = .ok key →
    (start.covers key = true ↔ ∀ low ∈ lower, KeyLayout.AtOrAfter r low l.parts)

variable {l : KeyLayout} {lower : Option SearchRow} {moves before after : List Move} {x : Move}
  {rows : List Row} {row : Row} {key : Bytes}

theorem Steps.mem_entries (h : Steps l lower upper start moves) {m : SortedMap Bytes Bytes}
    (hx : ⟨.ok m, .ok true, some key⟩ ∈ moves) : key ∈ m.keys := by
  obtain ⟨_, ⟨⟩, hmem⟩ := h.gives.sees _ (List.mem_map_of_mem hx) key rfl
  exact hmem

theorem Steps.exists_rows (h : Steps l lower upper start moves) :
    ∃ rows : List Row, rows.mapM l.encode = .ok (keys moves) := by
  have hkeys : ∀ key ∈ keys moves, ∃ row, True ∧ l.encode row = .ok key := by
    intro key hkey
    obtain ⟨x, hx, hxkey⟩ := List.mem_filterMap.1 hkey
    obtain ⟨m, hm, ⟨key', rfl⟩ | rfl⟩ := h.regular x hx
    · cases hxkey
      obtain ⟨row, hrow⟩ := hm key (h.mem_entries hx)
      exact ⟨row, trivial, hrow⟩
    · cases hxkey
  obtain ⟨rows, hrows, -⟩ := exists_mapM_eq hkeys
  exact ⟨rows, hrows⟩

theorem Steps.inBounds (h : Steps l lower upper start moves) (hkey : key ∈ keys moves)
    (hrow : l.encode row = .ok key) :
    l.InBounds lower upper row := by
  rw [← Move.keys_moments h.regular] at hkey
  refine KeyLayout.inBounds_iff.2 ⟨(h.covers_iff row key hrow).1 (h.gives.covers key hkey), ?_⟩
  by_contra hout
  exact h.gives.within key hkey ⟨row, hrow, Bool.eq_false_of_not_eq_true hout⟩

/-- At an advance that gives false the steps over the keys come to their end. -/
theorem Steps.at_end (h : Steps l lower upper start (before ++ x :: after))
    (hx : x.moved = .ok false) :
    x.moment.answer = none ∧
      start.Gives (Cursor.Beyond l upper)
        (before.map Move.moment ++ x.moment :: after.map Move.moment) := by
  have hgives := h.gives
  rw [List.map_append, List.map_cons] at hgives
  exact ⟨(h.regular x (by simp)).answer_eq_none_iff.2 hx, hgives⟩

theorem Steps.exhausted (h : Steps l lower upper start (before ++ x :: after))
    (hx : x.moved = .ok false) :
    ∀ y ∈ after, y.moved = .ok false := by
  obtain ⟨hanswer, hgives⟩ := h.at_end hx
  intro y hy
  rw [← (h.regular y (by simp [hy])).answer_eq_none_iff]
  refine hgives.silent ?_ _ (List.mem_map_of_mem hy)
  rw [hanswer]
  nofun

theorem Steps.mem_keys (h : Steps l lower upper start (before ++ x :: after))
    (hx : x.moved = .ok false) (hrow : l.encode row = .ok key) (hin : l.InBounds lower upper row)
    (hthere : ∀ y ∈ before ++ [x], ∃ entries, y.entries = .ok entries ∧ key ∈ entries.keys) :
    key ∈ keys (before ++ x :: after) := by
  obtain ⟨hanswer, hgives⟩ := h.at_end hx
  obtain ⟨hlow, hup⟩ := KeyLayout.inBounds_iff.1 hin
  rw [← Move.keys_moments h.regular, List.map_append, List.map_cons]
  refine hgives.mem_keys hanswer ?_ ((h.covers_iff row key hrow).2 hlow) fun k hk => hk.lt hrow hup
  rw [← List.map_singleton, ← List.map_append]
  exact List.forall_mem_map.2 hthere

theorem Steps.ended (h : Steps l lower upper start (before ++ x :: after))
    (hrows : rows.mapM l.encode = .ok (keys (before ++ x :: after)))
    (hbefore : ∀ y ∈ before, y.moved = .ok true) (hx : x.moved = .ok false) :
    ∃ entries, x.entries = .ok entries ∧ ∀ row, l.Holds entries row →
      l.InBounds lower upper row → ∃ last ∈ rows.getLast?, ¬l.Precedes last row := by
  obtain ⟨hanswer, hgives⟩ := h.at_end hx
  obtain ⟨m, -, ⟨key, rfl⟩ | rfl⟩ := h.regular x (by simp)
  · cases hx
  refine ⟨m, rfl, ?_⟩
  rintro row ⟨key, hkey, hrow⟩ hin
  obtain ⟨hlow, hup⟩ := KeyLayout.inBounds_iff.1 hin
  have hmoved : ∀ y ∈ before.map Move.moment, ∃ key, y.answer = some (.ok key) :=
    List.forall_mem_map.2 fun y hy => (h.regular y (by simp [hy])).answer_of_moved (hbefore y hy)
  obtain ⟨last, hlast, hle⟩ :=
    hgives.le_last hanswer hmoved ⟨m, rfl, hkey⟩ ((h.covers_iff row key hrow).2 hlow)
    fun k hk => hk.lt hrow hup
  -- behind the end there are no keys, so the last one before it is the last of all
  have hkeys :
      keys (before ++ ⟨.ok m, .ok false, none⟩ :: after) =
        Moment.keys (before.map Move.moment) := by
    have hsilent := hgives.silent (by rw [hanswer]; nofun)
    rw [← Move.keys_moments h.regular, List.map_append, List.map_cons, Moment.keys_append,
      KeyStart.keys_of_last rfl hsilent, List.append_nil]
  rw [← hkeys] at hlast
  obtain ⟨r, hr, hrlast⟩ := getLast?_of_mapM hrows hlast
  refine ⟨r, hr, ?_⟩
  rw [KeyLayout.precedes_iff hrlast hrow]
  exact Std.OrientedCmp.not_lt_of_isLE hle

theorem Steps.faithful (h : Steps l lower upper start moves) :
    ∃ rows, Faithful l lower upper moves rows := by
  obtain ⟨rows, hrows⟩ := h.exists_rows
  have hsorted := h.gives.increasing
  rw [Move.keys_moments h.regular] at hsorted
  refine ⟨rows, hrows, KeyLayout.pairwise_precedes hrows hsorted, ?inBounds, ?moved,
    ?ended, ?once, ?exhausted⟩
  case inBounds =>
    intro row hrow
    obtain ⟨key, hkey⟩ := exists_of_mapM hrows hrow
    exact h.inBounds ((mem_of_mapM hrows).2 ⟨row, hrow, hkey⟩) hkey
  case moved =>
    intro x hx
    obtain ⟨m, hm, ⟨key, rfl⟩ | rfl⟩ := h.regular x hx
    · exact .inl ⟨rfl, m, key, rfl, rfl, h.mem_entries hx⟩
    · exact .inr ⟨rfl, rfl⟩
  case ended =>
    rintro before x after rfl hbefore hx
    exact h.ended hrows hbefore hx
  case once =>
    rintro before x after rfl hx row key hrow hin hthere
    exact List.count_eq_one_of_mem (nodup_of_pairwise (f := id) hsorted)
      (h.mem_keys hx hrow hin hthere)
  case exhausted =>
    rintro before x after rfl hx
    exact h.exhausted hx

/-- **A scan is in order, within its bounds and complete while the index changes.**  The entries
    have to be keys of rows when it begins, as those of an index are after any calls
    (`Index.Guarded.performAll`). -/
theorem faithful_of_find {ix : Index} {s : Store} {c : Cursor} (hread : s.read ix.map = .ok m)
    (hm : ix.layout.KeysOfRows m) (hfind : ix.find s lower upper = .ok c) (events : List Event) :
    ∃ rows, Faithful ix.layout lower upper (LiveScan.moves ⟨ix, s, c⟩ events) rows := by
  obtain ⟨start, rfl, hcovers⟩ := Index.find_eq_ok hfind
  obtain ⟨hregular, hgives⟩ :=
    gives (p := ⟨ix, s, .new ix.layout (.live ⟨ix.map, start, false⟩) upper⟩)
    ⟨rfl, rfl, rfl, rfl⟩ hread hm events
  exact Steps.faithful ⟨hregular, hgives, hcovers⟩

/-- The entry that the cursor is on is removed, entries are added before it and behind it, all are
    removed and one comes back, and one is added within the bounds when the scan is over. -/
theorem faithful_of_find_people :
    let d : Descriptor := ⟨⟨1⟩, "by_age", "people", false,
      [⟨.new 1 "age" .integer, .descending⟩, ⟨.new 0 "name" .varchar, .ascending⟩]⟩
    let ix : Index := ⟨d, ⟨0⟩, 2, .default⟩
    let s := ix.performAll (Store.empty.openMap d.mapName).2
      [.add ⟨⟨1⟩, [.text "a", .integer 50]⟩, .add ⟨⟨2⟩, [.text "b", .integer 40]⟩,
        .add ⟨⟨3⟩, [.text "c", .integer 10]⟩]
    let lower : SearchRow := ⟨none, [none, some (.integer 40)]⟩
    let upper : SearchRow := ⟨none, [none, some (.integer 20)]⟩
    let events : List Event := [.advance, .change (.remove ⟨⟨2⟩, [.text "b", .integer 40]⟩),
      .change (.add ⟨⟨4⟩, [.text "a", .integer 40]⟩),
      .change (.add ⟨⟨5⟩, [.text "d", .integer 30]⟩), .advance, .change .clear,
      .change (.add ⟨⟨3⟩, [.text "c", .integer 10]⟩), .advance,
      .change (.add ⟨⟨6⟩, [.text "e", .integer 20]⟩), .advance]
    ∃ m c, s.read ix.map = .ok m ∧ ix.layout.KeysOfRows m ∧
      ix.find s (some lower) (some upper) = .ok c ∧
      (∃ rows,
        Faithful ix.layout (some lower) (some upper) (LiveScan.moves ⟨ix, s, c⟩ events) rows) ∧
      (LiveScan.moves ⟨ix, s, c⟩ events).map Move.moved =
        [.ok true, .ok true, .ok false, .ok false] := by
  intro d ix s lower upper events
  obtain ⟨m, hread, hm⟩ :=
    (Index.Guarded.empty ix).performAll (s := (Store.empty.openMap d.mapName).2) rfl
    [.add ⟨⟨1⟩, [.text "a", .integer 50]⟩, .add ⟨⟨2⟩, [.text "b", .integer 40]⟩,
      .add ⟨⟨3⟩, [.text "c", .integer 10]⟩]
  obtain ⟨c, hfind, hmoved⟩ : ∃ c, ix.find s (some lower) (some upper) = .ok c ∧
      (LiveScan.moves ⟨ix, s, c⟩ events).map Move.moved =
        [.ok true, .ok true, .ok false, .ok false] :=
    exists_ok_of_any (by decide +kernel)
  exact ⟨m, c, hread, hm.keysOfRows, hfind,
    faithful_of_find hread hm.keysOfRows hfind events, hmoved⟩

end LiveScan
end OrderedIndex
