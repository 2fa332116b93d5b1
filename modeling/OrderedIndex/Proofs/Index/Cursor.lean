/-
  OrderedIndex/Proofs/Index/Cursor.lean
  =====================================
  **What a cursor hands out.**

  A cursor in front of the keys of some rows (`Cursor.Ready`) moves onto the first of
  them, unless that row is beyond the upper bound, and is then in front of the others
  (`advance_of_within`).  So, in whichever way it is used, it hands out these rows up to
  the first one beyond the bound: their search rows as an iterator (`collect_of_ready`),
  and the rows themselves all at once (`intoRows_of_ready`) or step by step
  (`walks_of_ready`).
-/
import OrderedIndex.Index.Cursor
import OrderedIndex.Proofs.Index.Conflict
import OrderedIndex.Proofs.KeyIter

namespace OrderedIndex.Cursor

/-! ### The state of a cursor -/

/-- Whether the row is not beyond the upper bound. -/
def within (l : KeyLayout) (upper : Option SearchRow) (row : Row) : Bool :=
  decide (∀ u ∈ upper, l.compareRows row u ≠ .gt)

/-- The cursor is in front of the keys of the rows. -/
structure Ready (c : Cursor) (l : KeyLayout) (upper : Option SearchRow) (s : Store)
    (rows : List Row) : Prop where
  layout : c.layout = l
  upper : c.upper = upper
  exhausted : c.exhausted = false
  unread : c.unread = false
  keys : ∃ map start entries, c.keys = .live ⟨map, start, false⟩ ∧ s.read map = .ok entries ∧
    List.Forall₂ (fun row key => l.encode row = .ok key) rows (start.ahead entries)

/-- The cursor stands on the key of the row, which has not been loaded. -/
structure On (c : Cursor) (l : KeyLayout) (row : Row) : Prop where
  loaded : c.loaded = none
  entry : ∃ key search, c.key = some key ∧ l.decode key = .ok search ∧ l.Tells search row ∧
    (c.decoded = none ∨ c.decoded = some search)

variable {c : Cursor} {l : KeyLayout} {upper : Option SearchRow} {s : Store} {row : Row}
  {rows : List Row}

/-- What has been found out about the current entry makes no difference to those ahead. -/
theorem Ready.with_entry (h : c.Ready l upper s rows) (decoded : Option SearchRow)
    (loaded : Option Row) :
    Ready { c with decoded, loaded } l upper s rows :=
  ⟨h.layout, h.upper, h.exhausted, h.unread, h.keys⟩

theorem Ready.length_lt (h : c.Ready l upper s rows) : rows.length < c.stepBound s + 1 := by
  obtain ⟨map, start, entries, hkeys, hread, hrows⟩ := h.keys
  have hlen := hrows.length_eq
  have hle := KeyStart.length_ahead_le entries start
  rw [stepBound, hkeys, KeySource.stepBound, (Store.read_eq_ok_iff.1 hread).2]
  omega

/-! ### Moving -/

section Source

variable {map : MapId} {start : KeyStart} {entries : SortedMap Bytes Bytes} {key : Bytes}
  {rest : List Bytes}

theorem next_of_nil (hread : s.read map = .ok entries) (hahead : start.ahead entries = []) :
    KeySource.next s (.live ⟨map, start, false⟩) = (none, .live ⟨map, start, true⟩) := by
  have hseek : start.seek entries = none := by rw [KeyStart.seek_eq_head?, hahead]; rfl
  rw [KeySource.next, KeyIter.next, if_neg Bool.false_ne_true]
  simp only [hread, hseek]

theorem next_of_cons (hread : s.read map = .ok entries)
    (hahead : start.ahead entries = key :: rest) :
    KeySource.next s (.live ⟨map, start, false⟩) = (some (.ok key),
      .live ⟨map, .after key, false⟩) := by
  have hseek : start.seek entries = some key := by rw [KeyStart.seek_eq_head?, hahead]; rfl
  rw [KeySource.next, KeyIter.next, if_neg Bool.false_ne_true]
  simp only [hread, hseek]

end Source

theorem enter_of_within {key : Bytes} (hkey : c.layout.encode row = .ok key)
    (hrow : within c.layout c.upper row = true) :
    ∃ search decoded, c.enter key = (.ok true, { c with key := some key, decoded }) ∧
      c.layout.decode key = .ok search ∧ c.layout.Tells search row ∧
        (decoded = c.decoded ∨ decoded = some search) := by
  obtain ⟨search, hdecode, htells⟩ := KeyLayout.exists_decode hkey
  rcases hu : c.upper with _ | u
  · refine ⟨search, c.decoded, ?_, hdecode, htells, .inl rfl⟩
    simp only [enter, hu]
  · have hin : c.layout.compareRows search u ≠ .gt := by
      rw [htells.compareRows_left]
      exact of_decide_eq_true hrow u hu
    refine ⟨search, some search, ?_, hdecode, htells, .inr rfl⟩
    simp only [enter, hu, hdecode, if_neg hin]

theorem enter_of_beyond {key : Bytes} (hkey : c.layout.encode row = .ok key)
    (hrow : within c.layout c.upper row = false) : c.enter key = (.ok false, c.finish) := by
  obtain ⟨search, hdecode, htells⟩ := KeyLayout.exists_decode hkey
  obtain ⟨u, hu, hgt⟩ : ∃ u, c.upper = some u ∧ c.layout.compareRows row u = .gt := by
    simpa [within] using hrow
  rw [← htells.compareRows_left] at hgt
  simp only [enter, hu, hdecode, if_pos hgt]

theorem advance_of_nil (h : c.Ready l upper s []) : ∃ c', c.advance s = (.ok false, c') := by
  obtain ⟨map, start, entries, hkeys, hread, hrows⟩ := h.keys
  have hnext := next_of_nil hread (List.forall₂_nil_left_iff.1 hrows)
  rw [advance, h.exhausted, if_neg Bool.false_ne_true, hkeys]
  simp only [hnext]
  exact ⟨_, rfl⟩

theorem advance_of_key {key : Bytes} {keys : KeySource} (hexhausted : c.exhausted = false)
    (hnext : c.keys.next s = (some (.ok key), keys)) :
    c.advance s = enter { c with keys, decoded := none, loaded := none, unread := false } key := by
  rw [advance, hexhausted, if_neg Bool.false_ne_true, hnext]

theorem Ready.advance_eq (h : c.Ready l upper s (row :: rows)) :
    ∃ key keys, l.encode row = .ok key ∧
      c.advance s = enter { c with keys, decoded := none, loaded := none, unread := false } key ∧
        ∃ map start entries, keys = .live ⟨map, start, false⟩ ∧ s.read map = .ok entries ∧
          List.Forall₂ (fun row key => l.encode row = .ok key) rows (start.ahead entries) := by
  obtain ⟨map, start, entries, hkeys, hread, hrows⟩ := h.keys
  obtain ⟨key, rest, hkey, hrest, hahead⟩ := List.forall₂_cons_left_iff.1 hrows
  refine ⟨key, .live ⟨map, .after key, false⟩, hkey, ?_, map, .after key, entries, rfl, hread, ?_⟩
  · exact advance_of_key h.exhausted (by rw [hkeys, next_of_cons hread hahead])
  · rw [KeyStart.ahead_after hahead]
    exact hrest

theorem advance_of_within (h : c.Ready l upper s (row :: rows)) (hrow : within l upper row = true) :
    ∃ c', c.advance s = (.ok true, c') ∧ c'.Ready l upper s rows ∧ c'.On l row := by
  obtain ⟨key, keys, hkey, hadvance, hkeys⟩ := h.advance_eq
  obtain ⟨rfl, rfl⟩ := And.intro h.layout h.upper
  obtain ⟨search, decoded, henter, hdecode, htells, hdecoded⟩ :=
    enter_of_within (c := { c with keys, decoded := none, loaded := none, unread := false })
      hkey hrow
  exact ⟨_, hadvance.trans henter, ⟨rfl, rfl, h.exhausted, rfl, hkeys⟩, rfl, key, search, rfl,
    hdecode, htells, hdecoded⟩

theorem advance_of_beyond (h : c.Ready l upper s (row :: rows))
    (hrow : within l upper row = false) :
    ∃ c', c.advance s = (.ok false, c') := by
  obtain ⟨key, keys, hkey, hadvance, -⟩ := h.advance_eq
  obtain ⟨rfl, rfl⟩ := And.intro h.layout h.upper
  exact ⟨_, hadvance.trans (enter_of_beyond hkey hrow)⟩

/-! ### The current entry -/

theorem On.searchRow (h : c.On l row) (hlayout : c.layout = l) :
    ∃ search, c.searchRow = (.ok (some search), { c with decoded := some search }) ∧
      l.Tells search row := by
  obtain ⟨key, search, hkey, hdecode, htells, hdecoded⟩ := h.entry
  refine ⟨search, ?_, htells⟩
  rcases hdecoded with hnone | hsome
  · rw [Cursor.searchRow, hnone, hkey, hlayout]
    simp only [hdecode]
  · have hself : { c with decoded := some search } = c := by rw [← hsome]
    rw [Cursor.searchRow, hsome, hself]

theorem On.rowId (h : c.On l row) (hlayout : c.layout = l) :
    ∃ decoded, c.rowId = (.ok (some row.id), { c with decoded }) := by
  obtain ⟨search, hsearch, htells⟩ := h.searchRow hlayout
  refine ⟨some search, ?_⟩
  rw [Cursor.rowId, hsearch]
  simp [htells.rowId]

/-- The current row is what loading gives for the row's id. -/
theorem On.current_eq {σ : Type} (load : RowSource σ) (st : σ) (h : c.On l row)
    (hlayout : c.layout = l) :
    ∃ decoded, c.current load st =
      match load row.id st with
      | (.error e, st') => (.error e, { c with decoded }, st')
      | (.ok r, st') => (.ok (some r), { c with decoded, loaded := some r }, st') := by
  obtain ⟨decoded, hid⟩ := h.rowId hlayout
  refine ⟨decoded, ?_⟩
  rcases hload : load row.id st with ⟨e | r, st'⟩
  · simp only [Cursor.current, h.loaded, hid, hload]
  · simp only [Cursor.current, h.loaded, hid, hload]

theorem On.current {σ : Type} {load : RowSource σ} {st : σ} (h : c.On l row)
    (hlayout : c.layout = l) (hload : load row.id st = (.ok row, st)) :
    ∃ decoded,
      c.current load st = (.ok (some row), { c with decoded, loaded := some row }, st) := by
  obtain ⟨decoded, hcurrent⟩ := h.current_eq load st hlayout
  exact ⟨decoded, by rw [hcurrent, hload]⟩

/-! ### Handing out entries -/

theorem Ready.step (h : c.Ready l upper s rows) : c.step s = c.advance s := by
  rw [Cursor.step, h.unread, if_neg Bool.false_ne_true]

theorem collect_of_ready (h : c.Ready l upper s rows) :
    ∃ searches, (c.collect s).1 = searches.map .ok ∧
      List.Forall₂ l.Tells searches (rows.takeWhile (within l upper)) := by
  have go (rounds : Nat) :
      ∀ (c : Cursor) (rows : List Row), c.Ready l upper s rows → rows.length < rounds →
      ∃ searches, (collect.go s rounds c).1 = searches.map .ok ∧
        List.Forall₂ l.Tells searches (rows.takeWhile (within l upper)) := by
    induction rounds with
    | zero => exact fun _ _ _ hlt => absurd hlt (Nat.not_lt_zero _)
    | succ rounds ih =>
      intro c rows h hlt
      rw [collect.go, next, h.step]
      cases rows with
      | nil =>
        obtain ⟨c', hadvance⟩ := advance_of_nil h
        rw [hadvance]
        exact ⟨[], rfl, .nil⟩
      | cons row rows =>
        rcases hrow : within l upper row with _ | _
        · obtain ⟨c', hadvance⟩ := advance_of_beyond h hrow
          rw [hadvance, List.takeWhile_cons_of_neg (by simp [hrow])]
          exact ⟨[], rfl, .nil⟩
        · obtain ⟨c', hadvance, hready, hon⟩ := advance_of_within h hrow
          obtain ⟨search, hsearch, htells⟩ := hon.searchRow hready.layout
          obtain ⟨searches, hgo, hall⟩ :=
            ih _ _ (hready.with_entry (some search) c'.loaded) (Nat.lt_of_succ_lt_succ hlt)
          rw [hadvance, List.takeWhile_cons_of_pos hrow]
          refine ⟨search :: searches, ?_, .cons htells hall⟩
          simp only [hsearch, Option.map_some, List.map_cons, hgo]
  exact go _ c rows h h.length_lt

variable {σ : Type} {load : RowSource σ} {st : σ}

theorem intoRows_of_ready (h : c.Ready l upper s rows)
    (hload : ∀ row ∈ rows, load row.id st = (.ok row, st)) :
    c.intoRows load s st = (.ok (rows.takeWhile (within l upper)), st) := by
  have go (rounds : Nat) :
      ∀ (c : Cursor) (rows : List Row), c.Ready l upper s rows → rows.length < rounds →
      (∀ row ∈ rows, load row.id st = (.ok row, st)) →
        intoRows.go load s rounds c st = (.ok (rows.takeWhile (within l upper)), st) := by
    induction rounds with
    | zero => exact fun _ _ _ hlt => absurd hlt (Nat.not_lt_zero _)
    | succ rounds ih =>
      intro c rows h hlt hload
      rw [intoRows.go, h.step]
      cases rows with
      | nil =>
        obtain ⟨c', hadvance⟩ := advance_of_nil h
        rw [hadvance]
        rfl
      | cons row rows =>
        rw [List.forall_mem_cons] at hload
        rcases hrow : within l upper row with _ | _
        · obtain ⟨c', hadvance⟩ := advance_of_beyond h hrow
          rw [hadvance, List.takeWhile_cons_of_neg (by simp [hrow])]
        · obtain ⟨c', hadvance, hready, hon⟩ := advance_of_within h hrow
          obtain ⟨decoded, hcurrent⟩ := hon.current hready.layout hload.1
          rw [hadvance, List.takeWhile_cons_of_pos hrow]
          simp only [hcurrent,
            ih _ _ (hready.with_entry decoded (some row)) (Nat.lt_of_succ_lt_succ hlt) hload.2]
          rfl
  exact go _ c rows h h.length_lt hload

/-- Moving on until there is no further entry, and asking for the current row each time, gives the
    rows. -/
inductive Walks (load : RowSource σ) (s : Store) : Cursor → σ → List Row → Prop
  | done {c c' : Cursor} {st : σ} (h : c.advance s = (.ok false, c')) : Walks load s c st []
  | step {c c' c'' : Cursor} {st st' : σ} {row : Row} {rows : List Row}
      (h : c.advance s = (.ok true, c'))
      (hcurrent : c'.current load st = (.ok (some row), c'', st'))
      (hrest : Walks load s c'' st' rows) :
      Walks load s c st (row :: rows)

theorem walks_of_ready (h : c.Ready l upper s rows)
    (hload : ∀ row ∈ rows, load row.id st = (.ok row, st)) :
    Walks load s c st (rows.takeWhile (within l upper)) := by
  induction rows generalizing c with
  | nil =>
    obtain ⟨c', hadvance⟩ := advance_of_nil h
    exact .done hadvance
  | cons row rows ih =>
    rw [List.forall_mem_cons] at hload
    rcases hrow : within l upper row with _ | _
    · obtain ⟨c', hadvance⟩ := advance_of_beyond h hrow
      rw [List.takeWhile_cons_of_neg (by simp [hrow])]
      exact .done hadvance
    · obtain ⟨c', hadvance, hready, hon⟩ := advance_of_within h hrow
      obtain ⟨decoded, hcurrent⟩ := hon.current hready.layout hload.1
      rw [List.takeWhile_cons_of_pos hrow]
      exact .step hadvance hcurrent (ih (hready.with_entry decoded (some row)) hload.2)

end OrderedIndex.Cursor
