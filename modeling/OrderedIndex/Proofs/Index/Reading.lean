/-
  OrderedIndex/Proofs/Index/Reading.lean
  ======================================
  **What a cursor keeps is never stale**, and rows are loaded late and once.

  A cursor is used in any way, while the index and the rows behind it change between
  the calls.  A `Reading` is such a use, with the positions of the cursor counted and all
  questions to the row source taken down.  What is kept always belongs to the key that
  the cursor stands on (`Fresh`): every move forgets it, and nothing else that happens
  changes the key.

  A cursor that goes through all its rows at once does the same as one that is asked for
  the next entry and then for its row, again and again (`intoRows_eq_runAll`), so it is
  covered as well.
-/
import OrderedIndex.Index.Scan
import OrderedIndex.Proofs.Index.Unique

namespace OrderedIndex

namespace Cursor

variable {c : Cursor} {l : KeyLayout} {s : Store}

/-! ### What a call changes -/

/-- An advance comes to an end, or onto a key of which nothing is kept but what it tells. -/
theorem advance_cases (s : Store) (h : c.exhausted = false) :
    (∃ answer keys, answer ≠ .ok true ∧
        c.advance s = (answer, finish { c with keys, unread := false })) ∨
      ∃ keys key decoded, (∀ search, decoded = some search → c.layout.decode key = .ok search) ∧
        c.advance s = (.ok true,
          { c with keys, key := some key, decoded, loaded := none, unread := false }) := by
  rw [advance, if_neg (by rw [h]; exact Bool.false_ne_true)]
  rcases hnext : c.keys.next s with ⟨_ | ⟨e⟩ | ⟨key⟩, keys⟩
  · exact .inl ⟨.ok false, keys, nofun, rfl⟩
  · exact .inl ⟨.error (.store e), keys, nofun, rfl⟩
  · simp only [enter]
    rcases hupper : c.upper with _ | upper
    · exact .inr ⟨keys, key, none, nofun, rfl⟩
    · rcases hdecode : c.layout.decode key with e | search
      · exact .inl ⟨.error e, keys, nofun, rfl⟩
      · by_cases hbeyond : c.layout.compareRows search upper = .gt
        · simp only [if_pos hbeyond]
          exact .inl ⟨.ok false, keys, nofun, rfl⟩
        · simp only [if_neg hbeyond]
          refine .inr ⟨keys, key, some search, ?_, rfl⟩
          rintro _ ⟨⟩
          exact hdecode

/-- To ask what the current key tells changes nothing, or has the key decoded. -/
theorem searchRow_cases (c : Cursor) :
    (∃ answer, c.searchRow = (answer, c) ∧ ∀ search, answer = .ok search → search = c.decoded) ∨
      ∃ key search, c.decoded = none ∧ c.key = some key ∧ c.layout.decode key = .ok search ∧
        c.searchRow = (.ok (some search), { c with decoded := some search }) := by
  unfold searchRow
  rcases hdecoded : c.decoded with _ | kept
  · rcases hkey : c.key with _ | key
    · exact .inl ⟨.ok none, rfl, fun _ h => (Except.ok.inj h).symm⟩
    · rcases hdecode : c.layout.decode key with e | search
      · refine .inl ⟨.error e, ?_, nofun⟩
        simp only [hdecode]
      · refine .inr ⟨key, search, rfl, rfl, hdecode, ?_⟩
        simp only [hdecode]
  · exact .inl ⟨.ok (some kept), rfl, fun _ h => (Except.ok.inj h).symm⟩

@[simp] theorem searchRow_loaded (c : Cursor) : c.searchRow.2.loaded = c.loaded := by
  rcases searchRow_cases c with ⟨answer, hsearch, -⟩ | ⟨key, search, -, -, -, hsearch⟩
  · rw [hsearch]
  · rw [hsearch]

/-- A row that is kept is given again; another one is loaded by the id that the key tells, if it
    tells one. -/
theorem current_cases {σ : Type} (load : RowSource σ) (c : Cursor) (st : σ) :
    (∃ row, c.loaded = some row ∧ c.current load st = (.ok (some row), c, st)) ∨
      c.loaded = none ∧
        ((∃ answer, (∀ row, answer = .ok row → row = none) ∧
          c.current load st = (answer, c.searchRow.2, st)) ∨
          ∃ search id, c.searchRow.1 = .ok (some search) ∧ search.rowId = some id ∧
            c.current load st = ((load id st).1.map some,
              { c.searchRow.2 with loaded := (load id st).1.toOption }, (load id st).2)) := by
  unfold current rowId
  rcases hloaded : c.loaded with _ | row
  · refine .inr ⟨rfl, ?_⟩
    have hkept := c.searchRow_loaded.trans hloaded
    rcases hsearch : c.searchRow with ⟨e | _ | search, c'⟩
    · exact .inl ⟨.error e, nofun, rfl⟩
    · exact .inl ⟨.ok none, fun _ h => (Except.ok.inj h).symm, rfl⟩
    · rcases hid : search.rowId with _ | id
      · refine .inl ⟨.ok none, fun _ h => (Except.ok.inj h).symm, ?_⟩
        simp only [map_ok, Option.bind_some, hid]
      · refine .inr ⟨search, id, rfl, hid, ?_⟩
        rw [hsearch] at hkept
        simp only [map_ok, Option.bind_some, hid]
        rcases load id st with ⟨e | row, st'⟩
        · simp only [map_error, Except.toOption, ← hkept]
        · rfl
  · exact .inl ⟨row, rfl, rfl⟩

/-- The next entry is what the key tells after a step. -/
theorem next_cases (s : Store) (c : Cursor) :
    ((c.step s).1 ≠ .ok true ∧ (c.next s).2 = (c.step s).2 ∧
      ∀ search, (c.next s).1 ≠ some (.ok search)) ∨
      (c.step s).1 = .ok true ∧ (c.next s).2 = (c.step s).2.searchRow.2 ∧
        ∀ search, (c.next s).1 = some (.ok search) →
          (c.step s).2.searchRow.1 = .ok (some search) := by
  unfold next
  rcases hstep : c.step s with ⟨e | _ | _, c'⟩
  · exact .inl ⟨nofun, rfl, nofun⟩
  · exact .inl ⟨nofun, rfl, nofun⟩
  · refine .inr ⟨rfl, ?_⟩
    simp only
    rcases hsearch : c'.searchRow with ⟨e | _ | search, c''⟩
    · exact ⟨rfl, fun _ h => nomatch h⟩
    · exact ⟨rfl, fun _ h => nomatch h⟩
    · refine ⟨rfl, ?_⟩
      rintro _ ⟨⟩
      rfl

/-! ### What a cursor keeps -/

/-- What is kept belongs to the key that the cursor stands on, and at its end it stands on none. -/
structure Kept (c : Cursor) (l : KeyLayout) : Prop where
  layout : c.layout = l
  decoded : ∀ search, c.decoded = some search → ∃ key, c.key = some key ∧ l.decode key = .ok search
  loaded : c.decoded = none → c.loaded = none
  ended : c.exhausted = true → c.key = none ∧ c.unread = false

theorem Kept.decoded_eq_none (h : c.Kept l) (hend : c.exhausted = true) : c.decoded = none := by
  rcases hdecoded : c.decoded with _ | search
  · rfl
  · obtain ⟨key, hkey, -⟩ := h.decoded search hdecoded
    cases (h.ended hend).1.symm.trans hkey

theorem Kept.loaded_eq_none (h : c.Kept l) (hend : c.exhausted = true) : c.loaded = none :=
  h.loaded (h.decoded_eq_none hend)

theorem kept_new (l : KeyLayout) (keys : KeySource) (upper : Option SearchRow) :
    (new l keys upper).Kept l :=
  ⟨rfl, nofun, fun _ => rfl, nofun⟩

theorem kept_finish (hlayout : c.layout = l) (hunread : c.unread = false) : c.finish.Kept l :=
  ⟨hlayout, nofun, fun _ => rfl, fun _ => ⟨rfl, hunread⟩⟩

/-- At its end a cursor stays as it is; everywhere else a move forgets the row, and ends on a key or
    at the end. -/
theorem Kept.advance (h : c.Kept l) (s : Store) :
    (c.advance s).2.Kept l ∧ ((c.advance s).1 = .ok true ↔ (c.advance s).2.exhausted = false) ∧
      (c.advance s).2.loaded = none := by
  cases hend : c.exhausted with
  | true =>
    rw [Cursor.advance, if_pos hend]
    exact ⟨h, by simp [hend], h.loaded_eq_none hend⟩
  | false =>
    rcases advance_cases s hend with
      ⟨answer, keys, hne, hadvance⟩ | ⟨keys, key, decoded, hdecoded, hadvance⟩
    · rw [hadvance]
      exact ⟨kept_finish h.layout rfl, by simp [hne, finish], rfl⟩
    · rw [hadvance]
      refine ⟨⟨h.layout, ?_, fun _ => rfl, ?_⟩, by simp [hend], rfl⟩
      · intro search hsearch
        rw [← h.layout]
        exact ⟨key, rfl, hdecoded search hsearch⟩
      · intro hexhausted
        cases hend.symm.trans hexhausted

theorem Kept.handOut (h : c.Kept l) : Kept { c with unread := false } l :=
  ⟨h.layout, h.decoded, h.loaded, fun hend => ⟨(h.ended hend).1, rfl⟩⟩

/-- To ask what the key tells keeps it; a row that is kept besides stays. -/
theorem Kept.searchRow (h : c.Kept l) :
    c.searchRow.2.Kept l ∧ (∀ search, c.searchRow.1 = .ok search → c.searchRow.2.decoded = search) ∧
      (∀ search, c.decoded = some search → c.searchRow.2.decoded = some search) ∧
        c.searchRow.2.key = c.key := by
  rcases searchRow_cases c with
    ⟨answer, hsearch, hanswer⟩ | ⟨key, search, hnone, hkey, hdecode, hsearch⟩
  · rw [hsearch]
    exact ⟨h, fun search hok => (hanswer search hok).symm, fun _ hkept => hkept, rfl⟩
  · rw [hsearch]
    refine ⟨⟨h.layout, ?_, nofun, h.ended⟩, fun _ hok => Except.ok.inj hok, ?_, rfl⟩
    · rintro _ ⟨⟩
      exact ⟨key, hkey, h.layout ▸ hdecode⟩
    · intro kept hkept
      cases hnone.symm.trans hkept

/-- A row may be kept as soon as it is known what the key tells. -/
theorem Kept.withLoaded (h : c.Kept l) {search : SearchRow} (hdecoded : c.decoded = some search)
    (loaded : Option Row) :
    Kept { c with loaded } l := by
  refine ⟨h.layout, h.decoded, ?_, h.ended⟩
  intro hnone
  cases hdecoded.symm.trans hnone

end Cursor

/-! ### Using a cursor -/

namespace Reading

/-- What a cursor can be asked for. -/
inductive Call
  | advance
  | searchRow
  | rowId
  | current
  | next
  deriving DecidableEq

inductive Answer
  | moved (answer : Except Error Bool)
  | search (answer : Except Error (Option SearchRow))
  | id (answer : Except Error (Option RowId))
  | row (answer : Except Error (Option Row))
  | entry (answer : Option (Except Error SearchRow))

/-- The answer of a cursor that is at its end. -/
def Call.nothing : Call → Answer
  | advance => .moved (.ok false)
  | searchRow => .search (.ok none)
  | rowId => .id (.ok none)
  | current => .row (.ok none)
  | next => .entry none

/-- A call, with what the store holds and what the row source gives at that time. -/
structure Turn where
  call : Call
  store : Store
  rows : RowId → Except Error Row

/-- A question to the row source: where the cursor was, the id and the answer. -/
structure Load where
  position : Nat
  id : RowId
  answer : Except Error Row

def Load.succeeded (x : Load) : Bool := x.answer.toBool

end Reading

/-- A row source, what it is asked for and what it gives being taken down. -/
def recording {σ : Type} (load : RowSource σ) : RowSource (σ × List (RowId × Except Error Row)) :=
  fun id (st, asked) =>
    let (answer, st) := load id st
    (answer, st, asked ++ [(id, answer)])

/-- A row source that stays as it is. -/
def steady (rows : RowId → Except Error Row) : RowSource Unit := fun id st => (rows id, st)

/-- A cursor in use: how often it has been moved, and what the row source has been asked for. -/
structure Reading where
  cursor : Cursor
  position : Nat
  loads : List Reading.Load

namespace Reading

def start (cursor : Cursor) : Reading := ⟨cursor, 0, []⟩

def asked (r : Reading) : List (RowId × Except Error Row) := r.loads.map fun x => (x.id, x.answer)

/-- An entry that was found ahead of the first step is handed out without a move. -/
def run (r : Reading) (t : Turn) : Answer × Reading :=
  match t.call with
  | .advance =>
    let (answer, cursor) := r.cursor.advance t.store
    (.moved answer, { r with cursor, position := r.position + 1 })
  | .searchRow =>
    let (answer, cursor) := r.cursor.searchRow
    (.search answer, { r with cursor })
  | .rowId =>
    let (answer, cursor) := r.cursor.rowId
    (.id answer, { r with cursor })
  | .current =>
    let (answer, cursor, _, asked) := r.cursor.current (recording (steady t.rows)) ((), [])
    (.row answer,
      { r with cursor, loads := r.loads ++ asked.map fun (id, answer) => ⟨r.position, id, answer⟩ })
  | .next =>
    let (answer, cursor) := r.cursor.next t.store
    (.entry answer,
      { r with cursor, position := if r.cursor.unread then r.position else r.position + 1 })

def runAll (r : Reading) (turns : List Turn) : Reading := turns.foldl (fun r t => (r.run t).2) r

/-- An answer is what the cursor keeps from then on; a move has come to an end exactly if it was not
    made. -/
def Answer.Of (c : Cursor) : Answer → Prop
  | moved answer => answer = .ok true ↔ c.exhausted = false
  | search answer => ∀ search, answer = .ok search → c.decoded = search
  | id answer => ∀ id, answer = .ok id → c.decoded.bind SearchRow.rowId = id
  | row answer => ∀ row, answer = .ok row → c.loaded = row
  | entry answer => ∀ search, answer = some (.ok search) → c.decoded = some search

/-- What a cursor keeps is true of its key, and what the row source has been asked for was
    needed. -/
structure Fresh (r : Reading) (l : KeyLayout) : Prop where
  kept : r.cursor.Kept l
  /-- A row that is kept was given for the id of this key, since the cursor has come to it. -/
  loaded : ∀ row, r.cursor.loaded = some row → ∃ search id, r.cursor.decoded = some search ∧
    search.rowId = some id ∧ ⟨r.position, id, .ok row⟩ ∈ r.loads
  positions : ∀ x ∈ r.loads, x.position ≤ r.position
  /-- A load that has just succeeded is kept. -/
  pending : r.cursor.loaded = none → ∀ x ∈ r.loads, x.succeeded = true → x.position ≠ r.position
  /-- Of the loads at one position one succeeds at most. -/
  once : ((r.loads.filter Load.succeeded).map Load.position).Nodup

variable {r : Reading} {l : KeyLayout} {c : Cursor} {turns : List Turn}

theorem fresh_start (h : c.Kept l) (hloaded : c.loaded = none) : (start c).Fresh l := by
  refine ⟨h, ?_, nofun, nofun, .nil⟩
  intro row hrow
  cases hloaded.symm.trans hrow

theorem Fresh.advance (h : r.Fresh l) (s : Store) :
    Fresh { r with cursor := (r.cursor.advance s).2, position := r.position + 1 } l := by
  obtain ⟨hkept, -, hloaded⟩ := h.kept.advance s
  refine ⟨hkept, ?_, ?_, ?_, h.once⟩
  · intro row hrow
    cases hloaded.symm.trans hrow
  · exact fun x hx => Nat.le_succ_of_le (h.positions x hx)
  · exact fun _ x hx _ => Nat.ne_of_lt (Nat.lt_succ_of_le (h.positions x hx))

theorem Fresh.handOut (h : r.Fresh l) :
    Fresh { r with cursor := { r.cursor with unread := false } } l :=
  ⟨h.kept.handOut, h.loaded, h.positions, h.pending, h.once⟩

theorem Fresh.searchRow (h : r.Fresh l) : Fresh { r with cursor := r.cursor.searchRow.2 } l := by
  obtain ⟨hkept, -, hdecoded, -⟩ := h.kept.searchRow
  refine ⟨hkept, ?_, h.positions, ?_, h.once⟩
  · intro row hrow
    obtain ⟨search, id, hsearch, hid, hmem⟩ := h.loaded row (r.cursor.searchRow_loaded ▸ hrow)
    exact ⟨search, id, hdecoded search hsearch, hid, hmem⟩
  · intro hnone
    exact h.pending (r.cursor.searchRow_loaded ▸ hnone)

/-- A row is loaded by the id that the key tells, when none is kept. -/
theorem Fresh.load (h : r.Fresh l) (hnone : r.cursor.loaded = none) {search : SearchRow}
    {id : RowId} (hsearch : r.cursor.searchRow.1 = .ok (some search))
    (hid : search.rowId = some id) (answer : Except Error Row) :
    Fresh { r with cursor := { r.cursor.searchRow.2 with loaded := answer.toOption },
                   loads := r.loads ++ [⟨r.position, id, answer⟩] } l := by
  obtain ⟨hkept, hdecoded, -⟩ := h.kept.searchRow
  have hpending := h.pending hnone
  refine ⟨hkept.withLoaded (hdecoded _ hsearch) _, ?loaded, ?positions, ?pending, ?once⟩
  case loaded =>
    intro row hrow
    obtain rfl : answer = .ok row := by
      cases answer with
      | error e => cases hrow
      | ok row' => exact congrArg Except.ok (Option.some.inj hrow)
    exact ⟨search, id, hdecoded _ hsearch, hid, List.mem_append_right _ (List.mem_singleton.2 rfl)⟩
  case positions =>
    intro x hx
    rcases List.mem_append.1 hx with hx | hx
    · exact h.positions x hx
    · exact Nat.le_of_eq (congrArg Load.position (List.mem_singleton.1 hx))
  case pending =>
    intro hfailed x hx hsucceeded
    rcases List.mem_append.1 hx with hx | hx
    · exact hpending x hx hsucceeded
    · obtain rfl := List.mem_singleton.1 hx
      cases answer with
      | error e => cases hsucceeded
      | ok row => cases hfailed
  case once =>
    cases answer with
    | error e =>
      have hlast : List.filter Load.succeeded [⟨r.position, id, .error e⟩] = [] := rfl
      rw [List.filter_append, hlast, List.append_nil]
      exact h.once
    | ok row =>
      have hlast : List.filter Load.succeeded [⟨r.position, id, .ok row⟩] =
          [⟨r.position, id, .ok row⟩] := rfl
      rw [List.filter_append, hlast, List.map_append, List.nodup_append]
      refine ⟨h.once, List.pairwise_singleton _ _, ?_⟩
      intro position hmem position' hmem'
      obtain ⟨x, hx, rfl⟩ := List.mem_map.1 hmem
      obtain ⟨hx, hsucceeded⟩ := List.mem_filter.1 hx
      rw [List.mem_singleton.1 hmem']
      exact hpending x hx hsucceeded

/-- The row of the current entry is the one that is kept, or none is known, or it is loaded. -/
theorem run_current_cases (r : Reading) (s : Store) (rows : RowId → Except Error Row) :
    (∃ row, r.cursor.loaded = some row ∧ r.run ⟨.current, s, rows⟩ = (.row (.ok (some row)), r)) ∨
      r.cursor.loaded = none ∧
        ((∃ answer, (∀ row, answer = .ok row → row = none) ∧
            r.run ⟨.current, s, rows⟩ = (.row answer, { r with cursor := r.cursor.searchRow.2 })) ∨
          ∃ search id, r.cursor.searchRow.1 = .ok (some search) ∧ search.rowId = some id ∧
            r.run ⟨.current, s, rows⟩ = (.row ((rows id).map some),
              { r with cursor := { r.cursor.searchRow.2 with loaded := (rows id).toOption },
                       loads := r.loads ++ [⟨r.position, id, rows id⟩] })) := by
  simp only [run]
  rcases Cursor.current_cases (recording (steady rows)) r.cursor ((), []) with
    ⟨row, hrow, hcurrent⟩ |
      ⟨hnone, ⟨answer, hanswer, hcurrent⟩ | ⟨search, id, hsearch, hid, hcurrent⟩⟩
  · refine .inl ⟨row, hrow, ?_⟩
    simp only [hcurrent, List.map_nil, List.append_nil]
  · refine .inr ⟨hnone, .inl ⟨answer, hanswer, ?_⟩⟩
    simp only [hcurrent, List.map_nil, List.append_nil]
  · refine .inr ⟨hnone, .inr ⟨search, id, hsearch, hid, ?_⟩⟩
    simp only [hcurrent, recording, steady, List.nil_append, List.map_cons, List.map_nil]

/-- **One call.**  What is kept stays true, and the answer is what is kept. -/
theorem Fresh.run (h : r.Fresh l) (t : Turn) :
    (r.run t).2.Fresh l ∧ (r.run t).1.Of (r.run t).2.cursor := by
  obtain ⟨call, s, rows⟩ := t
  cases call with
  | advance => exact ⟨h.advance s, (h.kept.advance s).2.1⟩
  | searchRow => exact ⟨h.searchRow, (h.kept.searchRow).2.1⟩
  | rowId =>
    refine ⟨h.searchRow, ?_⟩
    intro id hid
    obtain ⟨search, hsearch, rfl⟩ := map_eq_ok_iff.1 hid
    exact congrArg (·.bind SearchRow.rowId) (h.kept.searchRow.2.1 search hsearch)
  | current =>
    rcases r.run_current_cases s rows with
      ⟨row, hrow, hrun⟩ | ⟨hnone, ⟨answer, hanswer, hrun⟩ | ⟨search, id, hsearch, hid, hrun⟩⟩
    · rw [hrun]
      exact ⟨h, fun row' hok => hrow.trans (Except.ok.inj hok)⟩
    · rw [hrun]
      refine ⟨h.searchRow, ?_⟩
      intro row hok
      rw [hanswer row hok]
      exact r.cursor.searchRow_loaded.trans hnone
    · rw [hrun]
      refine ⟨h.load hnone hsearch hid (rows id), ?_⟩
      intro row hok
      obtain ⟨loaded, hloaded, rfl⟩ := map_eq_ok_iff.1 hok
      simp only [hloaded, Except.toOption]
  | next =>
    have hstep : Fresh { r with
        cursor := (r.cursor.step s).2,
        position := if r.cursor.unread then r.position else r.position + 1 } l := by
      unfold Cursor.step
      split
      · exact h.handOut
      · exact h.advance s
    rcases r.cursor.next_cases s with ⟨hne, hnext, hanswer⟩ | ⟨hok, hnext, hanswer⟩
    · simp only [Reading.run, hnext]
      exact ⟨hstep, fun search hsearch => absurd hsearch (hanswer search)⟩
    · simp only [Reading.run, hnext]
      refine ⟨hstep.searchRow, ?_⟩
      intro search hsearch
      exact hstep.kept.searchRow.2.1 _ (hanswer search hsearch)

theorem Fresh.runAll (h : r.Fresh l) (turns : List Turn) : (r.runAll turns).Fresh l := by
  induction turns generalizing r with
  | nil => exact h
  | cons t turns ih => exact ih (h.run t).1

/-- The row source is asked by `current` only, once at most, and for the row of the current
    entry. -/
theorem loads_run (r : Reading) (t : Turn) :
    (r.run t).2.loads = r.loads ∨ t.call = .current ∧ r.cursor.loaded = none ∧
      ∃ search id, r.cursor.searchRow.1 = .ok (some search) ∧ search.rowId = some id ∧
        (r.run t).2.loads = r.loads ++ [⟨r.position, id, t.rows id⟩] := by
  obtain ⟨call, s, rows⟩ := t
  cases call with
  | advance => exact .inl rfl
  | searchRow => exact .inl rfl
  | rowId => exact .inl rfl
  | next => exact .inl rfl
  | current =>
    rcases r.run_current_cases s rows with
      ⟨row, -, hrun⟩ | ⟨hnone, ⟨answer, -, hrun⟩ | ⟨search, id, hsearch, hid, hrun⟩⟩
    · exact .inl (by rw [hrun])
    · exact .inl (by rw [hrun])
    · exact .inr ⟨rfl, hnone, search, id, hsearch, hid, by rw [hrun]⟩

theorem mem_loads_runAll {x : Load} (hx : x ∈ (r.runAll turns).loads) :
    x ∈ r.loads ∨ ∃ t ∈ turns, t.call = .current ∧ t.rows x.id = x.answer := by
  induction turns generalizing r with
  | nil => exact .inl hx
  | cons t turns ih =>
    rcases ih hx with hx | ⟨t', ht', hcall⟩
    · rcases r.loads_run t with hsame | ⟨hcurrent, -, search, id, -, -, hloads⟩
      · exact .inl (hsame ▸ hx)
      · rw [hloads, List.mem_append, List.mem_singleton] at hx
        rcases hx with hx | rfl
        · exact .inl hx
        · exact .inr ⟨t, List.mem_cons_self, hcurrent, rfl⟩
    · exact .inr ⟨t', List.mem_cons_of_mem _ ht', hcall⟩

/-! ### At the end -/

theorem Fresh.run_of_exhausted (h : r.Fresh l) (hend : r.cursor.exhausted = true) (t : Turn) :
    (r.run t).1 = t.call.nothing ∧ (r.run t).2.cursor = r.cursor ∧ (r.run t).2.loads = r.loads := by
  obtain ⟨hkey, hunread⟩ := h.kept.ended hend
  have hadvance : r.cursor.advance t.store = (.ok false, r.cursor) := if_pos hend
  have hsearch : r.cursor.searchRow = (.ok none, r.cursor) := by
    rw [Cursor.searchRow, hkey, h.kept.decoded_eq_none hend]
  have hstep : r.cursor.step t.store = (.ok false, r.cursor) := by
    rw [Cursor.step, hunread, if_neg Bool.false_ne_true, hadvance]
  obtain ⟨call, s, rows⟩ := t
  cases call with
  | advance => simp [Reading.run, hadvance, Call.nothing]
  | searchRow => simp [Reading.run, hsearch, Call.nothing]
  | rowId => simp [Reading.run, Cursor.rowId, hsearch, Call.nothing]
  | current =>
    simp [Reading.run, Cursor.current, Cursor.rowId, h.kept.loaded_eq_none hend,
      hsearch, Call.nothing]
  | next => simp [Reading.run, Cursor.next, hstep, Call.nothing]

theorem Fresh.runAll_of_exhausted (h : r.Fresh l) (hend : r.cursor.exhausted = true)
    (turns : List Turn) :
    (r.runAll turns).cursor = r.cursor ∧ (r.runAll turns).loads = r.loads := by
  induction turns generalizing r with
  | nil => exact ⟨rfl, rfl⟩
  | cons t turns ih =>
    obtain ⟨-, hcursor, hloads⟩ := h.run_of_exhausted hend t
    obtain ⟨hcursor', hloads'⟩ := ih (h.run t).1 (hcursor ▸ hend)
    exact ⟨hcursor'.trans hcursor, hloads'.trans hloads⟩

/-! ### All rows at once -/

/-- What a row source has been asked for before makes no difference, and asked once it may as well
    be a steady one. -/
theorem current_recording {σ : Type} (c : Cursor) (load : RowSource σ) (st : σ)
    (asked : List (RowId × Except Error Row)) :
    ∃ st' answer cursor new,
      c.current (recording (steady fun id => (load id st).1)) ((), []) = (answer, cursor, (), new) ∧
        c.current (recording load) (st, asked) = (answer, cursor, st', asked ++ new) := by
  unfold Cursor.current
  rcases c.loaded with _ | row
  · rcases c.rowId with ⟨e | _ | id, c'⟩
    · exact ⟨st, .error e, c', [], rfl, by rw [List.append_nil]⟩
    · exact ⟨st, .ok none, c', [], rfl, by rw [List.append_nil]⟩
    · simp only [recording, steady]
      rcases load id st with ⟨e | row, st'⟩
      · exact ⟨st', .error e, c', _, rfl, rfl⟩
      · exact ⟨st', .ok (some row), _, _, rfl, rfl⟩
  · exact ⟨st, .ok (some row), c, [], rfl, by rw [List.append_nil]⟩

/-- It makes no difference to the current row that it has been asked before what the key tells. -/
theorem current_searchRow {σ : Type} (h : c.Kept l) (load : RowSource σ) (st : σ) :
    c.searchRow.2.current load st = c.current load st := by
  rcases c.searchRow_cases with ⟨answer, hsearch, -⟩ | ⟨key, search, hnone, -, -, hsearch⟩
  · rw [hsearch]
  · have hid : Cursor.rowId { c with decoded := some search } = c.rowId := by
      rw [Cursor.rowId, Cursor.rowId, hsearch]
      rfl
    rw [hsearch]
    unfold Cursor.current
    rw [hid]
    simp only [h.loaded hnone]

variable {σ : Type}

theorem run_current (r : Reading) (s : Store) (load : RowSource σ) (st : σ) :
    (r.run ⟨.current, s, fun id => (load id st).1⟩).2.cursor =
      (r.cursor.current (recording load) (st, r.asked)).2.1 ∧
      (r.run ⟨.current, s, fun id => (load id st).1⟩).2.asked =
        (r.cursor.current (recording load) (st, r.asked)).2.2.2 := by
  obtain ⟨st', answer, cursor, new, hsteady, hcurrent⟩ := current_recording r.cursor load st r.asked
  rw [hcurrent]
  simp only [Reading.run, hsteady, asked, List.map_append, List.map_map, Function.comp_def,
    List.map_id', and_self]

/-- The next entry, and then its row, are the row after a step: `current` decodes the key as `next`
    does. -/
theorem Fresh.run_next_current (h : r.Fresh l) {s : Store} {c : Cursor}
    (hstep : r.cursor.step s = (.ok true, c)) (load : RowSource σ) (st : σ) :
    let rows := fun id => (load id st).1
    (r.runAll [⟨.next, s, rows⟩, ⟨.current, s, rows⟩]).cursor =
      (c.current (recording load) (st, r.asked)).2.1 ∧
      (r.runAll [⟨.next, s, rows⟩, ⟨.current, s, rows⟩]).asked =
        (c.current (recording load) (st, r.asked)).2.2.2 := by
  intro rows
  have hc : c.Kept l := by
    unfold Cursor.step at hstep
    split at hstep
    · cases hstep
      exact h.kept.handOut
    · have hkept := (h.kept.advance s).1
      rw [hstep] at hkept
      exact hkept
  have hnext : (r.cursor.next s).2 = c.searchRow.2 := by
    rcases r.cursor.next_cases s with ⟨hne, -, -⟩ | ⟨-, hnext, -⟩
    · rw [hstep] at hne
      exact absurd rfl hne
    · rw [hnext, hstep]
  have hcurrent :
      (r.run ⟨.next, s, rows⟩).2.cursor.current (recording load) (st,
        (r.run ⟨.next, s, rows⟩).2.asked) =
      c.current (recording load) (st, r.asked) := by
    simp only [Reading.run, hnext]
    exact current_searchRow hc _ _
  rw [← hcurrent]
  exact (r.run ⟨.next, s, rows⟩).2.run_current s load st

/-- The turn is one of a pass over all rows. -/
def Turn.Drains (s : Store) (load : RowSource σ) (t : Turn) : Prop :=
  (t.call = .next ∨ t.call = .current) ∧ t.store = s ∧ ∃ st, t.rows = fun id => (load id st).1

/-- To go through all rows is to ask for the next entry and its row, again and again, up to the end
    or a fault. -/
theorem Fresh.intoRows_go (h : r.Fresh l) (s : Store) (load : RowSource σ) (st : σ) (rounds : Nat) :
    ∃ turns : List Turn, (∀ t ∈ turns, t.Drains s load) ∧
      (r.runAll turns).asked =
        (Cursor.intoRows.go (recording load) s rounds r.cursor (st, r.asked)).2.2 := by
  induction rounds generalizing r st with
  | zero => exact ⟨[], nofun, rfl⟩
  | succ rounds ih =>
    rw [Cursor.intoRows.go]
    rcases hstep : r.cursor.step s with ⟨e | _ | _, c⟩
    · exact ⟨[], nofun, rfl⟩
    · exact ⟨[], nofun, rfl⟩
    · obtain ⟨hcursor, hasked⟩ := h.run_next_current hstep load st
      have hnext : Turn.Drains s load ⟨.next, s, fun id => (load id st).1⟩ :=
        ⟨.inl rfl, rfl, st, rfl⟩
      have hcurrent : Turn.Drains s load ⟨.current, s, fun id => (load id st).1⟩ :=
        ⟨.inr rfl, rfl, st, rfl⟩
      simp only
      rcases hrow : c.current (recording load) (st, r.asked) with ⟨e | row, c', st', asked⟩
      · rw [hrow] at hasked
        exact ⟨[_, _], List.forall_mem_cons.2 ⟨hnext, List.forall_mem_singleton.2 hcurrent⟩, hasked⟩
      · rw [hrow] at hcursor hasked
        obtain ⟨turns, hturns, hrest⟩ := ih (h.runAll [⟨.next, s, _⟩, ⟨.current, s, _⟩]) st'
        rw [hcursor, hasked] at hrest
        exact ⟨_ :: _ :: turns,
          List.forall_mem_cons.2 ⟨hnext, List.forall_mem_cons.2 ⟨hcurrent, hturns⟩⟩, hrest⟩

/-! ### Cursors of an index -/

theorem kept_of_find {ix : Index} {s : Store} {lower upper : Option SearchRow}
    (h : ix.find s lower upper = .ok c) :
    c.Kept ix.layout ∧ c.loaded = none := by
  obtain ⟨start, -, h⟩ := bind_eq_ok_iff.1 h
  obtain ⟨it, -, h⟩ := bind_eq_ok_iff.1 h
  cases h
  exact ⟨Cursor.kept_new _ _ _, rfl⟩

theorem kept_of_findEdge {ix : Index} {s : Store} {edge : Edge} (h : ix.findEdge s edge = .ok c) :
    c.Kept ix.layout ∧ c.loaded = none := by
  obtain ⟨m, -, h⟩ := bind_eq_ok_iff.1 h
  obtain ⟨key, -, h⟩ := bind_eq_ok_iff.1 h
  obtain ⟨hkept, hmoved, hloaded⟩ := (Cursor.kept_new ix.layout (.once key) none).advance s
  unfold Cursor.position at h
  rcases hadvance : (Cursor.new ix.layout (.once key) none).advance s with ⟨e | unread, c'⟩
  · rw [hadvance] at h
    cases h
  · rw [hadvance] at h hkept hmoved hloaded
    cases h
    refine ⟨⟨hkept.layout, hkept.decoded, hkept.loaded, ?_⟩, hloaded⟩
    intro hend
    refine ⟨(hkept.ended hend).1, ?_⟩
    -- the entry is there to be handed out only if the cursor has come to one
    rw [Bool.eq_false_iff]
    rintro rfl
    exact absurd hend (by rw [hmoved.1 rfl]; exact Bool.false_ne_true)

/-- What holds of a cursor after some calls, whatever has happened between them. -/
structure UpToDate (l : KeyLayout) (turns : List Turn) (r : Reading) : Prop where
  fresh : r.Fresh l
  /-- All that the row source has been asked for, it was asked for by `current`, and it gave this
      answer. -/
  loads : ∀ x ∈ r.loads, ∃ t ∈ turns, t.call = .current ∧ t.rows x.id = x.answer
  answer : ∀ t, (r.run t).1.Of (r.run t).2.cursor
  /-- The row source is asked by `current` only, once, when no row is kept, and for the row of the
      current entry. -/
  load : ∀ t, (r.run t).2.loads = r.loads ∨ t.call = .current ∧ r.cursor.loaded = none ∧
    ∃ search id, r.cursor.searchRow.1 = .ok (some search) ∧ search.rowId = some id ∧
      (r.run t).2.loads = r.loads ++ [⟨r.position, id, t.rows id⟩]
  /-- At its end a cursor stays as it is, and gives nothing. -/
  ended : r.cursor.exhausted = true → r.cursor.key = none ∧ ∀ later,
    (r.runAll later).cursor = r.cursor ∧ (r.runAll later).loads = r.loads ∧
      ∀ t, ((r.runAll later).run t).1 = t.call.nothing
  /-- To go through all rows that are left asks for what some calls of `next` and `current` ask
      for. -/
  drained : ∀ {σ : Type} (s : Store) (load : RowSource σ) (st : σ), ∃ more,
    (∀ t ∈ more, t.Drains s load) ∧
    (r.runAll more).Fresh l ∧
      (r.runAll more).asked = (r.cursor.intoRows (recording load) s (st, r.asked)).2.2

theorem Fresh.ended (h : r.Fresh l) (hend : r.cursor.exhausted = true) (later : List Turn) :
    (r.runAll later).cursor = r.cursor ∧ (r.runAll later).loads = r.loads ∧
      ∀ t, ((r.runAll later).run t).1 = t.call.nothing := by
  obtain ⟨hcursor, hloads⟩ := h.runAll_of_exhausted hend later
  exact ⟨hcursor, hloads, fun t => ((h.runAll later).run_of_exhausted (hcursor ▸ hend) t).1⟩

/-- **What a cursor keeps is never stale, and rows are loaded late and once.**  Whatever happens to
    the store and to the rows between the calls, a cursor of an index keeps only what is true of the
    key that it stands on, asks for its row when that is wanted and not again once it has been
    given, and after its end gives nothing. -/
theorem upToDate_of_find {ix : Index} {s : Store} {c : Cursor}
    (hfind : (∃ lower upper, ix.find s lower upper = .ok c) ∨ ∃ edge, ix.findEdge s edge = .ok c)
    (turns : List Turn) :
    UpToDate ix.layout turns ((start c).runAll turns) := by
  have hstart : (start c).Fresh ix.layout := by
    rcases hfind with ⟨lower, upper, hfind⟩ | ⟨edge, hfind⟩
    · obtain ⟨hkept, hloaded⟩ := kept_of_find hfind
      exact fresh_start hkept hloaded
    · obtain ⟨hkept, hloaded⟩ := kept_of_findEdge hfind
      exact fresh_start hkept hloaded
  have h := hstart.runAll turns
  refine ⟨h, ?loads, fun t => (h.run t).2, Reading.loads_run _, ?ended, ?drained⟩
  case loads =>
    intro x hx
    rcases mem_loads_runAll hx with hx | hx
    · cases hx
    · exact hx
  case ended => exact fun hend => ⟨(h.kept.ended hend).1, h.ended hend⟩
  case drained =>
    intro σ s load st
    obtain ⟨more, hmore, hasked⟩ := h.intoRows_go s load st _
    exact ⟨more, hmore, h.runAll more, hasked⟩

/-- The row of the first entry is asked for three times: at first it cannot be loaded, and once it
    has been it is kept, although the index has been cleared and the rows are gone. -/
theorem upToDate_of_find_people :
    let d : Descriptor := ⟨⟨1⟩, "by_age", "people", false, [⟨.new 1 "age" .integer, .ascending⟩]⟩
    let ix : Index := ⟨d, ⟨0⟩, 2, .default⟩
    let row : Row := ⟨⟨1⟩, [.text "a", .integer 50]⟩
    let empty := (Store.empty.openMap d.mapName).2
    let filled := ix.performAll empty [.add row, .add ⟨⟨2⟩, [.text "b", .integer 60]⟩]
    let gone : RowId → Except Error Row := fun id => .error (.rowNotFound "people" id)
    let turns : List Turn := [⟨.next, filled, gone⟩, ⟨.current, filled, gone⟩,
      ⟨.current, filled, fun _ => .ok row⟩, ⟨.searchRow, empty, gone⟩, ⟨.current, empty, gone⟩,
      ⟨.advance, empty, gone⟩, ⟨.current, empty, fun _ => .ok row⟩]
    ∃ c, ((∃ lower upper, ix.find filled lower upper = .ok c) ∨
      ∃ edge, ix.findEdge filled edge = .ok c) ∧
      UpToDate ix.layout turns ((start c).runAll turns) ∧
      ((start c).runAll turns).loads.map Load.succeeded = [false, true] ∧
      ((start c).runAll (turns.take 5)).cursor.loaded = some row := by
  intro d ix row empty filled gone turns
  obtain ⟨c, hfind, hloads, hloaded⟩ : ∃ c, ix.find filled none none = .ok c ∧
      ((start c).runAll turns).loads.map Load.succeeded = [false, true] ∧
      ((start c).runAll (turns.take 5)).cursor.loaded = some row :=
    exists_ok_of_any (by decide +kernel)
  exact ⟨c, .inl ⟨none, none, hfind⟩, upToDate_of_find (.inl ⟨none, none, hfind⟩) turns,
    hloads, hloaded⟩

end Reading
end OrderedIndex
