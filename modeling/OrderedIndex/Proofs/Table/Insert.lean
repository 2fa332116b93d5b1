/-
  OrderedIndex/Proofs/Table/Insert.lean
  =====================================
  **What decides an insertion.**

  A row goes in exactly if its values fit the columns, every index can make a key of
  it, and no unique index has a row with the same key that must not repeat.  When an
  index is in the way, the first one says what is wrong (`DecidesInsert`).

  Row ids are 64-bit words, so there is one more reason to refuse a row, which no run
  shorter than the number of words comes to (`exhausted_of_runAll`).
-/
import OrderedIndex.Proofs.Table.Run

namespace OrderedIndex.Session

variable {s : Session} {rows : List Row} {values : List Value}

/-- The rows decide what an insertion of the values gives. -/
structure DecidesInsert (s : Session) (rows : List Row) (values : List Value) : Prop where
  ok_iff : ∀ id, (s.insert values).1 = .ok id ↔
    s.table.lastRowId.next? = some id ∧ s.table.Fits values ∧
      ∀ ix ∈ s.table.indexes, ix.layout.Encodable ⟨id, values⟩ ∧
        (ix.descriptor.unique = true → ∀ r ∈ rows, ix.layout.SameKey r ⟨id, values⟩ →
          s.table.config.repeatPolicy.Permits ix.layout ⟨id, values⟩)
  /-- The first index that refuses the row gives the fault. -/
  error_iff : ∀ id e, s.table.lastRowId.next? = some id → s.table.Fits values →
    ((s.insert values).1 = .error e ↔ ∃ before ix after, s.table.indexes = before ++ ix :: after ∧
      (∀ b ∈ before, ∀ e, ¬b.Refuses rows ⟨id, values⟩ e) ∧ ix.Refuses rows ⟨id, values⟩ e)
  /-- The indexes are listed in the order in which they were made. -/
  listed : s.table.indexes.Pairwise fun a b => a.descriptor.id.word < b.descriptor.id.word
  policy : ∀ ix ∈ s.table.indexes, ix.config = s.table.config

theorem Sound.not_refuses_iff (h : s.Sound rows) {ix : Index} (hix : ix ∈ s.table.indexes)
    (row : Row) :
    (∀ e, ¬ix.Refuses rows row e) ↔ ix.layout.Encodable row ∧
      (ix.descriptor.unique = true → ∀ r ∈ rows, ix.layout.SameKey r row →
        s.table.config.repeatPolicy.Permits ix.layout row) := by
  obtain ⟨m, -, hm⟩ := h.mirrored ix hix
  rw [hm.not_refuses_iff h.idsIncrease]
  apply and_congr_right
  intro _
  apply forall_congr'
  intro _
  apply forall₂_congr
  intro r _
  rw [Index.Forbids, h.configured ix hix]
  constructor
  · intro hnot hsame
    by_contra hpermits
    exact hnot ⟨hsame.symm, mt (RepeatPolicy.permits_congr hsame).1 hpermits⟩
  · rintro hpermits ⟨hsame, hnot⟩
    exact hnot ((RepeatPolicy.permits_congr hsame).1 (hpermits hsame.symm))

theorem Sound.decidesInsert (h : s.Sound rows) (values : List Value) :
    s.DecidesInsert rows values where
  ok_iff := by
    intro id
    constructor
    · intro hok
      rcases hcheck : s.table.checkValues values with e | ⟨⟩
      · rw [insert_of_misfit hcheck] at hok
        cases hok
      have hfits := Table.checkValues_eq_ok_iff.1 hcheck
      rcases hid : s.table.lastRowId.next? with _ | id'
      · rw [insert_of_exhausted hfits hid] at hok
        cases hok
      rcases h.insert_cases hfits hid with
        ⟨hall, store, hinsert, -⟩ | ⟨_, _, _, e, -, -, -, hinsert⟩
      · rw [hinsert] at hok
        obtain rfl := Except.ok.inj hok
        refine ⟨rfl, hfits, ?_⟩
        intro ix hix
        exact (h.not_refuses_iff hix _).1 (hall ix hix)
      · rw [hinsert] at hok
        cases hok
    · rintro ⟨hid, hfits, hindexes⟩
      have hall : ∀ ix ∈ s.table.indexes, ∀ e, ¬ix.Refuses rows ⟨id, values⟩ e := by
        intro ix hix
        exact (h.not_refuses_iff hix _).2 (hindexes ix hix)
      obtain ⟨store, hinsert, -⟩ := h.insert_ok hfits hid hall
      rw [hinsert]
  error_iff := by
    intro id e hid hfits
    constructor
    · intro herror
      rcases h.insert_cases hfits hid with
        ⟨-, store, hinsert, -⟩ | ⟨before, ix, after, e', hsplit, hbefore, hix, hinsert⟩
      · rw [hinsert] at herror
        cases herror
      · rw [hinsert] at herror
        obtain rfl := Except.error.inj herror
        exact ⟨before, ix, after, hsplit, hbefore, hix⟩
    · rintro ⟨before, ix, after, hsplit, hbefore, hix⟩
      rw [h.insert_refused hfits hid hsplit hbefore hix]
  listed := h.wired.ids_increase
  policy := h.configured

theorem exhausted_of_runAll {id : TableId} {name : String} {columns : List Column}
    {config : IndexConfig} {cs : List Command}
    (h : ((fresh id name columns config).runAll cs).table.lastRowId.next? = none) :
    UInt64.size ≤ cs.length + 1 := by
  have hle := (runAll_table (fresh id name columns config) cs).2.2.1
  have hmin : (fresh id name columns config).table.lastRowId.word.toNat = 0 := rfl
  have hsize := RowId.size_le_of_next?_eq_none h
  omega

/-- **Insertion decides exactly.**  In every run of a table that is alone on its store, a row goes
    in if and only if there is a value for each column that may stand there, each index can make a
    key of it, and no unique index has a row with the same index columns, except where the policy
    lets these repeat.  Otherwise, if the values fit, the first index that refuses the row gives the
    fault, and for a duplicate it names the one row in the way.  Row ids do not run out before the
    run has gone through all of them. -/
theorem insert_decides (id : TableId) (name : String) (columns : List Column)
    (config : IndexConfig) (cs : List Command) (hcs : ∀ c ∈ cs, c.Spares name)
    (values : List Value) :
    let s := (fresh id name columns config).runAll cs
    (∃ rows, s.table.rows s.store = .ok rows ∧ s.DecidesInsert rows values) ∧
      s.table.config = config ∧
      (s.table.lastRowId.next? = none → UInt64.size ≤ cs.length + 1) := by
  intro s
  obtain ⟨rows, h⟩ := sound_runAll id name columns config hcs
  obtain ⟨m, hread, hm⟩ := h.stored
  exact ⟨⟨rows, Table.rows_of_stores hread hm, h.decidesInsert values⟩,
    (runAll_table (fresh id name columns config) cs).2.1, exhausted_of_runAll⟩

/-- A row with NULL repeats a key that may repeat; without NULL it is refused by the index that was
    made first. -/
theorem insert_decides_people :
    let columns := [Column.new 0 "name" .varchar, Column.new 1 "age" .integer]
    let cs : List Command :=
      [.createIndex "by_both" [("name", .ascending), ("age", .descending)] true,
      .createIndex "by_name" [("name", .ascending)] false, .insert [.text "a", .null],
      .insert [.text "a", .integer 30], .renameIndex "by_both" "both"]
    let s := (fresh ⟨7⟩ "people" columns .default).runAll cs
    (∀ c ∈ cs, c.Spares "people") ∧
      (∃ rows, s.table.rows s.store = .ok rows ∧ s.DecidesInsert rows [.text "a", .null]) ∧
      ∃ rows, s.table.rows s.store = .ok rows ∧ s.DecidesInsert rows [.text "a", .integer 30] :=
  ⟨by decide, (insert_decides _ _ _ _ _ (by decide) _).1,
    (insert_decides _ _ _ _ _ (by decide) _).1⟩

end OrderedIndex.Session
