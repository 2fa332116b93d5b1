/-
  OrderedIndex/Proofs/Table/RowIds.lean
  =====================================
  **Row ids over several sessions.**

  A session counts the row ids that it gives out.  Nothing of the count is stored: the
  next session goes on after the largest id that is still there (`Anchored.reopen`).  So
  an id is given out once only if no session ends after the row of the last id has been
  deleted (`Session.Retains`), and `issued_again` is a history that gives id 1 to two
  rows.

    * `issued_from_one` : if every session but the last ends with the row of the last id
      in place, the ids of all sessions together are 1, 2, 3, and so on.
    * In any case a new id is beyond those of the rows that are stored, so that a row is
      never overwritten.

  Both rest on the map of the rows being where it was, whatever the indexes go through
  and whatever maps earlier sessions have left behind (`Session.Anchored`).
-/
import OrderedIndex.Proofs.Table.Effect
import OrderedIndex.Proofs.Table.History

namespace OrderedIndex

namespace Session

variable {s : Session} {c : Command} {rows rows' : List Row} {es : List Event}

/-! ### The map of the rows -/

/-- The map of the rows stands under its name, is not the map of an index, and holds the rows. -/
structure Anchored (s : Session) (rows : List Row) : Prop where
  wellListed : s.store.WellListed
  named : s.store.nameOf s.table.primary = Table.mapNameOf s.table.name s.table.id
  not_mem : s.table.primary ∉ s.table.indexes.map Index.map
  stored : ∃ m, s.store.read s.table.primary = .ok m ∧ Stores m rows
  id_le : ∀ r ∈ rows, r.id.word ≤ s.table.lastRowId.word

theorem anchored_fresh (id : TableId) (name : String) (columns : List Column)
    (config : IndexConfig) :
    (fresh id name columns config).Anchored [] where
  wellListed := Store.wellListed_empty.openMap _
  named := rfl
  not_mem := List.not_mem_nil
  stored := ⟨.empty, rfl, stores_empty⟩
  id_le := by
    intro r hr
    cases hr

theorem Anchored.rows_eq (h : s.Anchored rows) : s.table.rows s.store = .ok rows := by
  obtain ⟨m, hread, hm⟩ := h.stored
  exact Table.rows_of_stores hread hm

theorem Anchored.idsIncrease (h : s.Anchored rows) : IdsIncrease rows := by
  obtain ⟨m, -, hm⟩ := h.stored
  exact hm.idsIncrease

theorem Anchored.isOpen (h : s.Anchored rows) : s.store.isClosed s.table.primary = false := by
  obtain ⟨m, hread, -⟩ := h.stored
  exact Store.isClosed_of_read hread

/-- An index of another name gets another map. -/
theorem Anchored.ne_mapFor (h : s.Anchored rows) {name : String} (hname : name ≠ s.table.name) :
    s.table.primary ≠ (s.mapFor name).1 := by
  intro heq
  rcases Store.openMap_cases s.store (Descriptor.mapNameOf name s.table.nextIndexId) with
    ⟨m, hget, hopen⟩ | ⟨hfree, hopen⟩
  · rw [mapFor, hopen] at heq
    obtain rfl : s.table.primary = m := heq
    have hnamed := ((h.wellListed _ _).1 hget).2
    rw [h.named] at hnamed
    exact hname (Descriptor.name_eq_of_mapNameOf hnamed.symm)
  · rw [mapFor, hopen] at heq
    exact Store.ne_made h.isOpen heq

/-! ### Commands -/

theorem Anchored.not_mem_run (h : s.Anchored rows) (hc : c.Spares s.table.name) :
    (s.run c).2.table.primary ∉ (s.run c).2.table.indexes.map Index.map := by
  have hhandles := (s.effect_run c).handles
  rw [Table.handles, Table.handles, (run_definition s c).2.2.2.1, List.cons_append,
    List.cons_sublist_cons] at hhandles
  rw [(run_definition s c).2.2.2.1]
  intro hmem
  rcases List.mem_append.1 (hhandles.mem hmem) with hmem | hmem
  · exact h.not_mem hmem
  · cases c with
    | createIndex name => exact h.ne_mapFor hc (List.mem_singleton.1 hmem)
    | insert | delete | truncate | dropIndex | renameIndex => cases hmem

/-- Commands about indexes do not reach the rows. -/
theorem Anchored.run_indexing (h : s.Anchored rows) (hc : c.Spares s.table.name)
    (hindexing : c.isIndexing = true) :
    (s.run c).2.Anchored rows := by
  have heffect := s.effect_run c
  have hprimary := (run_definition s c).2.2.2.1
  have hlt := Store.index_lt_of_isClosed h.isOpen
  have hreach : s.table.primary ∉ s.reach c := by
    cases c with
    | createIndex name => exact List.not_mem_cons_of_ne_of_not_mem (h.ne_mapFor hc) List.not_mem_nil
    | dropIndex | renameIndex => exact h.not_mem
    | insert | delete | truncate => cases hindexing
  refine ⟨heffect.wellListed h.wellListed, ?_, h.not_mem_run hc, ?_, ?_⟩
  · rw [hprimary, (run_definition s c).1, (run_definition s c).2.1,
      heffect.touches.nameOf_eq _ hlt hreach]
    exact h.named
  · rw [hprimary, heffect.touches.read_eq _ hlt hreach]
    exact h.stored
  · rw [heffect.lastRowId_eq hindexing]
    exact h.id_le

/-- The map of the rows after a change of the indexes' maps. -/
theorem Anchored.stored_of_rewrites {store : Store} (h : s.Anchored rows)
    (hr : s.store.Rewrites store (s.table.indexes.map Index.map)) :
    ∃ m, store.read s.table.primary = .ok m ∧ Stores m rows ∧
      store.isClosed s.table.primary = false := by
  obtain ⟨m, hread, hm⟩ := h.stored
  have hread' : store.read s.table.primary = .ok m := (hr.read_eq _ h.not_mem).trans hread
  exact ⟨m, hread', hm, Store.isClosed_of_read hread'⟩

theorem Anchored.of_rewrites {store : Store} {last : RowId} {m : SortedMap Bytes Bytes}
    (h : s.Anchored rows) (hr : s.store.Rewrites store s.table.handles)
    (hread : store.read s.table.primary = .ok m) (hm : Stores m rows')
    (hle : ∀ r ∈ rows', r.id.word ≤ last.word) :
    Anchored ⟨store, { s.table with lastRowId := last }⟩ rows' :=
  ⟨h.wellListed.of_rewrites hr, (hr.nameOf_eq _).trans h.named, h.not_mem, ⟨m, hread, hm⟩, hle⟩

theorem Anchored.of_rewrites_indexes {store : Store} (h : s.Anchored rows)
    (hr : s.store.Rewrites store (s.table.indexes.map Index.map)) :
    Anchored { s with store } rows := by
  obtain ⟨m, hread, hm, -⟩ := h.stored_of_rewrites hr
  exact h.of_rewrites (hr.mono (List.subset_cons_self _ _)) hread hm h.id_le

/-- An insertion gives the next id to a new last row, or it gives no id and changes no row. -/
theorem Anchored.insert (h : s.Anchored rows) (values : List Value) :
    (∃ e, (s.insert values).1 = .error e ∧ (s.insert values).2.Anchored rows ∧
        (s.insert values).2.table.lastRowId = s.table.lastRowId) ∨
      ∃ id, (s.insert values).1 = .ok id ∧ s.table.lastRowId.next? = some id ∧
        (s.insert values).2.Anchored (rows ++ [⟨id, values⟩]) ∧
          (s.insert values).2.table.lastRowId = id := by
  rcases insert_outcome s values with
    ⟨e, store, hinsert, hr⟩ | ⟨id, old, mid, store, hinsert, hid, -, hr, hput⟩
  · rw [hinsert]
    exact .inl ⟨e, rfl, h.of_rewrites_indexes hr, rfl⟩
  · rw [hinsert]
    refine .inr ⟨id, rfl, hid, ?_, rfl⟩
    obtain ⟨m, hread, hm, hmid⟩ := h.stored_of_rewrites hr
    rw [Store.put, hread] at hput
    cases hput
    refine h.of_rewrites (rewrites_handles hr (Store.rewrites_setEntries hmid _))
      (Store.read_setEntries_self hmid _)
      (hm.insert ⟨id, values⟩ fun r hr => RowId.lt_next? (h.id_le r hr) hid) ?_
    rw [List.forall_mem_append]
    exact ⟨fun r hr => RowId.le_next? (h.id_le r hr) hid, by simp⟩

theorem Anchored.delete (h : s.Anchored rows) (id : RowId) :
    ∃ rows', (s.delete id).2.Anchored rows' ∧
      (s.delete id).2.table.lastRowId = s.table.lastRowId := by
  rcases delete_outcome s id with
    ⟨e, store, hdelete, hr⟩ | ⟨row, old, mid, store, hdelete, -, hr, hremove⟩
  · rw [hdelete]
    exact ⟨rows, h.of_rewrites_indexes hr, rfl⟩
  · rw [hdelete]
    obtain ⟨m, hread, hm, hmid⟩ := h.stored_of_rewrites hr
    rw [Store.remove, hread] at hremove
    cases hremove
    refine ⟨_, h.of_rewrites (rewrites_handles hr (Store.rewrites_setEntries hmid _))
      (Store.read_setEntries_self hmid _) (hm.erase id) ?_, rfl⟩
    intro r hr
    exact h.id_le r (List.mem_filter.1 hr).1

theorem Anchored.truncate (h : s.Anchored rows) :
    ∃ rows', s.truncate.2.Anchored rows' ∧ s.truncate.2.table.lastRowId = s.table.lastRowId := by
  rcases truncate_outcome s with ⟨e, store, htruncate, hr⟩ | ⟨mid, store, htruncate, hr, hclear⟩
  · rw [htruncate]
    exact ⟨rows, h.of_rewrites_indexes hr, rfl⟩
  · rw [htruncate]
    obtain ⟨m, hread, hm, hmid⟩ := h.stored_of_rewrites hr
    rw [Store.clear, hread] at hclear
    cases hclear
    refine ⟨[], h.of_rewrites (rewrites_handles hr (Store.rewrites_setEntries hmid _))
      (Store.read_setEntries_self hmid _) stores_empty ?_, rfl⟩
    intro r hr
    cases hr

/-- **A command counts on if it stores a row**, and leaves the count alone otherwise. -/
theorem Anchored.run (h : s.Anchored rows) (hc : c.Spares s.table.name) :
    ∃ rows', (s.run c).2.Anchored rows' ∧
      (s.run c).2.table.lastRowId = (s.stores? (.command c)).getD s.table.lastRowId ∧
      ∀ id ∈ s.stores? (.command c), s.table.lastRowId.next? = some id := by
  cases c with
  | insert values =>
    show ∃ rows', (s.insert values).2.Anchored rows' ∧
      (s.insert values).2.table.lastRowId = ((s.insert values).1.toOption).getD s.table.lastRowId ∧
      ∀ id ∈ (s.insert values).1.toOption, s.table.lastRowId.next? = some id
    rcases h.insert values with ⟨e, he, hanchored, hlast⟩ | ⟨id, hok, hid, hanchored, hlast⟩
    · rw [he]
      exact ⟨rows, hanchored, hlast, by simp [Except.toOption]⟩
    · rw [hok]
      exact ⟨_, hanchored, hlast, by simpa [Except.toOption] using hid⟩
  | delete id =>
    obtain ⟨rows', h', hlast⟩ := h.delete id
    exact ⟨rows', h', hlast, by simp [stores?]⟩
  | truncate =>
    obtain ⟨rows', h', hlast⟩ := h.truncate
    exact ⟨rows', h', hlast, by simp [stores?]⟩
  | createIndex | dropIndex | renameIndex =>
    exact ⟨rows, h.run_indexing hc rfl, (s.effect_run _).lastRowId_eq rfl, by simp [stores?]⟩

/-! ### Reopening -/

/-- **The next session goes on after the last row that is stored.** -/
theorem Anchored.reopen (h : s.Anchored rows) : s.reopen = .ok (s.reopened (lastIdOf rows)) := by
  obtain ⟨m, hread, hm⟩ := h.stored
  have hget := h.wellListed.get?_nameOf h.isOpen
  rw [h.named] at hget
  exact reopen_of_stores hget hread hm

theorem Anchored.of_reopen (h : s.Anchored rows) : (s.reopened (lastIdOf rows)).Anchored rows :=
  ⟨h.wellListed, h.named, List.not_mem_nil, h.stored, fun _ hr => h.idsIncrease.le_lastIdOf hr⟩

/-- The row that got the last id is still there, or no row has been stored at all. -/
def Retains (s : Session) : Prop :=
  s.table.lastRowId = .min ∨ (s.table.getRow s.store s.table.lastRowId).isOk = true

instance (s : Session) : Decidable s.Retains := inferInstanceAs (Decidable (_ ∨ _))

theorem Anchored.lastIdOf_eq (h : s.Anchored rows) (hs : s.Retains) :
    lastIdOf rows = s.table.lastRowId := by
  refine h.idsIncrease.lastIdOf_eq h.id_le (hs.imp_right ?_)
  intro hrow
  by_contra hnone
  obtain ⟨m, hread, hm⟩ := h.stored
  rw [Table.getRow_of_not_mem hread hm fun r hr heq => hnone ⟨r, hr, heq⟩] at hrow
  cases hrow

/-! ### Histories -/

theorem Anchored.pass (h : s.Anchored rows) {e : Event} (he : e.Spares s.table.name) :
    ∃ s', s.pass Session.reopen e = .ok s' ∧ (∃ rows', s'.Anchored rows') ∧
      s'.table.name = s.table.name := by
  cases e with
  | command c =>
    obtain ⟨rows', h', -⟩ := h.run he
    exact ⟨_, rfl, ⟨rows', h'⟩, (run_definition s c).2.1⟩
  | reopening => exact ⟨_, h.reopen, ⟨rows, h.of_reopen⟩, rfl⟩

theorem Anchored.passAll (h : s.Anchored rows) (hes : ∀ e ∈ es, e.Spares s.table.name) :
    ∃ s', s.passAll Session.reopen es = .ok s' ∧ ∃ rows', s'.Anchored rows' := by
  have hvisits : ∀ v ∈ s.visits Session.reopen es, v.2.Spares s.table.name :=
    fun v hv => hes v.2 (event_mem_of_visits hv)
  have hstep (s' : Session) (e : Event) (h' : (∃ rows', s'.Anchored rows') ∧
      s'.table.name = s.table.name)
      (he : e.Spares s.table.name) : ∃ s'', s'.pass Session.reopen e = .ok s'' ∧
        (∃ rows'', s''.Anchored rows'') ∧ s''.table.name = s.table.name := by
    obtain ⟨⟨rows', h'⟩, hname⟩ := h'
    obtain ⟨s'', hpass, h'', hname'⟩ := h'.pass (by rw [hname]; exact he)
    exact ⟨s'', hpass, h'', hname'.trans hname⟩
  obtain ⟨s', hpass, h', -⟩ := exists_passAll hstep ⟨⟨rows, h⟩, rfl⟩ hvisits
  exact ⟨s', hpass, h'⟩

/-- The ids go on from the last one without a gap. -/
theorem Anchored.issued (h : s.Anchored rows) (hes : ∀ e ∈ es, e.Spares s.table.name)
    (hretains : ∀ v ∈ s.visits Session.reopen es, v.2 = .reopening → v.1.Retains) :
    (s.issued Session.reopen es).map (·.word.toNat) =
      List.range' (s.table.lastRowId.word.toNat + 1) (s.issued Session.reopen es).length := by
  induction es generalizing s rows with
  | nil => rfl
  | cons e es ih =>
    rw [List.forall_mem_cons] at hes
    obtain ⟨he, hes⟩ := hes
    cases e with
    | command c =>
      obtain ⟨rows', h', hlast, hnext⟩ := h.run he
      have hpass : s.pass Session.reopen (.command c) = .ok (s.run c).2 := rfl
      rw [visits_of_pass hpass, List.forall_mem_cons] at hretains
      have hrest := ih h' (by rw [(run_definition s c).2.1]; exact hes) hretains.2
      rw [issued_of_pass hpass]
      rw [hlast] at hrest
      rcases hid : s.stores? (.command c) with _ | id
      · rw [hid] at hrest
        exact hrest
      · have hword := RowId.next?_eq_some_iff.1 (hnext id hid)
        rw [hid] at hrest
        show id.word.toNat :: (Session.issued _ _ es).map (·.word.toNat) =
          List.range' _ ((Session.issued _ _ es).length + 1)
        rw [List.range'_succ, ← hword]
        exact congrArg _ hrest
    | reopening =>
      have hpass : s.pass Session.reopen .reopening = .ok _ := h.reopen
      rw [visits_of_pass hpass, List.forall_mem_cons] at hretains
      rw [issued_of_pass hpass, ← h.lastIdOf_eq (hretains.1 rfl)]
      exact ih h.of_reopen (by exact hes) hretains.2

/-- **Row ids count from 1 over all sessions of a table, as long as the row of the last id outlives
    each session.** Whether it does or not, a new row comes behind all that are stored, and the next
    session goes on after these. -/
theorem issued_from_one (id : TableId) (name : String) (columns : List Column)
    (config : IndexConfig) (es : List Event) (hes : ∀ e ∈ es, e.Spares name) :
    let first := fresh id name columns config
    (∃ s rows next, first.passAll reopen es = .ok s ∧ s.table.rows s.store = .ok rows ∧
        (∀ values id, (s.insert values).1 = .ok id → ∀ r ∈ rows, r.id.word < id.word) ∧
        s.reopen = .ok next ∧ next.table.lastRowId = lastIdOf rows) ∧
      ((∀ v ∈ first.visits reopen es, v.2 = .reopening → v.1.Retains) →
        (first.issued reopen es).map (·.word.toNat) =
          List.range' 1 (first.issued reopen es).length) := by
  intro first
  have hfirst : first.Anchored [] := anchored_fresh id name columns config
  obtain ⟨s, hpass, rows, h⟩ := hfirst.passAll hes
  refine ⟨⟨s, rows, _, hpass, h.rows_eq, ?_, h.reopen, rfl⟩, hfirst.issued hes⟩
  intro values id hid r hr
  have hnext : s.table.lastRowId.next? = some id := by
    rcases h.insert values with ⟨e, he, -⟩ | ⟨id', hok, hnext, -⟩
    · cases hid.symm.trans he
    · cases hid.symm.trans hok
      exact hnext
  have hlt := RowId.lt_next? (h.id_le r hr) hnext
  exact Std.compare_eq_lt (a := r.id.word).1 hlt

/-- Three sessions: an index is declared and its map left behind, the first session ends with row 2
    in place, though row 1 is deleted, and the second with nothing new. -/
theorem issued_from_one_sessions :
    let first := fresh ⟨1⟩ "t" [.new 0 "n" .integer] .default
    let es : List Event := [.command (.createIndex "a" [("n", .ascending)] true),
      .command (.insert [.integer 5]), .command (.insert [.integer 5]),
      .command (.insert [.integer 6]), .command (.delete ⟨1⟩), .reopening,
      .command (.createIndex "b" [("n", .descending)] false), .reopening,
      .command (.insert [.integer 5])]
    (∀ e ∈ es, e.Spares "t") ∧ (∀ v ∈ first.visits reopen es, v.2 = .reopening → v.1.Retains) ∧
      (first.issued reopen es).length = 3 ∧
        (first.issued reopen es).map (·.word.toNat) = List.range' 1 3 := by
  refine ⟨by
    decide, ?retains, ?three, (?three : _ = 3) ▸ (issued_from_one _ _ _ _ _ (by decide)).2 ?retains⟩
  case retains => decide +kernel
  case three => decide +kernel

/-- The row of the last id is deleted, and the next session gives the id to another row. -/
theorem issued_again :
    let first := fresh ⟨1⟩ "t" [.new 0 "n" .integer] .default
    let es : List Event := [.command (.insert [.integer 5]), .command (.delete ⟨1⟩), .reopening,
      .command (.insert [.integer 6])]
    first.issued reopen es = [⟨1⟩, ⟨1⟩] ∧ ¬(first.issued reopen es).Pairwise fun a b =>
      a.word < b.word := by
  have h :
      (fresh ⟨1⟩ "t" [.new 0 "n" .integer] .default).issued reopen [.command (.insert [.integer 5]),
        .command (.delete ⟨1⟩), .reopening, .command (.insert [.integer 6])] = [⟨1⟩, ⟨1⟩] := by
    decide +kernel
  refine ⟨h, ?_⟩
  rw [h]
  decide

end Session
end OrderedIndex
