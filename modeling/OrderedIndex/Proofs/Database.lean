/-
  OrderedIndex/Proofs/Database.lean
  =================================
  **Tables that share a store.**

  Nothing but names keeps the maps of different tables apart, and the name of an index's
  map tells nothing about the table.  So two tables that number their indexes alike and
  name them alike have one map for both (`one_map_for_two`), and what is done to one of
  them shows in the other.

  As long as no index is made on a map that is there already (`Session.Unshared`), all
  maps of all tables are different ones (`Database.Apart`).  A command then reaches those
  of its own table only, and a command about indexes not even the rows
  (`apart_runAll`).
-/
import OrderedIndex.Proofs.Table.View
import OrderedIndex.Table.Database

namespace OrderedIndex

theorem split_of_getElem? {α : Type} {l : List α} {i : Nat} {a : α} (h : l[i]? = some a) :
    ∃ before after, l = before ++ a :: after ∧ before.length = i ∧
      ∀ b, l.set i b = before ++ b :: after := by
  obtain ⟨hlt, rfl⟩ := List.getElem?_eq_some_iff.1 h
  refine ⟨l.take i, l.drop (i + 1), ?_, List.length_take_of_le hlt.le, ?_⟩
  · rw [List.getElem_cons_drop, List.take_append_drop]
  · intro b
    rw [List.set_eq_take_append_cons_drop, if_pos hlt]

/-- A table whose name is free has a new map and no rows. -/
theorem Session.openTable_of_free {s : Store} {id : TableId} {name : String}
    {columns : List Column} {config : IndexConfig}
    (hfree : s.directory.get? (Table.mapNameOf name id) = none) :
    openTable s id name columns config =
      .ok ⟨(s.openMap (Table.mapNameOf name id)).2, .new id name columns s.made .min config⟩ := by
  have hread := Store.read_openMap_made hfree
  have hopened := Store.openMap_of_free hfree
  rw [hopened] at hread
  rw [openTable, hopened]
  simp only [Store.lastKey, hread]
  rfl

namespace Database

variable {db db' : Database} {i : Nat} {s : Session} {c : Command}

/-- No two handles of tables lead to one map. -/
structure Apart (db : Database) : Prop where
  wellListed : db.store.WellListed
  nodup : (db.tables.flatMap Table.handles).Nodup
  made : ∀ t ∈ db.tables, ∀ m ∈ t.handles, m.index < db.store.maps.length

theorem apart_empty : empty.Apart where
  wellListed := Store.wellListed_empty
  nodup := .nil
  made := by
    intro t ht
    cases ht

/-! ### Commands -/

theorem session?_eq_some (h : db.session? i = some s) :
    s.store = db.store ∧ ∃ before after, db.tables = before ++ s.table :: after ∧
      before.length = i ∧
      ∀ t, db.tables.set i t = before ++ t :: after := by
  obtain ⟨t, ht, rfl⟩ := Option.map_eq_some_iff.1 h
  exact ⟨rfl, split_of_getElem? ht⟩

theorem Apart.ne_made (h : db.Apart) (hs : db.session? i = some s) {t : Table}
    (ht : t ∈ db.tables) {m : MapId} (hm : m ∈ t.handles) : m ≠ s.store.made := by
  rintro rfl
  have hlt := h.made t ht _ hm
  rw [(session?_eq_some hs).1] at hlt
  exact Nat.lt_irrefl _ hlt

theorem Apart.update (h : db.Apart) (hs : db.session? i = some s) (hc : s.Unshared c) :
    (db.update i (s.run c).2).Apart := by
  obtain ⟨hstore, before, after, htables, -, hset⟩ := session?_eq_some hs
  have heffect := s.effect_run c
  have hwell : s.store.WellListed := hstore ▸ h.wellListed
  have hmade : ∀ t ∈ db.tables, ∀ m ∈ t.handles, m.index < s.store.maps.length := hstore ▸ h.made
  refine ⟨heffect.wellListed hwell, ?nodup, ?made⟩
  case nodup =>
    -- the handles of the table come first, those of the others behind
    have hperm (t : Table) : ((before ++ t :: after).flatMap Table.handles).Perm
        (t.handles ++ (before ++ after).flatMap Table.handles) := by
      rw [List.flatMap_append, List.flatMap_append, List.flatMap_cons]
      exact List.perm_append_comm_assoc _ _ _
    have hnodup := h.nodup
    rw [htables, (hperm s.table).nodup_iff] at hnodup
    have hfresh :
        ∀ m ∈ s.gains c, ∀ m' ∈ s.table.handles ++ (before ++ after).flatMap Table.handles,
        m ≠ m' := by
      rintro m hm m' hm' rfl
      have hmem : m ∈ db.tables.flatMap Table.handles := by
        rw [htables]
        exact (hperm s.table).mem_iff.2 hm'
      obtain ⟨t, ht, hmt⟩ := List.mem_flatMap.1 hmem
      exact h.ne_made hs ht hmt (Session.eq_made_of_mem_gains hc hm)
    have hall : (s.gains c ++ (s.table.handles ++ (before ++ after).flatMap Table.handles)).Nodup :=
      List.nodup_append.2 ⟨Session.nodup_gains hc, hnodup, hfresh⟩
    have hsub : ((s.run c).2.table.handles ++ (before ++ after).flatMap Table.handles).Sublist
        ((s.table.handles ++ s.gains c) ++ (before ++ after).flatMap Table.handles) :=
      heffect.handles.append_right _
    show ((db.tables.set i (s.run c).2.table).flatMap Table.handles).Nodup
    rw [hset, (hperm _).nodup_iff]
    refine hsub.nodup ?_
    rw [List.append_assoc, (List.perm_append_comm_assoc _ _ _).nodup_iff]
    exact hall
  case made =>
    show ∀ t ∈ db.tables.set i (s.run c).2.table, ∀ m ∈ t.handles,
      m.index < (s.run c).2.store.maps.length
    have hle := heffect.touches.length_le
    rw [hset]
    intro t ht m hm
    rw [htables] at hmade
    rcases List.mem_append.1 ht with ht | ht
    · exact (hmade t (by simp [ht]) m hm).trans_le hle
    rcases List.mem_cons.1 ht with rfl | ht
    · rcases heffect.mem_handles hwell hm with hm | hlt
      · exact (hmade s.table (by simp) m hm).trans_le hle
      · exact hlt
    · exact (hmade t (by simp [ht]) m hm).trans_le hle

/-- A map that a command does not reach, of whichever table it is. -/
theorem Apart.read_eq (h : db.Apart) (hs : db.session? i = some s) {t : Table}
    (ht : t ∈ db.tables) {m : MapId} (hm : m ∈ t.handles) (hreach : m ∉ s.reach c) :
    (s.run c).2.store.read m = db.store.read m := by
  have hstore := (session?_eq_some hs).1
  rw [← hstore]
  exact (s.effect_run c).touches.read_eq m (hstore ▸ h.made t ht m hm) hreach

/-- The handles of one table are not those of another. -/
theorem Apart.not_mem_handles (h : db.Apart) (hs : db.session? i = some s) {j : Nat} (hj : j ≠ i)
    {t : Table} (ht : db.tables[j]? = some t) {m : MapId} (hm : m ∈ t.handles) :
    m ∉ s.table.handles := by
  obtain ⟨t', ht', rfl⟩ := Option.map_eq_some_iff.1 hs
  have hpair := (List.nodup_flatMap.1 h.nodup).2
  have hdisjoint {a b : Nat} {x y : Table} (hx : db.tables[a]? = some x)
      (hy : db.tables[b]? = some y) (hab : a < b) :
      List.Disjoint x.handles y.handles := by
    obtain ⟨ha, rfl⟩ := List.getElem?_eq_some_iff.1 hx
    obtain ⟨hb, rfl⟩ := List.getElem?_eq_some_iff.1 hy
    exact List.pairwise_iff_getElem.1 hpair a b ha hb hab
  intro hm'
  rcases Nat.lt_or_gt_of_ne hj with hlt | hlt
  · exact hdisjoint ht ht' hlt hm hm'
  · exact hdisjoint ht' ht hlt hm' hm

/-- **A command on one table does not show in another.** -/
theorem Apart.alike (h : db.Apart) (hs : db.session? i = some s) (hc : s.Unshared c) {j : Nat}
    (hj : j ≠ i) {s' : Session} (hs' : db.session? j = some s') :
    ∃ s'', (db.update i (s.run c).2).session? j = some s'' ∧ s'.Alike s'' := by
  obtain ⟨t, ht, rfl⟩ := Option.map_eq_some_iff.1 hs'
  have hmem := List.mem_of_getElem? ht
  refine ⟨⟨(s.run c).2.store, t⟩, ?_, Session.alike_of_read fun m hm => h.read_eq hs hmem hm ?_⟩
  · show ((db.tables.set i (s.run c).2.table)[j]?).map _ = _
    rw [List.getElem?_set_ne hj.symm, ht]
    rfl
  · intro hreach
    rcases Session.mem_reach hc hreach with hown | hmade
    · exact h.not_mem_handles hs hj ht hm hown
    · exact h.ne_made hs hmem hm hmade

/-- **A command about indexes does not touch the rows of any table.** -/
theorem Apart.read_primary (h : db.Apart) (hs : db.session? i = some s) (hc : s.Unshared c)
    (hindexing : c.isIndexing = true) {t : Table} (ht : t ∈ db.tables) :
    (s.run c).2.store.read t.primary = db.store.read t.primary := by
  have hprimary : t.primary ∈ t.handles := List.mem_cons_self
  refine h.read_eq hs ht hprimary ?_
  -- the maps of the indexes stand apart from all maps of rows
  have hindexes : t.primary ∉ s.table.indexes.map Index.map := by
    intro hmem
    obtain ⟨j, hj⟩ := List.getElem?_of_mem ht
    by_cases hij : j = i
    · subst hij
      obtain ⟨t', ht', rfl⟩ := Option.map_eq_some_iff.1 hs
      cases hj.symm.trans ht'
      exact (List.nodup_cons.1 ((List.nodup_flatMap.1 h.nodup).1 t ht)).1 hmem
    · exact h.not_mem_handles hs hij hj hprimary (List.mem_cons_of_mem _ hmem)
  cases c with
  | createIndex name =>
    rw [Session.reach, Session.mapFor_of_hasMap hc, List.mem_singleton]
    exact h.ne_made hs ht hprimary
  | dropIndex | renameIndex => exact hindexes
  | insert | delete | truncate => cases hindexing

/-! ### Histories -/

theorem Apart.perform (h : db.Apart) {step : Nat × Command}
    (hstep : ∀ s ∈ db.session? step.1, s.Unshared step.2) : (db.perform step).Apart := by
  unfold Database.perform run
  rcases hs : db.session? step.1 with _ | s
  · exact h
  · exact h.update hs (hstep s hs)

theorem Apart.runAll (h : db.Apart) {steps : List (Nat × Command)}
    (hsteps : ∀ v ∈ db.visits steps, ∀ s ∈ v.1.session? v.2.1, s.Unshared v.2.2) :
    (db.runAll steps).Apart := by
  induction steps generalizing db with
  | nil => exact h
  | cons step steps ih =>
    rw [visits, List.forall_mem_cons] at hsteps
    exact ih (h.perform hsteps.1) hsteps.2

/-! ### Opening -/

/-- Tables that have just been opened on an empty store. -/
structure Opened (db : Database) (openings : List Opening) : Prop where
  apart : db.Apart
  tables : db.tables.map (fun t => (t.name, t.id)) = openings.map fun o => (o.name, o.id)
  listed : ∀ n ∈ db.store.directory.keys, ∃ t ∈ db.tables, n = Table.mapNameOf t.name t.id

theorem opened_empty : empty.Opened [] where
  apart := apart_empty
  tables := rfl
  listed := by
    intro n hn
    cases hn

theorem Opened.openTable {openings : List Opening} (h : db.Opened openings) (o : Opening)
    (hnew : (o.name, o.id) ∉ openings.map fun o => (o.name, o.id)) :
    ∃ db', db.openTable o.id o.name o.columns o.config = .ok db' ∧
      db'.Opened (openings ++ [o]) := by
  have hfree : db.store.directory.get? (Table.mapNameOf o.name o.id) = none := by
    rw [SortedMap.get?_eq_none_iff]
    intro hmem
    obtain ⟨t, ht, heq⟩ := h.listed _ hmem
    obtain ⟨hname, hid⟩ := append_digits_inj heq
    refine hnew ?_
    rw [← h.tables, List.mem_map]
    refine ⟨t, ht, ?_⟩
    rw [← hname, show t.id = o.id from congrArg TableId.mk hid.symm]
  have hopened := Store.openMap_of_free hfree
  refine ⟨_, by rw [Database.openTable, Session.openTable_of_free hfree]; rfl, ?_⟩
  refine ⟨⟨h.apart.wellListed.openMap _, ?nodup, ?made⟩, ?tables, ?listed⟩
  case nodup =>
    show ((db.tables ++ [_]).flatMap Table.handles).Nodup
    rw [List.flatMap_append, List.nodup_append]
    refine ⟨h.apart.nodup, List.nodup_singleton _, ?_⟩
    intro m hm m' hm'
    obtain ⟨t, ht, hmt⟩ := List.mem_flatMap.1 hm
    obtain rfl : m' = db.store.made := List.mem_singleton.1 hm'
    rintro rfl
    exact Nat.lt_irrefl _ (h.apart.made t ht _ hmt)
  case made =>
    have hlength :
        (db.store.openMap (Table.mapNameOf o.name o.id)).2.maps.length =
          db.store.maps.length + 1 := by
      rw [hopened, List.length_append]
      rfl
    intro t ht m hm
    show m.index < (db.store.openMap (Table.mapNameOf o.name o.id)).2.maps.length
    rw [hlength]
    rcases List.mem_append.1 ht with ht | ht
    · exact Nat.lt_succ_of_lt (h.apart.made t ht m hm)
    · obtain rfl := List.mem_singleton.1 ht
      obtain rfl : m = db.store.made := List.mem_singleton.1 hm
      exact Nat.lt_succ_self _
  case tables =>
    show (db.tables ++ [_]).map _ = _
    rw [List.map_append, List.map_append, h.tables]
    rfl
  case listed =>
    intro n hn
    rw [hopened] at hn
    rcases SortedMap.mem_keys_insert.1 hn with rfl | hn
    · exact ⟨_, List.mem_append_right _ List.mem_cons_self, rfl⟩
    · obtain ⟨t, ht, heq⟩ := h.listed n hn
      exact ⟨t, List.mem_append_left _ ht, heq⟩

theorem Opened.openAll {before openings : List Opening} (h : db.Opened before)
    (hnames : ((before ++ openings).map fun o => (o.name, o.id)).Nodup) :
    ∃ db', db.openAll openings = .ok db' ∧ db'.Opened (before ++ openings) := by
  induction openings generalizing db before with
  | nil =>
    rw [List.append_nil]
    exact ⟨db, rfl, h⟩
  | cons o openings ih =>
    have hnew : (o.name, o.id) ∉ before.map fun o => (o.name, o.id) := by
      intro hmem
      rw [List.map_append, List.nodup_append] at hnames
      exact hnames.2.2 _ hmem _ List.mem_cons_self rfl
    obtain ⟨db₁, hopen, h₁⟩ := h.openTable o hnew
    rw [List.append_cons] at hnames ⊢
    obtain ⟨db', hall, h'⟩ := ih h₁ hnames
    refine ⟨db', ?_, h'⟩
    rw [Database.openAll, List.foldlM_cons, hopen]
    exact hall

/-- **Tables that share a store do not interfere as long as no index is made on a map that is there
    already.**  Tables of different names or ids are opened on an empty store, and any commands are
    run on them in turn.  Then all maps of their rows and of their indexes are different ones.
    Whatever is done next to one table, the rows, the entries and the scans of the others stay as
    they are, and nothing that is done to indexes touches the rows of any table. -/
theorem apart_runAll (openings : List Opening)
    (hnames : (openings.map fun o => (o.name, o.id)).Nodup) (steps : List (Nat × Command)) :
    ∃ first, empty.openAll openings = .ok first ∧
      first.tables.map (fun t => (t.name, t.id)) = openings.map (fun o => (o.name, o.id)) ∧
      ((∀ v ∈ first.visits steps, ∀ s ∈ v.1.session? v.2.1, s.Unshared v.2.2) →
        let db := first.runAll steps
        (db.tables.flatMap Table.handles).Nodup ∧
          ∀ i s c, db.session? i = some s → s.Unshared c →
            (∀ j s', j ≠ i → db.session? j = some s' →
                ∃ s'', (db.update i (s.run c).2).session? j = some s'' ∧ s'.Alike s'') ∧
              (c.isIndexing = true → ∀ t ∈ db.tables,
                (db.update i (s.run c).2).store.read t.primary = db.store.read t.primary)) := by
  obtain ⟨first, hopen, h⟩ := opened_empty.openAll hnames
  refine ⟨first, hopen, h.tables, ?_⟩
  intro hsteps db
  have hdb : db.Apart := h.apart.runAll hsteps
  refine ⟨hdb.nodup, ?_⟩
  intro i s c hs hc
  exact ⟨fun j s' hj hs' => hdb.alike hs hc hj hs',
    fun hindexing t ht => hdb.read_primary hs hc hindexing ht⟩

/-- Both tables have an index of the same id, whose names differ.  An insertion is refused, an index
    is not renamed to a name that the other table uses, and an index is dropped. -/
theorem apart_runAll_two :
    let openings : List Opening := [⟨⟨1⟩, "x", [.new 0 "n" .integer], .default⟩,
      ⟨⟨2⟩, "y", [.new 0 "n" .integer], .default⟩]
    let steps : List (Nat × Command) := [(0, .createIndex "by_x" [("n", .ascending)] false),
      (1, .createIndex "by_y" [("n", .descending)] true), (0, .insert [.integer 5]),
      (1, .insert [.integer 5]), (1, .insert [.integer 5]), (0, .renameIndex "by_x" "by_y"),
      (1, .createIndex "by_x" [("n", .ascending)] false), (1, .dropIndex "by_y")]
    (openings.map fun o => (o.name, o.id)).Nodup ∧ ∃ first, empty.openAll openings = .ok first ∧
      (∀ v ∈ first.visits steps, ∀ s ∈ v.1.session? v.2.1, s.Unshared v.2.2) ∧
      ((first.runAll steps).tables.flatMap Table.handles).Nodup := by
  intro openings steps
  obtain ⟨first, hopen, -, hapart⟩ := apart_runAll openings (by decide) steps
  have hsteps : ∃ first, empty.openAll openings = .ok first ∧
      ∀ v ∈ first.visits steps, ∀ s ∈ v.1.session? v.2.1, s.Unshared v.2.2 :=
    exists_ok_of_any (by decide +kernel)
  rw [hopen] at hsteps
  obtain ⟨_, ⟨⟩, hsteps⟩ := hsteps
  exact ⟨by decide, first, hopen, hsteps, (hapart hsteps).1⟩

/-- Two indexes of one name and one id get one map.  A row of the one table is an entry in the index
    of the other, which has no rows. -/
theorem one_map_for_two :
    let openings : List Opening := [⟨⟨1⟩, "x", [.new 0 "n" .integer], .default⟩,
      ⟨⟨2⟩, "y", [.new 0 "n" .integer], .default⟩]
    let steps : List (Nat × Command) := [(0, .createIndex "by_n" [("n", .ascending)] false),
      (1, .createIndex "by_n" [("n", .ascending)] false)]
    ∃ first, empty.openAll openings = .ok first ∧
      ¬((first.runAll steps).tables.flatMap Table.handles).Nodup ∧
      (∀ s ∈ (first.runAll steps).session? 1,
        s.table.indexes.map (fun ix => (ix.size s.store).toOption) = [some 0]) ∧
      ∀ s ∈ ((first.runAll steps).perform (0, .insert [.integer 5])).session? 1,
        (s.table.size s.store).toOption = some 0 ∧
          s.table.indexes.map (fun ix => (ix.size s.store).toOption) = [some 1] := by
  exact exists_ok_of_any (by decide +kernel)

end Database
end OrderedIndex
