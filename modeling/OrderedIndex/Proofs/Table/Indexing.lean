/-
  OrderedIndex/Proofs/Table/Indexing.lean
  =======================================
  **Making, dropping and renaming indexes** keeps a table in order.

  A new index gets a map of its own, which is empty, so it is filled row by row; in the
  course of that it mirrors the rows that are in already (`mirrors_of_foldlM_add`).  When
  a row does not go in, the map is removed, and nothing of it is left
  (`Sound.createIndex`).  Dropping removes one map; renaming changes names only.  What
  these two can do to any table, in order or not, comes first (`dropIndex_outcome`,
  `renameIndex_outcome`).
-/
import OrderedIndex.Proofs.Table.Sound

namespace OrderedIndex

/-! ### Making an index -/

namespace Index

variable {ix : Index} {s s' : Store}

theorem mirrors_of_foldlM_add {m : SortedMap Bytes Bytes} {before rows : List Row}
    (hread : s.read ix.map = .ok m) (hm : ix.Mirrors m before) (hids : IdsIncrease (before ++ rows))
    (h : rows.foldlM ix.add s = .ok s') :
    s.Rewrites s' [ix.map] ∧ ∃ m', s'.read ix.map = .ok m' ∧ ix.Mirrors m' (before ++ rows) := by
  induction rows generalizing s m before with
  | nil =>
    cases h
    rw [List.append_nil]
    exact ⟨.refl _ _, m, hread, hm⟩
  | cons row rows ih =>
    have hopen := Store.isClosed_of_read hread
    rw [List.foldlM_cons] at h
    obtain ⟨s₁, hadd, h⟩ := bind_eq_ok_iff.1 h
    rw [add_eq] at hadd
    obtain ⟨m₁, hm₁, rfl⟩ := map_eq_ok_iff.1 hadd
    have hbefore : IdsIncrease before := (List.pairwise_append.1 hids).1
    rw [List.append_cons] at hids ⊢
    obtain ⟨hr, hmirrors⟩ :=
      ih (Store.read_setEntries_self hopen m₁) (hm.of_entriesWith hbefore hread hm₁) hids h
    exact ⟨(Store.rewrites_setEntries hopen m₁).trans hr, hmirrors⟩

/-- An index takes rows that it can make keys of and that do not forbid each other. -/
theorem exists_foldlM_add {m : SortedMap Bytes Bytes} {before rows : List Row}
    (hread : s.read ix.map = .ok m) (hm : ix.Mirrors m before)
    (hids : IdsIncrease (before ++ rows)) (hrows : ∀ r ∈ rows, ix.layout.Encodable r)
    (hunique : ix.descriptor.unique = true → ∀ a ∈ before ++ rows, ∀ b ∈ before ++ rows,
      a.id ≠ b.id → ¬ix.Forbids a b) :
    ∃ s', rows.foldlM ix.add s = .ok s' := by
  induction rows generalizing s m before with
  | nil => exact ⟨s, rfl⟩
  | cons row rows ih =>
    obtain ⟨hrow, hrows⟩ := List.forall_mem_cons.1 hrows
    have hopen := Store.isClosed_of_read hread
    have hbefore : IdsIncrease before := (List.pairwise_append.1 hids).1
    rcases hm.entriesWith_cases hbefore hread row with ⟨e, hrefuses, -⟩ | ⟨key, hkey, hfree, hok⟩
    · -- neither of the two reasons holds
      cases hrefuses with
      | noKey hnone =>
        obtain ⟨key, hkey⟩ := KeyLayout.exists_encodeAs_iff.2 hrow
        cases hnone.symm.trans hkey
      | @duplicate r _ hu hr hforbids _ =>
        refine absurd hforbids (hunique hu r (by simp [hr]) row (by simp) fun heq => ?_)
        have hlt := (List.pairwise_append.1 hids).2.2 r hr row List.mem_cons_self
        rw [heq] at hlt
        exact not_compare_lt_self _ hlt
    · rw [List.append_cons] at hids hunique
      obtain ⟨s', hall⟩ :=
        ih (Store.read_setEntries_self hopen (m.insert key [])) (hm.insert hkey hfree) hids
          hrows hunique
      refine ⟨s', ?_⟩
      rw [List.foldlM_cons, add_eq, hok]
      exact hall

end Index

namespace Table

variable {t : Table} {name : String} {columns : List (String × Direction)} {unique : Bool}
  {d : Descriptor}

/-- The columns are those of the given names, each in the given direction. -/
def Names (t : Table) (named : List (String × Direction)) (cols : List IndexColumn) : Prop :=
  List.Forall₂ (fun n c => t.column n.1 = .ok c.column ∧ c.direction = n.2) named cols

theorem Names.exists_column {cols : List IndexColumn} (h : t.Names columns cols) :
    ∀ c ∈ cols, ∃ name, t.column name = .ok c.column := by
  induction h with
  | nil => nofun
  | cons hfirst _ ih => exact List.forall_mem_cons.2 ⟨⟨_, hfirst.1⟩, ih⟩

theorem indexColumn_eq_ok_iff {direction : Direction} {c : IndexColumn} :
    t.indexColumn name direction = .ok c ↔ t.column name = .ok c.column ∧
      c.direction = direction := by
  rw [indexColumn, map_eq_ok_iff]
  constructor
  · rintro ⟨column, hcolumn, rfl⟩
    exact ⟨hcolumn, rfl⟩
  · rintro ⟨hcolumn, rfl⟩
    exact ⟨c.column, hcolumn, rfl⟩

theorem newDescriptor_eq_ok_iff : t.newDescriptor name columns unique = .ok d ↔
    t.hasIndex name = false ∧ ∃ cols, t.Names columns cols ∧
      d = ⟨t.nextIndexId, name, t.name, unique, cols⟩ := by
  rw [newDescriptor]
  rcases t.hasIndex name with _ | _
  · simp only [Bool.false_eq_true, if_false, true_and, bind_eq_ok_iff, mapM_eq_ok_iff, Names,
      ← indexColumn_eq_ok_iff, pure_eq_ok, Except.ok.injEq]
    exact exists_congr fun cols => and_congr_right fun _ => eq_comm
  · simp

theorem newDescriptor_eq_ok (h : t.newDescriptor name columns unique = .ok d) :
    t.hasIndex name = false ∧ d.id = t.nextIndexId ∧ d.name = name := by
  obtain ⟨hnew, cols, -, rfl⟩ := newDescriptor_eq_ok_iff.1 h
  exact ⟨hnew, rfl, rfl⟩

/-- An index without entries is filled. -/
theorem fillIfEmpty_eq_fill {s : Store} {ix : Index} (hempty : s.read ix.map = .ok .empty) :
    t.fillIfEmpty s ix = t.fill s ix := by
  rw [fillIfEmpty, Index.needsRebuild, Index.size, Index.entries, hempty]
  rfl

theorem fill_eq {s : Store} {ix : Index} {m : SortedMap Bytes Bytes} {rows : List Row}
    (hread : s.read t.primary = .ok m) (hm : Stores m rows) :
    t.fill s ix = rows.foldlM ix.add s := by
  rw [fill, rows_of_stores hread hm, ok_bind]

theorem exists_read_of_fill {s s' : Store} {ix : Index} (h : t.fill s ix = .ok s') :
    ∃ m, s.read t.primary = .ok m := by
  obtain ⟨rows, hrows, -⟩ := bind_eq_ok_iff.1 h
  exact exists_read_of_rows hrows

theorem split_of_find? {ixs : List Index} {ix : Index} (h : ixs.find? (·.name == name) = some ix) :
    ∃ before after, ixs = before ++ ix :: after ∧ ix.name = name ∧
      ixs.eraseP (·.name == name) = before ++ after ∧
      ∀ ix', Session.replaceIndex name ix' ixs = before ++ ix' :: after := by
  induction ixs with
  | nil => cases h
  | cons a rest ih =>
    rcases ha : a.name == name with _ | _
    · rw [List.find?_cons_of_neg (by simp [ha])] at h
      obtain ⟨before, after, hsplit, hname, herase, hreplace⟩ := ih h
      refine ⟨a :: before, after, by rw [hsplit]; rfl, hname, ?_, ?_⟩
      · rw [List.eraseP_cons_of_neg (by simp [ha]), herase]
        rfl
      · intro ix'
        rw [Session.replaceIndex, ha, hreplace]
        rfl
    · rw [List.find?_cons_of_pos (by simp [ha])] at h
      obtain rfl := Option.some.inj h
      refine ⟨[], rest, rfl, by simpa using ha, List.eraseP_cons_of_pos (by simp [ha]), ?_⟩
      intro ix'
      rw [Session.replaceIndex, ha]
      rfl

/-- The index of a name stands between others, and is replaced or left out there. -/
theorem index_eq_ok {ix : Index} (h : t.index name = .ok ix) :
    ∃ before after, t.indexes = before ++ ix :: after ∧ ix.name = name ∧
      t.indexes.eraseP (·.name == name) = before ++ after ∧
      ∀ ix', Session.replaceIndex name ix' t.indexes = before ++ ix' :: after := by
  rw [index] at h
  split at h
  · rename_i hfind
    obtain rfl := Except.ok.inj h
    exact split_of_find? hfind
  · cases h

theorem mem_of_index {ix : Index} (h : t.index name = .ok ix) :
    ix ∈ t.indexes ∧ ix.name = name := by
  obtain ⟨before, after, hsplit, hname, -, -⟩ := index_eq_ok h
  exact ⟨by simp [hsplit], hname⟩

/-- Where no two indexes share a name, each is found by its own. -/
theorem index_of_mem (hnames : (t.indexes.map Index.name).Nodup) {ix : Index}
    (hix : ix ∈ t.indexes) :
    t.index ix.name = .ok ix := by
  rw [index]
  split
  · rename_i ix' hfind
    have hname : ix'.name = ix.name := by simpa using List.find?_some hfind
    rw [List.inj_on_of_nodup_map hnames (List.mem_of_find?_eq_some hfind) hix hname]
  · rename_i hfind
    have hne := List.find?_eq_none.1 hfind ix hix
    simp at hne

theorem index_eq_error_iff {e : Error} :
    t.index name = .error e ↔ t.hasIndex name = false ∧ e = .indexNotFound name := by
  rw [index, hasIndex_eq_false_iff]
  split
  · rename_i ix hfind
    have hname : ix.name = name := by simpa using List.find?_some hfind
    simp only [reduceCtorEq, false_iff]
    exact fun h => h.1 ix (List.mem_of_find?_eq_some hfind) hname
  · rename_i hfind
    have hne : ∀ ix ∈ t.indexes, ix.name ≠ name := by
      intro ix hix
      simpa using List.find?_eq_none.1 hfind ix hix
    rw [Except.error.injEq, eq_comm]
    exact ⟨fun h => ⟨hne, h⟩, And.right⟩

/-- Other names lead where they led before. -/
theorem index_withIndexes {ix ix' : Index} {before after : List Index}
    (hsplit : t.indexes = before ++ ix :: after) (hold : ix.name ≠ name) (hnew : ix'.name ≠ name) :
    (t.withIndexes (before ++ ix' :: after)).index name = t.index name := by
  simp [index, withIndexes, hsplit, List.find?_append, hold, hnew]

theorem hasIndex_withIndexes {ix ix' : Index} {before after : List Index}
    (hnames : (t.indexes.map Index.name).Nodup) (hsplit : t.indexes = before ++ ix :: after)
    (hnew : ix'.name ≠ ix.name) :
    (t.withIndexes (before ++ ix' :: after)).hasIndex ix.name = false := by
  have hnot : ix.name ∉ (before ++ after).map Index.name := by
    rw [hsplit] at hnames
    exact (List.nodup_cons.1 ((List.perm_middle.map Index.name).nodup hnames)).1
  rw [hasIndex_eq_false_iff, withIndexes, List.forall_mem_append, List.forall_mem_cons]
  have hrest : ∀ b ∈ before ++ after, b.name ≠ ix.name :=
    fun b hb heq => hnot (heq ▸ List.mem_map_of_mem hb)
  rw [List.forall_mem_append] at hrest
  exact ⟨hrest.1, hnew, hrest.2⟩

end Table

namespace Session

variable {s : Session} {rows : List Row}

/-- Stores with the same names and the same open maps serve the table alike. -/
theorem Sound.of_kept (h : s.Sound rows) {store : Store}
    (hdirectory : store.directory = s.store.directory)
    (hkept : ∀ m, s.store.isClosed m = false → store.state m = s.store.state m) :
    Sound { s with store } rows where
  wired := h.wired.of_kept hdirectory hkept
  stored := by
    obtain ⟨m, hread, hm⟩ := h.stored
    exact ⟨m, Store.read_of_kept hkept hread, hm⟩
  mirrored := by
    intro ix hix
    obtain ⟨m, hread, hm⟩ := h.mirrored ix hix
    exact ⟨m, Store.read_of_kept hkept hread, hm⟩
  id_le := h.id_le
  configured := h.configured

/-- An index that mirrors the rows joins the others. -/
theorem Sound.withIndex (h : s.Sound rows) {store : Store} {ix : Index}
    {m : SortedMap Bytes Bytes} (hwired : (s.table.withIndex ix).Wired store)
    (hkept : ∀ k entries, s.store.read k = .ok entries → store.read k = .ok entries)
    (hread : store.read ix.map = .ok m) (hm : ix.Mirrors m rows)
    (hconfig : ix.config = s.table.config) :
    Sound ⟨store, s.table.withIndex ix⟩ rows where
  wired := hwired
  stored := by
    obtain ⟨m', hread', hm'⟩ := h.stored
    exact ⟨m', hkept _ _ hread', hm'⟩
  mirrored := by
    intro ix' hix'
    rcases List.mem_append.1 hix' with hix' | hix'
    · obtain ⟨m', hread', hm'⟩ := h.mirrored ix' hix'
      exact ⟨m', hkept _ _ hread', hm'⟩
    · obtain rfl := List.mem_singleton.1 hix'
      exact ⟨m, hread, hm⟩
  id_le := h.id_le
  configured := by
    intro ix' hix'
    rcases List.mem_append.1 hix' with hix' | hix'
    · exact h.configured ix' hix'
    · obtain rfl := List.mem_singleton.1 hix'
      exact hconfig

/-- The index is new, and so is its map. -/
structure Creates (s : Session) (name : String) (ix : Index) : Prop where
  id_eq : ix.descriptor.id = s.table.nextIndexId
  name_eq : ix.name = name
  hasIndex_eq : s.table.hasIndex name = false
  map_eq : ix.map = s.store.made
  config_eq : ix.config = s.table.config
  free : s.store.directory.get? ix.descriptor.mapName = none

theorem Creates.read_empty {name : String} {ix : Index} (h : s.Creates name ix) :
    (s.store.openMap ix.descriptor.mapName).2.read ix.map = .ok .empty := by
  rw [h.map_eq]
  exact Store.read_openMap_made h.free

/-- The rows go into the new index if it can make keys of them and they do not forbid each other. -/
theorem Creates.exists_fill {name : String} {ix : Index} {m : SortedMap Bytes Bytes}
    (h : s.Creates name ix) (hread : s.store.read s.table.primary = .ok m) (hm : Stores m rows)
    (hids : IdsIncrease rows) (hrows : ∀ r ∈ rows, ix.layout.Encodable r)
    (hunique : ix.descriptor.unique = true → ∀ a ∈ rows, ∀ b ∈ rows, a.id ≠ b.id →
      ¬ix.Forbids a b) :
    ∃ store, rows.foldlM ix.add (s.store.openMap ix.descriptor.mapName).2 = .ok store ∧
      s.table.fill (s.store.openMap ix.descriptor.mapName).2 ix = .ok store := by
  obtain ⟨store, hadd⟩ := Index.exists_foldlM_add h.read_empty (.empty ix) hids hrows hunique
  refine ⟨store, hadd, ?_⟩
  rw [Table.fill_eq (Store.read_of_kept (Store.state_openMap_of_isOpen h.free) hread) hm, hadd]

theorem createIndex_of_fill {name : String} {columns : List (String × Direction)} {unique : Bool}
    {d : Descriptor} {ix : Index} {store store' : Store}
    (hd : s.table.newDescriptor name columns unique = .ok d)
    (hcreate : Index.create s.store d s.table.columns.length s.table.config = .ok (ix, store))
    (hfill : s.table.fillIfEmpty store ix = .ok store')
    (hleft : s.table.nextIndexId.next? ≠ none) :
    s.createIndex name columns unique = (.ok s.table.nextIndexId,
      ⟨store', s.table.withIndex ix⟩) := by
  simp only [createIndex, hd, ok_bind, hcreate, hfill, IndexId.next?_eq_some hleft]
  rfl

/-- How the creation of an index ends.  It leaves nothing behind; or the map of the index is opened,
    and removed again, since the rows do not go in; or the index joins the others. -/
theorem createIndex_endings (s : Session) (name : String) (columns : List (String × Direction))
    (unique : Bool) :
    (∃ e, s.createIndex name columns unique = (.error e, s)) ∨
      ∃ d ix opened, s.table.newDescriptor name columns unique = .ok d ∧
        Index.create s.store d s.table.columns.length s.table.config = .ok (ix, opened) ∧
        ((∃ e store, ix.drop opened = .ok store ∧
            s.createIndex name columns unique = (.error e, { s with store })) ∨
          ∃ store, s.table.fillIfEmpty opened ix = .ok store ∧ s.table.nextIndexId.next? ≠ none ∧
            s.createIndex name columns unique =
              (.ok s.table.nextIndexId, ⟨store, s.table.withIndex ix⟩)) := by
  unfold createIndex
  dsimp only
  split
  · exact .inl ⟨_, rfl⟩
  rename_i ix opened hmade
  obtain ⟨d, hd, hcreate⟩ := bind_eq_ok_iff.1 hmade
  split
  · rename_i e _
    obtain ⟨store, hdrop, -⟩ := ix.drop_cases opened
    refine .inr ⟨d, ix, opened, hd, hcreate, .inl ⟨e, store, hdrop, ?_⟩⟩
    rw [hdrop]
  · rename_i store hfill
    split
    · exact .inl ⟨_, rfl⟩
    · rename_i next hnext
      obtain ⟨hleft, rfl⟩ := IndexId.next?_eq_some_iff.1 hnext
      exact .inr ⟨d, ix, opened, hd, hcreate, .inr ⟨store, hfill, hleft, rfl⟩⟩

/-- What creating an index can do: nothing, or make a map for it, which is filled or removed
    again. -/
theorem createIndex_cases {name : String} (columns : List (String × Direction)) (unique : Bool)
    (hfree : s.table.hasIndex name = false →
      s.store.directory.get? (Descriptor.mapNameOf name s.table.nextIndexId) = none) :
    (∃ e, s.createIndex name columns unique = (.error e, s)) ∨ ∃ ix, s.Creates name ix ∧
      ((∃ e store, (s.store.openMap ix.descriptor.mapName).2.removeMap s.store.made = .ok store ∧
          s.createIndex name columns unique = (.error e, { s with store })) ∨
        ∃ store, s.table.fill (s.store.openMap ix.descriptor.mapName).2 ix = .ok store ∧
          s.table.nextIndexId.next? ≠ none ∧
          s.createIndex name columns unique = (.ok s.table.nextIndexId,
            ⟨store, s.table.withIndex ix⟩)) := by
  rcases s.createIndex_endings name columns unique with
    hnone | ⟨d, ix, opened, hd, hcreate, hending⟩
  · exact .inl hnone
  obtain ⟨hnew, hid, hname⟩ := Table.newDescriptor_eq_ok hd
  have hfree := hfree hnew
  rw [← hname, ← hid] at hfree
  obtain ⟨rfl, hmap, -, hconfig, rfl⟩ := Index.create_eq_ok hfree hcreate
  have hcreates : s.Creates name ix := ⟨hid, hname, hnew, hmap, hconfig, hfree⟩
  refine .inr ⟨ix, hcreates, ?_⟩
  rcases hending with ⟨e, store, hdrop, hundone⟩ | ⟨store, hfill, hleft, hdone⟩
  · obtain ⟨store', hremove, hdrop'⟩ :=
      Index.exists_drop (Store.isClosed_of_read hcreates.read_empty)
    cases hdrop.symm.trans hdrop'
    rw [hmap] at hremove
    exact .inl ⟨e, store, hremove, hundone⟩
  · rw [Table.fillIfEmpty_eq_fill hcreates.read_empty] at hfill
    exact .inr ⟨store, hfill, hleft, hdone⟩

/-- The map of an index with a new name gets a new name. -/
theorem Sound.free_mapName (h : s.Sound rows) {name : String} (hname : name ≠ s.table.name)
    (hnew : s.table.hasIndex name = false) :
    s.store.directory.get? (Descriptor.mapNameOf name s.table.nextIndexId) = none :=
  h.wired.get?_eq_none (Table.mapNameOf_free_of_ne hnew hname _)

/-- **A new index mirrors the rows, or nothing is left of it.** -/
theorem Sound.createIndex (h : s.Sound rows) {name : String} (hname : name ≠ s.table.name)
    (columns : List (String × Direction)) (unique : Bool) :
    (s.createIndex name columns unique).2.Sound rows := by
  rcases createIndex_cases columns unique (h.free_mapName hname) with
    ⟨e, hnone⟩ |
      ⟨ix, hcreates, ⟨e, store, hremove, hundone⟩ | ⟨store, hfill, hleft, hdone⟩⟩
  · rw [hnone]
    exact h
  · rw [hundone]
    obtain ⟨hdirectory, hkept⟩ := Store.removeMap_openMap hcreates.free hremove
    exact h.of_kept hdirectory hkept
  · rw [hdone]
    obtain ⟨m, hread, hm⟩ := h.stored
    have hread' := Store.read_of_kept (Store.state_openMap_of_isOpen hcreates.free) hread
    rw [Table.fill_eq hread' hm] at hfill
    obtain ⟨hr, m', hread₁, hm'⟩ :=
      Index.mirrors_of_foldlM_add hcreates.read_empty (.empty ix) h.idsIncrease hfill
    have hmapName : ix.descriptor.mapName = Descriptor.mapNameOf name s.table.nextIndexId := by
      rw [← hcreates.name_eq, ← hcreates.id_eq]
      rfl
    have hfree := Table.mapNameOf_free_of_ne hcreates.hasIndex_eq hname s.table.nextIndexId
    rw [← hmapName] at hfree
    have hwired := h.wired.create hcreates.id_eq hleft hfree
      (hcreates.name_eq ▸ hcreates.hasIndex_eq) hcreates.map_eq
    refine h.withIndex (hwired.of_rewrites hr) ?_ hread₁ hm' hcreates.config_eq
    intro k entries hk
    have hne : k ∉ [ix.map] := by
      rw [List.mem_singleton, hcreates.map_eq]
      exact Store.ne_made (Store.isClosed_of_read hk)
    rw [hr.read_eq k hne]
    exact Store.read_of_kept (Store.state_openMap_of_isOpen hcreates.free) hk

theorem dropIndex_outcome (s : Session) (name : String) :
    s.dropIndex name = (.error (.indexNotFound name), s) ∨
      ∃ ix before after store, s.table.index name = .ok ix ∧
        s.table.indexes = before ++ ix :: after ∧
        (s.store.isClosed ix.map = true ∧ store = s.store ∨ s.store.removeMap ix.map = .ok store) ∧
        s.dropIndex name = (.ok (), ⟨store, s.table.withIndexes (before ++ after)⟩) := by
  rcases hix : s.table.index name with e | ix
  · obtain ⟨-, rfl⟩ := Table.index_eq_error_iff.1 hix
    left
    rw [dropIndex, hix]
  obtain ⟨before, after, hsplit, -, herase, -⟩ := Table.index_eq_ok hix
  have hdone (store : Store) (hdrop : ix.drop s.store = .ok store) :
      s.dropIndex name = (.ok (), ⟨store, s.table.withIndexes (before ++ after)⟩) := by
    rw [dropIndex, hix, ← herase]
    simp only [hdrop]
    rfl
  obtain ⟨store, hdrop, hstore⟩ := ix.drop_cases s.store
  exact .inr ⟨ix, before, after, store, rfl, hsplit, hstore, hdone store hdrop⟩

theorem Sound.dropIndex (h : s.Sound rows) (name : String) : (s.dropIndex name).2.Sound rows := by
  rcases dropIndex_outcome s name with
    hnone | ⟨ix, before, after, store, hix, hsplit, ⟨hclosed, -⟩ | hremove, hdone⟩
  · rw [hnone]
    exact h
  · -- the maps of a table that is alone on its store are open
    have hopen : s.store.isClosed ix.map = false :=
      h.wired.isOpen _ (Table.mem_maps_of_mem (Table.mem_of_index hix).1)
    cases hopen.symm.trans hclosed
  rw [hdone]
  have hsub := Table.sublist_without hsplit
  have hother (k : MapId) (hk : k ≠ ix.map) : store.read k = s.store.read k := by
    apply Store.read_congr
    rw [Store.state_removeMap hremove, if_neg hk]
  obtain ⟨m, hread, hm⟩ := h.stored
  refine ⟨h.wired.drop hsplit hremove, ⟨m, ?_, hm⟩, ?_, h.id_le, ?_⟩
  · exact (hother _ ((h.wired.mem_maps_without hsplit).1 Table.mem_maps_primary).2).trans
      hread
  · intro ix' hix'
    have hne := ((h.wired.mem_maps_without hsplit).1 (Table.mem_maps_of_mem hix')).2
    obtain ⟨m', hread', hm'⟩ := h.mirrored ix' (hsub.mem hix')
    exact ⟨m', (hother _ hne).trans hread', hm'⟩
  · intro ix' hix'
    exact h.configured ix' (hsub.mem hix')

/-- Why an index is not renamed: another one has the new name, there is none of the old one, its map
    is removed, or another map has the name that its map would get. -/
inductive RefusesRename (s : Session) (name newName : String) : Error → Prop
  | taken (htaken : s.table.hasIndex newName = true) : RefusesRename s name newName
      (.indexExists newName)
  | unknown (hnew : s.table.hasIndex newName = false) (hunknown : s.table.hasIndex name = false) :
      RefusesRename s name newName (.indexNotFound name)
  | closed {ix : Index} (hnew : s.table.hasIndex newName = false)
      (hix : s.table.index name = .ok ix)
      (hclosed : s.store.isClosed ix.map = true) :
      RefusesRename s name newName (.store (.closed (s.store.nameOf ix.map)))
  | mapTaken {ix : Index} (hnew : s.table.hasIndex newName = false)
      (hix : s.table.index name = .ok ix)
      (hopen : s.store.isClosed ix.map = false)
      (htaken : s.store.hasMap (Descriptor.mapNameOf newName ix.descriptor.id) = true) :
      RefusesRename s name newName
        (.store (.mapExists (Descriptor.mapNameOf newName ix.descriptor.id)))

theorem renameIndex_of_rename {name newName : String} {ix : Index} {store : Store}
    (hnew : s.table.hasIndex newName = false) (hix : s.table.index name = .ok ix)
    (hrename : s.store.rename ix.map (Descriptor.mapNameOf newName ix.descriptor.id) = .ok store) :
    s.renameIndex name newName =
      (.ok (),
        ⟨store,
          s.table.withIndexes (replaceIndex name (ix.withName newName) s.table.indexes)⟩) := by
  have hdone : ix.renameInPlace s.store newName = (.ok (), ix.withName newName, store) := by
    rw [Index.renameInPlace]
    simp only [show s.store.rename ix.map (ix.withName newName).descriptor.mapName =
      .ok store from hrename]
  simp only [renameIndex, hnew, hix, hdone]
  rfl

/-- When the map keeps its name, so does the index, which is put back where it was. -/
theorem renameIndex_of_refused {name newName : String} {ix : Index} {e : StoreError}
    (hnew : s.table.hasIndex newName = false) (hix : s.table.index name = .ok ix)
    (hrename : s.store.rename ix.map (Descriptor.mapNameOf newName ix.descriptor.id) = .error e) :
    s.renameIndex name newName = (.error (.store e), s) := by
  have hrefused : ix.renameInPlace s.store newName = (.error (.store e), ix, s.store) := by
    rw [Index.renameInPlace]
    simp only [show s.store.rename ix.map (ix.withName newName).descriptor.mapName =
      .error e from hrename]
    rfl
  obtain ⟨before, after, hsplit, -, -, hreplace⟩ := Table.index_eq_ok hix
  have hsame : replaceIndex name ix s.table.indexes = s.table.indexes := by rw [hreplace, hsplit]
  simp only [renameIndex, hnew, hix, hrefused, hsame]
  rfl

/-- An index stays as it is for one of the reasons, or its map gets the new name first. -/
theorem renameIndex_outcome (s : Session) (name newName : String) :
    (∃ e, s.RefusesRename name newName e ∧ s.renameIndex name newName = (.error e, s)) ∨
      ∃ ix before after store, s.table.hasIndex newName = false ∧ s.table.index name = .ok ix ∧
        s.table.indexes = before ++ ix :: after ∧
        s.store.rename ix.map (Descriptor.mapNameOf newName ix.descriptor.id) = .ok store ∧
        s.renameIndex name newName =
          (.ok (), ⟨store, s.table.withIndexes (before ++ ix.withName newName :: after)⟩) := by
  rcases hnew : s.table.hasIndex newName with _ | _
  case true => exact .inl ⟨_, .taken hnew, by rw [renameIndex, if_pos hnew]⟩
  rcases hix : s.table.index name with e | ix
  · obtain ⟨hunknown, rfl⟩ := Table.index_eq_error_iff.1 hix
    exact .inl ⟨_, .unknown hnew hunknown, by simp only [renameIndex, hnew, hix]; rfl⟩
  rcases hrename : s.store.rename ix.map (Descriptor.mapNameOf newName ix.descriptor.id) with
    e | store
  · have hrefused := renameIndex_of_refused hnew hix hrename
    left
    rcases Store.rename_eq_error hrename with ⟨hclosed, rfl⟩ | ⟨hopen, htaken, rfl⟩
    · exact ⟨_, .closed hnew hix hclosed, hrefused⟩
    · exact ⟨_, .mapTaken hnew hix hopen htaken, hrefused⟩
  · obtain ⟨before, after, hsplit, -, -, hreplace⟩ := Table.index_eq_ok hix
    have hdone := renameIndex_of_rename hnew hix hrename
    rw [hreplace] at hdone
    exact .inr ⟨ix, before, after, store, rfl, rfl, hsplit, hrename, hdone⟩

theorem Sound.renameIndex (h : s.Sound rows) (name newName : String) :
    (s.renameIndex name newName).2.Sound rows := by
  rcases renameIndex_outcome s name newName with
    ⟨e, -, hrefused⟩ | ⟨ix, before, after, store, hnew, -, hsplit, hrename, hdone⟩
  · rw [hrefused]
    exact h
  rw [hdone]
  have hmem : ix ∈ s.table.indexes := by simp [hsplit]
  have hlisted := Table.mem_maps_of_mem hmem
  have hnamed := h.wired.named _ hlisted
  have hget := h.wired.get?_eq_some hlisted
  rw [← hnamed] at hget
  have hne : s.store.nameOf ix.map ≠ Descriptor.mapNameOf newName ix.descriptor.id := by
    rw [hnamed]
    exact Table.mapName_ne_of_hasIndex hmem hnew _
  obtain ⟨hfree, hdirectory, hstate⟩ := Store.rename_eq_ok_of_ne hrename hget hne
  rw [hnamed] at hdirectory
  have hwired := h.wired.rename (ix.withName newName) hsplit rfl rfl hnew hfree hdirectory hstate
  obtain ⟨m, hm, hstores⟩ := h.stored
  have hold : ∀ ix' ∈ s.table.indexes,
      (∃ m, store.read ix'.map = .ok m ∧ ix'.Mirrors m rows) ∧ ix'.config = s.table.config := by
    intro ix' hix'
    obtain ⟨m', hread', hm'⟩ := h.mirrored ix' hix'
    exact ⟨⟨m', (Store.read_renamed_iff hstate).2 hread', hm'⟩, h.configured ix' hix'⟩
  have hall : ∀ ix' ∈ before ++ ix.withName newName :: after,
      (∃ m, store.read ix'.map = .ok m ∧ ix'.Mirrors m rows) ∧ ix'.config = s.table.config := by
    rw [hsplit, List.forall_mem_append, List.forall_mem_cons] at hold
    rw [List.forall_mem_append, List.forall_mem_cons]
    obtain ⟨hbefore, ⟨⟨m', hread', hm'⟩, hconfig⟩, hafter⟩ := hold
    exact ⟨hbefore, ⟨⟨m', hread', hm'.1, hm'.2, hm'.3⟩, hconfig⟩, hafter⟩
  exact ⟨hwired, ⟨m, (Store.read_renamed_iff hstate).2 hm, hstores⟩,
    fun ix' hix' => (hall ix' hix').1, h.id_le, fun ix' hix' => (hall ix' hix').2⟩

end Session
end OrderedIndex
