/-
  OrderedIndex/Proofs/Table/Hosted.lean
  =====================================
  **A table in order among maps that are not its own.**

  Earlier sessions leave maps behind: those of indexes that are declared under other ids
  afterwards.  A table is hosted by its store (`Session.Hosted`) when it would be in order
  if only the names of its own maps were listed, and these names lead to its maps in the
  store as it is.  All commands keep it so (`Hosted.run`), if the map of a new index is
  new: the rows do not depend on names, and nothing reaches the maps left behind.

  Every index can be declared once more, since what it was declared with still stands
  (`Table.Declares`).
-/
import OrderedIndex.Proofs.Table.History
import OrderedIndex.Proofs.Table.Listing

namespace OrderedIndex

/-! ### Declarations -/

/-- The index under another id and on another map. -/
def Index.under (ix : Index) (id : IndexId) (map : MapId) : Index :=
  { ix with descriptor := { ix.descriptor with id }, map }

/-- The table would make the index in the same way again, apart from its id and its map. -/
structure Table.Declares (t : Table) (ix : Index) : Prop where
  columnCount : ix.columnCount = t.columns.length
  config : ix.config = t.config
  table : ix.descriptor.table = t.name
  columns : ∀ c ∈ ix.descriptor.columns, t.column c.column.name = .ok c.column
  allowed : t.config.checkColumnTypes = true → ∀ c ∈ ix.descriptor.columns,
    c.column.type.isLargeObject = false

namespace Table

variable {t t' : Table} {ix : Index} {name : String}

theorem Declares.congr (h : t.Declares ix) (hname : t'.name = t.name)
    (hcolumns : t'.columns = t.columns) (hconfig : t'.config = t.config) : t'.Declares ix where
  columnCount := by rw [hcolumns]; exact h.columnCount
  config := by rw [hconfig]; exact h.config
  table := by rw [hname]; exact h.table
  columns := by
    intro c hc
    rw [column, hcolumns]
    exact h.columns c hc
  allowed := by rw [hconfig]; exact h.allowed

theorem column_eq_ok {c : Column} (h : t.column name = .ok c) : c.name = name := by
  rw [column] at h
  split at h
  · rename_i hfind
    cases h
    simpa using List.find?_some hfind
  · cases h

/-- A new index is declared by the table. -/
theorem declares_of_create {s s' : Store} {columns : List (String × Direction)} {unique : Bool}
    {d : Descriptor} (hd : t.newDescriptor name columns unique = .ok d)
    (hcreate : Index.create s d t.columns.length t.config = .ok (ix, s')) : t.Declares ix := by
  obtain ⟨hallowed, rfl, -⟩ := Index.create_eq_ok_iff.1 hcreate
  obtain ⟨-, cols, hcols, rfl⟩ := newDescriptor_eq_ok_iff.1 hd
  refine ⟨rfl, rfl, rfl, ?_, hallowed⟩
  intro c hc
  obtain ⟨name, hcolumn⟩ := hcols.exists_column c hc
  rw [column_eq_ok hcolumn]
  exact hcolumn

/-- The declaration of an index names its columns again. -/
theorem Declares.names (h : t.Declares ix) :
    t.Names ix.declaration.columns ix.descriptor.columns := by
  rw [Names, Index.declaration, List.forall₂_map_left_iff, List.forall₂_same]
  exact fun c hc => ⟨h.columns c hc, rfl⟩

theorem Declares.newDescriptor_eq (h : t.Declares ix) (hnew : t.hasIndex ix.name = false) :
    t.newDescriptor ix.declaration.name ix.declaration.columns ix.declaration.unique =
      .ok { ix.descriptor with id := t.nextIndexId } := by
  refine newDescriptor_eq_ok_iff.2 ⟨hnew, ix.descriptor.columns, h.names, ?_⟩
  rw [← h.table]
  rfl

theorem Declares.create_eq (h : t.Declares ix) (s : Store) (id : IndexId) :
    Index.create s { ix.descriptor with id } t.columns.length t.config =
      .ok (ix.under id (s.openMap (Descriptor.mapNameOf ix.name id)).1,
        (s.openMap (Descriptor.mapNameOf ix.name id)).2) := by
  refine Index.create_eq_ok_iff.2 ⟨h.allowed, ?_, rfl⟩
  rw [← h.columnCount, ← h.config]
  rfl

end Table

namespace Session

variable {s : Session} {c : Command} {rows : List Row} {own : SortedMap String MapId}

/-- All indexes of the table are declared by it. -/
def Declared (s : Session) : Prop := ∀ ix ∈ s.table.indexes, s.table.Declares ix

theorem Declared.createIndex (h : s.Declared) (name : String)
    (columns : List (String × Direction)) (unique : Bool) :
    ∀ ix ∈ (s.createIndex name columns unique).2.table.indexes, s.table.Declares ix := by
  rcases s.createIndex_endings name columns unique with
    ⟨e, hnone⟩ | ⟨d, ix, opened, hd, hcreate, ⟨e, store, -, hundone⟩ | ⟨store, -, -, hdone⟩⟩
  · rw [hnone]
    exact h
  · rw [hundone]
    exact h
  · rw [hdone]
    intro ix' hix'
    rcases List.mem_append.1 hix' with hix' | hix'
    · exact h ix' hix'
    · rw [List.mem_singleton.1 hix']
      exact Table.declares_of_create hd hcreate

theorem Declared.renameIndex (h : s.Declared) (name newName : String) :
    ∀ ix ∈ (s.renameIndex name newName).2.table.indexes, s.table.Declares ix := by
  rcases renameIndex_outcome s name newName with
    ⟨e, -, hrefused⟩ | ⟨ix, before, after, store, -, -, hsplit, -, hdone⟩
  · rw [hrefused]
    exact h
  have hall : ∀ ix' ∈ before ++ ix :: after, s.table.Declares ix' := hsplit ▸ h
  rw [List.forall_mem_append, List.forall_mem_cons] at hall
  obtain ⟨hbefore, hold, hafter⟩ := hall
  rw [hdone, Table.withIndexes, List.forall_mem_append, List.forall_mem_cons]
  exact ⟨hbefore, ⟨hold.columnCount, hold.config, hold.table, hold.columns, hold.allowed⟩, hafter⟩

theorem Declared.run (h : s.Declared) (c : Command) : (s.run c).2.Declared := by
  obtain ⟨-, hname, hcolumns, -, hconfig⟩ := run_definition s c
  have hindexes : ∀ ix ∈ (s.run c).2.table.indexes, s.table.Declares ix := by
    cases c with
    | createIndex name columns unique => exact h.createIndex name columns unique
    | renameIndex name newName => exact h.renameIndex name newName
    | dropIndex name => exact fun ix hix => h ix ((s.effect_run _).of_drop.mem hix)
    | insert | delete | truncate =>
      rw [((s.effect_run _).of_rows rfl).1]
      exact h
  exact fun ix hix => (hindexes ix hix).congr hname hcolumns hconfig

/-! ### Among other maps -/

/-- The table would be in order if the store listed nothing but the names of its own maps, and these
    lead to the same maps in the store as it is. -/
structure Hosted (s : Session) (own : SortedMap String MapId) (rows : List Row) : Prop where
  listed : own.entries ⊆ s.store.directory.entries
  sound : (s.listing own).Sound rows
  declared : s.Declared

theorem hosted_fresh (id : TableId) (name : String) (columns : List Column) (config : IndexConfig) :
    (fresh id name columns config).Hosted (fresh id name columns config).store.directory [] where
  listed := List.Subset.refl _
  sound := sound_fresh id name columns config
  declared := by
    intro ix hix
    cases hix

theorem Hosted.wired (h : s.Hosted own rows) : s.table.Wired (s.store.listing own) := h.sound.wired

theorem Hosted.stored (h : s.Hosted own rows) :
    ∃ m, s.store.read s.table.primary = .ok m ∧ Stores m rows := h.sound.stored

theorem Hosted.mirrored (h : s.Hosted own rows) {ix : Index} (hix : ix ∈ s.table.indexes) :
    ∃ m, s.store.read ix.map = .ok m ∧ ix.Mirrors m rows := h.sound.mirrored ix hix

theorem Hosted.get?_own (h : s.Hosted own rows) {name : String} {m : MapId}
    (hm : (name, m) ∈ s.table.maps) :
    own.get? name = some m := SortedMap.get?_eq_some_iff.2 ((h.wired.directory _).2 hm)

theorem Hosted.get?_eq_some (h : s.Hosted own rows) {name : String} {m : MapId}
    (hm : (name, m) ∈ s.table.maps) :
    s.store.directory.get? name = some m :=
  SortedMap.get?_eq_some_iff.2 (h.listed (SortedMap.get?_eq_some_iff.1 (h.get?_own hm)))

theorem Hosted.free_own (h : s.Hosted own rows) {name : String}
    (hfree : s.store.directory.get? name = none) :
    ∀ e ∈ s.table.maps, e.1 ≠ name := by
  rintro ⟨name, m⟩ hm rfl
  rw [h.get?_eq_some hm] at hfree
  cases hfree

theorem Hosted.inStep (h : s.Hosted own rows) : s.InStep := h.sound.inStep

theorem Hosted.rows_eq (h : s.Hosted own rows) : s.table.rows s.store = .ok rows := by
  obtain ⟨m, hread, hm⟩ := h.stored
  exact Table.rows_of_stores hread hm

/-! ### Commands -/

/-- Commands about rows. -/
theorem Hosted.run_rows (h : s.Hosted own rows) (hc : c.isIndexing = false) :
    ∃ rows', (s.run c).2.Hosted own rows' := by
  have hspares : c.Spares (s.listing own).table.name := by
    cases c with
    | insert | delete | truncate => trivial
    | createIndex | dropIndex | renameIndex => cases hc
  obtain ⟨rows', hsound⟩ := h.sound.run hspares
  rw [run_listing s own hc] at hsound
  refine ⟨rows', ?_, hsound, h.declared.run c⟩
  rw [((s.effect_run c).of_rows hc).2]
  exact h.listed

/-- A new index that has been filled joins the others. -/
theorem Hosted.made (h : s.Hosted own rows) {name : String} {ix : Index} {store : Store}
    (hcreates : s.Creates name ix) (hleft : s.table.nextIndexId.next? ≠ none)
    (hfill : s.table.fill (s.store.openMap ix.descriptor.mapName).2 ix = .ok store)
    (hdeclared : Declared ⟨store, s.table.withIndex ix⟩) :
    Hosted ⟨store, s.table.withIndex ix⟩ (own.insert ix.descriptor.mapName ix.map) rows := by
  have hfree := h.free_own hcreates.free
  have hfree' : own.get? ix.descriptor.mapName = none := h.wired.get?_eq_none hfree
  obtain ⟨m, hread, hm⟩ := h.stored
  have hkept := Store.state_openMap_of_isOpen hcreates.free
  rw [Table.fill_eq (Store.read_of_kept hkept hread) hm] at hfill
  obtain ⟨hr, m', hread', hm'⟩ :=
    Index.mirrors_of_foldlM_add hcreates.read_empty (.empty ix) h.sound.idsIncrease hfill
  have hwired := h.wired.create hcreates.id_eq hleft hfree
    (hcreates.name_eq ▸ hcreates.hasIndex_eq) hcreates.map_eq
  rw [Store.openMap_listing hcreates.free hfree', ← hcreates.map_eq] at hwired
  refine ⟨?_, h.sound.withIndex ?_ ?_ hread' hm' hcreates.config_eq, hdeclared⟩
  · show _ ⊆ store.directory.entries
    rw [hr.directory_eq, Store.openMap_of_free hcreates.free, ← hcreates.map_eq]
    intro e he
    rcases SortedMap.mem_insert.1 he with rfl | ⟨he, hne⟩
    · exact SortedMap.mem_insert.2 (.inl rfl)
    · exact SortedMap.mem_insert.2 (.inr ⟨h.listed he, hne⟩)
  · exact hwired.of_agree rfl fun m hm => ⟨(hr.isClosed_eq m).trans hm, hr.nameOf_eq m⟩
  · intro k entries hk
    have hk : s.store.read k = .ok entries := hk
    have hne : k ∉ [ix.map] := by
      rw [List.mem_singleton, hcreates.map_eq]
      exact Store.ne_made (Store.isClosed_of_read hk)
    show store.read k = .ok entries
    rw [hr.read_eq k hne]
    exact Store.read_of_kept hkept hk

theorem Hosted.createIndex (h : s.Hosted own rows) {name : String}
    (columns : List (String × Direction)) (unique : Bool)
    (hfree : s.store.directory.get? (Descriptor.mapNameOf name s.table.nextIndexId) = none) :
    ∃ own', (s.createIndex name columns unique).2.Hosted own' rows := by
  have hdeclared := h.declared.run (.createIndex name columns unique)
  change (s.createIndex name columns unique).2.Declared at hdeclared
  rcases createIndex_cases columns unique (fun _ => hfree) with
    ⟨e, hnone⟩ |
      ⟨ix, hcreates, ⟨e, store, hremove, hundone⟩ | ⟨store, hfill, hleft, hdone⟩⟩
  · rw [hnone]
    exact ⟨own, h⟩
  · rw [hundone]
    obtain ⟨hdirectory, hkept⟩ := Store.removeMap_openMap hcreates.free hremove
    have hsound : Sound ⟨store.listing own, s.table⟩ rows := h.sound.of_kept rfl hkept
    refine ⟨own, ?_, hsound, h.declared⟩
    show _ ⊆ store.directory.entries
    rw [hdirectory]
    exact h.listed
  · rw [hdone] at hdeclared ⊢
    exact ⟨_, h.made hcreates hleft hfill hdeclared⟩

theorem Hosted.dropIndex (h : s.Hosted own rows) (name : String) :
    ∃ own', (s.dropIndex name).2.Hosted own' rows := by
  have hdeclared := h.declared.run (.dropIndex name)
  change (s.dropIndex name).2.Declared at hdeclared
  rcases hix : s.table.index name with e | ix
  · rw [Session.dropIndex, hix]
    exact ⟨own, h⟩
  have hmem := (Table.mem_of_index hix).1
  have hopen : s.store.isClosed ix.map = false := h.wired.isOpen _ (Table.mem_maps_of_mem hmem)
  have hsound := h.sound.dropIndex name
  rw [dropIndex_listing s own hix hopen] at hsound
  refine ⟨_, ?_, hsound, hdeclared⟩
  obtain ⟨store, hremove, hdrop⟩ := Index.exists_drop hopen
  have hstore : (s.dropIndex name).2.store = store := by
    rw [Session.dropIndex, hix]
    simp only [hdrop]
  rw [hstore, Store.directory_removeMap hremove]
  intro e he
  obtain ⟨he, hne⟩ := SortedMap.mem_erase.1 he
  exact SortedMap.mem_erase.2 ⟨h.listed he, hne⟩

/-- A name that another map has is refused, also if that map was left behind; the table is in order
    then as before. -/
theorem Hosted.renameIndex (h : s.Hosted own rows) (name newName : String) :
    ∃ own', (s.renameIndex name newName).2.Hosted own' rows := by
  have hdeclared := h.declared.run (.renameIndex name newName)
  change (s.renameIndex name newName).2.Declared at hdeclared
  rcases renameIndex_outcome s name newName with
    ⟨e, -, hrefused⟩ | ⟨ix, before, after, store, hnew, hix, hsplit, hrename, hdone⟩
  · rw [hrefused]
    exact ⟨own, h⟩
  have hmem : ix ∈ s.table.indexes := by simp [hsplit]
  have hlisted := Table.mem_maps_of_mem hmem
  have hnamed : s.store.nameOf ix.map = ix.descriptor.mapName := h.wired.named _ hlisted
  have hown : own.get? (s.store.nameOf ix.map) = some ix.map := by
    rw [hnamed]
    exact h.get?_own hlisted
  obtain ⟨own', hrename', hsub⟩ := Store.rename_listing hrename hown h.listed
  -- the renaming among all names and among those of the table give the same table
  have hsound := h.sound.renameIndex name newName
  rw [renameIndex_of_rename (s := s.listing own) hnew hix hrename'] at hsound
  rw [renameIndex_of_rename hnew hix hrename] at hdeclared ⊢
  exact ⟨own', hsub, hsound, hdeclared⟩

/-- **Every command keeps a table in order among maps that are not its own.** -/
theorem Hosted.run (h : s.Hosted own rows) (hc : s.Unshared c) :
    ∃ own' rows', (s.run c).2.Hosted own' rows' := by
  cases c with
  | insert | delete | truncate => exact ⟨own, h.run_rows rfl⟩
  | createIndex name columns unique =>
    obtain ⟨own', h'⟩ := h.createIndex columns unique (Store.hasMap_eq_false_iff.1 hc)
    exact ⟨own', rows, h'⟩
  | dropIndex name =>
    obtain ⟨own', h'⟩ := h.dropIndex name
    exact ⟨own', rows, h'⟩
  | renameIndex name newName =>
    obtain ⟨own', h'⟩ := h.renameIndex name newName
    exact ⟨own', rows, h'⟩

end Session
end OrderedIndex
