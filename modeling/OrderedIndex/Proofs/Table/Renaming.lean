/-
  OrderedIndex/Proofs/Table/Renaming.lean
  =======================================
  **Renaming an index.**

  The definition of an index has its name, and so have its map and the directory of the
  store.  Renaming changes all of them or none: it is refused for one of four reasons
  before anything has changed (`Session.RefusesRename`), or the three go over to the new
  name together (`Session.Renamed`).

  What an index shows depends on its columns and on what is in its map, and a new name
  changes neither.  Nor does it change the handle, so what is inserted and deleted later
  reaches the renamed map for as long as the index has its new name
  (`Session.Serves`).

  Nothing is asked of the rows.  What is needed is that the maps of the table are in their
  place, which they are next to any other code that does not rename them
  (`Session.Placed`).
-/
import OrderedIndex.Proofs.Table.Placement
import OrderedIndex.Proofs.Table.View

namespace OrderedIndex

/-! ### What renaming changes -/

namespace Session

variable {s s' : Session} {name newName : String} {ix : Index} {c : Command}

/-- What is found by one name is what was found by another before, row by row. -/
structure ShowsAs (s s' : Session) (name newName : String) : Prop where
  find : ∀ lower upper, (s'.find newName lower upper).map (fun c => (c, s'.drained c)) =
    (s.find name lower upper).map fun c => (c, s.drained c)
  findEdge : ∀ edge, (s'.findEdge newName edge).map (fun c => (c, s'.drained c)) =
    (s.findEdge name edge).map fun c => (c, s.drained c)

/-- The index and its map have another name, and nothing else has changed. -/
structure Renamed (s s' : Session) (name newName : String) (ix : Index) : Prop where
  was : s.table.index name = .ok ix
  unused : s.table.hasIndex newName = false
  isOpen : s.store.isClosed ix.map = false
  free : s.store.hasMap (ix.withName newName).descriptor.mapName = false
  /-- The index stays where it is among the others. -/
  table : ∃ before after, s.table.indexes = before ++ ix :: after ∧
    s'.table = s.table.withIndexes (before ++ ix.withName newName :: after)
  index : s'.table.index newName = .ok (ix.withName newName)
  hasIndex_old : s'.table.hasIndex name = false
  index_other : ∀ other, other ≠ name → other ≠ newName → s'.table.index other = s.table.index other
  shows : s.ShowsAs s' name newName
  shows_other : ∀ other, other ≠ name → other ≠ newName → s.ShowsAs s' other other
  rows : s'.table.rows s'.store = s.table.rows s.store
  getRow : ∀ id, s'.table.getRow s'.store id = s.table.getRow s.store id
  /-- Scans that are going on do not notice. -/
  advance : ∀ c : Cursor, c.advance s'.store = c.advance s.store
  length_eq : s'.store.maps.length = s.store.maps.length
  map : s'.store.state ix.map =
    { s.store.state ix.map with name := (ix.withName newName).descriptor.mapName }
  map_other : ∀ m, m ≠ ix.map → s'.store.state m = s.store.state m
  listed : s'.store.directory.get? (ix.withName newName).descriptor.mapName = some ix.map
  hasMap_old : s'.store.hasMap ix.descriptor.mapName = false
  listed_other : ∀ mapName, mapName ≠ ix.descriptor.mapName →
    mapName ≠ (ix.withName newName).descriptor.mapName →
    s'.store.directory.get? mapName = s.store.directory.get? mapName

/-- Two lists of indexes show the same by a name if they have the same index for it. -/
theorem showsAs_of_read {store : Store} {indexes : List Index}
    (hread : ∀ m, store.read m = s.store.read m)
    (hfind : ∀ lower upper, find ⟨store, s.table.withIndexes indexes⟩ newName lower upper =
      find ⟨store, s.table⟩ name lower upper)
    (hedge : ∀ edge, findEdge ⟨store, s.table.withIndexes indexes⟩ newName edge =
      findEdge ⟨store, s.table⟩ name edge) :
    s.ShowsAs ⟨store, s.table.withIndexes indexes⟩ name newName := by
  have halike : s.Alike ⟨store, s.table⟩ := alike_of_read fun m _ => hread m
  have hdrained : drained ⟨store, s.table.withIndexes indexes⟩ = drained ⟨store, s.table⟩ := rfl
  constructor
  · intro lower upper
    rw [hfind, hdrained]
    exact halike.find name lower upper
  · intro edge
    rw [hedge, hdrained]
    exact halike.findEdge name edge

/-- **The definition, the map and the directory get the new name together**, and nothing else
    changes. -/
theorem Placed.renamed (h : s.Placed) {before after : List Index} {store : Store}
    (hnew : s.table.hasIndex newName = false) (hix : s.table.index name = .ok ix)
    (hsplit : s.table.indexes = before ++ ix :: after)
    (hrename : s.store.rename ix.map (Descriptor.mapNameOf newName ix.descriptor.id) = .ok store) :
    s.Renamed ⟨store, s.table.withIndexes (before ++ ix.withName newName :: after)⟩ name
      newName ix := by
  obtain ⟨hmem, hname⟩ := Table.mem_of_index hix
  have hopen := Store.isClosed_of_rename hrename
  have hnamed : s.store.nameOf ix.map = ix.descriptor.mapName :=
    h.named _ (Table.mem_maps_of_mem hmem) hopen
  have hlisted := h.wellListed.get?_nameOf hopen
  have hne : ix.descriptor.mapName ≠ Descriptor.mapNameOf newName ix.descriptor.id :=
    Table.mapName_ne_of_hasIndex hmem hnew ix.descriptor.id
  obtain ⟨hfree, hdirectory, hstate⟩ := Store.rename_eq_ok_of_ne hrename hlisted (hnamed ▸ hne)
  have hdistinct := h.distinct.replace (ix.withName newName) hsplit rfl rfl hnew
  have hread := Store.read_renamed hrename
  have halike : s.Alike ⟨store, s.table⟩ := alike_of_read fun m _ => hread m
  have hnewMem : ix.withName newName ∈ before ++ ix.withName newName :: after := by simp
  have hindex : (s.table.withIndexes (before ++ ix.withName newName :: after)).index newName =
      .ok (ix.withName newName) := Table.index_of_mem hdistinct.names_nodup hnewMem
  have hother (other : String) (hold : other ≠ name) (hnew : other ≠ newName) :
      (s.table.withIndexes (before ++ ix.withName newName :: after)).index other =
          s.table.index other :=
    Table.index_withIndexes hsplit (fun heq => hold (heq.symm.trans hname)) hnew.symm
  have hlookup (mapName : String) : store.directory.get? mapName =
      if mapName = Descriptor.mapNameOf newName ix.descriptor.id then some ix.map
      else if mapName = ix.descriptor.mapName then none else s.store.directory.get? mapName := by
    rw [hdirectory, SortedMap.get?_insert, SortedMap.get?_erase, hnamed]
  refine ⟨hix, hnew, hopen, Store.hasMap_eq_false_iff.2 hfree, ⟨before, after, hsplit, rfl⟩,
    hindex, ?hasIndex_old, hother, ?shows, ?shows_other, halike.rows, halike.getRow, ?advance,
    (Store.rename_eq_ok hrename).1, ?map, ?map_other,
    ?listed, ?hasMap_old, ?listed_other⟩
  case hasIndex_old =>
    rw [← hname]
    apply Table.hasIndex_withIndexes h.distinct.names_nodup hsplit
    exact (Table.hasIndex_eq_false_iff.1 hnew ix hmem).symm
  case shows =>
    apply showsAs_of_read hread
    · intro lower upper
      simp only [find, hindex, hix, ok_bind]
      rfl
    · intro edge
      simp only [findEdge, hindex, hix, ok_bind]
      rfl
  case shows_other =>
    intro other hold hnew
    apply showsAs_of_read hread
    · intro lower upper
      simp only [find, hother other hold hnew]
    · intro edge
      simp only [findEdge, hother other hold hnew]
  case advance =>
    intro c
    apply Cursor.advance_congr
    exact fun m _ => hread m
  case map =>
    exact (hstate ix.map).trans (if_pos rfl)
  case map_other =>
    intro m hm
    exact (hstate m).trans (if_neg hm)
  case listed =>
    exact (hlookup _).trans (if_pos rfl)
  case hasMap_old =>
    rw [Store.hasMap_eq_false_iff, hlookup, if_neg hne, if_pos rfl]
  case listed_other =>
    intro mapName hold hnew
    exact (hlookup mapName).trans ((if_neg hnew).trans (if_neg hold))

/-! ### What comes later -/

/-- The index is found by the name, its map is listed as long as there is one, and rows that come
    and go reach it. -/
structure Serves (s : Session) (name : String) (ix : Index) : Prop where
  index : s.table.index name = .ok ix
  listed : s.store.isClosed ix.map = false →
    s.store.directory.get? ix.descriptor.mapName = some ix.map
  insert : ∀ values id s', s.insert values = (.ok id, s') →
    ∃ key entries, ix.layout.encode ⟨id, values⟩ = .ok key ∧
    s.store.read ix.map = .ok entries ∧ s'.store.read ix.map = .ok (entries.insert key [])
  delete : ∀ id row s', s.delete id = (.ok row, s') →
    ∃ key entries, ix.layout.encode row = .ok key ∧
    s.store.read ix.map = .ok entries ∧ key ∈ entries.keys ∧
      s'.store.read ix.map = .ok (entries.erase key)

theorem Placed.serves (h : s.Placed) (hix : ix ∈ s.table.indexes) : s.Serves ix.name ix := by
  obtain ⟨hprimary, hnodup⟩ := List.nodup_cons.1 h.distinct.handles_nodup
  have hne : ix.map ∉ [s.table.primary] := by
    rw [List.mem_singleton]
    intro heq
    exact hprimary (heq ▸ List.mem_map_of_mem hix)
  refine ⟨Table.index_of_mem h.distinct.names_nodup hix, ?listed, ?insert, ?delete⟩
  case listed =>
    intro hopen
    have hname : s.store.nameOf ix.map = ix.descriptor.mapName :=
      h.named _ (Table.mem_maps_of_mem hix) hopen
    rw [← hname]
    exact h.wellListed.get?_nameOf hopen
  case insert =>
    intro values id s' hs'
    rcases insert_outcome s values with
      ⟨e, store, hinsert, -⟩ | ⟨id, old, mid, store, hinsert, -, hall, -, hput⟩
    · cases hs'.symm.trans hinsert
    cases hs'.symm.trans hinsert
    obtain ⟨m, hnew, hread⟩ := (Index.reversible_addToAll ⟨id, values⟩).read_of_ok hnodup hall hix
    obtain ⟨key, entries, hkey, hbefore, rfl⟩ := Index.entriesWith_eq_ok hnew
    refine ⟨key, entries, hkey, hbefore, ?_⟩
    exact ((Store.rewrites_put hput).read_eq ix.map hne).trans hread
  case delete =>
    intro id row s' hs'
    rcases delete_outcome s id with
      ⟨e, store, hdelete, -⟩ | ⟨row, old, mid, store, hdelete, hall, -, hremove⟩
    · cases hs'.symm.trans hdelete
    cases hs'.symm.trans hdelete
    obtain ⟨m, hnew, hread⟩ := (Index.reversible_removeFromAll row).read_of_ok hnodup hall hix
    obtain ⟨key, entries, hkey, hbefore, hmem, rfl⟩ := Index.entriesWithout_eq_ok hnew
    refine ⟨key, entries, hkey, hbefore, hmem, ?_⟩
    exact ((Store.rewrites_remove hremove).read_eq ix.map hne).trans hread

end Session

/-- The command neither drops the index nor gives it another name. -/
def Command.Leaves (index : String) : Command → Prop
  | .dropIndex name | .renameIndex name _ => name ≠ index
  | .insert _ | .delete _ | .truncate | .createIndex .. => True

instance (index : String) : DecidablePred (Command.Leaves index) := fun c =>
  match c with
  | .dropIndex name | .renameIndex name _ => inferInstanceAs (Decidable (name ≠ index))
  | .insert _ | .delete _ | .truncate | .createIndex .. => .isTrue trivial

theorem Session.mem_indexes_run {s : Session} {c : Command} {ix : Index}
    (hix : ix ∈ s.table.indexes) (hc : c.Leaves ix.name) : ix ∈ (s.run c).2.table.indexes := by
  have hrows := (effect_run s c).of_rows
  have hne {old : Index} {name : String} (hold : s.table.index name = .ok old)
      (hname : name ≠ ix.name) : ix ≠ old := by
    rintro rfl
    exact hname (Table.mem_of_index hold).2.symm
  cases c with
  | insert | delete | truncate => exact (hrows rfl).1 ▸ hix
  | createIndex name columns unique =>
    show ix ∈ (s.createIndex name columns unique).2.table.indexes
    rcases createIndex_outcome s name columns unique with
      ⟨e, store, hcreate, -⟩ | ⟨new, store, hcreate, -⟩
    · rw [hcreate]
      exact hix
    · rw [hcreate]
      exact List.mem_append_left _ hix
  | dropIndex name =>
    show ix ∈ (s.dropIndex name).2.table.indexes
    rcases dropIndex_outcome s name with hnone | ⟨old, before, after, store, hold, hsplit, -, hdone⟩
    · rw [hnone]
      exact hix
    · rw [hdone]
      exact Table.mem_without hsplit hix (hne hold hc)
  | renameIndex name newName =>
    show ix ∈ (s.renameIndex name newName).2.table.indexes
    rcases renameIndex_outcome s name newName with
      ⟨e, -, hrefused⟩ | ⟨old, before, after, store, -, hold, hsplit, -, hdone⟩
    · rw [hrefused]
      exact hix
    · rw [hdone]
      have hsub : (before ++ after).Sublist (before ++ old.withName newName :: after) :=
        (List.sublist_cons_self _ after).append_left before
      exact hsub.mem (Table.mem_without hsplit hix (hne hold hc))

namespace Shared

variable {sh : Shared} {events : List Event}

def Event.Leaves (index : String) : Event → Prop
  | .command c => c.Leaves index
  | .call _ => True

instance (index : String) : DecidablePred (Event.Leaves index) := fun event =>
  match event with
  | .command c => inferInstanceAs (Decidable (c.Leaves index))
  | .call _ => .isTrue trivial

theorem mem_indexes_runAll {ix : Index} (hix : ix ∈ sh.session.table.indexes)
    (hevents : ∀ e ∈ events, e.Leaves ix.name) :
    ix ∈ (sh.runAll events).session.table.indexes := by
  induction events generalizing sh with
  | nil => exact hix
  | cons event events ih =>
    rw [List.forall_mem_cons] at hevents
    apply ih _ hevents.2
    cases event with
    | command c => exact Session.mem_indexes_run hix hevents.1
    | call c => exact hix

/-- An index that stays under its name serves all along. -/
theorem serves_runAll (h : sh.session.Placed) {ix : Index} (hix : ix ∈ sh.session.table.indexes)
    (hevents : ∀ v ∈ sh.visits events, v.1.Permits v.2) (hleaves : ∀ e ∈ events, e.Leaves ix.name) :
    (sh.runAll events).session.Serves ix.name ix :=
  (placed_runAll h hevents).serves (mem_indexes_runAll hix hleaves)

/-- **Renaming an index is atomic and keeps what it shows.**  A table is opened on a store that
    other code has worked with and works with between the commands on the table.  Whatever happens
    there, as long as other code does not rename maps of the table and no index is made under the
    table's own name, an index is either not renamed, for one of the four reasons, and nothing at
    all has changed, or it shows by the new name what it showed by the old one, its map is listed
    under the new name instead of the old one, and nothing else has changed.  The renamed map is
    then reached by every row that comes or goes until the index is dropped or renamed again. -/
theorem renameIndex_atomic (calls : List StoreCall) {id : TableId} {name : String}
    {columns : List Column} {config : IndexConfig}
    (hopen : openTable (Client.empty.runAll calls) id name columns config = .ok sh)
    (hevents : ∀ v ∈ sh.visits events, v.1.Permits v.2) (index newIndex : String) :
    let now := sh.runAll events
    (∃ e, now.session.RefusesRename index newIndex e ∧
        now.session.renameIndex index newIndex = (.error e, now.session)) ∨
      ∃ ix s', now.session.renameIndex index newIndex = (.ok (), s') ∧
        now.session.Renamed s' index newIndex ix ∧
        ∀ later, (∀ v ∈ (Shared.mk s' now.handles).visits later, v.1.Permits v.2) →
          (∀ event ∈ later, event.Leaves newIndex) →
            ((Shared.mk s' now.handles).runAll later).session.Serves newIndex
              (ix.withName newIndex) := by
  intro now
  have hnow : now.session.Placed := placed_runAll (placed_openTable calls hopen) hevents
  rcases now.session.renameIndex_outcome index newIndex with
    hrefused | ⟨ix, before, after, store, hnew, hix, hsplit, hrename, hdone⟩
  · exact .inl hrefused
  · right
    refine ⟨ix, _, hdone, hnow.renamed hnew hix hsplit hrename, ?_⟩
    intro later hlater hleaves
    have hafter := hnow.renameIndex index newIndex
    rw [hdone] at hafter
    let renamed := ix.withName newIndex
    have hmem : renamed ∈ before ++ renamed :: after := by simp
    have hserves : ((Shared.mk _ now.handles).runAll later).session.Serves renamed.name renamed :=
      serves_runAll hafter hmem hlater hleaves
    exact hserves

/-- The index is made on a map that other code left there, and other code has the map of another
    name, so that one renaming is refused.  After the other one, other code makes a map of the name
    that has become free. -/
theorem renameIndex_atomic_people :
    let calls : List StoreCall := [.openMap "by_age_1", .via 0 (.put [1] [])]
    let columns := [Column.new 0 "name" .varchar, Column.new 1 "age" .integer]
    let events : List Event := [.command (.insert [.text "a", .integer 30]),
      .command (.createIndex "by_age" [("age", .ascending)] false), .call (.openMap "ages_1"),
      .command (.insert [.text "b", .integer 20]), .call (.via 1 (.rename "years_1")),
      .call (.via 0 (.remove [1]))]
    let later : List Event := [.call (.openMap "by_age_1"), .command (.delete ⟨2⟩),
      .command (.createIndex "by_age" [("name", .ascending)] true),
      .command (.insert [.text "c", .null])]
    ∃ sh, openTable (Client.empty.runAll calls) ⟨7⟩ "people" columns .default = .ok sh ∧
      (∀ v ∈ sh.visits events, v.1.Permits v.2) ∧
      (sh.runAll events).session.RefusesRename "by_age" "years" (.store (.mapExists "years_1")) ∧
      ∃ ix s', (sh.runAll events).session.renameIndex "by_age" "ages" = (.ok (), s') ∧
        (sh.runAll events).session.Renamed s' "by_age" "ages" ix ∧
        ((Shared.mk s' (sh.runAll events).handles).runAll later).session.Serves "ages"
          (ix.withName "ages") := by
  intro calls columns events later
  have hrun : ∃ sh, openTable (Client.empty.runAll calls) ⟨7⟩ "people" columns .default = .ok sh ∧
      (∀ v ∈ sh.visits events, v.1.Permits v.2) ∧
      ((sh.runAll events).session.renameIndex "by_age" "years").1 =
        .error (.store (.mapExists "years_1")) ∧
      ((sh.runAll events).session.renameIndex "by_age" "ages").1 = .ok () ∧
      ∀ v ∈ (Shared.mk ((sh.runAll events).session.renameIndex "by_age" "ages").2
        (sh.runAll events).handles).visits later, v.1.Permits v.2 :=
    exists_ok_of_any (by decide +kernel)
  obtain ⟨sh, hopen, hevents, hrefused, hdone, hlater⟩ := hrun
  refine ⟨sh, hopen, hevents, ?_, ?_⟩
  · rcases renameIndex_atomic calls hopen hevents "by_age" "years" with
      ⟨e, hrefuses, he⟩ | ⟨ix, s', hok, -⟩
    · rw [he] at hrefused
      cases hrefused
      exact hrefuses
    · rw [hok] at hrefused
      cases hrefused
  · rcases renameIndex_atomic calls hopen hevents "by_age" "ages" with
      ⟨e, -, he⟩ | ⟨ix, s', hok, hrenamed, hserves⟩
    · rw [he] at hdone
      cases hdone
    · rw [hok] at hlater
      exact ⟨ix, s', hok, hrenamed, hserves later hlater (by decide)⟩

end Shared
end OrderedIndex
