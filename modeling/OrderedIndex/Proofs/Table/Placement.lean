/-
  OrderedIndex/Proofs/Table/Placement.lean
  ========================================
  **A table in company.**

  Other code works on the store of a table: it opens maps, changes them and removes them,
  and those of the table are not safe from it either.  What is sure all the same is that
  the maps of the table stand apart, and that each one that is open has the name by which
  the table knows it (`Session.Placed`).  The rows may be anything, and the maps gone.

  Only a new name can break that.  A map that is opened under a name that is free is a
  new one, and one that is listed has its name already, so opening maps does no harm, nor
  does changing or removing them (`Store.KeepsNames`).  What other code must not do is to
  rename a map of the table (`Shared.Permits`).
-/
import OrderedIndex.Proofs.Handles
import OrderedIndex.Proofs.Table.Effect
import OrderedIndex.Table.Shared

namespace OrderedIndex

/-! ### Names that stay -/

namespace Store

variable {s s' s'' : Store} {m : MapId} {kept : List MapId}

/-- Those of the maps that are open afterwards were open before, under the same names. -/
structure KeepsNames (s s' : Store) (kept : List MapId) : Prop where
  length_le : s.maps.length ≤ s'.maps.length
  named : ∀ m ∈ kept, s'.isClosed m = false → s.isClosed m = false ∧ s'.nameOf m = s.nameOf m

theorem KeepsNames.of_state (hlength : s.maps.length ≤ s'.maps.length)
    (hstate : ∀ m ∈ kept, s'.isClosed m = false → s'.state m = s.state m) :
    s.KeepsNames s' kept := by
  refine ⟨hlength, ?_⟩
  intro m hm hopen
  have hsame := hstate m hm hopen
  constructor
  · rwa [isClosed, ← hsame]
  · exact congrArg MapState.name hsame

theorem KeepsNames.refl (s : Store) (kept : List MapId) : s.KeepsNames s kept :=
  .of_state (Nat.le_refl _) fun _ _ _ => rfl

theorem KeepsNames.trans (h : s.KeepsNames s' kept) (h' : s'.KeepsNames s'' kept) :
    s.KeepsNames s'' kept := by
  refine ⟨h.length_le.trans h'.length_le, ?_⟩
  intro m hm hopen
  obtain ⟨hopen', hname'⟩ := h'.named m hm hopen
  obtain ⟨hopen'', hname⟩ := h.named m hm hopen'
  exact ⟨hopen'', hname'.trans hname⟩

theorem Rewrites.keepsNames {changed : List MapId} (h : s.Rewrites s' changed) (kept : List MapId) :
    s.KeepsNames s' kept where
  length_le := Nat.le_of_eq h.length_eq.symm
  named m _ hopen := ⟨(h.isClosed_eq m).symm.trans hopen, h.nameOf_eq m⟩

theorem keepsNames_openMap (hmade : ∀ m ∈ kept, m.index < s.maps.length) (name : String) :
    s.KeepsNames (s.openMap name).2 kept :=
  .of_state (touches_openMap s name).length_le fun m hm _ => state_openMap_of_lt (hmade m hm) name

theorem keepsNames_removeMap (h : s.removeMap m = .ok s') (kept : List MapId) :
    s.KeepsNames s' kept := by
  apply KeepsNames.of_state (Nat.le_of_eq (length_removeMap h).symm)
  intro m' _ hopen
  have hstate := state_removeMap h m'
  by_cases hm : m' = m
  · rw [isClosed, hstate, if_pos hm] at hopen
    cases hopen
  · rwa [if_neg hm] at hstate

theorem keepsNames_rename {name : String} (h : s.rename m name = .ok s') (hm : m ∉ kept) :
    s.KeepsNames s' kept := by
  obtain ⟨hlength, -, hstate⟩ := rename_eq_ok h
  apply KeepsNames.of_state (Nat.le_of_eq hlength.symm)
  intro m' hm' _
  apply (hstate m').trans
  apply if_neg
  rintro rfl
  exact hm hm'

theorem keepsNames_perform {call : MapCall} (hcall : ∀ name, call = .rename name → m ∉ kept) :
    s.KeepsNames (s.perform m call).2 kept := by
  rcases perform_cases s m call with
    ⟨e, heq⟩ | ⟨hopen, ⟨-, old, entries, heq⟩ | ⟨name, s', hrename, hs', heq⟩ | ⟨s', -, hs', heq⟩⟩
  · rw [heq]
    exact .refl s kept
  · rw [heq]
    exact (rewrites_setEntries hopen entries).keepsNames kept
  · rw [heq]
    exact keepsNames_rename hs' (hcall name hrename)
  · rw [heq]
    exact keepsNames_removeMap hs' kept

end Store

/-! ### Tables in their place -/

namespace Session

/-- The maps of the table stand apart, and each that is open has the name by which the table knows
    it. -/
structure Placed (s : Session) : Prop where
  wellListed : s.store.WellListed
  distinct : s.table.Distinct
  made : ∀ m ∈ s.table.handles, m.index < s.store.maps.length
  named : ∀ e ∈ s.table.maps, s.store.isClosed e.2 = false → s.store.nameOf e.2 = e.1

variable {s s' : Session} {c : Command} {store : Store} {ix : Index}

/-- The store keeps the names, and the table has no other maps than before. -/
theorem Placed.of_keepsNames (h : s.Placed) {t : Table} (hlisted : store.WellListed)
    (hnames : s.store.KeepsNames store s.table.handles) (hdistinct : t.Distinct)
    (hmaps : t.maps ⊆ s.table.maps) :
    Placed ⟨store, t⟩ := by
  refine ⟨hlisted, hdistinct, ?_, ?_⟩
  · intro m hm
    have hsub : m ∈ s.table.handles := by
      rw [← Table.map_snd_maps] at hm ⊢
      exact List.map_subset Prod.snd hmaps hm
    exact (h.made m hsub).trans_le hnames.length_le
  · intro e he hopen
    have hmem := hmaps he
    obtain ⟨hopen', hname⟩ := hnames.named e.2 (Table.mem_handles_of_mem_maps hmem) hopen
    exact hname.trans (h.named e hmem hopen')

theorem Placed.withStore (h : s.Placed) (hlisted : store.WellListed)
    (hnames : s.store.KeepsNames store s.table.handles) : Placed { s with store } :=
  h.of_keepsNames hlisted hnames h.distinct (List.Subset.refl _)

/-- The map of the rows is opened under its name, and there are no indexes yet. -/
theorem openTable_eq_ok {id : TableId} {name : String} {columns : List Column}
    {config : IndexConfig} (h : openTable store id name columns config = .ok s) :
    ∃ last, s = ⟨(store.openMap (Table.mapNameOf name id)).2,
      .new id name columns (store.openMap (Table.mapNameOf name id)).1 last config⟩ := by
  obtain ⟨key, -, h⟩ := bind_eq_ok_iff.1 h
  cases key with
  | none =>
    cases h
    exact ⟨.min, rfl⟩
  | some key =>
    obtain ⟨last, -, h⟩ := bind_eq_ok_iff.1 h
    cases h
    exact ⟨last, rfl⟩

/-! ### Commands -/

theorem Placed.of_rows (h : s.Placed) (he : s.Effect c s') (hc : c.isIndexing = false) :
    s'.Placed := by
  cases he with
  | nothing => exact h
  | rows _ hr =>
    exact h.of_keepsNames (h.wellListed.of_rewrites hr) (hr.keepsNames _)
      (h.distinct.withLastRowId _) (List.Subset.refl _)
  | made | unmade | dropped | renamed => cases hc

theorem Placed.dropIndex (h : s.Placed) {name : String} (he : s.Effect (.dropIndex name) s') :
    s'.Placed := by
  cases he with
  | nothing => exact h
  | rows hc => cases hc
  | dropped hix hsub hstore =>
    have hmaps := List.cons_subset_cons (Table.mapNameOf s.table.name s.table.id, s.table.primary)
      (hsub.map fun ix => (ix.descriptor.mapName, ix.map)).subset
    rcases hstore with rfl | hremove
    · exact h.of_keepsNames h.wellListed (.refl _ _) (h.distinct.of_sublist hsub) hmaps
    · exact h.of_keepsNames (h.wellListed.removeMap hremove) (Store.keepsNames_removeMap hremove _)
        (h.distinct.of_sublist hsub) hmaps

/-- A map with the name of the next index is not one of the table's. -/
theorem Placed.mapFor_not_mem (h : s.Placed) {name : String}
    (hnew : s.table.hasIndex name = false) (hname : name ≠ s.table.name) :
    (s.mapFor name).1 ∉ s.table.handles := by
  rw [mapFor]
  rcases Store.openMap_cases s.store (Descriptor.mapNameOf name s.table.nextIndexId) with
    ⟨m, hget, hopened⟩ | ⟨-, hopened⟩
  · rw [hopened, ← Table.map_snd_maps]
    intro hm
    obtain ⟨e, he, rfl⟩ := List.mem_map.1 hm
    obtain ⟨hopen, hnamed⟩ := (h.wellListed _ _).1 hget
    have hne := Table.mapNameOf_free_of_ne hnew hname s.table.nextIndexId e he
    exact hne ((h.named e he hopen).symm.trans hnamed)
  · rw [hopened]
    intro hm
    exact Nat.lt_irrefl _ (h.made _ hm)

theorem Placed.withIndex (h : s.Placed) (hid : ix.descriptor.id = s.table.nextIndexId)
    (hleft : s.table.nextIndexId.next? ≠ none) (hnew : s.table.hasIndex ix.name = false)
    (hmap : ix.map ∉ s.table.handles) (hlisted : store.WellListed)
    (hnames : s.store.KeepsNames store s.table.handles)
    (hopen : store.isClosed ix.map = false) (hname : store.nameOf ix.map = ix.descriptor.mapName) :
    Placed ⟨store, s.table.withIndex ix⟩ := by
  have hold := h.withStore hlisted hnames
  refine ⟨hlisted, h.distinct.withIndex hid hleft hnew hmap, ?_, ?_⟩
  · intro m hm
    rw [Table.handles_withIndex] at hm
    rcases List.mem_append.1 hm with hm | hm
    · exact hold.made m hm
    · rw [List.mem_singleton.1 hm]
      exact Store.index_lt_of_isClosed hopen
  · intro e he hopen'
    rcases Table.mem_maps_withIndex.1 he with he | rfl
    · exact hold.named e he hopen'
    · exact hname

theorem Placed.createIndex (h : s.Placed) {name : String} (hname : name ≠ s.table.name)
    (columns : List (String × Direction)) (unique : Bool) :
    (s.createIndex name columns unique).2.Placed := by
  let mapName := Descriptor.mapNameOf name s.table.nextIndexId
  have hlisted : (s.mapFor name).2.WellListed := h.wellListed.openMap mapName
  have hnames : s.store.KeepsNames (s.mapFor name).2 s.table.handles :=
    Store.keepsNames_openMap h.made mapName
  obtain ⟨hopen, hnamed⟩ := h.wellListed.opened mapName
  rcases createIndex_outcome s name columns unique with
    ⟨e, store, hcreate, rfl | rfl | hremove⟩ |
      ⟨ix, store, hcreate, hleft, hnew, rfl, hid, hmap, hr⟩
  · rw [hcreate]
    exact h
  · rw [hcreate]
    exact h.withStore hlisted hnames
  · rw [hcreate]
    exact h.withStore (hlisted.removeMap hremove)
      (hnames.trans (Store.keepsNames_removeMap hremove _))
  · rw [hcreate]
    have hnot := h.mapFor_not_mem hnew hname
    rw [← hmap] at hnot
    apply h.withIndex hid hleft hnew hnot (hlisted.of_rewrites hr)
    · exact hnames.trans (hr.keepsNames _)
    · rw [hr.isClosed_eq, hmap]
      exact hopen
    · rw [hr.nameOf_eq, hmap, Descriptor.mapName, hid]
      exact hnamed

theorem Placed.renameIndex (h : s.Placed) (name newName : String) :
    (s.renameIndex name newName).2.Placed := by
  rcases renameIndex_outcome s name newName with
    ⟨e, -, hrefused⟩ | ⟨ix, before, after, store, hnew, -, hsplit, hrename, hdone⟩
  · rw [hrefused]
    exact h
  rw [hdone]
  obtain ⟨hlength, -, hstate⟩ := Store.rename_eq_ok hrename
  have hmaps {e : String × MapId} :=
    h.distinct.mem_maps_replace (ix.withName newName) hsplit rfl (e := e)
  refine ⟨h.wellListed.rename hrename, h.distinct.replace _ hsplit rfl rfl hnew, ?_, ?_⟩
  · intro m hm
    have hhandles :
        (s.table.withIndexes (before ++ ix.withName newName :: after)).handles =
          s.table.handles := by
      simp only [Table.handles, Table.withIndexes, hsplit, List.map_append, List.map_cons]
      rfl
    rw [hhandles] at hm
    exact (h.made m hm).trans_eq hlength.symm
  · intro e he hopen
    rw [Store.nameOf, hstate]
    rcases hmaps.1 he with rfl | ⟨he, hne⟩
    · exact congrArg MapState.name (if_pos rfl)
    · rw [if_neg hne]
      rw [Store.isClosed, hstate, if_neg hne] at hopen
      exact h.named e he hopen

/-- **Every command leaves the maps in their place**, also when rows and maps have been lost. -/
theorem Placed.run (h : s.Placed) (hc : c.Spares s.table.name) : (s.run c).2.Placed := by
  cases c with
  | insert | delete | truncate => exact h.of_rows (effect_run s _) rfl
  | createIndex name columns unique => exact h.createIndex hc columns unique
  | dropIndex name => exact h.dropIndex (effect_run s _)
  | renameIndex name newName => exact h.renameIndex name newName

end Session

/-! ### Other code -/

namespace Shared

variable {sh : Shared} {event : Event} {events : List Event}

/-- Other code does not rename the maps of the table, and no index is made under the table's own
    name. -/
def Permits (sh : Shared) : Event → Prop
  | .command c => c.Spares sh.session.table.name
  | .call (.via handle (.rename _)) => ∀ m ∈ sh.handles[handle]?, m ∉ sh.session.table.handles
  | .call _ => True

instance (sh : Shared) : DecidablePred sh.Permits := fun event =>
  match event with
  | .command c => inferInstanceAs (Decidable (c.Spares sh.session.table.name))
  | .call (.via handle (.rename _)) => inferInstanceAs (Decidable (∀ m ∈ sh.handles[handle]?, _))
  | .call (.openMap _) | .call (.clone _) | .call (.via _ (.put ..)) | .call (.via _ (.remove _))
  | .call (.via _ .clear) | .call (.via _ .removeMap) => .isTrue trivial

theorem placed_call (h : sh.session.Placed) {c : StoreCall} (hc : sh.Permits (.call c)) :
    (sh.run (.call c)).session.Placed := by
  cases c with
  | openMap name =>
    exact h.withStore (h.wellListed.openMap name) (Store.keepsNames_openMap h.made name)
  | clone handle => exact h
  | via handle request =>
    rcases hhandle : sh.handles[handle]? with _ | m
    · have hsame : (sh.run (.call (.via handle request))).session = sh.session := by
        simp only [run, Client.run, hhandle]
      rw [hsame]
      exact h
    · have hstore : (sh.run (.call (.via handle request))).session =
          { sh.session with store := (sh.session.store.perform m request).2 } := by
        simp only [run, Client.run, hhandle]
      rw [hstore]
      apply h.withStore (h.wellListed.perform m request)
      apply Store.keepsNames_perform
      rintro name rfl
      exact hc m hhandle

theorem placed_run (h : sh.session.Placed) (hevent : sh.Permits event) :
    (sh.run event).session.Placed := by
  cases event with
  | command c => exact h.run hevent
  | call c => exact placed_call h hevent

theorem placed_runAll (h : sh.session.Placed) (hevents : ∀ v ∈ sh.visits events, v.1.Permits v.2) :
    (sh.runAll events).session.Placed := by
  induction events generalizing sh with
  | nil => exact h
  | cons event events ih =>
    rw [visits, List.forall_mem_cons] at hevents
    exact ih (placed_run h hevents.1) hevents.2

/-- A table starts in its place, whatever there was in the store before. -/
theorem placed_openTable (calls : List StoreCall) {id : TableId} {name : String}
    {columns : List Column} {config : IndexConfig}
    (h : openTable (Client.empty.runAll calls) id name columns config = .ok sh) :
    sh.session.Placed := by
  obtain ⟨s, hopen, rfl⟩ := map_eq_ok_iff.1 h
  obtain ⟨last, rfl⟩ := Session.openTable_eq_ok hopen
  have hlisted : (Client.empty.runAll calls).store.WellListed :=
    (Client.tracks_empty.runAll calls).listed
  obtain ⟨hopen, hnamed⟩ := hlisted.opened (Table.mapNameOf name id)
  refine ⟨hlisted.openMap _, Table.distinct_new .., ?_, ?_⟩
  · intro m hm
    rw [List.mem_singleton.1 hm]
    exact Store.index_lt_of_isClosed hopen
  · intro e he _
    rw [List.mem_singleton.1 he]
    exact hnamed

end Shared
end OrderedIndex
