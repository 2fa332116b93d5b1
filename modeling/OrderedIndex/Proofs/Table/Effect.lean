/-
  OrderedIndex/Proofs/Table/Effect.lean
  =====================================
  **What a command can do**, to whatever store it is run on.

  Nothing is assumed here: the store may hold maps of other tables and of earlier
  sessions, the indexes may share maps or lack entries, and the command may fail.
  `Session.Effect` lists the outcomes, and each command has one of them (`effect_run`).
  Three things follow from the list.

    * No other maps are touched than those that the command can reach
      (`Effect.touches`).
    * The table gets no other handle than the one that its new index opens
      (`Effect.handles`).
    * Names and maps still belong together (`Effect.wellListed`).
-/
import OrderedIndex.Proofs.Directory
import OrderedIndex.Proofs.Table.Run

namespace OrderedIndex

/-! ### Changes of entries -/

namespace Index

variable {ix : Index} {ixs : List Index} {s s' : Store} {row : Row}

theorem rewrites_add (h : ix.add s row = .ok s') : s.Rewrites s' [ix.map] := by
  rw [add_eq] at h
  obtain ⟨m, hm, rfl⟩ := map_eq_ok_iff.1 h
  exact Store.rewrites_setEntries ((sweep_addToAll row).isOpen hm) m

theorem rewrites_remove (h : ix.remove s row = .ok s') : s.Rewrites s' [ix.map] := by
  rw [remove_eq] at h
  obtain ⟨m, hm, rfl⟩ := map_eq_ok_iff.1 h
  exact Store.rewrites_setEntries ((sweep_removeFromAll row).isOpen hm) m

theorem rewrites_withdraw (ix : Index) (s : Store) (row : Row) :
    s.Rewrites (ix.withdraw s row) [ix.map] := by
  unfold withdraw
  split
  · rename_i h
    exact rewrites_remove h
  · exact .refl s _

theorem rewrites_restore (ix : Index) (s : Store) (row : Row) :
    s.Rewrites (ix.restore s row) [ix.map] := by
  unfold restore
  split
  · rename_i h
    exact rewrites_add h
  · exact .refl s _

theorem rewrites_foldlM_add {rows : List Row} (h : rows.foldlM ix.add s = .ok s') :
    s.Rewrites s' [ix.map] := by
  induction rows generalizing s with
  | nil =>
    cases h
    exact .refl _ _
  | cons row rows ih =>
    rw [List.foldlM_cons] at h
    obtain ⟨s₁, hadd, h⟩ := bind_eq_ok_iff.1 h
    exact (rewrites_add hadd).trans (ih h)

section

variable {new : Index → Store → Except Error (SortedMap Bytes Bytes)}
  {all : List Index → Store → Except Error Unit × Store} {back : Index → Store → Store}
  {fit : Index → SortedMap Bytes Bytes → Prop}

/-- A sweep stays within the maps of the indexes, also when it is taken back and the way back is not
    sure. -/
theorem Reversible.rewrites (h : Reversible new all back fit)
    (hback : ∀ (ix : Index) (s : Store), s.Rewrites (back ix s) [ix.map]) (ixs : List Index)
    (s : Store) :
    s.Rewrites (all ixs s).2 (ixs.map Index.map) := by
  have hhead (ix : Index) (rest : List Index) : [ix.map] ⊆ (ix :: rest).map Index.map := by simp
  induction ixs generalizing s with
  | nil =>
    rw [h.nil]
    exact .refl s _
  | cons ix rest ih =>
    rcases hnew : new ix s with e | m
    · rw [h.refused hnew]
      exact .refl s _
    have hfirst := (Store.rewrites_setEntries (h.isOpen hnew) m).mono (hhead ix rest)
    have hrest := (ih (s.setEntries ix.map m)).mono (List.subset_cons_self ix.map _)
    rcases hall : all rest (s.setEntries ix.map m) with ⟨e | ⟨⟩, s'⟩
    · rw [hall] at hrest
      rw [h.undone hnew hall]
      exact (hfirst.trans hrest).trans ((hback ix s').mono (hhead ix rest))
    · rw [hall] at hrest
      rw [h.cons hnew hall]
      exact hfirst.trans hrest

theorem rewrites_foldr (hback : ∀ (ix : Index) (s : Store), s.Rewrites (back ix s) [ix.map])
    (ixs : List Index) (s : Store) : s.Rewrites (ixs.foldr back s) (ixs.map Index.map) := by
  induction ixs with
  | nil => exact .refl s _
  | cons ix rest ih =>
    exact (ih.mono (List.subset_cons_self _ _)).trans ((hback ix _).mono (by simp))

end

theorem rewrites_clearAll (ixs : List Index) (s : Store) :
    s.Rewrites (clearAll ixs s).2 (ixs.map Index.map) := by
  induction ixs generalizing s with
  | nil => exact .refl s _
  | cons ix rest ih =>
    unfold clearAll
    split
    · exact .refl s _
    · rename_i s' hclear
      have hfirst := Store.rewrites_clear (mapError_eq_ok_iff.1 hclear)
      exact (hfirst.mono (by simp)).trans ((ih s').mono (List.subset_cons_self _ _))

theorem drop_eq_ok (h : ix.drop s = .ok s') : s' = s ∨ s.removeMap ix.map = .ok s' := by
  obtain ⟨s₁, hdrop, hs₁⟩ := ix.drop_cases s
  cases h.symm.trans hdrop
  exact hs₁.imp_left And.right

end Index

/-- The maps of a table, that of its rows first. -/
def Table.handles (t : Table) : List MapId := t.primary :: t.indexes.map Index.map

theorem Table.map_snd_maps (t : Table) : t.maps.map Prod.snd = t.handles := by
  simp [maps, handles]

theorem Table.handles_withIndex (t : Table) (ix : Index) :
    (t.withIndex ix).handles = t.handles ++ [ix.map] := by
  simp [Table.handles, Table.withIndex]

theorem Table.rewrites_fillIfEmpty {t : Table} {s s' : Store} {ix : Index}
    (h : t.fillIfEmpty s ix = .ok s') :
    s.Rewrites s' [ix.map] := by
  obtain ⟨rebuild, -, h⟩ := bind_eq_ok_iff.1 h
  cases rebuild with
  | false =>
    cases h
    exact .refl s _
  | true =>
    obtain ⟨rows, -, h⟩ := bind_eq_ok_iff.1 h
    exact Index.rewrites_foldlM_add h

/-- Whether the command is about indexes, and not about rows. -/
def Command.isIndexing : Command → Bool
  | .createIndex .. | .dropIndex _ | .renameIndex .. => true
  | .insert _ | .delete _ | .truncate => false

namespace Session

variable {s s' : Session} {c : Command}

/-! ### Commands about rows -/

/-- An insertion changes maps of indexes, and puts the row into the primary map at the end if it
    succeeds. -/
theorem insert_outcome (s : Session) (values : List Value) :
    (∃ e store, s.insert values = (.error e, { s with store }) ∧
        s.store.Rewrites store (s.table.indexes.map Index.map)) ∨
      ∃ id old mid store, s.insert values = (.ok id, ⟨store, { s.table with lastRowId := id }⟩) ∧
        s.table.lastRowId.next? = some id ∧
          Index.addToAll ⟨id, values⟩ s.table.indexes s.store = (.ok (), mid) ∧
        s.store.Rewrites mid (s.table.indexes.map Index.map) ∧
        mid.put s.table.primary (Key.ofRowId id) (StoredRow.encode values) = .ok (old, store) := by
  unfold insert
  split
  · exact .inl ⟨_, s.store, rfl, .refl _ _⟩
  split
  · exact .inl ⟨_, s.store, rfl, .refl _ _⟩
  rename_i id hid
  dsimp only
  have hall := (Index.reversible_addToAll ⟨id, values⟩).rewrites
    (fun ix s => ix.rewrites_withdraw s ⟨id, values⟩) s.table.indexes s.store
  split
  · rename_i e store hadd
    rw [hadd] at hall
    exact .inl ⟨e, store, rfl, hall⟩
  · rename_i mid hadd
    rw [hadd] at hall
    split
    · have hback :=
        Index.rewrites_foldr (fun ix s => ix.rewrites_withdraw s ⟨id, values⟩) s.table.indexes mid
      exact .inl ⟨_, _, rfl, hall.trans hback⟩
    · rename_i old store hput
      exact .inr ⟨id, old, mid, store, rfl, hid, hadd, hall, hput⟩

theorem delete_outcome (s : Session) (id : RowId) :
    (∃ e store, s.delete id = (.error e, { s with store }) ∧
        s.store.Rewrites store (s.table.indexes.map Index.map)) ∨
      ∃ row old mid store, s.delete id = (.ok row, { s with store }) ∧
        Index.removeFromAll row s.table.indexes s.store = (.ok (), mid) ∧
        s.store.Rewrites mid (s.table.indexes.map Index.map) ∧
        mid.remove s.table.primary (Key.ofRowId id) = .ok (old, store) := by
  unfold delete
  split
  · exact .inl ⟨_, s.store, rfl, .refl _ _⟩
  rename_i row hrow
  have hall := (Index.reversible_removeFromAll row).rewrites
    (fun ix s => ix.rewrites_restore s row) s.table.indexes s.store
  split
  · rename_i e store hremove
    rw [hremove] at hall
    exact .inl ⟨e, store, rfl, hall⟩
  · rename_i mid hremove
    rw [hremove] at hall
    split
    · have hback := Index.rewrites_foldr (fun ix s => ix.rewrites_restore s row) s.table.indexes mid
      exact .inl ⟨_, _, rfl, hall.trans hback⟩
    · rename_i old store hremove'
      exact .inr ⟨row, old, mid, store, rfl, hremove, hall, hremove'⟩

theorem truncate_outcome (s : Session) :
    (∃ e store, s.truncate = (.error e, { s with store }) ∧
        s.store.Rewrites store (s.table.indexes.map Index.map)) ∨
      ∃ mid store, s.truncate = (.ok (), { s with store }) ∧
        s.store.Rewrites mid (s.table.indexes.map Index.map) ∧
          mid.clear s.table.primary = .ok store := by
  have hall := Index.rewrites_clearAll s.table.indexes s.store
  unfold truncate
  split
  · rename_i e store hclear
    rw [hclear] at hall
    exact .inl ⟨e, store, rfl, hall⟩
  · rename_i mid hclear
    rw [hclear] at hall
    split
    · exact .inl ⟨_, mid, rfl, hall⟩
    · rename_i store hclear'
      exact .inr ⟨mid, store, rfl, hall, hclear'⟩

/-- The primary map is changed after those of the indexes. -/
theorem rewrites_handles {mid store : Store}
    (hall : s.store.Rewrites mid (s.table.indexes.map Index.map))
    (hlast : mid.Rewrites store [s.table.primary]) : s.store.Rewrites store s.table.handles :=
  (hall.mono (List.subset_cons_self _ _)).trans
    (hlast.mono (List.cons_subset_cons _ (List.nil_subset _)))

/-! ### All commands -/

/-- The map that an index of the name would get, and the store in which it is open. -/
def mapFor (s : Session) (name : String) : MapId × Store :=
  s.store.openMap (Descriptor.mapNameOf name s.table.nextIndexId)

/-- The outcomes of a command. -/
inductive Effect (s : Session) : Command → Session → Prop
  | nothing (c : Command) : Effect s c s
  | rows {c : Command} {store : Store} {last : RowId} (hc : c.isIndexing = false)
      (hr : s.store.Rewrites store s.table.handles) : Effect s c ⟨store,
        { s.table with lastRowId := last }⟩
  | made {name : String} {columns : List (String × Direction)} {unique : Bool} {store : Store}
      {ix : Index}
      (hmap : ix.map = (s.mapFor name).1) (hr : (s.mapFor name).2.Rewrites store [ix.map]) :
      Effect s (.createIndex name columns unique) ⟨store, s.table.withIndex ix⟩
  /-- The index could not be filled, and its map is removed again. -/
  | unmade {name : String} {columns : List (String × Direction)} {unique : Bool} {store : Store}
      (hstore : store = (s.mapFor name).2 ∨
        (s.mapFor name).2.removeMap (s.mapFor name).1 = .ok store) :
      Effect s (.createIndex name columns unique) { s with store }
  | dropped {name : String} {store : Store} {ix : Index} {indexes : List Index}
      (hix : ix ∈ s.table.indexes)
      (hsub : indexes.Sublist s.table.indexes)
      (hstore : store = s.store ∨ s.store.removeMap ix.map = .ok store) :
      Effect s (.dropIndex name) ⟨store, s.table.withIndexes indexes⟩
  | renamed {name newName mapName : String} {store : Store} {ix : Index} {indexes : List Index}
      (hix : ix ∈ s.table.indexes) (hmaps : indexes.map Index.map = s.table.indexes.map Index.map)
      (hstore : s.store.rename ix.map mapName = .ok store) :
      Effect s (.renameIndex name newName) ⟨store, s.table.withIndexes indexes⟩

/-- A new index is on the map of its name, which is filled if it was empty; or there is none, and
    the map of its name is not changed, or made, or removed again. -/
theorem createIndex_outcome (s : Session) (name : String) (columns : List (String × Direction))
    (unique : Bool) :
    (∃ e store, s.createIndex name columns unique = (.error e, { s with store }) ∧
        (store = s.store ∨ store = (s.mapFor name).2 ∨
          (s.mapFor name).2.removeMap (s.mapFor name).1 = .ok store)) ∨
      ∃ ix store, s.createIndex name columns unique = (.ok s.table.nextIndexId,
        ⟨store, s.table.withIndex ix⟩) ∧
        s.table.nextIndexId.next? ≠ none ∧ s.table.hasIndex name = false ∧ ix.name = name ∧
        ix.descriptor.id = s.table.nextIndexId ∧ ix.map = (s.mapFor name).1 ∧
        (s.mapFor name).2.Rewrites store [ix.map] := by
  rcases s.createIndex_endings name columns unique with
    ⟨e, hnone⟩ | ⟨d, ix, opened, hd, hcreate, hending⟩
  · exact .inl ⟨e, s.store, hnone, .inl rfl⟩
  obtain ⟨hnew, hid, rfl⟩ := Table.newDescriptor_eq_ok hd
  obtain ⟨-, rfl, rfl⟩ := Index.create_eq_ok_iff.1 hcreate
  have hfor : s.store.openMap d.mapName = s.mapFor d.name := by
    rw [mapFor, ← hid]
    rfl
  rw [hfor] at hending
  rcases hending with ⟨e, store, hdrop, hundone⟩ | ⟨store, hfill, hleft, hdone⟩
  · exact .inl ⟨e, store, hundone, .inr (Index.drop_eq_ok hdrop)⟩
  · exact .inr ⟨_, store, hdone, hleft, hnew, rfl, hid, rfl, Table.rewrites_fillIfEmpty hfill⟩

theorem effect_createIndex (s : Session) (name : String) (columns : List (String × Direction))
    (unique : Bool) :
    s.Effect (.createIndex name columns unique) (s.createIndex name columns unique).2 := by
  rcases createIndex_outcome s name columns unique with
    ⟨e, store, hcreate, rfl | hstore⟩ | ⟨ix, store, hcreate, -, -, -, -, hmap, hr⟩
  · rw [hcreate]
    exact .nothing _
  · rw [hcreate]
    exact .unmade hstore
  · rw [hcreate]
    exact .made hmap hr

theorem effect_dropIndex (s : Session) (name : String) :
    s.Effect (.dropIndex name) (s.dropIndex name).2 := by
  rcases dropIndex_outcome s name with
    hnone | ⟨ix, before, after, store, hix, hsplit, hstore, hdone⟩
  · rw [hnone]
    exact .nothing _
  · rw [hdone]
    exact .dropped (Table.mem_of_index hix).1 (Table.sublist_without hsplit)
      (hstore.imp And.right id)

theorem effect_renameIndex (s : Session) (name newName : String) :
    s.Effect (.renameIndex name newName) (s.renameIndex name newName).2 := by
  rcases renameIndex_outcome s name newName with
    ⟨e, -, hrefused⟩ | ⟨ix, before, after, store, -, -, hsplit, hrename, hdone⟩
  · rw [hrefused]
    exact .nothing _
  · rw [hdone]
    refine .renamed (by simp [hsplit]) ?_ hrename
    rw [hsplit, List.map_append, List.map_append]
    rfl

/-- **Every command has one of the outcomes.** -/
theorem effect_run (s : Session) (c : Command) : s.Effect c (s.run c).2 := by
  cases c with
  | insert values =>
    show s.Effect _ (s.insert values).2
    rcases insert_outcome s values with
      ⟨e, store, hinsert, hr⟩ | ⟨id, old, mid, store, hinsert, -, -, hr, hput⟩
    · rw [hinsert]
      exact .rows rfl (hr.mono (List.subset_cons_self _ _))
    · rw [hinsert]
      exact .rows rfl (rewrites_handles hr (Store.rewrites_put hput))
  | delete id =>
    show s.Effect _ (s.delete id).2
    rcases delete_outcome s id with
      ⟨e, store, hdelete, hr⟩ | ⟨row, old, mid, store, hdelete, -, hr, hremove⟩
    · rw [hdelete]
      exact .rows rfl (hr.mono (List.subset_cons_self _ _))
    · rw [hdelete]
      exact .rows rfl (rewrites_handles hr (Store.rewrites_remove hremove))
  | truncate =>
    show s.Effect _ s.truncate.2
    rcases truncate_outcome s with ⟨e, store, htruncate, hr⟩ | ⟨mid, store, htruncate, hr, hclear⟩
    · rw [htruncate]
      exact .rows rfl (hr.mono (List.subset_cons_self _ _))
    · rw [htruncate]
      exact .rows rfl (rewrites_handles hr (Store.rewrites_clear hclear))
  | createIndex name columns unique => exact effect_createIndex s name columns unique
  | dropIndex name => exact effect_dropIndex s name
  | renameIndex name newName => exact effect_renameIndex s name newName

/-! ### What follows -/

/-- The maps that a command can change. -/
def reach (s : Session) : Command → List MapId
  | .createIndex name _ _ => [(s.mapFor name).1]
  | .dropIndex _ | .renameIndex .. => s.table.indexes.map Index.map
  | .insert _ | .delete _ | .truncate => s.table.handles

/-- The handles that a command can add to those of the table. -/
def gains (s : Session) : Command → List MapId
  | .createIndex name _ _ => [(s.mapFor name).1]
  | _ => []

theorem Effect.touches (h : s.Effect c s') : s.store.Touches s'.store (s.reach c) := by
  cases h with
  | nothing => exact .refl _ _
  | rows hc hr =>
    have hreach : s.reach c = s.table.handles := by
      cases c with
      | createIndex | dropIndex | renameIndex => cases hc
      | insert | delete | truncate => rfl
    rw [hreach]
    exact hr.touches
  | made hmap hr =>
    rw [hmap] at hr
    exact ((Store.touches_openMap _ _).mono (List.nil_subset _)).trans hr.touches
  | @unmade name _ _ _ hstore =>
    have hopened : s.store.Touches (s.mapFor name).2 [(s.mapFor name).1] :=
      (Store.touches_openMap s.store _).mono (List.nil_subset _)
    rcases hstore with rfl | hremove
    · exact hopened
    · exact hopened.trans (Store.touches_removeMap hremove)
  | dropped hix _ hstore =>
    rcases hstore with rfl | hremove
    · exact .refl _ _
    · exact (Store.touches_removeMap hremove).mono (by simpa [reach] using ⟨_, hix, rfl⟩)
  | renamed hix _ hstore =>
    exact (Store.touches_rename hstore).mono (by simpa [reach] using ⟨_, hix, rfl⟩)

theorem Effect.handles (h : s.Effect c s') :
    s'.table.handles.Sublist (s.table.handles ++ s.gains c) := by
  cases h with
  | nothing => exact List.sublist_append_left _ _
  | rows => exact List.sublist_append_left _ _
  | made hmap =>
    rw [Table.handles_withIndex, hmap]
    exact List.Sublist.refl _
  | unmade => exact List.sublist_append_left _ _
  | dropped _ hsub => exact ((hsub.map Index.map).cons_cons _).trans (List.sublist_append_left _ _)
  | renamed _ hmaps =>
    refine List.Sublist.trans ?_ (List.sublist_append_left _ _)
    rw [Table.handles, Table.withIndexes, hmaps]
    exact List.Sublist.refl _

/-- A new handle leads to a map that has been made by then. -/
theorem Effect.mem_handles (h : s.Effect c s') (hs : s.store.WellListed) {m : MapId}
    (hm : m ∈ s'.table.handles) :
    m ∈ s.table.handles ∨ m.index < s'.store.maps.length := by
  rcases List.mem_append.1 (h.handles.mem hm) with hm | hgain
  · exact .inl hm
  cases h with
  | nothing | rows => exact .inl hm
  | @made name _ _ store _ _ hr =>
    obtain rfl := List.mem_singleton.1 hgain
    refine .inr ?_
    show _ < store.maps.length
    rw [hr.length_eq]
    exact Store.index_openMap_lt hs _
  | unmade => exact .inl hm
  | dropped | renamed => cases hgain

/-- The command does not make an index on a map that is there already. -/
def Unshared (s : Session) : Command → Prop
  | .createIndex name _ _ => s.store.hasMap (Descriptor.mapNameOf name s.table.nextIndexId) = false
  | _ => True

instance (s : Session) : DecidablePred s.Unshared := fun c =>
  match c with
  | .createIndex .. => inferInstanceAs (Decidable (s.store.hasMap _ = false))
  | .insert _ | .delete _ | .truncate | .dropIndex _ | .renameIndex _ _ => .isTrue trivial

theorem mapFor_of_hasMap {name : String}
    (h : s.store.hasMap (Descriptor.mapNameOf name s.table.nextIndexId) = false) :
    (s.mapFor name).1 = s.store.made := by
  rw [mapFor, Store.openMap_of_free (Store.hasMap_eq_false_iff.1 h)]

/-- Such a command reaches the table's own maps and a new one. -/
theorem mem_reach (h : s.Unshared c) {m : MapId} (hm : m ∈ s.reach c) :
    m ∈ s.table.handles ∨ m = s.store.made := by
  cases c with
  | createIndex name =>
    rw [reach, mapFor_of_hasMap h] at hm
    exact .inr (List.mem_singleton.1 hm)
  | dropIndex | renameIndex => exact .inl (List.mem_cons_of_mem _ hm)
  | insert | delete | truncate => exact .inl hm

theorem gains_eq (h : s.Unshared c) : s.gains c = [] ∨ s.gains c = [s.store.made] := by
  cases c with
  | createIndex name => exact .inr (congrArg (fun m => [m]) (mapFor_of_hasMap h))
  | insert | delete | truncate | dropIndex | renameIndex => exact .inl rfl

theorem nodup_gains (h : s.Unshared c) : (s.gains c).Nodup := by
  rcases gains_eq h with hgains | hgains
  · rw [hgains]
    exact .nil
  · rw [hgains]
    exact List.nodup_singleton _

theorem eq_made_of_mem_gains (h : s.Unshared c) {m : MapId} (hm : m ∈ s.gains c) :
    m = s.store.made := by
  rcases gains_eq h with hgains | hgains
  · rw [hgains] at hm
    cases hm
  · rw [hgains] at hm
    exact List.mem_singleton.1 hm

theorem Effect.lastRowId_eq (h : s.Effect c s') (hc : c.isIndexing = true) :
    s'.table.lastRowId = s.table.lastRowId := by
  cases h with
  | rows hrows => cases hc.symm.trans hrows
  | nothing | made | unmade | dropped | renamed => rfl

theorem Effect.of_rows (h : s.Effect c s') (hc : c.isIndexing = false) :
    s'.table.indexes = s.table.indexes ∧ s'.store.directory = s.store.directory := by
  cases h with
  | nothing => exact ⟨rfl, rfl⟩
  | rows _ hr => exact ⟨rfl, hr.directory_eq⟩
  | made | unmade | dropped | renamed => cases hc

theorem Effect.of_drop {name : String} (h : s.Effect (.dropIndex name) s') :
    s'.table.indexes.Sublist s.table.indexes := by
  cases h with
  | nothing => exact .refl _
  | rows hc => cases hc
  | dropped _ hsub => exact hsub

theorem Effect.wellListed (h : s.Effect c s') (hs : s.store.WellListed) : s'.store.WellListed := by
  cases h with
  | nothing => exact hs
  | rows _ hr => exact hs.of_rewrites hr
  | made _ hr => exact (hs.openMap _).of_rewrites hr
  | unmade hstore =>
    rcases hstore with rfl | hremove
    · exact hs.openMap _
    · exact (hs.openMap _).removeMap hremove
  | dropped _ _ hstore =>
    rcases hstore with rfl | hremove
    · exact hs
    · exact hs.removeMap hremove
  | renamed _ _ hstore => exact hs.rename hstore

end Session
end OrderedIndex
