/-
  OrderedIndex/Proofs/Table/Wiring.lean
  =====================================
  **The maps of a table.**

  A table that is alone on its store is wired to it (`Table.Wired`) when the store's
  directory lists the table's maps and nothing else: the map of the rows, and one map
  for each index, named after the index and its id.  The name tells both apart, since
  the digits of an id hold no underscore (`mapNameOf_inj`).  So the map of a new index
  has a new name, as the index has one, unless it would have that of the map of the rows
  (`mapNameOf_free`).  What sets the indexes themselves apart does not depend on the store
  (`Table.Distinct`): among other things their ids, which are words that are counted up
  and do not come round again.

  Making, dropping and renaming an index keep the table wired; changes of entries do
  so anyway (`Wired.of_rewrites`).
-/
import OrderedIndex.Proofs.Store
import OrderedIndex.Table.Indexing

namespace OrderedIndex

/-! ### Ids -/

namespace IndexId

variable {id : IndexId}

theorem next?_ne_none_iff : id.next? ≠ none ↔ id.word.toNat + 1 < UInt32.size := by
  simp [next?]

theorem next?_eq_some_iff {next : IndexId} :
    id.next? = some next ↔ id.next? ≠ none ∧ ⟨id.word + 1⟩ = next := by
  rw [next?_ne_none_iff, next?, Option.ite_none_right_eq_some, Option.some_inj]

theorem next?_eq_some (h : id.next? ≠ none) : id.next? = some ⟨id.word + 1⟩ :=
  next?_eq_some_iff.2 ⟨h, rfl⟩

theorem toNat_next (h : id.next? ≠ none) : (id.word + 1).toNat = id.word.toNat + 1 := by
  rw [UInt32.toNat_add]
  exact Nat.mod_eq_of_lt (next?_ne_none_iff.1 h)

theorem lt_next (h : id.next? ≠ none) : id.word < id.word + 1 := by
  rw [UInt32.lt_iff_toNat_lt, toNat_next h]
  exact Nat.lt_succ_self _

end IndexId

/-! ### Names -/

/-- The last occurrence of an element splits a list in one way only. -/
theorem append_cons_inj_of_not_mem {α : Type} {x : α} {p q l₁ l₂ : List α} (h₁ : x ∉ l₁)
    (h₂ : x ∉ l₂) (h : p ++ x :: l₁ = q ++ x :: l₂) : p = q ∧ l₁ = l₂ := by
  rcases List.append_eq_append_iff.1 h with ⟨c, hq, hc⟩ | ⟨c, hp, hc⟩
  · cases c with
    | nil => simp_all
    | cons y c =>
      obtain ⟨-, rfl⟩ := List.cons.inj hc
      simp at h₁
  · cases c with
    | nil => simp_all
    | cons y c =>
      obtain ⟨-, rfl⟩ := List.cons.inj hc
      simp at h₂

theorem append_digits_inj {a b : String} {m n : Nat}
    (h : a ++ "_" ++ toString m = b ++ "_" ++ toString n) :
    a = b ∧ m = n := by
  have hlist : a.toList ++ '_' :: Nat.toDigits 10 m = b.toList ++ '_' :: Nat.toDigits 10 n := by
    have := congrArg String.toList h
    simpa [Nat.toString_eq_repr, Nat.toList_repr] using this
  obtain ⟨hab, hmn⟩ :=
    append_cons_inj_of_not_mem Nat.underscore_not_in_toDigits Nat.underscore_not_in_toDigits hlist
  have hread := congrArg (Nat.ofDigitChars 10 · 0) hmn
  simp only [Nat.ofDigitChars_toDigits (b := 10) (by decide) (by decide)] at hread
  exact ⟨String.toList_inj.1 hab, hread⟩

theorem Descriptor.mapNameOf_inj {a b : String} {i j : IndexId}
    (h : mapNameOf a i = mapNameOf b j) : a = b ∧ i = j := by
  obtain ⟨hab, hij⟩ := append_digits_inj h
  exact ⟨hab, congrArg IndexId.mk (UInt32.toNat_inj.1 hij)⟩

theorem Descriptor.name_eq_of_mapNameOf {a b : String} {i : IndexId} {j : TableId}
    (h : mapNameOf a i = Table.mapNameOf b j) : a = b := (append_digits_inj h).1

namespace Table

variable {t : Table} {s s' : Store} {ix : Index} {before after : List Index}

/-! ### Indexes side by side -/

theorem hasIndex_eq_false_iff {name : String} :
    t.hasIndex name = false ↔ ∀ ix ∈ t.indexes, ix.name ≠ name := by
  rw [hasIndex, List.any_eq_false]
  simp only [beq_iff_eq]

/-- The table with one more index. -/
def withIndex (t : Table) (ix : Index) : Table :=
  { t with indexes := t.indexes ++ [ix], nextIndexId := ⟨t.nextIndexId.word + 1⟩ }

def withIndexes (t : Table) (indexes : List Index) : Table := { t with indexes }

theorem sublist_without (hsplit : t.indexes = before ++ ix :: after) :
    (before ++ after).Sublist t.indexes := by
  rw [hsplit]
  exact (List.sublist_cons_self ix after).append_left before

theorem mem_without (hsplit : t.indexes = before ++ ix :: after) {other : Index}
    (hother : other ∈ t.indexes) (hne : other ≠ ix) : other ∈ before ++ after := by
  rw [hsplit, List.mem_append, List.mem_cons] at hother
  rcases hother with hother | rfl | hother
  · exact List.mem_append_left _ hother
  · exact absurd rfl hne
  · exact List.mem_append_right _ hother

/-- The maps of a table by their names. -/
def maps (t : Table) : List (String × MapId) :=
  (mapNameOf t.name t.id, t.primary) :: t.indexes.map fun ix => (ix.descriptor.mapName, ix.map)

theorem mem_maps_primary : (mapNameOf t.name t.id, t.primary) ∈ t.maps := List.mem_cons_self

theorem mem_maps_of_mem (h : ix ∈ t.indexes) : (ix.descriptor.mapName, ix.map) ∈ t.maps :=
  List.mem_cons_of_mem _ (List.mem_map.2 ⟨ix, h, rfl⟩)

theorem mem_handles_of_mem_maps {e : String × MapId} (h : e ∈ t.maps) :
    e.2 ∈ t.primary :: t.indexes.map Index.map := by
  rcases List.mem_cons.1 h with rfl | h
  · exact List.mem_cons_self
  · obtain ⟨ix, hix, rfl⟩ := List.mem_map.1 h
    exact List.mem_cons_of_mem _ (List.mem_map_of_mem hix)

theorem mem_maps_withIndex {e : String × MapId} :
    e ∈ (t.withIndex ix).maps ↔ e ∈ t.maps ∨ e = (ix.descriptor.mapName, ix.map) := by
  simp [maps, withIndex, or_assoc, eq_comm]

/-- Each index has a map, a name and an id of its own, and the ids keep the order in which the
    indexes were made. -/
structure Distinct (t : Table) : Prop where
  handles_nodup : (t.primary :: t.indexes.map Index.map).Nodup
  names_nodup : (t.indexes.map Index.name).Nodup
  ids_increase : t.indexes.Pairwise fun a b => a.descriptor.id.word < b.descriptor.id.word
  id_lt : ∀ ix ∈ t.indexes, ix.descriptor.id.word < t.nextIndexId.word
  /-- Ids are counted from 1. -/
  length_lt : t.indexes.length < t.nextIndexId.word.toNat

theorem distinct_new (id : TableId) (name : String) (columns : List Column) (primary : MapId)
    (lastRowId : RowId) (config : IndexConfig) :
    (new id name columns primary lastRowId config).Distinct where
  handles_nodup := List.nodup_singleton _
  names_nodup := .nil
  ids_increase := .nil
  id_lt := nofun
  length_lt := Nat.zero_lt_one

/-- The rows have no part in it. -/
theorem Distinct.withLastRowId (h : t.Distinct) (last : RowId) :
    Distinct { t with lastRowId := last } :=
  ⟨h.handles_nodup, h.names_nodup, h.ids_increase, h.id_lt, h.length_lt⟩

theorem Distinct.withIndex (h : t.Distinct) (hid : ix.descriptor.id = t.nextIndexId)
    (hleft : t.nextIndexId.next? ≠ none) (hnew : t.hasIndex ix.name = false)
    (hmap : ix.map ∉ t.primary :: t.indexes.map Index.map) : (t.withIndex ix).Distinct := by
  refine ⟨?handles, ?names, ?ids, ?fresh, ?length⟩
  case handles =>
    rw [Table.withIndex, List.map_append, ← List.cons_append, List.nodup_append]
    refine ⟨h.handles_nodup, List.nodup_singleton _, ?_⟩
    rintro m hm m' hm' rfl
    exact hmap (List.mem_singleton.1 hm' ▸ hm)
  case names =>
    rw [Table.withIndex, List.map_append, List.nodup_append]
    refine ⟨h.names_nodup, List.nodup_singleton _, ?_⟩
    intro name hmem name' hmem' heq
    obtain rfl := List.mem_singleton.1 hmem'
    obtain ⟨ix', hix', rfl⟩ := List.mem_map.1 hmem
    exact hasIndex_eq_false_iff.1 hnew ix' hix' heq
  case ids =>
    refine List.pairwise_append.2 ⟨h.ids_increase, List.pairwise_singleton _ _, ?_⟩
    intro ix' hix' b hb
    rw [List.mem_singleton.1 hb, hid]
    exact h.id_lt ix' hix'
  case fresh =>
    intro ix' hix'
    rcases List.mem_append.1 hix' with hix' | hix'
    · exact UInt32.lt_trans (h.id_lt ix' hix') (IndexId.lt_next hleft)
    · rw [List.mem_singleton.1 hix', hid]
      exact IndexId.lt_next hleft
  case length =>
    show (t.indexes ++ [ix]).length < (t.nextIndexId.word + 1).toNat
    rw [List.length_append, IndexId.toNat_next hleft]
    exact Nat.succ_lt_succ h.length_lt

theorem Distinct.of_sublist (h : t.Distinct) {indexes : List Index}
    (hsub : indexes.Sublist t.indexes) :
    (t.withIndexes indexes).Distinct where
  handles_nodup := ((hsub.map Index.map).cons_cons t.primary).nodup h.handles_nodup
  names_nodup := (hsub.map Index.name).nodup h.names_nodup
  ids_increase := h.ids_increase.sublist hsub
  id_lt ix hix := h.id_lt ix (hsub.mem hix)
  length_lt := hsub.length_le.trans_lt h.length_lt

/-- Another index with the same map and the same id takes the place of one. -/
theorem Distinct.replace (ix' : Index) (h : t.Distinct)
    (hsplit : t.indexes = before ++ ix :: after) (hmap : ix'.map = ix.map)
    (hid : ix'.descriptor.id = ix.descriptor.id) (hname : t.hasIndex ix'.name = false) :
    (t.withIndexes (before ++ ix' :: after)).Distinct := by
  refine ⟨?handles, ?names, ?ids, ?fresh, ?length⟩
  case handles =>
    have hnodup := h.handles_nodup
    rw [hsplit, List.map_append, List.map_cons, ← hmap] at hnodup
    rw [withIndexes, List.map_append, List.map_cons]
    exact hnodup
  case names =>
    have hnot : ix'.name ∉ (before ++ after).map Index.name := by
      intro hin
      obtain ⟨b, hb, heq⟩ := List.mem_map.1 hin
      exact hasIndex_eq_false_iff.1 hname b ((sublist_without hsplit).mem hb) heq
    have hrest : ((before ++ after).map Index.name).Nodup :=
      ((sublist_without hsplit).map Index.name).nodup h.names_nodup
    have hperm :
        ((before ++ ix' :: after).map Index.name).Perm
          (ix'.name :: (before ++ after).map Index.name) :=
      List.perm_middle.map Index.name
    exact hperm.nodup_iff.2 (List.nodup_cons.2 ⟨hnot, hrest⟩)
  case ids =>
    have hids := h.ids_increase
    rw [hsplit, List.pairwise_append, List.pairwise_cons] at hids
    show (before ++ ix' :: after).Pairwise _
    rw [List.pairwise_append, List.pairwise_cons]
    simp only [List.forall_mem_cons, hid] at hids ⊢
    exact hids
  case fresh =>
    have hlt := h.id_lt
    rw [hsplit, List.forall_mem_append, List.forall_mem_cons, ← hid] at hlt
    show ∀ b ∈ before ++ ix' :: after, _
    rw [List.forall_mem_append, List.forall_mem_cons]
    exact hlt
  case length =>
    have hlength := h.length_lt
    rw [hsplit, List.length_append, List.length_cons] at hlength
    show (before ++ ix' :: after).length < _
    rw [List.length_append, List.length_cons]
    exact hlength

/-- A name that no index has is not that of the map of an index. -/
theorem mapName_ne_of_hasIndex {name : String} (hix : ix ∈ t.indexes)
    (hnew : t.hasIndex name = false) (id : IndexId) :
    ix.descriptor.mapName ≠ Descriptor.mapNameOf name id := by
  intro hsame
  exact hasIndex_eq_false_iff.1 hnew ix hix (Descriptor.mapNameOf_inj hsame).1

/-- The map of a new index has a name of its own among those of the table, unless it has that of the
    rows. -/
theorem mapNameOf_free {name : String} {id : IndexId} (hnew : t.hasIndex name = false)
    (hprimary : mapNameOf t.name t.id ≠ Descriptor.mapNameOf name id) :
    ∀ e ∈ t.maps, e.1 ≠ Descriptor.mapNameOf name id := by
  intro e he
  rcases List.mem_cons.1 he with rfl | he
  · exact hprimary
  · obtain ⟨ix, hix, rfl⟩ := List.mem_map.1 he
    exact mapName_ne_of_hasIndex hix hnew id

theorem mapNameOf_free_of_ne {name : String} (hnew : t.hasIndex name = false)
    (hname : name ≠ t.name) (id : IndexId) :
    ∀ e ∈ t.maps, e.1 ≠ Descriptor.mapNameOf name id :=
  mapNameOf_free hnew fun heq => hname (Descriptor.name_eq_of_mapNameOf heq.symm)

theorem Distinct.mem_maps_without (h : t.Distinct) (hsplit : t.indexes = before ++ ix :: after)
    {e : String × MapId} :
    e ∈ (t.withIndexes (before ++ after)).maps ↔ e ∈ t.maps ∧ e.2 ≠ ix.map := by
  have hnodup := h.handles_nodup
  rw [hsplit] at hnodup
  have hperm : (t.primary :: (before ++ ix :: after).map Index.map).Perm
      (ix.map :: t.primary :: (before ++ after).map Index.map) := by
    rw [List.map_append, List.map_append, List.map_cons]
    exact (List.Perm.cons _ List.perm_middle).trans (List.Perm.swap _ _ _)
  have hnot := (List.nodup_cons.1 (hperm.nodup hnodup)).1
  constructor
  · intro he
    refine ⟨?_, fun heq => hnot ?_⟩
    · rcases List.mem_cons.1 he with rfl | he
      · exact mem_maps_primary
      · obtain ⟨ix', hix', rfl⟩ := List.mem_map.1 he
        exact mem_maps_of_mem ((sublist_without hsplit).mem hix')
    · rw [← heq]
      exact mem_handles_of_mem_maps he
  · rintro ⟨he, hne⟩
    rcases List.mem_cons.1 he with rfl | he
    · exact List.mem_cons_self
    · obtain ⟨ix', hix', rfl⟩ := List.mem_map.1 he
      apply mem_maps_of_mem
      apply mem_without hsplit hix'
      rintro rfl
      exact hne rfl

theorem Distinct.mem_maps_replace (ix' : Index) (h : t.Distinct)
    (hsplit : t.indexes = before ++ ix :: after) (hmap : ix'.map = ix.map) {e : String × MapId} :
    e ∈ (t.withIndexes (before ++ ix' :: after)).maps ↔
      e = (ix'.descriptor.mapName, ix.map) ∨ e ∈ t.maps ∧ e.2 ≠ ix.map := by
  rw [← h.mem_maps_without hsplit, ← hmap]
  simp only [maps, withIndexes, List.map_append, List.map_cons, List.mem_cons, List.mem_append]
  tauto

/-! ### Wiring -/

/-- The store has the maps of the table, all open, and no other names. -/
structure Wired (t : Table) (s : Store) : Prop extends t.Distinct where
  directory : ∀ e, e ∈ s.directory.entries ↔ e ∈ t.maps
  isOpen : ∀ e ∈ t.maps, s.isClosed e.2 = false
  named : ∀ e ∈ t.maps, s.nameOf e.2 = e.1

theorem Wired.nodup_maps (h : t.Wired s) : (t.indexes.map Index.map).Nodup :=
  (List.nodup_cons.1 h.handles_nodup).2

theorem Wired.primary_not_mem (h : t.Wired s) : t.primary ∉ t.indexes.map Index.map :=
  (List.nodup_cons.1 h.handles_nodup).1

theorem Wired.of_agree (h : t.Wired s) (hdirectory : s'.directory = s.directory)
    (hmaps : ∀ m, s.isClosed m = false → s'.isClosed m = false ∧ s'.nameOf m = s.nameOf m) :
    t.Wired s' where
  toDistinct := h.toDistinct
  directory e := by rw [hdirectory, h.directory]
  isOpen e he := (hmaps e.2 (h.isOpen e he)).1
  named e he := (hmaps e.2 (h.isOpen e he)).2.trans (h.named e he)

theorem Wired.of_kept (h : t.Wired s) (hdirectory : s'.directory = s.directory)
    (hkept : ∀ m, s.isClosed m = false → s'.state m = s.state m) : t.Wired s' := by
  refine h.of_agree hdirectory ?_
  intro m hm
  rw [Store.isClosed, Store.nameOf, hkept m hm]
  exact ⟨hm, rfl⟩

theorem Wired.withLastRowId (h : t.Wired s) (last : RowId) : Wired { t with lastRowId := last } s :=
  ⟨h.toDistinct.withLastRowId last, h.directory, h.isOpen, h.named⟩

theorem Wired.of_rewrites {changed : List MapId} (h : t.Wired s) (hr : s.Rewrites s' changed) :
    t.Wired s' :=
  h.of_agree hr.directory_eq fun m hm => ⟨(hr.isClosed_eq m).trans hm, hr.nameOf_eq m⟩

theorem wired_fresh (id : TableId) (name : String) (columns : List Column) (config : IndexConfig) :
    (Session.fresh id name columns config).table.Wired
      (Session.fresh id name columns config).store where
  toDistinct := distinct_new ..
  directory _ := .rfl
  isOpen := by
    intro e he
    rw [List.mem_singleton.1 he]
    rfl
  named := by
    intro e he
    rw [List.mem_singleton.1 he]
    rfl

/-! ### New indexes -/

theorem Wired.get?_eq_none (h : t.Wired s) {name : String} (hfree : ∀ e ∈ t.maps, e.1 ≠ name) :
    s.directory.get? name = none := by
  rw [SortedMap.get?_eq_none_iff, SortedMap.mem_keys]
  rintro ⟨m, hm⟩
  exact hfree _ ((h.directory _).1 hm) rfl

/-- One more map is listed, and belongs to the next index. -/
theorem Wired.join (h : t.Wired s) (hid : ix.descriptor.id = t.nextIndexId)
    (hleft : t.nextIndexId.next? ≠ none) (hnew : t.hasIndex ix.name = false)
    (hfree : ∀ e ∈ t.maps, e.1 ≠ ix.descriptor.mapName) (hmap : ∀ e ∈ t.maps, e.2 ≠ ix.map)
    (hdirectory : s'.directory = s.directory.insert ix.descriptor.mapName ix.map)
    (hkept : ∀ e ∈ t.maps, s'.isClosed e.2 = false ∧ s'.nameOf e.2 = e.1)
    (hix : s'.isClosed ix.map = false ∧ s'.nameOf ix.map = ix.descriptor.mapName) :
    (t.withIndex ix).Wired s' := by
  have hnot : ix.map ∉ t.primary :: t.indexes.map Index.map := by
    rw [List.mem_cons, List.mem_map]
    rintro (heq | ⟨ix', hix', heq⟩)
    · exact hmap _ mem_maps_primary heq.symm
    · exact hmap _ (mem_maps_of_mem hix') heq
  refine ⟨h.withIndex hid hleft hnew hnot, ?directory, ?isOpen, ?named⟩
  case directory =>
    intro e
    rw [hdirectory, SortedMap.mem_insert, mem_maps_withIndex, h.directory]
    constructor
    · rintro (he | he)
      · exact .inr he
      · exact .inl he.1
    · rintro (he | he)
      · exact .inr ⟨he, hfree e he⟩
      · exact .inl he
  case isOpen =>
    intro e he
    rcases mem_maps_withIndex.1 he with he | rfl
    · exact (hkept e he).1
    · exact hix.1
  case named =>
    intro e he
    rcases mem_maps_withIndex.1 he with he | rfl
    · exact (hkept e he).2
    · exact hix.2

/-- The map of a new index is made for it. -/
theorem Wired.create (h : t.Wired s) (hid : ix.descriptor.id = t.nextIndexId)
    (hleft : t.nextIndexId.next? ≠ none) (hfree : ∀ e ∈ t.maps, e.1 ≠ ix.descriptor.mapName)
    (hnew : t.hasIndex ix.name = false) (hmap : ix.map = s.made) :
    (t.withIndex ix).Wired (s.openMap ix.descriptor.mapName).2 := by
  have hnone := h.get?_eq_none hfree
  have hne : ∀ e ∈ t.maps, e.2 ≠ ix.map := by
    intro e he
    rw [hmap]
    exact Store.ne_made (h.isOpen e he)
  have hstate (m : MapId) : (s.openMap ix.descriptor.mapName).2.state m =
      if m = ix.map then ⟨ix.descriptor.mapName, .empty, false⟩ else s.state m := by
    rw [Store.state_openMap hnone, hmap]
  refine h.join hid hleft hnew hfree hne ?_ ?_ ?_
  · rw [Store.openMap_of_free hnone, hmap]
  · intro e he
    rw [Store.isClosed, Store.nameOf, hstate, if_neg (hne e he)]
    exact ⟨h.isOpen e he, h.named e he⟩
  · rw [Store.isClosed, Store.nameOf, hstate, if_pos rfl]
    exact ⟨rfl, rfl⟩

/-! ### One index among others -/

theorem Wired.get?_eq_some (h : t.Wired s) {e : String × MapId} (he : e ∈ t.maps) :
    s.directory.get? e.1 = some e.2 := SortedMap.get?_eq_some_iff.2 ((h.directory e).2 he)

theorem Wired.name_eq_iff (h : t.Wired s) {e f : String × MapId} (he : e ∈ t.maps)
    (hf : f ∈ t.maps) :
    e.1 = f.1 ↔ e.2 = f.2 := by
  constructor
  · intro heq
    have hsome := h.get?_eq_some he
    rw [heq, h.get?_eq_some hf] at hsome
    exact (Option.some.inj hsome).symm
  · intro heq
    rw [← h.named e he, ← h.named f hf, heq]

theorem Wired.drop (h : t.Wired s) (hsplit : t.indexes = before ++ ix :: after)
    (hs' : s.removeMap ix.map = .ok s') :
    (t.withIndexes (before ++ after)).Wired s' := by
  have hix : (ix.descriptor.mapName, ix.map) ∈ t.maps := mem_maps_of_mem (by simp [hsplit])
  refine ⟨h.of_sublist (sublist_without hsplit), ?directory, ?isOpen, ?named⟩
  case directory =>
    intro e
    rw [Store.directory_removeMap hs', h.named _ hix, SortedMap.mem_erase, h.directory,
      h.mem_maps_without hsplit]
    exact and_congr_right fun he => not_congr (h.name_eq_iff he hix)
  case isOpen =>
    intro e he
    obtain ⟨he, hne⟩ := (h.mem_maps_without hsplit).1 he
    rw [Store.isClosed, Store.state_removeMap hs', if_neg hne]
    exact h.isOpen e he
  case named =>
    intro e he
    obtain ⟨he, hne⟩ := (h.mem_maps_without hsplit).1 he
    rw [Store.nameOf, Store.state_removeMap hs', if_neg hne]
    exact h.named e he

theorem Wired.rename (ix' : Index) (h : t.Wired s) (hsplit : t.indexes = before ++ ix :: after)
    (hmap : ix'.map = ix.map) (hid : ix'.descriptor.id = ix.descriptor.id)
    (hname : t.hasIndex ix'.name = false) (hfree : s.directory.get? ix'.descriptor.mapName = none)
    (hdirectory : s'.directory = (s.directory.erase ix.descriptor.mapName).insert
      ix'.descriptor.mapName ix.map)
    (hstate : ∀ m, s'.state m = if m =
      ix.map then { s.state ix.map with name := ix'.descriptor.mapName } else s.state m) :
    (t.withIndexes (before ++ ix' :: after)).Wired s' := by
  have hix : (ix.descriptor.mapName, ix.map) ∈ t.maps := mem_maps_of_mem (by simp [hsplit])
  have hmaps (e : String × MapId) := h.mem_maps_replace ix' hsplit hmap (e := e)
  have hnew (e : String × MapId) (he : e ∈ t.maps) : e.1 ≠ ix'.descriptor.mapName := by
    intro heq
    rw [← heq, h.get?_eq_some he] at hfree
    cases hfree
  refine ⟨h.replace ix' hsplit hmap hid hname, ?directory, ?isOpen, ?named⟩
  case directory =>
    intro e
    rw [hdirectory, SortedMap.mem_insert, SortedMap.mem_erase, h.directory, hmaps]
    apply or_congr_right
    constructor
    · rintro ⟨⟨he, hne⟩, -⟩
      exact ⟨he, mt (h.name_eq_iff he hix).2 hne⟩
    · rintro ⟨he, hne⟩
      exact ⟨⟨he, mt (h.name_eq_iff he hix).1 hne⟩, hnew e he⟩
  case isOpen =>
    intro e he
    rw [Store.isClosed, hstate]
    rcases (hmaps e).1 he with rfl | ⟨he, hne⟩
    · rw [if_pos rfl]
      exact h.isOpen _ hix
    · rw [if_neg hne]
      exact h.isOpen e he
  case named =>
    intro e he
    rw [Store.nameOf, hstate]
    rcases (hmaps e).1 he with rfl | ⟨he, hne⟩
    · rw [if_pos rfl]
    · rw [if_neg hne]
      exact h.named e he

end Table
end OrderedIndex
