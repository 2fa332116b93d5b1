/-
  OrderedIndex/Proofs/Store.lean
  ==============================
  **The laws of the store.**

  What an operation does is said in terms of the state behind each handle: it changes
  the state behind one handle and leaves every other one alone.  An open map is one
  that the store has made, so a map made later is a different one (`ne_made`).

  Two relations say what several operations do together: `Rewrites` when they change the
  entries of certain maps only, and `Shrinks` when they remove entries and maps only.
-/
import OrderedIndex.Proofs.Outcome
import OrderedIndex.Proofs.SortedMap
import OrderedIndex.Store.Basic

namespace OrderedIndex.Store

variable {s s' : Store} {m m' : MapId} {entries entries' : SortedMap Bytes Bytes} {name : String}

theorem read_eq_ok_iff :
    s.read m = .ok entries ↔ s.isClosed m = false ∧ (s.state m).entries = entries := by
  rw [read]
  cases s.isClosed m <;> simp

theorem isClosed_of_read (h : s.read m = .ok entries) : s.isClosed m = false :=
  (read_eq_ok_iff.1 h).1

theorem read_congr (h : s'.state m' = s.state m) : s'.read m' = s.read m := by
  unfold read isClosed nameOf
  rw [h]

/-- What the open maps hold is still read when their states are kept. -/
theorem read_of_kept (hkept : ∀ m, s.isClosed m = false → s'.state m = s.state m)
    (h : s.read m = .ok entries) :
    s'.read m = .ok entries :=
  (read_congr (hkept m (isClosed_of_read h))).trans h

theorem index_lt_of_isClosed (h : s.isClosed m = false) : m.index < s.maps.length := by
  apply Nat.not_le.1
  intro hle
  rw [isClosed, state, List.getD_eq_getElem?_getD, List.getElem?_eq_none hle] at h
  cases h

/-! ### Changing one map -/

theorem state_modify (h : s.isClosed m = false) (f : MapState → MapState)
    (directory : SortedMap String MapId) (m' : MapId) :
    state ⟨s.maps.modify m.index f, directory⟩ m' = if m' = m then f (s.state m)
      else s.state m' := by
  have hlt := index_lt_of_isClosed h
  simp only [state, List.getD_eq_getElem?_getD, List.getElem?_modify]
  by_cases hm : m' = m
  · simp [hm, hlt]
  · have hi : m.index ≠ m'.index := fun hi => hm (by cases m; cases m'; simp_all)
    simp [hm, hi]

theorem ext_state (hs : ∀ m, s'.state m = s.state m) (hl : s'.maps.length = s.maps.length)
    (hd : s'.directory = s.directory) : s' = s := by
  have hmaps : s'.maps = s.maps := by
    apply List.ext_getElem hl
    intro i h' h
    have hi := hs ⟨i⟩
    simpa [state, List.getD_eq_getElem?_getD, h, h'] using hi
  cases s
  cases s'
  simp_all

/-! ### Entries -/

theorem state_setEntries (h : s.isClosed m = false) (m' : MapId) :
    (s.setEntries m entries).state m' = if m' = m then { s.state m with entries } else s.state m' :=
  state_modify h _ _ m'

@[simp] theorem directory_setEntries : (s.setEntries m entries).directory = s.directory := rfl

@[simp] theorem length_setEntries : (s.setEntries m entries).maps.length = s.maps.length :=
  List.length_modify ..

theorem nameOf_setEntries (h : s.isClosed m = false) (m' : MapId) :
    (s.setEntries m entries).nameOf m' = s.nameOf m' := by
  rw [nameOf, nameOf, state_setEntries h]
  split
  · rename_i hm; rw [hm]
  · rfl

theorem isClosed_setEntries (h : s.isClosed m = false) (entries : SortedMap Bytes Bytes)
    (m' : MapId) :
    (s.setEntries m entries).isClosed m' = s.isClosed m' := by
  rw [isClosed, isClosed, state_setEntries h]
  split
  · rename_i hm; rw [hm]
  · rfl

theorem read_setEntries_self (h : s.isClosed m = false) (entries : SortedMap Bytes Bytes) :
    (s.setEntries m entries).read m = .ok entries := by
  rw [read_eq_ok_iff, isClosed_setEntries h, state_setEntries h, if_pos rfl]
  exact ⟨h, rfl⟩

theorem read_setEntries_ne (h : s.isClosed m = false) (hm : m' ≠ m) :
    (s.setEntries m entries).read m' = s.read m' := by
  apply read_congr
  rw [state_setEntries h, if_neg hm]

theorem setEntries_setEntries (h : s.isClosed m = false) :
    (s.setEntries m entries).setEntries m entries' = s.setEntries m entries' := by
  have h' := (isClosed_setEntries h entries m).trans h
  refine ext_state ?_ (by simp) rfl
  intro m'
  rw [state_setEntries h', state_setEntries h, state_setEntries h, state_setEntries h, if_pos rfl]
  split <;> rfl

theorem setEntries_of_read (h : s.read m = .ok entries) : s.setEntries m entries = s := by
  obtain ⟨hc, he⟩ := read_eq_ok_iff.1 h
  refine ext_state ?_ (by simp) rfl
  intro m'
  rw [state_setEntries hc]
  split
  · rename_i hm; rw [hm, ← he]
  · rfl

/-! ### Changing several maps -/

/-- The stores have the same maps under the same names, and no other entries but in the given
    maps. -/
structure Rewrites (s s' : Store) (changed : List MapId) : Prop where
  length_eq : s'.maps.length = s.maps.length
  directory_eq : s'.directory = s.directory
  nameOf_eq : ∀ m, s'.nameOf m = s.nameOf m
  isClosed_eq : ∀ m, s'.isClosed m = s.isClosed m
  read_eq : ∀ m, m ∉ changed → s'.read m = s.read m

theorem Rewrites.refl (s : Store) (changed : List MapId) : s.Rewrites s changed :=
  ⟨rfl, rfl, fun _ => rfl, fun _ => rfl, fun _ _ => rfl⟩

theorem Rewrites.trans {s'' : Store} {changed : List MapId} (h : s.Rewrites s' changed)
    (h' : s'.Rewrites s'' changed) :
    s.Rewrites s'' changed where
  length_eq := h'.length_eq.trans h.length_eq
  directory_eq := h'.directory_eq.trans h.directory_eq
  nameOf_eq m := (h'.nameOf_eq m).trans (h.nameOf_eq m)
  isClosed_eq m := (h'.isClosed_eq m).trans (h.isClosed_eq m)
  read_eq m hm := (h'.read_eq m hm).trans (h.read_eq m hm)

theorem Rewrites.mono {changed changed' : List MapId} (h : s.Rewrites s' changed)
    (hsub : changed ⊆ changed') :
    s.Rewrites s' changed' :=
  { h with read_eq := fun m hm => h.read_eq m fun hmem => hm (hsub hmem) }

theorem rewrites_setEntries (h : s.isClosed m = false) (entries : SortedMap Bytes Bytes) :
    s.Rewrites (s.setEntries m entries) [m] where
  length_eq := length_setEntries
  directory_eq := rfl
  nameOf_eq := nameOf_setEntries h
  isClosed_eq := isClosed_setEntries h entries
  read_eq _ hm' := read_setEntries_ne h (List.ne_of_not_mem_cons hm')

/-! ### Opening and removing maps -/

theorem isClosed_of_index_ge (h : s.maps.length ≤ m.index) : s.isClosed m = true := by
  rw [isClosed, state, List.getD_eq_getElem?_getD, List.getElem?_eq_none h]
  rfl

def made (s : Store) : MapId := ⟨s.maps.length⟩

theorem ne_made (h : s.isClosed m = false) : m ≠ s.made := by
  rintro rfl
  have hclosed : s.isClosed s.made = true := isClosed_of_index_ge (Nat.le_refl _)
  rw [h] at hclosed
  cases hclosed

theorem hasMap_eq_true_iff : s.hasMap name = true ↔ name ∈ s.directory.keys := by
  rw [hasMap, SortedMap.contains, Option.isSome_iff_ne_none, ne_eq,
    SortedMap.get?_eq_none_iff, not_not]

theorem hasMap_eq_false_iff : s.hasMap name = false ↔ s.directory.get? name = none := by
  rw [hasMap, SortedMap.contains, Option.isSome_eq_false_iff, Option.isNone_iff_eq_none]

theorem openMap_of_free (h : s.directory.get? name = none) :
    s.openMap name =
      (s.made, ⟨s.maps ++ [⟨name, .empty, false⟩], s.directory.insert name s.made⟩) := by
  rw [openMap, h]
  rfl

theorem state_openMap (h : s.directory.get? name = none) (m : MapId) :
    (s.openMap name).2.state m = if m = s.made then ⟨name, .empty, false⟩ else s.state m := by
  rw [openMap_of_free h]
  simp only [state, List.getD_eq_getElem?_getD]
  by_cases hm : m = s.made
  · simp [hm, made]
  · rw [if_neg hm]
    by_cases hi : m.index < s.maps.length
    · rw [List.getElem?_append_left hi]
    · -- beyond the new map there is nothing either
      have hlt : s.maps.length < m.index :=
        Nat.lt_of_le_of_ne (Nat.not_lt.1 hi) fun he => hm (by cases m; simp_all [made])
      rw [List.getElem?_eq_none (by simp; omega), List.getElem?_eq_none (Nat.not_lt.1 hi)]

theorem read_openMap_of_ne (h : s.directory.get? name = none) (hm : m ≠ s.made) :
    (s.openMap name).2.read m = s.read m := by
  apply read_congr
  rw [state_openMap h, if_neg hm]

theorem state_openMap_of_isOpen (h : s.directory.get? name = none) (m : MapId)
    (hm : s.isClosed m = false) :
    (s.openMap name).2.state m = s.state m := by
  rw [state_openMap h, if_neg (ne_made hm)]

theorem read_openMap_made (h : s.directory.get? name = none) :
    (s.openMap name).2.read s.made = .ok .empty := by
  rw [read_eq_ok_iff, isClosed, state_openMap h, if_pos rfl]
  exact ⟨rfl, rfl⟩

theorem state_removeMap (h : s.removeMap m = .ok s') (m' : MapId) :
    s'.state m' = if m' = m then { s.state m with entries := .empty, closed := true }
      else s.state m' := by
  rw [removeMap] at h
  split at h
  · cases h
  · rename_i hc
    obtain rfl := Except.ok.inj h
    exact state_modify (Bool.eq_false_iff.2 hc) _ _ m'

theorem length_removeMap (h : s.removeMap m = .ok s') : s'.maps.length = s.maps.length := by
  unfold removeMap at h
  split at h
  · cases h
  · cases h
    exact List.length_modify ..

theorem directory_removeMap (h : s.removeMap m = .ok s') :
    s'.directory = s.directory.erase (s.nameOf m) := by
  rw [removeMap] at h
  split at h
  · cases h
  · obtain rfl := Except.ok.inj h
    rfl

theorem isClosed_of_removeMap (h : s.removeMap m = .ok s') : s.isClosed m = false := by
  rw [removeMap] at h
  split at h
  · cases h
  · rename_i hclosed
    exact Bool.eq_false_iff.2 hclosed

theorem exists_removeMap (h : s.isClosed m = false) : ∃ s', s.removeMap m = .ok s' := by
  rw [removeMap, h]
  exact ⟨_, rfl⟩

/-- A map that is made and removed again leaves the names and the open maps as they were. -/
theorem removeMap_openMap (hfree : s.directory.get? name = none)
    (h : (s.openMap name).2.removeMap s.made = .ok s') :
    s'.directory = s.directory ∧ ∀ m, s.isClosed m = false → s'.state m = s.state m := by
  constructor
  · have hname : (s.openMap name).2.nameOf s.made = name := by
      rw [nameOf, state_openMap hfree, if_pos rfl]
    rw [directory_removeMap h, hname, openMap_of_free hfree]
    exact SortedMap.erase_insert (SortedMap.get?_eq_none_iff.1 hfree)
  · intro m hm
    rw [state_removeMap h, if_neg (ne_made hm), state_openMap_of_isOpen hfree m hm]

/-! ### Losing entries -/

/-- No open map has entries that it had not before, and no name is new. -/
structure Shrinks (s s' : Store) : Prop where
  length_le : s.maps.length ≤ s'.maps.length
  names : s'.directory.keys ⊆ s.directory.keys
  read : ∀ m entries', s'.read m = .ok entries' → ∃ entries, s.read m = .ok entries ∧
    entries'.entries ⊆ entries.entries

theorem Shrinks.refl (s : Store) : s.Shrinks s :=
  ⟨Nat.le_refl _, List.Subset.refl _, fun _ entries h => ⟨entries, h, List.Subset.refl _⟩⟩

theorem Shrinks.trans {s'' : Store} (h : s.Shrinks s') (h' : s'.Shrinks s'') : s.Shrinks s'' where
  length_le := Nat.le_trans h.length_le h'.length_le
  names := List.Subset.trans h'.names h.names
  read m entries'' hread := by
    obtain ⟨entries', hread', hsub'⟩ := h'.read m entries'' hread
    obtain ⟨entries, hread, hsub⟩ := h.read m entries' hread'
    exact ⟨entries, hread, List.Subset.trans hsub' hsub⟩

theorem Rewrites.shrinks {changed : List MapId} (h : s.Rewrites s' changed)
    (hread : ∀ m ∈ changed, ∀ entries', s'.read m = .ok entries' →
      ∃ entries, s.read m = .ok entries ∧ entries'.entries ⊆ entries.entries) : s.Shrinks s' where
  length_le := Nat.le_of_eq h.length_eq.symm
  names := by
    rw [h.directory_eq]
    exact List.Subset.refl _
  read m entries' hread' := by
    by_cases hm : m ∈ changed
    · exact hread m hm entries' hread'
    · rw [h.read_eq m hm] at hread'
      exact ⟨entries', hread', List.Subset.refl _⟩

theorem shrinks_setEntries (h : s.read m = .ok entries)
    (hsub : entries'.entries ⊆ entries.entries) :
    s.Shrinks (s.setEntries m entries') := by
  have hopen := isClosed_of_read h
  apply (rewrites_setEntries hopen entries').shrinks
  intro m' hm' entries'' hread
  obtain rfl := List.mem_singleton.1 hm'
  rw [read_setEntries_self hopen] at hread
  cases hread
  exact ⟨entries, h, hsub⟩

theorem shrinks_remove {key : Bytes} {old : Option Bytes} (h : s.remove m key = .ok (old, s')) :
    s.Shrinks s' := by
  obtain ⟨entries, hread, heq⟩ := map_eq_ok_iff.1 h
  obtain rfl := (Prod.mk.inj heq).2
  exact shrinks_setEntries hread (entries.erase_subset key)

theorem shrinks_clear (h : s.clear m = .ok s') : s.Shrinks s' := by
  obtain ⟨entries, hread, rfl⟩ := map_eq_ok_iff.1 h
  exact shrinks_setEntries hread (List.nil_subset _)

theorem read_removeMap (h : s.removeMap m = .ok s') (hread : s'.read m' = .ok entries) :
    m' ≠ m ∧ s.read m' = .ok entries := by
  have hstate := state_removeMap h m'
  by_cases hm : m' = m
  · rw [if_pos hm] at hstate
    have hopen := isClosed_of_read hread
    rw [isClosed, hstate] at hopen
    cases hopen
  · rw [if_neg hm] at hstate
    exact ⟨hm, (read_congr hstate).symm.trans hread⟩

theorem shrinks_removeMap (h : s.removeMap m = .ok s') : s.Shrinks s' where
  length_le := Nat.le_of_eq (length_removeMap h).symm
  names := by
    intro k hk
    rw [directory_removeMap h] at hk
    exact (SortedMap.mem_keys_erase.1 hk).1
  read m' entries' hread := ⟨entries', (read_removeMap h hread).2, List.Subset.refl _⟩

/-- So does making a map and removing it again. -/
theorem shrinks_removeMap_openMap (hfree : s.directory.get? name = none)
    (h : (s.openMap name).2.removeMap s.made = .ok s') : s.Shrinks s' where
  length_le := by
    rw [length_removeMap h, openMap_of_free hfree, List.length_append]
    exact Nat.le_add_right _ _
  names := by
    rw [(removeMap_openMap hfree h).1]
    exact List.Subset.refl _
  read m' entries' hread := by
    obtain ⟨hne, hread⟩ := read_removeMap h hread
    exact ⟨entries', (read_openMap_of_ne hfree hne).symm.trans hread, List.Subset.refl _⟩

/-! ### Renaming maps -/

/-- A map is renamed if the new name is its own or free. -/
theorem rename_cases (name : String) (hopen : s.isClosed m = false)
    (hlisted : s.directory.get? (s.nameOf m) = some m) :
    (s.nameOf m = name ∧ s.rename m name = .ok s) ∨
      (s.hasMap name = true ∧ s.rename m name = .error (.mapExists name)) ∨
      ∃ s', s.rename m name = .ok s' ∧ s.directory.get? name = none ∧
        s'.directory = (s.directory.erase (s.nameOf m)).insert name m ∧
        ∀ m', s'.state m' = if m' = m then { s.state m with name } else s.state m' := by
  by_cases hold : s.nameOf m = name
  · refine .inl ⟨hold, ?_⟩
    simp [rename, hopen, hold]
  · by_cases hhas : s.hasMap name = true
    · refine .inr (.inl ⟨hhas, ?_⟩)
      simp [rename, hopen, hold, hhas]
    · have hrename : s.rename m name = .ok ⟨s.maps.modify m.index fun st => { st with name },
          (s.directory.erase (s.nameOf m)).insert name m⟩ := by
        rw [rename, hopen, if_neg Bool.false_ne_true, if_neg hold, if_neg hhas, hlisted]
      have hfree : s.directory.get? name = none :=
        hasMap_eq_false_iff.1 (Bool.eq_false_of_not_eq_true hhas)
      exact .inr (.inr ⟨_, hrename, hfree, rfl, state_modify hopen _ _⟩)

theorem isClosed_of_rename (h : s.rename m name = .ok s') : s.isClosed m = false := by
  rw [rename] at h
  rcases hclosed : s.isClosed m with _ | _
  · rfl
  · simp [hclosed] at h

/-- A map that gets a name other than its own is listed under the new one instead of the old one. -/
theorem rename_eq_ok_of_ne (h : s.rename m name = .ok s')
    (hlisted : s.directory.get? (s.nameOf m) = some m) (hne : s.nameOf m ≠ name) :
    s.directory.get? name = none ∧
      s'.directory = (s.directory.erase (s.nameOf m)).insert name m ∧
        ∀ m', s'.state m' = if m' = m then { s.state m with name } else s.state m' := by
  rcases rename_cases name (isClosed_of_rename h) hlisted with
    ⟨hold, -⟩ | ⟨-, herror⟩ | ⟨_, hok, hfree, hdirectory, hstate⟩
  · exact absurd hold hne
  · cases h.symm.trans herror
  · cases h.symm.trans hok
    exact ⟨hfree, hdirectory, hstate⟩

theorem rename_eq_error {e : StoreError} (h : s.rename m name = .error e) :
    (s.isClosed m = true ∧ e = .closed (s.nameOf m)) ∨
      s.isClosed m = false ∧ s.hasMap name = true ∧ e = .mapExists name := by
  unfold rename at h
  dsimp only at h
  split at h
  · rename_i hclosed
    exact .inl ⟨hclosed, (Except.error.inj h).symm⟩
  rename_i hopen
  split at h
  · cases h
  split at h
  · rename_i htaken
    exact .inr ⟨Bool.eq_false_iff.2 hopen, htaken, (Except.error.inj h).symm⟩
  · cases h

/-- What a renaming does, whichever handle the old name leads to. -/
theorem rename_eq_ok (h : s.rename m name = .ok s') : s'.maps.length = s.maps.length ∧
    (∀ k ∈ s'.directory.keys, k = name ∨ k ∈ s.directory.keys) ∧
      ∀ m', s'.state m' = if m' = m then { s.state m with name } else s.state m' := by
  by_cases hclosed : s.isClosed m = true
  · simp [rename, hclosed] at h
  by_cases hold : s.nameOf m = name
  · obtain rfl : s = s' := by simpa [rename, hclosed, hold] using h
    refine ⟨rfl, fun k hk => .inr hk, ?_⟩
    intro m'
    split
    · rename_i hm
      rw [hm, ← hold]
      rfl
    · rfl
  by_cases hhas : s.hasMap name = true
  · simp [rename, hclosed, hold, hhas] at h
  simp only [rename, if_neg hclosed, if_neg hold, if_neg hhas, Except.ok.injEq] at h
  subst h
  refine ⟨List.length_modify .., ?_, state_modify (Bool.eq_false_iff.2 hclosed) _ _⟩
  intro k hk
  dsimp only at hk
  split at hk
  · exact .inr hk
  · rcases SortedMap.mem_keys_insert.1 hk with rfl | hk
    · exact .inl rfl
    · exact .inr (SortedMap.mem_keys_erase.1 hk).1

/-- A new name does not change what a map holds. -/
theorem read_renamed_iff {k : MapId}
    (hstate : ∀ m', s'.state m' = if m' = m then { s.state m with name } else s.state m') :
    s'.read k = .ok entries ↔ s.read k = .ok entries := by
  rw [read_eq_ok_iff, read_eq_ok_iff, isClosed, isClosed, hstate]
  split
  · rename_i hk
    rw [hk]
  · rfl

theorem read_renamed (h : s.rename m name = .ok s') (m' : MapId) : s'.read m' = s.read m' := by
  have hstate := (rename_eq_ok h).2.2
  by_cases hm : m' = m
  · subst hm
    have hread : s.read m' = .ok (s.state m').entries :=
      read_eq_ok_iff.2 ⟨isClosed_of_rename h, rfl⟩
    rw [hread]
    exact (read_renamed_iff hstate).2 hread
  · apply read_congr
    rw [hstate, if_neg hm]

end OrderedIndex.Store
