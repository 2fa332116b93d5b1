/-
  OrderedIndex/Proofs/Directory.lean
  ==================================
  **Names and maps belong together.**

  A store is well listed when a name of its directory leads to a map exactly if the map
  is open and has that name (`Store.WellListed`).  The name is kept twice, in the
  directory and with the map, and each operation on names changes both: opening
  (`WellListed.openMap`), removing (`WellListed.removeMap`) and renaming
  (`WellListed.rename`).  So two open maps never share a name (`WellListed.eq_of_nameOf`).

  The second part is about what a sequence of operations leaves alone: it touches some
  maps only, besides those that it makes (`Store.Touches`).
-/
import OrderedIndex.Proofs.Store

namespace OrderedIndex.Store

variable {s s' s'' : Store} {m m' : MapId} {name : String} {entries : SortedMap Bytes Bytes}

/-! ### Listings -/

/-- A name leads to a map if and only if that map is open and has the name. -/
def WellListed (s : Store) : Prop :=
  ∀ name m, s.directory.get? name = some m ↔ s.isClosed m = false ∧ s.nameOf m = name

theorem wellListed_empty : empty.WellListed := by
  intro name m
  constructor
  · intro h
    cases h
  · rintro ⟨h, -⟩
    cases h

theorem WellListed.get?_nameOf (h : s.WellListed) (hopen : s.isClosed m = false) :
    s.directory.get? (s.nameOf m) = some m := (h _ _).2 ⟨hopen, rfl⟩

theorem WellListed.eq_of_nameOf (h : s.WellListed) (hm : s.isClosed m = false)
    (hm' : s.isClosed m' = false) (hname : s.nameOf m = s.nameOf m') : m = m' := by
  have hget := h.get?_nameOf hm
  rw [hname, h.get?_nameOf hm'] at hget
  exact (Option.some.inj hget).symm

theorem WellListed.of_rewrites {changed : List MapId} (h : s.WellListed)
    (hr : s.Rewrites s' changed) :
    s'.WellListed := by
  intro name m
  rw [hr.directory_eq, hr.isClosed_eq, hr.nameOf_eq]
  exact h name m

/-! ### Opening -/

theorem openMap_of_listed (h : s.directory.get? name = some m) : s.openMap name = (m, s) := by
  rw [openMap, h]

/-- An open map of the name is given, which is new if the name was free. -/
theorem openMap_cases (s : Store) (name : String) :
    (∃ m, s.directory.get? name = some m ∧ s.openMap name = (m, s)) ∨
      s.directory.get? name = none ∧
        s.openMap name =
          (s.made, ⟨s.maps ++ [⟨name, .empty, false⟩], s.directory.insert name s.made⟩) := by
  rcases h : s.directory.get? name with _ | m
  · exact .inr ⟨rfl, openMap_of_free h⟩
  · exact .inl ⟨m, rfl, openMap_of_listed h⟩

theorem index_openMap_lt (h : s.WellListed) (name : String) :
    (s.openMap name).1.index < (s.openMap name).2.maps.length := by
  rcases openMap_cases s name with ⟨m, hget, hopen⟩ | ⟨hfree, hopen⟩
  · rw [hopen]
    exact index_lt_of_isClosed ((h name m).1 hget).1
  · rw [hopen]
    simp [made]

theorem WellListed.openMap (h : s.WellListed) (name : String) : (s.openMap name).2.WellListed := by
  rcases openMap_cases s name with ⟨m, hget, hopen⟩ | ⟨hfree, hopen⟩
  · rw [hopen]
    exact h
  intro n m
  rw [isClosed, nameOf, state_openMap hfree, openMap_of_free hfree,
    SortedMap.get?_eq_some_iff, SortedMap.mem_insert, ← SortedMap.get?_eq_some_iff, h n m,
    Prod.mk.injEq]
  by_cases hm : m = s.made
  · -- the new map was not open before
    subst hm
    have hclosed : s.isClosed s.made = true := isClosed_of_index_ge (Nat.le_refl _)
    rw [if_pos rfl, hclosed]
    constructor
    · rintro (⟨rfl, -⟩ | ⟨⟨hopen, -⟩, -⟩)
      · exact ⟨rfl, rfl⟩
      · cases hopen
    · rintro ⟨-, rfl⟩
      exact .inl ⟨rfl, rfl⟩
  · rw [if_neg hm]
    constructor
    · rintro (⟨-, heq⟩ | ⟨hlisted, -⟩)
      · exact absurd heq hm
      · exact hlisted
    · intro hlisted
      refine .inr ⟨hlisted, ?_⟩
      rintro rfl
      rw [(h n m).2 hlisted] at hfree
      cases hfree

theorem get?_openMap (s : Store) (name : String) :
    (s.openMap name).2.directory.get? name = some (s.openMap name).1 := by
  rcases openMap_cases s name with ⟨m, hget, hopen⟩ | ⟨hfree, hopen⟩
  · rw [hopen]
    exact hget
  · rw [hopen, SortedMap.get?_insert, if_pos rfl]

/-- The map that is given is open, and has the name. -/
theorem WellListed.opened (h : s.WellListed) (name : String) :
    (s.openMap name).2.isClosed (s.openMap name).1 = false ∧
      (s.openMap name).2.nameOf (s.openMap name).1 = name :=
  (h.openMap name _ _).1 (get?_openMap s name)

/-! ### Removing and renaming -/

theorem WellListed.removeMap (h : s.WellListed) (hs' : s.removeMap m = .ok s') : s'.WellListed := by
  have hopen := isClosed_of_removeMap hs'
  intro n m'
  rw [isClosed, nameOf, state_removeMap hs', SortedMap.get?_eq_some_iff,
    directory_removeMap hs', SortedMap.mem_erase, ← SortedMap.get?_eq_some_iff, h n m']
  by_cases hm : m' = m
  · subst hm
    rw [if_pos rfl]
    constructor
    · rintro ⟨⟨-, rfl⟩, hne⟩
      exact absurd rfl hne
    · rintro ⟨hclosed, -⟩
      cases hclosed
  · rw [if_neg hm]
    refine ⟨And.left, fun hlisted => ⟨hlisted, ?_⟩⟩
    rintro rfl
    exact hm (h.eq_of_nameOf hlisted.1 hopen hlisted.2)

theorem WellListed.rename (h : s.WellListed) (hs' : s.rename m name = .ok s') : s'.WellListed := by
  have hopen := isClosed_of_rename hs'
  rcases rename_cases name hopen (h.get?_nameOf hopen) with
    ⟨-, hsame⟩ | ⟨-, herror⟩ | ⟨_, hok, hfree, hdirectory, hstate⟩
  · cases hs'.symm.trans hsame
    exact h
  · cases hs'.symm.trans herror
  · cases hs'.symm.trans hok
    intro n m'
    rw [isClosed, nameOf, hstate, SortedMap.get?_eq_some_iff, hdirectory,
      SortedMap.mem_insert, SortedMap.mem_erase, ← SortedMap.get?_eq_some_iff, h n m',
      Prod.mk.injEq]
    by_cases hm : m' = m
    · -- the map has lost the old name, and the new one was free
      subst hm
      rw [if_pos rfl]
      constructor
      · rintro (⟨rfl, -⟩ | ⟨⟨⟨-, rfl⟩, hold⟩, -⟩)
        · exact ⟨hopen, rfl⟩
        · exact absurd rfl hold
      · rintro ⟨-, rfl⟩
        exact .inl ⟨rfl, rfl⟩
    · rw [if_neg hm]
      constructor
      · rintro (⟨-, heq⟩ | ⟨⟨hlisted, -⟩, -⟩)
        · exact absurd heq hm
        · exact hlisted
      · intro hlisted
        refine .inr ⟨⟨hlisted, ?_⟩, ?_⟩
        · rintro rfl
          exact hm (h.eq_of_nameOf hlisted.1 hopen hlisted.2)
        · rintro rfl
          rw [(h _ _).2 hlisted] at hfree
          cases hfree

/-! ### What is left alone -/

/-- Of the maps that there were, no others than the given ones have changed. -/
structure Touches (s s' : Store) (touched : List MapId) : Prop where
  length_le : s.maps.length ≤ s'.maps.length
  nameOf_eq : ∀ m, m.index < s.maps.length → m ∉ touched → s'.nameOf m = s.nameOf m
  read_eq : ∀ m, m.index < s.maps.length → m ∉ touched → s'.read m = s.read m

variable {touched touched' : List MapId}

theorem Touches.refl (s : Store) (touched : List MapId) : s.Touches s touched :=
  ⟨Nat.le_refl _, fun _ _ _ => rfl, fun _ _ _ => rfl⟩

theorem Touches.trans (h : s.Touches s' touched) (h' : s'.Touches s'' touched) :
    s.Touches s'' touched where
  length_le := h.length_le.trans h'.length_le
  nameOf_eq m hm hnot :=
    (h'.nameOf_eq m (hm.trans_le h.length_le) hnot).trans (h.nameOf_eq m hm hnot)
  read_eq m hm hnot := (h'.read_eq m (hm.trans_le h.length_le) hnot).trans (h.read_eq m hm hnot)

theorem Touches.mono (h : s.Touches s' touched) (hsub : touched ⊆ touched') :
    s.Touches s' touched' where
  length_le := h.length_le
  nameOf_eq m hm hnot := h.nameOf_eq m hm fun hmem => hnot (hsub hmem)
  read_eq m hm hnot := h.read_eq m hm fun hmem => hnot (hsub hmem)

theorem Rewrites.touches (h : s.Rewrites s' touched) : s.Touches s' touched where
  length_le := Nat.le_of_eq h.length_eq.symm
  nameOf_eq m _ _ := h.nameOf_eq m
  read_eq m _ hnot := h.read_eq m hnot

theorem state_openMap_of_lt (hm : m.index < s.maps.length) (name : String) :
    (s.openMap name).2.state m = s.state m := by
  rcases openMap_cases s name with ⟨m', hget, hopen⟩ | ⟨hfree, hopen⟩
  · rw [hopen]
  · rw [state_openMap hfree, if_neg]
    rintro rfl
    exact Nat.lt_irrefl _ hm

theorem touches_openMap (s : Store) (name : String) : s.Touches (s.openMap name).2 [] := by
  refine ⟨?_, fun m hm _ => congrArg MapState.name (state_openMap_of_lt hm name),
    fun m hm _ => read_congr (state_openMap_of_lt hm name)⟩
  rcases openMap_cases s name with ⟨m, hget, hopen⟩ | ⟨hfree, hopen⟩
  · rw [hopen]
  · rw [hopen, List.length_append]
    exact Nat.le_add_right _ _

theorem touches_removeMap (h : s.removeMap m = .ok s') : s.Touches s' [m] := by
  have hstate (m' : MapId) (hm' : m' ∉ [m]) : s'.state m' = s.state m' := by
    rw [state_removeMap h, if_neg (List.ne_of_not_mem_cons hm')]
  exact ⟨Nat.le_of_eq (length_removeMap h).symm,
    fun m' _ hm' => congrArg MapState.name (hstate m' hm'),
    fun m' _ hm' => read_congr (hstate m' hm')⟩

theorem touches_rename (h : s.rename m name = .ok s') : s.Touches s' [m] := by
  obtain ⟨hlength, -, hstate⟩ := rename_eq_ok h
  have hstate (m' : MapId) (hm' : m' ∉ [m]) : s'.state m' = s.state m' := by
    rw [hstate, if_neg (List.ne_of_not_mem_cons hm')]
  exact ⟨Nat.le_of_eq hlength.symm, fun m' _ hm' => congrArg MapState.name (hstate m' hm'),
    fun m' _ hm' => read_congr (hstate m' hm')⟩

/-- A map that is made and filled is not one of those that there were. -/
theorem touches_of_made (hr : (s.openMap name).2.Rewrites s' [s.made]) :
    s.Touches s' [] := by
  have hopened := touches_openMap s name
  have hne (m : MapId) (hm : m.index < s.maps.length) : m ∉ [s.made] := by
    rw [List.mem_singleton]
    rintro rfl
    exact Nat.lt_irrefl _ hm
  have hle : s.maps.length ≤ s'.maps.length := hopened.length_le.trans_eq hr.length_eq.symm
  exact ⟨hle, fun m hm hnot => (hr.nameOf_eq m).trans (hopened.nameOf_eq m hm hnot),
    fun m hm hnot => (hr.read_eq m (hne m hm)).trans (hopened.read_eq m hm hnot)⟩

/-! ### Entries that change -/

theorem rewrites_put {key value : Bytes} {old : Option Bytes}
    (h : s.put m key value = .ok (old, s')) :
    s.Rewrites s' [m] := by
  obtain ⟨entries, hread, heq⟩ := map_eq_ok_iff.1 h
  obtain rfl := (Prod.mk.inj heq).2
  exact rewrites_setEntries (isClosed_of_read hread) _

theorem rewrites_remove {key : Bytes} {old : Option Bytes} (h : s.remove m key = .ok (old, s')) :
    s.Rewrites s' [m] := by
  obtain ⟨entries, hread, heq⟩ := map_eq_ok_iff.1 h
  obtain rfl := (Prod.mk.inj heq).2
  exact rewrites_setEntries (isClosed_of_read hread) _

theorem rewrites_clear (h : s.clear m = .ok s') : s.Rewrites s' [m] := by
  obtain ⟨entries, hread, rfl⟩ := map_eq_ok_iff.1 h
  exact rewrites_setEntries (isClosed_of_read hread) _

end OrderedIndex.Store
