/-
  OrderedIndex/Proofs/Index/Undo.lean
  ===================================
  **A change of all indexes that fails is undone.**

  When an index refuses a row, what was done to the indexes before it is taken back, the
  latest first.  A step back can fail, too, and is then left out.  So all hangs on one
  thing: that a step back leads to the store before the step (`Reversible.back_step`).

    * After an addition it does if the row's entry was not there before.
    * After a removal it does if the entries are guarded: the row's entry kept out every
      other one, so nothing is in the way of it (`restore_setEntries`).

  Given that, the store is the one before whenever an index refuses (`Reversible.of_error`),
  and also when all indexes were changed and are taken back later (`Reversible.foldr_back`).
-/
import OrderedIndex.Proofs.Index.Group
import OrderedIndex.Proofs.Index.Unique

namespace OrderedIndex

/-- All elements of a list have a property, or there is a first one that has not. -/
theorem forall_or_exists_first {α : Type} (p : α → Prop) (l : List α) :
    (∀ a ∈ l, p a) ∨ ∃ before a after, l = before ++ a :: after ∧ (∀ b ∈ before, p b) ∧ ¬p a := by
  induction l with
  | nil =>
    left
    intro a ha
    cases ha
  | cons a l ih =>
    by_cases ha : p a
    · rcases ih with hall | ⟨before, b, after, rfl, hbefore, hb⟩
      · exact .inl (List.forall_mem_cons.2 ⟨ha, hall⟩)
      · exact .inr ⟨a :: before, b, after, rfl, List.forall_mem_cons.2 ⟨ha, hbefore⟩, hb⟩
    · refine .inr ⟨[], a, l, rfl, ?_, ha⟩
      intro b hb
      cases hb

namespace Index

variable {new : Index → Store → Except Error (SortedMap Bytes Bytes)}
  {all : List Index → Store → Except Error Unit × Store} {back : Index → Store → Store}
  {fit : Index → SortedMap Bytes Bytes → Prop}

/-! ### Changes and the way back -/

/-- A sweep that takes back what it did when an index refuses.  The way back is sure for indexes
    with entries that fit. -/
structure Reversible (new : Index → Store → Except Error (SortedMap Bytes Bytes))
    (all : List Index → Store → Except Error Unit × Store) (back : Index → Store → Store)
    (fit : Index → SortedMap Bytes Bytes → Prop) : Prop extends Sweep new all where
  refused : ∀ {ix rest s e}, new ix s = .error e → all (ix :: rest) s = (.error e, s)
  undone : ∀ {ix rest s m e s'}, new ix s = .ok m →
    all rest (s.setEntries ix.map m) = (.error e, s') →
    all (ix :: rest) s = (.error e, back ix s')
  back_step : ∀ {ix s m m'}, s.read ix.map = .ok m → fit ix m → new ix s = .ok m' →
    back ix (s.setEntries ix.map m') = s

/-- The entries of each index that is open fit. -/
def AllFit (fit : Index → SortedMap Bytes Bytes → Prop) (ixs : List Index) (s : Store) : Prop :=
  ∀ ix ∈ ixs, ∀ m, s.read ix.map = .ok m → fit ix m

variable {ixs before after : List Index} {ix : Index} {s s' : Store} {m : SortedMap Bytes Bytes}
  {e : Error}

theorem AllFit.of_step (h : AllFit fit (ix :: ixs) s) (hopen : s.isClosed ix.map = false)
    (hix : ix.map ∉ ixs.map Index.map) : AllFit fit ixs (s.setEntries ix.map m) := by
  intro ix' hix' m' hread
  rw [read_setEntries_of_not_mem hopen hix ix' hix'] at hread
  exact h ix' (List.mem_cons_of_mem _ hix') m' hread

theorem Reversible.back_of_fit (h : Reversible new all back fit) (hfit : AllFit fit (ix :: ixs) s)
    (hnew : new ix s = .ok m) : back ix (s.setEntries ix.map m) = s := by
  have hread : s.read ix.map = .ok (s.state ix.map).entries :=
    Store.read_eq_ok_iff.2 ⟨h.isOpen hnew, rfl⟩
  exact h.back_step hread (hfit ix List.mem_cons_self _ hread) hnew

/-- **The first index that refuses gives the fault, and nothing has changed.** -/
theorem Reversible.of_error (h : Reversible new all back fit)
    (hnodup : ((before ++ [ix]).map Index.map).Nodup) (hfit : AllFit fit before s)
    (hbefore : ∀ b ∈ before, ∃ m, new b s = .ok m) (hrefused : new ix s = .error e) :
    all (before ++ ix :: after) s = (.error e, s) := by
  induction before generalizing s with
  | nil => exact h.refused hrefused
  | cons b before ih =>
    rw [List.cons_append, List.map_cons, List.nodup_cons] at hnodup
    obtain ⟨⟨m, hm⟩, hbefore⟩ := List.forall_mem_cons.1 hbefore
    have hopen := h.isOpen hm
    have hsame (ix' : Index) (hix' : ix' ∈ before ++ [ix]) :
        new ix' (s.setEntries b.map m) = new ix' s :=
      h.congr (read_setEntries_of_not_mem hopen hnodup.1 ix' hix')
    have hb : b.map ∉ before.map Index.map := fun hin =>
      hnodup.1 ((List.sublist_append_left before [ix]).map Index.map |>.mem hin)
    have hrest := ih hnodup.2 (hfit.of_step hopen hb)
      (fun b' hb' => by rw [hsame b' (List.mem_append_left _ hb')]; exact hbefore b' hb')
      (by rw [hsame ix (by simp)]; exact hrefused)
    rw [List.cons_append, h.undone hm hrest, h.back_of_fit hfit hm]

/-- When all indexes have been changed, the way back leads through them in the opposite order. -/
theorem Reversible.foldr_back (h : Reversible new all back fit)
    (hnodup : (ixs.map Index.map).Nodup) (hfit : AllFit fit ixs s)
    (hnew : ∀ ix ∈ ixs, ∃ m, new ix s = .ok m) (hall : all ixs s = (.ok (), s')) :
    ixs.foldr back s' = s := by
  induction ixs generalizing s with
  | nil =>
    rw [h.nil] at hall
    exact (Prod.mk.inj hall).2.symm
  | cons ix rest ih =>
    rw [List.map_cons, List.nodup_cons] at hnodup
    obtain ⟨⟨m, hm⟩, hrest⟩ := List.forall_mem_cons.1 hnew
    have hopen := h.isOpen hm
    have hrest : ∀ ix' ∈ rest, ∃ m', new ix' (s.setEntries ix.map m) = .ok m' := by
      intro ix' hix'
      rw [h.congr (read_setEntries_of_not_mem hopen hnodup.1 ix' hix')]
      exact hrest ix' hix'
    obtain ⟨s'', hall', -⟩ := h.of_ok hnodup.2 hrest
    rw [h.cons hm hall'] at hall
    obtain rfl := (Prod.mk.inj hall).2
    rw [List.foldr_cons, ih hnodup.2 (hfit.of_step hopen hnodup.1) hrest hall',
      h.back_of_fit hfit hm]

/-- Either an index refuses, and nothing has changed, or all are changed, and there is a way
    back. -/
theorem Reversible.cases (h : Reversible new all back fit) (hnodup : (ixs.map Index.map).Nodup)
    (hfit : AllFit fit ixs s) :
    (∃ ix ∈ ixs, ∃ e, new ix s = .error e ∧ all ixs s = (.error e, s)) ∨
      (∀ ix ∈ ixs, ∃ m, new ix s = .ok m) ∧ ∃ s', all ixs s = (.ok (), s') ∧
        s.Rewrites s' (ixs.map Index.map) ∧
        (∀ ix ∈ ixs, ∀ m, new ix s = .ok m → s'.read ix.map = .ok m) ∧ ixs.foldr back s' = s := by
  rcases forall_or_exists_first (fun ix => ∃ m, new ix s = .ok m) ixs with
    hnew | ⟨before, ix, after, rfl, hbefore, hix⟩
  · obtain ⟨s', hall, hr, hreads⟩ := h.of_ok hnodup hnew
    exact .inr ⟨hnew, s', hall, hr, hreads, h.foldr_back hnodup hfit hnew hall⟩
  · rcases hrefused : new ix s with e | m
    · refine .inl ⟨ix, by simp, e, hrefused, h.of_error ?_ ?_ hbefore hrefused⟩
      · have hsub : (before ++ [ix]).Sublist (before ++ ix :: after) := by simp
        exact (hsub.map Index.map).nodup hnodup
      · intro b hb
        exact hfit b (List.mem_append_left _ hb)
    · exact absurd ⟨m, hrefused⟩ hix

/-- When all indexes have been changed, each of them could be. -/
theorem Reversible.exists_new (h : Reversible new all back fit) (hnodup : (ixs.map Index.map).Nodup)
    (hall : all ixs s = (.ok (), s')) : ∀ ix ∈ ixs, ∃ m, new ix s = .ok m := by
  induction ixs generalizing s s' with
  | nil => nofun
  | cons ix rest ih =>
    rw [List.map_cons, List.nodup_cons] at hnodup
    rcases hnew : new ix s with e | m
    · cases (h.refused hnew).symm.trans hall
    rcases hrest : all rest (s.setEntries ix.map m) with ⟨e | ⟨⟩, s''⟩
    · cases (h.undone hnew hrest).symm.trans hall
    refine List.forall_mem_cons.2 ⟨⟨m, hnew⟩, ?_⟩
    intro ix' hix'
    have hsame := read_setEntries_of_not_mem (h.isOpen hnew) hnodup.1 (m := m) ix' hix'
    rw [← h.congr hsame]
    exact ih hnodup.2 hrest ix' hix'

/-- Each index then has the entries that it would have got alone. -/
theorem Reversible.read_of_ok (h : Reversible new all back fit)
    (hnodup : (ixs.map Index.map).Nodup) (hall : all ixs s = (.ok (), s')) {ix : Index}
    (hix : ix ∈ ixs) : ∃ m, new ix s = .ok m ∧ s'.read ix.map = .ok m := by
  have hnew := h.exists_new hnodup hall
  obtain ⟨m, hm⟩ := hnew ix hix
  obtain ⟨s'', hall', -, hread⟩ := h.of_ok hnodup hnew
  cases hall.symm.trans hall'
  exact ⟨m, hm, hread ix hix m hm⟩

/-! ### Adding and removing a row -/

variable {row : Row}

/-- The entry of a row can be taken back if it is new. -/
theorem reversible_addToAll (row : Row) :
    Reversible (fun ix s => ix.entriesWith s row) (addToAll row)
      (fun ix s => ix.withdraw s row) (fun ix m => ∀ key, ix.layout.encode row = .ok key →
        key ∉ m.keys) where
  toSweep := sweep_addToAll row
  refused {ix rest s e} hrefused := by
    simp only [addToAll, add_eq, hrefused, map_error]
  undone {ix rest s m e s'} hm hrest := by
    simp only [addToAll, add_eq, hm, map_ok, hrest]
  back_step {ix s m m'} hread hfit hm' := by
    obtain ⟨key, entries, hkey, hread', rfl⟩ := entriesWith_eq_ok hm'
    cases hread.symm.trans hread'
    exact withdraw_setEntries hread hkey (hfit key hkey)

/-- An entry that was taken out of guarded entries goes in again. -/
theorem restore_setEntries {key : Bytes} (hread : s.read ix.map = .ok m) (h : ix.Guarded m)
    (hkey : ix.layout.encode row = .ok key) (hmem : key ∈ m.keys) :
    ix.restore (s.setEntries ix.map (m.erase key)) row = s := by
  have hopen := Store.isClosed_of_read hread
  have hread' := Store.read_setEntries_self hopen (m.erase key)
  have hbound : (key, []) ∈ m.entries := by
    obtain ⟨v, hv⟩ := SortedMap.mem_keys.1 hmem
    obtain rfl : v = [] := h.value _ hv
    exact hv
  unfold restore
  rw [add_eq]
  rcases entriesWith_cases hread' (h.of_subset (m.erase_subset key)).keysOfRows row with
    ⟨e, herror, -⟩ | ⟨key', hkey', -, hok⟩ | ⟨hunique, -, r, hr, hforbids, -⟩
  · cases hkey.symm.trans herror
  · cases hkey.symm.trans hkey'
    simp only [hok, map_ok, SortedMap.insert_erase hbound, Store.setEntries_setEntries hopen]
    exact Store.setEntries_of_read hread
  · -- an entry in the way would have kept the row out before
    have hid := h.unique hunique r row (hr.mono (m.erase_subset key)) ⟨key, hmem, hkey⟩ hforbids
    rw [← hforbids.1.symm.encode_eq hid] at hkey
    exact absurd hr (KeyLayout.not_holds_erase hkey)

/-- The entry of a row can be put back if the entries are guarded. -/
theorem reversible_removeFromAll (row : Row) :
    Reversible (fun ix s => ix.entriesWithout s row) (removeFromAll row)
      (fun ix s => ix.restore s row) Guarded where
  toSweep := sweep_removeFromAll row
  refused {ix rest s e} hrefused := by
    simp only [removeFromAll, remove_eq, hrefused, map_error]
  undone {ix rest s m e s'} hm hrest := by
    simp only [removeFromAll, remove_eq, hm, map_ok, hrest]
  back_step {ix s m m'} hread hfit hm' := by
    obtain ⟨key, entries, hkey, hread', hmem, rfl⟩ := entriesWithout_eq_ok hm'
    cases hread.symm.trans hread'
    exact restore_setEntries hread hfit hkey hmem

end Index
end OrderedIndex
