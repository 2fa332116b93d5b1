/-
  OrderedIndex/Proofs/Index/Group.lean
  ====================================
  **Changing all indexes of a table.**

  Adding a row, removing it and clearing go through the indexes one after the other, and
  what is done to an index depends on its own map.  So if each index can be changed, all
  are, and each as if it were the only one (`Sweep.of_ok`).
-/
import OrderedIndex.Proofs.Index.Entries

namespace OrderedIndex.Index

variable {new : Index → Store → Except Error (SortedMap Bytes Bytes)}
  {all : List Index → Store → Except Error Unit × Store}

/-- The indexes get new entries one after the other. -/
structure Sweep (new : Index → Store → Except Error (SortedMap Bytes Bytes))
    (all : List Index → Store → Except Error Unit × Store) : Prop where
  nil : ∀ s, all [] s = (.ok (), s)
  cons : ∀ {ix rest s m s'}, new ix s = .ok m → all rest (s.setEntries ix.map m) = (.ok (), s') →
    all (ix :: rest) s = (.ok (), s')
  /-- What an index gets depends on its own map. -/
  congr : ∀ {ix : Index} {s s' : Store}, s'.read ix.map = s.read ix.map → new ix s' = new ix s
  isOpen : ∀ {ix s m}, new ix s = .ok m → s.isClosed ix.map = false

/-- The other indexes do not see what one of them gets. -/
theorem read_setEntries_of_not_mem {ix : Index} {rest : List Index} {s : Store}
    {m : SortedMap Bytes Bytes} (hopen : s.isClosed ix.map = false)
    (hix : ix.map ∉ rest.map Index.map) :
    ∀ ix' ∈ rest, (s.setEntries ix.map m).read ix'.map = s.read ix'.map := by
  intro ix' hix'
  apply Store.read_setEntries_ne hopen
  intro heq
  exact hix (heq ▸ List.mem_map_of_mem hix')

theorem Sweep.of_ok (h : Sweep new all) {ixs : List Index} {s : Store}
    (hnodup : (ixs.map Index.map).Nodup) (hnew : ∀ ix ∈ ixs, ∃ m, new ix s = .ok m) :
    ∃ s', all ixs s = (.ok (), s') ∧ s.Rewrites s' (ixs.map Index.map) ∧
      ∀ ix ∈ ixs, ∀ m, new ix s = .ok m → s'.read ix.map = .ok m := by
  induction ixs generalizing s with
  | nil =>
    refine ⟨s, h.nil s, .refl s _, ?_⟩
    intro ix hix
    cases hix
  | cons ix rest ih =>
    rw [List.map_cons, List.nodup_cons] at hnodup
    rw [List.forall_mem_cons] at hnew
    obtain ⟨⟨m, hm⟩, hrest⟩ := hnew
    have hopen := h.isOpen hm
    have hfirst := Store.rewrites_setEntries hopen m
    have hsame (ix' : Index) (hix' : ix' ∈ rest) : new ix' (s.setEntries ix.map m) = new ix' s :=
      h.congr (read_setEntries_of_not_mem hopen hnodup.1 ix' hix')
    obtain ⟨s', hall, hrewrites, hread⟩ := ih hnodup.2 fun ix' hix' => by
      rw [hsame ix' hix']
      exact hrest ix' hix'
    refine ⟨s', h.cons hm hall, (hfirst.mono (by simp)).trans (hrewrites.mono (by simp)), ?_⟩
    intro ix' hix' m' hm'
    rcases List.mem_cons.1 hix' with rfl | hix'
    · obtain rfl := Except.ok.inj (hm.symm.trans hm')
      rw [hrewrites.read_eq _ hnodup.1]
      exact Store.read_setEntries_self hopen m
    · exact hread ix' hix' m' ((hsame ix' hix').trans hm')

variable {row : Row}

theorem sweep_addToAll (row : Row) : Sweep (fun ix s => ix.entriesWith s row) (addToAll row) where
  nil _ := rfl
  cons hm hall := by
    rw [addToAll, add_eq, hm, map_ok]
    simp only [hall]
  congr := entriesWith_congr
  isOpen h := by
    obtain ⟨-, entries, -, hread, -⟩ := entriesWith_eq_ok h
    exact Store.isClosed_of_read hread

theorem sweep_removeFromAll (row : Row) :
    Sweep (fun ix s => ix.entriesWithout s row) (removeFromAll row) where
  nil _ := rfl
  cons hm hall := by
    rw [removeFromAll, remove_eq, hm, map_ok]
    simp only [hall]
  congr := entriesWithout_congr
  isOpen h := by
    obtain ⟨-, entries, -, hread, -, -⟩ := entriesWithout_eq_ok h
    exact Store.isClosed_of_read hread

theorem sweep_clearAll : Sweep (fun ix s => (ix.entries s).map fun _ => .empty) clearAll where
  nil _ := rfl
  cons {ix rest s m s'} hm hall := by
    obtain ⟨entries, hread, rfl⟩ := map_eq_ok_iff.1 hm
    have hclear : ix.clear s = .ok (s.setEntries ix.map .empty) := by
      rw [clear, Store.clear, mapError_eq_ok_iff.1 hread]
      rfl
    rw [clearAll, hclear]
    exact hall
  congr h := by simp only [entries, h]
  isOpen h := by
    obtain ⟨entries, hread, -⟩ := map_eq_ok_iff.1 h
    exact Store.isClosed_of_read (mapError_eq_ok_iff.1 hread)

end OrderedIndex.Index
