/-
  OrderedIndex/Proofs/SortedMap.lean
  ==================================
  **The laws of ordered maps**, in terms of the bindings a map has.

  A map is known by its bindings (`ext_mem`), since their order leaves no choice.  So
  each operation is described by the bindings it leaves: `mem_insert`, `mem_erase`.
  Looking up a key finds its binding (`get?_eq_some_iff`), and looking for a key at or
  after another finds the nearest one (`ceiling?_eq_some_iff`).
-/
import OrderedIndex.SortedMap
import Mathlib.Data.List.Sort

namespace OrderedIndex

/-! ### Sorted lists -/

section Sorted

variable {α κ : Type} [Ord κ] [Std.TransOrd κ] {f : α → κ}

theorem not_compare_lt_self (k : κ) : compare k k ≠ .lt := by
  rw [Std.ReflOrd.compare_self]
  decide

theorem nodup_of_pairwise {l : List α} (h : l.Pairwise (fun a b => compare (f a) (f b) = .lt)) :
    l.Nodup := by
  apply h.imp
  intro a b hlt heq
  rw [heq] at hlt
  exact not_compare_lt_self _ hlt

theorem eq_of_mem_of_key_eq {l : List α} (h : l.Pairwise (fun a b => compare (f a) (f b) = .lt))
    {a b : α} (ha : a ∈ l) (hb : b ∈ l) (hk : f a = f b) : a = b := by
  induction l with
  | nil => cases ha
  | cons c l ih =>
    obtain ⟨head, tail⟩ := List.pairwise_cons.1 h
    rcases List.mem_cons.1 ha with rfl | ha'
    · rcases List.mem_cons.1 hb with rfl | hb'
      · rfl
      · exact absurd (hk ▸ head b hb') (not_compare_lt_self _)
    · rcases List.mem_cons.1 hb with rfl | hb'
      · exact absurd (hk ▸ head a ha') (not_compare_lt_self _)
      · exact ih tail ha' hb'

/-- Two strictly sorted lists with the same elements are the same list. -/
theorem eq_of_pairwise_of_mem_iff {l₁ l₂ : List α}
    (h₁ : l₁.Pairwise (fun a b => compare (f a) (f b) = .lt))
    (h₂ : l₂.Pairwise (fun a b => compare (f a) (f b) = .lt)) (h : ∀ a, a ∈ l₁ ↔ a ∈ l₂) :
    l₁ = l₂ := by
  have hperm : l₁.Perm l₂ :=
    (List.perm_ext_iff_of_nodup (nodup_of_pairwise h₁) (nodup_of_pairwise h₂)).2 h
  refine hperm.eq_of_pairwise ?_ h₁ h₂
  intro a b _ _ hab hba
  exact absurd hba (Std.OrientedCmp.not_lt_of_lt hab)

/-- The first element of a strictly sorted list with a property is the smallest one. -/
theorem find?_eq_some_iff_least {l : List κ} (h : l.Pairwise (fun a b => compare a b = .lt))
    {p : κ → Bool} {x : κ} :
    l.find? p = some x ↔ x ∈ l ∧ p x = true ∧ ∀ y ∈ l, p y = true → (compare x y).isLE = true := by
  induction l with
  | nil => simp
  | cons a l ih =>
    obtain ⟨head, tail⟩ := List.pairwise_cons.1 h
    have hrefl (k : κ) : (compare k k).isLE = true := Std.ReflOrd.isLE_rfl
    by_cases ha : p a = true
    · rw [List.find?_cons_of_pos ha]
      constructor
      · intro hx
        obtain rfl := Option.some.inj hx
        refine ⟨List.mem_cons_self, ha, ?_⟩
        intro y hy _
        rcases List.mem_cons.1 hy with rfl | hy
        · exact hrefl y
        · rw [head y hy]; rfl
      · rintro ⟨hx, -, hle⟩
        rcases List.mem_cons.1 hx with rfl | hx
        · rfl
        · -- a later element is not at or before the first one
          exact absurd (head x hx) (Std.OrientedCmp.not_lt_of_isLE (hle a List.mem_cons_self ha))
    · rw [List.find?_cons_of_neg ha, ih tail]
      constructor
      · rintro ⟨hx, hp, hle⟩
        refine ⟨List.mem_cons_of_mem _ hx, hp, ?_⟩
        intro y hy hpy
        rcases List.mem_cons.1 hy with rfl | hy
        · exact absurd hpy ha
        · exact hle y hy hpy
      · rintro ⟨hx, hp, hle⟩
        rcases List.mem_cons.1 hx with rfl | hx
        · exact absurd hp ha
        · exact ⟨hx, hp, fun y hy hpy => hle y (List.mem_cons_of_mem _ hy) hpy⟩

end Sorted

namespace SortedMap

variable {κ ν : Type} [Ord κ] {m m' : SortedMap κ ν} {e : κ × ν} {k x : κ} {v v' : ν}

theorem mem_keys : k ∈ m.keys ↔ ∃ v, (k, v) ∈ m.entries := by
  simp [keys]

theorem keys_subset (h : m'.entries ⊆ m.entries) : m'.keys ⊆ m.keys := List.map_subset _ h

theorem keys_sorted (m : SortedMap κ ν) : m.keys.Pairwise (fun a b => compare a b = .lt) :=
  List.pairwise_map.2 m.sorted

@[simp] theorem length_keys (m : SortedMap κ ν) : m.keys.length = m.size := List.length_map _

@[simp] theorem entries_empty : (empty : SortedMap κ ν).entries = [] := rfl

theorem mem_erase [Std.LawfulEqOrd κ] : e ∈ (m.erase k).entries ↔ e ∈ m.entries ∧ e.1 ≠ k := by
  simp [erase]

theorem erase_subset [Std.LawfulEqOrd κ] (m : SortedMap κ ν) (k : κ) :
    (m.erase k).entries ⊆ m.entries := fun _ he =>
  (mem_erase.1 he).1

theorem mem_keys_erase [Std.LawfulEqOrd κ] : x ∈ (m.erase k).keys ↔ x ∈ m.keys ∧ x ≠ k := by
  simp [mem_keys, mem_erase]

variable [Std.TransOrd κ]

/-! ### Neighbours -/

theorem ceiling?_eq_some_iff : m.ceiling? k = some x ↔
    x ∈ m.keys ∧ (compare k x).isLE = true ∧ ∀ y ∈ m.keys, (compare k y).isLE = true →
      (compare x y).isLE = true := by
  simp only [ceiling?, find?_eq_some_iff_least m.keys_sorted, Std.OrientedCmp.isGE_eq_isLE]

theorem ceiling?_eq_none_iff : m.ceiling? k = none ↔ ∀ y ∈ m.keys, ¬(compare k y).isLE = true := by
  simp only [ceiling?, List.find?_eq_none, Std.OrientedCmp.isGE_eq_isLE]

/-! ### Bindings -/

theorem ext_mem (h : ∀ e, e ∈ m.entries ↔ e ∈ m'.entries) : m = m' :=
  ext (eq_of_pairwise_of_mem_iff m.sorted m'.sorted h)

theorem value_unique (h : (k, v) ∈ m.entries) (h' : (k, v') ∈ m.entries) : v = v' :=
  congrArg Prod.snd (eq_of_mem_of_key_eq m.sorted h h' rfl)

theorem insertEntry_of_forall_lt {l : List (κ × ν)} (h : ∀ e ∈ l, compare e.1 k = .lt) :
    insertEntry k v l = l ++ [(k, v)] := by
  induction l with
  | nil => rfl
  | cons a l ih =>
    rw [List.forall_mem_cons] at h
    rw [insertEntry, Std.OrientedCmp.gt_of_lt h.1, ih h.2]
    rfl

variable [Std.LawfulEqOrd κ]

theorem mem_insertEntry_iff {l : List (κ × ν)} (h : l.Pairwise (fun a b => compare a.1 b.1 = .lt)) :
    e ∈ insertEntry k v l ↔ e = (k, v) ∨ e ∈ l ∧ e.1 ≠ k := by
  induction l with
  | nil => simp [insertEntry]
  | cons a l ih =>
    obtain ⟨head, tail⟩ := List.pairwise_cons.1 h
    have later (hk : (compare k a.1).isLE = true) : ∀ b ∈ l, b.1 ≠ k := by
      rintro b hb rfl
      exact absurd (head b hb) (Std.OrientedCmp.not_lt_of_isLE hk)
    rw [insertEntry]
    split
    · rename_i hlt
      have hl := later (by rw [hlt]; rfl)
      have ha : a.1 ≠ k := fun hk => not_compare_lt_self k (hk ▸ hlt)
      simp only [List.mem_cons]
      grind
    · rename_i heq
      have hl := later (by rw [heq]; rfl)
      obtain rfl := Std.LawfulEqOrd.eq_of_compare heq
      simp only [List.mem_cons]
      grind
    · rename_i hgt
      have ha : a.1 ≠ k := fun hk => by
        rw [hk, Std.ReflOrd.compare_self] at hgt
        cases hgt
      simp only [List.mem_cons, ih tail]
      grind

theorem mem_insert : e ∈ (m.insert k v).entries ↔ e = (k, v) ∨ e ∈ m.entries ∧ e.1 ≠ k :=
  mem_insertEntry_iff m.sorted

theorem mem_keys_insert : x ∈ (m.insert k v).keys ↔ x = k ∨ x ∈ m.keys := by
  simp only [mem_keys, mem_insert, Prod.mk.injEq, exists_or, exists_and_right,
    exists_and_left, exists_eq, and_true]
  by_cases hx : x = k <;> simp [hx]

theorem get?_eq_some_iff : m.get? k = some v ↔ (k, v) ∈ m.entries := by
  rw [get?, Option.map_eq_some_iff]
  constructor
  · rintro ⟨e, he, rfl⟩
    have hk : e.1 = k := by simpa using List.find?_some he
    rw [← hk]
    exact List.mem_of_find?_eq_some he
  · intro h
    rcases hf : m.entries.find? (fun e => compare e.1 k == .eq) with _ | e
    · have hne := List.find?_eq_none.1 hf _ h
      simp at hne
    · have hk : e.1 = k := by simpa using List.find?_some hf
      have hmem : (k, e.2) ∈ m.entries := by
        rw [← hk]
        exact List.mem_of_find?_eq_some hf
      exact ⟨e, hf, value_unique hmem h⟩

theorem get?_eq_none_iff : m.get? k = none ↔ k ∉ m.keys := by
  rw [Option.eq_none_iff_forall_ne_some, mem_keys]
  simp [get?_eq_some_iff]

theorem get?_insert [DecidableEq κ] :
    (m.insert k v).get? x = if x = k then some v else m.get? x := by
  apply Option.ext
  intro w
  rw [get?_eq_some_iff, mem_insert, ← get?_eq_some_iff]
  by_cases hx : x = k
  · subst hx
    simp [eq_comm]
  · simp [hx]

theorem get?_erase [DecidableEq κ] : (m.erase k).get? x = if x = k then none else m.get? x := by
  apply Option.ext
  intro w
  rw [get?_eq_some_iff, mem_erase, ← get?_eq_some_iff]
  by_cases hx : x = k <;> simp [hx]

theorem erase_insert (h : k ∉ m.keys) : (m.insert k v).erase k = m := by
  apply ext_mem
  intro e
  rw [mem_erase, mem_insert]
  constructor
  · rintro ⟨rfl | he, hne⟩
    · exact absurd rfl hne
    · exact he.1
  · intro he
    have hne : e.1 ≠ k := by
      rintro rfl
      exact h (mem_keys.2 ⟨e.2, he⟩)
    exact ⟨.inr ⟨he, hne⟩, hne⟩

theorem insert_erase (h : (k, v) ∈ m.entries) : (m.erase k).insert k v = m := by
  apply ext_mem
  intro e
  rw [mem_insert, mem_erase]
  constructor
  · rintro (rfl | he)
    · exact h
    · exact he.1.1
  · intro he
    by_cases hk : e.1 = k
    · subst hk
      exact .inl (Prod.ext rfl (value_unique he h))
    · exact .inr ⟨⟨he, hk⟩, hk⟩

end SortedMap
end OrderedIndex
