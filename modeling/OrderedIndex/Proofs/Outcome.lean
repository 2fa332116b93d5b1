/-
  OrderedIndex/Proofs/Outcome.lean
  ================================
  **Results that can fail.**  What it takes for a result put together with `do`,
  `map` and `mapError` to be a success: every part of it is one.
-/
import Mathlib.Data.List.Forall2

namespace OrderedIndex

variable {ε ε' α β : Type}

@[simp] theorem ok_bind (a : α) (f : α → Except ε β) : (Except.ok a >>= f) = f a := rfl

@[simp] theorem error_bind (e : ε) (f : α → Except ε β) : (Except.error e >>= f) = Except.error e :=
  rfl

@[simp] theorem pure_eq_ok (a : α) : (pure a : Except ε α) = Except.ok a := rfl

@[simp] theorem throw_eq_error (e : ε) : (throw e : Except ε α) = Except.error e := rfl

@[simp] theorem map_ok (f : α → β) (a : α) : (Except.ok a : Except ε α).map f = Except.ok (f a) :=
  rfl

@[simp] theorem map_error (f : α → β) (e : ε) :
    (Except.error e : Except ε α).map f = Except.error e := rfl

@[simp] theorem mapError_ok (f : ε → ε') (a : α) :
    (Except.ok a : Except ε α).mapError f = Except.ok a := rfl

@[simp] theorem mapError_error (f : ε → ε') (e : ε) :
    (Except.error e : Except ε α).mapError f = Except.error (f e) := rfl

theorem bind_eq_ok_iff {x : Except ε α} {f : α → Except ε β} {b : β} :
    (x >>= f) = Except.ok b ↔ ∃ a, x = Except.ok a ∧ f a = Except.ok b := by
  cases x <;> simp

theorem map_eq_ok_iff {x : Except ε α} {f : α → β} {b : β} :
    x.map f = Except.ok b ↔ ∃ a, x = Except.ok a ∧ f a = b := by
  cases x <;> simp

@[simp] theorem mapError_eq_ok_iff {x : Except ε α} {f : ε → ε'} {a : α} :
    x.mapError f = Except.ok a ↔ x = Except.ok a := by
  cases x <;> simp

/-- A success with a property that can be computed. -/
theorem exists_ok_of_any {x : Except ε α} {p : α → Prop} [DecidablePred p]
    (h : x.toOption.any (fun a => decide (p a)) = true) : ∃ a, x = .ok a ∧ p a := by
  cases x with
  | error e => cases h
  | ok a => exact ⟨a, rfl, of_decide_eq_true h⟩

theorem mapM_eq_ok_iff {f : α → Except ε β} {as : List α} {bs : List β} :
    as.mapM f = Except.ok bs ↔ List.Forall₂ (fun a b => f a = Except.ok b) as bs := by
  induction as generalizing bs with
  | nil =>
    rw [List.mapM_nil]
    simp [eq_comm]
  | cons a as ih =>
    rw [List.mapM_cons, bind_eq_ok_iff]
    constructor
    · rintro ⟨b, hb, h⟩
      obtain ⟨bs', hbs, h⟩ := bind_eq_ok_iff.1 h
      cases h
      exact .cons hb (ih.1 hbs)
    · rintro (_ | ⟨hb, hbs⟩)
      exact ⟨_, hb, bind_eq_ok_iff.2 ⟨_, ih.2 hbs, rfl⟩⟩

theorem exists_mapM {f : α → Except ε β} {as : List α} (h : ∀ a ∈ as, ∃ b, f a = Except.ok b) :
    ∃ bs, as.mapM f = Except.ok bs := by
  induction as with
  | nil => exact ⟨[], rfl⟩
  | cons a as ih =>
    rw [List.forall_mem_cons] at h
    obtain ⟨b, hb⟩ := h.1
    obtain ⟨bs, hbs⟩ := ih h.2
    exact ⟨b :: bs, mapM_eq_ok_iff.2 (.cons hb (mapM_eq_ok_iff.1 hbs))⟩

theorem mem_of_mapM {f : α → Except ε β} {as : List α} {bs : List β}
    (h : as.mapM f = Except.ok bs) {b : β} :
    b ∈ bs ↔ ∃ a ∈ as, f a = Except.ok b := by
  induction mapM_eq_ok_iff.1 h with
  | nil => simp
  | @cons a b' as bs hb htail ih =>
    rw [List.mem_cons, ih (mapM_eq_ok_iff.2 htail), List.exists_mem_cons_iff, hb,
      Except.ok.injEq, eq_comm]

theorem exists_of_mapM {f : α → Except ε β} {as : List α} {bs : List β}
    (h : as.mapM f = Except.ok bs) {a : α} (ha : a ∈ as) : ∃ b, f a = Except.ok b := by
  induction mapM_eq_ok_iff.1 h with
  | nil => cases ha
  | cons hb htail ih =>
    rcases List.mem_cons.1 ha with rfl | ha
    · exact ⟨_, hb⟩
    · exact ih (mapM_eq_ok_iff.2 htail) ha

theorem getLast?_of_mapM {f : α → Except ε β} {as : List α} {bs : List β}
    (h : as.mapM f = Except.ok bs) {b : β} (hb : b ∈ bs.getLast?) :
    ∃ a ∈ as.getLast?, f a = Except.ok b := by
  induction mapM_eq_ok_iff.1 h with
  | nil => cases hb
  | @cons a b' as bs hfirst htail ih =>
    rcases htail with _ | ⟨hnext, htail⟩
    · cases hb
      exact ⟨a, rfl, hfirst⟩
    · exact ih (mapM_eq_ok_iff.2 (.cons hnext htail)) hb

theorem nodup_of_mapM {f : α → Except ε β} {as : List α} {bs : List β}
    (h : as.mapM f = Except.ok bs)
    (hne : as.Pairwise fun a a' => ∀ b, f a = Except.ok b → f a' ≠ Except.ok b) : bs.Nodup := by
  induction mapM_eq_ok_iff.1 h with
  | nil => exact .nil
  | @cons a b as bs hb htail ih =>
    obtain ⟨head, tail⟩ := List.pairwise_cons.1 hne
    have hbs := mapM_eq_ok_iff.2 htail
    refine List.nodup_cons.2 ⟨?_, ih hbs tail⟩
    intro hmem
    obtain ⟨a', ha', hb'⟩ := (mem_of_mapM hbs).1 hmem
    exact head a' ha' b hb hb'

/-- What holds of the images of a list two by two holds of its elements through them. -/
theorem pairwise_of_mapM {f : α → Except ε β} {as : List α} {bs : List β} {r : β → β → Prop}
    (h : as.mapM f = Except.ok bs) (hbs : bs.Pairwise r) :
    as.Pairwise fun a a' => ∀ b b', f a = Except.ok b → f a' = Except.ok b' → r b b' := by
  induction mapM_eq_ok_iff.1 h with
  | nil => exact .nil
  | @cons a b as bs hb htail ih =>
    obtain ⟨head, tail⟩ := List.pairwise_cons.1 hbs
    have has := mapM_eq_ok_iff.2 htail
    refine List.pairwise_cons.2 ⟨?_, ih has tail⟩
    intro a' ha' b₁ b' hb₁ hb'
    obtain rfl := Except.ok.inj (hb.symm.trans hb₁)
    exact head b' ((mem_of_mapM has).2 ⟨a', ha', hb'⟩)

theorem exists_mapM_eq {f : α → Except ε β} {p : α → Prop} {bs : List β}
    (h : ∀ b ∈ bs, ∃ a, p a ∧ f a = Except.ok b) :
    ∃ as : List α, as.mapM f = Except.ok bs ∧ ∀ a ∈ as, p a := by
  induction bs with
  | nil => exact ⟨[], rfl, by simp⟩
  | cons b bs ih =>
    rw [List.forall_mem_cons] at h
    obtain ⟨⟨a, ha, hb⟩, h⟩ := h
    obtain ⟨as, has, hall⟩ := ih h
    exact ⟨a :: as, mapM_eq_ok_iff.2 (.cons hb (mapM_eq_ok_iff.1 has)),
      List.forall_mem_cons.2 ⟨ha, hall⟩⟩

/-- A loop of checks that all succeed succeeds. -/
theorem forIn_eq_ok {l : List α} {f : α → Except ε Unit} (h : ∀ a ∈ l, f a = .ok ()) :
    (forIn l PUnit.unit fun a _ => do
      f a
      pure (ForInStep.yield PUnit.unit)) = (Except.ok PUnit.unit : Except ε PUnit) := by
  induction l with
  | nil => rfl
  | cons a l ih =>
    obtain ⟨ha, hl⟩ := List.forall_mem_cons.1 h
    rw [List.forIn_cons, ha]
    exact ih hl

end OrderedIndex
