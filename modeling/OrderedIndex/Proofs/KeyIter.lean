/-
  OrderedIndex/Proofs/KeyIter.lean
  ================================
  **What a key iterator still has to give.**

  The keys ahead of a place (`KeyStart.ahead`) are the sorted ones of the map that the
  place covers.  A step gives the first of them (`seek_eq_head?`) and leaves the place
  behind it, from where the others are ahead (`ahead_after`).

  The map may change between the steps.  `KeyStart.Gives` says which answers there can be
  then: each step looks at the map of its own moment.  The keys increase all the same
  (`Gives.increasing`), since a place only moves on; and a key that is there all along is
  never behind the place before it has been given (`Gives.mem_keys`).
-/
import OrderedIndex.Proofs.SortedMap
import OrderedIndex.Store.KeyIter

namespace OrderedIndex

namespace KeyStart

variable {start : KeyStart} {entries : SortedMap Bytes Bytes} {key x y : Bytes} {rest : List Bytes}

/-- The key is at or behind the place. -/
def covers : KeyStart → Bytes → Bool
  | anywhere, _ => true
  | atOrAfter key, x => (compare x key).isGE
  | after key, x => (compare x key).isGT

def ahead (entries : SortedMap Bytes Bytes) (start : KeyStart) : List Bytes :=
  entries.keys.filter start.covers

theorem seek_eq_head? (entries : SortedMap Bytes Bytes) (start : KeyStart) :
    start.seek entries = (start.ahead entries).head? := by
  cases start with
  | anywhere =>
    show entries.keys.head? = (entries.keys.filter fun _ => true).head?
    rw [List.filter_true]
  | atOrAfter key => exact List.head?_filter.symm
  | after key => exact List.head?_filter.symm

theorem ahead_sorted (entries : SortedMap Bytes Bytes) (start : KeyStart) :
    (start.ahead entries).Pairwise (fun a b => compare a b = .lt) :=
  entries.keys_sorted.filter _

theorem mem_ahead : x ∈ start.ahead entries ↔ x ∈ entries.keys ∧ start.covers x = true :=
  List.mem_filter

theorem length_ahead_le (entries : SortedMap Bytes Bytes) (start : KeyStart) :
    (start.ahead entries).length ≤ entries.size := by
  rw [← entries.length_keys]
  exact List.length_filter_le _ _

theorem covers_of_lt (h : start.covers x = true) (hlt : compare x y = .lt) :
    start.covers y = true := by
  cases start with
  | anywhere => rfl
  | atOrAfter key =>
    rw [covers, Std.OrientedCmp.isGE_eq_isLE] at h ⊢
    exact Std.TransCmp.isLE_trans h (by rw [hlt]; rfl)
  | after key =>
    rw [covers, Ordering.isGT_iff_eq_gt, Std.OrientedCmp.gt_iff_lt] at h ⊢
    exact Std.TransCmp.lt_trans h hlt

/-- Behind the first key ahead there are the others. -/
theorem ahead_after (h : start.ahead entries = key :: rest) : (after key).ahead entries = rest := by
  have hsorted := ahead_sorted entries start
  rw [h] at hsorted
  obtain ⟨head, tail⟩ := List.pairwise_cons.1 hsorted
  have hkey : key ∈ start.ahead entries := by
    rw [h]
    exact List.mem_cons_self
  apply eq_of_pairwise_of_mem_iff (f := id) (ahead_sorted entries _) tail
  intro x
  rw [mem_ahead, covers, Ordering.isGT_iff_eq_gt, Std.OrientedCmp.gt_iff_lt]
  constructor
  · rintro ⟨hx, hlt⟩
    have hmem : x ∈ start.ahead entries := mem_ahead.2 ⟨hx, covers_of_lt (mem_ahead.1 hkey).2 hlt⟩
    rw [h] at hmem
    rcases List.mem_cons.1 hmem with rfl | hmem
    · exact absurd hlt (not_compare_lt_self _)
    · exact hmem
  · intro hx
    have hmem : x ∈ start.ahead entries := by
      rw [h]
      exact List.mem_cons_of_mem _ hx
    exact ⟨(mem_ahead.1 hmem).1, head x hx⟩

theorem seek_eq_some_iff : start.seek entries = some key ↔
    key ∈ entries.keys ∧ start.covers key = true ∧
      ∀ x ∈ entries.keys, start.covers x = true → (compare key x).isLE = true := by
  rw [seek_eq_head?, ahead, List.head?_filter, find?_eq_some_iff_least entries.keys_sorted]

theorem exists_seek_le (hx : x ∈ entries.keys) (hcovers : start.covers x = true) :
    ∃ key, start.seek entries = some key ∧ (compare key x).isLE = true := by
  rcases hseek : start.seek entries with _ | key
  · rw [seek_eq_head?, List.head?_eq_none_iff] at hseek
    exact absurd (mem_ahead.2 ⟨hx, hcovers⟩) (hseek ▸ List.not_mem_nil)
  · exact ⟨key, rfl, (seek_eq_some_iff.1 hseek).2.2 x hx hcovers⟩

theorem covers_after_iff : (after key).covers x = true ↔ compare key x = .lt := by
  rw [covers, Ordering.isGT_iff_eq_gt, Std.OrientedCmp.gt_iff_lt]

end KeyStart

/-! ### One step -/

theorem KeyIter.next_cases (s : Store) (it : KeyIter) (hdone : it.done = false) :
    (∃ e, s.read it.map = .error e ∧ it.next s = (some (.error e), { it with done := true })) ∨
      ∃ entries, s.read it.map = .ok entries ∧
        ((it.start.seek entries = none ∧ it.next s = (none, { it with done := true })) ∨
          ∃ key, it.start.seek entries = some key ∧
            it.next s = (some (.ok key), { it with start := .after key })) := by
  rw [next, if_neg (Bool.eq_false_iff.1 hdone)]
  rcases hread : s.read it.map with e | entries
  · exact .inl ⟨e, rfl, rfl⟩
  · refine .inr ⟨entries, rfl, ?_⟩
    rcases hseek : it.start.seek entries with _ | key
    · exact .inl ⟨rfl, by simp only [hseek]⟩
    · exact .inr ⟨key, rfl, by simp only [hseek]⟩

@[simp] theorem KeyIter.map_next (s : Store) (it : KeyIter) : (it.next s).2.map = it.map := by
  rw [next]
  split
  · rfl
  · split
    · rfl
    · split <;> rfl

/-! ### Steps over a map that changes -/

/-- A step over the keys of a map: the map as it is then, and the answer. -/
structure Moment (ε : Type) where
  read : Except ε (SortedMap Bytes Bytes)
  answer : Option (Except ε Bytes)

namespace Moment

variable {ε : Type}

def key? (x : Moment ε) : Option Bytes := x.answer.bind Except.toOption

/-- The keys that the steps give. -/
def keys (moments : List (Moment ε)) : List Bytes := moments.filterMap key?

theorem keys_append (before after : List (Moment ε)) :
    keys (before ++ after) = keys before ++ keys after :=
  List.filterMap_append

/-- The step sees the key. -/
def Sees (x : Moment ε) (key : Bytes) : Prop := ∃ entries, x.read = .ok entries ∧ key ∈ entries.keys

end Moment

namespace KeyStart

variable {ε : Type} {beyond : Bytes → Prop} {start : KeyStart} {x : Moment ε}
  {before after moments : List (Moment ε)} {key : Bytes}

/-- The steps are made one after the other from a place on.  The first that finds no key, or one
    beyond the bound, or cannot read the map, is the last. -/
inductive Gives (beyond : Bytes → Prop) : KeyStart → List (Moment ε) → Prop
  | nil {start : KeyStart} : Gives beyond start []
  | found {start : KeyStart} {entries : SortedMap Bytes Bytes} {key : Bytes}
      {rest : List (Moment ε)} (hkey : start.seek entries = some key) (hwithin : ¬beyond key)
      (hrest : Gives beyond (.after key) rest) :
      Gives beyond start (⟨.ok entries, some (.ok key)⟩ :: rest)
  | ended {start : KeyStart} {entries : SortedMap Bytes Bytes} {rest : List (Moment ε)}
      (hend : ∀ key, start.seek entries = some key → beyond key)
      (hrest : ∀ x ∈ rest, x.answer = none) :
      Gives beyond start (⟨.ok entries, none⟩ :: rest)
  | failed {start : KeyStart} {e : ε} {rest : List (Moment ε)}
      (hrest : ∀ x ∈ rest, x.answer = none) :
      Gives beyond start (⟨.error e, some (.error e)⟩ :: rest)

theorem keys_of_last (hx : x.key? = none) (hrest : ∀ y ∈ after, y.answer = none) :
    Moment.keys (x :: after) = [] := by
  refine List.filterMap_eq_nil_iff.2 (List.forall_mem_cons.2 ⟨hx, ?_⟩)
  intro y hy
  rw [Moment.key?, hrest y hy]
  rfl

theorem Gives.covers (h : start.Gives beyond moments) :
    ∀ key ∈ Moment.keys moments, start.covers key = true := by
  induction h with
  | nil => nofun
  | found hkey _ _ ih =>
    have hcovers := (seek_eq_some_iff.1 hkey).2.1
    intro k hk
    rcases List.mem_cons.1 hk with rfl | hk
    · exact hcovers
    · exact covers_of_lt hcovers (covers_after_iff.1 (ih k hk))
  | ended _ hrest | failed hrest =>
    rw [keys_of_last rfl hrest]
    nofun

theorem Gives.within (h : start.Gives beyond moments) :
    ∀ key ∈ Moment.keys moments, ¬beyond key := by
  induction h with
  | nil => nofun
  | found _ hwithin _ ih => exact List.forall_mem_cons.2 ⟨hwithin, ih⟩
  | ended _ hrest | failed hrest =>
    rw [keys_of_last rfl hrest]
    nofun

theorem Gives.increasing (h : start.Gives beyond moments) :
    (Moment.keys moments).Pairwise fun a b => compare a b = .lt := by
  induction h with
  | nil => exact .nil
  | found _ _ hrest ih =>
    exact List.pairwise_cons.2 ⟨fun k hk => covers_after_iff.1 (hrest.covers k hk), ih⟩
  | ended _ hrest | failed hrest =>
    rw [keys_of_last rfl hrest]
    exact .nil

theorem Gives.sees (h : start.Gives beyond moments) :
    ∀ x ∈ moments, ∀ key, x.answer = some (.ok key) → x.Sees key := by
  induction h with
  | nil => nofun
  | found hkey _ _ ih =>
    refine List.forall_mem_cons.2 ⟨?_, ih⟩
    intro k hk
    obtain rfl := Except.ok.inj (Option.some.inj hk)
    exact ⟨_, rfl, (seek_eq_some_iff.1 hkey).1⟩
  | ended _ hrest | failed hrest =>
    refine List.forall_mem_cons.2 ⟨nofun, ?_⟩
    intro x hx key hkey
    cases (hrest x hx).symm.trans hkey

/-- The first step without a key is followed by silence. -/
theorem Gives.silent (h : start.Gives beyond (before ++ x :: after))
    (hx : ∀ key, x.answer ≠ some (.ok key)) :
    ∀ y ∈ after, y.answer = none := by
  induction before generalizing start with
  | nil =>
    cases h with
    | found => exact absurd rfl (hx _)
    | ended _ hrest => exact hrest
    | failed hrest => exact hrest
  | cons _ before ih =>
    cases h with
    | found _ _ hrest => exact ih hrest
    | ended _ hrest | failed hrest =>
      exact fun y hy => hrest y (List.mem_append_right _ (List.mem_cons_of_mem _ hy))

/-- After keys only, a step that cannot read the map fails. -/
theorem Gives.fails {e : ε} (h : start.Gives beyond (before ++ x :: after))
    (hbefore : ∀ y ∈ before, ∃ key, y.answer = some (.ok key)) (hx : x.read = .error e) :
    x.answer = some (.error e) := by
  induction before generalizing start with
  | nil =>
    cases h with
    | found => cases hx
    | ended => cases hx
    | failed =>
      cases hx
      rfl
  | cons _ before ih =>
    rw [List.forall_mem_cons] at hbefore
    cases h with
    | found _ _ hrest => exact ih hrest hbefore.2
    | ended => obtain ⟨_, hkey⟩ := hbefore.1; cases hkey
    | failed => obtain ⟨_, hkey⟩ := hbefore.1; cases hkey

/-- **Nothing that stays is passed over.** -/
theorem Gives.mem_keys (h : start.Gives beyond (before ++ x :: after)) (hx : x.answer = none)
    (hsees : ∀ y ∈ before ++ [x], y.Sees key) (hcovers : start.covers key = true)
    (hwithin : ∀ k, beyond k → compare key k = .lt) : key ∈ Moment.keys (before ++ x :: after) := by
  induction before generalizing start with
  | nil =>
    cases h with
    | found => cases hx
    | failed => cases hx
    | ended hend _ =>
      -- the key itself is ahead of the place, so the step has found one at or before it
      obtain ⟨_, ⟨⟩, hmem⟩ := hsees _ (List.mem_singleton_self _)
      obtain ⟨k, hk, hle⟩ := exists_seek_le hmem hcovers
      exact absurd (hwithin k (hend k hk)) (Std.OrientedCmp.not_lt_of_isLE hle)
  | cons y before ih =>
    rw [List.cons_append, List.forall_mem_cons] at hsees
    obtain ⟨⟨entries, hread, hmem⟩, hsees⟩ := hsees
    cases h with
    | @found _ _ k _ hkey _ hrest =>
      obtain rfl := Except.ok.inj hread
      have hle := (seek_eq_some_iff.1 hkey).2.2 key hmem hcovers
      by_cases heq : k = key
      · subst heq
        exact List.mem_cons_self
      · -- a later key is ahead of the place behind this one
        have hlt : compare k key = .lt := Ordering.isLE_iff_eq_lt_or_eq_eq.1 hle |>.resolve_right
          fun h => heq (Std.LawfulEqOrd.eq_of_compare h)
        exact List.mem_cons_of_mem _ (ih hrest hsees (covers_after_iff.2 hlt))
    | ended hend _ =>
      obtain rfl := Except.ok.inj hread
      obtain ⟨k, hk, hle⟩ := exists_seek_le hmem hcovers
      exact absurd (hwithin k (hend k hk)) (Std.OrientedCmp.not_lt_of_isLE hle)
    | failed => cases hread

/-- At the end nothing is left behind the last key that has been given. -/
theorem Gives.le_last (h : start.Gives beyond (before ++ x :: after)) (hx : x.answer = none)
    (hbefore : ∀ y ∈ before, ∃ key, y.answer = some (.ok key)) (hsees : x.Sees key)
    (hcovers : start.covers key = true) (hwithin : ∀ k, beyond k → compare key k = .lt) :
    ∃ last ∈ (Moment.keys before).getLast?, (compare key last).isLE = true := by
  induction before generalizing start with
  | nil =>
    have hmem := h.mem_keys hx (List.forall_mem_singleton.2 hsees) hcovers hwithin
    cases h with
    | found | failed => cases hx
    | ended _ hrest =>
      rw [List.nil_append, keys_of_last rfl hrest] at hmem
      cases hmem
  | cons y before ih =>
    rw [List.forall_mem_cons] at hbefore
    cases h with
    | @found _ _ k _ _ _ hrest =>
      show ∃ last ∈ (k :: Moment.keys before).getLast?, _
      rw [List.getLast?_cons]
      by_cases hlt : compare k key = .lt
      · obtain ⟨last, hlast, hle⟩ := ih hrest hbefore.2 (covers_after_iff.2 hlt)
        exact ⟨last, by rw [Option.mem_def.1 hlast]; rfl, hle⟩
      · have hle : (compare key k).isLE = true :=
          Ordering.isLE_iff_ne_gt.2 (mt Std.OrientedCmp.gt_iff_lt.1 hlt)
        rcases hlast : (Moment.keys before).getLast? with _ | last
        · exact ⟨k, rfl, hle⟩
        · have hmem : last ∈ Moment.keys (before ++ x :: after) := by
            rw [Moment.keys_append]
            exact List.mem_append_left _ (List.mem_of_getLast? hlast)
          have hk : (compare k last).isLE = true := by
            rw [covers_after_iff.1 (hrest.covers last hmem)]
            rfl
          exact ⟨last, rfl, Std.TransCmp.isLE_trans hle hk⟩
    | ended | failed =>
      obtain ⟨_, hkey⟩ := hbefore.1
      cases hkey

end KeyStart
end OrderedIndex
