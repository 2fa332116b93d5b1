/-
  OrderedIndex/Proofs/Index/Conflict.lean
  =======================================
  **One look decides uniqueness.**

  Keys are ordered by the index columns first, so the entries of the rows with given
  columns stand next to each other, and no entry is before them and at or after the
  columns with the smallest row id.  So the one entry that `conflict?` looks at has
  the columns of the new row if any entry has (`conflict?_cases`).  Which of the
  entries with these columns it is makes no difference to the policy, which asks for
  NULL in the columns only (`RepeatPolicy.permits_congr`).
-/
import OrderedIndex.Index.Basic
import OrderedIndex.Proofs.KeyReading
import OrderedIndex.Proofs.Store

namespace OrderedIndex

namespace KeyLayout

/-! ### Rows with equal columns -/

section Compare

variable {ρ ρ' σ σ' : Type} [RowView ρ] [RowView ρ'] [RowView σ] [RowView σ']

theorem compareParts_congr {a : ρ} {a' : ρ'} {b : σ} {b' : σ'} {ps : List KeyPart}
    (ha : ∀ p ∈ ps, RowView.value? a p.column = RowView.value? a' p.column)
    (hb : ∀ p ∈ ps, RowView.value? b p.column = RowView.value? b' p.column) :
    compareParts a b ps = compareParts a' b' ps := by
  induction ps with
  | nil => rfl
  | cons p ps ih =>
    rw [List.forall_mem_cons] at ha hb
    rw [compareParts, compareParts, ha.1, hb.1, ih ha.2 hb.2]

theorem compareParts_swap (a : ρ) (b : σ) (ps : List KeyPart) :
    compareParts b a ps = (compareParts a b ps).swap := by
  induction ps with
  | nil => rfl
  | cons p ps ih =>
    rw [compareParts, compareParts, ih]
    rcases RowView.value? a p.column with _ | x
    · rcases RowView.value? b p.column with _ | y <;> rfl
    · rcases RowView.value? b p.column with _ | y
      · rfl
      · show (p.direction.apply (compare y x)).then _ =
          Ordering.swap ((p.direction.apply (compare x y)).then _)
        rw [Std.OrientedOrd.eq_swap (a := y), p.direction.apply_swap, Ordering.swap_then]

end Compare

/-- The rows agree at every index column. -/
def SameKey (l : KeyLayout) (a b : Row) : Prop :=
  ∀ p ∈ l.parts, a.value? p.column = b.value? p.column

instance (l : KeyLayout) (a b : Row) : Decidable (l.SameKey a b) :=
  inferInstanceAs (Decidable (∀ p ∈ l.parts, a.value? p.column = b.value? p.column))

section SameKey

variable {l : KeyLayout} {a b c : Row}

theorem SameKey.symm (h : l.SameKey a b) : l.SameKey b a := fun p hp => (h p hp).symm

theorem SameKey.trans (hab : l.SameKey a b) (hbc : l.SameKey b c) : l.SameKey a c := fun p hp =>
  (hab p hp).trans (hbc p hp)

theorem SameKey.compareRows_eq (h : l.SameKey b c) (a : Row) :
    l.compareRows a b = l.compareRows a c :=
  compareParts_congr (fun _ _ => rfl) h

theorem compareRows_eq_iff (ha : l.Encodable a) (hb : l.Encodable b) :
    l.compareRows a b = .eq ↔ l.SameKey a b := by
  have key (ps : List KeyPart) (hps : ∀ p ∈ ps, p ∈ l.parts) :
      compareParts a b ps = .eq ↔ ∀ p ∈ ps, a.value? p.column = b.value? p.column := by
    induction ps with
    | nil => simp [compareParts]
    | cons p ps ih =>
      rw [List.forall_mem_cons] at hps
      obtain ⟨x, hx, -⟩ := ha p hps.1
      obtain ⟨y, hy, -⟩ := hb p hps.1
      simp only [compareParts, RowView.value?, hx, hy]
      rw [List.forall_mem_cons, hx, hy, Ordering.then_eq_eq, p.direction.apply_compare_eq_iff,
        ih hps.2, Option.some_inj]
  exact key l.parts fun _ hp => hp

end SameKey

/-! ### Entries -/

/-- The search row is what the key of the row tells. -/
structure Tells (l : KeyLayout) (search : SearchRow) (row : Row) : Prop where
  rowId : search.rowId = some row.id
  values : ∀ p ∈ l.parts, search.value? p.column = row.value? p.column
  unset : ∀ c, (∀ p ∈ l.parts, p.column ≠ c) → search.value? c = none

def KeysOfRows (l : KeyLayout) (m : SortedMap Bytes Bytes) : Prop :=
  ∀ key ∈ m.keys, ∃ row, l.encode row = .ok key

def Holds (l : KeyLayout) (m : SortedMap Bytes Bytes) (row : Row) : Prop :=
  ∃ key ∈ m.keys, l.encode row = .ok key

variable {l : KeyLayout} {m : SortedMap Bytes Bytes} {row : Row} {search : SearchRow} {key : Bytes}

theorem encodable_of_encode (h : l.encode row = .ok key) : l.Encodable row :=
  exists_encodeAs_iff.1 ⟨key, h⟩

theorem exists_decode (h : l.encode row = .ok key) :
    ∃ search, l.decode key = .ok search ∧ l.Tells search row := by
  obtain ⟨search, hdecode, hid, hvalues⟩ := decode_encodeAs h
  refine ⟨search, hdecode, hid, ?_, ?_⟩
  · intro p hp
    rw [hvalues, if_pos ⟨p, hp, rfl⟩]
  · intro c hc
    rw [hvalues, if_neg]
    rintro ⟨p, hp, heq⟩
    exact hc p hp heq

theorem Tells.compareRows_left {σ : Type} [RowView σ] (h : l.Tells search row) (b : σ) :
    l.compareRows search b = l.compareRows row b :=
  compareParts_congr h.values (fun _ _ => rfl)

theorem Tells.compareRows_right {σ : Type} [RowView σ] (h : l.Tells search row) (a : σ) :
    l.compareRows a search = l.compareRows a row :=
  compareParts_congr (fun _ _ => rfl) h.values

/-- The key of a row with the smallest row id is at or before the keys of the rows that are not
    before it. -/
theorem encodeAs_min_le_iff {start : Bytes} {r : Row} (hstart : l.encodeAs row .min = .ok start)
    (hr : l.encode r = .ok key) : (compare start key).isLE = true ↔ l.compareRows row r ≠ .gt := by
  have hid : (compare RowId.min r.id).isLE = true := RowId.isLE_compare.2 UInt64.zero_le
  rw [compare_encodeAs hstart hr]
  cases l.compareRows row r <;> simp [hid]

end KeyLayout

/-! ### Policies -/

namespace RepeatPolicy

/-- A unique index may hold the index columns of the row more than once. -/
def Permits (policy : RepeatPolicy) (l : KeyLayout) (row : Row) : Prop :=
  match policy with
  | whenAnyNull => ∃ p ∈ l.parts, row.value? p.column = some .null
  | never => False
  | whenAllNull => ∀ p ∈ l.parts, row.value? p.column = some .null

instance (policy : RepeatPolicy) (l : KeyLayout) (row : Row) : Decidable (policy.Permits l row) :=
  match policy with
  | whenAnyNull => inferInstanceAs (Decidable (∃ p ∈ l.parts, row.value? p.column = some .null))
  | never => inferInstanceAs (Decidable False)
  | whenAllNull => inferInstanceAs (Decidable (∀ p ∈ l.parts, row.value? p.column = some .null))

variable {policy : RepeatPolicy} {l : KeyLayout} {row : Row}

theorem permits_congr {a b : Row} (h : l.SameKey a b) :
    policy.Permits l a ↔ policy.Permits l b := by
  cases policy with
  | whenAnyNull => exact exists_congr fun p => and_congr_right fun hp => by rw [h p hp]
  | never => rfl
  | whenAllNull => exact forall₂_congr fun p hp => by rw [h p hp]

theorem permits_iff {search : SearchRow} (h : l.Tells search row) :
    policy.permits l search = true ↔ policy.Permits l row := by
  have hnull (p : KeyPart) (hp : p ∈ l.parts) :
      KeyLayout.holdsNull search p = true ↔ row.value? p.column = some .null := by
    rw [KeyLayout.holdsNull, ← h.values p hp]
    simp only [RowView.value?]
    rcases search.value? p.column with _ | v
    · simp
    · cases v <;> simp [Value.isNull, Value.type?]
  cases policy with
  | whenAnyNull =>
    simp only [permits, Permits, KeyLayout.anyNull, List.any_eq_true]
    exact exists_congr fun p => and_congr_right fun hp => hnull p hp
  | never => simp [permits, Permits]
  | whenAllNull =>
    simp only [permits, Permits, KeyLayout.allNull, List.all_eq_true]
    exact forall₂_congr fun p hp => hnull p hp

end RepeatPolicy

/-! ### The check -/

namespace Index

/-- A row keeps the index from taking another one. -/
def Forbids (ix : Index) (r row : Row) : Prop :=
  ix.layout.SameKey row r ∧ ¬ix.config.repeatPolicy.Permits ix.layout r

variable {ix : Index} {s : Store} {m : SortedMap Bytes Bytes} {row : Row}

/-- **The check finds a row in the way exactly if there is one.** -/
theorem conflict?_cases (hm : s.read ix.map = .ok m) (hkeys : ix.layout.KeysOfRows m)
    (hrow : ix.layout.Encodable row) :
    (ix.conflict? s row = .ok none ∧ ∀ r, ix.layout.Holds m r → ¬ix.Forbids r row) ∨
      ∃ r, ix.conflict? s row = .ok (some r.id) ∧ ix.layout.Holds m r ∧ ix.Forbids r row := by
  have hstart : ∃ start, ix.layout.encodeAs row .min = .ok start :=
    KeyLayout.exists_encodeAs_iff.2 hrow
  obtain ⟨start, hstart⟩ := hstart
  rw [conflict?, hstart, ok_bind, entries, hm, mapError_ok, ok_bind]
  rcases hc : m.ceiling? start with _ | key
  · refine .inl ⟨rfl, ?_⟩
    rintro r ⟨key, hkey, hr⟩ ⟨hsame, -⟩
    refine SortedMap.ceiling?_eq_none_iff.1 hc key hkey
      ((KeyLayout.encodeAs_min_le_iff hstart hr).2 ?_)
    rw [(KeyLayout.compareRows_eq_iff hrow (KeyLayout.encodable_of_encode hr)).2 hsame]
    decide
  · obtain ⟨hkey, hle, hleast⟩ := SortedMap.ceiling?_eq_some_iff.1 hc
    obtain ⟨r₀, hr₀⟩ := hkeys key hkey
    obtain ⟨existing, hdecode, htells⟩ := KeyLayout.exists_decode hr₀
    have henc₀ := KeyLayout.encodable_of_encode hr₀
    simp only [hdecode, ok_bind, htells.compareRows_right row, htells.rowId, Option.getD_some]
    by_cases hforbids : ix.Forbids r₀ row
    · refine .inr ⟨r₀, ?_, ⟨key, hkey, hr₀⟩, hforbids⟩
      have heq := (KeyLayout.compareRows_eq_iff hrow henc₀).2 hforbids.1
      have hpermits := mt (RepeatPolicy.permits_iff htells).1 hforbids.2
      rw [if_pos ⟨heq, by simpa using hpermits⟩, pure_eq_ok]
    · refine .inl ⟨?_, ?_⟩
      · rw [if_neg, pure_eq_ok]
        rintro ⟨heq, hpermits⟩
        refine hforbids ⟨(KeyLayout.compareRows_eq_iff hrow henc₀).1 heq, ?_⟩
        intro hp
        rw [(RepeatPolicy.permits_iff htells).2 hp] at hpermits
        cases hpermits
      · -- an entry with the same columns would make those of the first one the same, too
        rintro r ⟨kr, hkr, hr⟩ ⟨hsame, hnot⟩
        have henc := KeyLayout.encodable_of_encode hr
        have hrr : ix.layout.compareRows row r = .eq :=
          (KeyLayout.compareRows_eq_iff hrow henc).2 hsame
        have hstartkr := (KeyLayout.encodeAs_min_le_iff hstart hr).2 (by rw [hrr]; decide)
        have hnext := hleast kr hkr hstartkr
        rw [KeyLayout.compare_encodeAs hr₀ hr, ← hsame.compareRows_eq r₀] at hnext
        have hfirst := (KeyLayout.encodeAs_min_le_iff hstart hr₀).1 hle
        have hswap : ix.layout.compareRows r₀ row = (ix.layout.compareRows row r₀).swap :=
          KeyLayout.compareParts_swap row r₀ _
        rw [hswap] at hnext
        have heq : ix.layout.compareRows row r₀ = .eq := by
          cases h : ix.layout.compareRows row r₀ with
          | lt => rw [h] at hnext; cases hnext
          | eq => rfl
          | gt => exact absurd h hfirst
        have hsame₀ := (KeyLayout.compareRows_eq_iff hrow henc₀).1 heq
        exact hforbids ⟨hsame₀, mt (RepeatPolicy.permits_congr (hsame₀.symm.trans hsame)).1 hnot⟩

end Index
end OrderedIndex
