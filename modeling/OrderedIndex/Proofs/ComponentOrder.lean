/-
  OrderedIndex/Proofs/ComponentOrder.lean
  =======================================
  **The byte order of key components is the order of the values.**

  The components of two different values part at some byte, and the smaller byte
  belongs to the smaller value (`precedes_ascending`): at the tag if the types
  differ, inside the content otherwise.  For texts and byte strings that takes the
  escape: a content that ends is closed by a zero and then a byte below the mark
  `0xff`, so the end comes before everything that goes on.

  Since components part, none begins another.  So complementing them turns the
  order around (`precedes_write`), and what stands behind two components counts
  only if the values are equal (`compare_write`).
-/
import OrderedIndex.Proofs.Outcome
import OrderedIndex.Proofs.ValueOrder

namespace OrderedIndex

namespace Direction

theorem apply_swap (d : Direction) (o : Ordering) : d.apply o.swap = (d.apply o).swap := by
  cases d <;> rfl

theorem apply_compare_eq_iff (d : Direction) {v w : Value} :
    d.apply (compare v w) = .eq ↔ v = w := by
  rw [← Std.LawfulEqOrd.compare_eq_iff_eq (a := v)]
  cases d with
  | ascending => rfl
  | descending => exact Ordering.swap_eq_eq

theorem gt_of_ne_gt (d : Direction) {u v w : Value} (huv : d.apply (compare u v) ≠ .gt)
    (huw : d.apply (compare u w) = .gt) : d.apply (compare v w) = .gt := by
  cases d with
  | ascending =>
    change compare u v ≠ .gt at huv
    change compare u w = .gt at huw
    show compare v w = .gt
    have hwv :=
      Std.TransCmp.lt_of_lt_of_isLE (Std.OrientedCmp.lt_of_gt huw) (Ordering.isLE_iff_ne_gt.2 huv)
    exact Std.OrientedCmp.gt_of_lt hwv
  | descending =>
    change (compare u v).swap ≠ .gt at huv
    rw [← Std.OrientedOrd.eq_swap] at huv
    change (compare u w).swap = .gt at huw
    have hvw :=
      Std.TransCmp.lt_of_isLE_of_lt (Ordering.isLE_iff_ne_gt.2 huv) (Ordering.swap_eq_gt.1 huw)
    exact Ordering.swap_eq_gt.2 hvw

end Direction

namespace Component

open Bytes

/-! ### The parts of a component -/

def tag (v : Value) : UInt8 := UInt8.ofNat v.rank

def payload : Value → Bytes
  | .text s => escape (utf8 s)
  | .bytes b => escape b
  | v => v.content

theorem ascending_eq_ok_iff {v : Value} {x : Bytes} :
    ascending v = .ok x ↔ v.isIndexable = true ∧ x = tag v :: payload v := by
  cases v <;> simp [ascending, tag, payload, Value.content, Value.isIndexable,
    Value.type?, Value.rank, ColumnType.isLargeObject, ColumnType.rank, nullTag, boolTag,
    integerTag, textTag, bytesTag, eq_comm]

theorem tag_lt_tag {v w : Value} (h : v.rank < w.rank) : tag v < tag w := by
  have bound (u : Value) : u.rank < 256 := by
    cases u <;> simp [Value.rank, Value.type?, ColumnType.rank]
  rw [UInt8.lt_iff_toNat_lt, tag, tag, UInt8.toNat_ofNat_of_lt' (bound v),
    UInt8.toNat_ofNat_of_lt' (bound w)]
  exact h

/-! ### Escaped contents -/

theorem zero_lt_of_ne_zero {b : UInt8} (h : b ≠ 0) : 0 < b := by
  rw [UInt8.lt_iff_toNat_lt]
  exact Nat.pos_of_ne_zero fun h0 => h (UInt8.toNat_inj.1 h0)

theorem precedes_escape {as bs : Bytes} (h : compare as bs = .lt) :
    Precedes (escape as) (escape bs) := by
  induction as generalizing bs with
  | nil =>
    cases bs with
    | nil => cases h
    | cons b bs =>
      rw [escape, escape]
      by_cases hb : b = 0
      · -- both go on with a zero; then the close is below the mark
        rw [if_pos hb]
        exact .there _ (.here _ _ (by decide))
      · rw [if_neg hb]
        exact .here _ _ (zero_lt_of_ne_zero hb)
  | cons a as ih =>
    cases bs with
    | nil => cases h
    | cons b bs =>
      rw [List.compare_cons_cons, Ordering.then_eq_lt] at h
      rw [escape, escape]
      rcases h with hab | ⟨hab, htail⟩
      · have hab : a < b := Std.compare_eq_lt.1 hab
        have hb : b ≠ 0 := fun h0 => absurd hab (h0 ▸ UInt8.not_lt_zero)
        rw [if_neg hb]
        by_cases ha : a = 0
        · rw [if_pos ha]
          exact .here _ _ (zero_lt_of_ne_zero hb)
        · rw [if_neg ha]
          exact .here _ _ hab
      · obtain rfl := Std.LawfulEqOrd.eq_of_compare hab
        by_cases ha : a = 0
        · rw [if_pos ha, if_pos ha]
          exact .there _ (.there _ (ih htail))
        · rw [if_neg ha, if_neg ha]
          exact .there _ (ih htail)

/-! ### Components -/

theorem precedes_payload {v w : Value} (hv : v.isIndexable = true) (hr : v.rank = w.rank)
    (h : compare v.content w.content = .lt) : Precedes (payload v) (payload w) := by
  cases v <;> cases w
  case null.null => cases h
  case bool.bool a b => cases a <;> cases b <;> first | exact .here _ _ (by decide) | cases h
  case integer.integer m n =>
    rw [Value.compare_integer_content, Std.compare_eq_lt] at h
    exact precedes_bigEndian (distance_lt_distance.2 h) (distance_lt n)
  case text.text s t => exact precedes_escape h
  case bytes.bytes a b => exact precedes_escape h
  case clob.clob => cases hv
  case blob.blob => cases hv
  all_goals cases hr

/-- The components of different values part, at the tag or behind it. -/
theorem precedes_ascending {v w : Value} {x y : Bytes} (hx : ascending v = .ok x)
    (hy : ascending w = .ok y) (h : compare v w = .lt) : Precedes x y := by
  obtain ⟨hv, rfl⟩ := ascending_eq_ok_iff.1 hx
  obtain ⟨-, rfl⟩ := ascending_eq_ok_iff.1 hy
  rw [Value.compare_eq_then, Ordering.then_eq_lt] at h
  rcases h with hr | ⟨hr, hc⟩
  · exact .here _ _ (tag_lt_tag (Nat.compare_eq_lt.1 hr))
  · have hr := Nat.compare_eq_eq.1 hr
    rw [tag, tag, hr]
    exact .there _ (precedes_payload hv hr hc)

theorem precedes_write {d : Direction} {v w : Value} {x y : Bytes} (hx : write d v = .ok x)
    (hy : write d w = .ok y) (h : d.apply (compare v w) = .lt) : Precedes x y := by
  obtain ⟨x', hx', rfl⟩ := map_eq_ok_iff.1 hx
  obtain ⟨y', hy', rfl⟩ := map_eq_ok_iff.1 hy
  cases d with
  | ascending => exact precedes_ascending hx' hy' h
  | descending =>
    have hwv : compare w v = .lt := by rwa [Std.OrientedOrd.eq_swap]
    exact (precedes_ascending hy' hx' hwv).complement

/-- What stands behind two components of one column counts only if their values are equal. -/
theorem compare_write {d : Direction} {v w : Value} {x y : Bytes} (hx : write d v = .ok x)
    (hy : write d w = .ok y) (s t : Bytes) :
    compare (x ++ s) (y ++ t) = (d.apply (compare v w)).then (compare s t) := by
  have hswap : d.apply (compare w v) = (d.apply (compare v w)).swap := by
    rw [Std.OrientedOrd.eq_swap (a := w), d.apply_swap]
  rcases h : d.apply (compare v w) with _ | _ | _
  · rw [compare_append_of_precedes (precedes_write hx hy h)]; rfl
  · obtain rfl := d.apply_compare_eq_iff.1 h
    rw [hx] at hy
    cases hy
    exact compare_append_left x s t
  · rw [h] at hswap
    rw [Std.OrientedCmp.gt_of_lt (compare_append_of_precedes (precedes_write hy hx hswap) t s)]; rfl

end Component
end OrderedIndex
