/-
  OrderedIndex/Proofs/ByteOrder.lean
  ==================================
  **Comparing byte strings that are put together from parts.**

  Whether one byte string comes before another is settled by the first byte in
  which they differ.  `Precedes a b` says that there is such a byte and that it is
  smaller in `a`.  It is stronger than `compare a b = .lt`, since neither string can
  then begin the other, and that is what makes it last:

    * whatever is appended on either side, the order stays
      (`compare_append_of_precedes`);
    * complementing every byte turns it around (`Precedes.complement`).

  Numbers of one width part in this way as soon as they differ
  (`precedes_bigEndian`).
-/
import OrderedIndex.Direction

namespace OrderedIndex.Bytes

/-- Some byte tells the two strings apart, and the first such byte is smaller in the first one. -/
inductive Precedes : Bytes → Bytes → Prop
  | here {x y : UInt8} (as bs : Bytes) : x < y → Precedes (x :: as) (y :: bs)
  | there (x : UInt8) {as bs : Bytes} : Precedes as bs → Precedes (x :: as) (x :: bs)

theorem compare_append_of_precedes {as bs : Bytes} (h : Precedes as bs) (s t : Bytes) :
    compare (as ++ s) (bs ++ t) = .lt := by
  induction h with
  | here as bs hxy =>
    rw [List.cons_append, List.cons_append, List.compare_cons_cons, Std.compare_eq_lt.2 hxy]
    rfl
  | there x _ ih =>
    rw [List.cons_append, List.cons_append, List.compare_cons_cons, Std.ReflOrd.compare_self]
    exact ih

theorem compare_append_left (p as bs : Bytes) : compare (p ++ as) (p ++ bs) = compare as bs := by
  induction p with
  | nil => rfl
  | cons x p ih =>
    rw [List.cons_append, List.cons_append, List.compare_cons_cons,
      Std.ReflOrd.compare_self, ih]; rfl

theorem complement_lt_complement {x y : UInt8} (h : x < y) : ~~~y < ~~~x := by
  rw [UInt8.lt_iff_toNat_lt] at h ⊢
  have hy : y.toNat < 256 := y.toNat_lt
  simp only [UInt8.toNat_not, UInt8.size]
  omega

theorem Precedes.complement {as bs : Bytes} (h : Precedes as bs) :
    Precedes bs.complement as.complement := by
  induction h with
  | here as bs hxy => exact .here _ _ (complement_lt_complement hxy)
  | there x _ ih => exact .there _ ih

/-! ### Numbers -/

theorem capacity_pos (width : Nat) : 0 < capacity width := by
  induction width with
  | zero => exact Nat.one_pos
  | succ width ih => exact Nat.mul_pos ih (by decide)

/-- Only the low bytes are written, so the comparison is one of remainders. -/
theorem precedes_bigEndian_mod {width m n : Nat} (h : m % capacity width < n % capacity width) :
    Precedes (bigEndian width m) (bigEndian width n) := by
  induction width with
  | zero => simp only [capacity, Nat.mod_one] at h; omega
  | succ width ih =>
    rw [capacity, Nat.mod_mul, Nat.mod_mul] at h
    have digit (k : Nat) : (UInt8.ofNat (k / capacity width)).toNat = k / capacity width % 256 :=
      UInt8.toNat_ofNat'
    by_cases hd : m / capacity width % 256 = n / capacity width % 256
    · -- the leading bytes agree, so the rest decides
      have hb : UInt8.ofNat (m / capacity width) = UInt8.ofNat (n / capacity width) := by
        rw [← UInt8.toNat_inj, digit, digit, hd]
      rw [bigEndian, bigEndian, hb]
      rw [hd] at h
      exact .there _ (ih (by omega))
    · have hlt : m / capacity width % 256 < n / capacity width % 256 := by
        refine Nat.lt_of_le_of_ne (Nat.not_lt.1 fun hgt => ?_) hd
        have hn : n % capacity width < capacity width := Nat.mod_lt _ (capacity_pos width)
        have hs := Nat.mul_le_mul_left (capacity width) (Nat.succ_le_of_lt hgt)
        rw [Nat.mul_succ] at hs
        omega
      refine .here _ _ ?_
      rw [UInt8.lt_iff_toNat_lt, digit, digit]
      exact hlt

theorem precedes_bigEndian {width m n : Nat} (hmn : m < n) (hn : n < capacity width) :
    Precedes (bigEndian width m) (bigEndian width n) := by
  apply precedes_bigEndian_mod
  rw [Nat.mod_eq_of_lt (Nat.lt_trans hmn hn), Nat.mod_eq_of_lt hn]
  exact hmn

/-- The byte order of numbers of one width is their own order. -/
theorem compare_bigEndian {width m n : Nat} (hm : m < capacity width) (hn : n < capacity width)
    (s t : Bytes) :
    compare (bigEndian width m ++ s) (bigEndian width n ++ t) =
      (compare m n).then (compare s t) := by
  rcases Nat.lt_trichotomy m n with h | rfl | h
  · rw [compare_append_of_precedes (precedes_bigEndian h hn), Nat.compare_eq_lt.2 h]; rfl
  · rw [compare_append_left, Nat.compare_eq_eq.2 rfl]; rfl
  · rw [Std.OrientedCmp.gt_of_lt (compare_append_of_precedes (precedes_bigEndian h hm) t s),
      Nat.compare_eq_gt.2 h]
    rfl

end OrderedIndex.Bytes
