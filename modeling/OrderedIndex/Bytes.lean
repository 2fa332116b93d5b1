/-
  OrderedIndex/Bytes.lean
  =======================
  **Byte strings** — the only thing the ordered maps know.  `compare` on `Bytes`
  is the unsigned lexicographic order, in which a proper beginning of a byte
  string comes before it.

  Also here: the complement, which turns that order around for byte strings of
  which neither begins the other; numbers as big-endian bytes, whose byte order is
  the numeric order (`toNat_bigEndian`); and texts as UTF-8 (`ofUtf8?_utf8`,
  `utf8_of_ofUtf8?`).
-/

namespace OrderedIndex

/-- A byte string. -/
abbrev Bytes := List UInt8

namespace Bytes

/-- Every byte complemented. -/
def complement (bs : Bytes) : Bytes := bs.map (~~~ ·)

@[simp] theorem complement_complement (bs : Bytes) : bs.complement.complement = bs := by
  simp [complement, Function.comp_def]

@[simp] theorem length_complement (bs : Bytes) : bs.complement.length = bs.length := by
  simp [complement]

@[simp] theorem complement_append (as bs : Bytes) :
    complement (as ++ bs) = complement as ++ complement bs := by
  simp [complement]

/-! ### Numbers -/

/-- How many numbers `width` bytes can stand for. -/
def capacity : (width : Nat) → Nat
  | 0 => 1
  | width + 1 => capacity width * 256

/-- The `width` low bytes of `n`, most significant first. -/
def bigEndian : (width n : Nat) → Bytes
  | 0, _ => []
  | width + 1, n => UInt8.ofNat (n / capacity width) :: bigEndian width n

/-- The number that big-endian bytes stand for. -/
def toNat : Bytes → Nat
  | [] => 0
  | b :: bs => b.toNat * capacity bs.length + toNat bs

@[simp] theorem length_bigEndian (width n : Nat) : (bigEndian width n).length = width := by
  induction width with
  | zero => rfl
  | succ width ih => simp [bigEndian, ih]

theorem toNat_bigEndian_mod (width n : Nat) : toNat (bigEndian width n) = n % capacity width := by
  induction width with
  | zero => simp [bigEndian, toNat, capacity, Nat.mod_one]
  | succ width ih =>
    have hb : (UInt8.ofNat (n / capacity width)).toNat = n / capacity width % 256 :=
      UInt8.toNat_ofNat'
    rw [bigEndian, toNat, ih, length_bigEndian, hb, capacity, Nat.mod_mul, Nat.mul_comm]
    omega

/-- A number that fits the width is read back. -/
theorem toNat_bigEndian {width n : Nat} (h : n < capacity width) :
    toNat (bigEndian width n) = n := by
  rw [toNat_bigEndian_mod, Nat.mod_eq_of_lt h]

theorem toNat_lt (bs : Bytes) : toNat bs < capacity bs.length := by
  induction bs with
  | nil => simp [toNat, capacity]
  | cons b bs ih =>
    have hb : b.toNat + 1 ≤ 256 := b.toNat_lt
    have hm := Nat.mul_le_mul_right (capacity bs.length) hb
    rw [toNat, List.length_cons, capacity]
    rw [Nat.add_mul, Nat.one_mul] at hm
    omega

/-! ### Texts -/

/-- The UTF-8 form of a text. -/
def utf8 (s : String) : Bytes := s.toUTF8.data.toList

/-- The text whose UTF-8 form the bytes are, if there is one. -/
def ofUtf8? (bs : Bytes) : Option String := String.fromUTF8? ⟨bs.toArray⟩

@[simp] theorem ofUtf8?_utf8 (s : String) : ofUtf8? (utf8 s) = some s := by
  have h : (⟨s.toUTF8.data.toList.toArray⟩ : ByteArray) = s.toByteArray := by simp
  simp only [ofUtf8?, utf8, h]
  simp [String.fromUTF8?, String.fromUTF8, s.isValidUTF8]

theorem utf8_of_ofUtf8? {bs : Bytes} {s : String} (h : ofUtf8? bs = some s) : utf8 s = bs := by
  simp only [ofUtf8?, String.fromUTF8?] at h
  split at h
  · obtain rfl := Option.some.inj h
    simp [utf8, String.fromUTF8]
  · cases h

/-- Different texts have different UTF-8 forms. -/
theorem utf8_inj {s t : String} : utf8 s = utf8 t ↔ s = t := by
  refine ⟨fun h => ?_, fun h => h ▸ rfl⟩
  have := congrArg ofUtf8? h
  simpa using this

end Bytes
end OrderedIndex
