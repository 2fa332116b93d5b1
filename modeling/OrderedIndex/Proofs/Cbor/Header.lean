/-
  OrderedIndex/Proofs/Cbor/Header.lean
  ====================================
  **Headers are read back.**

  A reader is given more bytes than it needs, so the statement for each pair of a
  writer and a reader is that the reader consumes what was written and leaves the
  rest, whatever that is: `ReadsAs read bs a`.  For headers it says that the shortest
  form of an argument announces how many bytes follow and that these are read as the
  argument again (`readArgument_write`), for each of the five widths.
-/
import OrderedIndex.Cbor.Header
import OrderedIndex.Proofs.ByteOrder

namespace OrderedIndex.Cbor

/-- The bytes are read as `a`, whatever follows them. -/
def ReadsAs {α : Type} (read : Bytes → Option (α × Bytes)) (bs : Bytes) (a : α) : Prop :=
  ∀ t, read (bs ++ t) = some (a, t)

theorem take?_append (bs t : Bytes) : take? bs.length (bs ++ t) = some (bs, t) := by
  induction bs with
  | nil => rfl
  | cons b bs ih => rw [List.length_cons, List.cons_append, take?, ih]; rfl

namespace Header

/-- The low five bits of the initial byte of a header with argument `n`, and the bytes that follow
    it. -/
def argumentParts (n : Nat) : Nat × Bytes :=
  if n < 24 then (n, [])
  else if n < Bytes.capacity 1 then (24, Bytes.bigEndian 1 n)
  else if n < Bytes.capacity 2 then (25, Bytes.bigEndian 2 n)
  else if n < Bytes.capacity 4 then (26, Bytes.bigEndian 4 n)
  else (27, Bytes.bigEndian 8 n)

theorem write_eq (major n : Nat) :
    write major n = UInt8.ofNat (32 * major + (argumentParts n).1) :: (argumentParts n).2 := by
  simp only [write, argumentParts]
  repeat' split
  all_goals rfl

theorem argumentParts_lt (n : Nat) : (argumentParts n).1 < 28 := by
  simp only [argumentParts]
  repeat' split
  all_goals simp only
  all_goals omega

theorem readArgument_bigEndian (info width : Nat) {n : Nat} (hinfo : ¬info < 24) (hlt : info < 28)
    (hw : 1 <<< (info - 24) = width) (hn : n < Bytes.capacity width) (t : Bytes) :
    readArgument info (Bytes.bigEndian width n ++ t) = some (some n, t) := by
  have htake := take?_append (Bytes.bigEndian width n) t
  rw [Bytes.length_bigEndian] at htake
  rw [readArgument, if_neg hinfo, if_pos hlt, hw, htake]
  simp [Bytes.toNat_bigEndian hn]

theorem readArgument_write {n : Nat} (hn : n < Bytes.capacity 8) (t : Bytes) :
    readArgument (argumentParts n).1 ((argumentParts n).2 ++ t) = some (some n, t) := by
  simp only [argumentParts]
  split
  · rename_i h
    rw [readArgument, if_pos h]
    rfl
  split
  · exact readArgument_bigEndian 24 1 (by decide) (by decide) rfl ‹_› t
  split
  · exact readArgument_bigEndian 25 2 (by decide) (by decide) rfl ‹_› t
  split
  · exact readArgument_bigEndian 26 4 (by decide) (by decide) rfl ‹_› t
  · exact readArgument_bigEndian 27 8 (by decide) (by decide) rfl hn t

/-- A header is read back as the header of its major type and argument. -/
theorem read_write {major n : Nat} (hm : major < 8) (hn : n < Bytes.capacity 8) (t : Bytes) :
    read (write major n ++ t) = (ofParts? major (argumentParts n).1 (some n)).map (·, t) := by
  have hlt := argumentParts_lt n
  have hb :
      (UInt8.ofNat (32 * major + (argumentParts n).1)).toNat = 32 * major + (argumentParts n).1 :=
    UInt8.toNat_ofNat_of_lt' (by show _ < 256; omega)
  have hinfo : (32 * major + (argumentParts n).1) % 32 = (argumentParts n).1 := by omega
  have hmajor : (32 * major + (argumentParts n).1) / 32 = major := by omega
  rw [write_eq, List.cons_append, read]
  simp only [hb, hinfo, hmajor, readArgument_write hn, Option.bind_eq_bind, Option.bind_some]
  cases ofParts? major (argumentParts n).1 (some n) <;> rfl

theorem read_writeIndefinite {major : Nat} (hm : major < 8) (t : Bytes) :
    read (writeIndefinite major ++ t) = (ofParts? major 31 none).map (·, t) := by
  have hb : (UInt8.ofNat (32 * major + 31)).toNat = 32 * major + 31 :=
    UInt8.toNat_ofNat_of_lt' (by show _ < 256; omega)
  have hinfo : (32 * major + 31) % 32 = 31 := by omega
  have hmajor : (32 * major + 31) / 32 = major := by omega
  have harg : readArgument 31 t = some (none, t) := rfl
  rw [writeIndefinite, List.cons_append, read]
  simp only [hb, hinfo, hmajor, List.nil_append, harg, Option.bind_eq_bind, Option.bind_some]
  cases ofParts? major 31 none <;> rfl

theorem read_stopByte (t : Bytes) : read (stopByte :: t) = some (.stop, t) := rfl

end Header
end OrderedIndex.Cbor
