/-
  OrderedIndex/Proofs/StoredRow.lean
  ==================================
  **A stored row is read back**, whatever follows it (`readValues_encode`, `decode_encode`).

  One lemma for each writer, from the parts to the whole: texts, integers, arrays,
  labelled contents, values, rows.  A writer has two forms where a length may
  outgrow its header, and both are read back.
-/
import OrderedIndex.Proofs.Cbor.Item
import OrderedIndex.Proofs.ValueOrder
import OrderedIndex.StoredRow

namespace OrderedIndex.StoredRow

open Cbor

/-! ### Texts -/

theorem readText_of_chunks {bs rest t : Bytes} {length : Option Nat} {chunks : List Bytes}
    {texts : List String} (hi : readItem bs = some (.text length, rest))
    (hc : readChunks .text length rest = some (chunks, t))
    (ht : chunks.mapM Bytes.ofUtf8? = some texts) : readText bs = some (String.join texts, t) := by
  simp [readText, hi, StringKind.length?, hc, ht]

theorem mapM_ofUtf8? (texts : List String) :
    (texts.map Bytes.utf8).mapM Bytes.ofUtf8? = some texts := by
  induction texts with
  | nil => rfl
  | cons s texts ih => simp [List.mapM_cons, ih]

theorem join_toString (cs : List Char) : String.join (cs.map Char.toString) = String.ofList cs := by
  have h (acc : String) : (cs.map Char.toString).foldl (· ++ ·) acc = acc ++ String.ofList cs := by
    induction cs generalizing acc with
    | nil => simp
    | cons c cs ih =>
      rw [List.map_cons, List.foldl_cons, ih, String.ofList_cons, ← String.append_assoc]
      rfl
  simpa [String.join] using h ""

theorem length_utf8_toString (c : Char) : (Bytes.utf8 c.toString).length < Bytes.capacity 8 := by
  have hlen : (Bytes.utf8 c.toString).length = c.utf8Size := by
    rw [← String.utf8ByteSize_singleton]
    rfl
  have hcap : 4 < Bytes.capacity 8 := by decide
  have hle := c.utf8Size_le_four
  omega

theorem writeChunk_eq (s : String) : writeChunk s = chunk .text (Bytes.utf8 s) := rfl

theorem readText_writeText (s : String) : ReadsAs readText (writeText s) s := by
  intro t
  rw [writeText]
  split
  · rename_i h
    have hi := readItem_of_read (read_chunk .text h t) (by simp [StringKind.header])
    have hc :
        readChunks .text (some (Bytes.utf8 s).length) (Bytes.utf8 s ++ t) =
          some ([Bytes.utf8 s], t) := by
      rw [readChunks, take?_append]
      rfl
    have hread := readText_of_chunks hi hc (mapM_ofUtf8? [s])
    rw [writeChunk_eq, hread]
    simp [String.join]
  · -- too long for a header: one chunk for each character
    have hchunks : s.toList.flatMap (fun c => writeChunk c.toString) =
        (((s.toList.map Char.toString).map Bytes.utf8).map (chunk .text)).flatten := by
      rw [List.flatMap_def, List.map_map, List.map_map]
      rfl
    have hsmall :
        ∀ bs ∈ (s.toList.map Char.toString).map Bytes.utf8, bs.length < Bytes.capacity 8 := by
      rw [List.map_map, List.forall_mem_map]
      exact fun c _ => length_utf8_toString c
    have hi := readItem_writeIndefinite (by decide : 3 < 8) rfl (by simp)
    have hread := readText_of_chunks (hi _) (readChunks_none .text hsmall t) (mapM_ofUtf8? _)
    rw [hchunks, List.append_assoc, List.append_assoc, List.singleton_append, hread,
      join_toString, String.ofList_toList]

/-! ### Numbers -/

theorem readInteger_of_read {bs rest : Bytes} {n : Nat}
    (h : Header.read bs = some (.positive n, rest)) :
    readInteger bs = some ((n : Int), rest) := by
  cases bs with
  | nil => cases h
  | cons b bs => simp [readInteger, readInteger.go, h]

theorem readInteger_of_read_negative {bs rest : Bytes} {n : Nat}
    (h : Header.read bs = some (.negative n, rest)) :
    readInteger bs = some (-1 - (n : Int), rest) := by
  cases bs with
  | nil => cases h
  | cons b bs => simp [readInteger, readInteger.go, h]

theorem readInteger_write {n : Nat} (hn : n < Bytes.capacity 8) :
    ReadsAs readInteger (Header.write 0 n) n := by
  intro t
  exact readInteger_of_read (Header.read_write (by decide) hn t)

theorem readInt64_writeInteger (n : Int64) : ReadsAs readInt64 (writeInteger n.toInt) n := by
  intro t
  have hcap : Bytes.capacity 8 = 18446744073709551616 := rfl
  have hlo : Int64.minValue.toInt = -9223372036854775808 := rfl
  have hhi : Int64.maxValue.toInt = 9223372036854775807 := rfl
  have hle := n.le_toInt
  have hlt := n.toInt_lt
  have hread : readInteger (writeInteger n.toInt ++ t) = some (n.toInt, t) := by
    rw [writeInteger]
    split
    · rw [readInteger_write (by omega)]
      simp only [Option.some.injEq, Prod.mk.injEq, and_true]
      omega
    · rw [readInteger_of_read_negative (Header.read_write (by decide) (by omega) t)]
      simp only [Option.some.injEq, Prod.mk.injEq, and_true]
      omega
  have hbounds : Int64.minValue.toInt ≤ n.toInt ∧ n.toInt ≤ Int64.maxValue.toInt := by omega
  simp only [readInt64, hread, Option.bind_eq_bind, Option.bind_some,
    if_pos hbounds, Int64.ofInt_toInt]
  rfl

theorem readByte_write (b : UInt8) : ReadsAs readByte (Header.write 0 b.toNat) b := by
  intro t
  have hlt : b.toNat < 256 := b.toNat_lt
  have hcap : 256 < Bytes.capacity 8 := by decide
  have hbounds : (0 : Int) ≤ b.toNat ∧ (b.toNat : Int) < 256 := by omega
  simp [readByte, readInteger_write (by omega : b.toNat < Bytes.capacity 8) t, hbounds]

theorem readBool_writeBool (b : Bool) : ReadsAs readBool (writeBool b) b := by
  intro t
  cases b <;> rfl

/-! ### Arrays -/

/-- The reader of an array whose header is read finds the elements. -/
theorem read_writeArray {α : Type} {element : Bytes → Option (α × Bytes)} {written : α → Bytes}
    {as : List α} (h : ∀ a ∈ as, ReadsAs element (written a) a)
    (hb : ∀ a ∈ as, Begins (written a)) (t : Bytes) :
    ∃ length rest, readItem (writeArray (as.map written) ++ t) = some (.array length, rest) ∧
      readElements element length rest = some (as, t) := by
  rw [writeArray]
  split
  · rename_i hlen
    refine ⟨some as.length, (as.map written).flatten ++ t, ?_, readElements_counted h t⟩
    rw [List.append_assoc, List.length_map]
    rw [List.length_map] at hlen
    exact readItem_write (by decide) hlen rfl (by simp) _
  · refine ⟨none, (as.map written).flatten ++ Header.stopByte :: t, ?_, readElements_none h hb t⟩
    rw [List.append_assoc, List.append_assoc, List.singleton_append]
    exact readItem_writeIndefinite (by decide) rfl (by simp) _

theorem begins_writeByte (b : UInt8) : Begins (Header.write 0 b.toNat) := by
  have hlt : b.toNat < 256 := b.toNat_lt
  have hcap : 256 < Bytes.capacity 8 := by decide
  exact begins_write (by decide) (by omega)

theorem readBytes_writeBytes (b : Bytes) : ReadsAs readBytes (writeBytes b) b := by
  intro t
  have hread : ∀ x ∈ b, ReadsAs readByte (Header.write 0 x.toNat) x := fun x _ => readByte_write x
  obtain ⟨length, rest, hi, he⟩ := read_writeArray hread (fun x _ => begins_writeByte x) t
  simp [readBytes, writeBytes, hi, he]

/-! ### Values -/

theorem ofName?_name (l : Label) : Label.ofName? (Bytes.utf8 l.name) = some l := by
  cases l <;> decide

theorem length_name (l : Label) : (Bytes.utf8 l.name).length < Bytes.capacity 8 := by
  cases l <;> decide

theorem writeText_name (l : Label) : writeText l.name = chunk .text (Bytes.utf8 l.name) := by
  rw [writeText, if_pos (length_name l), writeChunk_eq]

theorem readItem_writeText_name (l : Label) (t : Bytes) :
    readItem (writeText l.name ++ t) = some (.text (some (Bytes.utf8 l.name).length),
      Bytes.utf8 l.name ++ t) := by
  rw [writeText_name]
  exact readItem_of_read (read_chunk .text (length_name l) t) (by simp)

theorem readLabel_name (l : Label) (t : Bytes) :
    readLabel (.text (some (Bytes.utf8 l.name).length)) (Bytes.utf8 l.name ++ t) = some (l, t) := by
  simp [readLabel, take?_append, ofName?_name]

theorem readValue_writeEntry (l : Label) (content t : Bytes) :
    readValue (writeEntry l content ++ t) = readContent l (content ++ t) := by
  have hmap := readItem_write (n := 1) (by decide : 5 < 8) (by decide) rfl (by simp)
  rw [writeEntry, List.append_assoc, List.append_assoc]
  simp [readValue, hmap _, readItem_writeText_name, readLabel_name]

theorem readValue_writeValue (v : Value) : ReadsAs readValue (writeValue v) v := by
  intro t
  cases v with
  | null =>
    rw [writeValue]
    simp [readValue, readItem_writeText_name, readLabel_name, readContent]
  | bool b => rw [writeValue, readValue_writeEntry, readContent, readBool_writeBool]; rfl
  | integer n => rw [writeValue, readValue_writeEntry, readContent, readInt64_writeInteger]; rfl
  | text s => rw [writeValue, readValue_writeEntry, readContent, readText_writeText]; rfl
  | bytes b => rw [writeValue, readValue_writeEntry, readContent, readBytes_writeBytes]; rfl
  | clob s => rw [writeValue, readValue_writeEntry, readContent, readText_writeText]; rfl
  | blob b => rw [writeValue, readValue_writeEntry, readContent, readBytes_writeBytes]; rfl

theorem begins_writeEntry (l : Label) (content : Bytes) : Begins (writeEntry l content) :=
  begins_append (begins_append (begins_write (by decide) (by decide)) _) _

theorem begins_writeValue (v : Value) : Begins (writeValue v) := by
  cases v with
  | null => rw [writeValue, writeText_name]; exact begins_chunk .text (length_name .null)
  | _ => exact begins_writeEntry _ _

/-! ### Rows -/

theorem readValues_encode (values : List Value) : ReadsAs readValues (encode values) values := by
  intro t
  obtain ⟨length, rest, hi, he⟩ :=
    read_writeArray (fun v _ => readValue_writeValue v) (fun v (_ : v ∈ values) =>
      begins_writeValue v) t
  simp [readValues, encode, hi, he]

theorem decode_of_readValues {bs rest : Bytes} {values : List Value}
    (h : readValues bs = some (values, rest)) :
    decode bs = .ok values := by
  rw [decode, h]

theorem decode_encode_values (values : List Value) : decode (encode values) = .ok values := by
  have h := readValues_encode values []
  rw [List.append_nil] at h
  exact decode_of_readValues h

/-- **Stored rows are read back unchanged.**  Reading ends where the stored row ends, so it does not
    matter what comes after it.  And whatever bytes are read as a row, the stored form of that row
    is read in the same way. -/
theorem decode_encode (values : List Value) (t bs : Bytes) :
    readValues (encode values ++ t) = some (values, t) ∧ decode (encode values ++ t) = .ok values ∧
      (decode bs >>= fun read => decode (encode read)) = decode bs := by
  have h := readValues_encode values t
  refine ⟨h, decode_of_readValues h, ?_⟩
  rcases hbs : decode bs with e | read
  · rfl
  · exact decode_encode_values read

/-- An array of indefinite length, a tagged label, an integer in more bytes than it needs, and a
    byte after the row. -/
example :
    readValues [0x9f, 0xa1, 0xc1, 0x67, 0x49, 0x6e, 0x74, 0x65, 0x67, 0x65, 0x72, 0x19,
      0x00, 0x05, 0xff, 0x00] =
        some ([.integer 5], [0x00]) ∧
      encode [.integer 5] = [0x81, 0xa1, 0x67, 0x49, 0x6e, 0x74, 0x65, 0x67, 0x65, 0x72, 0x05] := by
  decide +kernel

end OrderedIndex.StoredRow
