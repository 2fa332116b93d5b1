/-
  OrderedIndex/Proofs/KeyCanonical.lean
  =====================================
  **A key is read only if it has been written.**

  That a written key is read back is one half (`Key.read_of_write`).  The other half is
  that a reader takes nothing else: the bytes that it consumes are those that the
  writer makes of the value it gives.  There is no second form of anything:

    * eight bytes stand for one number, and `bigEndian_toNat` gives them back;
    * a zero byte in a content is either marked or part of the close, so the content
      tells its escaped form (`eq_escape_of_readEscaped`);
    * a boolean is one of two bytes, a text is valid UTF-8, and no other tag is known
      (`eq_ascending_of_readPayload`).

  Column by column this gives the whole key (`read_eq_ok_iff`).  An index entry that
  a scan can decode is therefore one that a removal finds again.
-/
import OrderedIndex.Proofs.Index.Conflict

namespace OrderedIndex

/-! ### Numbers -/

namespace Bytes

theorem toNat_inj {as bs : Bytes} (hlen : as.length = bs.length) (h : toNat as = toNat bs) :
    as = bs := by
  induction as generalizing bs with
  | nil => exact (List.length_eq_zero_iff.1 hlen.symm).symm
  | cons a as ih =>
    cases bs with
    | nil => cases hlen
    | cons b bs =>
      have hlen : as.length = bs.length := Nat.succ.inj hlen
      have ha := toNat_lt as
      have hb := toNat_lt bs
      simp only [toNat, hlen] at h ha
      -- the leading byte is the quotient, and the others are the remainder
      have hpos := capacity_pos bs.length
      have hdiv := congrArg (· / capacity bs.length) h
      have hmod := congrArg (· % capacity bs.length) h
      simp only [Nat.add_comm (_ * _), Nat.add_mul_div_right _ _ hpos, Nat.add_mul_mod_self_right,
        Nat.div_eq_of_lt ha, Nat.div_eq_of_lt hb, Nat.mod_eq_of_lt ha, Nat.mod_eq_of_lt hb,
          Nat.zero_add] at hdiv hmod
      rw [UInt8.toNat_inj.1 hdiv, ih hlen hmod]

theorem bigEndian_toNat (bs : Bytes) : bigEndian bs.length (toNat bs) = bs :=
  toNat_inj (length_bigEndian _ _) (toNat_bigEndian (toNat_lt bs))

end Bytes

/-! ### Components -/

namespace Component

open Bytes

variable {bs rest content : Bytes} {d : Direction} {v : Value} {offset n : Nat}

theorem eq_escape_of_readEscaped (h : readEscaped bs = (.ok content, rest)) :
    bs = escape content ++ rest := by
  induction bs using readEscaped.induct generalizing content with
  | case1 => cases h
  | case2 => cases h
  | case3 bs _ _ _ ih =>
    simp only [readEscaped, if_true, Prod.mk.injEq, map_eq_ok_iff] at h
    obtain ⟨⟨content, hcontent, rfl⟩, hrest⟩ := h
    have hbs := ih (Prod.ext hcontent hrest)
    simp [escape, hbs]
  | case4 bs =>
    cases h
    rfl
  | case5 mark bs hmark hzero => simp [readEscaped, hmark, hzero] at h
  | case6 b bs hb _ _ _ ih =>
    rw [readEscaped_cons_of_ne hb] at h
    simp only [Prod.mk.injEq, map_eq_ok_iff] at h
    obtain ⟨⟨content, hcontent, rfl⟩, hrest⟩ := h
    have hbs := ih (Prod.ext hcontent hrest)
    rw [escape, if_neg hb, List.cons_append, ← hbs]

theorem eq_bigEndian_of_readWord (h : readWord bs = (.ok n, rest)) :
    n < capacity 8 ∧ bs = bigEndian 8 n ++ rest := by
  unfold readWord at h
  split at h
  · cases h
  · rename_i hlen
    obtain ⟨rfl, rfl⟩ : toNat (bs.take 8) = n ∧ bs.drop 8 = rest := by simpa using h
    have htake : (bs.take 8).length = 8 := by simp; omega
    have hword := bigEndian_toNat (bs.take 8)
    have hlt := toNat_lt (bs.take 8)
    rw [htake] at hword hlt
    exact ⟨hlt, by rw [hword, List.take_append_drop]⟩

theorem distance_ofInt (hn : n < capacity 8) :
    distance (Int64.ofInt (Int64.minValue.toInt + n)) = n := by
  have hlo : Int64.minValue.toInt = -9223372036854775808 := rfl
  have hcap : capacity 8 = 18446744073709551616 := rfl
  rw [distance, hlo, Int64.toInt_ofInt_of_le (by omega) (by omega)]
  omega

theorem eq_ascending_of_readPayload {tag : UInt8} (h : readPayload offset tag bs = (.ok v, rest)) :
    ∃ x, ascending v = .ok x ∧ tag :: bs = x ++ rest := by
  unfold readPayload at h
  split at h
  case isTrue htag =>
    subst htag
    cases h
    exact ⟨_, rfl, rfl⟩
  split at h
  case isTrue htag =>
    subst htag
    rcases bs with _ | ⟨b, bs⟩
    · cases h
    simp only [readByte, Except.bind, Prod.mk.injEq] at h
    obtain ⟨hv, rfl⟩ := h
    split at hv
    · cases hv
      exact ⟨_, rfl, by simp_all⟩
    split at hv
    · cases hv
      exact ⟨_, rfl, by simp_all⟩
    · cases hv
  split at h
  case isTrue htag =>
    subst htag
    rcases hword : readWord bs with ⟨_ | n, rest'⟩
    · rw [hword] at h
      cases h
    obtain ⟨hlt, rfl⟩ := eq_bigEndian_of_readWord hword
    rw [hword] at h
    cases h
    exact ⟨_, rfl, by rw [distance_ofInt hlt]; rfl⟩
  split at h
  case isTrue htag =>
    subst htag
    rcases hcontent : readEscaped bs with ⟨_ | content, rest'⟩
    · rw [hcontent] at h
      cases h
    obtain rfl := eq_escape_of_readEscaped hcontent
    rcases hs : ofUtf8? content with _ | s
    · simp [hcontent, Except.bind, hs] at h
    simp only [hcontent, Except.bind, hs, Option.elim_some, Prod.mk.injEq, Except.ok.injEq] at h
    obtain ⟨rfl, rfl⟩ := h
    exact ⟨_, rfl, by rw [utf8_of_ofUtf8? hs]; rfl⟩
  split at h
  case isTrue htag =>
    subst htag
    rcases hcontent : readEscaped bs with ⟨_ | content, rest'⟩
    · rw [hcontent] at h
      cases h
    obtain rfl := eq_escape_of_readEscaped hcontent
    rw [hcontent] at h
    cases h
    exact ⟨_, rfl, rfl⟩
  case isFalse => cases h

theorem eq_write_of_read (h : read d offset bs = (.ok v, rest)) :
    ∃ x, write d v = .ok x ∧ bs = x ++ rest := by
  obtain ⟨hread, rfl⟩ : (readAscending offset (d.orient bs)).1 = .ok v ∧
      d.orient (readAscending offset (d.orient bs)).2 = rest := Prod.mk.inj h
  rcases horient : d.orient bs with _ | ⟨tag, bs'⟩
  · rw [horient] at hread
    cases hread
  rw [horient] at hread
  obtain ⟨x, hx, heq⟩ := eq_ascending_of_readPayload (Prod.ext hread rfl)
  refine ⟨d.orient x, map_eq_ok_iff.2 ⟨x, hx, rfl⟩, ?_⟩
  rw [← d.orient_append, ← d.orient_orient bs, horient]
  exact congrArg d.orient heq

end Component

/-! ### Parts of a key -/

namespace KeyReader

variable {ds : List Direction} {vs : List Value} {id : RowId} {r r' : KeyReader}

theorem components_of_readValues (h : readValues ds r = .ok (vs, r')) :
    vs.length = ds.length ∧ ∃ x, Key.components (ds.zip vs) = .ok x ∧ r.rest = x ++ r'.rest := by
  induction ds generalizing vs r with
  | nil =>
    cases h
    exact ⟨rfl, [], rfl, rfl⟩
  | cons d ds ih =>
    rcases hread : Component.read d r.offset r.rest with ⟨_ | v, rest⟩
    · simp [readValues, readValue, hread] at h
    simp only [readValues, readValue, hread, map_eq_ok_iff] at h
    obtain ⟨⟨ws, last⟩, hrest, heq⟩ := h
    obtain ⟨rfl, rfl⟩ := Prod.mk.inj heq
    obtain ⟨head, hhead, hrhead⟩ := Component.eq_write_of_read hread
    obtain ⟨hlen, tail, htail, hrtail⟩ := ih hrest
    refine ⟨congrArg Nat.succ hlen, head ++ tail, ?_, ?_⟩
    · simp [Key.components, hhead, htail]
    · change rest = tail ++ last.rest at hrtail
      rw [hrhead, hrtail, List.append_assoc]

theorem eq_ofRowId_of_readRowId (h : r.readRowId = (.ok id, r')) :
    r.rest = Key.ofRowId id ++ r'.rest := by
  rcases hword : Component.readWord r.rest with ⟨_ | n, rest⟩
  · simp [readRowId, hword] at h
  obtain ⟨hlt, heq⟩ := Component.eq_bigEndian_of_readWord hword
  simp only [readRowId, hword, map_ok, Prod.mk.injEq, Except.ok.injEq] at h
  obtain ⟨rfl, rfl⟩ := h
  rw [Key.ofRowId, UInt64.toNat_ofNat_of_lt' hlt, heq]
  rfl

end KeyReader

/-! ### Keys -/

namespace Key

variable {ds : List Direction} {vs : List Value} {id : RowId} {key : Bytes}
  {parts : List (Direction × Value)}

theorem read_eq_ok_iff :
    read ds key = .ok (vs, id) ↔ vs.length = ds.length ∧ write (ds.zip vs) id = .ok key := by
  constructor
  · intro h
    obtain ⟨⟨ws, r⟩, hvalues, h⟩ := bind_eq_ok_iff.1 h
    rcases hid : r.readRowId with ⟨_ | id', last⟩
    · simp [hid] at h
    simp only [hid, ok_bind, bind_eq_ok_iff, pure_eq_ok, Except.ok.injEq, Prod.mk.injEq] at h
    obtain ⟨_, hfinish, rfl, rfl⟩ := h
    have hnil : last.rest = [] := by simpa [KeyReader.finish] using hfinish
    obtain ⟨hlen, x, hx, hkey⟩ := KeyReader.components_of_readValues hvalues
    refine ⟨hlen, map_eq_ok_iff.2 ⟨x, hx, ?_⟩⟩
    rw [KeyReader.eq_ofRowId_of_readRowId hid, hnil, List.append_nil] at hkey
    exact hkey.symm
  · rintro ⟨hlen, h⟩
    exact read_of_write hlen h

theorem exists_components_iff :
    (∃ x, components parts = .ok x) ↔ ∀ part ∈ parts, part.2.isIndexable = true := by
  induction parts with
  | nil => simp [components]
  | cons part parts ih =>
    rw [List.forall_mem_cons, ← ih, ← KeyLayout.exists_write_iff (d := part.1), components]
    simp only [bind_eq_ok_iff]
    constructor
    · rintro ⟨x, head, hhead, tail, htail, -⟩
      exact ⟨⟨head, hhead⟩, tail, htail⟩
    · rintro ⟨⟨head, hhead⟩, tail, htail⟩
      exact ⟨_, head, hhead, tail, htail, rfl⟩

/-- The key that comes of pushing values one after the other, and then a row id. -/
def pushAll (parts : List (Direction × Value)) (id : RowId) : Except CodecError Bytes :=
  (parts.foldlM (fun key part => pushValue key part.1 part.2) []).map (pushRowId · id)

theorem foldlM_pushValue (parts : List (Direction × Value)) (key : Bytes) :
    parts.foldlM (fun key part => pushValue key part.1 part.2) key =
      (components parts).map (key ++ ·) := by
  induction parts generalizing key with
  | nil => simp [components]
  | cons part parts ih =>
    rw [List.foldlM_cons, pushValue, components]
    rcases Component.write part.1 part.2 with e | head
    · rfl
    simp only [map_ok, ok_bind, ih]
    rcases components parts with e | tail
    · rfl
    · simp

theorem pushAll_eq_write (parts : List (Direction × Value)) (id : RowId) :
    pushAll parts id = write parts id := by
  rw [pushAll, foldlM_pushValue, write]
  rcases components parts with e | x <;> rfl

/-- **Reading accepts exactly what pushing produces**: for any directions and any bytes, reading a
    value for each direction, then the row id, then the end gives values and a row id if and only if
    pushing these gives the bytes.  So every tuple of values that can be indexed is read back from
    its key, no two keys are read as the same tuple, and the key of a row tells the row's id and its
    values at the index columns, and leaves every other slot unset. -/
theorem read_accepts_pushed :
    (∀ (ds : List Direction) (key : Bytes) (vs : List Value) (id : RowId),
      read ds key = .ok (vs, id) ↔ vs.length = ds.length ∧ pushAll (ds.zip vs) id = .ok key) ∧
    (∀ (ds : List Direction) (vs : List Value) (id : RowId), vs.length = ds.length →
      (∀ v ∈ vs, v.isIndexable = true) → ∃ key, pushAll (ds.zip vs) id = .ok key ∧
        read ds key = .ok (vs, id)) ∧
    (∀ (ds : List Direction) (key key' : Bytes) (tuple : List Value × RowId),
      read ds key = .ok tuple → read ds key' = .ok tuple → key = key') ∧
    ∀ (l : KeyLayout) (row : Row) (key : Bytes), l.encode row = .ok key →
      ∃ search, l.decode key = .ok search ∧ l.Tells search row := by
  simp only [pushAll_eq_write]
  refine ⟨fun ds key vs id => read_eq_ok_iff, ?_, ?_, fun l row key => KeyLayout.exists_decode⟩
  · intro ds vs id hlen hvs
    have hparts : ∀ part ∈ ds.zip vs, part.2.isIndexable = true := fun part hpart =>
      hvs part.2 (List.of_mem_zip hpart).2
    obtain ⟨x, hx⟩ := exists_components_iff.2 hparts
    have hkey : write (ds.zip vs) id = .ok (pushRowId x id) := map_eq_ok_iff.2 ⟨x, hx, rfl⟩
    exact ⟨_, hkey, read_of_write hlen hkey⟩
  · rintro ds key key' ⟨vs, id⟩ h h'
    have hkey := (read_eq_ok_iff.1 h).2
    rw [(read_eq_ok_iff.1 h').2] at hkey
    exact (Except.ok.inj hkey).symm

/-- A text with a zero byte in a descending column, and the smallest integer in an ascending one. -/
theorem read_accepts_pushed_mixed :
    let ds : List Direction := [.descending, .ascending]
    let vs : List Value := [.text "a\x00", .integer Int64.minValue]
    let key : Bytes :=
      [0xfc, 0x9e, 0xff, 0x00, 0xff, 0xff, 0x02, 0, 0, 0, 0, 0, 0, 0, 0, 0, 0, 0, 0, 0, 0, 0, 7]
    let row : Row := ⟨⟨7⟩, [.null, .integer Int64.minValue, .text "a\x00"]⟩
    let l : KeyLayout := ⟨[⟨2, .descending⟩, ⟨1, .ascending⟩], 3⟩
    vs.length = ds.length ∧ (∀ v ∈ vs, v.isIndexable = true) ∧ pushAll (ds.zip vs) ⟨7⟩ = .ok key ∧
      read ds key = .ok (vs, ⟨7⟩) ∧ l.encode row = .ok key ∧
      ∃ search, l.decode key = .ok search ∧ l.Tells search row := by
  intro ds vs key row l
  have hpush : pushAll (ds.zip vs) ⟨7⟩ = .ok key := by decide
  have hkey : l.encode row = .ok key := by decide
  exact ⟨rfl, by decide, hpush, (read_accepts_pushed.1 ds key vs ⟨7⟩).2 ⟨rfl, hpush⟩, hkey,
    read_accepts_pushed.2.2.2 l row key hkey⟩

end Key
end OrderedIndex
