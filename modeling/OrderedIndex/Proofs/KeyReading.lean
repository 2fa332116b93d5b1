/-
  OrderedIndex/Proofs/KeyReading.lean
  ===================================
  **A key is read back.**

  Each component says by itself where it ends, so a reader in front of it consumes
  exactly its bytes and gives its value, whatever follows (`read_write`).  Column by
  column that takes a whole key apart, and the row id is what is left at the end
  (`Key.read_of_write`).  So the key of a row tells the row's id and its values at the
  index columns, and nothing about the other columns (`decode_encodeAs`).
-/
import OrderedIndex.Proofs.KeyOrder

namespace OrderedIndex

/-! ### Components -/

namespace Component

open Bytes

theorem readEscaped_cons_of_ne {b : UInt8} (hb : b ≠ 0) (rest : Bytes) :
    readEscaped (b :: rest) = ((readEscaped rest).1.map (b :: ·), (readEscaped rest).2) := by
  cases rest <;> simp [readEscaped, hb]

theorem readEscaped_escape (bs t : Bytes) : readEscaped (escape bs ++ t) = (.ok bs, t) := by
  induction bs with
  | nil => rfl
  | cons b bs ih =>
    rw [escape]
    by_cases hb : b = 0
    · simp [hb, readEscaped, ih]
    · rw [if_neg hb, List.cons_append, readEscaped_cons_of_ne hb, ih]
      rfl

theorem readWord_bigEndian {n : Nat} (hn : n < capacity 8) (t : Bytes) :
    readWord (bigEndian 8 n ++ t) = (.ok n, t) := by
  have hlen : ¬(bigEndian 8 n ++ t).length < 8 := by simp
  have htake : (bigEndian 8 n ++ t).take 8 = bigEndian 8 n := by simp
  have hdrop : (bigEndian 8 n ++ t).drop 8 = t := by simp
  rw [readWord, if_neg hlen, htake, hdrop, toNat_bigEndian hn]

theorem ofInt_distance (n : Int64) : Int64.ofInt (Int64.minValue.toInt + distance n) = n := by
  have hd : Int64.minValue.toInt + (distance n : Int) = n.toInt := by
    have h := int64_bounds n
    simp only [distance]
    omega
  rw [hd, Int64.ofInt_toInt]

theorem readAscending_ascending {v : Value} {x : Bytes} (h : ascending v = .ok x) (offset : Nat)
    (t : Bytes) :
    readAscending offset (x ++ t) = (.ok v, t) := by
  cases v with
  | null => cases h; rfl
  | bool b => cases h; cases b <;> rfl
  | integer n =>
    cases h
    show readPayload offset integerTag (bigEndian 8 (distance n) ++ t) = _
    rw [readPayload, if_neg (by decide), if_neg (by decide), if_pos rfl,
      readWord_bigEndian (distance_lt n)]
    show (Except.ok (Value.integer (Int64.ofInt (Int64.minValue.toInt + distance n))), t) = _
    rw [ofInt_distance]
  | text s =>
    cases h
    show readPayload offset textTag (escape (utf8 s) ++ t) = _
    simp [readPayload, nullTag, boolTag, integerTag, textTag, readEscaped_escape, Except.bind]
  | bytes b =>
    cases h
    show readPayload offset bytesTag (escape b ++ t) = _
    simp [readPayload, nullTag, boolTag, integerTag, textTag, bytesTag, readEscaped_escape]
  | clob s => cases h
  | blob b => cases h

theorem read_write {d : Direction} {v : Value} {x : Bytes} (h : write d v = .ok x) (offset : Nat)
    (t : Bytes) :
    read d offset (x ++ t) = (.ok v, t) := by
  obtain ⟨y, hy, rfl⟩ := map_eq_ok_iff.1 h
  rw [read, d.orient_append, d.orient_orient, readAscending_ascending hy]
  show (Except.ok v, d.orient (d.orient t)) = _
  rw [d.orient_orient]

end Component

/-! ### Search rows -/

namespace SearchRow

@[simp] theorem value?_unset (columns c : Nat) : (unset columns).value? c = none := by
  simp only [unset, value?, List.getElem?_replicate]
  split <;> rfl

theorem value?_set (r : SearchRow) (column c : Nat) (v : Value) :
    (r.set column v).value? c = if c = column then some v else r.value? c := by
  have hlen : column < (r.values ++ List.replicate (column + 1 - r.values.length) none).length := by
    simp only [List.length_append, List.length_replicate]
    omega
  simp only [set, value?]
  by_cases hc : c = column
  · rw [if_pos hc, hc, List.getElem?_set_self hlen]
    rfl
  · rw [if_neg hc, List.getElem?_set_ne (Ne.symm hc)]
    by_cases hr : c < r.values.length
    · rw [List.getElem?_append_left hr]
    · -- the slots in between are unset, as is everything beyond the row
      rw [List.getElem?_append_right (Nat.not_lt.1 hr), List.getElem?_eq_none (Nat.not_lt.1 hr),
        List.getElem?_replicate]
      split <;> rfl

end SearchRow

/-! ### Keys -/

namespace KeyReader

theorem readValues_components {ds : List Direction} {vs : List Value} {x : Bytes}
    (hlen : vs.length = ds.length) (hx : Key.components (ds.zip vs) = .ok x) (offset : Nat)
    (t : Bytes) :
    ∃ offset', readValues ds ⟨offset, x ++ t⟩ = .ok (vs, ⟨offset', t⟩) := by
  induction ds generalizing vs x offset with
  | nil =>
    obtain rfl := List.length_eq_zero_iff.1 hlen
    cases hx
    exact ⟨offset, rfl⟩
  | cons d ds ih =>
    rcases vs with _ | ⟨v, vs⟩
    · cases hlen
    obtain ⟨head, hhead, hx⟩ := bind_eq_ok_iff.1 hx
    obtain ⟨tail, htail, hx⟩ := bind_eq_ok_iff.1 hx
    cases hx
    have hread := Component.read_write hhead offset (tail ++ t)
    obtain ⟨offset', hrest⟩ :=
      ih (Nat.succ.inj hlen) htail (offset + ((head ++ (tail ++ t)).length - (tail ++ t).length))
    refine ⟨offset', ?_⟩
    rw [readValues, readValue, List.append_assoc]
    simp only [hread, moveTo, hrest, map_ok]

theorem readRowId_ofRowId (id : RowId) (offset : Nat) :
    readRowId ⟨offset, Key.ofRowId id⟩ = (.ok id, ⟨offset + 8, []⟩) := by
  have hword := Component.readWord_bigEndian id.word.toNat_lt []
  rw [List.append_nil] at hword
  simp [readRowId, moveTo, Key.ofRowId, hword]

end KeyReader

theorem Key.read_of_write {ds : List Direction} {vs : List Value} {id : RowId} {key : Bytes}
    (hlen : vs.length = ds.length) (h : write (ds.zip vs) id = .ok key) :
    read ds key = .ok (vs, id) := by
  obtain ⟨x, hx, rfl⟩ := map_eq_ok_iff.1 h
  obtain ⟨offset, hvalues⟩ := KeyReader.readValues_components hlen hx 0 (ofRowId id)
  simp only [read, pushRowId, KeyReader.start, hvalues, ok_bind, KeyReader.readRowId_ofRowId]
  rfl

namespace KeyLayout

def partValues (row : Row) (ps : List KeyPart) : List Value :=
  ps.filterMap fun p => row.value? p.column

theorem partValues_cons {row : Row} {p : KeyPart} {v : Value} (hv : row.value? p.column = some v)
    (ps : List KeyPart) :
    partValues row (p :: ps) = v :: partValues row ps := by
  simp [partValues, hv]

theorem components_of_rowComponents {row : Row} {ps : List KeyPart} {x : Bytes}
    (hx : rowComponents row ps = .ok x) :
    (partValues row ps).length = (ps.map (·.direction)).length ∧
      Key.components ((ps.map (·.direction)).zip (partValues row ps)) = .ok x := by
  induction ps generalizing x with
  | nil => cases hx; exact ⟨rfl, rfl⟩
  | cons p ps ih =>
    obtain ⟨v, head, tail, hv, hhead, htail, rfl⟩ := rowComponents_cons_eq_ok_iff.1 hx
    obtain ⟨hlen, htail⟩ := ih htail
    rw [partValues_cons hv, List.map_cons, List.zip_cons_cons]
    exact ⟨congrArg Nat.succ hlen, by simp [Key.components, hhead, htail]⟩

theorem value?_setParts {row : Row} {ps : List KeyPart}
    (hps : ∀ p ∈ ps, row.value? p.column ≠ none) (r : SearchRow) (c : Nat) :
    (setParts r (ps.zip (partValues row ps))).value? c =
      if ∃ p ∈ ps, p.column = c then row.value? c else r.value? c := by
  induction ps generalizing r with
  | nil => simp [setParts, partValues]
  | cons p ps ih =>
    rw [List.forall_mem_cons] at hps
    obtain ⟨v, hv⟩ := Option.ne_none_iff_exists'.1 hps.1
    rw [partValues_cons hv, List.zip_cons_cons, setParts, ih hps.2, SearchRow.value?_set]
    by_cases hc : p.column = c
    · subst hc
      simp [hv]
    · simp [hc, Ne.symm hc]

theorem value?_ne_none_of_rowComponents {row : Row} {ps : List KeyPart} {x : Bytes}
    (hx : rowComponents row ps = .ok x) : ∀ p ∈ ps, row.value? p.column ≠ none := by
  intro p hp
  obtain ⟨v, hv, -⟩ := exists_rowComponents_iff.1 ⟨x, hx⟩ p hp
  rw [hv]
  exact Option.some_ne_none v

/-- **The key of a row is read back.**  It tells the row id it ends in and the values at the index
    columns, and leaves every other slot unset. -/
theorem decode_encodeAs {l : KeyLayout} {row : Row} {id : RowId} {key : Bytes}
    (h : l.encodeAs row id = .ok key) :
    ∃ r, l.decode key = .ok r ∧ r.rowId = some id ∧
      ∀ c, r.value? c = if ∃ p ∈ l.parts, p.column = c then row.value? c else none := by
  obtain ⟨x, hx, rfl⟩ := encodeAs_eq_ok_iff.1 h
  obtain ⟨hlen, hcomponents⟩ := components_of_rowComponents hx
  have hread :
      Key.read (l.parts.map (·.direction)) (x ++ Key.ofRowId id) =
        .ok (partValues row l.parts, id) :=
    Key.read_of_write hlen (map_eq_ok_iff.2 ⟨x, hcomponents, rfl⟩)
  refine ⟨_, by rw [decode, hread], rfl, ?_⟩
  intro c
  have hset := value?_setParts (value?_ne_none_of_rowComponents hx) (.unset l.columnCount) c
  rw [SearchRow.value?_unset] at hset
  exact hset

end KeyLayout
end OrderedIndex
