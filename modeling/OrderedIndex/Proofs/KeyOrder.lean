/-
  OrderedIndex/Proofs/KeyOrder.lean
  =================================
  **The byte order of keys is the order of rows.**

  A key is the components of a row, one for each index column, and the row id.  The
  induction is on the columns: two components either part, and then the values of
  that column decide, or they are the same bytes, and then the rest decides
  (`compare_rowComponents`).  The row id comes last, so it decides among rows with
  equal columns only (`compare_encodeAs`).

  A probe is such a key cut off at the first column that the search row leaves
  unset.  It is at or before a stored key exactly if the stored row is not before
  the search row, and, when the probe is a whole key, its row id not before the one
  searched for (`probeComponents_le_iff`).
-/
import OrderedIndex.Index.KeyLayout
import OrderedIndex.Proofs.ComponentOrder

namespace OrderedIndex

theorem RowId.isLE_compare {i j : RowId} : (compare i j).isLE = true ↔ i.word ≤ j.word :=
  Std.isLE_compare (a := i.word)

theorem Key.compare_ofRowId (i j : RowId) : compare (ofRowId i) (ofRowId j) = compare i j := by
  have hi : i.word.toNat < Bytes.capacity 8 := i.word.toNat_lt
  have hj : j.word.toNat < Bytes.capacity 8 := j.word.toNat_lt
  have h := Bytes.compare_bigEndian hi hj [] []
  have hw : compare i.word.toNat j.word.toNat = compare i j := by
    rcases hij : compare i.word j.word with _ | _ | _
    · exact (Nat.compare_eq_lt.2 (UInt64.lt_iff_toNat_lt.1 (Std.compare_eq_lt.1 hij))).trans
        hij.symm
    · exact (Nat.compare_eq_eq.2 (congrArg UInt64.toNat (Std.LawfulEqOrd.eq_of_compare hij))).trans
        hij.symm
    · exact (Nat.compare_eq_gt.2 (UInt64.lt_iff_toNat_lt.1 (Std.compare_eq_gt.1 hij))).trans
        hij.symm
  rw [hw] at h
  simpa [ofRowId] using h

namespace KeyLayout

/-! ### Rows that have a key -/

/-- The row has a value at every index column, and none of these is a large object. -/
def Encodable (l : KeyLayout) (row : Row) : Prop :=
  ∀ p ∈ l.parts, ∃ v, row.value? p.column = some v ∧ v.isIndexable = true

theorem rowComponents_cons_eq_ok_iff {row : Row} {p : KeyPart} {ps : List KeyPart} {x : Bytes} :
    rowComponents row (p :: ps) = .ok x ↔ ∃ v head tail, row.value? p.column = some v ∧
      Component.write p.direction v = .ok head ∧ rowComponents row ps = .ok tail ∧
        head ++ tail = x := by
  rw [rowComponents]
  cases row.value? p.column <;> simp [bind_eq_ok_iff]

theorem exists_write_iff {d : Direction} {v : Value} :
    (∃ x, Component.write d v = .ok x) ↔ v.isIndexable = true := by
  constructor
  · rintro ⟨x, hx⟩
    obtain ⟨y, hy, -⟩ := map_eq_ok_iff.1 hx
    exact (Component.ascending_eq_ok_iff.1 hy).1
  · intro hv
    exact ⟨_, map_eq_ok_iff.2 ⟨_, Component.ascending_eq_ok_iff.2 ⟨hv, rfl⟩, rfl⟩⟩

theorem exists_rowComponents_iff {row : Row} {ps : List KeyPart} :
    (∃ x, rowComponents row ps = .ok x) ↔ ∀ p ∈ ps, ∃ v, row.value? p.column = some v ∧
      v.isIndexable = true := by
  induction ps with
  | nil => simp [rowComponents]
  | cons p ps ih =>
    rw [List.forall_mem_cons, ← ih]
    constructor
    · rintro ⟨x, hx⟩
      obtain ⟨v, head, tail, hv, hhead, htail, -⟩ := rowComponents_cons_eq_ok_iff.1 hx
      exact ⟨⟨v, hv, exists_write_iff.1 ⟨head, hhead⟩⟩, tail, htail⟩
    · rintro ⟨⟨v, hv, hi⟩, tail, htail⟩
      obtain ⟨head, hhead⟩ := exists_write_iff (d := p.direction).2 hi
      exact ⟨_, rowComponents_cons_eq_ok_iff.2 ⟨v, head, tail, hv, hhead, htail, rfl⟩⟩

theorem encodeAs_eq_ok_iff {l : KeyLayout} {row : Row} {id : RowId} {key : Bytes} :
    l.encodeAs row id = .ok key ↔ ∃ x, rowComponents row l.parts = .ok x ∧
      x ++ Key.ofRowId id = key :=
  map_eq_ok_iff

theorem encodeAs_error {l : KeyLayout} {row : Row} {e : Error} (h : l.encode row = .error e)
    (id : RowId) :
    l.encodeAs row id = .error e := by
  rw [encode, encodeAs] at h
  rw [encodeAs]
  rcases hx : rowComponents row l.parts with e' | x
  · rw [hx] at h
    exact h
  · rw [hx] at h
    cases h

theorem exists_encodeAs_iff {l : KeyLayout} {row : Row} {id : RowId} :
    (∃ key, l.encodeAs row id = .ok key) ↔ l.Encodable row := by
  rw [Encodable, ← exists_rowComponents_iff]
  simp [encodeAs_eq_ok_iff]

/-! ### Keys -/

theorem compare_rowComponents {a b : Row} {ps : List KeyPart} {x y : Bytes}
    (hx : rowComponents a ps = .ok x) (hy : rowComponents b ps = .ok y) (s t : Bytes) :
    compare (x ++ s) (y ++ t) = (compareParts a b ps).then (compare s t) := by
  induction ps generalizing x y with
  | nil =>
    cases hx
    cases hy
    rfl
  | cons p ps ih =>
    obtain ⟨v, hv, xs, ha, hwv, hxs, rfl⟩ := rowComponents_cons_eq_ok_iff.1 hx
    obtain ⟨w, hw, ys, hb, hww, hys, rfl⟩ := rowComponents_cons_eq_ok_iff.1 hy
    have hparts :
        compareParts a b (p :: ps) = (p.direction.apply (compare v w)).then
          (compareParts a b ps) := by
      simp only [compareParts, RowView.value?, ha, hb]
    rw [List.append_assoc, List.append_assoc, Component.compare_write hwv hww, ih hxs hys,
      hparts, Ordering.then_assoc]

theorem compare_encodeAs {l : KeyLayout} {a b : Row} {i j : RowId} {ka kb : Bytes}
    (ha : l.encodeAs a i = .ok ka) (hb : l.encodeAs b j = .ok kb) :
    compare ka kb = (l.compareRows a b).then (compare i j) := by
  obtain ⟨x, hx, rfl⟩ := encodeAs_eq_ok_iff.1 ha
  obtain ⟨y, hy, rfl⟩ := encodeAs_eq_ok_iff.1 hb
  rw [compare_rowComponents hx hy, Key.compare_ofRowId]
  rfl

/-- **Keys are ordered as rows are.**  The rows that have a key are those whose index columns all
    hold values that can be indexed, whatever these are, and comparing the keys of two of them byte
    by byte is comparing the rows column by column, each column in its direction, and then the row
    ids. -/
theorem compare_encode (l : KeyLayout) (a b : Row) :
    (l.Encodable a ↔ ∃ key, l.encode a = .ok key) ∧
      ∀ ka kb, l.encode a = .ok ka → l.encode b = .ok kb →
        compare ka kb = (l.compareRows a b).then (compare a.id b.id) :=
  ⟨exists_encodeAs_iff.symm, fun _ _ ha hb => compare_encodeAs ha hb⟩

/-- A zero byte inside a text of a descending column, a type that differs in the ascending one, and
    a repeated column. -/
theorem compare_encode_mixed :
    let l : KeyLayout := ⟨[⟨1, .descending⟩, ⟨0, .ascending⟩, ⟨1, .ascending⟩], 2⟩
    let a : Row := ⟨⟨7⟩, [.integer (-1), .text "a\x00"]⟩
    let b : Row := ⟨⟨3⟩, [.bytes [0xff, 0x00], .text "a\x00"]⟩
    let head : Bytes := [0xfc, 0x9e, 0xff, 0x00, 0xff, 0xff]
    let tail : Bytes := [0x03, 0x61, 0x00, 0xff, 0x00, 0x00]
    let ka := head ++ [0x02, 0x7f, 0xff, 0xff, 0xff, 0xff, 0xff, 0xff, 0xff] ++ tail ++
      [0, 0, 0, 0, 0, 0, 0, 7]
    let kb := head ++ [0x04, 0xff, 0x00, 0xff, 0x00, 0x00] ++ tail ++ [0, 0, 0, 0, 0, 0, 0, 3]
    l.encode a = .ok ka ∧ l.encode b = .ok kb ∧
      compare ka kb = (l.compareRows a b).then (compare a.id b.id) :=
  ⟨by decide, by decide, (compare_encode _ _ _).2 _ _ (by decide) (by decide)⟩

/-! ### Probes -/

/-- The search row has a value at every one of the columns. -/
def SetsAll (search : SearchRow) (ps : List KeyPart) : Prop :=
  ∀ p ∈ ps, search.value? p.column ≠ none

/-- The row is not before the search row.  A row id that is searched for counts once all columns are
    set. -/
def AtOrAfter (row : Row) (search : SearchRow) (ps : List KeyPart) : Prop :=
  compareParts row search ps = .gt ∨
    compareParts row search ps = .eq ∧
      (SetsAll search ps → ∀ i, search.rowId = some i → i.word ≤ row.id.word)

theorem probeComponents_cons_eq_ok_iff {search : SearchRow} {p : KeyPart} {ps : List KeyPart}
    {v : Value} {x : Bytes} (hv : search.value? p.column = some v) :
    probeComponents search (p :: ps) = .ok x ↔
      ∃ head tail, Component.write p.direction v = .ok head ∧
      probeComponents search ps = .ok tail ∧ head ++ tail = x := by
  simp [probeComponents, hv, bind_eq_ok_iff]

theorem nil_le (bs : Bytes) : (compare [] bs).isLE = true := by
  cases bs <;> rfl

theorem probeComponents_le_iff {search : SearchRow} {row : Row} {ps : List KeyPart} {x y : Bytes}
    (hx : probeComponents search ps = .ok x) (hy : rowComponents row ps = .ok y) :
    (compare x (y ++ Key.ofRowId row.id)).isLE = true ↔ AtOrAfter row search ps := by
  induction ps generalizing x y with
  | nil =>
    cases hx
    cases hy
    rcases hid : search.rowId with _ | i
    · simp [AtOrAfter, compareParts, hid, nil_le]
    · simp only [AtOrAfter, compareParts, hid, Option.map_some, Option.getD_some, List.nil_append,
        Key.compare_ofRowId]
      simp [SetsAll, RowId.isLE_compare]
  | cons p ps ih =>
    obtain ⟨w, hw, ys, hrow, hww, hys, rfl⟩ := rowComponents_cons_eq_ok_iff.1 hy
    rcases hs : search.value? p.column with _ | v
    · -- the probe ends here, before every key
      have hx0 : x = [] := by simpa [probeComponents, hs] using hx.symm
      have heq : compareParts row search (p :: ps) = .eq := by
        simp only [compareParts, RowView.value?, hrow, hs]
      have hall : ¬SetsAll search (p :: ps) := fun h => h p List.mem_cons_self hs
      simp [AtOrAfter, heq, hall, hx0, nil_le]
    · obtain ⟨hv, xs, hwv, hxs, rfl⟩ := (probeComponents_cons_eq_ok_iff hs).1 hx
      have hall : SetsAll search (p :: ps) ↔ SetsAll search ps := by
        simp [SetsAll, hs]
      have hparts : compareParts row search (p :: ps) =
          (p.direction.apply (compare v w)).swap.then (compareParts row search ps) := by
        simp only [compareParts, RowView.value?, hrow, hs]
        rw [Std.OrientedOrd.eq_swap (a := w), p.direction.apply_swap]
      have ih := ih hxs hys
      rw [List.append_assoc, Component.compare_write hwv hww, AtOrAfter, hparts, hall]
      cases p.direction.apply (compare v w) with
      | lt => simp
      | eq => exact ih
      | gt => simp

/-! ### Upper bounds -/

/-- Rows that come later in the index are beyond a search row, too. -/
theorem compareParts_gt_of_ne_gt {a b : Row} {search : SearchRow} {ps : List KeyPart}
    (ha : ∀ p ∈ ps, a.value? p.column ≠ none) (hb : ∀ p ∈ ps, b.value? p.column ≠ none)
    (hab : compareParts a b ps ≠ .gt) (h : compareParts a search ps = .gt) :
    compareParts b search ps = .gt := by
  induction ps with
  | nil => cases h
  | cons p ps ih =>
    rw [List.forall_mem_cons] at ha hb
    obtain ⟨x, hx⟩ := Option.ne_none_iff_exists'.1 ha.1
    obtain ⟨y, hy⟩ := Option.ne_none_iff_exists'.1 hb.1
    rcases hs : search.value? p.column with _ | w
    · simp only [compareParts, RowView.value?, hx, hs] at h
      cases h
    simp only [compareParts, RowView.value?, hx, hy, hs] at hab h ⊢
    rw [Ordering.then_eq_gt] at h ⊢
    have hxy : p.direction.apply (compare x y) ≠ .gt := fun hgt => hab (by rw [hgt]; rfl)
    rcases h with hxw | ⟨hxw, hrest⟩
    · exact .inl (p.direction.gt_of_ne_gt hxy hxw)
    · obtain rfl := p.direction.apply_compare_eq_iff.1 hxw
      rw [Std.OrientedOrd.eq_swap (a := y), p.direction.apply_swap]
      rcases h : p.direction.apply (compare x y) with _ | _ | _
      · exact .inl rfl
      · rw [h, Ordering.eq_then] at hab
        exact .inr ⟨rfl, ih ha.2 hb.2 hab hrest⟩
      · exact absurd h hxy

end KeyLayout
end OrderedIndex
