/-
  OrderedIndex/Proofs/Probe.lean
  ==============================
  **Probes bound exactly what the comparison of rows says.**

  Two ways of asking whether a row is before a partial one have to agree: the byte order
  of a cut-off key, and the comparison column by column.  Both look at the columns up to
  the first unset one, so wherever a probe exists the agreement is that of components
  (`probeComponents_le_iff`).

  A probe exists unless a large object comes in its way (`probeComponents_eq_error_iff`).
  What stands behind the first unset column is never looked at, so only a column before it
  can be in the way, and the first large object there is the one that is reported
  (`Blocks`).
-/
import OrderedIndex.Proofs.KeyOrder

namespace OrderedIndex.KeyLayout

variable {search : SearchRow} {row : Row} {p : KeyPart} {ps : List KeyPart} {v : Value}
  {t : ColumnType} {e : Error}

/-! ### Failures -/

/-- A value has a component, or it is a large object and the fault names its type. -/
theorem write_cases (d : Direction) (v : Value) :
    (v.isIndexable = true ∧ ∃ x, Component.write d v = .ok x) ∨
      ∃ t, v.type? = some t ∧ t.isLargeObject = true ∧ v.isIndexable = false ∧
        Component.write d v = .error (.notIndexable t) := by
  rcases hindexable : v.isIndexable with _ | _
  · cases v <;> cases hindexable
    case false.clob.refl s => exact .inr ⟨.clob, rfl, rfl, rfl, rfl⟩
    case false.blob.refl b => exact .inr ⟨.blob, rfl, rfl, rfl, rfl⟩
  · exact .inl ⟨rfl, exists_write_iff.2 hindexable⟩

/-- Some column holds a large object of the type, and every column before it a value that has a
    component. -/
def Blocks (search : SearchRow) (ps : List KeyPart) (t : ColumnType) : Prop :=
  ∃ before p after v, ps = before ++ p :: after ∧
    (∀ q ∈ before, ∃ w, search.value? q.column = some w ∧ w.isIndexable = true) ∧
      search.value? p.column = some v ∧ v.type? = some t ∧ t.isLargeObject = true

theorem blocks_cons_iff : Blocks search (p :: ps) t ↔ ∃ v, search.value? p.column = some v ∧
    (v.type? = some t ∧ t.isLargeObject = true ∨ v.isIndexable = true ∧ Blocks search ps t) := by
  constructor
  · rintro ⟨before, q, after, v, hps, hbefore, hv, htype, hlarge⟩
    cases before with
    | nil =>
      obtain ⟨rfl, rfl⟩ := List.cons.inj hps
      exact ⟨v, hv, .inl ⟨htype, hlarge⟩⟩
    | cons r before =>
      obtain ⟨rfl, rfl⟩ := List.cons.inj hps
      obtain ⟨⟨w, hw, hindexable⟩, hbefore⟩ := List.forall_mem_cons.1 hbefore
      exact ⟨w, hw, .inr ⟨hindexable, before, q, after, v, rfl, hbefore, hv, htype, hlarge⟩⟩
  · rintro ⟨v, hv, ⟨htype, hlarge⟩ |
      ⟨hindexable, before, q, after, w, rfl, hbefore, hw, htype, hlarge⟩⟩
    · exact ⟨[], p, ps, v, rfl, nofun, hv, htype, hlarge⟩
    · exact ⟨p :: before, q, after, w, rfl, List.forall_mem_cons.2 ⟨⟨v, hv, hindexable⟩, hbefore⟩,
        hw, htype, hlarge⟩

theorem not_isLargeObject_of_isIndexable (hindexable : v.isIndexable = true)
    (htype : v.type? = some t) :
    ¬t.isLargeObject = true := by
  simpa [Value.isIndexable, htype] using hindexable

/-- A probe fails at the first large object that it comes to. -/
theorem probeComponents_eq_error_iff :
    probeComponents search ps = .error e ↔ ∃ t, Blocks search ps t ∧
      .codec (.notIndexable t) = e := by
  induction ps with
  | nil => simp [probeComponents, Blocks]
  | cons p ps ih =>
    simp only [blocks_cons_iff]
    rcases hv : search.value? p.column with _ | v
    · simp [probeComponents, hv]
    rcases write_cases p.direction v with
      ⟨hindexable, head, hwrite⟩ | ⟨t, htype, hlarge, hnot, hwrite⟩
    · have hstep :
          probeComponents search (p :: ps) = .error e ↔ probeComponents search ps = .error e := by
        rcases htail : probeComponents search ps with e' | tail <;>
          simp [probeComponents, hv, hwrite, htail]
      rw [hstep, ih]
      refine exists_congr fun t => and_congr_left' ?_
      simp only [Option.some.injEq, exists_eq_left', hindexable, true_and]
      exact (or_iff_right fun h => not_isLargeObject_of_isIndexable hindexable h.1 h.2).symm
    · -- the column itself is in the way
      simp [probeComponents, hv, hwrite, hnot, htype, hlarge]

/-! ### Bounds -/

theorem atOrAfter_iff :
    AtOrAfter row search ps ↔ compareParts row search ps = .gt ∨ compareParts row search ps = .eq ∧
      ((∃ p ∈ ps, search.value? p.column = none) ∨ search.rowId = none ∨
        ∃ i, search.rowId = some i ∧ i.word ≤ row.id.word) := by
  have hunset : (∃ p ∈ ps, search.value? p.column = none) ↔ ¬SetsAll search ps := by simp [SetsAll]
  rw [AtOrAfter, hunset]
  refine or_congr_right (and_congr_right' ?_)
  rw [imp_iff_not_or]
  refine or_congr_right ?_
  rcases search.rowId with _ | i <;> simp

/-- **Probes bound exactly what the comparison says.**  Whatever a search row leaves unset, its
    probe is at or before the key of a row if and only if the row comes later in the index, or is no
    different as far as the search row is set; then, if that sets all columns and has an id, the id
    of the row must not be below it.  A probe fails exactly at a large object that has only values
    with a component in the columns before it, and so no unset one. -/
theorem probe_bounds (l : KeyLayout) (search : SearchRow) :
    (∀ (row : Row) (start key : Bytes), l.probe search = .ok start → l.encode row = .ok key →
      ((compare start key).isLE = true ↔ l.compareRows row search = .gt ∨
        l.compareRows row search = .eq ∧
        ((∃ p ∈ l.parts, search.value? p.column = none) ∨ search.rowId = none ∨
          ∃ i, search.rowId = some i ∧ i.word ≤ row.id.word))) ∧
    ∀ e, l.probe search = .error e ↔ ∃ t, Blocks search l.parts t ∧
      .codec (.notIndexable t) = e := by
  refine ⟨?_, fun e => probeComponents_eq_error_iff⟩
  intro row start key hstart hkey
  obtain ⟨x, hx, rfl⟩ := encodeAs_eq_ok_iff.1 hkey
  exact (probeComponents_le_iff hstart hx).trans atOrAfter_iff

/-- A probe ends inside the columns, behind a descending one and before a large object. -/
theorem probe_bounds_unset :
    let l : KeyLayout := ⟨[⟨1, .descending⟩, ⟨0, .ascending⟩, ⟨2, .ascending⟩], 4⟩
    let search : SearchRow := ⟨some ⟨9⟩, [none, some (.text "b"), some (.clob "c")]⟩
    let row : Row := ⟨⟨3⟩, [.integer (-1), .text "b", .null, .bool true]⟩
    let start : Bytes := [0xfc, 0x9d, 0xff, 0xff]
    let key : Bytes := start ++ [0x02, 0x7f, 0xff, 0xff, 0xff, 0xff, 0xff, 0xff, 0xff] ++ [0x00] ++
      [0, 0, 0, 0, 0, 0, 0, 3]
    l.probe search = .ok start ∧ l.encode row = .ok key ∧
      ((compare start key).isLE = true ↔ l.compareRows row search = .gt ∨
        l.compareRows row search = .eq ∧
        ((∃ p ∈ l.parts, search.value? p.column = none) ∨ search.rowId = none ∨
          ∃ i, search.rowId = some i ∧ i.word ≤ row.id.word)) :=
  ⟨by decide, by decide, (probe_bounds _ _).1 _ _ _ (by decide) (by decide)⟩

example :
    let l : KeyLayout := ⟨[⟨1, .descending⟩, ⟨0, .ascending⟩], 2⟩
    l.probe ⟨none, [some (.clob "c"), some (.text "b")]⟩ =
      .error (.codec (.notIndexable .clob)) := by
  decide

end OrderedIndex.KeyLayout
