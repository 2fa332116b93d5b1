/-
  OrderedIndex/Proofs/Index/Bounds.lean
  =====================================
  **Bounds of a scan**, said of the rows that the keys belong to.

  The keys are in the order of their rows (`precedes_iff`).  A scan starts at the probe of
  its lower bound, which is at or before the keys of the rows that are not before the
  bound, whatever the bound leaves unset (`Index.find_eq_ok`).  And all rows behind one
  that is beyond the upper bound are beyond it, too (`precedes_of_within`).
-/
import OrderedIndex.Index.Scan
import OrderedIndex.Proofs.Index.Cursor

namespace OrderedIndex

namespace KeyLayout

variable {l : KeyLayout} {row a b : Row} {low : SearchRow} {upper : Option SearchRow}
  {start key ka kb : Bytes}

theorem covers_iff (hstart : l.probe low = .ok start) (hkey : l.encode row = .ok key) :
    (KeyStart.atOrAfter start).covers key = true ↔ AtOrAfter row low l.parts := by
  obtain ⟨x, hx, rfl⟩ := encodeAs_eq_ok_iff.1 hkey
  rw [KeyStart.covers, Std.OrientedCmp.isGE_eq_isLE]
  exact probeComponents_le_iff hstart hx

theorem Encodable.value?_ne_none (h : l.Encodable row) :
    ∀ p ∈ l.parts, row.value? p.column ≠ none := by
  intro p hp
  obtain ⟨v, hv, -⟩ := h p hp
  rw [hv]
  exact Option.some_ne_none v

/-- The order of an index, in which the row ids decide last. -/
def Precedes (l : KeyLayout) (a b : Row) : Prop :=
  (l.compareRows a b).then (compare a.id b.id) = .lt

def InBounds (l : KeyLayout) (lower upper : Option SearchRow) (row : Row) : Prop :=
  (∀ low ∈ lower, AtOrAfter row low l.parts) ∧ ∀ up ∈ upper, l.compareRows row up ≠ .gt

theorem inBounds_iff {lower : Option SearchRow} : l.InBounds lower upper row ↔
    (∀ low ∈ lower, AtOrAfter row low l.parts) ∧ Cursor.within l upper row = true := by
  rw [InBounds, Cursor.within, decide_eq_true_iff]

theorem precedes_iff (ha : l.encode a = .ok ka) (hb : l.encode b = .ok kb) :
    l.Precedes a b ↔ compare ka kb = .lt := by
  rw [Precedes, compare_encodeAs ha hb]

/-- Keys in order belong to rows in order. -/
theorem pairwise_precedes {rows : List Row} {keys : List Bytes}
    (hkeys : rows.mapM l.encode = .ok keys) (hsorted : keys.Pairwise fun a b => compare a b = .lt) :
    rows.Pairwise l.Precedes := by
  apply (pairwise_of_mapM hkeys hsorted).imp_of_mem
  intro a b ha hb hab
  obtain ⟨ka, hka⟩ := exists_of_mapM hkeys ha
  obtain ⟨kb, hkb⟩ := exists_of_mapM hkeys hb
  exact (precedes_iff hka hkb).2 (hab ka kb hka hkb)

theorem within_of_ne_gt (ha : l.Encodable a) (hb : l.Encodable b) (hab : l.compareRows a b ≠ .gt)
    (hin : Cursor.within l upper b = true) : Cursor.within l upper a = true := by
  apply decide_eq_true
  intro up hup hgt
  exact of_decide_eq_true hin up hup
    (compareParts_gt_of_ne_gt ha.value?_ne_none hb.value?_ne_none hab hgt)

theorem precedes_of_within (ha : l.Encodable a) (hb : l.Encodable b)
    (hain : Cursor.within l upper a = true) (hbout : Cursor.within l upper b = false) :
    l.Precedes a b := by
  have hgt : l.compareRows b a = .gt := by
    by_contra hne
    exact Bool.false_ne_true (hbout.symm.trans (within_of_ne_gt hb ha hne hain))
  have hlt : l.compareRows a b = .lt := by
    have hswap : l.compareRows a b = (l.compareRows b a).swap := compareParts_swap b a _
    rw [hswap, hgt]
    rfl
  rw [Precedes, hlt]
  rfl

theorem pairwise_within {rows : List Row} (hsorted : rows.Pairwise l.Precedes)
    (hrows : ∀ row ∈ rows, l.Encodable row) :
    rows.Pairwise fun a b => Cursor.within l upper b = true → Cursor.within l upper a = true := by
  apply hsorted.imp_of_mem
  intro a b ha hb hab
  refine within_of_ne_gt (hrows a ha) (hrows b hb) ?_
  intro hgt
  rw [Precedes, hgt] at hab
  cases hab

end KeyLayout

namespace Index

variable {ix : Index} {s : Store} {m : SortedMap Bytes Bytes} {lower upper : Option SearchRow}
  {c : Cursor}

theorem exists_find (hread : s.read ix.map = .ok m)
    (hlower : ∀ low ∈ lower, ∃ key, ix.layout.probe low = .ok key) (upper : Option SearchRow) :
    ∃ c, ix.find s lower upper = .ok c := by
  rcases lower with _ | low
  · simp only [find, Option.mapM_none, pure_eq_ok, ok_bind, Store.keyIter, hread]
    exact ⟨_, rfl⟩
  · obtain ⟨probe, hprobe⟩ := hlower low rfl
    simp only [find, Option.mapM_some, hprobe, Store.keyIter, hread]
    exact ⟨_, rfl⟩

/-- A scan starts in front of the keys of the rows that are not before its lower bound. -/
theorem find_eq_ok (h : ix.find s lower upper = .ok c) :
    ∃ start : KeyStart, c = .new ix.layout (.live ⟨ix.map, start, false⟩) upper ∧
      ∀ r key, ix.layout.encode r = .ok key →
        (start.covers key = true ↔ ∀ low ∈ lower, KeyLayout.AtOrAfter r low ix.layout.parts) := by
  obtain ⟨start, hstart, h⟩ := bind_eq_ok_iff.1 h
  obtain ⟨it, hiter, h⟩ := bind_eq_ok_iff.1 h
  obtain ⟨_, -, rfl⟩ := map_eq_ok_iff.1 (mapError_eq_ok_iff.1 hiter)
  cases h
  rcases lower with _ | low
  · cases hstart
    exact ⟨.anywhere, rfl, by simp [KeyStart.covers]⟩
  · obtain ⟨probe, hprobe, hsome⟩ := bind_eq_ok_iff.1 hstart
    cases hsome
    refine ⟨.atOrAfter probe, rfl, ?_⟩
    intro r key hkey
    rw [KeyLayout.covers_iff hprobe hkey]
    simp

end Index
end OrderedIndex
