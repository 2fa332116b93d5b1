/-
  OrderedIndex/Proofs/Table/Scan.lean
  ===================================
  **Bounded scans.**

  A scan starts in front of the rows that are not before its lower bound and ends for
  good at the first row beyond its upper bound.  All rows behind that one are beyond the
  bound, too, so the rows between are those within the bounds (`find_bounded`).
-/
import OrderedIndex.Proofs.Index.Bounds
import OrderedIndex.Proofs.Table.Run
import OrderedIndex.Table.Scan

namespace OrderedIndex

/-! ### Lists -/

theorem takeWhile_eq_filter {α : Type} {p : α → Bool} {l : List α}
    (h : l.Pairwise fun a b => p b = true → p a = true) :
    l.takeWhile p = l.filter p := by
  induction l with
  | nil => rfl
  | cons a l ih =>
    obtain ⟨head, tail⟩ := List.pairwise_cons.1 h
    by_cases ha : p a = true
    · rw [List.takeWhile_cons_of_pos ha, List.filter_cons_of_pos ha, ih tail]
    · have hnone : (a :: l).filter p = [] := by
        rw [List.filter_eq_nil_iff, List.forall_mem_cons]
        exact ⟨ha, fun b hb hpb => ha (head b hb hpb)⟩
      rw [List.takeWhile_cons_of_neg ha, hnone]

namespace Session

variable {s : Session} {rows : List Row} {ix : Index} {lower : Option SearchRow}

theorem Sound.index_eq (h : s.Sound rows) (hix : ix ∈ s.table.indexes) :
    s.table.index ix.name = .ok ix :=
  Table.index_of_mem h.wired.names_nodup hix

theorem Sound.find_ready (h : s.Sound rows) (upper : Option SearchRow) (hix : ix ∈ s.table.indexes)
    (hlower : ∀ low ∈ lower, ∃ key, ix.layout.probe low = .ok key) :
    ∃ c ahead, s.find ix.name lower upper = .ok c ∧ c.Ready ix.layout upper s.store ahead ∧
      ahead.Pairwise ix.layout.Precedes ∧
      ∀ r, r ∈ ahead ↔ r ∈ rows ∧ ∀ low ∈ lower, KeyLayout.AtOrAfter r low ix.layout.parts := by
  obtain ⟨m, hread, hm⟩ := h.mirrored ix hix
  obtain ⟨c, hc⟩ := Index.exists_find hread hlower upper
  obtain ⟨start, rfl, hcovers⟩ := Index.find_eq_ok hc
  have hfind :
      s.find ix.name lower upper = .ok (.new ix.layout (.live ⟨ix.map, start, false⟩) upper) := by
    rw [Session.find, h.index_eq hix, ok_bind, hc]
  obtain ⟨ahead, hahead, hrows⟩ := exists_mapM_eq (p := (· ∈ rows)) fun key hkey =>
    hm.mem_keys.1 (KeyStart.mem_ahead.1 hkey).1
  refine ⟨_, ahead, hfind,
    ⟨rfl, rfl, rfl, rfl, _, start, m, rfl, hread, mapM_eq_ok_iff.1 hahead⟩, ?_, ?_⟩
  · exact KeyLayout.pairwise_precedes hahead (KeyStart.ahead_sorted m start)
  · intro r
    constructor
    · intro hr
      obtain ⟨key, hkey⟩ := KeyLayout.exists_encodeAs_iff.2 (hm.encodable r (hrows r hr))
      have hmem := (mem_of_mapM hahead).2 ⟨r, hr, hkey⟩
      exact ⟨hrows r hr, (hcovers r key hkey).1 (KeyStart.mem_ahead.1 hmem).2⟩
    · rintro ⟨hr, hbound⟩
      obtain ⟨key, hkey⟩ := KeyLayout.exists_encodeAs_iff.2 (hm.encodable r hr)
      have hmem : key ∈ start.ahead m :=
        KeyStart.mem_ahead.2 ⟨hm.mem_keys.2 ⟨r, hr, hkey⟩, (hcovers r key hkey).2 hbound⟩
      obtain ⟨r', hr', hkey'⟩ := (mem_of_mapM hahead).1 hmem
      have hid := (KeyLayout.eq_of_encode hkey hkey').1
      obtain rfl := eq_of_mem_of_key_eq h.idsIncrease hr (hrows r' hr') hid
      exact hr'

/-- The cursor hands out the rows in this order: all at once, as an iterator by what their keys
    tell, and step by step. -/
structure HandsOut (s : Session) (c : Cursor) (l : KeyLayout) (result : List Row) : Prop where
  intoRows : (c.intoRows (s.table.rowSource s.store) s.store ()).1 = .ok result
  iterator : ∃ searches, (c.collect s.store).1 = searches.map .ok ∧
    List.Forall₂ l.Tells searches result
  stepping : Cursor.Walks (s.table.rowSource s.store) s.store c () result

theorem Sound.find_within (h : s.Sound rows) (upper : Option SearchRow)
    (hix : ix ∈ s.table.indexes) (hlower : ∀ low ∈ lower, ∃ key, ix.layout.probe low = .ok key) :
    ∃ c result, s.find ix.name lower upper = .ok c ∧ result.Pairwise ix.layout.Precedes ∧
      (∀ r, r ∈ result ↔ r ∈ rows ∧ ix.layout.InBounds lower upper r) ∧
        s.HandsOut c ix.layout result := by
  obtain ⟨c, ahead, hfind, hready, hsorted, hmem⟩ := h.find_ready upper hix hlower
  obtain ⟨m, hread, hm⟩ := h.stored
  obtain ⟨m', -, hm'⟩ := h.mirrored ix hix
  have hrows : ∀ r ∈ ahead, r ∈ rows := fun r hr => ((hmem r).1 hr).1
  have hload : ∀ r ∈ ahead, s.table.rowSource s.store r.id () = (.ok r, ()) := by
    intro r hr
    rw [Table.rowSource, Table.getRow_of_mem hread hm (hrows r hr)]
  have hfilter :
      ahead.takeWhile (Cursor.within ix.layout upper) =
        ahead.filter (Cursor.within ix.layout upper) :=
    takeWhile_eq_filter (KeyLayout.pairwise_within hsorted fun r hr => hm'.encodable r (hrows r hr))
  refine ⟨c, ahead.takeWhile (Cursor.within ix.layout upper), hfind, ?_, ?_, ?_, ?_, ?_⟩
  · exact hsorted.sublist (List.takeWhile_sublist _)
  · intro r
    rw [hfilter, List.mem_filter, hmem, KeyLayout.inBounds_iff, and_assoc]
  · rw [Cursor.intoRows_of_ready hready hload]
  · exact Cursor.collect_of_ready hready
  · exact Cursor.walks_of_ready hready hload

/-- **A bounded scan gives exactly the rows within its bounds**, each once and in the order of the
    index, in every run of a table that is alone on its store, from every lower bound that a probe
    can be made of, and in whichever way the cursor is used. -/
theorem find_bounded (id : TableId) (name : String) (columns : List Column) (config : IndexConfig)
    (cs : List Command) (hcs : ∀ c ∈ cs, c.Spares name) (ix : Index)
    (hix : ix ∈ ((fresh id name columns config).runAll cs).table.indexes)
    (lower upper : Option SearchRow)
    (hlower : ∀ low ∈ lower, ∃ key, ix.layout.probe low = .ok key) :
    let s := (fresh id name columns config).runAll cs
    ∃ rows c result, s.table.rows s.store = .ok rows ∧ s.find ix.name lower upper = .ok c ∧
      result.Pairwise ix.layout.Precedes ∧
        (∀ r, r ∈ result ↔ r ∈ rows ∧ ix.layout.InBounds lower upper r) ∧
      s.HandsOut c ix.layout result := by
  intro s
  obtain ⟨rows, h⟩ := sound_runAll id name columns config hcs
  obtain ⟨m, hread, hm⟩ := h.stored
  obtain ⟨c, result, hscan⟩ := h.find_within upper hix hlower
  exact ⟨rows, c, result, Table.rows_of_stores hread hm, hscan⟩

/-- A lower bound with all columns and a row id, an upper bound whose first column is unset, and a
    descending column. -/
theorem find_bounded_people :
    let columns := [Column.new 0 "name" .varchar, Column.new 1 "age" .integer]
    let cs : List Command :=
      [.createIndex "by_age" [("age", .descending), ("name", .ascending)] false,
      .insert [.text "a", .integer 30], .insert [.text "b", .integer 30],
      .insert [.text "b", .integer 30], .insert [.text "c", .null], .delete ⟨1⟩]
    let ix : Index := ⟨⟨⟨1⟩, "by_age", "people", false, [⟨.new 1 "age" .integer, .descending⟩,
      ⟨.new 0 "name" .varchar, .ascending⟩]⟩, ⟨1⟩, 2, .default⟩
    let s := (fresh ⟨7⟩ "people" columns .default).runAll cs
    let lower : SearchRow := ⟨some ⟨3⟩, [some (.text "b"), some (.integer 30)]⟩
    let upper : SearchRow := ⟨none, [some (.text "b")]⟩
    (∀ c ∈ cs, c.Spares "people") ∧ ix ∈ s.table.indexes ∧
      ∃ rows c result, s.table.rows s.store = .ok rows ∧
        s.find ix.name (some lower) (some upper) = .ok c ∧
        result.Pairwise ix.layout.Precedes ∧
        (∀ r, r ∈ result ↔ r ∈ rows ∧ ix.layout.InBounds (some lower) (some upper) r) ∧
          s.HandsOut c ix.layout result := by
  have first {ix : Index} {ixs : List Index} (h : ixs[0]? = some ix) : ix ∈ ixs :=
    List.mem_of_getElem? h
  refine ⟨by decide, first rfl, find_bounded _ _ _ _ _ ?_ _ (first rfl) (some _) (some _) ?_⟩
  · decide
  · rintro low ⟨⟩
    exact ⟨_, rfl⟩

end Session
end OrderedIndex
