/-
  OrderedIndex/Proofs/Table/View.lean
  ===================================
  **A table shows what is in its own maps.**

  Rows, entries and scans are read from the maps of the table, so another store in which
  these read the same shows the same table (`alike_of_read`).  For a cursor that is one
  step at a time: the map it takes its keys from stays the same (`map?_advance`), so what
  holds for one step holds for all that are still to come.
-/
import OrderedIndex.Proofs.KeyIter
import OrderedIndex.Proofs.Table.Effect
import OrderedIndex.Table.Scan

namespace OrderedIndex

/-! ### Cursors -/

namespace KeySource

variable {keys : KeySource} {s s' : Store}

/-- The map that is looked at in each step. -/
def map? : KeySource → Option MapId
  | live it => some it.map
  | once _ => none

theorem next_congr (h : ∀ m ∈ keys.map?, s'.read m = s.read m) : keys.next s' = keys.next s := by
  cases keys with
  | live it => rw [next, next, KeyIter.next, KeyIter.next, h it.map rfl]
  | once key => rfl

@[simp] theorem map?_next (keys : KeySource) (s : Store) : (keys.next s).2.map? = keys.map? := by
  cases keys with
  | live it => exact congrArg some (it.map_next s)
  | once key => rfl

end KeySource

namespace Cursor

variable {c : Cursor} {s s' : Store} {σ : Type} {load : RowSource σ}

/-- The stores are the same as far as the cursor looks. -/
def SeesAlike (c : Cursor) (s s' : Store) : Prop := ∀ m ∈ c.keys.map?, s'.read m = s.read m

theorem advance_congr (h : c.SeesAlike s s') : c.advance s' = c.advance s := by
  rw [advance, advance, KeySource.next_congr h]

theorem keys_enter (c : Cursor) (key : Bytes) : (c.enter key).2.keys = c.keys := by
  rw [enter]
  split
  · rfl
  · split
    · rfl
    · split <;> rfl

@[simp] theorem map?_advance (s : Store) (c : Cursor) :
    (c.advance s).2.keys.map? = c.keys.map? := by
  rw [advance]
  split
  · rfl
  · dsimp only
    split
    · exact KeySource.map?_next c.keys s
    · exact KeySource.map?_next c.keys s
    · rw [keys_enter]
      exact KeySource.map?_next c.keys s

@[simp] theorem map?_step (s : Store) (c : Cursor) : (c.step s).2.keys.map? = c.keys.map? := by
  rw [step]
  split
  · rfl
  · exact map?_advance s c

theorem step_congr (h : c.SeesAlike s s') : c.step s' = c.step s := by
  rw [step, step, advance_congr h]

@[simp] theorem keys_searchRow (c : Cursor) : c.searchRow.2.keys = c.keys := by
  rw [searchRow]
  split
  · split <;> rfl
  · rfl

@[simp] theorem map?_next (s : Store) (c : Cursor) : (c.next s).2.keys.map? = c.keys.map? := by
  have hstep := map?_step s c
  rw [next]
  split
  · rename_i hs
    rw [hs] at hstep
    exact hstep
  · rename_i hs
    rw [hs] at hstep
    exact hstep
  · rename_i c' hs
    rw [hs] at hstep
    have hkeys := keys_searchRow c'
    split
    · rename_i hrow
      rw [hrow] at hkeys
      exact (congrArg _ hkeys).trans hstep
    · rename_i hrow
      rw [hrow] at hkeys
      exact (congrArg _ hkeys).trans hstep

theorem next_congr (h : c.SeesAlike s s') : c.next s' = c.next s := by
  rw [next, next, step_congr h]

@[simp] theorem keys_current (load : RowSource σ) (c : Cursor) (st : σ) :
    (c.current load st).2.1.keys = c.keys := by
  have hkeys : c.rowId.2.keys = c.keys := keys_searchRow c
  rw [current]
  split
  · rfl
  split
  · rename_i hid
    rw [hid] at hkeys
    exact hkeys
  · rename_i hid
    rw [hid] at hkeys
    exact hkeys
  · rename_i hid
    rw [hid] at hkeys
    split <;> exact hkeys

theorem collect_go_congr (rounds : Nat) (h : c.SeesAlike s s') :
    collect.go s' rounds c = collect.go s rounds c := by
  induction rounds generalizing c with
  | zero => rfl
  | succ rounds ih =>
    rw [collect.go, collect.go, next_congr h]
    have hkeys := map?_next s c
    split
    · rfl
    · rename_i c' hnext
      rw [hnext] at hkeys
      rw [ih (by rw [SeesAlike, hkeys]; exact h)]

theorem intoRows_go_congr (rounds : Nat) (h : c.SeesAlike s s') (st : σ) :
    intoRows.go load s' rounds c st = intoRows.go load s rounds c st := by
  induction rounds generalizing c st with
  | zero => rfl
  | succ rounds ih =>
    rw [intoRows.go, intoRows.go, step_congr h]
    have hstep := map?_step s c
    split
    · rfl
    · rfl
    · rename_i c' hs
      rw [hs] at hstep
      have hcurrent := keys_current load c' st
      split
      · rfl
      · rename_i c'' st' hcur
        rw [hcur] at hcurrent
        rw [ih (by rw [SeesAlike, show c''.keys = c'.keys from hcurrent, hstep]; exact h)]

/-- A cursor over an open map has the same number of steps left. -/
theorem stepBound_congr (h : c.SeesAlike s s') (hopen : ∀ m ∈ c.keys.map?, s.isClosed m = false) :
    c.stepBound s' = c.stepBound s := by
  rw [stepBound, stepBound]
  cases hkeys : c.keys with
  | once key => rfl
  | live it =>
    have hmem : it.map ∈ c.keys.map? := by
      rw [hkeys]
      rfl
    have hread : s.read it.map = .ok (s.state it.map).entries :=
      Store.read_eq_ok_iff.2 ⟨hopen _ hmem, rfl⟩
    have hread' := (h _ hmem).trans hread
    rw [KeySource.stepBound, KeySource.stepBound, (Store.read_eq_ok_iff.1 hread').2]

theorem collect_congr (h : c.SeesAlike s s') (hopen : ∀ m ∈ c.keys.map?, s.isClosed m = false) :
    c.collect s' = c.collect s := by
  rw [collect, collect, stepBound_congr h hopen, collect_go_congr _ h]

theorem intoRows_congr (h : c.SeesAlike s s') (hopen : ∀ m ∈ c.keys.map?, s.isClosed m = false)
    (st : σ) :
    c.intoRows load s' st = c.intoRows load s st := by
  rw [intoRows, intoRows, stepBound_congr h hopen, intoRows_go_congr _ h]

end Cursor

/-! ### Indexes -/

namespace Index

variable {ix : Index} {s s' : Store} {lower upper : Option SearchRow} {edge : Edge} {c : Cursor}

theorem find_congr (h : s'.read ix.map = s.read ix.map) :
    ix.find s' lower upper = ix.find s lower upper := by
  simp only [find, Store.keyIter, h]

/-- A cursor is over the map of its index, which is open. -/
theorem map_of_find (h : ix.find s lower upper = .ok c) :
    ∀ m ∈ c.keys.map?, m = ix.map ∧ s.isClosed m = false := by
  obtain ⟨start, -, h⟩ := bind_eq_ok_iff.1 h
  obtain ⟨it, hit, h⟩ := bind_eq_ok_iff.1 h
  obtain ⟨entries, hread, rfl⟩ := map_eq_ok_iff.1 (mapError_eq_ok_iff.1 hit)
  cases h
  rintro m ⟨⟩
  exact ⟨rfl, Store.isClosed_of_read hread⟩

theorem findEdge_congr (h : s'.read ix.map = s.read ix.map) :
    ix.findEdge s' edge = ix.findEdge s edge := by
  have hposition (key : Option Bytes) : (Cursor.new ix.layout (.once key) none).position s' =
      (Cursor.new ix.layout (.once key) none).position s := by
    rw [Cursor.position, Cursor.position, Cursor.advance_congr]
    rintro m ⟨⟩
  rw [findEdge, findEdge, entries, entries, h]
  simp only [hposition]

/-- A cursor at an end of an index has found its entry already. -/
theorem map_of_findEdge (h : ix.findEdge s edge = .ok c) : c.keys.map? = none := by
  obtain ⟨entries, -, h⟩ := bind_eq_ok_iff.1 h
  obtain ⟨key, -, h⟩ := bind_eq_ok_iff.1 h
  have hkeys := Cursor.map?_advance s (Cursor.new ix.layout (.once key) none)
  rw [Cursor.position] at h
  split at h
  · cases h
  · rename_i hadvance
    cases h
    rw [hadvance] at hkeys
    exact hkeys

end Index

/-! ### Tables -/

namespace Session

variable {s s' : Session} {c : Cursor} {index : String} {lower upper : Option SearchRow}
  {edge : Edge}

/-- The rows of the entries that a cursor still has to give, and what their keys tell. -/
def drained (s : Session) (c : Cursor) : List (Except Error SearchRow) × Except Error (List Row) :=
  ((c.collect s.store).1, (c.intoRows (s.table.rowSource s.store) s.store ()).1)

/-- Both sessions show the same table. -/
structure Alike (s s' : Session) : Prop where
  table : s'.table = s.table
  rows : s'.table.rows s'.store = s.table.rows s.store
  getRow : ∀ id, s'.table.getRow s'.store id = s.table.getRow s.store id
  entries : ∀ ix ∈ s.table.indexes, ix.entries s'.store = ix.entries s.store
  find : ∀ index lower upper,
    (s'.find index lower upper).map (fun c => (c, s'.drained c)) =
      (s.find index lower upper).map fun c => (c, s.drained c)
  findEdge : ∀ index edge,
    (s'.findEdge index edge).map (fun c => (c, s'.drained c)) = (s.findEdge index edge).map fun c =>
      (c, s.drained c)
  /-- So does a scan that is going on already. -/
  advance : ∀ c : Cursor, (∀ m ∈ c.keys.map?, m ∈ s.table.handles) →
    c.advance s'.store = c.advance s.store

theorem mem_handles_of_index {t : Table} {ix : Index} (h : t.index index = .ok ix) :
    ix.map ∈ t.handles :=
  List.mem_cons_of_mem _ (List.mem_map_of_mem (Table.mem_of_index h).1)

theorem map_drained_congr {a b : Except Error Cursor} (hab : a = b)
    (hdrained : ∀ c, b = .ok c → s'.drained c = s.drained c) :
    a.map (fun c => (c, s'.drained c)) = b.map fun c => (c, s.drained c) := by
  subst hab
  rcases a with e | c
  · rfl
  · rw [map_ok, map_ok, hdrained c rfl]

/-- **What a table shows depends on its own maps.** -/
theorem alike_of_read {t : Table} {store store' : Store}
    (h : ∀ m ∈ t.handles, store'.read m = store.read m) :
    Alike ⟨store, t⟩ ⟨store', t⟩ := by
  have hprimary : store'.read t.primary = store.read t.primary := h _ List.mem_cons_self
  have hindex {index : String} {ix : Index} (hix : t.index index = .ok ix) :
      store'.read ix.map = store.read ix.map :=
    h _ (mem_handles_of_index hix)
  have hentries : t.entries store' = t.entries store := by
    rw [Table.entries, Table.entries, hprimary]
  have hgetRow (id : RowId) : t.getRow store' id = t.getRow store id := by
    rw [Table.getRow, Table.getRow, hentries]
  have hload : t.rowSource store' = t.rowSource store := by
    funext id st
    rw [Table.rowSource, Table.rowSource, hgetRow]
  have hdrained {c : Cursor} (hc : ∀ m ∈ c.keys.map?, m ∈ t.handles ∧ store.isClosed m = false) :
      drained ⟨store', t⟩ c = drained ⟨store, t⟩ c := by
    have hsees : c.SeesAlike store store' := fun m hm => h m (hc m hm).1
    have hopen : ∀ m ∈ c.keys.map?, store.isClosed m = false := fun m hm => (hc m hm).2
    simp only [drained, hload, Cursor.collect_congr hsees hopen, Cursor.intoRows_congr hsees hopen]
  refine ⟨rfl, ?rows, hgetRow, ?entries, ?find, ?findEdge, ?advance⟩
  case rows =>
    show t.rows store' = t.rows store
    have hrowAt : t.rowAt store' = t.rowAt store := by
      funext key
      simp only [Table.rowAt, hgetRow]
    rw [Table.rows, Table.rows, hentries, hrowAt]
  case entries =>
    intro ix hix
    show ix.entries store' = ix.entries store
    rw [Index.entries, Index.entries, h _ (List.mem_cons_of_mem _ (List.mem_map_of_mem hix))]
  case find =>
    intro index lower upper
    show Except.map _ (t.index index >>= fun ix => ix.find store' lower upper) = _
    apply map_drained_congr
    · rcases hix : t.index index with e | ix
      · simp only [Session.find, hix, error_bind]
      · simp only [Session.find, hix, ok_bind, Index.find_congr (hindex hix)]
    · intro c hc
      obtain ⟨ix, hix, hfind⟩ := bind_eq_ok_iff.1 hc
      apply hdrained
      intro m hm
      obtain ⟨rfl, hopen⟩ := Index.map_of_find hfind m hm
      exact ⟨mem_handles_of_index hix, hopen⟩
  case findEdge =>
    intro index edge
    show Except.map _ (t.index index >>= fun ix => ix.findEdge store' edge) = _
    apply map_drained_congr
    · rcases hix : t.index index with e | ix
      · simp only [Session.findEdge, hix, error_bind]
      · simp only [Session.findEdge, hix, ok_bind, Index.findEdge_congr (hindex hix)]
    · intro c hc
      obtain ⟨ix, hix, hfind⟩ := bind_eq_ok_iff.1 hc
      apply hdrained
      intro m hm
      rw [Index.map_of_findEdge hfind] at hm
      cases hm
  case advance =>
    intro c hc
    exact Cursor.advance_congr fun m hm => h m (hc m hm)

end Session
end OrderedIndex
