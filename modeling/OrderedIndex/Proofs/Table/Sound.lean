/-
  OrderedIndex/Proofs/Table/Sound.lean
  ====================================
  **A table in order**, and the operations on its rows.

  A session is sound for some rows (`Session.Sound`) when its primary map stores these
  rows and each of its indexes mirrors them.  Inserting a row either adds it everywhere
  (`Sound.insert_ok`) or changes nothing (`Sound.insert_refused`); deleting takes a stored
  row out everywhere (`Sound.delete_of_mem`), and truncating all of them
  (`Sound.truncate`).
-/
import OrderedIndex.Proofs.Index.Undo
import OrderedIndex.Proofs.Table.Rows
import OrderedIndex.Proofs.Table.Wiring

namespace OrderedIndex

namespace Session

/-- The table stores the rows, and its indexes mirror them. -/
structure Sound (s : Session) (rows : List Row) : Prop where
  wired : s.table.Wired s.store
  stored : ∃ m, s.store.read s.table.primary = .ok m ∧ Stores m rows
  mirrored : ∀ ix ∈ s.table.indexes, ∃ m, s.store.read ix.map = .ok m ∧ ix.Mirrors m rows
  id_le : ∀ r ∈ rows, r.id.word ≤ s.table.lastRowId.word
  configured : ∀ ix ∈ s.table.indexes, ix.config = s.table.config

variable {s : Session} {rows : List Row} {row : Row} {values : List Value} {id : RowId}

theorem sound_fresh (id : TableId) (name : String) (columns : List Column) (config : IndexConfig) :
    (fresh id name columns config).Sound [] where
  wired := Table.wired_fresh id name columns config
  stored := ⟨.empty, rfl, stores_empty⟩
  mirrored := by
    intro ix hix
    cases hix
  id_le := by
    intro r hr
    cases hr
  configured := by
    intro ix hix
    cases hix

theorem Sound.idsIncrease (h : s.Sound rows) : IdsIncrease rows := by
  obtain ⟨m, -, hm⟩ := h.stored
  exact hm.idsIncrease

theorem Sound.rows_eq (h : s.Sound rows) : s.table.rows s.store = .ok rows := by
  obtain ⟨m, hread, hm⟩ := h.stored
  exact Table.rows_of_stores hread hm

/-- After all indexes and then the primary map have been rewritten. -/
theorem Sound.of_rewrites {rows' : List Row} {store : Store} {m : SortedMap Bytes Bytes}
    {last : RowId} (h : s.Sound rows)
    (hr : s.store.Rewrites store (s.table.indexes.map Index.map))
    (hindexes : ∀ ix ∈ s.table.indexes, ∃ m, store.read ix.map = .ok m ∧ ix.Mirrors m rows')
    (hm : Stores m rows') (hlast : ∀ r ∈ rows', r.id.word ≤ last.word) :
    Sound ⟨store.setEntries s.table.primary m, { s.table with lastRowId := last }⟩ rows' := by
  have hopen : store.isClosed s.table.primary = false := by
    rw [hr.isClosed_eq]
    exact h.wired.isOpen _ Table.mem_maps_primary
  have hwired := (h.wired.of_rewrites hr).of_rewrites (Store.rewrites_setEntries hopen m)
  refine ⟨hwired.withLastRowId last, ?_, ?_, hlast, h.configured⟩
  · exact ⟨m, Store.read_setEntries_self hopen _, hm⟩
  · intro ix hix
    have hne : ix.map ≠ s.table.primary :=
      fun he => h.wired.primary_not_mem (he ▸ List.mem_map_of_mem hix)
    obtain ⟨m', hread, hm'⟩ := hindexes ix hix
    exact ⟨m', (Store.read_setEntries_ne hopen hne).trans hread, hm'⟩

/-! ### Inserting -/

theorem insert_of_misfit {e : Error} (h : s.table.checkValues values = .error e) :
    s.insert values = (.error e, s) := by
  rw [insert, h]

theorem insert_of_exhausted (hfits : s.table.Fits values) (hid : s.table.lastRowId.next? = none) :
    s.insert values = (.error (.rowIdsExhausted s.table.name), s) := by
  rw [insert, Table.checkValues_eq_ok_iff.2 hfits, hid]

theorem Sound.compare_next (h : s.Sound rows) (hid : s.table.lastRowId.next? = some id) :
    ∀ r ∈ rows, compare r.id id = .lt := fun r hr => RowId.lt_next? (h.id_le r hr) hid

theorem Sound.id_ne_next (h : s.Sound rows) (hid : s.table.lastRowId.next? = some id) :
    ∀ r ∈ rows, r.id ≠ id := by
  intro r hr heq
  have hlt := h.compare_next hid r hr
  rw [heq] at hlt
  exact not_compare_lt_self _ hlt

theorem Sound.entriesWith_eq_error_iff (h : s.Sound rows) {ix : Index}
    (hix : ix ∈ s.table.indexes) {e : Error} :
    ix.entriesWith s.store row = .error e ↔ ix.Refuses rows row e := by
  obtain ⟨m, hread, hm⟩ := h.mirrored ix hix
  exact hm.entriesWith_eq_error_iff h.idsIncrease hread

theorem Sound.exists_entriesWith (h : s.Sound rows) {ix : Index} (hix : ix ∈ s.table.indexes)
    (hnot : ∀ e, ¬ix.Refuses rows row e) : ∃ m, ix.entriesWith s.store row = .ok m := by
  rcases hw : ix.entriesWith s.store row with e | m
  · exact absurd ((h.entriesWith_eq_error_iff hix).1 hw) (hnot e)
  · exact ⟨m, rfl⟩

theorem Sound.insert_ok (h : s.Sound rows) (hfits : s.table.Fits values)
    (hid : s.table.lastRowId.next? = some id)
    (hindexes : ∀ ix ∈ s.table.indexes, ∀ e, ¬ix.Refuses rows ⟨id, values⟩ e) :
    ∃ store, s.insert values = (.ok id, ⟨store, { s.table with lastRowId := id }⟩) ∧
      Sound ⟨store, { s.table with lastRowId := id }⟩ (rows ++ [⟨id, values⟩]) := by
  have hadd : ∀ ix ∈ s.table.indexes, ∃ m, ix.entriesWith s.store ⟨id, values⟩ = .ok m := by
    intro ix hix
    exact h.exists_entriesWith hix (hindexes ix hix)
  obtain ⟨store, hall, hr, hreads⟩ :=
    (Index.sweep_addToAll ⟨id, values⟩).of_ok h.wired.nodup_maps hadd
  obtain ⟨m, hread, hm⟩ := h.stored
  have hread' := (hr.read_eq _ h.wired.primary_not_mem).trans hread
  have hm' :
      Stores (m.insert (Key.ofRowId id) (StoredRow.encode values)) (rows ++ [⟨id, values⟩]) :=
    hm.insert ⟨id, values⟩ (h.compare_next hid)
  refine ⟨store.setEntries s.table.primary (m.insert (Key.ofRowId id) (StoredRow.encode values)),
    ?_, ?_⟩
  · rw [insert, Table.checkValues_eq_ok_iff.2 hfits, hid]
    simp only [hall, Store.put, hread', map_ok]
  · refine h.of_rewrites hr ?_ hm' ?_
    · intro ix hix
      obtain ⟨m, hread, hm⟩ := h.mirrored ix hix
      obtain ⟨m', hm'⟩ := hadd ix hix
      exact ⟨m', hreads ix hix m' hm', hm.of_entriesWith h.idsIncrease hread hm'⟩
    · rw [List.forall_mem_append]
      refine ⟨?_, by simp⟩
      intro r hr
      exact RowId.le_next? (h.id_le r hr) hid

/-- **The first index that refuses a row decides**, and nothing has changed. -/
theorem Sound.insert_refused {before after : List Index} {ix : Index} {e : Error}
    (h : s.Sound rows) (hfits : s.table.Fits values) (hid : s.table.lastRowId.next? = some id)
    (hsplit : s.table.indexes = before ++ ix :: after)
    (hbefore : ∀ b ∈ before, ∀ e, ¬b.Refuses rows ⟨id, values⟩ e)
    (hix : ix.Refuses rows ⟨id, values⟩ e) :
    s.insert values = (.error e, s) := by
  have hsub : ∀ b ∈ before, b ∈ s.table.indexes := by
    intro b hb
    rw [hsplit]
    exact List.mem_append_left _ hb
  have hmem : ix ∈ s.table.indexes := by simp [hsplit]
  have hfirst : (before ++ [ix]).Sublist s.table.indexes := by simp [hsplit]
  have hall : Index.addToAll ⟨id, values⟩ s.table.indexes s.store = (.error e, s.store) := by
    rw [hsplit]
    refine (Index.reversible_addToAll ⟨id, values⟩).of_error ?_ ?_ ?_ ?_
    · exact (hfirst.map Index.map).nodup h.wired.nodup_maps
    · intro b hb m hread key hkey
      obtain ⟨m', hread', hm⟩ := h.mirrored b (hsub b hb)
      obtain rfl := Except.ok.inj (hread.symm.trans hread')
      exact hm.not_mem_keys (h.id_ne_next hid) hkey
    · intro b hb
      exact h.exists_entriesWith (hsub b hb) (hbefore b hb)
    · exact (h.entriesWith_eq_error_iff hmem).2 hix
  rw [insert, Table.checkValues_eq_ok_iff.2 hfits, hid]
  simp only [hall]

/-- A row that fits goes in everywhere, or the first index that refuses it says why not. -/
theorem Sound.insert_cases (h : s.Sound rows) (hfits : s.table.Fits values)
    (hid : s.table.lastRowId.next? = some id) :
    ((∀ ix ∈ s.table.indexes, ∀ e, ¬ix.Refuses rows ⟨id, values⟩ e) ∧
        ∃ store, s.insert values = (.ok id, ⟨store, { s.table with lastRowId := id }⟩) ∧
          Sound ⟨store, { s.table with lastRowId := id }⟩ (rows ++ [⟨id, values⟩])) ∨
      ∃ before ix after e, s.table.indexes = before ++ ix :: after ∧
        (∀ b ∈ before, ∀ e, ¬b.Refuses rows ⟨id, values⟩ e) ∧ ix.Refuses rows ⟨id, values⟩ e ∧
          s.insert values = (.error e, s) := by
  rcases forall_or_exists_first (fun ix => ∀ e, ¬ix.Refuses rows ⟨id, values⟩ e)
      s.table.indexes with
    hall | ⟨before, ix, after, hsplit, hbefore, hix⟩
  · exact .inl ⟨hall, h.insert_ok hfits hid hall⟩
  · rw [not_forall_not] at hix
    obtain ⟨e, hix⟩ := hix
    exact .inr ⟨before, ix, after, e, hsplit, hbefore, hix,
      h.insert_refused hfits hid hsplit hbefore hix⟩

/-! ### Deleting -/

theorem Sound.delete_of_mem (h : s.Sound rows) (hrow : row ∈ rows) :
    ∃ store, s.delete row.id = (.ok row, { s with store }) ∧
      Sound { s with store } (rows.filter (·.id ≠ row.id)) := by
  obtain ⟨m, hread, hm⟩ := h.stored
  have hremove : ∀ ix ∈ s.table.indexes, ∃ m, ix.entriesWithout s.store row = .ok m := by
    intro ix hix
    obtain ⟨m, hread, hm⟩ := h.mirrored ix hix
    obtain ⟨m', hm', -⟩ := hm.entriesWithout h.idsIncrease hread hrow
    exact ⟨m', hm'⟩
  obtain ⟨store, hall, hr, hreads⟩ :=
    (Index.sweep_removeFromAll row).of_ok h.wired.nodup_maps hremove
  have hread' := (hr.read_eq _ h.wired.primary_not_mem).trans hread
  refine ⟨store.setEntries s.table.primary (m.erase (Key.ofRowId row.id)), ?_, ?_⟩
  · rw [delete, Table.getRow_of_mem hread hm hrow]
    simp only [hall, Store.remove, hread', map_ok]
  · refine h.of_rewrites hr ?_ (hm.erase row.id) ?_
    · intro ix hix
      obtain ⟨m, hread, hm⟩ := h.mirrored ix hix
      obtain ⟨m', hm', hmirrors⟩ := hm.entriesWithout h.idsIncrease hread hrow
      exact ⟨m', hreads ix hix m' hm', hmirrors⟩
    · intro r hr
      exact h.id_le r (List.mem_filter.1 hr).1

theorem Sound.delete_of_not_mem (h : s.Sound rows) (hid : ∀ r ∈ rows, r.id ≠ id) :
    s.delete id = (.error (.rowNotFound s.table.name id), s) := by
  obtain ⟨m, hread, hm⟩ := h.stored
  rw [delete, Table.getRow_of_not_mem hread hm hid]

/-! ### Truncating -/

theorem Sound.truncate (h : s.Sound rows) :
    ∃ store, s.truncate = (.ok (), { s with store }) ∧ Sound { s with store } [] := by
  obtain ⟨m, hread, hm⟩ := h.stored
  have hclear :
      ∀ ix ∈ s.table.indexes, (ix.entries s.store).map (fun _ => .empty) =
        .ok (.empty : SortedMap Bytes Bytes) := by
    intro ix hix
    obtain ⟨m, hread, -⟩ := h.mirrored ix hix
    rw [Index.entries, hread]
    rfl
  obtain ⟨store, hall, hr, hreads⟩ := Index.sweep_clearAll.of_ok h.wired.nodup_maps
    fun ix hix => ⟨_, hclear ix hix⟩
  have hread' := (hr.read_eq _ h.wired.primary_not_mem).trans hread
  refine ⟨store.setEntries s.table.primary .empty, ?_, ?_⟩
  · rw [Session.truncate]
    simp only [hall, Store.clear, hread', map_ok]
  · refine h.of_rewrites hr ?_ stores_empty ?_
    · intro ix hix
      exact ⟨_, hreads ix hix _ (hclear ix hix), .empty ix⟩
    · intro r hr
      cases hr

end Session
end OrderedIndex
