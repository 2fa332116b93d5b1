/-
  OrderedIndex/Proofs/Table/Consistent.lean
  =========================================
  **A table that may have lost something.**

  Entries of indexes and whole maps can get lost without the table's doing, and then its
  indexes do not mirror its rows any more.  A session is still consistent
  (`Session.Consistent`) as long as what is left is right: the primary map, if it is
  open, stores rows, the entries of each index that is open are guarded, and no row id
  beyond the last one given out occurs anywhere.  Losing more cannot break that
  (`Consistent.of_shrinks`).

  It is enough for insertion and deletion to leave no trace when they fail.  An id that
  is given out is new to every index, so that taking back an insertion does not remove an
  older entry (`Consistent.insert_cases`); and guarded entries take back what was removed
  from them (`Consistent.delete_cases`).
-/
import OrderedIndex.Proofs.Table.Indexing

namespace OrderedIndex

/-- The name is one that a map of the table can have. -/
def Table.Owns (t : Table) (name : String) : Prop :=
  name = mapNameOf t.name t.id ∨
    ∃ (index : String) (id : IndexId), id.word < t.nextIndexId.word ∧
      name = Descriptor.mapNameOf index id

namespace Session

/-- The maps of the table are different ones, and what is left in those that are open is right. -/
structure Consistent (s : Session) : Prop where
  handles_nodup : (s.table.primary :: s.table.indexes.map Index.map).Nodup
  /-- The maps have been made, even if they are removed by now. -/
  made : ∀ m ∈ s.table.primary :: s.table.indexes.map Index.map, m.index < s.store.maps.length
  id_lt : ∀ ix ∈ s.table.indexes, ix.descriptor.id.word < s.table.nextIndexId.word
  names : ∀ name ∈ s.store.directory.keys, s.table.Owns name
  stored : ∀ m, s.store.read s.table.primary = .ok m →
    ∃ rows, Stores m rows ∧ ∀ r ∈ rows, r.id.word ≤ s.table.lastRowId.word
  indexed : ∀ ix ∈ s.table.indexes, ∀ m, s.store.read ix.map = .ok m →
    ix.Guarded m ∧ ∀ r, ix.layout.Holds m r → r.id.word ≤ s.table.lastRowId.word

variable {s : Session} {store : Store} {row : Row} {values : List Value} {id : RowId}

theorem consistent_fresh (id : TableId) (name : String) (columns : List Column)
    (config : IndexConfig) :
    (fresh id name columns config).Consistent where
  handles_nodup := List.nodup_singleton _
  made := by
    intro m hm
    rw [List.mem_singleton.1 hm]
    exact Nat.zero_lt_one
  id_lt := by
    intro ix hix
    cases hix
  names := by
    intro n hn
    exact .inl (List.mem_singleton.1 hn)
  stored := by
    intro m hread
    cases hread
    refine ⟨[], stores_empty, ?_⟩
    intro r hr
    cases hr
  indexed := by
    intro ix hix
    cases hix

theorem Consistent.nodup_maps (h : s.Consistent) : (s.table.indexes.map Index.map).Nodup :=
  (List.nodup_cons.1 h.handles_nodup).2

theorem Consistent.primary_not_mem (h : s.Consistent) :
    s.table.primary ∉ s.table.indexes.map Index.map :=
  (List.nodup_cons.1 h.handles_nodup).1

theorem Consistent.map_ne_primary (h : s.Consistent) {ix : Index} (hix : ix ∈ s.table.indexes) :
    ix.map ≠ s.table.primary := by
  intro heq
  exact h.primary_not_mem (heq ▸ List.mem_map_of_mem hix)

/-- The next map that the store makes is not one of the table's. -/
theorem Consistent.ne_made (h : s.Consistent) :
    ∀ m ∈ s.table.primary :: s.table.indexes.map Index.map, m ≠ s.store.made := by
  rintro m hm rfl
  exact Nat.lt_irrefl _ (h.made _ hm)

/-- **Losing entries and maps keeps a table consistent**, also when it forgets some indexes. -/
theorem Consistent.of_shrinks (h : s.Consistent) {indexes : List Index} (hs : s.store.Shrinks store)
    (hsub : indexes.Sublist s.table.indexes) : Consistent ⟨store, s.table.withIndexes indexes⟩ := by
  have hhandles := (hsub.map Index.map).cons_cons s.table.primary
  refine ⟨hhandles.nodup h.handles_nodup, ?made, ?id_lt, ?names, ?stored, ?indexed⟩
  case made =>
    intro m hm
    exact Nat.lt_of_lt_of_le (h.made m (hhandles.mem hm)) hs.length_le
  case id_lt =>
    intro ix hix
    exact h.id_lt ix (hsub.mem hix)
  case names =>
    intro name hname
    exact h.names name (hs.names hname)
  case stored =>
    intro m' hread'
    obtain ⟨m, hread, hm⟩ := hs.read _ _ hread'
    obtain ⟨rows, hstores, hle⟩ := h.stored m hread
    obtain ⟨rows', hstores', hrows⟩ := hstores.of_subset hm
    exact ⟨rows', hstores', fun r hr => hle r (hrows hr)⟩
  case indexed =>
    intro ix hix m' hread'
    obtain ⟨m, hread, hm⟩ := hs.read _ _ hread'
    obtain ⟨hguarded, hle⟩ := h.indexed ix (hsub.mem hix) m hread
    exact ⟨hguarded.of_subset hm, fun r hr => hle r (hr.mono hm)⟩

/-- The special case of `of_shrinks` in which no index is forgotten. -/
theorem Consistent.of_loss (h : s.Consistent) (hs : s.store.Shrinks store) :
    Consistent { s with store } :=
  h.of_shrinks hs (List.Sublist.refl _)

/-! ### Changing one row -/

/-- What is bound to the keys of a row is changed, in the map of the rows and in those of all
    indexes, and nothing else. -/
structure Rebinds (change : SortedMap Bytes Bytes → Bytes → Bytes → SortedMap Bytes Bytes)
    (s : Session) (row : Row) (store : Store) : Prop where
  rewrites : s.store.Rewrites store (s.table.primary :: s.table.indexes.map Index.map)
  stored : ∀ m, s.store.read s.table.primary = .ok m →
    store.read s.table.primary = .ok (change m (Key.ofRowId row.id) (StoredRow.encode row.values))
  indexed : ∀ ix ∈ s.table.indexes, ∀ m key, s.store.read ix.map = .ok m →
    ix.layout.encode row = .ok key →
    store.read ix.map = .ok (change m key [])

/-- The row is stored, and every index has an entry for it. -/
def Added : Session → Row → Store → Prop := Rebinds SortedMap.insert

/-- The row and its entries are gone. -/
def Removed : Session → Row → Store → Prop := Rebinds fun m key _ => m.erase key

variable {change : SortedMap Bytes Bytes → Bytes → Bytes → SortedMap Bytes Bytes}
  {m : SortedMap Bytes Bytes}

/-- After all indexes the map of the rows is changed. -/
theorem Consistent.rebinds (h : s.Consistent) (hread : s.store.read s.table.primary = .ok m)
    (hr : s.store.Rewrites store (s.table.indexes.map Index.map))
    (hindexed : ∀ ix ∈ s.table.indexes, ∀ m key, s.store.read ix.map = .ok m →
      ix.layout.encode row = .ok key → store.read ix.map = .ok (change m key [])) :
    Rebinds change s row
      (store.setEntries s.table.primary
        (change m (Key.ofRowId row.id) (StoredRow.encode row.values))) where
  rewrites := by
    have hopen := Store.isClosed_of_read ((hr.read_eq _ h.primary_not_mem).trans hread)
    exact (hr.mono (List.subset_cons_self _ _)).trans
      ((Store.rewrites_setEntries hopen _).mono (by simp))
  stored := by
    intro m' hread'
    cases hread.symm.trans hread'
    exact Store.read_setEntries_self
      (Store.isClosed_of_read ((hr.read_eq _ h.primary_not_mem).trans hread)) _
  indexed := by
    intro ix hix m' key hread' hkey
    have hopen := Store.isClosed_of_read ((hr.read_eq _ h.primary_not_mem).trans hread)
    exact (Store.read_setEntries_ne hopen (h.map_ne_primary hix)).trans
      (hindexed ix hix m' key hread' hkey)

/-! ### Inserting -/

/-- Nothing stands in the way of the row: it fits, its id is the next one, and every map of the
    table is open and takes it. -/
structure Admits (s : Session) (row : Row) : Prop where
  fits : s.table.Fits row.values
  next : s.table.lastRowId.next? = some row.id
  stored : ∃ m, s.store.read s.table.primary = .ok m
  indexed : ∀ ix ∈ s.table.indexes, ∃ m, s.store.read ix.map = .ok m ∧ ix.layout.Encodable row ∧
    (ix.descriptor.unique = true → ∀ r, ix.layout.Holds m r → ¬ix.Forbids r row)

theorem Consistent.exists_entriesWith_iff (h : s.Consistent) {ix : Index}
    (hix : ix ∈ s.table.indexes) :
    (∃ m, ix.entriesWith s.store row = .ok m) ↔ ∃ m, s.store.read ix.map = .ok m ∧
      ix.layout.Encodable row ∧
      (ix.descriptor.unique = true → ∀ r, ix.layout.Holds m r → ¬ix.Forbids r row) := by
  constructor
  · rintro ⟨m', hm'⟩
    obtain ⟨key, m, hkey, hread, -⟩ := Index.entriesWith_eq_ok hm'
    have hkeys := (h.indexed ix hix m hread).1.keysOfRows
    exact ⟨m, hread, KeyLayout.encodable_of_encode hkey,
      ((Index.entriesWith_eq_ok_iff hread hkeys hkey).1 hm').1⟩
  · rintro ⟨m, hread, hrow, hfree⟩
    obtain ⟨key, hkey⟩ := KeyLayout.exists_encodeAs_iff.2 hrow
    have hkeys := (h.indexed ix hix m hread).1.keysOfRows
    exact ⟨_, (Index.entriesWith_eq_ok_iff hread hkeys hkey).2 ⟨hfree, rfl⟩⟩

theorem Consistent.of_added (h : s.Consistent) (hrow : s.Admits row) (hadded : s.Added row store) :
    Consistent ⟨store, { s.table with lastRowId := row.id }⟩ := by
  refine ⟨h.handles_nodup, ?made, h.id_lt, ?names, ?stored, ?indexed⟩
  case made =>
    rw [hadded.rewrites.length_eq]
    exact h.made
  case names =>
    rw [hadded.rewrites.directory_eq]
    exact h.names
  case stored =>
    intro m' hread'
    obtain ⟨m, hread⟩ := hrow.stored
    cases hread'.symm.trans (hadded.stored m hread)
    obtain ⟨rows, hstores, hle⟩ := h.stored m hread
    refine ⟨rows ++ [row], hstores.insert row fun r hr => RowId.lt_next? (hle r hr) hrow.next, ?_⟩
    rw [List.forall_mem_append]
    exact ⟨fun r hr => RowId.le_next? (hle r hr) hrow.next, by simp⟩
  case indexed =>
    intro ix hix m' hread'
    obtain ⟨m, hread, hencodable, hfree⟩ := hrow.indexed ix hix
    obtain ⟨key, hkey⟩ : ∃ key, ix.layout.encode row = .ok key :=
      KeyLayout.exists_encodeAs_iff.2 hencodable
    cases hread'.symm.trans (hadded.indexed ix hix m key hread hkey)
    obtain ⟨hguarded, hle⟩ := h.indexed ix hix m hread
    refine ⟨hguarded.insert hkey hfree, ?_⟩
    intro r hr
    rcases KeyLayout.holds_insert_iff.1 hr with hr | hr
    · rw [(KeyLayout.eq_of_encode hr hkey).1]
      exact UInt64.le_refl _
    · exact RowId.le_next? (hle r hr) hrow.next

/-- **An insertion adds the row everywhere, or nothing has changed.**  It fails if and only if
    something stands in the way. -/
theorem Consistent.insert_cases (h : s.Consistent) (values : List Value) :
    (∃ e, s.insert values = (.error e, s) ∧ ∀ id, ¬s.Admits ⟨id, values⟩) ∨
      ∃ id store, s.Admits ⟨id, values⟩ ∧ s.Added ⟨id, values⟩ store ∧
        s.insert values = (.ok id, ⟨store, { s.table with lastRowId := id }⟩) := by
  rcases hcheck : s.table.checkValues values with e | ⟨⟩
  · refine .inl ⟨e, insert_of_misfit hcheck, ?_⟩
    intro id hadmits
    cases hcheck.symm.trans (Table.checkValues_eq_ok_iff.2 hadmits.fits)
  have hfits := Table.checkValues_eq_ok_iff.1 hcheck
  rcases hid : s.table.lastRowId.next? with _ | id
  · refine .inl ⟨_, insert_of_exhausted hfits hid, ?_⟩
    intro id hadmits
    cases hid.symm.trans hadmits.next
  -- no index has an entry with the new id, so what is taken back is what was added
  have hfit :
      Index.AllFit (fun ix m => ∀ key, ix.layout.encode ⟨id, values⟩ = .ok key → key ∉ m.keys)
      s.table.indexes s.store := by
    intro ix hix m hread key hkey hmem
    exact RowId.not_next?_le hid ((h.indexed ix hix m hread).2 ⟨id, values⟩ ⟨key, hmem, hkey⟩)
  rcases (Index.reversible_addToAll ⟨id, values⟩).cases h.nodup_maps hfit with
    ⟨ix, hix, e, hrefused, hall⟩ | ⟨hnew, store, hall, hr, hreads, hback⟩
  · refine .inl ⟨e, by simp only [insert, hcheck, hid, hall], ?_⟩
    intro id' hadmits
    obtain rfl : id = id' := Option.some.inj (hid.symm.trans hadmits.next)
    obtain ⟨m, hm⟩ := (h.exists_entriesWith_iff hix).2 (hadmits.indexed ix hix)
    cases hrefused.symm.trans hm
  have hsame := hr.read_eq _ h.primary_not_mem
  rcases hread : s.store.read s.table.primary with e | m
  · refine .inl ⟨.store e, ?_, ?_⟩
    · rw [hread] at hsame
      simp only [insert, hcheck, hid, hall, Store.put, hsame, map_error,
        Index.withdrawFromAll, hback]
    · rintro id' ⟨-, -, ⟨m, hm⟩, -⟩
      cases hread.symm.trans hm
  · have hadmits : s.Admits ⟨id, values⟩ :=
      ⟨hfits, hid, ⟨m, hread⟩, fun ix hix => (h.exists_entriesWith_iff hix).1 (hnew ix hix)⟩
    refine .inr ⟨id, _, hadmits, h.rebinds hread hr ?_, ?_⟩
    · intro ix hix m' key hread' hkey
      obtain ⟨m₁, hm₁⟩ := hnew ix hix
      have hkeys := (h.indexed ix hix m' hread').1.keysOfRows
      obtain ⟨-, rfl⟩ := (Index.entriesWith_eq_ok_iff hread' hkeys hkey).1 hm₁
      exact hreads ix hix _ hm₁
    · rw [hread] at hsame
      simp only [insert, hcheck, hid, hall, Store.put, hsame, map_ok]

/-! ### Deleting -/

/-- Every map of the table is open and holds what belongs to the row. -/
structure Complete (s : Session) (row : Row) : Prop where
  stored : ∃ m, s.store.read s.table.primary = .ok m ∧ row.binding ∈ m.entries
  indexed : ∀ ix ∈ s.table.indexes, ∃ m, s.store.read ix.map = .ok m ∧ ix.layout.Holds m row

theorem exists_entriesWithout_iff {ix : Index} :
    (∃ m, ix.entriesWithout s.store row = .ok m) ↔ ∃ m, s.store.read ix.map = .ok m ∧
      ix.layout.Holds m row := by
  constructor
  · rintro ⟨m', hm'⟩
    obtain ⟨key, m, hkey, hread, hmem, -⟩ := Index.entriesWithout_eq_ok hm'
    exact ⟨m, hread, key, hmem, hkey⟩
  · rintro ⟨m, hread, key, hmem, hkey⟩
    exact ⟨_, (Index.entriesWithout_eq_ok_iff hread hkey).2 ⟨hmem, rfl⟩⟩

theorem Removed.shrinks (h : s.Removed row store) (hrow : s.Complete row) :
    s.store.Shrinks store := by
  apply h.rewrites.shrinks
  intro m hm entries' hread'
  rcases List.mem_cons.1 hm with rfl | hm
  · obtain ⟨entries, hread, -⟩ := hrow.stored
    cases hread'.symm.trans (h.stored entries hread)
    exact ⟨entries, hread, entries.erase_subset _⟩
  · obtain ⟨ix, hix, rfl⟩ := List.mem_map.1 hm
    obtain ⟨entries, hread, key, -, hkey⟩ := hrow.indexed ix hix
    cases hread'.symm.trans (h.indexed ix hix entries key hread hkey)
    exact ⟨entries, hread, entries.erase_subset _⟩

/-- **A deletion takes the row out everywhere, or nothing has changed.**  It fails if and only if
    something of the row is missing. -/
theorem Consistent.delete_cases (h : s.Consistent) (id : RowId) :
    (∃ e, s.delete id = (.error e, s) ∧ ∀ row, row.id = id → ¬s.Complete row) ∨
      ∃ row store, row.id = id ∧ s.Complete row ∧ s.Removed row store ∧
        s.delete id = (.ok row, { s with store }) := by
  rcases hread : s.store.read s.table.primary with e | m
  · refine .inl ⟨.store e, ?_, ?_⟩
    · simp only [delete, Table.getRow, Table.entries, hread, mapError_error, error_bind]
    · rintro row - ⟨⟨m, hread', -⟩, -⟩
      cases hread.symm.trans hread'
  obtain ⟨rows, hstores, -⟩ := h.stored m hread
  -- a complete row is one of the stored ones
  have hmem (row : Row) (hrow : s.Complete row) : row ∈ rows := by
    obtain ⟨m', hread', hbinding⟩ := hrow.stored
    cases hread.symm.trans hread'
    exact hstores.mem_entries.1 hbinding
  by_cases hid : ∃ row ∈ rows, row.id = id
  · obtain ⟨row, hrow, rfl⟩ := hid
    have hget := Table.getRow_of_mem hread hstores hrow
    have hfit : Index.AllFit Index.Guarded s.table.indexes s.store :=
      fun ix hix m hread => (h.indexed ix hix m hread).1
    rcases (Index.reversible_removeFromAll row).cases h.nodup_maps hfit with
      ⟨ix, hix, e, hrefused, hall⟩ | ⟨hnew, store, hall, hr, hreads, -⟩
    · refine .inl ⟨e, by simp only [delete, hget, hall], ?_⟩
      intro row' hid' hrow'
      obtain rfl := eq_of_mem_of_key_eq hstores.idsIncrease (hmem row' hrow') hrow hid'
      obtain ⟨m', hm'⟩ := exists_entriesWithout_iff.2 (hrow'.indexed ix hix)
      cases hrefused.symm.trans hm'
    · have hcomplete : s.Complete row :=
        ⟨⟨m, hread, hstores.mem_entries.2 hrow⟩,
          fun ix hix => exists_entriesWithout_iff.1 (hnew ix hix)⟩
      have hprimary := (hr.read_eq _ h.primary_not_mem).trans hread
      refine .inr ⟨row, _, rfl, hcomplete, h.rebinds hread hr ?_, ?_⟩
      · intro ix hix m' key hread' hkey
        obtain ⟨m₁, hm₁⟩ := hnew ix hix
        obtain ⟨-, rfl⟩ := (Index.entriesWithout_eq_ok_iff hread' hkey).1 hm₁
        exact hreads ix hix _ hm₁
      · simp only [delete, hget, hall, Store.remove, hprimary, map_ok]
  · have hget :=
      Table.getRow_of_not_mem (t := s.table) hread hstores fun r hr heq => hid ⟨r, hr, heq⟩
    refine .inl ⟨_, by simp only [delete, hget]; rfl, ?_⟩
    intro row hrow hcomplete
    exact hid ⟨row, hmem row hcomplete, hrow⟩

end Session
end OrderedIndex
