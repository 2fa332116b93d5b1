/-
  OrderedIndex/Proofs/Table/Drift.lean
  ====================================
  **Runs in which a table is tampered with.**

  Between the commands of a run anything may get lost (`Incident`): an entry is removed
  from the map of an index, or a whole map is removed through another handle.  Commands
  meet that later, as a missing entry or a closed map, and may fail for it at any of the
  indexes or at the map of the rows.

  Every command and every loss leads from a consistent table to a consistent one
  (`Consistent.run`, `Consistent.undergo`), so the table is consistent all along
  (`consistent_undergoAll`).  Two results follow for every state of such a run: an
  insertion that fails changes nothing (`insert_leaves_no_trace`), and a deletion succeeds
  exactly if nothing of the row is missing, and else changes nothing
  (`delete_leaves_no_trace`).
-/
import OrderedIndex.Proofs.Table.Consistent
import OrderedIndex.Proofs.Table.Run

namespace OrderedIndex

/-! ### Losing entries -/

theorem Index.shrinks_clearAll (ixs : List Index) (s : Store) : s.Shrinks (clearAll ixs s).2 := by
  induction ixs generalizing s with
  | nil => exact .refl s
  | cons ix rest ih =>
    unfold clearAll
    split
    · exact .refl s
    · rename_i s' hclear
      exact (Store.shrinks_clear (mapError_eq_ok_iff.1 hclear)).trans (ih s')

/-- An index that mirrors some rows is guarded by that. -/
theorem Index.Mirrors.guarded {ix : Index} {m : SortedMap Bytes Bytes} {rows : List Row}
    (h : ix.Mirrors m rows) :
    ix.Guarded m where
  keysOfRows := h.keysOfRows
  value := by
    intro e he
    obtain ⟨r, -, -, hv⟩ := (h.mem_entries e).1 he
    exact hv
  unique := by
    rintro hunique a b ⟨keyA, hkeyA, ha⟩ ⟨keyB, hkeyB, hb⟩ hforbids
    obtain ⟨r, hr, hra⟩ := h.mem_keys.1 hkeyA
    obtain ⟨r', hr', hrb⟩ := h.mem_keys.1 hkeyB
    obtain ⟨hida, hsamea⟩ := KeyLayout.eq_of_encode ha hra
    obtain ⟨hidb, hsameb⟩ := KeyLayout.eq_of_encode hb hrb
    have hforbids' := ((hforbids.of_sameKey hsamea).symm.of_sameKey hsameb).symm
    by_contra hne
    exact h.unique hunique r hr r' hr' (fun hid => hne (hida.trans (hid.trans hidb.symm))) hforbids'

namespace Session

variable {s : Session} {store : Store}

/-! ### Commands -/

theorem Consistent.truncate (h : s.Consistent) : s.truncate.2.Consistent := by
  have hclear := Index.shrinks_clearAll s.table.indexes s.store
  unfold Session.truncate
  split
  · rename_i e store hall
    rw [hall] at hclear
    exact h.of_loss hclear
  · rename_i store hall
    rw [hall] at hclear
    split
    · exact h.of_loss hclear
    · rename_i store' hstore
      exact h.of_loss (hclear.trans (Store.shrinks_clear hstore))

theorem Consistent.get?_eq_none (h : s.Consistent) {name : String} (hname : name ≠ s.table.name) :
    s.store.directory.get? (Descriptor.mapNameOf name s.table.nextIndexId) = none := by
  rw [SortedMap.get?_eq_none_iff]
  intro hmem
  rcases h.names _ hmem with heq | ⟨index, id, hlt, heq⟩
  · exact hname (Descriptor.name_eq_of_mapNameOf heq)
  · rw [(Descriptor.mapNameOf_inj heq).2] at hlt
    exact UInt32.lt_irrefl _ hlt

/-- A new index with guarded entries joins the others. -/
theorem Consistent.withIndex (h : s.Consistent) {name : String} {ix : Index}
    {m : SortedMap Bytes Bytes} (hcreates : s.Creates name ix)
    (hleft : s.table.nextIndexId.next? ≠ none)
    (hr : (s.store.openMap ix.descriptor.mapName).2.Rewrites store [ix.map])
    (hread : store.read ix.map = .ok m) (hm : ix.Guarded m)
    (hle : ∀ r, ix.layout.Holds m r → r.id.word ≤ s.table.lastRowId.word) :
    Consistent ⟨store, s.table.withIndex ix⟩ := by
  have hkept :
      ∀ k ∈ s.table.primary :: s.table.indexes.map Index.map, store.read k = s.store.read k := by
    intro k hk
    have hk' : k ∉ [ix.map] := by
      rw [List.mem_singleton, hcreates.map_eq]
      exact h.ne_made k hk
    exact (hr.read_eq k hk').trans (Store.read_openMap_of_ne hcreates.free (h.ne_made k hk))
  have hhandles : s.table.primary :: (s.table.indexes ++ [ix]).map Index.map =
      (s.table.primary :: s.table.indexes.map Index.map) ++ [s.store.made] := by
    rw [List.map_append, List.cons_append, ← hcreates.map_eq]
    rfl
  have hopened := Store.openMap_of_free hcreates.free
  refine ⟨?handles, ?made, ?id_lt, ?names, ?stored, ?indexed⟩
  case handles =>
    show (s.table.primary :: (s.table.indexes ++ [ix]).map Index.map).Nodup
    rw [hhandles, List.nodup_append]
    refine ⟨h.handles_nodup, List.nodup_singleton _, ?_⟩
    intro k hk k' hk'
    rw [List.mem_singleton.1 hk']
    exact h.ne_made k hk
  case made =>
    show ∀ k ∈ s.table.primary :: (s.table.indexes ++ [ix]).map Index.map,
      k.index < store.maps.length
    rw [hhandles, hr.length_eq, hopened, List.forall_mem_append]
    simp only [List.length_append, List.length_singleton]
    refine ⟨fun k hk => Nat.lt_succ_of_lt (h.made k hk), ?_⟩
    intro k hk
    rw [List.mem_singleton.1 hk]
    exact Nat.lt_succ_self _
  case id_lt =>
    intro ix' hix'
    rcases List.mem_append.1 hix' with hix' | hix'
    · exact UInt32.lt_trans (h.id_lt ix' hix') (IndexId.lt_next hleft)
    · rw [List.mem_singleton.1 hix', hcreates.id_eq]
      exact IndexId.lt_next hleft
  case names =>
    intro n hn
    rw [hr.directory_eq, hopened] at hn
    rcases SortedMap.mem_keys_insert.1 hn with rfl | hn
    · refine .inr ⟨ix.descriptor.name, ix.descriptor.id, ?_, rfl⟩
      rw [hcreates.id_eq]
      exact IndexId.lt_next hleft
    · rcases h.names n hn with hown | ⟨index, id, hlt, hown⟩
      · exact .inl hown
      · exact .inr ⟨index, id, UInt32.lt_trans hlt (IndexId.lt_next hleft), hown⟩
  case stored =>
    intro m' hread'
    exact h.stored m' ((hkept _ List.mem_cons_self).symm.trans hread')
  case indexed =>
    intro ix' hix' m' hread'
    rcases List.mem_append.1 hix' with hix' | hix'
    · have hmem : ix'.map ∈ s.table.primary :: s.table.indexes.map Index.map :=
        List.mem_cons_of_mem _ (List.mem_map_of_mem hix')
      exact h.indexed ix' hix' m' ((hkept _ hmem).symm.trans hread')
    · obtain rfl := List.mem_singleton.1 hix'
      cases hread.symm.trans hread'
      exact ⟨hm, hle⟩

theorem Consistent.createIndex (h : s.Consistent) {name : String} (hname : name ≠ s.table.name)
    (columns : List (String × Direction)) (unique : Bool) :
    (s.createIndex name columns unique).2.Consistent := by
  rcases createIndex_cases columns unique (fun _ => h.get?_eq_none hname) with
    ⟨e, hnone⟩ |
      ⟨ix, hcreates, ⟨e, store, hremove, hundone⟩ | ⟨store, hfill, hleft, hdone⟩⟩
  · rw [hnone]
    exact h
  · rw [hundone]
    exact h.of_loss (Store.shrinks_removeMap_openMap hcreates.free hremove)
  · rw [hdone]
    -- the map of the rows is open, since the rows have been read
    obtain ⟨m, hread⟩ := Table.exists_read_of_fill hfill
    have hsame := Store.read_openMap_of_ne hcreates.free (h.ne_made _ List.mem_cons_self)
    obtain ⟨rows, hstores, hle⟩ := h.stored m (hsame.symm.trans hread)
    rw [Table.fill_eq hread hstores] at hfill
    obtain ⟨hr, m', hread', hm'⟩ :=
      Index.mirrors_of_foldlM_add hcreates.read_empty (.empty ix) hstores.idsIncrease hfill
    refine h.withIndex hcreates hleft hr hread' hm'.guarded ?_
    rintro r ⟨key, hkey, hr⟩
    obtain ⟨r', hr', hkey'⟩ := hm'.mem_keys.1 hkey
    rw [(KeyLayout.eq_of_encode hr hkey').1]
    exact hle r' hr'

theorem Consistent.dropIndex (h : s.Consistent) (name : String) :
    (s.dropIndex name).2.Consistent := by
  rcases dropIndex_outcome s name with
    hnone | ⟨ix, before, after, store, -, hsplit, ⟨-, rfl⟩ | hremove, hdone⟩
  · rw [hnone]
    exact h
  · rw [hdone]
    exact h.of_shrinks (.refl _) (Table.sublist_without hsplit)
  · rw [hdone]
    exact h.of_shrinks (Store.shrinks_removeMap hremove) (Table.sublist_without hsplit)

theorem Consistent.renameIndex (h : s.Consistent) (name newName : String) :
    (s.renameIndex name newName).2.Consistent := by
  rcases renameIndex_outcome s name newName with
    ⟨e, -, hrefused⟩ | ⟨ix, before, after, store, -, -, hsplit, hrename, hdone⟩
  · rw [hrefused]
    exact h
  rw [hdone]
  obtain ⟨hlength, hnames, hstate⟩ := Store.rename_eq_ok hrename
  -- apart from the name, each index is one that was there before
  have hold : ∀ b ∈ before ++ ix.withName newName :: after,
      ∃ b₀ ∈ s.table.indexes, b.descriptor.id = b₀.descriptor.id ∧ b.map = b₀.map ∧
        b.layout = b₀.layout ∧
        ∀ m, b₀.Guarded m → b.Guarded m := by
    intro b hb
    rw [List.mem_append, List.mem_cons] at hb
    rcases hb with hb | rfl | hb
    · exact ⟨b, by simp [hsplit, hb], rfl, rfl, rfl, fun _ hm => hm⟩
    · exact ⟨ix, by simp [hsplit], rfl, rfl, rfl, fun _ hm => ⟨hm.1, hm.2, hm.3⟩⟩
    · exact ⟨b, by simp [hsplit, hb], rfl, rfl, rfl, fun _ hm => hm⟩
  have hhandles :
      (s.table.withIndexes (before ++ ix.withName newName :: after)).indexes.map Index.map =
      s.table.indexes.map Index.map := by
    rw [hsplit, List.map_append]
    exact List.map_append
  refine ⟨?handles, ?made, ?id_lt, ?names, ?stored, ?indexed⟩
  case handles =>
    rw [hhandles]
    exact h.handles_nodup
  case made =>
    dsimp only
    rw [hhandles, hlength]
    exact h.made
  case id_lt =>
    intro b hb
    obtain ⟨b₀, hb₀, hid, -⟩ := hold b hb
    rw [hid]
    exact h.id_lt b₀ hb₀
  case names =>
    intro n hn
    rcases hnames n hn with rfl | hn
    · exact .inr ⟨newName, ix.descriptor.id, h.id_lt ix (by simp [hsplit]), rfl⟩
    · exact h.names n hn
  case stored =>
    intro m hread
    exact h.stored m ((Store.read_renamed_iff hstate).1 hread)
  case indexed =>
    intro b hb m hread
    obtain ⟨b₀, hb₀, -, hmap, hlayout, hguarded⟩ := hold b hb
    rw [hmap] at hread
    obtain ⟨hm, hle⟩ := h.indexed b₀ hb₀ m ((Store.read_renamed_iff hstate).1 hread)
    rw [hlayout]
    exact ⟨hguarded m hm, hle⟩

/-- **Every command keeps a table consistent.** -/
theorem Consistent.run (h : s.Consistent) {c : Command} (hc : c.Spares s.table.name) :
    (s.run c).2.Consistent := by
  cases c with
  | insert values =>
    show (s.insert values).2.Consistent
    rcases h.insert_cases values with ⟨e, hinsert, -⟩ | ⟨id, store, hadmits, hadded, hinsert⟩
    · rw [hinsert]
      exact h
    · rw [hinsert]
      exact h.of_added hadmits hadded
  | delete id =>
    show (s.delete id).2.Consistent
    rcases h.delete_cases id with ⟨e, hdelete, -⟩ | ⟨row, store, -, hrow, hremoved, hdelete⟩
    · rw [hdelete]
      exact h
    · rw [hdelete]
      exact h.of_loss (hremoved.shrinks hrow)
  | truncate => exact h.truncate
  | createIndex name columns unique => exact h.createIndex hc columns unique
  | dropIndex name => exact h.dropIndex name
  | renameIndex name newName => exact h.renameIndex name newName

end Session

/-! ### Incidents -/

/-- What can happen to a table: a command is run, or something is removed behind its back. -/
inductive Incident
  | command (c : Command)
  /-- One of the indexes, given by its place, loses the entry of a key. -/
  | entryLost (index : Nat) (key : Bytes)
  | mapRemoved (m : MapId)
  deriving DecidableEq

def Incident.Spares (table : String) : Incident → Prop
  | .command c => c.Spares table
  | .entryLost .. | .mapRemoved _ => True

instance (table : String) : DecidablePred (Incident.Spares table) := fun e =>
  match e with
  | .command c => inferInstanceAs (Decidable (c.Spares table))
  | .entryLost .. | .mapRemoved _ => .isTrue trivial

namespace Session

/-- The session after an incident.  What is not there, or is removed already, cannot be removed. -/
def undergo (s : Session) : Incident → Session
  | .command c => (s.run c).2
  | .entryLost index key =>
    match s.table.indexes[index]? with
    | none => s
    | some ix =>
      match s.store.remove ix.map key with
      | .error _ => s
      | .ok (_, store) => { s with store }
  | .mapRemoved m =>
    match s.store.removeMap m with
    | .error _ => s
    | .ok store => { s with store }

def undergoAll (s : Session) (es : List Incident) : Session := es.foldl undergo s

variable {s : Session}

/-- An incident is a command, or the store loses something. -/
theorem undergo_cases (s : Session) (e : Incident) :
    (∃ c, e = .command c) ∨ ∃ store, s.undergo e = { s with store } ∧ s.store.Shrinks store := by
  cases e with
  | command c => exact .inl ⟨c, rfl⟩
  | entryLost index key =>
    unfold undergo
    dsimp only
    split
    · exact .inr ⟨s.store, rfl, .refl _⟩
    · split
      · exact .inr ⟨s.store, rfl, .refl _⟩
      · rename_i store hremove
        exact .inr ⟨store, rfl, Store.shrinks_remove hremove⟩
  | mapRemoved m =>
    unfold undergo
    dsimp only
    split
    · exact .inr ⟨s.store, rfl, .refl _⟩
    · rename_i store hremove
      exact .inr ⟨store, rfl, Store.shrinks_removeMap hremove⟩

theorem undergo_name (s : Session) (e : Incident) : (s.undergo e).table.name = s.table.name := by
  rcases undergo_cases s e with ⟨c, rfl⟩ | ⟨store, hstore, -⟩
  · obtain ⟨indexes, nextIndexId, last, htable, -⟩ := run_table s c
    show (s.run c).2.table.name = _
    rw [htable]
  · rw [hstore]

/-- **Every incident keeps a table consistent.** -/
theorem Consistent.undergo (h : s.Consistent) {e : Incident} (he : e.Spares s.table.name) :
    (s.undergo e).Consistent := by
  rcases undergo_cases s e with ⟨c, rfl⟩ | ⟨store, hstore, hshrinks⟩
  · exact h.run he
  · rw [hstore]
    exact h.of_loss hshrinks

theorem Consistent.undergoAll (h : s.Consistent) {es : List Incident}
    (hes : ∀ e ∈ es, e.Spares s.table.name) :
    (s.undergoAll es).Consistent := by
  induction es generalizing s with
  | nil => exact h
  | cons e es ih =>
    obtain ⟨he, hes⟩ := List.forall_mem_cons.1 hes
    apply ih (h.undergo he)
    rw [undergo_name]
    exact hes

theorem consistent_undergoAll (id : TableId) (name : String) (columns : List Column)
    (config : IndexConfig) {es : List Incident} (hes : ∀ e ∈ es, e.Spares name) :
    ((fresh id name columns config).undergoAll es).Consistent :=
  (consistent_fresh id name columns config).undergoAll hes

/-! ### No trace -/

theorem next?_of_insert_ok {values : List Value} {id : RowId} (h : (s.insert values).1 = .ok id) :
    s.table.lastRowId.next? = some id := by
  unfold insert at h
  split at h
  · cases h
  split at h
  · cases h
  rename_i id' hid
  dsimp only at h
  split at h
  · cases h
  split at h
  · cases h
  · rw [hid, Except.ok.inj h]

/-- **An insertion that fails leaves no trace.**  Whatever a table has been through, with entries
    and maps of it lost on the way, an insertion that gives a fault leaves every map of the store,
    its directory, the indexes and the last row id as they were.  So the next insertion that
    succeeds gives the id that this one would have given.  The others add the row to every map, and
    these are the insertions in whose way nothing stands. -/
theorem insert_leaves_no_trace (id : TableId) (name : String) (columns : List Column)
    (config : IndexConfig) (es : List Incident) (hes : ∀ e ∈ es, e.Spares name)
    (values : List Value) :
    let s := (fresh id name columns config).undergoAll es
    (∀ e, (s.insert values).1 = .error e → (s.insert values).2 = s ∧
        ∀ others next, ((s.insert values).2.insert others).1 = .ok next →
          s.table.lastRowId.next? = some next) ∧
      (∀ rowId, (s.insert values).1 = .ok rowId →
        ∃ store, (s.insert values).2 = ⟨store, { s.table with lastRowId := rowId }⟩ ∧
          s.Added ⟨rowId, values⟩ store) ∧
      ∀ rowId, (s.insert values).1 = .ok rowId ↔ s.Admits ⟨rowId, values⟩ := by
  intro s
  have h : s.Consistent := consistent_undergoAll id name columns config hes
  rcases h.insert_cases values with ⟨e, hinsert, hnone⟩ | ⟨rowId, store, hadmits, hadded, hinsert⟩
  · rw [hinsert]
    refine ⟨fun _ _ => ⟨rfl, fun others next hnext => next?_of_insert_ok hnext⟩, ?_, ?_⟩
    · intro rowId hok
      cases hok
    · intro rowId
      constructor
      · intro hok
        cases hok
      · intro hadmits
        exact absurd hadmits (hnone rowId)
  · rw [hinsert]
    refine ⟨?_, ?_, ?_⟩
    · intro e herror
      cases herror
    · intro rowId' hok
      cases hok
      exact ⟨store, rfl, hadded⟩
    · intro rowId'
      constructor
      · intro hok
        cases hok
        exact hadmits
      · intro hadmits'
        exact congrArg Except.ok (Option.some.inj (hadmits.next.symm.trans hadmits'.next))

/-- Both indexes take the row, and then the map of the rows turns out to be removed; the entry that
    one of them has lost stays lost. -/
theorem insert_leaves_no_trace_closed :
    let columns := [Column.new 0 "name" .varchar, Column.new 1 "age" .integer]
    let es : List Incident := [.command (.createIndex "by_age" [("age", .ascending)] false),
      .command (.createIndex "by_name" [("name", .descending)] true),
      .command (.insert [.text "a", .integer 30]), .command (.insert [.text "b", .integer 30]),
      .entryLost 0 [2, 128, 0, 0, 0, 0, 0, 0, 30, 0, 0, 0, 0, 0, 0, 0, 1], .mapRemoved ⟨0⟩]
    let s := (fresh ⟨7⟩ "people" columns .default).undergoAll es
    (∀ e ∈ es, e.Spares "people") ∧
      (s.insert [.text "c", .integer 30]).1 = .error (.store (.closed "people_7")) ∧
      (s.insert [.text "c", .integer 30]).2 = s := by
  refine ⟨by decide, ?failed, ((insert_leaves_no_trace _ _ _ _ _ (by decide) _).1 _ ?failed).1⟩
  decide +kernel

/-- **A deletion that fails leaves no trace.**  Whatever a table has been through, with entries and
    maps of it lost on the way, a deletion succeeds if and only if the row is stored and every index
    has its entry, in maps that are open.  Then the row and these entries disappear, and nothing
    else; if not, nothing has changed. -/
theorem delete_leaves_no_trace (id : TableId) (name : String) (columns : List Column)
    (config : IndexConfig) (es : List Incident) (hes : ∀ e ∈ es, e.Spares name) (rowId : RowId) :
    let s := (fresh id name columns config).undergoAll es
    ((∃ row, (s.delete rowId).1 = .ok row) ↔ ∃ row, row.id = rowId ∧ s.Complete row) ∧
      (∀ row, (s.delete rowId).1 = .ok row → row.id = rowId ∧ s.Complete row ∧
        ∃ store, (s.delete rowId).2 = { s with store } ∧ s.Removed row store) ∧
      ∀ e, (s.delete rowId).1 = .error e → (s.delete rowId).2 = s := by
  intro s
  have h : s.Consistent := consistent_undergoAll id name columns config hes
  rcases h.delete_cases rowId with ⟨e, hdelete, hnone⟩ | ⟨row, store, hid, hrow, hremoved, hdelete⟩
  · rw [hdelete]
    refine ⟨⟨?_, ?_⟩, ?_, fun _ _ => rfl⟩
    · rintro ⟨row, hrow⟩
      cases hrow
    · rintro ⟨row, hid, hrow⟩
      exact absurd hrow (hnone row hid)
    · intro row hrow
      cases hrow
  · rw [hdelete]
    refine ⟨⟨fun _ => ⟨row, hid, hrow⟩, fun _ => ⟨row, rfl⟩⟩, ?_, ?_⟩
    · intro row' hrow'
      cases hrow'
      exact ⟨hid, hrow, store, rfl, hremoved⟩
    · intro e he
      cases he

/-- The second of two indexes has lost the entry of the first row, so that the first index gets its
    own back; the other row is deleted. -/
theorem delete_leaves_no_trace_drifted :
    let columns := [Column.new 0 "name" .varchar, Column.new 1 "age" .integer]
    let es : List Incident := [.command (.createIndex "by_name" [("name", .descending)] true),
      .command (.createIndex "by_age" [("age", .ascending)] false),
      .command (.insert [.text "a", .integer 30]), .command (.insert [.text "b", .integer 30]),
      .entryLost 1 [2, 128, 0, 0, 0, 0, 0, 0, 30, 0, 0, 0, 0, 0, 0, 0, 1]]
    let s := (fresh ⟨7⟩ "people" columns .default).undergoAll es
    (∀ e ∈ es, e.Spares "people") ∧
      (s.delete ⟨1⟩).1 = .error (.entryNotFound "by_age ON people(age)" ⟨1⟩) ∧
      (s.delete ⟨1⟩).2 = s ∧ (s.delete ⟨2⟩).1 = .ok ⟨⟨2⟩, [.text "b", .integer 30]⟩ ∧
      ∃ store, (s.delete ⟨2⟩).2 = { s with store } ∧
        s.Removed ⟨⟨2⟩, [.text "b", .integer 30]⟩ store := by
  refine ⟨by decide, ?failed, (delete_leaves_no_trace _ _ _ _ _ (by decide) _).2.2 _ ?failed, ?done,
    ((delete_leaves_no_trace _ _ _ _ _ (by decide) _).2.1 _ ?done).2.2⟩
  case failed => decide +kernel
  case done => decide +kernel

end Session
end OrderedIndex
