/-
  OrderedIndex/Proofs/Table/Listing.lean
  ======================================
  **The same maps under fewer names.**

  What a table does to its rows and to the entries of its indexes goes through handles,
  so it does not matter which names the store lists.  Such a command can be run on a
  store that lists other names, with the same result (`run_listing`).  Dropping an index
  is much the same, since the name of its map goes from whatever list there is
  (`dropIndex_listing`).
-/
import OrderedIndex.Proofs.Table.Effect

namespace OrderedIndex

/-! ### Stores -/

namespace Store

/-- The maps of a store with another directory. -/
def listing (s : Store) (d : SortedMap String MapId) : Store := { s with directory := d }

variable {s : Store} {m : MapId} {entries : SortedMap Bytes Bytes} {d : SortedMap String MapId}

@[simp] theorem directory_listing : (s.listing d).directory = d := rfl

@[simp] theorem state_listing : (s.listing d).state m = s.state m := rfl

@[simp] theorem nameOf_listing : (s.listing d).nameOf m = s.nameOf m := rfl

@[simp] theorem isClosed_listing : (s.listing d).isClosed m = s.isClosed m := rfl

@[simp] theorem read_listing : (s.listing d).read m = s.read m := rfl

theorem setEntries_listing :
    (s.listing d).setEntries m entries = (s.setEntries m entries).listing d := rfl

theorem removeMap_listing :
    (s.listing d).removeMap m = (s.removeMap m).map (·.listing (d.erase (s.nameOf m))) := by
  rw [removeMap, removeMap, isClosed_listing]
  split <;> rfl

theorem openMap_listing {name : String} (hfree : s.directory.get? name = none)
    (hfree' : d.get? name = none) :
    ((s.listing d).openMap name).2 = (s.openMap name).2.listing (d.insert name s.made) := by
  rw [openMap_of_free hfree, openMap_of_free (s := s.listing d) hfree']
  rfl

/-- A new name that is free among more names is free among fewer. -/
theorem rename_listing {s' : Store} {name : String} (h : s.rename m name = .ok s')
    (hown : d.get? (s.nameOf m) = some m) (hsub : d.entries ⊆ s.directory.entries) :
    ∃ d', (s.listing d).rename m name = .ok (s'.listing d') ∧
      d'.entries ⊆ s'.directory.entries := by
  rcases hclosed : s.isClosed m with _ | _
  case true => simp [rename, hclosed] at h
  by_cases hold : s.nameOf m = name
  · obtain rfl : s = s' := by simpa [rename, hclosed, hold] using h
    exact ⟨d, by simp [rename, hclosed, hold], hsub⟩
  rcases hhas : s.hasMap name with _ | _
  case true => simp [rename, hclosed, hold, hhas] at h
  have hget : s.directory.get? (s.nameOf m) = some m :=
    SortedMap.get?_eq_some_iff.2 (hsub (SortedMap.get?_eq_some_iff.1 hown))
  have hhas' : (s.listing d).hasMap name = false := by
    rw [hasMap_eq_false_iff, SortedMap.get?_eq_none_iff] at hhas ⊢
    exact fun hmem => hhas (SortedMap.keys_subset hsub hmem)
  simp only [rename, hclosed, hold, hhas, hget, Bool.false_eq_true, if_false, Except.ok.injEq] at h
  subst h
  refine ⟨(d.erase (s.nameOf m)).insert name m, ?_, ?_⟩
  · rw [rename, isClosed_listing, hclosed, if_neg Bool.false_ne_true,
      nameOf_listing, if_neg hold, hhas', if_neg Bool.false_ne_true, directory_listing, hown]
    rfl
  · intro e he
    rcases SortedMap.mem_insert.1 he with rfl | ⟨he, hne⟩
    · exact SortedMap.mem_insert.2 (.inl rfl)
    · obtain ⟨he, hne'⟩ := SortedMap.mem_erase.1 he
      exact SortedMap.mem_insert.2 (.inr ⟨SortedMap.mem_erase.2 ⟨hsub he, hne'⟩, hne⟩)

end Store

/-! ### Indexes -/

namespace Index

variable {ix : Index} {s : Store} {row : Row} {d : SortedMap String MapId}

theorem add_listing : ix.add (s.listing d) row = (ix.add s row).map (·.listing d) := by
  rw [add_eq, add_eq, entriesWith_congr (s := s) Store.read_listing]
  rcases ix.entriesWith s row with e | m <;> rfl

theorem remove_listing : ix.remove (s.listing d) row = (ix.remove s row).map (·.listing d) := by
  rw [remove_eq, remove_eq, entriesWithout_congr (s := s) Store.read_listing]
  rcases ix.entriesWithout s row with e | m <;> rfl

theorem withdraw_listing : ix.withdraw (s.listing d) row = (ix.withdraw s row).listing d := by
  rw [withdraw, withdraw, remove_listing]
  rcases ix.remove s row with e | s' <;> rfl

theorem restore_listing : ix.restore (s.listing d) row = (ix.restore s row).listing d := by
  rw [restore, restore, add_listing]
  rcases ix.add s row with e | s' <;> rfl

section

variable {new : Index → Store → Except Error (SortedMap Bytes Bytes)}
  {all : List Index → Store → Except Error Unit × Store} {back : Index → Store → Store}
  {fit : Index → SortedMap Bytes Bytes → Prop}

theorem Reversible.all_listing (h : Reversible new all back fit)
    (hback : ∀ (ix : Index) (s : Store), back ix (s.listing d) = (back ix s).listing d)
    (ixs : List Index) (s : Store) :
    all ixs (s.listing d) = ((all ixs s).1, (all ixs s).2.listing d) := by
  induction ixs generalizing s with
  | nil => rw [h.nil, h.nil]
  | cons ix rest ih =>
    have hsame : new ix (s.listing d) = new ix s := h.congr Store.read_listing
    rcases hnew : new ix s with e | m
    · rw [h.refused hnew, h.refused (hsame.trans hnew)]
    have hrest := ih (s.setEntries ix.map m)
    rw [← Store.setEntries_listing] at hrest
    rcases hall : all rest (s.setEntries ix.map m) with ⟨e | ⟨⟩, s'⟩
    · rw [hall] at hrest
      rw [h.undone hnew hall, h.undone (hsame.trans hnew) hrest, hback]
    · rw [hall] at hrest
      rw [h.cons hnew hall, h.cons (hsame.trans hnew) hrest]

theorem foldr_listing
    (hback : ∀ (ix : Index) (s : Store), back ix (s.listing d) = (back ix s).listing d)
    (ixs : List Index) (s : Store) :
    ixs.foldr back (s.listing d) = (ixs.foldr back s).listing d := by
  induction ixs with
  | nil => rfl
  | cons ix rest ih => rw [List.foldr_cons, List.foldr_cons, ih, hback]

end

theorem clearAll_listing (ixs : List Index) (s : Store) :
    clearAll ixs (s.listing d) = ((clearAll ixs s).1, (clearAll ixs s).2.listing d) := by
  induction ixs generalizing s with
  | nil => rfl
  | cons ix rest ih =>
    rw [clearAll, clearAll, clear, clear, Store.clear, Store.clear, Store.read_listing]
    rcases s.read ix.map with e | m
    · rfl
    · exact ih (s.setEntries ix.map .empty)

theorem drop_listing :
    ix.drop (s.listing d) = (ix.drop s).map (·.listing (if s.isClosed ix.map then d
      else d.erase (s.nameOf ix.map))) := by
  rw [drop, drop, Store.isClosed_listing, Store.removeMap_listing]
  split
  · rfl
  · rcases s.removeMap ix.map with e | s' <;> rfl

end Index

/-! ### Sessions -/

namespace Session

variable {s : Session} {d : SortedMap String MapId}

/-- The same table on the same maps. -/
def listing (s : Session) (d : SortedMap String MapId) : Session := ⟨s.store.listing d, s.table⟩

theorem insert_listing (s : Session) (d : SortedMap String MapId) (values : List Value) :
    (s.listing d).insert values = ((s.insert values).1, (s.insert values).2.listing d) := by
  rcases hcheck : s.table.checkValues values with e | ⟨⟩
  · simp only [insert, listing, hcheck]
  rcases hid : s.table.lastRowId.next? with _ | id
  · simp only [insert, listing, hcheck, hid]
  have hall :=
    (Index.reversible_addToAll ⟨id, values⟩).all_listing (d := d)
      (fun _ _ => Index.withdraw_listing)
    s.table.indexes s.store
  have hback (store : Store) :
      Index.withdrawFromAll ⟨id, values⟩ s.table.indexes (store.listing d) =
      (Index.withdrawFromAll ⟨id, values⟩ s.table.indexes store).listing d :=
    Index.foldr_listing (fun _ _ => Index.withdraw_listing) s.table.indexes store
  simp only [insert, listing, hcheck, hid, hall]
  rcases Index.addToAll ⟨id, values⟩ s.table.indexes s.store with ⟨e | ⟨⟩, store⟩
  · rfl
  · simp only [Store.put, Store.read_listing, hback]
    rcases store.read s.table.primary with e | m <;> rfl

theorem delete_listing (s : Session) (d : SortedMap String MapId) (id : RowId) :
    (s.listing d).delete id = ((s.delete id).1, (s.delete id).2.listing d) := by
  have hget : s.table.getRow (s.store.listing d) id = s.table.getRow s.store id := rfl
  simp only [delete, listing, hget]
  rcases s.table.getRow s.store id with e | row
  · rfl
  have hall :=
    (Index.reversible_removeFromAll row).all_listing (d := d) (fun _ _ => Index.restore_listing)
    s.table.indexes s.store
  have hback (store : Store) : Index.restoreToAll row s.table.indexes (store.listing d) =
      (Index.restoreToAll row s.table.indexes store).listing d :=
    Index.foldr_listing (fun _ _ => Index.restore_listing) s.table.indexes store
  simp only [hall]
  rcases Index.removeFromAll row s.table.indexes s.store with ⟨e | ⟨⟩, store⟩
  · rfl
  · simp only [Store.remove, Store.read_listing, hback]
    rcases store.read s.table.primary with e | m <;> rfl

theorem truncate_listing (s : Session) (d : SortedMap String MapId) :
    (s.listing d).truncate = (s.truncate.1, s.truncate.2.listing d) := by
  simp only [truncate, listing, Index.clearAll_listing]
  rcases Index.clearAll s.table.indexes s.store with ⟨e | ⟨⟩, store⟩
  · rfl
  · simp only [Store.clear, Store.read_listing]
    rcases store.read s.table.primary with e | m <;> rfl

/-- **A command about rows does not look at names.** -/
theorem run_listing (s : Session) (d : SortedMap String MapId) {c : Command}
    (hc : c.isIndexing = false) :
    (s.listing d).run c = ((s.run c).1, (s.run c).2.listing d) := by
  cases c with
  | insert values => simp only [run, insert_listing]
  | delete id => simp only [run, delete_listing]
  | truncate => simp only [run, truncate_listing]
  | createIndex | dropIndex | renameIndex => cases hc

theorem dropIndex_listing (s : Session) (d : SortedMap String MapId) {name : String} {ix : Index}
    (hix : s.table.index name = .ok ix) (hopen : s.store.isClosed ix.map = false) :
    (s.listing d).dropIndex name =
      ((s.dropIndex name).1, (s.dropIndex name).2.listing (d.erase (s.store.nameOf ix.map))) := by
  obtain ⟨store, -, hdrop⟩ := Index.exists_drop hopen
  have hdrop' : ix.drop (s.store.listing d) = _ := Index.drop_listing
  rw [hopen, if_neg Bool.false_ne_true, hdrop, map_ok] at hdrop'
  simp only [dropIndex, listing, hix, hdrop, hdrop']

end Session
end OrderedIndex
