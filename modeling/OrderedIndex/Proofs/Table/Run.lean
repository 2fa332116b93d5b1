/-
  OrderedIndex/Proofs/Table/Run.lean
  ==================================
  **Runs of a table that is alone on its store.**

  A run begins with the table opened on an empty store and goes through any commands,
  whether they succeed or fail.  The one thing it must not do is to give a new index
  the name of the table itself (`Command.Spares`), since the map of the index could
  then be the map of the rows.

  Every command leads from a table in order to a table in order (`Sound.run`), so the
  table is in order all along (`sound_runAll`).  What that means to the outside: the
  entries of each index are the keys of the rows that the table returns
  (`inStep_runAll`).
-/
import OrderedIndex.Proofs.Table.Indexing
import OrderedIndex.Table.Command

namespace OrderedIndex

/-- The command does not make an index of the given name. -/
def Command.Spares (table : String) : Command → Prop
  | .createIndex name _ _ => name ≠ table
  | _ => True

instance (table : String) : DecidablePred (Command.Spares table) := fun c =>
  match c with
  | .createIndex name _ _ => inferInstanceAs (Decidable (name ≠ table))
  | .insert _ | .delete _ | .truncate | .dropIndex _ | .renameIndex _ _ => .isTrue trivial

namespace Session

variable {s : Session} {rows : List Row}

/-! ### One command -/

theorem run_table (s : Session) (c : Command) :
    ∃ indexes nextIndexId last,
      (s.run c).2.table = { s.table with indexes, nextIndexId, lastRowId := last } ∧
      (last = s.table.lastRowId ∨ s.table.lastRowId.next? = some last) ∧
      (nextIndexId = s.table.nextIndexId ∨ s.table.nextIndexId.next? = some nextIndexId) := by
  have same {t : Table} (ht : t = s.table) : ∃ indexes nextIndexId last,
      t = { s.table with indexes, nextIndexId, lastRowId := last } ∧
        (last = s.table.lastRowId ∨ s.table.lastRowId.next? = some last) ∧
        (nextIndexId = s.table.nextIndexId ∨ s.table.nextIndexId.next? = some nextIndexId) :=
    ⟨_, _, _, ht, .inl rfl, .inl rfl⟩
  cases c with
  | insert values =>
    simp only [run, insert]
    split
    · exact same rfl
    · split
      · exact same rfl
      · rename_i id hid
        split
        · exact same rfl
        · split
          · exact same rfl
          · exact ⟨_, _, id, rfl, .inr hid, .inl rfl⟩
  | delete id =>
    simp only [run, delete]
    split
    · exact same rfl
    · split
      · exact same rfl
      · split <;> exact same rfl
  | truncate =>
    simp only [run, truncate]
    split
    · exact same rfl
    · split <;> exact same rfl
  | createIndex name columns unique =>
    simp only [run]
    rcases s.createIndex_endings name columns unique with
      ⟨e, hnone⟩ | ⟨d, ix, opened, -, -, ⟨e, store, -, hundone⟩ | ⟨store, -, hleft, hdone⟩⟩
    · rw [hnone]
      exact same rfl
    · rw [hundone]
      exact same rfl
    · rw [hdone]
      exact ⟨_, _, _, rfl, .inl rfl, .inr (IndexId.next?_eq_some hleft)⟩
  | dropIndex name =>
    simp only [run, dropIndex]
    split
    · exact same rfl
    · split <;> exact ⟨_, _, _, rfl, .inl rfl, .inl rfl⟩
  | renameIndex name newName =>
    simp only [run, renameIndex]
    split
    · exact same rfl
    · split
      · exact same rfl
      · exact ⟨_, _, _, rfl, .inl rfl, .inl rfl⟩

/-- **Every command keeps a table in order.** -/
theorem Sound.run (h : s.Sound rows) {c : Command} (hc : c.Spares s.table.name) :
    ∃ rows', (s.run c).2.Sound rows' := by
  cases c with
  | insert values =>
    show ∃ rows', (s.insert values).2.Sound rows'
    rcases hcheck : s.table.checkValues values with e | ⟨⟩
    · rw [insert_of_misfit hcheck]
      exact ⟨rows, h⟩
    have hfits := Table.checkValues_eq_ok_iff.1 hcheck
    rcases hid : s.table.lastRowId.next? with _ | id
    · rw [insert_of_exhausted hfits hid]
      exact ⟨rows, h⟩
    rcases h.insert_cases hfits hid with
      ⟨-, store, hinsert, hsound⟩ | ⟨_, _, _, e, -, -, -, hinsert⟩
    · rw [hinsert]
      exact ⟨_, hsound⟩
    · rw [hinsert]
      exact ⟨rows, h⟩
  | delete id =>
    show ∃ rows', (s.delete id).2.Sound rows'
    by_cases hid : ∃ row ∈ rows, row.id = id
    · obtain ⟨row, hrow, rfl⟩ := hid
      obtain ⟨store, hdelete, hsound⟩ := h.delete_of_mem hrow
      rw [hdelete]
      exact ⟨_, hsound⟩
    · rw [h.delete_of_not_mem fun r hr heq => hid ⟨r, hr, heq⟩]
      exact ⟨rows, h⟩
  | truncate =>
    show ∃ rows', s.truncate.2.Sound rows'
    obtain ⟨store, htruncate, hsound⟩ := h.truncate
    rw [htruncate]
    exact ⟨_, hsound⟩
  | createIndex name columns unique => exact ⟨rows, h.createIndex hc columns unique⟩
  | dropIndex name => exact ⟨rows, h.dropIndex name⟩
  | renameIndex name newName => exact ⟨rows, h.renameIndex name newName⟩

/-! ### Runs -/

/-- A run leaves the definition of the table alone, and gives out one row id and one index id a
    command at most. -/
theorem runAll_table (s : Session) (cs : List Command) :
    (s.runAll cs).table.name = s.table.name ∧ (s.runAll cs).table.config = s.table.config ∧
      (s.runAll cs).table.lastRowId.word.toNat ≤ s.table.lastRowId.word.toNat + cs.length ∧
      (s.runAll cs).table.nextIndexId.word.toNat ≤
        s.table.nextIndexId.word.toNat + cs.length := by
  induction cs generalizing s with
  | nil => exact ⟨rfl, rfl, Nat.le_refl _, Nat.le_refl _⟩
  | cons c cs ih =>
    obtain ⟨indexes, nextIndexId, last, htable, hlast, hnext⟩ := run_table s c
    obtain ⟨hname, hconfig, hrowIds, hindexIds⟩ := ih (s.run c).2
    rw [htable] at hname hconfig hrowIds hindexIds
    have hlast' : last.word.toNat ≤ s.table.lastRowId.word.toNat + 1 := by
      rcases hlast with rfl | hlast
      · exact Nat.le_succ _
      · exact Nat.le_of_eq (RowId.next?_eq_some_iff.1 hlast)
    have hnext' : nextIndexId.word.toNat ≤ s.table.nextIndexId.word.toNat + 1 := by
      rcases hnext with rfl | hnext
      · exact Nat.le_succ _
      · obtain ⟨hleft, rfl⟩ := IndexId.next?_eq_some_iff.1 hnext
        exact Nat.le_of_eq (IndexId.toNat_next hleft)
    dsimp only at hrowIds hindexIds
    rw [List.length_cons]
    exact ⟨hname, hconfig, hrowIds.trans (by omega), hindexIds.trans (by omega)⟩

theorem Sound.runAll (h : s.Sound rows) {cs : List Command}
    (hcs : ∀ c ∈ cs, c.Spares s.table.name) :
    ∃ rows', (s.runAll cs).Sound rows' := by
  induction cs generalizing s rows with
  | nil => exact ⟨rows, h⟩
  | cons c cs ih =>
    rw [List.forall_mem_cons] at hcs
    obtain ⟨rows', h'⟩ := h.run hcs.1
    obtain ⟨indexes, nextIndexId, last, htable, -⟩ := run_table s c
    have hname : (s.run c).2.table.name = s.table.name := by rw [htable]
    exact ih h' (by rw [hname]; exact hcs.2)

/-- **A table that is alone on its store is in order all along.** -/
theorem sound_runAll (id : TableId) (name : String) (columns : List Column) (config : IndexConfig)
    {cs : List Command} (hcs : ∀ c ∈ cs, c.Spares name) :
    ∃ rows, ((fresh id name columns config).runAll cs).Sound rows :=
  (sound_fresh id name columns config).runAll hcs

/-! ### Indexes in step -/

/-- Each index has one entry for each row, under the row's key and with an empty value, and no other
    entry. -/
def InStep (s : Session) : Prop :=
  ∃ rows, s.table.rows s.store = .ok rows ∧ s.table.size s.store = .ok rows.length ∧
    ∀ ix ∈ s.table.indexes, ∃ m keys, s.store.read ix.map = .ok m ∧
      rows.mapM ix.layout.encode = .ok keys ∧
      m.entries.Perm (keys.map fun key => (key, [])) ∧ ix.size s.store = .ok rows.length

theorem Sound.inStep (h : s.Sound rows) : s.InStep := by
  obtain ⟨m, hread, hm⟩ := h.stored
  refine ⟨rows, Table.rows_of_stores hread hm, Table.size_of_stores hread hm, ?_⟩
  intro ix hix
  obtain ⟨m, hread, hm⟩ := h.mirrored ix hix
  obtain ⟨keys, hkeys, hperm⟩ := hm.perm h.idsIncrease
  refine ⟨m, keys, hread, hkeys, hperm, ?_⟩
  rw [Index.size, Index.entries, hread, mapError_ok, map_ok, hm.size_eq h.idsIncrease]

/-- **The indexes stay in step with the rows**, whatever commands are run on a table that is alone
    on its store, as long as no index is made under the table's own name. -/
theorem inStep_runAll (id : TableId) (name : String) (columns : List Column)
    (config : IndexConfig) (cs : List Command) (hcs : ∀ c ∈ cs, c.Spares name) :
    ((fresh id name columns config).runAll cs).InStep := by
  obtain ⟨rows, h⟩ := sound_runAll id name columns config hcs
  exact h.inStep

/-- Of these commands the second insertion is refused by an index, the creation of the third index
    fails while it is filled, and an index is renamed to the name of the table. -/
theorem inStep_runAll_people :
    let columns := [Column.new 0 "name" .varchar, Column.new 1 "age" .integer]
    let cs : List Command := [.createIndex "by_age" [("age", .descending)] false,
      .createIndex "by_name" [("name", .ascending)] true, .insert [.text "a", .integer 30],
      .insert [.text "a", .null], .insert [.text "b", .integer 30],
      .createIndex "once" [("age", .ascending)] true, .renameIndex "by_age" "people", .delete ⟨1⟩]
    (∀ c ∈ cs, c.Spares "people") ∧ ((fresh ⟨7⟩ "people" columns .default).runAll cs).InStep :=
  ⟨by decide, inStep_runAll _ _ _ _ _ (by decide)⟩

end Session
end OrderedIndex
