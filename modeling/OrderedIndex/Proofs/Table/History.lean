/-
  OrderedIndex/Proofs/Table/History.lean
  ======================================
  **Histories step by step.**  What every event of a history leads on from and to holds
  at its end, and the history does not break off before that (`exists_passAll`).

  The event that is not a command is the beginning of a new session.  It finds the rows as
  they were, and the last row id is the largest one among them (`reopen_of_stores`).
-/
import OrderedIndex.Proofs.Directory
import OrderedIndex.Proofs.Table.Run
import OrderedIndex.Table.History

namespace OrderedIndex

/-- The event does not make an index of the given name. -/
def Event.Spares (table : String) : Event → Prop
  | .command c => c.Spares table
  | .reopening => True

instance (table : String) : DecidablePred (Event.Spares table) := fun e =>
  match e with
  | .command c => inferInstanceAs (Decidable (c.Spares table))
  | .reopening => .isTrue trivial

/-! ### The largest id -/

/-- The id of the last of some rows; `RowId.min` if there are none. -/
def lastIdOf (rows : List Row) : RowId := (rows.getLast?.map Row.id).getD .min

section

variable {rows : List Row} {row : Row} {id : RowId}

theorem lastIdOf_concat (rows : List Row) (row : Row) : lastIdOf (rows ++ [row]) = row.id := by
  rw [lastIdOf, List.getLast?_concat]
  rfl

theorem IdsIncrease.le_lastIdOf (h : IdsIncrease rows) (hrow : row ∈ rows) :
    row.id.word ≤ (lastIdOf rows).word := by
  rcases List.eq_nil_or_concat rows with rfl | ⟨before, last, rfl⟩
  · cases hrow
  rw [List.concat_eq_append] at h hrow ⊢
  rw [lastIdOf_concat]
  rcases List.mem_append.1 hrow with hrow | hrow
  · have hlt := (List.pairwise_append.1 h).2.2 row hrow last List.mem_cons_self
    exact UInt64.le_of_lt (Std.compare_eq_lt (a := row.id.word).1 hlt)
  · rw [List.mem_singleton.1 hrow]
    exact UInt64.le_refl _

theorem lastIdOf_mem (rows : List Row) : rows = [] ∨ ∃ row ∈ rows, lastIdOf rows = row.id := by
  rcases List.eq_nil_or_concat rows with rfl | ⟨before, last, rfl⟩
  · exact .inl rfl
  · refine .inr ⟨last, by simp, ?_⟩
    rw [List.concat_eq_append, lastIdOf_concat]

/-- An upper bound of the ids that is one of them is the last. -/
theorem IdsIncrease.lastIdOf_eq (h : IdsIncrease rows) (hle : ∀ r ∈ rows, r.id.word ≤ id.word)
    (hid : id = .min ∨ ∃ r ∈ rows, r.id = id) : lastIdOf rows = id := by
  rcases lastIdOf_mem rows with rfl | ⟨last, hlast, heq⟩
  · rcases hid with rfl | ⟨r, hr, -⟩
    · rfl
    · cases hr
  rw [heq]
  have hle' := hle last hlast
  have hword : last.id.word = id.word := by
    apply UInt64.le_antisymm hle'
    rcases hid with rfl | ⟨r, hr, rfl⟩
    · exact UInt64.zero_le
    · rw [← heq]
      exact h.le_lastIdOf hr
  exact congrArg RowId.mk hword

theorem Stores.last?_eq {m : SortedMap Bytes Bytes} (h : Stores m rows) :
    m.last? = rows.getLast?.map fun r => Key.ofRowId r.id := by
  have hkeys : m.keys = rows.map fun r => Key.ofRowId r.id := by
    rw [SortedMap.keys, h, List.map_map]
    rfl
  rw [SortedMap.last?, hkeys, List.getLast?_map]

end

namespace Session

variable {again : Session → Except Error Session} {s s' : Session} {e : Event} {es : List Event}

theorem visits_of_pass (h : s.pass again e = .ok s') :
    s.visits again (e :: es) = (s, e) :: s'.visits again es := by
  rw [visits, h]

theorem issued_of_pass (h : s.pass again e = .ok s') :
    s.issued again (e :: es) = (s.stores? e).toList ++ s'.issued again es := by
  rw [issued, visits_of_pass h]
  rcases hid : s.stores? e with _ | id
  · rw [List.filterMap_cons_none (by exact hid)]
    rfl
  · rw [List.filterMap_cons_some (by exact hid)]
    rfl

theorem event_mem_of_visits {v : Session × Event} (h : v ∈ s.visits again es) : v.2 ∈ es := by
  induction es generalizing s with
  | nil => cases h
  | cons e es ih =>
    rw [visits] at h
    rcases List.mem_cons.1 h with rfl | h
    · exact List.mem_cons_self
    · split at h
      · cases h
      · exact List.mem_cons_of_mem _ (ih h)

theorem exists_passAll {p : Session → Prop} {q : Session → Event → Prop}
    (step : ∀ s e, p s → q s e → ∃ s', s.pass again e = .ok s' ∧ p s') (h : p s)
    (hes : ∀ v ∈ s.visits again es, q v.1 v.2) : ∃ s', s.passAll again es = .ok s' ∧ p s' := by
  induction es generalizing s with
  | nil => exact ⟨s, rfl, h⟩
  | cons e es ih =>
    have hq : q s e := hes (s, e) (by rw [visits]; exact List.mem_cons_self)
    obtain ⟨s', hpass, h'⟩ := step s e h hq
    rw [visits_of_pass hpass, List.forall_mem_cons] at hes
    obtain ⟨last, hlast, hp⟩ := ih h' hes.2
    refine ⟨last, ?_, hp⟩
    rw [passAll, List.foldlM_cons, hpass]
    exact hlast

/-! ### Reopening -/

/-- The table as the next session finds it, before it declares any index. -/
def reopened (s : Session) (last : RowId) : Session :=
  ⟨s.store, .new s.table.id s.table.name s.table.columns s.table.primary last s.table.config⟩

theorem reopen_of_stores {m : SortedMap Bytes Bytes} {rows : List Row}
    (hget : s.store.directory.get? (Table.mapNameOf s.table.name s.table.id) = some s.table.primary)
    (hread : s.store.read s.table.primary = .ok m) (hm : Stores m rows) :
    s.reopen = .ok (s.reopened (lastIdOf rows)) := by
  rw [reopen, openTable, Store.openMap_of_listed hget]
  simp only [Store.lastKey, hread, map_ok, mapError_ok, ok_bind, hm.last?_eq, lastIdOf]
  rcases rows.getLast? with _ | row
  · rfl
  · simp only [Option.map_some, Key.toRowId_ofRowId, mapError_ok, ok_bind]
    rfl

/-! ### Commands -/

/-- No command leads to another table. -/
theorem run_definition (s : Session) (c : Command) :
    (s.run c).2.table.id = s.table.id ∧ (s.run c).2.table.name = s.table.name ∧
      (s.run c).2.table.columns = s.table.columns ∧ (s.run c).2.table.primary = s.table.primary ∧
      (s.run c).2.table.config = s.table.config := by
  obtain ⟨indexes, nextIndexId, last, htable, -⟩ := run_table s c
  rw [htable]
  exact ⟨rfl, rfl, rfl, rfl, rfl⟩

end Session
end OrderedIndex
