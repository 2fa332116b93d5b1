/-
  OrderedIndex/Proofs/Table/Truncation.lean
  =========================================
  **How far truncating gets** when maps of the table have been removed.

  Insertion and deletion take back what they did before a fault.  Truncating does not:
  it clears the maps of the indexes in order and that of the rows at the end, and the
  first map that is closed ends it.  So there are two outcomes in every state, and the
  state says which (`truncate_cases`).  All maps are open, and all of them are empty
  afterwards; or the maps before the first closed one are empty, and the others are as
  before.

  The second outcome leaves nothing changed only if there was nothing in the maps before
  the closed one.  Otherwise the rows stay without the entries of some indexes, and scans
  of these indexes find nothing (`truncate_half_done`).
-/
import OrderedIndex.Proofs.Table.Drift

namespace OrderedIndex

namespace Store

/-- Clears every map, in order, up to the first that has been removed. -/
def clearEach : List MapId → Store → Except StoreError Unit × Store
  | [], s => (.ok (), s)
  | m :: rest, s =>
    match s.clear m with
    | .error e => (.error e, s)
    | .ok s => clearEach rest s

/-- The given maps are empty, and nothing else has changed. -/
structure Clears (s s' : Store) (ms : List MapId) : Prop where
  rewrites : s.Rewrites s' ms
  emptied : ∀ m ∈ ms, s'.read m = .ok .empty

variable {s s' : Store} {m : MapId} {ms before after : List MapId} {entries : SortedMap Bytes Bytes}

theorem clear_of_read (h : s.read m = .ok entries) : s.clear m = .ok (s.setEntries m .empty) := by
  rw [clear, h, map_ok]

theorem clear_of_closed (h : s.isClosed m = true) : s.clear m = .error (.closed (s.nameOf m)) := by
  rw [clear, read, if_pos h, map_error]

theorem exists_read (h : s.isClosed m = false) : ∃ entries, s.read m = .ok entries :=
  ⟨_, read_eq_ok_iff.2 ⟨h, rfl⟩⟩

theorem Clears.nil (s : Store) : s.Clears s [] := ⟨.refl s [], List.forall_mem_nil _⟩

theorem Clears.cons (hopen : s.isClosed m = false) (h : (s.setEntries m .empty).Clears s' ms) :
    s.Clears s' (m :: ms) where
  rewrites :=
    ((rewrites_setEntries hopen .empty).mono (by simp)).trans
      (h.rewrites.mono (List.subset_cons_self m ms))
  emptied := by
    intro m' hm'
    by_cases hmem : m' ∈ ms
    · exact h.emptied m' hmem
    · -- the map is not cleared again later
      obtain rfl : m' = m := (List.mem_cons.1 hm').resolve_right hmem
      rw [h.rewrites.read_eq m' hmem]
      exact read_setEntries_self hopen .empty

/-- **All maps are cleared, or those before the first closed one.** -/
theorem clearEach_cases (ms : List MapId) (s : Store) :
    ((∀ m ∈ ms, s.isClosed m = false) ∧ ∃ s', clearEach ms s = (.ok (), s') ∧ s.Clears s' ms) ∨
      ∃ before m after, ms = before ++ m :: after ∧ (∀ b ∈ before, s.isClosed b = false) ∧
        s.isClosed m = true ∧
        ∃ s', clearEach ms s = (.error (.closed (s.nameOf m)), s') ∧ s.Clears s' before := by
  induction ms generalizing s with
  | nil => exact .inl ⟨List.forall_mem_nil _, s, rfl, .nil s⟩
  | cons m ms ih =>
    rcases hclosed : s.isClosed m with _ | _
    case true =>
      refine .inr ⟨[], m, ms, rfl, List.forall_mem_nil _, hclosed, s, ?_, .nil s⟩
      rw [clearEach, clear_of_closed hclosed]
    case false =>
      obtain ⟨entries, hread⟩ := exists_read hclosed
      have hsame := isClosed_setEntries hclosed .empty
      have hnames (m' : MapId) : (s.setEntries m .empty).nameOf m' = s.nameOf m' :=
        nameOf_setEntries hclosed m'
      rw [clearEach, clear_of_read hread]
      rcases ih (s.setEntries m .empty) with
        ⟨hopen, s', hall, hcleared⟩ | ⟨before, m', after, rfl, hbefore, hm', s', hall, hcleared⟩
      · simp only [hsame] at hopen
        exact .inl ⟨List.forall_mem_cons.2 ⟨hclosed, hopen⟩, s', hall, hcleared.cons hclosed⟩
      · simp only [hsame] at hbefore hm'
        rw [hnames] at hall
        exact .inr ⟨m :: before, m', after, rfl, List.forall_mem_cons.2 ⟨hclosed, hbefore⟩,
          hm', s', hall, hcleared.cons hclosed⟩

/-- Maps that are empty already make no difference. -/
theorem clearEach_append (h : ∀ b ∈ before, s.read b = .ok .empty) :
    clearEach (before ++ after) s = clearEach after s := by
  induction before with
  | nil => rfl
  | cons b before ih =>
    obtain ⟨hb, hbefore⟩ := List.forall_mem_cons.1 h
    rw [List.cons_append, clearEach, clear_of_read hb, setEntries_of_read hb]
    exact ih hbefore

end Store

/-- The maps of the table in the order in which truncating clears them. -/
def Table.clearing (t : Table) : List MapId := t.indexes.map Index.map ++ [t.primary]

namespace Session

variable {s : Session}

theorem clearAll_eq (ixs : List Index) (store : Store) : Index.clearAll ixs store =
    ((store.clearEach (ixs.map Index.map)).1.mapError .store,
      (store.clearEach (ixs.map Index.map)).2) := by
  induction ixs generalizing store with
  | nil => rfl
  | cons ix ixs ih =>
    rw [Index.clearAll, List.map_cons, Store.clearEach, Index.clear]
    rcases store.clear ix.map with e | store
    · rfl
    · exact ih store

theorem clearEach_concat (ms : List MapId) (m : MapId) (store : Store) :
    store.clearEach (ms ++ [m]) =
      match store.clearEach ms with
      | (.error e, store) => (.error e, store)
      | (.ok (), store) =>
        match store.clear m with
        | .error e => (.error e, store)
        | .ok store => (.ok (), store) := by
  induction ms generalizing store with
  | nil => rfl
  | cons m' ms ih =>
    rw [List.cons_append, Store.clearEach, Store.clearEach]
    rcases store.clear m' with e | store
    · rfl
    · exact ih store

/-- Truncating is one pass over all maps. -/
theorem truncate_eq (s : Session) :
    s.truncate = ((s.store.clearEach s.table.clearing).1.mapError .store,
      { s with store := (s.store.clearEach s.table.clearing).2 }) := by
  rw [truncate, clearAll_eq, Table.clearing, clearEach_concat]
  rcases s.store.clearEach (s.table.indexes.map Index.map) with ⟨e | ⟨⟩, store⟩
  · rfl
  · rcases hclear : store.clear s.table.primary with e | store'
    · simp only [mapError_ok, hclear, mapError_error]
    · simp only [mapError_ok, hclear]

/-- **The state decides how far truncating gets.**  All maps are open, and all are cleared; or those
    before the first closed one are, and that one gives the fault. -/
theorem truncate_cases (s : Session) :
    ((∀ m ∈ s.table.clearing, s.store.isClosed m = false) ∧
        ∃ store, s.truncate = (.ok (), { s with store }) ∧ s.store.Clears store s.table.clearing) ∨
      ∃ before m after, s.table.clearing = before ++ m :: after ∧
        (∀ b ∈ before, s.store.isClosed b = false) ∧
        s.store.isClosed m = true ∧
        ∃ store, s.truncate = (.error (.store (.closed (s.store.nameOf m))), { s with store }) ∧
          s.store.Clears store before := by
  rw [truncate_eq]
  rcases Store.clearEach_cases s.table.clearing s.store with
    ⟨hopen, store, hall, hcleared⟩ | ⟨before, m, after, hsplit, hbefore, hm, store, hall, hcleared⟩
  · rw [hall]
    exact .inl ⟨hopen, store, rfl, hcleared⟩
  · rw [hall]
    exact .inr ⟨before, m, after, hsplit, hbefore, hm, store, rfl, hcleared⟩

/-- Nothing is left changed if and only if there was nothing to clear before the fault. -/
theorem truncate_eq_self_iff {before after : List MapId} {m : MapId} {store : Store} {e : Error}
    (hsplit : s.table.clearing = before ++ m :: after) (hm : s.store.isClosed m = true)
    (htruncate : s.truncate = (.error e, { s with store }))
    (hcleared : s.store.Clears store before) :
    s.truncate.2 = s ↔ ∀ b ∈ before, s.store.read b = .ok .empty := by
  constructor
  · intro hsame b hb
    have hstore : store = s.store := by
      rw [htruncate] at hsame
      exact congrArg Session.store hsame
    rw [← hstore]
    exact hcleared.emptied b hb
  · intro hempty
    rw [truncate_eq, hsplit, Store.clearEach_append hempty, Store.clearEach,
      Store.clear_of_closed hm]

/-- The map of the rows is the last one. -/
theorem Consistent.primary_not_mem_before (h : s.Consistent) {before after : List MapId} {m : MapId}
    (hsplit : s.table.clearing = before ++ m :: after) : s.table.primary ∉ before := by
  have hle : before.length ≤ (s.table.indexes.map Index.map).length := by
    have hlength := congrArg List.length hsplit
    simp only [Table.clearing, List.length_append, List.length_cons, List.length_nil] at hlength
    omega
  have hhead : before <+: s.table.indexes.map Index.map :=
    List.prefix_of_prefix_length_le ⟨m :: after, hsplit.symm⟩ (List.prefix_append _ _) hle
  intro hmem
  exact h.primary_not_mem (hhead.subset hmem)

/-- **Truncating succeeds if and only if all maps of the table are open**, whatever the table has
    been through, and then all of them are empty.  Otherwise the first closed map gives the fault:
    the indexes before it are empty, the rows and all other maps are as they were, and nothing has
    changed just if those indexes were empty before. -/
theorem truncate_up_to_closed (id : TableId) (name : String) (columns : List Column)
    (config : IndexConfig) (es : List Incident) (hes : ∀ e ∈ es, e.Spares name) :
    let s := (fresh id name columns config).undergoAll es
    (s.truncate.1 = .ok () ↔ ∀ m ∈ s.table.clearing, s.store.isClosed m = false) ∧
      (s.truncate.1 = .ok () →
        ∃ store, s.truncate.2 = { s with store } ∧ s.store.Clears store s.table.clearing) ∧
      ∀ e, s.truncate.1 = .error e →
        ∃ before m after store, s.table.clearing = before ++ m :: after ∧
        (∀ b ∈ before, s.store.isClosed b = false) ∧ s.store.isClosed m = true ∧
        e = .store (.closed (s.store.nameOf m)) ∧ s.truncate.2 = { s with store } ∧
          s.store.Clears store before ∧
        s.table.rows store = s.table.rows s.store ∧
        (s.truncate.2 = s ↔ ∀ b ∈ before, s.store.read b = .ok .empty) := by
  intro s
  have h : s.Consistent := consistent_undergoAll id name columns config hes
  rcases truncate_cases s with
    ⟨hopen, store, htruncate, hcleared⟩ |
      ⟨before, m, after, hsplit, hbefore, hm, store, htruncate, hcleared⟩
  · rw [htruncate]
    refine ⟨iff_of_true rfl hopen, fun _ => ⟨store, rfl, hcleared⟩, ?_⟩
    intro e he
    cases he
  · have hself := truncate_eq_self_iff hsplit hm htruncate hcleared
    have hread := hcleared.rewrites.read_eq _ (h.primary_not_mem_before hsplit)
    have hrows : s.table.rows store = s.table.rows s.store := by
      have hrow : s.table.rowAt store = s.table.rowAt s.store := by
        funext key
        simp only [Table.rowAt, Table.getRow, Table.entries, hread]
      simp only [Table.rows, Table.entries, hread, hrow]
    rw [htruncate] at hself ⊢
    refine ⟨iff_of_false ?_ ?_, ?_, ?_⟩
    · intro hok
      cases hok
    · intro hopen
      have hopen' := hopen m (by simp [hsplit])
      exact absurd (hopen'.symm.trans hm) Bool.false_ne_true
    · intro hok
      cases hok
    · intro e he
      cases he
      exact ⟨before, m, after, store, hsplit, hbefore, hm, rfl, rfl, hcleared, hrows, hself⟩

/-- The map of the first index is closed, and rows are stored.  Nothing comes before that map, so
    nothing has changed. -/
theorem truncate_up_to_closed_first :
    let columns := [Column.new 0 "n" .integer]
    let es : List Incident := [.command (.createIndex "a" [("n", .ascending)] false),
      .command (.createIndex "b" [("n", .descending)] true), .command (.insert [.integer 5]),
      .command (.insert [.integer 6]), .mapRemoved ⟨1⟩]
    let s := (fresh ⟨1⟩ "t" columns .default).undergoAll es
    (∀ e ∈ es, e.Spares "t") ∧
      s.table.rows s.store = .ok [⟨⟨1⟩, [.integer 5]⟩, ⟨⟨2⟩, [.integer 6]⟩] ∧
      s.truncate.1 = .error (.store (.closed "a_1")) ∧ s.truncate.2 = s := by
  intro columns es s
  have hes : ∀ e ∈ es, e.Spares "t" := by decide
  have hfailed : s.truncate.1 = .error (.store (.closed "a_1")) := by decide +kernel
  have hclearing : s.table.clearing = [⟨1⟩, ⟨2⟩, ⟨0⟩] := by decide +kernel
  have hclosed : s.store.isClosed ⟨1⟩ = true := by decide +kernel
  obtain ⟨before, m, after, store, hsplit, hbefore, -, -, -, -, -, hself⟩ :=
    (truncate_up_to_closed ⟨1⟩ "t" columns .default es hes).2.2 _ hfailed
  refine ⟨hes, by decide +kernel, hfailed, hself.2 ?_⟩
  cases before with
  | nil => nofun
  | cons b rest =>
    obtain rfl : ⟨1⟩ = b := (List.cons.inj (hclearing.symm.trans hsplit)).1
    cases hclosed.symm.trans (hbefore _ List.mem_cons_self)

/-- A row is stored, and both indexes have its entry, when the map of the second one is removed.
    Truncating fails, but the entry of the first is gone then, while the row stays. -/
theorem truncate_half_done :
    let columns := [Column.new 0 "n" .integer]
    let es : List Incident := [.command (.createIndex "a" [("n", .ascending)] false),
      .command (.createIndex "b" [("n", .ascending)] false), .command (.insert [.integer 5]),
      .mapRemoved ⟨2⟩]
    let s := (fresh ⟨1⟩ "t" columns .default).undergoAll es
    (∀ e ∈ es, e.Spares "t") ∧ s.truncate.1 = .error (.store (.closed "b_2")) ∧
      s.truncate.2.store.contents ≠ s.store.contents ∧
      s.table.rows s.truncate.2.store = .ok [⟨⟨1⟩, [.integer 5]⟩] ∧
      ((s.table.index "a").bind fun ix => ix.size s.store) = .ok 1 ∧
      ((s.table.index "a").bind fun ix => ix.size s.truncate.2.store) = .ok 0 := by
  decide +kernel

end Session
end OrderedIndex
