/-
  OrderedIndex/Proofs/Table/Rows.lean
  ===================================
  **The rows of a table.**

  The primary map binds the id of each row to the stored form of its values.  Byte
  order of row ids is the order of the ids, so the bindings stand in the order of the
  rows (`Stores`), and reading the map gives the rows back: one by one (`getRow_of_mem`)
  and all together (`rows_of_stores`).  A row with a new, larger id comes last.
-/
import OrderedIndex.Proofs.Index.Entries
import OrderedIndex.Proofs.StoredRow
import OrderedIndex.Table.Basic

namespace OrderedIndex

/-! ### Row ids -/

theorem Key.toRowId_ofRowId (id : RowId) : Key.toRowId (Key.ofRowId id) = .ok id := by
  have hread : Key.read [] (Key.ofRowId id) = .ok ([], id) := Key.read_of_write rfl rfl
  rw [Key.toRowId, hread]
  rfl

theorem Key.ofRowId_inj {i j : RowId} : Key.ofRowId i = Key.ofRowId j ↔ i = j := by
  refine ⟨?_, congrArg _⟩
  intro h
  have hread := congrArg Key.toRowId h
  rw [Key.toRowId_ofRowId, Key.toRowId_ofRowId] at hread
  exact Except.ok.inj hread

instance : Std.LawfulEqOrd RowId where
  eq_of_compare {i j} h := by
    have hword : i.word = j.word := Std.LawfulEqOrd.eq_of_compare (α := UInt64) h
    exact congrArg RowId.mk hword

theorem RowId.next?_eq_some_iff {i j : RowId} :
    i.next? = some j ↔ j.word.toNat = i.word.toNat + 1 := by
  have hlt := j.word.toNat_lt
  rw [next?]
  split
  · rename_i h
    have hadd : (i.word + 1).toNat = i.word.toNat + 1 := by
      rw [UInt64.toNat_add]
      exact Nat.mod_eq_of_lt h
    rw [Option.some_inj, ← hadd]
    constructor
    · rintro rfl
      rfl
    · intro hw
      exact congrArg RowId.mk (UInt64.toNat_inj.1 hw.symm)
  · rename_i h
    have hsize : UInt64.size = 18446744073709551616 := rfl
    simp only [reduceCtorEq, false_iff]
    omega

theorem RowId.size_le_of_next?_eq_none {i : RowId} (h : i.next? = none) :
    UInt64.size ≤ i.word.toNat + 1 := by
  by_contra hlt
  rw [next?, if_pos (Nat.lt_of_not_le hlt)] at h
  cases h

theorem RowId.lt_next? {i j k : RowId} (hle : i.word ≤ j.word) (h : j.next? = some k) :
    compare i k = .lt := by
  have hnext := next?_eq_some_iff.1 h
  have hlt : i.word < k.word := by
    rw [UInt64.le_iff_toNat_le] at hle
    rw [UInt64.lt_iff_toNat_lt]
    omega
  exact Std.compare_eq_lt (a := i.word).2 hlt

theorem RowId.le_next? {i j k : RowId} (hle : i.word ≤ j.word) (h : j.next? = some k) :
    i.word ≤ k.word := by
  have hnext := next?_eq_some_iff.1 h
  rw [UInt64.le_iff_toNat_le] at hle ⊢
  omega

theorem RowId.not_next?_le {j k : RowId} (h : j.next? = some k) : ¬k.word ≤ j.word := by
  have hnext := next?_eq_some_iff.1 h
  rw [UInt64.le_iff_toNat_le]
  omega

/-! ### The primary map -/

def Row.binding (r : Row) : Bytes × Bytes := (Key.ofRowId r.id, StoredRow.encode r.values)

theorem Row.binding_inj {a b : Row} : a.binding = b.binding ↔ a = b := by
  refine ⟨?_, congrArg _⟩
  intro h
  have hid := Key.ofRowId_inj.1 (congrArg Prod.fst h)
  have hvalues := congrArg (fun e => StoredRow.decode e.2) h
  simp only [Row.binding, StoredRow.decode_encode_values, Except.ok.injEq] at hvalues
  cases a
  cases b
  simp_all

/-- The map binds the rows, and nothing else. -/
def Stores (m : SortedMap Bytes Bytes) (rows : List Row) : Prop := m.entries = rows.map Row.binding

variable {m m' : SortedMap Bytes Bytes} {rows : List Row} {row : Row}

theorem stores_empty : Stores .empty [] := rfl

theorem Stores.idsIncrease (h : Stores m rows) : IdsIncrease rows := by
  have hsorted := m.sorted
  rw [h, List.pairwise_map] at hsorted
  exact hsorted.imp fun hlt => by rwa [Row.binding, Row.binding, Key.compare_ofRowId] at hlt

theorem Stores.insert (h : Stores m rows) (row : Row)
    (hnew : ∀ r ∈ rows, compare r.id row.id = .lt) :
    Stores (m.insert (Key.ofRowId row.id) (StoredRow.encode row.values)) (rows ++ [row]) := by
  have hlast : ∀ e ∈ m.entries, compare e.1 (Key.ofRowId row.id) = .lt := by
    rw [h, List.forall_mem_map]
    intro r hr
    rw [Row.binding, Key.compare_ofRowId]
    exact hnew r hr
  show SortedMap.insertEntry _ _ m.entries = _
  rw [SortedMap.insertEntry_of_forall_lt hlast, h, List.map_append]
  rfl

theorem Stores.erase (h : Stores m rows) (id : RowId) :
    Stores (m.erase (Key.ofRowId id)) (rows.filter (·.id ≠ id)) := by
  show m.entries.filter _ = _
  rw [h, List.filter_map]
  congr 2
  funext r
  rw [Function.comp_apply, Row.binding]
  by_cases hid : r.id = id
  · simp [hid]
  · have hkey : Key.ofRowId r.id ≠ Key.ofRowId id := mt Key.ofRowId_inj.1 hid
    simp [hid, hkey]

theorem Stores.mem_entries (h : Stores m rows) : row.binding ∈ m.entries ↔ row ∈ rows := by
  rw [h, List.mem_map]
  simp only [Row.binding_inj, exists_eq_right]

/-- What is left of some bindings binds what is left of their rows. -/
theorem Stores.of_subset (h : Stores m rows) (hsub : m'.entries ⊆ m.entries) :
    ∃ rows', Stores m' rows' ∧ rows' ⊆ rows := by
  have hfilter : m'.entries = m.entries.filter (· ∈ m'.entries) := by
    apply eq_of_pairwise_of_mem_iff m'.sorted (m.sorted.filter _)
    intro e
    rw [List.mem_filter, decide_eq_true_eq]
    exact ⟨fun he => ⟨hsub he, he⟩, And.right⟩
  unfold Stores at h ⊢
  rw [h, List.filter_map] at hfilter
  exact ⟨_, hfilter, List.filter_subset_self _⟩

theorem Stores.size_eq (h : Stores m rows) : m.size = rows.length := by
  rw [SortedMap.size, h, List.length_map]

theorem Stores.get?_eq_some (h : Stores m rows) (hrow : row ∈ rows) :
    m.get? (Key.ofRowId row.id) = some (StoredRow.encode row.values) := by
  rw [SortedMap.get?_eq_some_iff, h]
  exact List.mem_map_of_mem hrow

theorem Stores.get?_eq_none (h : Stores m rows) {id : RowId} (hid : ∀ r ∈ rows, r.id ≠ id) :
    m.get? (Key.ofRowId id) = none := by
  rw [SortedMap.get?_eq_none_iff, SortedMap.mem_keys, h]
  rintro ⟨stored, hmem⟩
  obtain ⟨r, hr, he⟩ := List.mem_map.1 hmem
  exact hid r hr (Key.ofRowId_inj.1 (congrArg Prod.fst he))

/-! ### Reading rows -/

namespace Table

variable {t : Table} {s : Store}

theorem getRow_of_mem (hread : s.read t.primary = .ok m) (h : Stores m rows) (hrow : row ∈ rows) :
    t.getRow s row.id = .ok row := by
  rw [getRow, entries, hread, mapError_ok, ok_bind, h.get?_eq_some hrow]
  simp [StoredRow.decode_encode_values]

theorem getRow_of_not_mem (hread : s.read t.primary = .ok m) (h : Stores m rows) {id : RowId}
    (hid : ∀ r ∈ rows, r.id ≠ id) : t.getRow s id = .error (.rowNotFound t.name id) := by
  rw [getRow, entries, hread, mapError_ok, ok_bind, h.get?_eq_none hid]
  rfl

theorem exists_read_of_rows (h : t.rows s = .ok rows) : ∃ m, s.read t.primary = .ok m := by
  obtain ⟨m, hread, -⟩ := bind_eq_ok_iff.1 h
  exact ⟨m, mapError_eq_ok_iff.1 hread⟩

/-- **The rows are read back.** -/
theorem rows_of_stores (hread : s.read t.primary = .ok m) (h : Stores m rows) :
    t.rows s = .ok rows := by
  have hrowAt (r : Row) (hr : r ∈ rows) : t.rowAt s (Key.ofRowId r.id) = .ok r := by
    rw [rowAt, Key.toRowId_ofRowId, mapError_ok, ok_bind]
    exact getRow_of_mem hread h hr
  have hkeys : m.keys = rows.map fun r => Key.ofRowId r.id := by
    rw [SortedMap.keys, h, List.map_map]
    rfl
  rw [Table.rows, entries, hread, mapError_ok, ok_bind, hkeys, mapM_eq_ok_iff,
    List.forall₂_map_left_iff, List.forall₂_same]
  exact hrowAt

theorem size_of_stores (hread : s.read t.primary = .ok m) (h : Stores m rows) :
    t.size s = .ok rows.length := by
  rw [size, entries, hread, mapError_ok, map_ok, h.size_eq]

/-! ### Values that fit -/

/-- There is a value for each column, and it may stand there. -/
def Fits (t : Table) (values : List Value) : Prop :=
  List.Forall₂ (fun c v => Column.accepts c v = true) t.columns values

theorem checkValues_eq_ok_iff {values : List Value} :
    t.checkValues values = .ok () ↔ t.Fits values := by
  rw [Fits, List.forall₂_iff_zip, checkValues]
  by_cases hlen : values.length = t.columns.length
  · rw [if_neg (not_not_intro hlen)]
    split
    · rename_i c v hfind
      have hmem := List.mem_of_find?_eq_some hfind
      have hrefused : Column.accepts c v = false := by simpa using List.find?_some hfind
      simp only [reduceCtorEq, false_iff]
      rintro ⟨-, hall⟩
      rw [hall hmem] at hrefused
      cases hrefused
    · rename_i hfind
      rw [List.find?_eq_none] at hfind
      simp only [hlen, true_and, true_iff]
      intro c v hmem
      simpa using hfind _ hmem
  · rw [if_pos hlen]
    simp [Ne.symm hlen]

end Table
end OrderedIndex
