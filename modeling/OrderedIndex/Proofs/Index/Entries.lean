/-
  OrderedIndex/Proofs/Index/Entries.lean
  ======================================
  **The entries of one index.**

  Adding and removing an entry change the map of the index only, and what they do
  depends on that map only: `entriesWith` and `entriesWithout` are the entries they
  leave.

  An index mirrors some rows (`Mirrors`) when its entries are the keys of these rows
  and it has no reason to refuse any of them beside the others.  It then takes one more
  row or says why not (`Mirrors.entriesWith_cases`), and mirrors the rows with that one
  (`Mirrors.insert`); a row that it mirrors can be taken out (`Mirrors.erase`).
-/
import OrderedIndex.Index.Group
import OrderedIndex.Proofs.Index.Conflict

namespace OrderedIndex

namespace KeyLayout

variable {l : KeyLayout} {a b : Row} {key : Bytes}

/-- Rows with one key are the same row, as far as the index knows. -/
theorem eq_of_encode (ha : l.encode a = .ok key) (hb : l.encode b = .ok key) :
    a.id = b.id ∧ l.SameKey a b := by
  have h := compare_encodeAs ha hb
  rw [Std.ReflOrd.compare_self, eq_comm, Ordering.then_eq_eq] at h
  have hid : a.id.word = b.id.word := Std.LawfulEqOrd.eq_of_compare (α := UInt64) h.2
  exact ⟨congrArg RowId.mk hid,
    (compareRows_eq_iff (encodable_of_encode ha) (encodable_of_encode hb)).1 h.1⟩

end KeyLayout

namespace Index

variable {ix : Index} {s s' : Store} {m : SortedMap Bytes Bytes} {rows : List Row} {row : Row}
  {key : Bytes}

/-! ### What a change depends on -/

def entriesWith (ix : Index) (s : Store) (row : Row) : Except Error (SortedMap Bytes Bytes) := do
  ix.checkUnique s row
  let key ← ix.layout.encode row
  let entries ← ix.entries s
  return entries.insert key []

/-- The entries that removing a row leaves. -/
def entriesWithout (ix : Index) (s : Store) (row : Row) : Except Error (SortedMap Bytes Bytes) := do
  let key ← ix.layout.encode row
  let entries ← ix.entries s
  match entries.get? key with
  | some _ => return entries.erase key
  | none => throw (.entryNotFound ix.descriptor.sql row.id)

theorem add_eq : ix.add s row = (ix.entriesWith s row).map (s.setEntries ix.map) := by
  rw [add, entriesWith]
  rcases ix.checkUnique s row with _ | _
  · rfl
  rcases ix.layout.encode row with _ | key
  · rfl
  simp only [ok_bind, Store.put, entries]
  rcases s.read ix.map with _ | m <;> rfl

theorem remove_eq : ix.remove s row = (ix.entriesWithout s row).map (s.setEntries ix.map) := by
  rw [remove, entriesWithout]
  rcases ix.layout.encode row with _ | key
  · rfl
  simp only [ok_bind, Store.remove, entries]
  rcases s.read ix.map with _ | m
  · rfl
  simp only [map_ok, mapError_ok, ok_bind]
  rcases m.get? key with _ | v <;> rfl

theorem entriesWith_congr (h : s'.read ix.map = s.read ix.map) :
    ix.entriesWith s' row = ix.entriesWith s row := by
  simp only [entriesWith, checkUnique, conflict?, entries, h]

theorem entriesWithout_congr (h : s'.read ix.map = s.read ix.map) :
    ix.entriesWithout s' row = ix.entriesWithout s row := by
  simp only [entriesWithout, entries, h]

theorem entriesWith_eq_ok (h : ix.entriesWith s row = .ok m) :
    ∃ key entries, ix.layout.encode row = .ok key ∧ s.read ix.map = .ok entries ∧
      m = entries.insert key [] := by
  obtain ⟨-, -, h⟩ := bind_eq_ok_iff.1 h
  obtain ⟨key, hkey, h⟩ := bind_eq_ok_iff.1 h
  obtain ⟨entries, hread, h⟩ := bind_eq_ok_iff.1 h
  exact ⟨key, entries, hkey, mapError_eq_ok_iff.1 hread, (Except.ok.inj h).symm⟩

theorem entriesWithout_eq_ok_iff (hread : s.read ix.map = .ok m)
    (hkey : ix.layout.encode row = .ok key) {entries : SortedMap Bytes Bytes} :
    ix.entriesWithout s row = .ok entries ↔ key ∈ m.keys ∧ entries = m.erase key := by
  rw [entriesWithout, hkey, ok_bind, Index.entries, hread, mapError_ok, ok_bind]
  rcases hget : m.get? key with _ | v
  · simp [SortedMap.get?_eq_none_iff.1 hget]
  · have hmem : key ∈ m.keys := SortedMap.mem_keys.2 ⟨v, SortedMap.get?_eq_some_iff.1 hget⟩
    simp [hmem, eq_comm]

theorem entriesWithout_eq_ok {m' : SortedMap Bytes Bytes} (h : ix.entriesWithout s row = .ok m') :
    ∃ key m, ix.layout.encode row = .ok key ∧ s.read ix.map = .ok m ∧ key ∈ m.keys ∧
      m' = m.erase key := by
  obtain ⟨key, hkey, hrest⟩ := bind_eq_ok_iff.1 h
  obtain ⟨m, hread, -⟩ := bind_eq_ok_iff.1 hrest
  have hread := mapError_eq_ok_iff.1 hread
  obtain ⟨hmem, rfl⟩ := (entriesWithout_eq_ok_iff hread hkey).1 h
  exact ⟨key, m, hkey, hread, hmem, rfl⟩

/-- The index cannot make a key of the row, or it takes it, or it is unique and an entry is in the
    way. -/
theorem entriesWith_cases (hread : s.read ix.map = .ok m) (hkeys : ix.layout.KeysOfRows m)
    (row : Row) :
    (∃ e, ix.layout.encode row = .error e ∧ ix.entriesWith s row = .error e) ∨
      (∃ key, ix.layout.encode row = .ok key ∧
        (ix.descriptor.unique = true → ∀ r, ix.layout.Holds m r → ¬ix.Forbids r row) ∧
        ix.entriesWith s row = .ok (m.insert key [])) ∨
      (ix.descriptor.unique = true ∧ ix.layout.Encodable row ∧ ∃ r, ix.layout.Holds m r ∧
        ix.Forbids r row ∧
        ix.entriesWith s row =
          .error (.duplicateKey ix.descriptor.sql (ix.layout.describe row) r.id)) := by
  rcases hkey : ix.layout.encode row with e | key
  · -- the check makes a key of the row, too
    refine .inl ⟨e, rfl, ?_⟩
    have hstart := KeyLayout.encodeAs_error hkey .min
    rw [entriesWith, checkUnique]
    rcases ix.descriptor.unique with _ | _
    · rw [hkey]
      rfl
    · rw [conflict?, hstart]
      rfl
  · have hrow := KeyLayout.encodable_of_encode hkey
    have hadd (hcheck : ix.checkUnique s row = .ok ()) :
        ix.entriesWith s row = .ok (m.insert key []) := by
      rw [entriesWith, hcheck, ok_bind, hkey, ok_bind, entries, hread]
      rfl
    rcases hunique : ix.descriptor.unique with _ | _
    · refine .inr (.inl ⟨key, rfl, ?_, hadd ?_⟩)
      · intro h
        cases h
      · rw [checkUnique, hunique]
        rfl
    · rcases conflict?_cases hread hkeys hrow with ⟨hnone, hfree⟩ | ⟨r, hsome, hheld, hforbids⟩
      · refine .inr (.inl ⟨key, rfl, fun _ => hfree, hadd ?_⟩)
        rw [checkUnique, if_pos hunique, hnone]
        rfl
      · refine .inr (.inr ⟨rfl, hrow, r, hheld, hforbids, ?_⟩)
        rw [entriesWith, checkUnique, if_pos hunique, hsome]
        rfl

theorem entriesWith_eq_ok_iff (hread : s.read ix.map = .ok m) (hkeys : ix.layout.KeysOfRows m)
    (hkey : ix.layout.encode row = .ok key) {entries : SortedMap Bytes Bytes} :
    ix.entriesWith s row = .ok entries ↔
      (ix.descriptor.unique = true → ∀ r, ix.layout.Holds m r → ¬ix.Forbids r row) ∧
        entries = m.insert key [] := by
  rcases entriesWith_cases hread hkeys row with
    ⟨e, herror, -⟩ | ⟨key', hkey', hfree, hok⟩ | ⟨hunique, -, r, hr, hforbids, herror⟩
  · cases hkey.symm.trans herror
  · cases hkey.symm.trans hkey'
    rw [hok, Except.ok.injEq]
    exact ⟨fun heq => ⟨hfree, heq.symm⟩, fun heq => heq.2.symm⟩
  · rw [herror]
    constructor
    · intro h
      cases h
    · rintro ⟨hfree, -⟩
      exact absurd hforbids (hfree hunique r hr)

theorem withdraw_setEntries (hread : s.read ix.map = .ok m) (hkey : ix.layout.encode row = .ok key)
    (hnew : key ∉ m.keys) : ix.withdraw (s.setEntries ix.map (m.insert key [])) row = s := by
  have hopen := Store.isClosed_of_read hread
  have hread' := Store.read_setEntries_self hopen (m.insert key [])
  have hmem : key ∈ (m.insert key []).keys :=
    SortedMap.mem_keys.2 ⟨[], SortedMap.mem_insert.2 (.inl rfl)⟩
  have hwithout := (entriesWithout_eq_ok_iff hread' hkey).2 ⟨hmem, rfl⟩
  rw [withdraw, remove_eq, hwithout]
  show Store.setEntries _ _ _ = _
  rw [Store.setEntries_setEntries hopen, SortedMap.erase_insert hnew,
    Store.setEntries_of_read hread]

/-! ### Its map -/

theorem create_eq_ok_iff {d : Descriptor} {columnCount : Nat} {config : IndexConfig} :
    create s d columnCount config = .ok (ix, s') ↔
      (config.checkColumnTypes = true → ∀ c ∈ d.columns, c.column.type.isLargeObject = false) ∧
        ix = ⟨d, (s.openMap d.mapName).1, columnCount, config⟩ ∧ s' = (s.openMap d.mapName).2 := by
  have hallowed :
      (config.checkColumnTypes = true → ∀ c ∈ d.columns, c.column.type.isLargeObject = false) ↔
      (if config.checkColumnTypes then d.columns.find? (·.column.type.isLargeObject) else none) =
          none := by
    split <;> simp [*]
  rw [create, hallowed]
  split
  · rename_i hrefused
    simp [hrefused]
  · rename_i hrefused
    rw [hrefused, eq_comm, Except.ok.injEq, Prod.mk.injEq]
    simp

theorem create_eq_ok {d : Descriptor} {columnCount : Nat} {config : IndexConfig}
    (hfree : s.directory.get? d.mapName = none) (h : create s d columnCount config = .ok (ix, s')) :
    ix.descriptor = d ∧ ix.map = s.made ∧ ix.columnCount = columnCount ∧ ix.config = config ∧
      s' = (s.openMap d.mapName).2 := by
  obtain ⟨-, rfl, rfl⟩ := create_eq_ok_iff.1 h
  refine ⟨rfl, ?_, rfl, rfl, rfl⟩
  rw [Store.openMap_of_free hfree]

theorem exists_drop (h : s.isClosed ix.map = false) :
    ∃ s', s.removeMap ix.map = .ok s' ∧ ix.drop s = .ok s' := by
  obtain ⟨s', hremove⟩ := Store.exists_removeMap h
  refine ⟨s', hremove, ?_⟩
  rw [drop, h, if_neg Bool.false_ne_true, hremove]
  rfl

/-- An index is dropped whether its map is still there or not. -/
theorem drop_cases (ix : Index) (s : Store) : ∃ s', ix.drop s = .ok s' ∧
    (s.isClosed ix.map = true ∧ s' = s ∨ s.removeMap ix.map = .ok s') := by
  rcases hclosed : s.isClosed ix.map with _ | _
  · obtain ⟨s', hremove, hdrop⟩ := exists_drop hclosed
    exact ⟨s', hdrop, .inr hremove⟩
  · exact ⟨s, by rw [drop, if_pos hclosed], .inl ⟨rfl, rfl⟩⟩

end Index

/-! ### Mirroring -/

/-- Each row has an id of its own, and the ids increase. -/
def IdsIncrease (rows : List Row) : Prop := rows.Pairwise fun a b => compare a.id b.id = .lt

namespace Index

/-- The entries are the keys of the rows, and a unique index has no two rows of which one forbids
    the other. -/
structure Mirrors (ix : Index) (m : SortedMap Bytes Bytes) (rows : List Row) : Prop where
  mem_entries : ∀ e, e ∈ m.entries ↔ ∃ r ∈ rows, ix.layout.encode r = .ok e.1 ∧ e.2 = []
  encodable : ∀ r ∈ rows, ix.layout.Encodable r
  unique : ix.descriptor.unique = true → ∀ a ∈ rows, ∀ b ∈ rows, a.id ≠ b.id → ¬ix.Forbids a b

/-- Why an index that mirrors some rows does not take another one. -/
inductive Refuses (ix : Index) (rows : List Row) (row : Row) : Error → Prop
  /-- A value is missing or cannot be indexed. -/
  | noKey {e : Error} (h : ix.layout.encode row = .error e) : Refuses ix rows row e
  /-- The index is unique, and one row forbids the new one. -/
  | duplicate {r : Row} (hrow : ix.layout.Encodable row) (hunique : ix.descriptor.unique = true)
      (hr : r ∈ rows)
      (hforbids : ix.Forbids r row) (hsingle : ∀ r' ∈ rows, ix.Forbids r' row → r' = r) :
      Refuses ix rows row (.duplicateKey ix.descriptor.sql (ix.layout.describe row) r.id)

variable {ix : Index} {s : Store} {m : SortedMap Bytes Bytes} {rows : List Row} {row : Row}
  {key : Bytes}

theorem Forbids.of_sameKey {a b c : Row} (h : ix.Forbids a c) (hab : ix.layout.SameKey a b) :
    ix.Forbids b c :=
  ⟨h.1.trans hab, mt (RepeatPolicy.permits_congr hab).2 h.2⟩

/-- Forbidding goes both ways, since the policy asks for the shared columns only. -/
theorem Forbids.symm {a b : Row} (h : ix.Forbids a b) : ix.Forbids b a :=
  ⟨h.1.symm, mt (RepeatPolicy.permits_congr h.1).1 h.2⟩

theorem Mirrors.mem_keys (h : ix.Mirrors m rows) :
    key ∈ m.keys ↔ ∃ r ∈ rows, ix.layout.encode r = .ok key := by
  rw [SortedMap.mem_keys]
  simp [h.mem_entries]

theorem Mirrors.keysOfRows (h : ix.Mirrors m rows) : ix.layout.KeysOfRows m := by
  intro key hkey
  obtain ⟨r, -, hr⟩ := h.mem_keys.1 hkey
  exact ⟨r, hr⟩

theorem Mirrors.holds (h : ix.Mirrors m rows) {r : Row} (hr : r ∈ rows) : ix.layout.Holds m r := by
  obtain ⟨key, hkey⟩ := KeyLayout.exists_encodeAs_iff.2 (h.encodable r hr)
  exact ⟨key, h.mem_keys.2 ⟨r, hr, hkey⟩, hkey⟩

theorem Mirrors.not_mem_keys (h : ix.Mirrors m rows) (hid : ∀ r ∈ rows, r.id ≠ row.id)
    (hkey : ix.layout.encode row = .ok key) : key ∉ m.keys := by
  intro hmem
  obtain ⟨r, hr, hrkey⟩ := h.mem_keys.1 hmem
  exact hid r hr (KeyLayout.eq_of_encode hrkey hkey).1

theorem Mirrors.empty (ix : Index) : ix.Mirrors .empty [] where
  mem_entries := by simp
  encodable := by simp
  unique := by simp

theorem Mirrors.insert (h : ix.Mirrors m rows) (hkey : ix.layout.encode row = .ok key)
    (hunique : ix.descriptor.unique = true → ∀ r ∈ rows, ¬ix.Forbids r row) :
    ix.Mirrors (m.insert key []) (rows ++ [row]) where
  mem_entries := by
    intro e
    rw [SortedMap.mem_insert, h.mem_entries]
    constructor
    · rintro (rfl | ⟨⟨r, hr, he⟩, -⟩)
      · exact ⟨row, by simp, hkey, rfl⟩
      · exact ⟨r, by simp [hr], he⟩
    · rintro ⟨r, hr, he, hv⟩
      by_cases hk : e.1 = key
      · exact .inl (Prod.ext hk hv)
      · rcases List.mem_append.1 hr with hr | hr
        · exact .inr ⟨⟨r, hr, he, hv⟩, hk⟩
        · obtain rfl := List.mem_singleton.1 hr
          exact absurd (Except.ok.inj (he.symm.trans hkey)) hk
  encodable := by
    rw [List.forall_mem_append]
    exact ⟨h.encodable, by simpa using KeyLayout.encodable_of_encode hkey⟩
  unique := by
    intro hu a ha b hb hne hforbids
    rw [List.mem_append, List.mem_singleton] at ha hb
    rcases ha with ha | rfl
    · rcases hb with hb | rfl
      · exact h.unique hu a ha b hb hne hforbids
      · exact hunique hu a ha hforbids
    · rcases hb with hb | rfl
      · exact hunique hu b hb hforbids.symm
      · exact hne rfl

theorem Mirrors.erase (h : ix.Mirrors m rows) (hids : IdsIncrease rows) (hrow : row ∈ rows)
    (hkey : ix.layout.encode row = .ok key) :
    ix.Mirrors (m.erase key) (rows.filter (·.id ≠ row.id)) where
  mem_entries := by
    intro e
    rw [SortedMap.mem_erase, h.mem_entries]
    constructor
    · rintro ⟨⟨r, hr, he, hv⟩, hne⟩
      refine ⟨r, List.mem_filter.2 ⟨hr, decide_eq_true fun hid => hne ?_⟩, he, hv⟩
      obtain rfl := eq_of_mem_of_key_eq hids hr hrow hid
      exact Except.ok.inj (he.symm.trans hkey)
    · rintro ⟨r, hr, he, hv⟩
      obtain ⟨hr, hid⟩ := List.mem_filter.1 hr
      refine ⟨⟨r, hr, he, hv⟩, fun hk => of_decide_eq_true hid ?_⟩
      exact (KeyLayout.eq_of_encode (hk ▸ he) hkey).1
  encodable := fun r hr => h.encodable r (List.mem_filter.1 hr).1
  unique := fun hu a ha b hb => h.unique hu a (List.mem_filter.1 ha).1 b (List.mem_filter.1 hb).1

theorem Mirrors.perm (h : ix.Mirrors m rows) (hids : IdsIncrease rows) :
    ∃ keys, rows.mapM ix.layout.encode = .ok keys ∧
      m.entries.Perm (keys.map fun key => (key, [])) := by
  obtain ⟨keys, hkeys⟩ := exists_mapM fun r hr => KeyLayout.exists_encodeAs_iff.2 (h.encodable r hr)
  have hnodup : keys.Nodup := by
    apply nodup_of_mapM hkeys
    apply hids.imp
    intro a b hlt key ha hb
    rw [(KeyLayout.eq_of_encode ha hb).1] at hlt
    exact not_compare_lt_self _ hlt
  refine ⟨keys, hkeys, (List.perm_ext_iff_of_nodup (nodup_of_pairwise m.sorted) ?_).2 ?_⟩
  · exact hnodup.map fun _ _ he => congrArg Prod.fst he
  · intro e
    rw [h.mem_entries, List.mem_map]
    constructor
    · rintro ⟨r, hr, he, hv⟩
      exact ⟨e.1, (mem_of_mapM hkeys).2 ⟨r, hr, he⟩, Prod.ext rfl hv.symm⟩
    · rintro ⟨key, hkey, rfl⟩
      obtain ⟨r, hr, he⟩ := (mem_of_mapM hkeys).1 hkey
      exact ⟨r, hr, he, rfl⟩

theorem Mirrors.size_eq (h : ix.Mirrors m rows) (hids : IdsIncrease rows) :
    m.size = rows.length := by
  obtain ⟨keys, hkeys, hperm⟩ := h.perm hids
  have hlen := (mapM_eq_ok_iff.1 hkeys).length_eq
  have hsize := hperm.length_eq
  rw [List.length_map] at hsize
  exact hsize.trans hlen.symm

/-- Of the rows that a unique index mirrors, only one can forbid another row. -/
theorem Mirrors.duplicate (h : ix.Mirrors m rows) (hids : IdsIncrease rows)
    (hrow : ix.layout.Encodable row) (hunique : ix.descriptor.unique = true) {r : Row}
    (hr : r ∈ rows) (hforbids : ix.Forbids r row) :
    ix.Refuses rows row (.duplicateKey ix.descriptor.sql (ix.layout.describe row) r.id) := by
  refine .duplicate hrow hunique hr hforbids ?_
  intro r' hr' hf
  -- two rows that forbid a third forbid each other
  by_contra hne
  have hrr' : r.id ≠ r'.id := fun he => hne (eq_of_mem_of_key_eq hids hr' hr he.symm)
  exact h.unique hunique r hr r' hr' hrr' ⟨hf.1.symm.trans hforbids.1, hforbids.2⟩

theorem Mirrors.not_refuses_iff (h : ix.Mirrors m rows) (hids : IdsIncrease rows) :
    (∀ e, ¬ix.Refuses rows row e) ↔
      ix.layout.Encodable row ∧ (ix.descriptor.unique = true → ∀ r ∈ rows, ¬ix.Forbids r row) := by
  constructor
  · intro hnot
    rcases hkey : ix.layout.encode row with e | key
    · exact absurd (.noKey hkey) (hnot e)
    · have hrow := KeyLayout.encodable_of_encode hkey
      exact ⟨hrow, fun hunique r hr hforbids => hnot _ (h.duplicate hids hrow hunique hr hforbids)⟩
  · rintro ⟨hrow, hfree⟩ e he
    cases he with
    | noKey he =>
      obtain ⟨key, hkey⟩ := KeyLayout.exists_encodeAs_iff.2 hrow
      cases he.symm.trans hkey
    | duplicate _ hunique hr hforbids => exact hfree hunique _ hr hforbids

/-- **An index that mirrors some rows takes another one, or it says why not.** -/
theorem Mirrors.entriesWith_cases (h : ix.Mirrors m rows) (hids : IdsIncrease rows)
    (hread : s.read ix.map = .ok m) (row : Row) :
    (∃ e, ix.Refuses rows row e ∧ ix.entriesWith s row = .error e) ∨
      ∃ key, ix.layout.encode row = .ok key ∧
        (ix.descriptor.unique = true → ∀ r ∈ rows, ¬ix.Forbids r row) ∧
        ix.entriesWith s row = .ok (m.insert key []) := by
  rcases Index.entriesWith_cases hread h.keysOfRows row with
    ⟨e, hkey, herror⟩ | ⟨key, hkey, hfree, hok⟩ |
      ⟨hunique, hrow, r₀, ⟨k, hk, hr₀⟩, hforbids, herror⟩
  · exact .inl ⟨e, .noKey hkey, herror⟩
  · exact .inr ⟨key, hkey, fun hunique r hr => hfree hunique r (h.holds hr), hok⟩
  · -- the entry in the way is the key of one of the rows
    obtain ⟨r, hr, hrk⟩ := h.mem_keys.1 hk
    obtain ⟨hid, hsame⟩ := KeyLayout.eq_of_encode hr₀ hrk
    rw [hid] at herror
    exact .inl ⟨_, h.duplicate hids hrow hunique hr (hforbids.of_sameKey hsame), herror⟩

theorem Refuses.functional {e e' : Error} (h : ix.Refuses rows row e)
    (h' : ix.Refuses rows row e') : e = e' := by
  cases h with
  | noKey h =>
    cases h' with
    | noKey h' => exact Except.error.inj (h.symm.trans h')
    | duplicate hrow =>
      obtain ⟨key, hkey⟩ := KeyLayout.exists_encodeAs_iff.2 hrow
      cases h.symm.trans hkey
  | duplicate hrow hunique hr hforbids hsingle =>
    cases h' with
    | noKey h' =>
      obtain ⟨key, hkey⟩ := KeyLayout.exists_encodeAs_iff.2 hrow
      cases h'.symm.trans hkey
    | duplicate _ _ hr' hforbids' => rw [hsingle _ hr' hforbids']

theorem Mirrors.entriesWith_eq_error_iff (h : ix.Mirrors m rows) (hids : IdsIncrease rows)
    (hread : s.read ix.map = .ok m) {e : Error} :
    ix.entriesWith s row = .error e ↔ ix.Refuses rows row e := by
  rcases h.entriesWith_cases hids hread row with ⟨e', hrefuses, herror⟩ | ⟨key, hkey, hfree, hok⟩
  · rw [herror, Except.error.injEq]
    exact ⟨fun he => he ▸ hrefuses, fun he => hrefuses.functional he⟩
  · rw [hok]
    constructor
    · intro he
      cases he
    · intro he
      cases he with
      | noKey he => cases hkey.symm.trans he
      | duplicate _ hunique hr hforbids => exact absurd hforbids (hfree hunique _ hr)

theorem Mirrors.of_entriesWith {m' : SortedMap Bytes Bytes} (h : ix.Mirrors m rows)
    (hids : IdsIncrease rows) (hread : s.read ix.map = .ok m)
    (hok : ix.entriesWith s row = .ok m') : ix.Mirrors m' (rows ++ [row]) := by
  rcases h.entriesWith_cases hids hread row with ⟨e, -, herror⟩ | ⟨key, hkey, hfree, hok'⟩
  · cases hok.symm.trans herror
  · obtain rfl := Except.ok.inj (hok.symm.trans hok')
    exact h.insert hkey hfree

theorem Mirrors.entriesWithout (h : ix.Mirrors m rows) (hids : IdsIncrease rows)
    (hread : s.read ix.map = .ok m) (hrow : row ∈ rows) :
    ∃ m', ix.entriesWithout s row = .ok m' ∧ ix.Mirrors m' (rows.filter (·.id ≠ row.id)) := by
  obtain ⟨key, hkey⟩ := KeyLayout.exists_encodeAs_iff.2 (h.encodable row hrow)
  have hmem : key ∈ m.keys := h.mem_keys.2 ⟨row, hrow, hkey⟩
  exact ⟨_, (entriesWithout_eq_ok_iff hread hkey).2 ⟨hmem, rfl⟩, h.erase hids hrow hkey⟩

end Index
end OrderedIndex
