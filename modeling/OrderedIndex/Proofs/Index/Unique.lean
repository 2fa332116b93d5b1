/-
  OrderedIndex/Proofs/Index/Unique.lean
  =====================================
  **An index by itself**, whatever rows are added to it and removed from it.

  Nothing is asked of the rows: ids may repeat, and a row that is removed need not be
  one that was added.  So the index mirrors no list of rows.  What stays true is said
  of the entries alone (`Index.Guarded`): they are keys of rows, and of a unique index
  no two keep each other out.

    * Every call leads from guarded entries to guarded entries (`Guarded.perform`), so
      they are guarded all along (`guarded_performAll`).
    * Guarded entries tell what adding any row gives (`Guarded.decidesAdd`): there is
      at most one entry that can be in the way, and the check names it.
-/
import OrderedIndex.Proofs.Index.Entries

namespace OrderedIndex

namespace KeyLayout

variable {l : KeyLayout} {a b row : Row} {m m' : SortedMap Bytes Bytes} {key : Bytes}

theorem rowComponents_congr {ps : List KeyPart}
    (h : ∀ p ∈ ps, a.value? p.column = b.value? p.column) (hid : a.id = b.id) :
    rowComponents a ps = rowComponents b ps := by
  induction ps with
  | nil => rfl
  | cons p ps ih =>
    obtain ⟨hp, hps⟩ := List.forall_mem_cons.1 h
    simp only [rowComponents, hp, hid, ih hps]

/-- The id and the index columns make the key. -/
theorem SameKey.encode_eq (h : l.SameKey a b) (hid : a.id = b.id) : l.encode a = l.encode b := by
  simp only [encode, encodeAs, rowComponents_congr h hid, hid]

theorem holds_insert_iff {v : Bytes} :
    l.Holds (m.insert key v) row ↔ l.encode row = .ok key ∨ l.Holds m row := by
  simp only [Holds, SortedMap.mem_keys_insert, or_and_right, exists_or, exists_eq_left]

theorem Holds.mono (h : l.Holds m' row) (hsub : m'.entries ⊆ m.entries) : l.Holds m row := by
  obtain ⟨k, hk, hrow⟩ := h
  exact ⟨k, SortedMap.keys_subset hsub hk, hrow⟩

theorem keysOfRows_empty : l.KeysOfRows .empty := by
  intro key hkey
  cases hkey

theorem KeysOfRows.insert {v : Bytes} (h : l.KeysOfRows m) (hkey : l.encode row = .ok key) :
    l.KeysOfRows (m.insert key v) := by
  intro k hk
  rcases SortedMap.mem_keys_insert.1 hk with rfl | hk
  · exact ⟨row, hkey⟩
  · exact h k hk

theorem KeysOfRows.of_subset (h : l.KeysOfRows m) (hsub : m'.entries ⊆ m.entries) :
    l.KeysOfRows m' := fun k hk =>
  h k (SortedMap.keys_subset hsub hk)

theorem not_holds_erase (hkey : l.encode row = .ok key) : ¬l.Holds (m.erase key) row := by
  rintro ⟨k, hk, hrow⟩
  exact (SortedMap.mem_keys_erase.1 hk).2 (Except.ok.inj (hrow.symm.trans hkey))

end KeyLayout

namespace Index

variable {ix : Index} {s : Store} {m m' : SortedMap Bytes Bytes} {row : Row} {key : Bytes}

/-! ### Guarded entries -/

/-- The entries are keys of rows with nothing beside them, and of a unique index no two keep each
    other out. -/
structure Guarded (ix : Index) (m : SortedMap Bytes Bytes) : Prop where
  keysOfRows : ix.layout.KeysOfRows m
  value : ∀ e ∈ m.entries, e.2 = []
  unique : ix.descriptor.unique = true → ∀ a b, ix.layout.Holds m a → ix.layout.Holds m b →
    ix.Forbids a b → a.id = b.id

theorem Guarded.empty (ix : Index) : ix.Guarded .empty where
  keysOfRows := KeyLayout.keysOfRows_empty
  value := by
    intro e he
    cases he
  unique := by
    rintro - a - ⟨key, hkey, -⟩
    cases hkey

theorem Guarded.insert (h : ix.Guarded m) (hkey : ix.layout.encode row = .ok key)
    (hfree : ix.descriptor.unique = true → ∀ r, ix.layout.Holds m r → ¬ix.Forbids r row) :
    ix.Guarded (m.insert key []) where
  keysOfRows := h.keysOfRows.insert hkey
  value := by
    intro e he
    rcases SortedMap.mem_insert.1 he with rfl | ⟨he, -⟩
    · rfl
    · exact h.value e he
  unique := by
    intro hunique a b ha hb hforbids
    rcases KeyLayout.holds_insert_iff.1 ha with ha | ha
    · obtain ⟨haid, hasame⟩ := KeyLayout.eq_of_encode ha hkey
      rcases KeyLayout.holds_insert_iff.1 hb with hb | hb
      · exact haid.trans (KeyLayout.eq_of_encode hb hkey).1.symm
      · exact absurd (hforbids.of_sameKey hasame).symm (hfree hunique b hb)
    · rcases KeyLayout.holds_insert_iff.1 hb with hb | hb
      · obtain ⟨-, hbsame⟩ := KeyLayout.eq_of_encode hb hkey
        exact absurd (hforbids.symm.of_sameKey hbsame).symm (hfree hunique a ha)
      · exact h.unique hunique a b ha hb hforbids

theorem Guarded.of_subset (h : ix.Guarded m) (hsub : m'.entries ⊆ m.entries) : ix.Guarded m' where
  keysOfRows := h.keysOfRows.of_subset hsub
  value e he := h.value e (hsub he)
  unique hunique a b ha hb := h.unique hunique a b (ha.mono hsub) (hb.mono hsub)

theorem Guarded.of_entriesWith (h : ix.Guarded m) (hread : s.read ix.map = .ok m)
    (hok : ix.entriesWith s row = .ok m') : ix.Guarded m' := by
  obtain ⟨key, entries, hkey, hread', -⟩ := entriesWith_eq_ok hok
  obtain rfl := Except.ok.inj (hread.symm.trans hread')
  obtain ⟨hfree, rfl⟩ := (entriesWith_eq_ok_iff hread h.keysOfRows hkey).1 hok
  exact h.insert hkey hfree

theorem Guarded.of_entriesWithout (h : ix.Guarded m) (hread : s.read ix.map = .ok m)
    (hok : ix.entriesWithout s row = .ok m') : ix.Guarded m' := by
  obtain ⟨key, entries, -, hread', -, rfl⟩ := entriesWithout_eq_ok hok
  obtain rfl := Except.ok.inj (hread.symm.trans hread')
  exact h.of_subset (m.erase_subset key)

/-- Of the rows that a unique index holds, all that keep another one out have the same key. -/
theorem Guarded.id_eq_of_forbids (h : ix.Guarded m) (hunique : ix.descriptor.unique = true)
    {r r' : Row} (hr : ix.layout.Holds m r) (hr' : ix.layout.Holds m r')
    (hforbids : ix.Forbids r row) (hforbids' : ix.Forbids r' row) : r.id = r'.id :=
  h.unique hunique r r' hr hr' ⟨hforbids'.1.symm.trans hforbids.1, hforbids.2⟩

/-! ### Calls -/

/-- A call that changes the entries of an index. -/
inductive Change
  | add (row : Row)
  | remove (row : Row)
  | clear
  deriving DecidableEq

/-- The store after a call, which is the one before if the call fails. -/
def settle (s : Store) : Except Error Store → Except Error Unit × Store
  | .ok s' => (.ok (), s')
  | .error e => (.error e, s)

def perform (ix : Index) (s : Store) : Change → Except Error Unit × Store
  | .add row => settle s (ix.add s row)
  | .remove row => settle s (ix.remove s row)
  | .clear => settle s (ix.clear s)

/-- The store after some calls, whether they succeed or fail. -/
def performAll (ix : Index) (s : Store) (cs : List Change) : Store :=
  cs.foldl (fun s c => (ix.perform s c).2) s

/-- A call leaves the entries, or adds one or removes one, or removes all. -/
theorem read_perform (hread : s.read ix.map = .ok m) (c : Change) :
    ∃ m', (ix.perform s c).2.read ix.map = .ok m' ∧
      (m' = m ∨ (∃ row, ix.entriesWith s row = .ok m') ∨ (∃ row, ix.entriesWithout s row = .ok m') ∨
        m' = .empty) := by
  have hset (m' : SortedMap Bytes Bytes) : (s.setEntries ix.map m').read ix.map = .ok m' :=
    Store.read_setEntries_self (Store.isClosed_of_read hread) m'
  cases c with
  | add row =>
    simp only [Index.perform, add_eq]
    rcases hok : ix.entriesWith s row with e | m'
    · exact ⟨m, hread, .inl rfl⟩
    · exact ⟨m', hset m', .inr (.inl ⟨row, hok⟩)⟩
  | remove row =>
    simp only [Index.perform, remove_eq]
    rcases hok : ix.entriesWithout s row with e | m'
    · exact ⟨m, hread, .inl rfl⟩
    · exact ⟨m', hset m', .inr (.inr (.inl ⟨row, hok⟩))⟩
  | clear =>
    simp only [Index.perform, Index.clear, Store.clear, hread]
    exact ⟨.empty, hset .empty, .inr (.inr (.inr rfl))⟩

/-- **Every call keeps the entries guarded.** -/
theorem Guarded.perform (h : ix.Guarded m) (hread : s.read ix.map = .ok m) (c : Change) :
    ∃ m', (ix.perform s c).2.read ix.map = .ok m' ∧ ix.Guarded m' := by
  obtain ⟨m', hread', rfl | ⟨row, hok⟩ | ⟨row, hok⟩ | rfl⟩ := read_perform hread c
  · exact ⟨_, hread', h⟩
  · exact ⟨m', hread', h.of_entriesWith hread hok⟩
  · exact ⟨m', hread', h.of_entriesWithout hread hok⟩
  · exact ⟨_, hread', .empty ix⟩

theorem Guarded.performAll (h : ix.Guarded m) (hread : s.read ix.map = .ok m) (cs : List Change) :
    ∃ m', (ix.performAll s cs).read ix.map = .ok m' ∧ ix.Guarded m' := by
  induction cs generalizing s m with
  | nil => exact ⟨m, hread, h⟩
  | cons c cs ih =>
    obtain ⟨m', hread', h'⟩ := h.perform hread c
    exact ih h' hread'

/-! ### What the entries decide -/

/-- The entries decide what adding a row gives, for any row that the index can make a key of. -/
structure DecidesAdd (ix : Index) (s : Store) (m : SortedMap Bytes Bytes) (row : Row) : Prop where
  duplicate_iff : (∃ e, (ix.perform s (.add row)).1 = .error e ∧ e.isDuplicateKey = true) ↔
    ∃ r, ix.layout.Holds m r ∧ ix.Forbids r row
  /-- The fault names the entry in the way, and the store is the one before. -/
  conflicting : ∀ r, ix.layout.Holds m r → ix.Forbids r row → ix.perform s (.add row) =
    (.error (.duplicateKey ix.descriptor.sql (ix.layout.describe row) r.id), s)
  added : ∀ key, ix.layout.encode row = .ok key → (∀ r, ix.layout.Holds m r → ¬ix.Forbids r row) →
    ix.perform s (.add row) = (.ok (), s.setEntries ix.map (m.insert key []))

theorem Guarded.decidesAdd (h : ix.Guarded m) (hread : s.read ix.map = .ok m)
    (hunique : ix.descriptor.unique = true) (hrow : ix.layout.Encodable row) :
    ix.DecidesAdd s m row := by
  obtain ⟨key, hkey⟩ : ∃ key, ix.layout.encode row = .ok key := KeyLayout.exists_encodeAs_iff.2 hrow
  rcases entriesWith_cases hread h.keysOfRows row with
    ⟨e, herror, -⟩ | ⟨key', hkey', hfree, hok⟩ | ⟨-, -, r₀, hr₀, hforbids₀, herror⟩
  · cases hkey.symm.trans herror
  · have hperform : ix.perform s (.add row) = (.ok (), s.setEntries ix.map (m.insert key' [])) := by
      simp only [Index.perform, add_eq, hok, map_ok, settle]
    refine ⟨⟨?_, ?_⟩, ?_, ?_⟩
    · rintro ⟨e, he, -⟩
      rw [hperform] at he
      cases he
    · rintro ⟨r, hr, hforbids⟩
      exact absurd hforbids (hfree hunique r hr)
    · intro r hr hforbids
      exact absurd hforbids (hfree hunique r hr)
    · intro k hk _
      cases hkey'.symm.trans hk
      exact hperform
  · have hperform : ix.perform s (.add row) =
        (.error (.duplicateKey ix.descriptor.sql (ix.layout.describe row) r₀.id), s) := by
      simp only [Index.perform, add_eq, herror, map_error, settle]
    refine ⟨⟨fun _ => ⟨r₀, hr₀, hforbids₀⟩, fun _ => ⟨_, congrArg Prod.fst hperform, rfl⟩⟩, ?_, ?_⟩
    · intro r hr hforbids
      rw [hperform, h.id_eq_of_forbids hunique hr₀ hr hforbids₀ hforbids]
    · intro _ _ hfree
      exact absurd hforbids₀ (hfree r₀ hr₀)

/-- **A unique index never holds two entries that keep each other out.**  Made on a map of its own
    and called in any way, with any rows, its entries are keys of rows, and two different ones have
    equal index columns only if the policy lets these repeat.  Adding a row that has a key is
    refused as a duplicate if and only if there is an entry with these index columns that must not
    repeat; the fault names that entry's row, and nothing changes. -/
theorem unique_performAll {s s₀ : Store} {d : Descriptor} {columnCount : Nat}
    {config : IndexConfig} {ix : Index} (hfresh : s.hasMap d.mapName = false)
    (hcreate : create s d columnCount config = .ok (ix, s₀)) (hunique : d.unique = true)
    (cs : List Change) :
    ix.descriptor = d ∧ ix.columnCount = columnCount ∧ ix.config = config ∧
    ∃ m, (ix.performAll s₀ cs).read ix.map = .ok m ∧ ix.layout.KeysOfRows m ∧
      (∀ a b keyA keyB, keyA ∈ m.keys → keyB ∈ m.keys → ix.layout.encode a = .ok keyA →
        ix.layout.encode b = .ok keyB →
        keyA ≠ keyB → ix.layout.SameKey a b → config.repeatPolicy.Permits ix.layout a) ∧
      ∀ row, ix.layout.Encodable row → ix.DecidesAdd (ix.performAll s₀ cs) m row := by
  have hfree : s.directory.get? d.mapName = none := by
    simpa [Store.hasMap, SortedMap.contains] using hfresh
  obtain ⟨rfl, hmap, hcount, rfl, rfl⟩ := create_eq_ok hfree hcreate
  have hempty : (s.openMap ix.descriptor.mapName).2.read ix.map = .ok .empty := by
    rw [hmap]
    exact Store.read_openMap_made hfree
  obtain ⟨m, hread, hm⟩ := (Guarded.empty ix).performAll hempty cs
  refine ⟨rfl, hcount, rfl, m, hread, hm.keysOfRows, ?_,
    fun row hrow => hm.decidesAdd hread hunique hrow⟩
  intro a b keyA keyB hkeyA hkeyB ha hb hne hsame
  by_contra hpermits
  have hid := hm.unique hunique a b ⟨keyA, hkeyA, ha⟩ ⟨keyB, hkeyB, hb⟩ ⟨hsame.symm, hpermits⟩
  have heq := hsame.encode_eq hid
  rw [ha, hb] at heq
  exact hne (Except.ok.inj heq)

/-- Row ids repeat, one of them is 0, a key with NULL is there twice, and one entry is removed
    again. -/
theorem unique_performAll_people :
    let d : Descriptor := ⟨⟨1⟩, "by_both", "people", true,
      [⟨.new 0 "name" .varchar, .ascending⟩, ⟨.new 1 "age" .integer, .descending⟩]⟩
    let ix : Index := ⟨d, ⟨0⟩, 2, .default⟩
    let cs : List Change := [.add ⟨⟨0⟩, [.text "a", .null]⟩, .add ⟨⟨5⟩, [.text "a", .null]⟩,
      .add ⟨⟨5⟩, [.text "a", .integer 30]⟩, .add ⟨⟨0⟩, [.text "a", .integer 30]⟩,
      .remove ⟨⟨5⟩, [.text "a", .integer 30]⟩, .add ⟨⟨0⟩, [.text "a", .integer 30]⟩]
    Store.empty.hasMap d.mapName = false ∧
      create .empty d 2 .default = .ok (ix, (Store.empty.openMap d.mapName).2) ∧ d.unique = true ∧
      ∃ m, (ix.performAll (Store.empty.openMap d.mapName).2 cs).read ix.map = .ok m ∧
        ix.DecidesAdd (ix.performAll (Store.empty.openMap d.mapName).2 cs) m
          ⟨⟨9⟩, [.text "a", .integer 30]⟩ := by
  intro d ix cs
  have hfresh : Store.empty.hasMap d.mapName = false := rfl
  have hcreate : create .empty d 2 .default = .ok (ix, (Store.empty.openMap d.mapName).2) := rfl
  obtain ⟨-, -, -, m, hread, -, -, hadd⟩ := unique_performAll hfresh hcreate rfl cs
  exact ⟨hfresh, hcreate, rfl, m, hread, hadd _ (KeyLayout.encodable_of_encode rfl)⟩

end Index
end OrderedIndex
