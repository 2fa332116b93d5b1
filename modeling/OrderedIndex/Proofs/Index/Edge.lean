/-
  OrderedIndex/Proofs/Index/Edge.lean
  ===================================
  **The first and the last entry** whose leading column is not NULL.

  NULL comes first or last, as the direction of the leading column has it, so the entry
  is looked for from an end of the index inwards, past any number of entries with NULL.
  Each step asks the map for the neighbour of the key before (`Index.Inwards`).  It goes
  through the keys in their order from that end (`inwards_iff`), and so comes to the
  first of them whose leading component is not NULL, or to the end.

  The cursor is given that one key and has taken it already.  So it stands on the entry
  and hands it out once (`Cursor.Single`), unless it is moved first.
-/
import OrderedIndex.Proofs.Index.LiveScan
import OrderedIndex.Proofs.Index.Undo
import OrderedIndex.Proofs.Navigation

namespace OrderedIndex

/-! ### Leading columns -/

namespace KeyLayout

variable {l : KeyLayout} {row : Row} {key : Bytes} {keys before after : List Bytes}

/-- The row has a value other than NULL in the leading column. -/
def LeadingSet (l : KeyLayout) (row : Row) : Prop :=
  ∃ p v, l.parts.head? = some p ∧ row.value? p.column = some v ∧ v ≠ .null

/-- The leading component of a key tells whether the row has a value there. -/
theorem leadingIsNull_of_encode (hparts : l.parts ≠ []) (hkey : l.encode row = .ok key) :
    (l.leadingIsNull key = .ok true ∧ ¬l.LeadingSet row) ∨
      (l.leadingIsNull key = .ok false ∧ l.LeadingSet row) := by
  obtain ⟨p, ps, hcons⟩ := List.exists_cons_of_ne_nil hparts
  obtain ⟨x, hx, rfl⟩ := encodeAs_eq_ok_iff.1 hkey
  rw [hcons] at hx
  obtain ⟨v, head, tail, hv, hhead, -, rfl⟩ := rowComponents_cons_eq_ok_iff.1 hx
  have hleading : l.leadingIsNull (head ++ tail ++ Key.ofRowId row.id) = .ok v.isNull := by
    rw [leadingIsNull, hcons, List.append_assoc]
    simp only [KeyReader.start, KeyReader.readValue, Component.read_write hhead]
    rfl
  have hset : l.LeadingSet row ↔ v ≠ .null := by
    simp only [LeadingSet, hcons, List.head?_cons, Option.some.injEq,
      exists_and_left, exists_eq_left', hv]
  rw [hleading, hset]
  by_cases hnull : v = .null
  · exact .inl ⟨by rw [Value.isNull_iff.2 hnull], not_not.2 hnull⟩
  · exact .inr ⟨congrArg Except.ok (Bool.eq_false_of_not_eq_true fun h =>
      hnull (Value.isNull_iff.1 h)), hnull⟩

end KeyLayout

namespace Index

variable {l : KeyLayout} {keys before after : List Bytes} {key : Bytes}

theorem firstSetKey_append (h : ∀ b ∈ before, l.leadingIsNull b = .ok true) :
    firstSetKey l (before ++ after) = firstSetKey l after := by
  induction before with
  | nil => rfl
  | cons b before ih =>
    obtain ⟨hb, hbefore⟩ := List.forall_mem_cons.1 h
    rw [List.cons_append, firstSetKey, hb]
    exact ih hbefore

/-- All keys have NULL in front, or the first that has not is found. -/
theorem firstSetKey_cases (hparts : l.parts ≠ [])
    (hkeys : ∀ key ∈ keys, ∃ row, l.encode row = .ok key) :
    (firstSetKey l keys = .ok none ∧ ∀ row key, key ∈ keys → l.encode row = .ok key →
      ¬l.LeadingSet row) ∨
      ∃ before key after row, keys = before ++ key :: after ∧ firstSetKey l keys = .ok (some key) ∧
        l.encode row = .ok key ∧ l.LeadingSet row ∧
          ∀ other k, k ∈ before → l.encode other = .ok k → ¬l.LeadingSet other := by
  have hnull (row : Row) (key : Bytes) (hkey : l.leadingIsNull key = .ok true)
      (hrow : l.encode row = .ok key) :
      ¬l.LeadingSet row := by
    rcases KeyLayout.leadingIsNull_of_encode hparts hrow with ⟨-, hnot⟩ | ⟨hset, -⟩
    · exact hnot
    · cases hkey.symm.trans hset
  rcases forall_or_exists_first (fun key => l.leadingIsNull key = .ok true) keys with
    hall | ⟨before, key, after, rfl, hbefore, hkey⟩
  · refine .inl ⟨?_, fun row key hmem => hnull row key (hall key hmem)⟩
    have hfound : firstSetKey l (keys ++ []) = firstSetKey l [] := firstSetKey_append hall
    rwa [List.append_nil] at hfound
  · obtain ⟨row, hrow⟩ := hkeys key (by simp)
    rcases KeyLayout.leadingIsNull_of_encode hparts hrow with ⟨hnot, -⟩ | ⟨hset, hleading⟩
    · exact absurd hnot hkey
    · refine .inr ⟨before, key, after, row, rfl, ?_, hrow, hleading,
        fun other k hk => hnull other k (hbefore k hk)⟩
      rw [firstSetKey_append hbefore, firstSetKey, hset]

/-! ### Stepping inwards -/

/-- Going on from a key to its neighbour as long as the leading column is NULL comes to the given
    end. -/
inductive Inwards (ix : Index) (s : Store) (edge : Edge) :
    Option Bytes → Except Error (Option Bytes) → Prop
  | ended : Inwards ix s edge none (.ok none)
  | found {key : Bytes} (h : ix.layout.leadingIsNull key = .ok false) : Inwards ix s edge (some key)
      (.ok (some key))
  | passed {key : Bytes} {next : Option Bytes} {result : Except Error (Option Bytes)}
      (h : ix.layout.leadingIsNull key = .ok true) (hnext : edge.inward s ix.map key = .ok next)
      (hrest : Inwards ix s edge next result) : Inwards ix s edge (some key) result
  | unreadable {key : Bytes} {e : Error} (h : ix.layout.leadingIsNull key = .error e) :
      Inwards ix s edge (some key) (.error e)
  | lost {key : Bytes} {e : StoreError} (h : ix.layout.leadingIsNull key = .ok true)
      (hnext : edge.inward s ix.map key = .error e) : Inwards ix s edge (some key)
        (.error (.store e))

variable {ix : Index} {s : Store} {m : SortedMap Bytes Bytes} {edge : Edge} {rest : List Bytes}
  {result : Except Error (Option Bytes)}

/-- **The steps come to an end**, which is that of a pass over the keys that are left. -/
theorem inwards_iff (hread : s.read ix.map = .ok m) (hsplit : edge.order m.keys = before ++ rest) :
    ix.Inwards s edge rest.head? result ↔ result = firstSetKey ix.layout rest := by
  induction rest generalizing before with
  | nil =>
    constructor
    · rintro ⟨⟩
      rfl
    · rintro rfl
      exact .ended
  | cons key rest ih =>
    have hnext := edge.inward_eq hread hsplit
    have hsplit' : edge.order m.keys = (before ++ [key]) ++ rest := by rw [hsplit, List.append_cons]
    have hrest := ih hsplit'
    rw [List.head?_cons, firstSetKey]
    rcases hnull : ix.layout.leadingIsNull key with e | _ | _
    case error =>
      constructor
      · rintro (_ | h | ⟨h, -, -⟩ | h | ⟨h, -⟩) <;> cases hnull.symm.trans h
        rfl
      · rintro rfl
        exact .unreadable hnull
    case ok.false =>
      constructor
      · rintro (_ | h | ⟨h, -, -⟩ | h | ⟨h, -⟩) <;> cases hnull.symm.trans h
        rfl
      · rintro rfl
        exact .found hnull
    case ok.true =>
      rw [← hrest]
      constructor
      · rintro (_ | h | ⟨-, hnext', hsteps⟩ | h | ⟨-, hlost⟩)
        · cases hnull.symm.trans h
        · cases hnext.symm.trans hnext'
          exact hsteps
        · cases hnull.symm.trans h
        · cases hnext.symm.trans hlost
      · intro hsteps
        exact .passed hnull hnext hsteps

end Index

/-! ### The cursor -/

namespace Cursor

/-- The cursor is at its end and gives nothing any more. -/
structure Ended (c : Cursor) : Prop where
  exhausted : c.exhausted = true
  key : c.key = none
  searchRow : c.searchRow.1 = .ok none
  advance : ∀ s, c.advance s = (.ok false, c)
  collect : ∀ s, (c.collect s).1 = []
  intoRows : ∀ {σ : Type} (load : RowSource σ) (s : Store) (st : σ),
    c.intoRows load s st = (.ok [], st)

/-- The cursor is on the entry of the row, and on its last.  Read in either way, and whatever has
    become of the store, it gives that entry once; moved, it is at its end. -/
structure Single (c : Cursor) (l : KeyLayout) (row : Row) : Prop where
  iterating : c.exhausted = false
  key : ∃ key, c.key = some key ∧ l.encode row = .ok key
  collect : ∃ search, l.Tells search row ∧ c.searchRow.1 = .ok (some search) ∧
    ∀ s, (c.collect s).1 = [.ok search]
  intoRows : ∀ {σ : Type} (load : RowSource σ) (s : Store) (st : σ),
    c.intoRows load s st = ((load row.id st).1.map ([·]), (load row.id st).2)
  advance : ∀ s, ∃ c', c.advance s = (.ok false, c') ∧ c'.Ended

variable {c : Cursor} {l : KeyLayout} {row : Row} {key : Bytes} {s : Store}

theorem ended_of_exhausted (hexhausted : c.exhausted = true) (hunread : c.unread = false)
    (hkey : c.key = none) (hdecoded : c.decoded = none) : c.Ended := by
  have hstep (s : Store) : c.step s = (.ok false, c) := by
    rw [step, hunread, if_neg Bool.false_ne_true, advance_of_exhausted hexhausted]
  refine ⟨hexhausted, hkey, ?_, advance_of_exhausted hexhausted, ?_, ?_⟩
  · simp only [searchRow, hkey, hdecoded]
  · intro s
    simp only [collect, collect.go, next, hstep]
  · intro _ load s st
    simp only [intoRows, intoRows.go, hstep]

/-- A cursor that has no key ahead is at its end when it moves. -/
theorem advance_of_once (hkeys : c.keys = .once none) (hexhausted : c.exhausted = false)
    (s : Store) :
    ∃ c', c.advance s = (.ok false, c') ∧ c'.Ended := by
  rw [advance, hexhausted, if_neg Bool.false_ne_true, hkeys]
  exact ⟨_, rfl, ended_of_exhausted rfl rfl rfl rfl⟩

/-- What is asked of a cursor that has handed out its last entry makes no difference. -/
theorem step_of_once (hkeys : c.keys = .once none) (hexhausted : c.exhausted = false)
    (hunread : c.unread = false) (s : Store) : ∃ c', c.step s = (.ok false, c') := by
  obtain ⟨c', hadvance, -⟩ := advance_of_once hkeys hexhausted s
  refine ⟨c', ?_⟩
  rw [step, hunread, if_neg Bool.false_ne_true, hadvance]

theorem single_of_on (hlayout : c.layout = l) (hkeys : c.keys = .once none)
    (hexhausted : c.exhausted = false) (hunread : c.unread = true) (hkey : c.key = some key)
    (hrow : l.encode row = .ok key) (hon : c.On l row) :
    c.Single l row := by
  have hstep (s : Store) : c.step s = (.ok true, { c with unread := false }) := by
    rw [step, if_pos hunread]
  have hon' : On { c with unread := false } l row := ⟨hon.loaded, hon.entry⟩
  obtain ⟨search, hsearch, htells⟩ := hon'.searchRow hlayout
  have hsame : c.searchRow.1 = (searchRow { c with unread := false }).1 := by
    simp only [searchRow]
    split
    · split <;> rfl
    · rfl
  have hbound (s : Store) : c.stepBound s = 2 := by
    rw [stepBound, hkeys]
    rfl
  refine ⟨hexhausted, ⟨key, hkey, hrow⟩, ⟨search, htells, ?searchRow, ?collect⟩, ?intoRows,
    advance_of_once hkeys hexhausted⟩
  case searchRow => rw [hsame, hsearch]
  case collect =>
    intro s
    obtain ⟨c', hlast⟩ :=
      step_of_once (c := { c with unread := false, decoded := some search }) hkeys hexhausted rfl s
    simp only [collect, hbound, collect.go, next, hstep, hsearch, hlast, Option.map_some]
  case intoRows =>
    intro σ load s st
    obtain ⟨decoded, hcurrent⟩ := hon'.current_eq load st hlayout
    rcases hload : load row.id st with ⟨e | r, st'⟩
    · rw [hload] at hcurrent
      simp only [intoRows, intoRows.go, hstep, hcurrent]
      rfl
    · rw [hload] at hcurrent
      obtain ⟨c', hlast⟩ :=
        step_of_once (c := { c with unread := false, decoded, loaded := some r }) hkeys
          hexhausted rfl s
      simp only [intoRows, hbound, intoRows.go, hstep, hcurrent, hlast]
      rfl

/-- A cursor that is given one key of a row and has taken it is on its only entry. -/
theorem position_once (hrow : l.encode row = .ok key) (s : Store) :
    ∃ c, (new l (.once (some key)) none).position s = .ok c ∧ c.key = some key ∧
      c.Single l row := by
  obtain ⟨search, hdecode, htells⟩ := KeyLayout.exists_decode hrow
  exact ⟨_, rfl, rfl,
    single_of_on rfl rfl rfl rfl rfl hrow ⟨rfl, key, search, rfl, hdecode, htells, .inl rfl⟩⟩

theorem position_none (l : KeyLayout) (s : Store) :
    ∃ c, (new l (.once none) none).position s = .ok c ∧ c.Ended :=
  ⟨_, rfl, ended_of_exhausted rfl rfl rfl rfl⟩

end Cursor

/-! ### The entry at an end -/

namespace Index

variable {ix : Index} {s : Store} {m : SortedMap Bytes Bytes} {edge : Edge}

/-- Of the rows with a value in the leading column that have an entry, the row has the one that is
    nearest to the end in the order of the index. -/
structure Extreme (ix : Index) (m : SortedMap Bytes Bytes) (edge : Edge) (row : Row) : Prop where
  held : ix.layout.Holds m row
  leading : ix.layout.LeadingSet row
  nearest : ∀ other, ix.layout.Holds m other → ix.layout.LeadingSet other →
    ix.layout.encode other = ix.layout.encode row ∨ edge.facing ix.layout.Precedes row other

/-- **The first key found belongs to the extreme row.** -/
theorem extreme_of_split {before after : List Bytes} {key : Bytes} {row : Row}
    (hsplit : edge.order m.keys = before ++ key :: after) (hrow : ix.layout.encode row = .ok key)
    (hleading : ix.layout.LeadingSet row)
    (hbefore : ∀ other k, k ∈ before → ix.layout.encode other = .ok k →
      ¬ix.layout.LeadingSet other) :
    ix.Extreme m edge row where
  held := by
    have hmem : key ∈ edge.order m.keys := by simp [hsplit]
    exact ⟨key, edge.mem_order.1 hmem, hrow⟩
  leading := hleading
  nearest := by
    rintro other ⟨k, hk, hother⟩ hset
    have hsorted := edge.pairwise_order m.keys_sorted
    rw [hsplit, List.pairwise_append, List.pairwise_cons] at hsorted
    have hk' := edge.mem_order.2 hk
    rw [hsplit, List.mem_append, List.mem_cons] at hk'
    rcases hk' with hk' | rfl | hk'
    · exact absurd hset (hbefore other k hk' hother)
    · exact .inl (hother.trans hrow.symm)
    · have hfacing := hsorted.2.1.1 k hk'
      cases edge with
      | first => exact .inr ((KeyLayout.precedes_iff hrow hother).2 hfacing)
      | last => exact .inr ((KeyLayout.precedes_iff hother hrow).2 hfacing)

theorem findEdge_eq {found : Option Bytes} (hread : s.read ix.map = .ok m)
    (hfound : firstSetKey ix.layout (edge.order m.keys) = .ok found) :
    ix.findEdge s edge = (Cursor.new ix.layout (.once found) none).position s := by
  rw [findEdge, entries, hread, mapError_ok, ok_bind, hfound, ok_bind]

/-- From the end of the index the steps come to the given key, or past all keys, and to nothing
    else. -/
structure Reaches (ix : Index) (s : Store) (edge : Edge) (found : Option Bytes) : Prop where
  comes : ∃ start, edge.outermost s ix.map = .ok start ∧ ix.Inwards s edge start (.ok found)
  only : ∀ start result, edge.outermost s ix.map = .ok start → ix.Inwards s edge start result →
    result = .ok found

theorem reaches_of_firstSetKey {found : Option Bytes} (hread : s.read ix.map = .ok m)
    (hfound : firstSetKey ix.layout (edge.order m.keys) = .ok found) : ix.Reaches s edge found := by
  have hstart := edge.outermost_eq hread
  have hsteps (result : Except Error (Option Bytes)) :
      ix.Inwards s edge (edge.order m.keys).head? result ↔ result = .ok found := by
    rw [← hfound]
    exact inwards_iff hread (List.nil_append _).symm
  refine ⟨⟨_, hstart, (hsteps _).2 rfl⟩, ?_⟩
  intro start result hstart' hinwards
  cases hstart.symm.trans hstart'
  exact (hsteps result).1 hinwards

/-- **The search ends, and on the extreme entry** if there is one with a value in the leading
    column. -/
theorem findEdge_cases (hread : s.read ix.map = .ok m) (hkeys : ix.layout.KeysOfRows m)
    (hparts : ix.layout.parts ≠ []) (edge : Edge) :
    ∃ c, ix.findEdge s edge = .ok c ∧ ix.Reaches s edge c.key ∧
      ((∃ row, ix.Extreme m edge row ∧ c.Single ix.layout row) ∨
        (∀ row, ix.layout.Holds m row → ¬ix.layout.LeadingSet row) ∧ c.Ended) := by
  rcases firstSetKey_cases hparts fun key hkey => hkeys key (edge.mem_order.1 hkey) with
    ⟨hnone, hnull⟩ | ⟨before, key, after, row, hsplit, hfound, hrow, hleading, hbefore⟩
  · obtain ⟨c, hposition, hended⟩ := Cursor.position_none ix.layout s
    refine ⟨c, (findEdge_eq hread hnone).trans hposition, ?_, .inr ⟨?_, hended⟩⟩
    · rw [hended.key]
      exact reaches_of_firstSetKey hread hnone
    · rintro row ⟨key, hkey, hrow⟩
      exact hnull row key (edge.mem_order.2 hkey) hrow
  · obtain ⟨c, hposition, hkey, hsingle⟩ := Cursor.position_once hrow s
    refine ⟨c, (findEdge_eq hread hfound).trans hposition, ?_, .inl ⟨row, ?_, hsingle⟩⟩
    · rw [hkey]
      exact reaches_of_firstSetKey hread hfound
    · exact extreme_of_split hsplit hrow hleading hbefore

/-- **The first and the last entry whose leading column is not NULL.**  In an index on at least one
    column, made on a map of its own and then changed in any way, the search from either end comes
    to an end.  If any entry has a value in the leading column, the cursor is on the extreme one of
    those in the order of the index, and gives it once and nothing else; if none has, the cursor is
    at its end. -/
theorem findEdge_extreme {s s₀ : Store} {d : Descriptor} {columnCount : Nat}
    {config : IndexConfig} {ix : Index} (hfresh : s.hasMap d.mapName = false)
    (hcreate : create s d columnCount config = .ok (ix, s₀)) (hcolumns : d.columns ≠ [])
    (cs : List Change) (edge : Edge) :
    ∃ m c, (ix.performAll s₀ cs).read ix.map = .ok m ∧ ix.layout.KeysOfRows m ∧
      ix.findEdge (ix.performAll s₀ cs) edge = .ok c ∧ ix.Reaches (ix.performAll s₀ cs) edge c.key ∧
      ((∃ row, ix.Extreme m edge row ∧ c.Single ix.layout row) ∨
        (∀ row, ix.layout.Holds m row → ¬ix.layout.LeadingSet row) ∧ c.Ended) := by
  have hfree := Store.hasMap_eq_false_iff.1 hfresh
  obtain ⟨rfl, hmap, hcount, rfl, rfl⟩ := create_eq_ok hfree hcreate
  have hempty : (s.openMap ix.descriptor.mapName).2.read ix.map = .ok .empty := by
    rw [hmap]
    exact Store.read_openMap_made hfree
  have hparts : ix.layout.parts ≠ [] := by
    intro hnil
    exact hcolumns (List.map_eq_nil_iff.1 hnil)
  obtain ⟨m, hread, hm⟩ := (Guarded.empty ix).performAll hempty cs
  obtain ⟨c, hfind, hreaches, hcases⟩ := findEdge_cases hread hm.keysOfRows hparts edge
  exact ⟨m, c, hread, hm.keysOfRows, hfind, hreaches, hcases⟩

/-- The leading column is descending, so that NULL comes last: two entries are passed over from
    there, and of the two that agree in both columns the one of the larger row id is the last. -/
theorem findEdge_extreme_people :
    let d : Descriptor := ⟨⟨1⟩, "by_age", "people", false,
      [⟨.new 1 "age" .integer, .descending⟩, ⟨.new 0 "name" .varchar, .ascending⟩]⟩
    let ix : Index := ⟨d, ⟨0⟩, 2, .default⟩
    let s₀ := (Store.empty.openMap d.mapName).2
    let cs : List Change := [.add ⟨⟨1⟩, [.text "a", .null]⟩, .add ⟨⟨2⟩, [.text "b", .integer 40]⟩,
      .add ⟨⟨3⟩, [.text "c", .integer 10]⟩, .add ⟨⟨4⟩, [.text "d", .null]⟩,
      .add ⟨⟨5⟩, [.text "c", .integer 10]⟩]
    Store.empty.hasMap d.mapName = false ∧ create .empty d 2 .default = .ok (ix, s₀) ∧
      d.columns ≠ [] ∧
      ∃ m c row, (ix.performAll s₀ cs).read ix.map = .ok m ∧
        ix.findEdge (ix.performAll s₀ cs) .last = .ok c ∧
        c.rowId.1 = .ok (some ⟨5⟩) ∧ ix.Extreme m .last row ∧ c.Single ix.layout row := by
  intro d ix s₀ cs
  have hfresh : Store.empty.hasMap d.mapName = false := rfl
  have hcreate : create .empty d 2 .default = .ok (ix, s₀) := rfl
  have hcolumns : d.columns ≠ [] := by decide
  obtain ⟨m, c, hread, -, hfind, -, hcases⟩ := findEdge_extreme hfresh hcreate hcolumns cs .last
  have hid : c.rowId.1 = .ok (some ⟨5⟩) := by
    obtain ⟨c', hfind', hid⟩ : ∃ c, ix.findEdge (ix.performAll s₀ cs) .last = .ok c ∧
        c.rowId.1 = .ok (some ⟨5⟩) :=
      exists_ok_of_any (by decide +kernel)
    cases hfind.symm.trans hfind'
    exact hid
  refine ⟨hfresh, hcreate, hcolumns, m, c, ?_⟩
  rcases hcases with ⟨row, hextreme, hsingle⟩ | ⟨-, hended⟩
  · exact ⟨row, hread, hfind, hid, hextreme, hsingle⟩
  · simp [Cursor.rowId, hended.searchRow] at hid

end Index
end OrderedIndex
