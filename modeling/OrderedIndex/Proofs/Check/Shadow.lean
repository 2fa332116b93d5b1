/-
  OrderedIndex/Proofs/Check/Shadow.lean
  =====================================
  **The table does what the model says.**

  A shadowed table carries out each operation on the people table and on a plain list of
  its rows.  Here the two are shown not to part.

    * What holds all along is `Shadow.Follows`: the table is in order for the rows of the
      model, and these fit its columns.
    * The model looks through all rows for an e-mail address, and the index for one entry
      next to its key; they come to the same answer (`Follows.insert_cases`).
    * The model sorts values and row ids, and the index sorts keys; a scan comes by the
      rows in the order of the model (`Follows.lists`).

  Each operation keeps that up (`Follows.apply`), so every list of operations does
  (`Follows.applyAll`).  There is one thing that the model does not foresee: after as many
  rows as there are 64-bit words the row ids have run out.
-/
import OrderedIndex.Check.Script
import OrderedIndex.Proofs.Check.People
import OrderedIndex.Proofs.Table.Insert

namespace OrderedIndex

/-- An insertion is of values that fit; a deletion may say any place. -/
def Operation.Fits : Operation → Prop
  | .insert values => People.Fits values
  | .delete _ => True

instance : DecidablePred Operation.Fits
  | .insert values => inferInstanceAs (Decidable (People.Fits values))
  | .delete _ => inferInstanceAs (Decidable True)

namespace Shadow

variable {sh : Shadow} {values : List Value} {id : RowId} {row : Row}

/-- The rows of the model. -/
def modelRows (sh : Shadow) : List Row := sh.rows.entries.map fun e => ⟨e.1, e.2⟩

theorem mem_modelRows {e : RowId × List Value} (he : e ∈ sh.rows.entries) :
    ⟨e.1, e.2⟩ ∈ sh.modelRows :=
  List.mem_map.2 ⟨e, he, rfl⟩

/-- The table has the rows of the model, which fit, and its own definition. -/
structure Follows (sh : Shadow) : Prop where
  sound : sh.session.Sound sh.modelRows
  definition : ∃ last, sh.session.table = { People.indexed.table with lastRowId := last }
  fits : ∀ row ∈ sh.modelRows, People.Fits row.values

theorem follows_fresh : fresh.Follows where
  sound := People.sound_indexed
  definition := ⟨_, rfl⟩
  fits := by
    intro row hrow
    cases hrow

theorem Follows.indexes_eq (h : sh.Follows) :
    sh.session.table.indexes = [People.byAge, People.byEmail] := by
  obtain ⟨last, hlast⟩ := h.definition
  rw [hlast]
  exact People.indexes_indexed

theorem Follows.byAge_mem (h : sh.Follows) : People.byAge ∈ sh.session.table.indexes := by
  simp [h.indexes_eq]

theorem Follows.byEmail_mem (h : sh.Follows) : People.byEmail ∈ sh.session.table.indexes := by
  simp [h.indexes_eq]

theorem Follows.table_fits (h : sh.Follows) :
    sh.session.table.Fits values ↔ People.Fits values := by
  obtain ⟨last, hlast⟩ := h.definition
  rw [hlast]
  rfl

theorem Follows.encodable (h : sh.Follows) {ix : Index} (hix : ix ∈ sh.session.table.indexes)
    (hrow : People.Fits row.values) : ix.layout.Encodable row := by
  obtain ⟨email, age, hemail, hage, hemail', hage'⟩ := People.exists_values hrow
  rw [h.indexes_eq] at hix
  rcases List.mem_cons.1 hix with rfl | hix
  · exact KeyLayout.encodable_of_single People.parts_byAge hage hage'
  · obtain rfl := List.mem_singleton.1 hix
    exact KeyLayout.encodable_of_single People.parts_byEmail hemail hemail'

/-! ### Inserting -/

/-- The values have an e-mail address, and a row of the model has it already. -/
def Taken (sh : Shadow) (values : List Value) : Prop :=
  ∃ email, values[1]? = some email ∧ email ≠ .null ∧ ∃ row ∈ sh.modelRows, row.value? 1 = some email

theorem exists_expectsDuplicate (sh : Shadow) (hfits : People.Fits values) :
    ∃ duplicate, sh.expectsDuplicate values = .ok duplicate ∧
      (duplicate = true ↔ sh.Taken values) := by
  obtain ⟨email, -, hemail, -⟩ := People.exists_values hfits
  have hheld : sh.rows.values.any (fun row => row[1]? == some email) = true ↔
      ∃ row ∈ sh.modelRows, row.value? 1 = some email := by
    simp only [List.any_eq_true, beq_iff_eq, SortedMap.values, modelRows, List.mem_map]
    constructor
    · rintro ⟨_, ⟨e, he, rfl⟩, hvalue⟩
      exact ⟨_, ⟨e, he, rfl⟩, hvalue⟩
    · rintro ⟨_, ⟨e, he, rfl⟩, hvalue⟩
      exact ⟨_, ⟨e, he, rfl⟩, hvalue⟩
  refine ⟨_, by rw [expectsDuplicate, hemail], ?_⟩
  rw [Bool.and_eq_true, Bool.not_eq_true', Bool.eq_false_iff, ne_eq,
    Value.isNull_iff, hheld, Taken, hemail]
  simp only [Option.some.injEq, exists_eq_left']

theorem Follows.not_taken (h : sh.Follows) (hall : ∀ ix ∈ sh.session.table.indexes, ∀ e,
    ¬ix.Refuses sh.modelRows ⟨id, values⟩ e) : ¬sh.Taken values := by
  rintro ⟨email, hemail, hnull, row, hrow, hvalue⟩
  -- no index is in the way, so a row with the address may repeat, and then the address is NULL
  obtain ⟨-, hunique⟩ :=
    (h.sound.not_refuses_iff h.byEmail_mem ⟨id, values⟩).1 (hall _ h.byEmail_mem)
  have hsame : People.byEmail.layout.SameKey row ⟨id, values⟩ :=
    (KeyLayout.sameKey_iff_of_single People.parts_byEmail).2 (hvalue.trans hemail.symm)
  have hpermits := hunique rfl row hrow hsame
  rw [← h.sound.configured _ h.byEmail_mem, People.permits_byEmail_iff] at hpermits
  exact hnull (Option.some.inj (hemail.symm.trans hpermits))

/-- An index refuses a row only as a duplicate, and only for an e-mail address that is taken. -/
theorem Follows.taken_of_refuses (h : sh.Follows) (hfits : People.Fits values) {ix : Index}
    {e : Error} (hix : ix ∈ sh.session.table.indexes)
    (hrefuses : ix.Refuses sh.modelRows ⟨id, values⟩ e) :
    e.isDuplicateKey = true ∧ sh.Taken values := by
  cases hrefuses with
  | noKey hkey =>
    have hencodable : ix.layout.Encodable ⟨id, values⟩ := h.encodable hix hfits
    obtain ⟨key, hkey'⟩ := KeyLayout.exists_encodeAs_iff.2 hencodable
    cases hkey.symm.trans hkey'
  | @duplicate r _ hunique hr hforbids _ =>
    refine ⟨rfl, ?_⟩
    -- only the index on e-mail addresses is unique
    have hemail : ix = People.byEmail := by
      rw [h.indexes_eq, List.mem_cons, List.mem_singleton] at hix
      rcases hix with rfl | rfl
      · cases hunique
      · rfl
    subst hemail
    obtain ⟨email, -, hvalue, -⟩ := People.exists_values hfits
    obtain ⟨hsame, hpermits⟩ := hforbids
    rw [KeyLayout.sameKey_iff_of_single People.parts_byEmail] at hsame
    have hrvalue : r.value? 1 = some email := hsame.symm.trans hvalue
    refine ⟨email, hvalue, ?_, r, hr, hrvalue⟩
    rintro rfl
    exact hpermits (People.permits_byEmail_iff.2 hrvalue)

/-- **The table accepts or refuses values as the model expects.** -/
theorem Follows.insert_cases (h : sh.Follows) (hfits : People.Fits values)
    (hid : sh.session.table.lastRowId.next? = some id) :
    (sh.expectsDuplicate values = .ok false ∧ ∃ store,
        sh.session.insert values = (.ok id, ⟨store, { sh.session.table with lastRowId := id }⟩) ∧
        Session.Sound ⟨store, { sh.session.table with lastRowId := id }⟩
          (sh.modelRows ++ [⟨id, values⟩])) ∨
      sh.expectsDuplicate values = .ok true ∧
        ∃ e, e.isDuplicateKey = true ∧ sh.session.insert values = (.error e, sh.session) := by
  obtain ⟨duplicate, hexpects, htaken⟩ := sh.exists_expectsDuplicate hfits
  rw [hexpects]
  rcases h.sound.insert_cases (h.table_fits.2 hfits) hid with
    ⟨hall, store, hinsert, hsound⟩ | ⟨before, ix, after, e, hsplit, -, hrefuses, hinsert⟩
  · have hfree : duplicate = false := Bool.eq_false_of_not_eq_true (mt htaken.1 (h.not_taken hall))
    exact .inl ⟨congrArg Except.ok hfree, store, hinsert, hsound⟩
  · obtain ⟨he, hheld⟩ := h.taken_of_refuses hfits (by simp [hsplit]) hrefuses
    exact .inr ⟨congrArg Except.ok (htaken.2 hheld), e, he, hinsert⟩

/-- The new row comes last in the model, too. -/
theorem Follows.modelRows_insert (h : sh.Follows)
    (hid : sh.session.table.lastRowId.next? = some id) (session : Session) :
    modelRows ⟨session, sh.rows.insert id values⟩ = sh.modelRows ++ [⟨id, values⟩] := by
  have hlast : ∀ e ∈ sh.rows.entries, compare e.1 id = .lt := by
    intro e he
    exact h.sound.compare_next hid _ (mem_modelRows he)
  show (SortedMap.insertEntry id values sh.rows.entries).map _ = _
  rw [SortedMap.insertEntry_of_forall_lt hlast, List.map_append]
  rfl

/-- The table with a further row is followed by the model with this row. -/
theorem Follows.inserted (h : sh.Follows) (hfits : People.Fits values)
    (hid : sh.session.table.lastRowId.next? = some id) {store : Store}
    (hsound : Session.Sound ⟨store, { sh.session.table with lastRowId := id }⟩
      (sh.modelRows ++ [⟨id, values⟩])) :
    Follows ⟨⟨store, { sh.session.table with lastRowId := id }⟩, sh.rows.insert id values⟩ := by
  refine ⟨?_, ?_, ?_⟩
  · rw [h.modelRows_insert hid]
    exact hsound
  · obtain ⟨last, hlast⟩ := h.definition
    exact ⟨id, by rw [hlast]⟩
  · rw [h.modelRows_insert hid, List.forall_mem_append]
    exact ⟨h.fits, by simpa using hfits⟩

theorem Follows.insert (h : sh.Follows) (hfits : People.Fits values)
    (hid : sh.session.table.lastRowId.next? = some id) :
    ∃ inserted sh', sh.insert values = (.ok inserted, sh') ∧ sh'.Follows ∧
      (sh'.session.table.lastRowId = sh.session.table.lastRowId ∨
        sh'.session.table.lastRowId = id) := by
  rcases h.insert_cases hfits hid with
    ⟨hexpects, store, hinsert, hsound⟩ | ⟨hexpects, e, he, hinsert⟩
  · refine ⟨some id, ⟨⟨store, { sh.session.table with lastRowId := id }⟩, sh.rows.insert id values⟩,
      ?_, h.inserted hfits hid hsound, .inr rfl⟩
    rw [Shadow.insert, hexpects]
    simp only [hinsert, Bool.false_eq_true, if_false]
  · refine ⟨none, sh, ?_, h, .inl rfl⟩
    rw [Shadow.insert, hexpects]
    simp only [hinsert, he, Bool.and_self, if_true]

theorem Follows.insert_exhausted (h : sh.Follows) (hfits : People.Fits values)
    (hid : sh.session.table.lastRowId.next? = none) :
    sh.insert values = (.error (.insertFailed (.rowIdsExhausted "people")), sh) := by
  obtain ⟨duplicate, hexpects, -⟩ := sh.exists_expectsDuplicate hfits
  have hname : sh.session.table.name = "people" := by
    obtain ⟨last, hlast⟩ := h.definition
    rw [hlast]
    rfl
  have hinsert := Session.insert_of_exhausted (h.table_fits.2 hfits) hid
  rw [Shadow.insert, hexpects]
  simp only [hinsert, hname, Error.isDuplicateKey, Bool.and_false, Bool.false_eq_true, if_false]

/-! ### Deleting -/

theorem modelRows_erase (sh : Shadow) (id : RowId) (session : Session) :
    modelRows ⟨session, sh.rows.erase id⟩ = sh.modelRows.filter (·.id ≠ id) := by
  show (sh.rows.entries.filter _).map _ = _
  rw [modelRows, List.filter_map]
  congr 2
  funext e
  rw [Bool.eq_iff_iff]
  simp

/-- **Every row of the model can be deleted.** -/
theorem Follows.delete (h : sh.Follows) (hrow : row ∈ sh.modelRows) :
    ∃ store, sh.session.delete row.id = (.ok row, { sh.session with store }) ∧
      sh.delete row.id = (.ok (), ⟨{ sh.session with store }, sh.rows.erase row.id⟩) ∧
      Follows ⟨{ sh.session with store }, sh.rows.erase row.id⟩ := by
  obtain ⟨store, hdelete, hsound⟩ := h.sound.delete_of_mem hrow
  have hrows := sh.modelRows_erase row.id { sh.session with store }
  refine ⟨store, hdelete, ?_, ?_, h.definition, ?_⟩
  · rw [Shadow.delete, hdelete]
  · rw [hrows]
    exact hsound
  · rw [hrows]
    intro r hr
    exact h.fits r (List.mem_filter.1 hr).1

/-! ### Operations -/

/-- **An operation that fits keeps table and model together**, unless the row ids have run out. -/
theorem Follows.apply (h : sh.Follows) {op : Operation} (hop : op.Fits) :
    (∃ sh', sh.apply op = (.ok (), sh') ∧ sh'.Follows ∧
        sh'.session.table.lastRowId.word.toNat ≤ sh.session.table.lastRowId.word.toNat + 1) ∨
      sh.apply op = (.error (.insertFailed (.rowIdsExhausted "people")), sh) ∧
        sh.session.table.lastRowId.next? = none := by
  cases op with
  | insert values =>
    rcases hid : sh.session.table.lastRowId.next? with _ | id
    · right
      rw [Shadow.apply, h.insert_exhausted hop hid]
      exact ⟨rfl, rfl⟩
    · left
      obtain ⟨inserted, sh', hinsert, hfollows, hlast⟩ := h.insert hop hid
      refine ⟨sh', ?_, hfollows, ?_⟩
      · rw [Shadow.apply, hinsert]
        rfl
      · have hnext := RowId.next?_eq_some_iff.1 hid
        rcases hlast with hlast | hlast <;> rw [hlast] <;> omega
  | delete slot =>
    left
    rw [Shadow.apply]
    rcases hslot : sh.rows.keys[slot % sh.rows.size]? with _ | id
    · exact ⟨sh, rfl, h, Nat.le_succ _⟩
    · obtain ⟨values, hvalues⟩ := SortedMap.mem_keys.1 (List.mem_of_getElem? hslot)
      obtain ⟨store, -, hdelete, hfollows⟩ := h.delete (mem_modelRows hvalues)
      exact ⟨_, hdelete, hfollows, Nat.le_succ _⟩

/-- **Every list of operations that fit keeps table and model together.** -/
theorem Follows.applyAll (h : sh.Follows) {ops : List Operation} (hops : ∀ op ∈ ops, op.Fits) :
    (sh.applyAll ops).2.Follows ∧
      ((sh.applyAll ops).1 = .ok () ∨
        (sh.applyAll ops).1 = .error (.insertFailed (.rowIdsExhausted "people")) ∧
        UInt64.size ≤ sh.session.table.lastRowId.word.toNat + ops.length) ∧
      (sh.applyAll ops).2.session.table.lastRowId.word.toNat ≤
        sh.session.table.lastRowId.word.toNat + ops.length := by
  induction ops generalizing sh with
  | nil => exact ⟨h, .inl rfl, Nat.le_refl _⟩
  | cons op ops ih =>
    obtain ⟨hop, hops⟩ := List.forall_mem_cons.1 hops
    rw [Shadow.applyAll, List.length_cons]
    rcases h.apply hop with ⟨sh', happly, hfollows, hlast⟩ | ⟨happly, hnone⟩
    · rw [happly]
      obtain ⟨hfollows', hresult, hlast'⟩ := ih hfollows hops
      refine ⟨hfollows', hresult.imp_right ?_, ?_⟩
      · rintro ⟨hexhausted, hle⟩
        exact ⟨hexhausted, by omega⟩
      · show (sh'.applyAll ops).2.session.table.lastRowId.word.toNat ≤ _
        omega
    · rw [happly]
      have hsize := RowId.size_le_of_next?_eq_none hnone
      exact ⟨h, .inr ⟨rfl, by omega⟩, Nat.le_add_right _ _⟩

/-! ### Verification -/

/-- What the model sorts a row by. -/
def listing (column : Nat) (row : Row) : Value × RowId := ((row.value? column).getD .null, row.id)

/-- The order in which the model sorts. -/
def order : Value × RowId → Value × RowId → Ordering :=
  compareLex (compareOn Prod.fst) (compareOn Prod.snd)

instance : Std.TransCmp order :=
  inferInstanceAs (Std.TransCmp (compareLex (compareOn Prod.fst) (compareOn Prod.snd)))

theorem order_swap (a b : Value × RowId) : order a b = (order b a).swap := Std.OrientedCmp.eq_swap

theorem eq_of_order {a b : Value × RowId} (h : order a b = .eq) : a = b := by
  obtain ⟨hvalue, hid⟩ := Ordering.then_eq_eq.1 h
  exact Prod.ext (Std.LawfulEqOrd.eq_of_compare hvalue) (Std.LawfulEqOrd.eq_of_compare hid)

/-- A list that is in order is what sorting its elements gives. -/
theorem mergeSort_eq {l l' : List (Value × RowId)} (hl : l.Pairwise fun a b => order a b = .lt)
    (hperm : l'.Perm l) :
    l'.mergeSort (fun a b => (order a b).isLE) = l := by
  have hsorted :
      (l'.mergeSort fun a b => (order a b).isLE).Pairwise fun a b => (order a b).isLE = true := by
    apply List.pairwise_mergeSort
    · intro a b c
      exact Std.TransCmp.isLE_trans
    · intro a b
      rw [order_swap b a]
      cases order a b <;> rfl
  have hl' : l.Pairwise fun a b => (order a b).isLE = true := by
    apply hl.imp
    intro a b hlt
    rw [hlt]
    rfl
  refine ((List.mergeSort_perm l' _).trans hperm).eq_of_pairwise ?_ hsorted hl'
  intro a b _ _ hab hba
  rw [order_swap b a] at hba
  apply eq_of_order
  revert hab hba
  cases order a b <;> simp

/-- A scan of the whole index comes by the rows of the model, ordered by the value at a column and
    then by id. -/
def Lists (sh : Shadow) (index : String) (column : Nat) : Prop :=
  ∃ rows : List Row, rows.Perm sh.modelRows ∧
    (rows.map (listing column)).Pairwise (fun a b => order a b = .lt) ∧
    sh.scannedIds index = .ok (rows.map (·.id))

theorem scannedIds_eq {ix : Index} {c : Cursor} {result : List Row}
    (hfind : sh.session.find ix.name none none = .ok c)
    (hout : sh.session.HandsOut c ix.layout result) :
    sh.scannedIds ix.name = .ok (result.map (·.id)) := by
  obtain ⟨searches, hcollect, htells⟩ := hout.iterator
  rw [scannedIds, hfind]
  simp only [hcollect]
  rw [mapM_eq_ok_iff, List.forall₂_map_left_iff, List.forall₂_map_right_iff]
  apply htells.imp
  intro search row h
  simp only [h.rowId, Option.elim_some]

theorem Follows.exists_value (h : sh.Follows) {ix : Index} {column : Nat}
    (hix : ix ∈ sh.session.table.indexes) (hparts : ix.layout.parts = [⟨column, .ascending⟩])
    (hrow : row ∈ sh.modelRows) :
    ∃ v, row.value? column = some v := by
  obtain ⟨v, hv, -⟩ := h.encodable hix (h.fits row hrow) ⟨column, .ascending⟩ (by simp [hparts])
  exact ⟨v, hv⟩

/-- An index on one column puts its keys in the order in which the model sorts. -/
theorem Follows.lists (h : sh.Follows) {ix : Index} {column : Nat}
    (hix : ix ∈ sh.session.table.indexes) (hparts : ix.layout.parts = [⟨column, .ascending⟩]) :
    sh.Lists ix.name column := by
  have hlower : ∀ low ∈ (none : Option SearchRow), ∃ key, ix.layout.probe low = .ok key := by simp
  obtain ⟨c, result, hfind, hsorted, hmem, hout⟩ := h.sound.find_within none hix hlower
  have hrows (r : Row) : r ∈ result ↔ r ∈ sh.modelRows := by
    rw [hmem, KeyLayout.InBounds]
    simp
  have hlisted : (result.map (listing column)).Pairwise fun a b => order a b = .lt := by
    rw [List.pairwise_map]
    apply hsorted.imp_of_mem
    intro a b ha hb hab
    obtain ⟨v, hv⟩ := h.exists_value hix hparts ((hrows a).1 ha)
    obtain ⟨w, hw⟩ := h.exists_value hix hparts ((hrows b).1 hb)
    rw [KeyLayout.precedes_iff_of_single hparts hv hw] at hab
    simp only [listing, hv, hw, Option.getD_some]
    exact hab
  have hnodup : result.Nodup := by
    rw [List.pairwise_map] at hlisted
    apply hlisted.imp
    rintro a _ hlt rfl
    have heq : order (listing column a) (listing column a) = .eq := Std.ReflCmp.compare_self
    rw [heq] at hlt
    cases hlt
  refine ⟨result, ?_, hlisted, scannedIds_eq hfind hout⟩
  exact (List.perm_ext_iff_of_nodup hnodup (nodup_of_pairwise h.sound.idsIncrease)).2 hrows

theorem expectedIds_eq {column : Nat}
    (hcolumn : ∀ row ∈ sh.modelRows, ∃ v, row.value? column = some v) :
    sh.expectedIds column =
      .ok (((sh.modelRows.map (listing column)).mergeSort fun a b => (order a b).isLE).map
        (·.2)) := by
  unfold expectedIds
  refine bind_eq_ok_iff.2 ⟨sh.modelRows.map (listing column), ?_, rfl⟩
  rw [mapM_eq_ok_iff, modelRows, List.map_map, List.forall₂_map_right_iff, List.forall₂_same]
  intro e he
  obtain ⟨v, hv⟩ := hcolumn _ (mem_modelRows he)
  have hv' : e.2[column]? = some v := hv
  simp only [hv', Function.comp_apply, listing, hv, Option.getD_some]

theorem Follows.verifyIndex (h : sh.Follows) {ix : Index} {column : Nat}
    (hix : ix ∈ sh.session.table.indexes) (hparts : ix.layout.parts = [⟨column, .ascending⟩]) :
    sh.verifyIndex ix.name column = .ok () := by
  obtain ⟨rows, hperm, hlisted, hscanned⟩ := h.lists hix hparts
  have hexpected : sh.expectedIds column = .ok (rows.map (·.id)) := by
    rw [expectedIds_eq fun row hrow => h.exists_value hix hparts hrow,
      mergeSort_eq hlisted (hperm.symm.map _), List.map_map]
    rfl
  rw [Shadow.verifyIndex, hexpected, ok_bind, hscanned, ok_bind, if_pos rfl]
  rfl

theorem Follows.verifyRow (h : sh.Follows) {e : RowId × List Value} (he : e ∈ sh.rows.entries) :
    sh.verifyRow e.1 e.2 = .ok () := by
  obtain ⟨m, hread, hm⟩ := h.sound.stored
  have hget := Table.getRow_of_mem hread hm (mem_modelRows he)
  rw [Shadow.verifyRow, hget]
  exact if_pos rfl

theorem Follows.verifyCount (h : sh.Follows) : sh.verifyCount = .ok () := by
  obtain ⟨m, hread, hm⟩ := h.sound.stored
  rw [Shadow.verifyCount, Table.size_of_stores hread hm, modelRows, List.length_map]
  exact if_pos rfl

/-- **Verification succeeds** as long as the table follows the model. -/
theorem Follows.verifyAll (h : sh.Follows) : sh.verifyAll = .ok () := by
  have hage := h.verifyIndex h.byAge_mem People.parts_byAge
  have hemail := h.verifyIndex h.byEmail_mem People.parts_byEmail
  rw [People.name_byAge] at hage
  rw [People.name_byEmail] at hemail
  have hrows := forIn_eq_ok fun e (he : e ∈ sh.rows.entries) => h.verifyRow he
  rw [Shadow.verifyAll]
  simp only [hrows, h.verifyCount, hage, hemail, ok_bind]

/-! ### Agreement -/

/-- The table does what the model says. -/
structure Agrees (sh : Shadow) : Prop where
  /-- The rows are those of the model. -/
  rows_eq : sh.session.table.rows sh.session.store = .ok sh.modelRows
  lists_ages : sh.Lists People.ageIndex 2
  lists_emails : sh.Lists People.emailIndex 1
  verified : sh.verifyAll = .ok ()
  /-- Values that fit go in exactly if the model expects no duplicate, as long as there are row
      ids. -/
  insert : ∀ values id, People.Fits values → sh.session.table.lastRowId.next? = some id →
    (sh.expectsDuplicate values = .ok false ∧
      ∃ session, sh.session.insert values = (.ok id, session)) ∨
      sh.expectsDuplicate values = .ok true ∧
        ∃ e, e.isDuplicateKey = true ∧ sh.session.insert values = (.error e, sh.session)
  /-- Every row of the model can be deleted. -/
  delete : ∀ row ∈ sh.modelRows, ∃ session, sh.session.delete row.id = (.ok row, session)

theorem Follows.agrees (h : sh.Follows) : sh.Agrees where
  rows_eq := h.sound.rows_eq
  lists_ages := by
    rw [← People.name_byAge]
    exact h.lists h.byAge_mem People.parts_byAge
  lists_emails := by
    rw [← People.name_byEmail]
    exact h.lists h.byEmail_mem People.parts_byEmail
  verified := h.verifyAll
  insert := by
    intro values id hfits hid
    rcases h.insert_cases hfits hid with ⟨hexpects, store, hinsert, -⟩ | hrefused
    · exact .inl ⟨hexpects, _, hinsert⟩
    · exact .inr hrefused
  delete := by
    intro row hrow
    obtain ⟨store, hdelete, -⟩ := h.delete hrow
    exact ⟨_, hdelete⟩

end Shadow

/-! ### Scripts -/

namespace Operation

/-- Three bytes stand for a deletion, or for a person. -/
theorem fits_ofBytes (op a b : UInt8) : (ofBytes op a b).Fits := by
  rw [ofBytes]
  split
  case isTrue => trivial
  case isFalse =>
    apply People.fits_iff.2
    refine ⟨"p" ++ toString op.toNat,
      if a.toNat % 8 = 0 then none else some ("u" ++ toString (a.toNat % 8) ++ "@x.com"),
      if b.toNat % 16 = 0 then none else some (Int64.ofInt ((b.toNat % 16 : Nat) - 8)), ?_⟩
    rw [emailOfByte, ageOfByte, People.person]
    split <;> split <;> rfl

theorem fits_script (bs : Bytes) : ∀ op ∈ script bs, op.Fits := by
  fun_induction script bs with
  | case1 op a b rest ih => exact List.forall_mem_cons.2 ⟨fits_ofBytes op a b, ih⟩
  | case2 bs => simp

theorem length_script (bs : Bytes) : 3 * (script bs).length ≤ bs.length := by
  fun_induction script bs with
  | case1 op a b rest ih => simp only [List.length_cons]; omega
  | case2 bs => exact Nat.zero_le _

end Operation

namespace Shadow

/-- **The table does what the model says.**  After any operations on persons, the table has the rows
    of the model, scans of both indexes come by them in order, and persons go in or are refused as
    the model expects.  Nothing goes wrong on the way, and no script does, until there have been as
    many insertions as there are row ids. -/
theorem agrees_applyAll :
    (∀ ops : List Operation, (∀ op ∈ ops, op.Fits) →
      (fresh.applyAll ops).2.Agrees ∧
        ((fresh.applyAll ops).1 = .ok () ∨
          (fresh.applyAll ops).1 = .error (.insertFailed (.rowIdsExhausted "people")) ∧
            UInt64.size ≤ ops.length) ∧
        ((fresh.applyAll ops).2.session.table.lastRowId.next? = none →
          UInt64.size ≤ ops.length + 1)) ∧
    ∀ bs, Check.runScript bs = .ok () ∨ 3 * UInt64.size ≤ bs.length := by
  have hmin : fresh.session.table.lastRowId.word.toNat = 0 := rfl
  constructor
  · intro ops hops
    obtain ⟨hfollows, hresult, hlast⟩ := follows_fresh.applyAll hops
    rw [hmin, Nat.zero_add] at hresult hlast
    refine ⟨hfollows.agrees, hresult, ?_⟩
    intro hnone
    have hsize := RowId.size_le_of_next?_eq_none hnone
    omega
  · intro bs
    obtain ⟨hfollows, hok | ⟨-, hle⟩, -⟩ := follows_fresh.applyAll (Operation.fits_script bs)
    · left
      rw [Check.runScript, ← Prod.eta (fresh.applyAll (Operation.script bs)), hok]
      exact hfollows.verifyAll
    · right
      have hlength := Operation.length_script bs
      omega

/-- The second e-mail address is refused, persons without one are not, and the deletion comes round
    to the first row. -/
theorem agrees_applyAll_people :
    let ops : List Operation := [.insert (People.person "a" (some "a@x.com") (some 30)),
      .insert (People.person "b" (some "a@x.com") (some 31)), .insert (People.person "c" none none),
      .insert (People.person "d" none (some 1)), .delete 3]
    (∀ op ∈ ops, op.Fits) ∧ (fresh.applyAll ops).2.Agrees ∧ (fresh.applyAll ops).1 = .ok () ∧
      (fresh.applyAll ops).2.modelRows =
        [⟨⟨2⟩, People.person "c" none none⟩, ⟨⟨3⟩, People.person "d" none (some 1)⟩] := by
  intro ops
  have hops : ∀ op ∈ ops, op.Fits := by decide
  obtain ⟨hagrees, hresult, -⟩ := agrees_applyAll.1 ops hops
  have hok : (fresh.applyAll ops).1 = .ok () :=
    hresult.resolve_right fun h => absurd h.2 (by decide)
  have hrows : (fresh.applyAll ops).2.modelRows =
      [⟨⟨2⟩, People.person "c" none none⟩, ⟨⟨3⟩, People.person "d" none (some 1)⟩] := by
    decide +kernel
  exact ⟨hops, hagrees, hok, hrows⟩

end Shadow
end OrderedIndex
