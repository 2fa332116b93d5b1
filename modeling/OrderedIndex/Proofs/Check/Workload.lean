/-
  OrderedIndex/Proofs/Check/Workload.lean
  =======================================
  **The tally of unique insertions is exact.**

  The workload inserts persons whose e-mail addresses come round.  An address is accepted
  when it comes for the first time, unless one of the persons who were there before has it.
  So what the table has to remember is which of the made-up addresses are in it
  (`Session.Counts`): an insertion adds its address, or it finds it there and changes
  nothing (`Counts.insert`).

  A table gives out no more row ids than there are 64-bit words.  An insertion that comes
  after them is refused as well, and the tally says so.
-/
import OrderedIndex.Check.Workload
import OrderedIndex.Proofs.Check.Shadow

namespace OrderedIndex

theorem People.address_inj {i j : Nat} (h : address i = address j) : i = j := by
  have hlist := congrArg String.toList h
  simp only [address, String.toList_append, List.append_assoc, List.append_cancel_left_eq,
    List.append_cancel_right_eq, Nat.toString_eq_repr, Nat.toList_repr] at hlist
  have hread := congrArg (Nat.ofDigitChars 10 · 0) hlist
  simpa only [Nat.ofDigitChars_toDigits (b := 10) (by decide) (by decide)] using hread

/-- Which made-up address a person has. -/
theorem People.email_eq_iff {name : String} {key : Option Nat} {age : Option Int64} {k : Nat} :
    (person name (key.map address) age)[1]? = some (.text (address k)) ↔ k ∈ key := by
  cases key with
  | none => simp [person]
  | some j =>
    simp only [person, Option.map_some, Option.getD_some, List.getElem?_cons_succ,
      List.getElem?_cons_zero, Option.some.injEq, Value.text.injEq, Option.mem_def]
    exact ⟨address_inj, congrArg address⟩

/-- The address of a person is taken if a row has it. -/
theorem Shadow.taken_person {sh : Shadow} {name : String} {key : Option Nat} {age : Option Int64} :
    sh.Taken (People.person name (key.map People.address) age) ↔
      ∃ k ∈ key, ∃ row ∈ sh.modelRows, row.value? 1 = some (.text (People.address k)) := by
  cases key with
  | none => simp [Taken, People.person]
  | some k => simp [Taken, People.person]

namespace Session

variable {s : Session} {n p : Nat} {held : Nat → Prop}

/-- The table has `n` rows, which have taken the first `n` row ids, and of the made-up addresses it
    has those held. -/
def Counts (s : Session) (n : Nat) (held : Nat → Prop) : Prop :=
  ∃ rows, Shadow.Follows ⟨s, rows⟩ ∧ (Shadow.modelRows ⟨s, rows⟩).length = n ∧
    s.table.lastRowId.word.toNat = n ∧
    ∀ k, (∃ row ∈ Shadow.modelRows ⟨s, rows⟩, row.value? 1 = some (.text (People.address k))) ↔
      held k

theorem Counts.congr (h : s.Counts n held) {held' : Nat → Prop} (hheld : ∀ k, held k ↔ held' k) :
    s.Counts n held' := by
  obtain ⟨rows, hfollows, hlength, hlast, hmem⟩ := h
  exact ⟨rows, hfollows, hlength, hlast, fun k => (hmem k).trans (hheld k)⟩

/-- A person whose address is a made-up one, if there is any, is inserted unless the address is held
    or the row ids have run out. -/
theorem Counts.insert (h : s.Counts n held) (name : String) (key : Option Nat)
    (age : Option Int64) :
    (n + 1 < UInt64.size ∧ (∀ k ∈ key, ¬held k) ∧
        ∃ id s', s.insert (People.person name (key.map People.address) age) = (.ok id, s') ∧
          s'.Counts (n + 1) fun k => held k ∨ k ∈ key) ∨
      (UInt64.size ≤ n + 1 ∨ ∃ k ∈ key, held k) ∧
        ∃ e, s.insert (People.person name (key.map People.address) age) = (.error e, s) := by
  obtain ⟨rows, hfollows, hlength, hlast, hheld⟩ := h
  have hfits : People.Fits (People.person name (key.map People.address) age) :=
    People.fits_iff.2 ⟨_, _, _, rfl⟩
  rcases hid : s.table.lastRowId.next? with _ | id
  · have hsize := RowId.size_le_of_next?_eq_none hid
    rw [hlast] at hsize
    exact .inr ⟨.inl hsize, _, insert_of_exhausted (hfollows.table_fits.2 hfits) hid⟩
  · have hnext : id.word.toNat = n + 1 := by rw [RowId.next?_eq_some_iff.1 hid, hlast]
    obtain ⟨duplicate, hexpects, hduplicate⟩ := Shadow.exists_expectsDuplicate ⟨s, rows⟩ hfits
    rw [Shadow.taken_person] at hduplicate
    simp only [hheld] at hduplicate
    rcases hfollows.insert_cases hfits hid with
      ⟨hfree, store, hinsert, hsound⟩ | ⟨htaken, e, -, hinsert⟩
    · cases hexpects.symm.trans hfree
      refine .inl ⟨hnext ▸ id.word.toNat_lt, ?_, id, _, hinsert, _,
        hfollows.inserted hfits hid hsound, ?_, hnext, ?_⟩
      · intro k hk hheld'
        exact Bool.false_ne_true (hduplicate.2 ⟨k, hk, hheld'⟩)
      · rw [hfollows.modelRows_insert hid, List.length_append, hlength]
        rfl
      · intro k
        rw [hfollows.modelRows_insert hid]
        simp only [List.mem_append, List.mem_singleton, or_and_right, exists_or,
          exists_eq_left, hheld]
        exact or_congr_right People.email_eq_iff
    · cases hexpects.symm.trans htaken
      exact .inr ⟨.inr (hduplicate.1 rfl), e, hinsert⟩

/-- As many entries are in the indexes as rows are in the table. -/
theorem Counts.sizes (h : s.Counts n held) : s.table.size s.store = .ok n ∧
    ∀ name ∈ [People.ageIndex, People.emailIndex], ∃ ix, s.table.index name = .ok ix ∧
      ix.size s.store = .ok n := by
  obtain ⟨rows, hfollows, hlength, -, -⟩ := h
  obtain ⟨rows', hrows, hsize, hindexes⟩ := hfollows.sound.inStep
  cases hrows.symm.trans hfollows.sound.rows_eq
  rw [hlength] at hsize hindexes
  have hcounted {ix : Index} (hix : ix ∈ s.table.indexes) :
      ∃ ix', s.table.index ix.name = .ok ix' ∧ ix'.size s.store = .ok n := by
    obtain ⟨-, -, -, -, -, hcount⟩ := hindexes ix hix
    exact ⟨ix, hfollows.sound.index_eq hix, hcount⟩
  refine ⟨hsize, ?_⟩
  rw [List.forall_mem_cons, List.forall_mem_singleton]
  exact ⟨hcounted hfollows.byAge_mem, hcounted hfollows.byEmail_mem⟩

end Session

/-! ### The persons who are there before -/

/-- Every fifth person has no address. -/
theorem People.sample_eq (i : Nat) : sample i =
    person ("user" ++ toString i) ((if i % 5 = 0 then none else some i).map address)
      (some (Int64.ofNat (i % 50))) := by
  rw [sample]
  split <;> rfl

theorem People.populated_succ (p : Nat) :
    populated (p + 1) = ((populated p).insert (sample p)).2 := by
  rw [populated, List.range_succ, List.map_append]
  simp only [Session.runAll, List.foldl_append, populated]
  rfl

theorem People.counts_populated {p : Nat} (hp : p < UInt64.size) :
    (populated p).Counts p fun k => k < p ∧ k % 5 ≠ 0 := by
  induction p with
  | zero =>
    exact ⟨.empty, Shadow.follows_fresh, rfl, rfl, fun k => by
      simp [Shadow.modelRows, SortedMap.empty]⟩
  | succ p ih =>
    rw [populated_succ, sample_eq]
    rcases (ih (Nat.lt_of_succ_lt hp)).insert ("user" ++ toString p)
      (if p % 5 = 0 then none else some p)
      (some (Int64.ofNat (p % 50))) with
        ⟨-, -, id, s', hinsert, hcounts⟩ | ⟨hsize | ⟨k, hk, hheld⟩, -⟩
    · rw [hinsert]
      apply hcounts.congr
      intro k
      split <;> simp <;> omega
    · omega
    · exfalso
      split at hk
      · cases hk
      · cases hk
        omega

/-! ### Addresses that come round -/

theorem Tally.total_count (tally : Tally) (success : Bool) :
    (tally.count success).total = tally.total + 1 := by
  cases success <;> simp only [Tally.count, Tally.total, if_true,
    Bool.false_eq_true, if_false] <;> omega

namespace Workload

/-- How many of the first `n` addresses, which come round after `keys` of them, none of the first
    `p` made-up persons has. -/
def fresh (keys p n : Nat) : Nat := (List.range (min n keys)).countP fun j => p ≤ j ∨ j % 5 = 0

/-- The tally and the table after `n` insertions. -/
def inserting (keys : Nat) (s : Session) (n : Nat) : Tally × Session :=
  (List.range n).foldl (fun (tally, s) i =>
    let (id, s) := s.insert (newcomer i (People.address (i % keys)))
    (tally.count id.isOk, s)) (.zero, s)

variable {keys p n : Nat} {s : Session}

theorem uniqueInserts_eq {w : Workload} (h : 1 ≤ w.distinctKeys) (s : Session) :
    w.uniqueInserts s = some (inserting w.distinctKeys s w.operations) :=
  if_neg fun hnone => absurd hnone.1 (Nat.ne_of_gt h)

theorem inserting_succ (keys : Nat) (s : Session) (n : Nat) :
    inserting keys s (n + 1) =
      let (id, s') := (inserting keys s n).2.insert (newcomer n (People.address (n % keys)))
      ((inserting keys s n).1.count id.isOk, s') := by
  rw [inserting, List.range_succ, List.foldl_append]
  rfl

/-- The next address is new, or it has come round, or one of the persons who were there before has
    it. -/
theorem fresh_succ_cases (keys p n : Nat) :
    (n < keys ∧ (p ≤ n ∨ n % 5 = 0) ∧ fresh keys p (n + 1) = fresh keys p n + 1) ∨
      (keys ≤ n ∨ n < keys ∧ n < p ∧ n % 5 ≠ 0) ∧ fresh keys p (n + 1) = fresh keys p n := by
  unfold fresh
  rcases Nat.lt_or_ge n keys with hlt | hge
  · rw [Nat.min_eq_left hlt, Nat.min_eq_left (Nat.le_of_lt hlt),
      List.range_succ, List.countP_append, List.countP_singleton]
    by_cases hnew : p ≤ n ∨ n % 5 = 0
    · exact .inl ⟨hlt, hnew, by rw [if_pos (decide_eq_true hnew)]⟩
    · refine .inr ⟨.inr ⟨hlt, by omega, by omega⟩, ?_⟩
      rw [if_neg (by rwa [decide_eq_true_iff]), Nat.add_zero]
  · rw [Nat.min_eq_right hge, Nat.min_eq_right (Nat.le_succ_of_le hge)]
    exact .inr ⟨.inl hge, rfl⟩

/-- The tally counts the addresses that are new, up to the last row id. -/
structure Exact (keys p n : Nat) (tally : Tally) (s : Session) : Prop where
  total : tally.total = n
  successful : tally.successful = min (fresh keys p n) (UInt64.size - 1 - p)
  counts : ∃ held, s.Counts (p + tally.successful) held ∧
    (p + fresh keys p n < UInt64.size → ∀ k, held k ↔ k < p ∧ k % 5 ≠ 0 ∨ k < min n keys)

variable {tally : Tally}

theorem Exact.insert (h : Exact keys p n tally s) (hkeys : 1 ≤ keys) (hp : p < UInt64.size)
    {s' : Session} {result : Except Error RowId}
    (hinsert : s.insert (newcomer n (People.address (n % keys))) = (result, s')) :
    Exact keys p (n + 1) (tally.count result.isOk) s' := by
  obtain ⟨htotal, hsuccessful, held, hcounts, hheld⟩ := h
  have hmod : n < keys ∧ n % keys = n ∨ keys ≤ n ∧ n % keys < keys := by
    rcases Nat.lt_or_ge n keys with hlt | hge
    · exact .inl ⟨hlt, Nat.mod_eq_of_lt hlt⟩
    · exact .inr ⟨hge, Nat.mod_lt _ hkeys⟩
  have hfresh := fresh_succ_cases keys p n
  rcases hcounts.insert "u" (some (n % keys)) (some (Int64.ofNat (n % 100))) with
    ⟨hroom, hfree, id, s'', hok, hcounts'⟩ | ⟨hrefused, e, herror⟩
  · cases hinsert.symm.trans hok
    -- there is room, so none of the ids have been missed, and the address is new
    have hknown := hheld (by omega)
    have hnot : ¬held (n % keys) := hfree _ rfl
    rw [hknown] at hnot
    have hnew : n % keys = n ∧ fresh keys p (n + 1) = fresh keys p n + 1 := by omega
    refine ⟨?total, ?successful, _, hcounts', ?held⟩
    case total => rw [Tally.total_count, htotal]
    case successful =>
      show tally.successful + 1 = _
      omega
    case held =>
      intro _ k
      rw [hknown, Option.mem_some_iff]
      omega
  · cases hinsert.symm.trans herror
    -- the address is not new, or the last row id has been given out
    have hold : fresh keys p (n + 1) = fresh keys p n ∨ UInt64.size ≤ p + fresh keys p n + 1 := by
      rcases hrefused with hsize | ⟨k, hk, hk'⟩
      · omega
      · obtain rfl := Option.mem_some_iff.1 hk
        by_cases hroom : p + fresh keys p n < UInt64.size
        · rw [hheld hroom] at hk'
          omega
        · omega
    refine ⟨?total, ?successful, held, hcounts, ?held⟩
    case total => rw [Tally.total_count, htotal]
    case successful =>
      show tally.successful = _
      omega
    case held =>
      intro hroom k
      rw [hheld (by omega)]
      omega

theorem exact_inserting (hkeys : 1 ≤ keys) (hp : p < UInt64.size) (n : Nat) :
    Exact keys p n (inserting keys (People.populated p) n).1
      (inserting keys (People.populated p) n).2 := by
  induction n with
  | zero =>
    refine ⟨rfl, ?_, _, People.counts_populated hp, ?_⟩
    · show 0 = _
      simp [fresh]
    · intro _ k
      simp
  | succ n ih =>
    rw [inserting_succ]
    exact ih.insert hkeys hp rfl

/-- **The tally of unique insertions is exact.**  On a table with the first `p` made-up persons, as
    many insertions succeed as there are addresses among those that come round which none of these
    persons has, as long as there are row ids; all others are reported as failed.  In the end the
    table and both of its indexes have the rows that were there and one for each insertion that
    succeeded. -/
theorem uniqueInserts_populated (w : Workload) (hkeys : 1 ≤ w.distinctKeys) (p : Nat)
    (hp : p < UInt64.size) :
    (People.populated p).table.size (People.populated p).store = .ok p ∧
      ∃ tally s, w.uniqueInserts (People.populated p) = some (tally, s) ∧
        tally.successful = min (fresh w.distinctKeys p w.operations) (UInt64.size - 1 - p) ∧
        tally.failed = w.operations - tally.successful ∧
        s.table.size s.store = .ok (p + tally.successful) ∧
        ∀ name ∈ [People.ageIndex, People.emailIndex], ∃ ix, s.table.index name = .ok ix ∧
          ix.size s.store = .ok (p + tally.successful) := by
  obtain ⟨htotal, hsuccessful, held, hcounts, -⟩ := exact_inserting hkeys hp w.operations
  refine ⟨(People.counts_populated hp).sizes.1, _, _, uniqueInserts_eq hkeys _,
    hsuccessful, ?_, hcounts.sizes⟩
  exact Nat.eq_sub_of_add_eq' htotal

/-- Nine addresses come round in twelve insertions.  Of the seven persons who are there two have
    none, so four of the nine addresses are new. -/
theorem uniqueInserts_populated_seven :
    let w : Workload := ⟨12, 1, 9⟩
    1 ≤ w.distinctKeys ∧ 7 < UInt64.size ∧
      ∃ s, w.uniqueInserts (People.populated 7) = some (⟨4, 8⟩, s) ∧ s.table.size s.store = .ok 11 ∧
        ∀ name ∈ [People.ageIndex, People.emailIndex], ∃ ix, s.table.index name = .ok ix ∧
          ix.size s.store = .ok 11 := by
  intro w
  obtain ⟨-, ⟨successful, failed⟩, s, hinserts, hsuccessful, hfailed, hsize, hindexes⟩ :=
    uniqueInserts_populated w (by decide) 7 (by decide)
  obtain rfl : successful = 4 := hsuccessful
  obtain rfl : failed = 8 := hfailed
  exact ⟨by decide, by decide, s, hinserts, hsize, hindexes⟩

end Workload
end OrderedIndex
