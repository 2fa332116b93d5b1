/-
  OrderedIndex/Proofs/Index/Cost.lean
  ===================================
  **A condition never makes a scan look dearer.**

  The estimate goes along the columns as long as they have equality conditions.  What a
  run of those comes to depends on one number, the share of distinct values in it: from
  this share follow the rows that are left (`rowsLeft`) and the cost (`costOfRun`), and
  both fall while the share rises.  So the walk over the columns has two kinds of step
  (`narrow_cons`): it ends with a cost that is at most the one so far (`ending?_le`), or
  it goes on with a larger share.

  Two queries that differ in the conditions on one column walk together up to it.  There
  the one without a condition ends, and the other has only lower costs ahead of it.
-/
import Mathlib.Order.MinMax
import OrderedIndex.Index.Cost

namespace OrderedIndex.Cost

/-! ### Lookups -/

theorem lookup_halved {rows : Nat} (h : 0 < rows) : lookup rows = lookup (rows / 2) + 1 := by
  unfold lookup
  rw [if_neg (Nat.ne_of_gt h), Nat.log2_def]
  by_cases htwo : 2 ≤ rows
  · rw [if_pos htwo, if_neg (by omega)]
  · rw [if_neg htwo, if_pos (by omega)]

/-- There are no more halvings than bits. -/
theorem lookup_le {rows : Nat} (h : rows < UInt64.size) : lookup rows ≤ 65 := by
  unfold lookup
  by_cases hzero : rows = 0
  · rw [if_pos hzero]
    decide
  · have hlog : Nat.log2 rows < 64 := (Nat.log2_lt hzero).2 h
    rw [if_neg hzero]
    omega

/-! ### Shares -/

/-- The share of distinct values in the run, with a further column of the given share, in
    percent. -/
def joined (run column : Nat) : Nat := 100 - (100 - run) * (100 - column) / 100

section

variable {run column : Nat}

theorem le_joined (hrun : run ≤ 100) : run ≤ joined run column := by
  have hkept : (100 - run) * (100 - column) / 100 ≤ 100 - run :=
    Nat.div_le_of_le_mul (by rw [Nat.mul_comm 100]; exact Nat.mul_le_mul_left _ (Nat.sub_le _ _))
  unfold joined
  omega

theorem joined_le : joined run column ≤ 100 := Nat.sub_le _ _

theorem joined_pos (hcolumn : 1 ≤ column) : 0 < joined run column := by
  have hkept : (100 - run) * (100 - column) ≤ 100 * 99 := Nat.mul_le_mul (Nat.sub_le _ _) (by omega)
  unfold joined
  omega

theorem joinSelectivity?_eq (hrun : run ≤ 100) (hcolumn : column ≤ 100) :
    joinSelectivity? run column = some (joined run column) := by
  have hkept : (100 - run) * (100 - column) ≤ 100 * 100 :=
    Nat.mul_le_mul (Nat.sub_le _ _) (Nat.sub_le _ _)
  have hword : (100 - run) * (100 - column) < UInt64.size := Nat.lt_of_le_of_lt hkept (by decide)
  have hsub : (100 - run) * (100 - column) / 100 ≤ 100 := by omega
  simp [joinSelectivity?, minus?, word?, hrun, hcolumn, hword, hsub, joined]

theorem clampPercent_bounds (n : UInt8) :
    1 ≤ (Column.clampPercent n).toNat ∧ (Column.clampPercent n).toNat ≤ 100 := by
  unfold Column.clampPercent
  split
  · decide
  · split
    · decide
    · rename_i hone hhundred
      rw [UInt8.lt_iff_toNat_lt] at hone hhundred
      exact ⟨Nat.not_lt.1 hone, Nat.not_lt.1 hhundred⟩

end

/-! ### What a run comes to -/

/-- The rows that are left of `n` by equality conditions on columns with the given share of distinct
    values. -/
def rowsLeft (n share : Nat) : Nat := max (n / max (n * share / 100) 1) 1

/-- The cost of a scan that these conditions narrow; without any it is that of all rows. -/
def costOfRun (n share : Nat) : Nat := if share = 0 then n else lookup n + rowsLeft n share

/-- Numbers of rows on which estimates can be made. -/
structure Sized (n : Nat) : Prop where
  least : rowOffset ≤ n
  most : n * 100 < UInt64.size

variable {n share share' : Nat}

theorem rowsLeft_pos : 1 ≤ rowsLeft n share := Nat.le_max_right _ _

theorem rowsLeft_antitone (n : Nat) (h : share ≤ share') :
    rowsLeft n share' ≤ rowsLeft n share := by
  have hdistinct : max (n * share / 100) 1 ≤ max (n * share' / 100) 1 :=
    max_le_max_right 1 (Nat.div_le_div_right (Nat.mul_le_mul_left n h))
  exact max_le_max_right 1 (Nat.div_le_div_left hdistinct (by omega))

theorem Sized.lookup_le (h : Sized n) : lookup n ≤ 65 := by
  have hmost := h.most
  exact Cost.lookup_le (by omega)

theorem Sized.rowsLeft_zero (h : Sized n) : rowsLeft n 0 = n := by
  have hleast : 1000 ≤ n := h.least
  simp only [rowsLeft, Nat.mul_zero, Nat.zero_div, Nat.zero_max, Nat.div_one]
  omega

theorem Sized.costOfRun_zero : costOfRun n 0 = n := if_pos rfl

theorem costOfRun_of_pos (h : 0 < share) : costOfRun n share = lookup n + rowsLeft n share :=
  if_neg (Nat.ne_of_gt h)

/-- One equality condition on the least selective column leaves at most a tenth of the rows. -/
theorem Sized.rowsLeft_le (h : Sized n) (hshare : 0 < share) : rowsLeft n share ≤ n / 10 := by
  have hleast : 1000 ≤ n := h.least
  have hten : n / max (n * 1 / 100) 1 ≤ n / 10 := Nat.div_le_div_left (by omega) (by decide)
  calc rowsLeft n share ≤ rowsLeft n 1 := rowsLeft_antitone n hshare
    _ ≤ n / 10 := max_le hten (by omega)

theorem Sized.costOfRun_antitone (h : Sized n) (hle : share ≤ share') :
    costOfRun n share' ≤ costOfRun n share := by
  rcases Nat.eq_zero_or_pos share' with rfl | hpos'
  · rw [Nat.le_zero.1 hle]
  rw [costOfRun_of_pos hpos']
  rcases Nat.eq_zero_or_pos share with rfl | hpos
  · -- the first equality condition makes up for the lookup
    have hleast : 1000 ≤ n := h.least
    have hlookup := h.lookup_le
    have hrows := h.rowsLeft_le hpos'
    rw [Sized.costOfRun_zero]
    omega
  · rw [costOfRun_of_pos hpos]
    exact Nat.add_le_add_left (rowsLeft_antitone n hle) _

/-- A bound on a further column costs a lookup, but leaves a third of the rows at most. -/
theorem Sized.lookup_add_le (h : Sized n) {parts : Nat} (hparts : 3 ≤ parts) :
    lookup n + rowsLeft n share / parts ≤ costOfRun n share := by
  rcases Nat.eq_zero_or_pos share with rfl | hpos
  · have hleast : 1000 ≤ n := h.least
    have hlookup := h.lookup_le
    have hthird : n / parts ≤ n / 3 := Nat.div_le_div_left hparts (by decide)
    rw [h.rowsLeft_zero, Sized.costOfRun_zero]
    omega
  · rw [costOfRun_of_pos hpos]
    exact Nat.add_le_add_left (Nat.div_le_self _ _) _

theorem Sized.lookup_succ_le (h : Sized n) : lookup n + 1 ≤ costOfRun n share := by
  rcases Nat.eq_zero_or_pos share with rfl | hpos
  · have hleast : 1000 ≤ n := h.least
    have hlookup := h.lookup_le
    rw [Sized.costOfRun_zero]
    omega
  · rw [costOfRun_of_pos hpos]
    exact Nat.add_le_add_left rowsLeft_pos _

theorem Sized.costOfRun_le (h : Sized n) : costOfRun n share ≤ n :=
  h.costOfRun_antitone (Nat.zero_le share)

theorem Sized.word?_of_le (h : Sized n) {k : Nat} (hk : k ≤ n) : word? k = some k := by
  have hmost := h.most
  exact if_pos (by omega)

/-! ### One column -/

/-- The cost with which an estimate ends at a column; there is none if the run of equality
    conditions goes on. -/
def ending? (unique isLast : Bool) (n share : Nat) (mask : Condition) : Option Nat :=
  if mask.contains .onEquality then
    if unique && isLast then some (lookup n + 1) else none
  else if mask.contains .onRange then some (lookup n + rowsLeft n share / 4)
  else if mask.contains .onLower then some (lookup n + rowsLeft n share / 3)
  else if mask.contains .onUpper then some (rowsLeft n share / 3)
  else some (costOfRun n share)

theorem Sized.ending?_le (h : Sized n) {unique isLast : Bool} {mask : Condition} {cost : Nat}
    (hcost : ending? unique isLast n share mask = some cost) : cost ≤ costOfRun n share := by
  unfold ending? at hcost
  split at hcost
  case isTrue =>
    split at hcost
    · cases hcost
      exact h.lookup_succ_le
    · cases hcost
  case isFalse =>
    split at hcost
    · cases hcost
      exact h.lookup_add_le (by decide)
    split at hcost
    · cases hcost
      exact h.lookup_add_le (by decide)
    split at hcost
    · cases hcost
      exact (Nat.le_add_left _ _).trans (h.lookup_add_le (Nat.le_refl 3))
    · cases hcost
      exact Nat.le_refl _

theorem ending?_none (unique isLast : Bool) (n share : Nat) :
    ending? unique isLast n share .none = some (costOfRun n share) := rfl

/-- The conditions on the column of the given number. -/
def demand (masks : List Condition) (column : Nat) : Condition := masks.getD column .none

/-- The share of a run with one more column. -/
def extended (share : Nat) (c : IndexColumn) : Nat :=
  joined share (Column.clampPercent c.column.selectivity).toNat

variable {unique : Bool} {masks masks' : List Condition} {c : IndexColumn}
  {rest columns : List IndexColumn}

/-- An estimate that has come to a column ends there, or the run of equality conditions goes on. -/
theorem Sized.narrow_cons (h : Sized n) (hshare : share ≤ 100) :
    narrow unique masks n (costOfRun n share) (rowsLeft n share) share (c :: rest) =
      match ending? unique rest.isEmpty n share (demand masks c.column.id) with
      | some cost => some cost
      | none =>
        narrow unique masks n (costOfRun n (extended share c)) (rowsLeft n (extended share c))
          (extended share c) rest := by
  have hle {cost : Nat} (hcost : ending? unique rest.isEmpty n share (demand masks c.column.id) =
      some cost) :
      word? cost = some cost := h.word?_of_le ((h.ending?_le hcost).trans h.costOfRun_le)
  rw [narrow]
  simp only [demand] at hle ⊢
  generalize masks.getD c.column.id .none = mask at hle ⊢
  unfold ending? at hle ⊢
  by_cases hequality : mask.contains .onEquality = true
  · simp only [if_pos hequality] at hle ⊢
    by_cases hpoint : (unique && rest.isEmpty) = true
    · simp only [if_pos hpoint] at hle ⊢
      exact hle rfl
    · -- every step of the arithmetic stays within a word, and the divisor is at least one
      obtain ⟨hone, hhundred⟩ := clampPercent_bounds c.column.selectivity
      have hpos : 0 < extended share c := joined_pos hone
      have hproduct : n * extended share c < UInt64.size :=
        Nat.lt_of_le_of_lt (Nat.mul_le_mul_left n joined_le) h.most
      have hcost : word? (costOfRun n (extended share c)) = some (costOfRun n (extended share c)) :=
        h.word?_of_le h.costOfRun_le
      have hdivisor : max (n * extended share c / 100) 1 ≠ 0 := by omega
      have hrows : over? n (max (n * extended share c / 100) 1) =
          some (n / max (n * extended share c / 100) 1) := if_neg hdivisor
      rw [costOfRun_of_pos hpos, rowsLeft] at hcost
      simp only [if_neg hpoint, joinSelectivity?_eq hshare hhundred, costOfRun_of_pos hpos]
      rw [extended] at hproduct hcost hrows ⊢
      simp only [Option.bind_eq_bind, Option.bind_some, word?, if_pos hproduct, hrows]
      rw [word?] at hcost
      simp only [hcost, Option.bind_some, rowsLeft]
  · simp only [if_neg hequality] at hle ⊢
    by_cases hrange : mask.contains .onRange = true
    · simp only [if_pos hrange] at hle ⊢
      exact hle rfl
    simp only [if_neg hrange] at hle ⊢
    by_cases hlower : mask.contains .onLower = true
    · simp only [if_pos hlower] at hle ⊢
      exact hle rfl
    simp only [if_neg hlower]
    by_cases hupper : mask.contains .onUpper = true
    · simp only [if_pos hupper]
    · simp only [if_neg hupper]

/-! ### All columns -/

/-- **The estimate is made, and it is at most what the run so far comes to.** -/
theorem Sized.exists_narrow (h : Sized n) (unique : Bool) (masks : List Condition)
    (columns : List IndexColumn) (hshare : share ≤ 100) :
    ∃ cost, narrow unique masks n (costOfRun n share) (rowsLeft n share) share columns = some cost ∧
      cost ≤ costOfRun n share := by
  induction columns generalizing share with
  | nil => exact ⟨_, rfl, Nat.le_refl _⟩
  | cons c rest ih =>
    rw [h.narrow_cons hshare]
    cases hend : ending? unique rest.isEmpty n share (demand masks c.column.id) with
    | some cost => exact ⟨cost, rfl, h.ending?_le hend⟩
    | none =>
      have hjoined : extended share c ≤ 100 := joined_le
      obtain ⟨cost, hcost, hle⟩ := ih hjoined
      exact ⟨cost, hcost, hle.trans (h.costOfRun_antitone (le_joined hshare))⟩

/-- The queries differ in one column, on which the first demands nothing. -/
structure Constrains (masks masks' : List Condition) (column : Nat) : Prop where
  free : demand masks column = .none
  same : ∀ other, other ≠ column → demand masks' other = demand masks other

/-- **The conditions on one more column do not raise the estimate.** -/
theorem Sized.narrow_le (h : Sized n) {column cost cost' : Nat}
    (hmasks : Constrains masks masks' column) (hshare : share ≤ 100)
    (hcost : narrow unique masks n (costOfRun n share) (rowsLeft n share) share columns = some cost)
    (hcost' : narrow unique masks' n (costOfRun n share) (rowsLeft n share) share columns =
      some cost') :
    cost' ≤ cost := by
  induction columns generalizing share with
  | nil => exact Nat.le_of_eq (Option.some.inj (hcost'.symm.trans hcost))
  | cons c rest ih =>
    by_cases hc : c.column.id = column
    · -- the query without a condition on the column ends here
      rw [h.narrow_cons hshare, hc, hmasks.free, ending?_none] at hcost
      obtain ⟨most, hmost, hle⟩ := h.exists_narrow unique masks' (c :: rest) hshare
      obtain rfl := Option.some.inj (hcost'.symm.trans hmost)
      obtain rfl := Option.some.inj hcost
      exact hle
    · rw [h.narrow_cons hshare] at hcost hcost'
      rw [hmasks.same _ hc] at hcost'
      cases hend : ending? unique rest.isEmpty n share (demand masks c.column.id) with
      | some last =>
        rw [hend] at hcost hcost'
        exact Nat.le_of_eq (Option.some.inj (hcost'.symm.trans hcost))
      | none =>
        rw [hend] at hcost hcost'
        exact ih joined_le hcost hcost'

theorem Sized.range_eq {rowCount : Nat} (h : Sized (rowCount + rowOffset))
    (columns : List IndexColumn) (unique : Bool) (masks : List Condition) :
    range columns unique (some masks) rowCount =
      narrow unique masks (rowCount + rowOffset) (costOfRun (rowCount + rowOffset) 0)
        (rowsLeft (rowCount + rowOffset) 0) 0 columns := by
  have hmost := h.most
  have hn : min (rowCount + rowOffset) (UInt64.size - 1) = rowCount + rowOffset :=
    Nat.min_eq_left (by omega)
  rw [range, hn, h.rowsLeft_zero, Sized.costOfRun_zero]

/-- **A condition never makes a scan look dearer**, and estimates are safe.  For as many rows as
    words can hold a hundredfold, a lookup takes no more steps than can be counted, every estimate
    is made, without overflow and without a division by zero, and it is at most the number of rows,
    which is the estimate without conditions.  Conditions of any kind on a column that had none do
    not raise it. -/
theorem range_antitone (columns : List IndexColumn) (unique : Bool) (rowCount : Nat)
    (hrows : (rowCount + rowOffset) * 100 < UInt64.size) :
    lookup (rowCount + rowOffset) ≤ 65 ∧
      range columns unique none rowCount = some (rowCount + rowOffset) ∧
      (∀ masks, ∃ cost, range columns unique (some masks) rowCount = some cost ∧
        cost ≤ rowCount + rowOffset) ∧
      ∀ masks masks' column, Constrains masks masks' column → ∃ cost cost',
        range columns unique (some masks) rowCount = some cost ∧
          range columns unique (some masks') rowCount = some cost' ∧ cost' ≤ cost := by
  have h : Sized (rowCount + rowOffset) := ⟨Nat.le_add_left _ _, hrows⟩
  have hdefined (masks : List Condition) :
      ∃ cost, range columns unique (some masks) rowCount = some cost ∧
          cost ≤ rowCount + rowOffset := by
    rw [h.range_eq]
    exact h.exists_narrow unique masks columns (Nat.zero_le _)
  refine ⟨h.lookup_le, ?_, hdefined, ?_⟩
  · have hn : min (rowCount + rowOffset) (UInt64.size - 1) = rowCount + rowOffset :=
      Nat.min_eq_left (by omega)
    exact congrArg some hn
  · intro masks masks' column hmasks
    obtain ⟨cost, hcost, -⟩ := hdefined masks
    obtain ⟨cost', hcost', -⟩ := hdefined masks'
    refine ⟨cost, cost', hcost, hcost', ?_⟩
    rw [h.range_eq] at hcost hcost'
    exact h.narrow_le hmasks (Nat.zero_le _) hcost hcost'

/-- The first two of three columns are one column of the table, whose selectivity is out of bounds;
    the last one gets a lower bound besides. -/
theorem range_antitone_repeated :
    let wide : Column := { Column.new 2 "c" .integer with selectivity := 255 }
    let columns : List IndexColumn := [⟨wide, .ascending⟩, ⟨wide, .descending⟩,
      ⟨.new 0 "a" .varchar, .ascending⟩]
    (500 + rowOffset) * 100 < UInt64.size ∧
      Constrains [.none, .none, .onEquality] [.onLower, .none, .onEquality] 0 ∧
      ∃ cost cost', range columns true (some [.none, .none, .onEquality]) 500 = some cost ∧
        range columns true (some [.onLower, .none, .onEquality]) 500 = some cost' ∧
          cost' ≤ cost := by
  intro wide columns
  have hmasks : Constrains [.none, .none, .onEquality] [.onLower, .none, .onEquality] 0 := by
    refine ⟨rfl, ?_⟩
    intro other hother
    obtain ⟨k, rfl⟩ := Nat.exists_eq_succ_of_ne_zero hother
    rfl
  exact ⟨by decide, hmasks, (range_antitone columns true 500 (by decide)).2.2.2 _ _ 0 hmasks⟩

end OrderedIndex.Cost
