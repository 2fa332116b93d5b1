/-
  OrderedIndex/Check/Workload.lean
  ================================
  **Workloads** on the people table, and tallies of how their operations went.
-/
import OrderedIndex.Check.People
import OrderedIndex.Table.Scan

namespace OrderedIndex

structure Workload where
  operations : Nat
  /-- The number of scanners among which scans are divided. -/
  threads : Nat
  /-- The number of different e-mail addresses. -/
  distinctKeys : Nat

/-- How many operations succeeded and how many failed. -/
structure Tally where
  successful : Nat
  failed : Nat
  deriving DecidableEq

namespace Tally

def zero : Tally := ⟨0, 0⟩

def total (t : Tally) : Nat := t.successful + t.failed

/-- The tally with one more operation. -/
def count (t : Tally) (success : Bool) : Tally :=
  if success then { t with successful := t.successful + 1 } else { t with failed := t.failed + 1 }

end Tally

namespace Workload

/-- The person that the i-th operation inserts. -/
def newcomer (i : Nat) (email : String) : List Value :=
  People.person "u" (some email) (some (Int64.ofNat (i % 100)))

/-- Inserts persons whose e-mail addresses come round after `distinctKeys` of them.  There must be
    addresses to choose from, unless there is nothing to insert. -/
def uniqueInserts (w : Workload) (s : Session) : Option (Tally × Session) :=
  if w.distinctKeys = 0 ∧ w.operations ≠ 0 then none
  else
    some <| (List.range w.operations).foldl (fun (tally, s) i =>
      let (id, s) := s.insert (newcomer i (People.address (i % w.distinctKeys)))
      (tally.count id.isOk, s)) (.zero, s)

/-- The table and the row ids inserted by the workload and not yet deleted, the latest first. -/
structure Progress where
  tally : Tally
  session : Session
  live : List RowId

/-- The i-th operation of `insertDelete`: every third deletes the latest row, the others insert
    one. -/
def insertOrDelete (p : Progress) (i : Nat) : Progress :=
  if i % 3 = 2 then
    match p.live with
    | [] => { p with tally := p.tally.count true }
    | id :: live =>
      let (row, session) := p.session.delete id
      ⟨p.tally.count row.isOk, session, live⟩
  else
    match p.session.insert (newcomer i (People.address i)) with
    | (.ok id, session) => ⟨p.tally.count true, session, id :: p.live⟩
    | (.error _, session) => ⟨p.tally.count false, session, p.live⟩

/-- Inserts and deletes in turn. -/
def insertDelete (w : Workload) (s : Session) : Tally × Session :=
  let p := (List.range w.operations).foldl insertOrDelete ⟨.zero, s, []⟩
  (p.tally, p.session)

/-- Whether ages in a scan never fall and stay within the bounds. -/
def agesInBounds (high : Int64) : Int64 → List (Except Error SearchRow) → Bool
  | _, [] => true
  | previous, entry :: entries =>
    match entry with
    | .error _ => false
    | .ok row =>
      match (row.value? 2).bind Value.integer? with
      | none => false
      | some age => previous ≤ age && age ≤ high && agesInBounds high age entries

/-- Whether a scan of the ages from `low` to `high` is in order and in bounds. -/
def scanInBounds (s : Session) (low high : Int64) : Bool :=
  let bound (age : Int64) := (SearchRow.unset 3).set 2 (.integer age)
  match s.find People.ageIndex (some (bound low)) (some (bound high)) with
  | .error _ => false
  | .ok cursor => agesInBounds high low (cursor.collect s.store).1

/-- Scans ranges of eleven ages.  The scanners share the operations evenly; what cannot be shared is
    left out. -/
def scans (w : Workload) (s : Session) : Tally :=
  let share := w.operations / max w.threads 1
  let lows := (List.range w.threads).flatMap fun t => (List.range share).map fun i =>
    Int64.ofNat ((t + i) % 50)
  lows.foldl (fun tally low => tally.count (scanInBounds s low (low + 10))) .zero

end Workload
end OrderedIndex
