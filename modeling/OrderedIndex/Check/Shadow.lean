/-
  OrderedIndex/Check/Shadow.lean
  ==============================
  **Shadowed tables** — the people table beside a plain model of its rows.  Each
  operation is carried out on the table and foretold from the model; where the two
  part, it ends in a violation, with what the table has done by then.
-/
import OrderedIndex.Check.People
import OrderedIndex.Table.Scan

namespace OrderedIndex

/-- How a table can part from the model of its rows. -/
inductive Violation
  /-- Some values have none at a column that the model looks at. -/
  | missingValue (column : Nat)
  /-- The table took a value that the model holds already. -/
  | duplicateAccepted (value : Value)
  | insertFailed (e : Error)
  | deleteFailed (e : Error)
  | rowUnreadable (id : RowId) (e : Error)
  | rowDiffers (id : RowId)
  | countUnreadable (e : Error)
  | countDiffers
  | scanFailed (index : String) (e : Error)
  | entryWithoutRow (index : String)
  | indexDiffers (index : String)
  deriving DecidableEq

/-- An operation on the people table that needs no row id: a deletion says the place of a row among
    those that are left. -/
inductive Operation
  | insert (values : List Value)
  | delete (slot : Nat)
  deriving DecidableEq

/-- The people table and what its rows should be. -/
structure Shadow where
  session : Session
  rows : SortedMap RowId (List Value)

namespace Shadow

/-- No rows on either side. -/
def fresh : Shadow := ⟨People.indexed, .empty⟩

/-- Whether the model expects the table to refuse the values, because a row has their e-mail
    address. -/
def expectsDuplicate (sh : Shadow) (values : List Value) : Except Violation Bool :=
  match values[1]? with
  | none => .error (.missingValue 1)
  | some email => .ok (!email.isNull && sh.rows.values.any (fun row => row[1]? == some email))

/-- Inserts a row on both sides; gives its id, or nothing if both refuse it. -/
def insert (sh : Shadow) (values : List Value) : Except Violation (Option RowId) × Shadow :=
  match sh.expectsDuplicate values with
  | .error v => (.error v, sh)
  | .ok duplicate =>
    match sh.session.insert values with
    | (.ok id, session) =>
      if duplicate then (.error (.duplicateAccepted (values.getD 1 .null)), { sh with session })
      else (.ok (some id), ⟨session, sh.rows.insert id values⟩)
    | (.error e, session) =>
      if duplicate && e.isDuplicateKey then (.ok none, { sh with session })
      else (.error (.insertFailed e), { sh with session })

/-- Deletes a row on both sides. -/
def delete (sh : Shadow) (id : RowId) : Except Violation Unit × Shadow :=
  match sh.session.delete id with
  | (.ok _, session) => (.ok (), ⟨session, sh.rows.erase id⟩)
  | (.error e, session) => (.error (.deleteFailed e), { sh with session })

/-- Carries out an operation on both sides.  A deletion counts round the rows; without rows there is
    none. -/
def apply (sh : Shadow) : Operation → Except Violation Unit × Shadow
  | .insert values =>
    let (id, sh) := sh.insert values
    (id.map fun _ => (), sh)
  | .delete slot =>
    match sh.rows.keys[slot % sh.rows.size]? with
    | none => (.ok (), sh)
    | some id => sh.delete id

/-- Carries out operations up to the first violation. -/
def applyAll (sh : Shadow) : List Operation → Except Violation Unit × Shadow
  | [] => (.ok (), sh)
  | op :: ops =>
    match sh.apply op with
    | (.error v, sh) => (.error v, sh)
    | (.ok (), sh) => sh.applyAll ops

/-! ### Verification -/

/-- Checks that a stored row is as the model has it. -/
def verifyRow (sh : Shadow) (id : RowId) (values : List Value) : Except Violation Unit :=
  match sh.session.table.getRow sh.session.store id with
  | .error e => .error (.rowUnreadable id e)
  | .ok row => if row.values = values then .ok () else .error (.rowDiffers id)

/-- Checks that there are as many rows as the model has. -/
def verifyCount (sh : Shadow) : Except Violation Unit :=
  match sh.session.table.size sh.session.store with
  | .error e => .error (.countUnreadable e)
  | .ok n => if n = sh.rows.size then .ok () else .error .countDiffers

/-- The row ids that a scan of the whole index comes by. -/
def scannedIds (sh : Shadow) (index : String) : Except Violation (List RowId) :=
  match sh.session.find index none none with
  | .error e => .error (.scanFailed index e)
  | .ok cursor =>
    (cursor.collect sh.session.store).1.mapM fun
      | .error e => .error (.scanFailed index e)
      | .ok row => row.rowId.elim (.error (.entryWithoutRow index)) .ok

/-- The rows of the model, ordered by the value at a column and then by id. -/
def expectedIds (sh : Shadow) (column : Nat) : Except Violation (List RowId) := do
  let keyed ← sh.rows.entries.mapM fun (id, values) =>
    match values[column]? with
    | none => .error (.missingValue column)
    | some v => .ok (v, id)
  let sorted := keyed.mergeSort fun a b => ((compare a.1 b.1).then (compare a.2 b.2)).isLE
  return sorted.map (·.2)

/-- Checks that a scan of the whole index comes by the rows of the model, ordered by the value at a
    column and then by id. -/
def verifyIndex (sh : Shadow) (index : String) (column : Nat) : Except Violation Unit := do
  let expected ← sh.expectedIds column
  let scanned ← sh.scannedIds index
  if scanned = expected then return () else throw (.indexDiffers index)

/-- Checks every row, their number and both indexes. -/
def verifyAll (sh : Shadow) : Except Violation Unit := do
  for (id, values) in sh.rows.entries do
    sh.verifyRow id values
  sh.verifyCount
  sh.verifyIndex People.ageIndex 2
  sh.verifyIndex People.emailIndex 1

end Shadow
end OrderedIndex
