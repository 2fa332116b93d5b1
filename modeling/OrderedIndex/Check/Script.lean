/-
  OrderedIndex/Check/Script.lean
  ==============================
  **Checks on arbitrary bytes**: as operations on a shadowed table, as keys, and as
  stored rows.
-/
import OrderedIndex.Check.Shadow

namespace OrderedIndex

namespace Operation

/-- The e-mail address that a byte stands for: one of seven, or none. -/
def emailOfByte (b : UInt8) : Value :=
  let n := b.toNat % 8
  if n = 0 then .null else .text ("u" ++ toString n ++ "@x.com")

/-- The age that a byte stands for: one from -7 to 7, or none. -/
def ageOfByte (b : UInt8) : Value :=
  let n := b.toNat % 16
  if n = 0 then .null else .integer (Int64.ofInt ((n : Int) - 8))

/-- The operation that three bytes stand for. -/
def ofBytes (op a b : UInt8) : Operation :=
  if op.toNat % 4 = 3 then .delete a.toNat
  else .insert [.text ("p" ++ toString op.toNat), emailOfByte a, ageOfByte b]

/-- The operations that bytes stand for, three bytes each.  Up to two bytes at the end are left
    over. -/
def script : Bytes → List Operation
  | op :: a :: b :: rest => ofBytes op a b :: script rest
  | _ => []

end Operation

namespace Check

/-- Carries out a script on a shadowed table, and verifies the table. -/
def runScript (bs : Bytes) : Except Violation Unit :=
  match Shadow.fresh.applyAll (Operation.script bs) with
  | (.error v, _) => .error v
  | (.ok (), sh) => sh.verifyAll

/-- Whether bytes that can be read as a stored row give the same values once they are written and
    read again. -/
def rereadsRow (bs : Bytes) : Bool :=
  match StoredRow.decode bs with
  | .error _ => true
  | .ok values =>
    match StoredRow.decode (StoredRow.encode values) with
    | .error _ => false
    | .ok again => again == values

/-- A key layout over all people columns, the middle one descending. -/
def peopleLayout : KeyLayout :=
  .ofColumns ((People.columns.zip [.ascending, .descending, .ascending]).map fun (c, d) => ⟨c, d⟩)
    People.columns.length

/-- The text of a key of all people columns, and whether its first column is NULL. -/
def describeKey (bs : Bytes) : Except Error String × Except Error Bool :=
  ((peopleLayout.decode bs).map peopleLayout.describe, peopleLayout.leadingIsNull bs)

end Check
end OrderedIndex
