/-
  OrderedIndex/Check/People.lean
  ==============================
  **The people table**, on which checks are run: names, e-mail addresses that no
  two rows share, and ages.
-/
import OrderedIndex.Table.Command

namespace OrderedIndex.People

/-- The name of the index on ages. -/
def ageIndex : String := "people_age"

/-- The name of the unique index on e-mail addresses. -/
def emailIndex : String := "people_email"

def columns : List Column := [
  (Column.new 0 "name" .varchar).notNull,
  (Column.new 1 "email" .varchar).withSelectivity 100,
  (Column.new 2 "age" .integer).withSelectivity 10]

/-- The values of a person. -/
def person (name : String) (email : Option String) (age : Option Int64) : List Value :=
  [.text name, (email.map .text).getD .null, (age.map .integer).getD .null]

/-- The table without rows and indexes. -/
def bare : Session := .fresh ⟨1⟩ "people" columns .default

/-- The table without rows, with both indexes. -/
def indexed : Session := bare.runAll [
  .createIndex ageIndex [("age", .ascending)] false,
  .createIndex emailIndex [("email", .ascending)] true]

/-- The i-th made-up e-mail address. -/
def address (i : Nat) : String := "user" ++ toString i ++ "@example.com"

/-- The i-th made-up person.  Ages go round through 0 to 49, and every fifth person has no e-mail
    address. -/
def sample (i : Nat) : List Value :=
  person ("user" ++ toString i) (if i % 5 = 0 then none else some (address i))
    (some (Int64.ofNat (i % 50)))

/-- The table with both indexes and the first `count` made-up persons. -/
def populated (count : Nat) : Session :=
  indexed.runAll ((List.range count).map fun i => .insert (sample i))

end OrderedIndex.People
