/-
  OrderedIndex/Value.lean
  =======================
  **Column values** and the types a column can be declared with.

  Values of different types can stand in one column, so the order covers all of
  them: first by type in the order in which the constructors stand below, NULL
  lowest, then by content.  Texts are compared by their UTF-8 form.
-/
import OrderedIndex.Hex

namespace OrderedIndex

/-- The declared type of a column. -/
inductive ColumnType
  | boolean
  | integer
  | varchar
  | varbinary
  /-- Character large object. -/
  | clob
  /-- Binary large object. -/
  | blob
  deriving DecidableEq, Repr

namespace ColumnType

/-- The large-object types, whose values have no key form. -/
def isLargeObject : ColumnType → Bool
  | clob | blob => true
  | _ => false

/-- The name of the type in a column definition. -/
def sqlName : ColumnType → String
  | boolean => "BOOLEAN"
  | integer => "BIGINT"
  | varchar => "VARCHAR"
  | varbinary => "VARBINARY"
  | clob => "CLOB"
  | blob => "BLOB"

/-- The place of the type's values among all values; NULL has place 0. -/
def rank : ColumnType → Nat
  | boolean => 1
  | integer => 2
  | varchar => 3
  | varbinary => 4
  | clob => 5
  | blob => 6

end ColumnType

/-- A column value. -/
inductive Value
  | null
  | bool (b : Bool)
  | integer (n : Int64)
  | text (s : String)
  | bytes (b : Bytes)
  | clob (s : String)
  | blob (b : Bytes)
  deriving DecidableEq, Inhabited

namespace Value

/-- The type the value belongs to; NULL belongs to none. -/
def type? : Value → Option ColumnType
  | null => none
  | bool _ => some .boolean
  | integer _ => some .integer
  | text _ => some .varchar
  | bytes _ => some .varbinary
  | clob _ => some .clob
  | blob _ => some .blob

/-- The name of the value's type. -/
def typeName (v : Value) : String := (v.type?.map ColumnType.sqlName).getD "NULL"

/-- The place of the value's type among all values. -/
def rank (v : Value) : Nat := (v.type?.map ColumnType.rank).getD 0

def isNull (v : Value) : Bool := v.type?.isNone

/-- Whether the value can stand in an index key. -/
def isIndexable (v : Value) : Bool := !(v.type?.any ColumnType.isLargeObject)

/-! ### Contents -/

def bool? : Value → Option Bool
  | bool b => some b
  | _ => none

def integer? : Value → Option Int64
  | integer n => some n
  | _ => none

/-- The characters of a text or a character large object. -/
def text? : Value → Option String
  | text s | clob s => some s
  | _ => none

/-- The bytes of a byte string or a binary large object. -/
def bytes? : Value → Option Bytes
  | bytes b | blob b => some b
  | _ => none

/-! ### Order -/

/-- Values of one type by content, values of different types by rank. -/
protected def compare : Value → Value → Ordering
  | bool a, bool b => Ord.compare a b
  | integer a, integer b => Ord.compare a b
  | text a, text b => Ord.compare (Bytes.utf8 a) (Bytes.utf8 b)
  | bytes a, bytes b => Ord.compare a b
  | clob a, clob b => Ord.compare (Bytes.utf8 a) (Bytes.utf8 b)
  | blob a, blob b => Ord.compare a b
  | a, b => Ord.compare a.rank b.rank

instance : Ord Value := ⟨Value.compare⟩

/-! ### Text -/

/-- The value as messages show it: quotes around characters, without escapes, and hexadecimal digits
    for bytes. -/
def render : Value → String
  | null => "NULL"
  | bool true => "true"
  | bool false => "false"
  | integer n => toString n.toInt
  | text s | clob s => "'" ++ s ++ "'"
  | bytes b | blob b => "X'" ++ Hex.encode b ++ "'"

end Value
end OrderedIndex
