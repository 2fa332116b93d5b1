/-
  OrderedIndex/Check/KeyVectors.lean
  ==================================
  **Key vectors** — values with the bytes of their key components.  Keys are kept in
  stores, so their bytes are a format that has to stay; the vectors pin it down, and
  `exportText` writes them as JSON for other readers of the same stores.
-/
import OrderedIndex.Check.Document
import OrderedIndex.Key.Reader

namespace OrderedIndex

/-! ### Vectors -/

/-- A value, and the component it should have in a column. -/
structure KeyVector where
  id : String
  description : String
  value : Value
  direction : Direction
  /-- The hexadecimal digits of the component. -/
  expected : String

namespace KeyVector

def all : List KeyVector := [
  ⟨"null", "NULL", .null, .ascending, "00"⟩,
  ⟨"null_desc", "NULL, descending", .null, .descending, "ff"⟩,
  ⟨"false", "boolean false", .bool false, .ascending, "0100"⟩,
  ⟨"true", "boolean true", .bool true, .ascending, "0101"⟩,
  ⟨"true_desc", "boolean true, descending", .bool true, .descending, "fefe"⟩,
  ⟨"int_0", "integer 0", .integer 0, .ascending, "028000000000000000"⟩,
  ⟨"int_1", "integer 1", .integer 1, .ascending, "028000000000000001"⟩,
  ⟨"int_neg1", "integer -1", .integer (-1), .ascending, "027fffffffffffffff"⟩,
  ⟨"int_min", "smallest integer", .integer Int64.minValue, .ascending, "020000000000000000"⟩,
  ⟨"int_1_desc", "integer 1, descending", .integer 1, .descending, "fd7ffffffffffffffe"⟩,
  ⟨"text_empty", "empty text", .text "", .ascending, "030000"⟩,
  ⟨"text_ab", "text 'ab'", .text "ab", .ascending, "0361620000"⟩,
  ⟨"text_nul", "text with embedded NUL", .text "a\x00b", .ascending, "036100ff620000"⟩,
  ⟨"text_a_desc", "text 'a', descending", .text "a", .descending, "fc9effff"⟩,
  ⟨"bytes_nul", "bytes 00 01", .bytes [0, 1], .ascending, "0400ff010000"⟩]

/-- Row ids and the hexadecimal digits of their bytes. -/
def rowIds : List (RowId × String) := [
  (⟨0⟩, "0000000000000000"),
  (⟨1⟩, "0000000000000001"),
  (⟨256⟩, "0000000000000100"),
  (⟨18446744073709551615⟩, "ffffffffffffffff")]

/-! ### Checking -/

/-- How a vector differs from the component that is written, if it does. -/
def mismatch? (v : KeyVector) : Option String :=
  match Component.write v.direction v.value with
  | .error e => some (v.id ++ ": " ++ e.message)
  | .ok component =>
    let actual := Hex.encode component
    if actual = v.expected then none
    else some (v.id ++ " (" ++ v.description ++ "): expected " ++ v.expected ++ ", got " ++ actual)

/-- How the first wrong row id vector differs from the bytes that are written, if there is one. -/
def rowIdMismatch? : Option String :=
  rowIds.findSome? fun (id, expected) =>
    let actual := Hex.encode (Key.ofRowId id)
    if actual = expected then none
    else some ("row id " ++ toString id.word.toNat ++ ": expected " ++ expected ++
      ", got " ++ actual)

/-! ### Export -/

open Document in
/-- A value under the name of its kind. -/
def valueDocument : Value → Document
  | .null => text "Null"
  | .bool b => record [("Bool", bool b)]
  | .integer n => record [("Integer", number n.toInt)]
  | .text s => record [("Text", text s)]
  | .bytes b => record [("Bytes", list (b.map fun x => number x.toNat))]
  | .clob s => record [("Clob", text s)]
  | .blob b => record [("Blob", list (b.map fun x => number x.toNat))]

def directionName : Direction → String
  | .ascending => "Ascending"
  | .descending => "Descending"

def document (v : KeyVector) : Document :=
  .record [
    ("id", .text v.id),
    ("description", .text v.description),
    ("value", valueDocument v.value),
    ("direction", .text (directionName v.direction)),
    ("expected_hex", .text v.expected)]

/-- All vectors as JSON. -/
def exportText : String :=
  (Document.record [
    ("key", .list (all.map document)),
    ("row_id",
      .list (rowIds.map fun (id, digits) => .list [.number id.word.toNat, .text digits]))]).render 0

end KeyVector
end OrderedIndex
