/-
  OrderedIndex/StoredRow.lean
  ===========================
  **The stored form of a row's values**: a CBOR array with one item a value.  NULL
  is the text `Null`; any other value is a map with one entry, from a label that
  says the type to the content.  Bytes are written as an array of integers.  What is
  longer than a header can say is written with indefinite length, a text then one
  character at a time, so every row has a stored form.

  `decode` reads more than `encode` writes: labels may be byte strings, a value may
  stand behind a bare label, and bytes may be written as a byte string.  Whatever
  follows the row is not looked at.
-/
import OrderedIndex.Cbor.Item
import OrderedIndex.CodecError

namespace OrderedIndex.StoredRow

open Cbor

/-- What stands in front of a stored value. -/
inductive Label
  | null
  | bool
  | integer
  | text
  | bytes
  | clob
  | blob
  deriving DecidableEq

namespace Label

def all : List Label := [null, bool, integer, text, bytes, clob, blob]

def name : Label → String
  | null => "Null"
  | bool => "Bool"
  | integer => "Integer"
  | text => "Text"
  | bytes => "Bytes"
  | clob => "Clob"
  | blob => "Blob"

/-- The label with the given name in UTF-8. -/
def ofName? (name : Bytes) : Option Label := all.find? (fun l => Bytes.utf8 l.name == name)

end Label

/-! ### Writing -/

/-- An array of items that are written already. -/
def writeArray (items : List Bytes) : Bytes :=
  if items.length < Bytes.capacity 8 then Header.write 4 items.length ++ items.flatten
  else Header.writeIndefinite 4 ++ items.flatten ++ [Header.stopByte]

/-- A string of characters in one piece. -/
def writeChunk (s : String) : Bytes := Header.write 3 (Bytes.utf8 s).length ++ Bytes.utf8 s

def writeText (s : String) : Bytes :=
  if (Bytes.utf8 s).length < Bytes.capacity 8 then writeChunk s
  else Header.writeIndefinite 3 ++ s.toList.flatMap (fun c => writeChunk c.toString) ++
    [Header.stopByte]

def writeInteger (n : Int) : Bytes :=
  if 0 ≤ n then Header.write 0 n.toNat else Header.write 1 (-1 - n).toNat

def writeBytes (b : Bytes) : Bytes := writeArray (b.map fun x => Header.write 0 x.toNat)

def writeBool (b : Bool) : Bytes := Header.write 7 (if b then 21 else 20)

/-- A labelled content. -/
def writeEntry (l : Label) (content : Bytes) : Bytes :=
  Header.write 5 1 ++ writeText l.name ++ content

def writeValue : Value → Bytes
  | .null => writeText Label.null.name
  | .bool b => writeEntry .bool (writeBool b)
  | .integer n => writeEntry .integer (writeInteger n.toInt)
  | .text s => writeEntry .text (writeText s)
  | .bytes b => writeEntry .bytes (writeBytes b)
  | .clob s => writeEntry .clob (writeText s)
  | .blob b => writeEntry .blob (writeBytes b)

/-- The stored form of some values. -/
def encode (values : List Value) : Bytes := writeArray (values.map writeValue)

/-! ### Reading -/

def readBool (bs : Bytes) : Option (Bool × Bytes) := do
  let (header, rest) ← readItem bs
  match header with
  | .simple 20 => return (false, rest)
  | .simple 21 => return (true, rest)
  | _ => none

/-- An integer of 64 bits. -/
def readInt64 (bs : Bytes) : Option (Int64 × Bytes) := do
  let (n, rest) ← readInteger bs
  if Int64.minValue.toInt ≤ n ∧ n ≤ Int64.maxValue.toInt then return (Int64.ofInt n, rest) else none

/-- An integer of one byte. -/
def readByte (bs : Bytes) : Option (UInt8 × Bytes) := do
  let (n, rest) ← readInteger bs
  if 0 ≤ n ∧ n < 256 then return (UInt8.ofNat n.toNat, rest) else none

/-- An array of integers of one byte, or a byte string. -/
def readBytes (bs : Bytes) : Option (Bytes × Bytes) := do
  let (header, rest) ← readItem bs
  match header with
  | .array length => readElements readByte length rest
  | .bytes length =>
    let (chunks, rest) ← readChunks .bytes length rest
    return (chunks.flatten, rest)
  | _ => none

/-- The value behind a label.  NULL has no content. -/
def readContent (l : Label) (bs : Bytes) : Option (Value × Bytes) :=
  match l with
  | .null => some (.null, bs)
  | .bool => (readBool bs).map fun (b, rest) => (.bool b, rest)
  | .integer => (readInt64 bs).map fun (n, rest) => (.integer n, rest)
  | .text => (readText bs).map fun (s, rest) => (.text s, rest)
  | .bytes => (readBytes bs).map fun (b, rest) => (.bytes b, rest)
  | .clob => (readText bs).map fun (s, rest) => (.clob s, rest)
  | .blob => (readBytes bs).map fun (b, rest) => (.blob b, rest)

/-- The label whose header is read: a text or a byte string in one piece. -/
def readLabel (header : Header) (bs : Bytes) : Option (Label × Bytes) := do
  let length ← match header with
    | .text length => length
    | .bytes length => length
    | _ => none
  let (name, rest) ← take? length bs
  let l ← Label.ofName? name
  return (l, rest)

/-- A labelled value, as a map of one entry or behind a bare text. -/
def readValue (bs : Bytes) : Option (Value × Bytes) := do
  let (header, rest) ← readItem bs
  let (l, rest) ← match header with
    | .map (some 1) => do
      let (header, rest) ← readItem rest
      readLabel header rest
    | .text length => readLabel (.text length) rest
    | _ => none
  readContent l rest

/-- The values of a row: an array, or a byte string without bytes for no values. -/
def readValues (bs : Bytes) : Option (List Value × Bytes) := do
  let (header, rest) ← readItem bs
  match header with
  | .array length => readElements readValue length rest
  | .bytes length =>
    let (chunks, rest) ← readChunks .bytes length rest
    if chunks.flatten.isEmpty then return ([], rest) else none
  | _ => none

/-- The values that some bytes store. -/
def decode (bs : Bytes) : Except CodecError (List Value) :=
  match readValues bs with
  | some (values, _) => .ok values
  | none => .error .malformedRow

end OrderedIndex.StoredRow
