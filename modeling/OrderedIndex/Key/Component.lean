/-
  OrderedIndex/Key/Component.lean
  ===============================
  **Key components** — one value as bytes, so that comparing the bytes compares
  the values.

  A tag that grows with the type's rank comes first.  An integer follows as eight
  big-endian bytes of its distance from the smallest one.  Texts and byte strings
  follow byte by byte, a zero byte as `00 ff`, closed by `00 00`, so the end of a
  content comes before any continuation of it and no component begins another.
  A descending column complements the whole component.

  Reading gives back the bytes it did not consume, also when it fails: a byte is
  consumed as soon as it is looked at.
-/
import OrderedIndex.CodecError
import OrderedIndex.Direction

namespace OrderedIndex.Component

def nullTag : UInt8 := 0x00
def boolTag : UInt8 := 0x01
def integerTag : UInt8 := 0x02
def textTag : UInt8 := 0x03
def bytesTag : UInt8 := 0x04

/-- What follows a zero byte of a content. -/
def escapeMark : UInt8 := 0xff

/-! ### Writing -/

/-- A content with its zero bytes marked and its end closed. -/
def escape : Bytes → Bytes
  | [] => [0, 0]
  | b :: bs => if b = 0 then 0 :: escapeMark :: escape bs else b :: escape bs

/-- The distance of an integer from the smallest one. -/
def distance (n : Int64) : Nat := (n.toInt - Int64.minValue.toInt).toNat

/-- The component of an ascending column. -/
def ascending : Value → Except CodecError Bytes
  | .null => .ok [nullTag]
  | .bool b => .ok [boolTag, if b then 1 else 0]
  | .integer n => .ok (integerTag :: Bytes.bigEndian 8 (distance n))
  | .text s => .ok (textTag :: escape (Bytes.utf8 s))
  | .bytes b => .ok (bytesTag :: escape b)
  | .clob _ => .error (.notIndexable .clob)
  | .blob _ => .error (.notIndexable .blob)

/-- The component of a column with direction `d`. -/
def write (d : Direction) (v : Value) : Except CodecError Bytes := (ascending v).map d.orient

/-! ### Reading -/

def readByte : Bytes → Except CodecError UInt8 × Bytes
  | [] => (.error .unexpectedEnd, [])
  | b :: rest => (.ok b, rest)

/-- Eight big-endian bytes as a number. -/
def readWord (bs : Bytes) : Except CodecError Nat × Bytes :=
  if bs.length < 8 then (.error .unexpectedEnd, [])
  else (.ok (Bytes.toNat (bs.take 8)), bs.drop 8)

/-- A content up to its close, the marks taken out. -/
def readEscaped : Bytes → Except CodecError Bytes × Bytes
  | [] => (.error .unexpectedEnd, [])
  | b :: rest =>
    if b = 0 then
      match rest with
      | [] => (.error .unexpectedEnd, [])
      | mark :: rest =>
        if mark = escapeMark then
          let (content, rest) := readEscaped rest
          (content.map (0 :: ·), rest)
        else if mark = 0 then (.ok [], rest)
        else (.error (.invalidEscape mark), rest)
    else
      let (content, rest) := readEscaped rest
      (content.map (b :: ·), rest)

/-- What follows a tag; `offset` is where the tag stands in the key. -/
def readPayload (offset : Nat) (tag : UInt8) (bs : Bytes) : Except CodecError Value × Bytes :=
  if tag = nullTag then (.ok .null, bs)
  else if tag = boolTag then
    let (byte, rest) := readByte bs
    (byte.bind fun b =>
      if b = 0 then .ok (.bool false) else if b = 1 then .ok (.bool true)
        else .error (.invalidBoolean b), rest)
  else if tag = integerTag then
    let (word, rest) := readWord bs
    (word.map fun n => .integer (Int64.ofInt (Int64.minValue.toInt + n)), rest)
  else if tag = textTag then
    let (content, rest) := readEscaped bs
    (content.bind fun c => (Bytes.ofUtf8? c).elim (.error .invalidUtf8) (fun s => .ok (.text s)),
      rest)
  else if tag = bytesTag then
    let (content, rest) := readEscaped bs
    (content.map .bytes, rest)
  else (.error (.unknownTag tag offset), bs)

/-- One component of an ascending column. -/
def readAscending (offset : Nat) : Bytes → Except CodecError Value × Bytes
  | [] => (.error .unexpectedEnd, [])
  | tag :: rest => readPayload offset tag rest

/-- One component of a column with direction `d`. -/
def read (d : Direction) (offset : Nat) (bs : Bytes) : Except CodecError Value × Bytes :=
  let (value, rest) := readAscending offset (d.orient bs)
  (value, d.orient rest)

end OrderedIndex.Component
