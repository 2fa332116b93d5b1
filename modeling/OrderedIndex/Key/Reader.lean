/-
  OrderedIndex/Key/Reader.lean
  ============================
  **Composite keys** — the components of some values, then the row id as eight
  big-endian bytes.  A `KeyReader` takes a key apart from the front and says how
  much is left after each step; `Key.write` and `Key.read` work on whole keys.
-/
import OrderedIndex.Key.Component
import OrderedIndex.RowId

namespace OrderedIndex

namespace Key

/-- The bytes of a row id.  No direction applies to it. -/
def ofRowId (id : RowId) : Bytes := Bytes.bigEndian 8 id.word.toNat

/-- The key with the component of a value at its end. -/
def pushValue (key : Bytes) (d : Direction) (v : Value) : Except CodecError Bytes :=
  (Component.write d v).map (key ++ ·)

/-- The key with a row id at its end. -/
def pushRowId (key : Bytes) (id : RowId) : Bytes := key ++ ofRowId id

/-- The components of some values, one after the other. -/
def components : List (Direction × Value) → Except CodecError Bytes
  | [] => .ok []
  | (d, v) :: parts => do
    let head ← Component.write d v
    let tail ← components parts
    return head ++ tail

/-- The key of some values and a row id. -/
def write (parts : List (Direction × Value)) (id : RowId) : Except CodecError Bytes :=
  (components parts).map (pushRowId · id)

end Key

/-- A key in the course of being read: how many bytes are consumed, and those that are left. -/
structure KeyReader where
  offset : Nat
  rest : Bytes
  deriving DecidableEq

namespace KeyReader

/-- At the beginning of a key. -/
def start (key : Bytes) : KeyReader := ⟨0, key⟩

/-- The number of bytes left. -/
def remaining (r : KeyReader) : Nat := r.rest.length

/-- The reader at a later place, where `rest` is left. -/
def moveTo (r : KeyReader) (rest : Bytes) : KeyReader :=
  ⟨r.offset + (r.rest.length - rest.length), rest⟩

/-- Reads the component of a column with direction `d`. -/
def readValue (d : Direction) (r : KeyReader) : Except CodecError Value × KeyReader :=
  let (value, rest) := Component.read d r.offset r.rest
  (value, r.moveTo rest)

/-- Reads a row id. -/
def readRowId (r : KeyReader) : Except CodecError RowId × KeyReader :=
  let (word, rest) := Component.readWord r.rest
  (word.map fun n => ⟨UInt64.ofNat n⟩, r.moveTo rest)

/-- Checks that nothing is left. -/
def finish (r : KeyReader) : Except CodecError Unit :=
  if r.rest.isEmpty then .ok () else .error (.trailingBytes r.rest.length)

/-- Reads one value for each direction. -/
def readValues : List Direction → KeyReader → Except CodecError (List Value × KeyReader)
  | [], r => .ok ([], r)
  | d :: ds, r =>
    match r.readValue d with
    | (.error e, _) => .error e
    | (.ok v, r) => (readValues ds r).map fun (vs, r) => (v :: vs, r)

end KeyReader

namespace Key

/-- The values and the row id of a whole key whose columns have the given directions. -/
def read (ds : List Direction) (key : Bytes) : Except CodecError (List Value × RowId) := do
  let (values, r) ← KeyReader.readValues ds (.start key)
  let (id, r) := r.readRowId
  let id ← id
  r.finish
  return (values, id)

/-- The row id of a key that holds nothing else. -/
def toRowId (key : Bytes) : Except CodecError RowId := (read [] key).map (·.2)

/-- The values that can be read from the beginning of some bytes, all in direction `d`, up to the
    first fault or the end. -/
def readableValues (d : Direction) (key : Bytes) : List Value :=
  go key.length (.start key)
where
  go : Nat → KeyReader → List Value
    | 0, _ => []
    | fuel + 1, r =>
      if r.rest.isEmpty then []
      else
        match r.readValue d with
        | (.error _, _) => []
        | (.ok v, r) => v :: go fuel r

end Key
end OrderedIndex
