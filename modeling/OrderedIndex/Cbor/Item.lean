/-
  OrderedIndex/Cbor/Item.lean
  ===========================
  **Items of CBOR**, as far as stored rows need them.  Reading is lenient: tags in
  front of an item are passed over, strings may come in chunks, which may nest,
  and integers may be written as byte strings behind the tags 2 and 3.

  No item is shorter than one byte, so the bytes at the beginning of a loop bound
  its rounds; the first argument of each loop counts them down.
-/
import OrderedIndex.Cbor.Header

namespace OrderedIndex.Cbor

/-! ### Headers behind tags -/

/-- The first header that is not a tag. -/
def readItem (bs : Bytes) : Option (Header × Bytes) := go bs bs
where
  go : Bytes → Bytes → Option (Header × Bytes)
    | [], _ => none
    | _ :: rounds, bs =>
      match Header.read bs with
      | some (.tag _, rest) => go rounds rest
      | result => result

/-! ### Strings -/

/-- The two kinds of strings. -/
inductive StringKind
  | bytes
  | text
  deriving DecidableEq

/-- The length of a string of the kind, if the header begins one. -/
def StringKind.length? : StringKind → Header → Option (Option Nat)
  | .bytes, .bytes n => some n
  | .text, .text n => some n
  | _, _ => none

/-- The chunks of a string whose header is read.  A string of definite length is one chunk. -/
def readChunks (kind : StringKind) : Option Nat → Bytes → Option (List Bytes × Bytes)
  | some n, bs => (take? n bs).map fun (chunk, rest) => ([chunk], rest)
  | none, bs => go bs 0 bs
where
  /-- `depth` counts the chunked strings that are open inside the outermost one. -/
  go : Bytes → Nat → Bytes → Option (List Bytes × Bytes)
    | [], _, _ => none
    | _ :: rounds, depth, bs => do
      let (header, rest) ← Header.read bs
      match header, depth with
      | .stop, 0 => return ([], rest)
      | .stop, depth + 1 => go rounds depth rest
      | header, depth =>
        match ← kind.length? header with
        | none => go rounds (depth + 1) rest
        | some n =>
          let (chunk, rest) ← take? n rest
          let (chunks, rest) ← go rounds depth rest
          return (chunk :: chunks, rest)

/-- A text; each of its chunks is UTF-8 by itself. -/
def readText (bs : Bytes) : Option (String × Bytes) := do
  let (header, rest) ← readItem bs
  let length ← StringKind.text.length? header
  let (chunks, rest) ← readChunks .text length rest
  let texts ← chunks.mapM Bytes.ofUtf8?
  return (String.join texts, rest)

/-! ### Integers -/

/-- The number in the byte string behind tag 2 or 3: sixteen bytes at most, not counting zeros in
    front. -/
def readBigNumber (bs : Bytes) : Option (Nat × Bytes) := do
  let (header, rest) ← Header.read bs
  let length ← StringKind.bytes.length? header
  let (chunks, rest) ← readChunks .bytes length rest
  let digits := chunks.flatten.dropWhile (· == 0)
  if digits.length ≤ 16 then return (Bytes.toNat digits, rest) else none

/-- An integer in either form. -/
def readInteger (bs : Bytes) : Option (Int × Bytes) := go bs bs
where
  go : Bytes → Bytes → Option (Int × Bytes)
    | [], _ => none
    | _ :: rounds, bs => do
      let (header, rest) ← Header.read bs
      match header with
      | .positive n => return ((n : Int), rest)
      | .negative n => return (-1 - (n : Int), rest)
      | .tag 2 =>
        let (n, rest) ← readBigNumber rest
        return ((n : Int), rest)
      | .tag 3 =>
        let (n, rest) ← readBigNumber rest
        return (-1 - (n : Int), rest)
      | .tag _ => go rounds rest
      | _ => none

/-! ### Arrays -/

/-- The elements of an array whose header is read. -/
def readElements {α : Type} (element : Bytes → Option (α × Bytes)) :
    Option Nat → Bytes → Option (List α × Bytes)
  | some n, bs => counted n bs
  | none, bs => untilStop bs bs
where
  counted : Nat → Bytes → Option (List α × Bytes)
    | 0, bs => some ([], bs)
    | n + 1, bs => do
      let (a, rest) ← element bs
      let (as, rest) ← counted n rest
      return (a :: as, rest)
  untilStop : Bytes → Bytes → Option (List α × Bytes)
    | [], _ => none
    | _ :: rounds, bs =>
      match Header.read bs with
      | some (.stop, rest) => some ([], rest)
      | _ => do
        let (a, rest) ← element bs
        let (as, rest) ← untilStop rounds rest
        return (a :: as, rest)

end OrderedIndex.Cbor
