/-
  OrderedIndex/Cbor/Header.lean
  =============================
  **Item headers of CBOR**: the major type of an item and the argument that goes
  with it.  A header is written in its shortest form and read in any width.
-/
import OrderedIndex.Bytes

namespace OrderedIndex.Cbor

/-- The beginning of an item.  A length that is absent is indefinite: the content ends at a
    `stop`. -/
inductive Header
  | positive (n : Nat)
  /-- The integer `-1 - n`. -/
  | negative (n : Nat)
  | bytes (length : Option Nat)
  | text (length : Option Nat)
  | array (length : Option Nat)
  | map (length : Option Nat)
  | tag (n : Nat)
  | simple (n : Nat)
  | float
  | stop
  deriving DecidableEq

/-- The first `n` bytes and the rest. -/
def take? : Nat → Bytes → Option (Bytes × Bytes)
  | 0, bs => some ([], bs)
  | _ + 1, [] => none
  | n + 1, b :: bs => (take? n bs).map fun (front, rest) => (b :: front, rest)

namespace Header

/-! ### Writing -/

/-- The header of major type `major` with argument `n`, in the shortest form. -/
def write (major n : Nat) : Bytes :=
  let initial (info : Nat) := UInt8.ofNat (32 * major + info)
  if n < 24 then [initial n]
  else if n < Bytes.capacity 1 then initial 24 :: Bytes.bigEndian 1 n
  else if n < Bytes.capacity 2 then initial 25 :: Bytes.bigEndian 2 n
  else if n < Bytes.capacity 4 then initial 26 :: Bytes.bigEndian 4 n
  else initial 27 :: Bytes.bigEndian 8 n

/-- The header of major type `major` without a length. -/
def writeIndefinite (major : Nat) : Bytes := [UInt8.ofNat (32 * major + 31)]

/-- What ends a content of indefinite length. -/
def stopByte : UInt8 := 0xff

/-! ### Reading -/

/-- The argument that the low five bits of an initial byte announce; `none` inside stands for no
    argument. -/
def readArgument (info : Nat) (bs : Bytes) : Option (Option Nat × Bytes) :=
  if info < 24 then some (some info, bs)
  else if info < 28 then
    (take? (1 <<< (info - 24)) bs).map fun (number, rest) => (some (Bytes.toNat number), rest)
  else if info = 31 then some (none, bs)
  else none

/-- The header of a major type with an argument. -/
def ofParts? (major info : Nat) (argument : Option Nat) : Option Header :=
  match major, argument with
  | 0, some n => some (positive n)
  | 1, some n => some (negative n)
  | 2, n => some (bytes n)
  | 3, n => some (text n)
  | 4, n => some (array n)
  | 5, n => some (map n)
  | 6, some n => some (tag n)
  | 7, none => some stop
  | 7, some n => some (if info ≤ 24 then simple n else float)
  | _, _ => none

/-- The header at the beginning of some bytes. -/
def read : Bytes → Option (Header × Bytes)
  | [] => none
  | b :: bs => do
    let info := b.toNat % 32
    let (argument, rest) ← readArgument info bs
    let header ← ofParts? (b.toNat / 32) info argument
    return (header, rest)

end Header
end OrderedIndex.Cbor
