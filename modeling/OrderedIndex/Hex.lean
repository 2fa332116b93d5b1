/-
  OrderedIndex/Hex.lean
  =====================
  **Hexadecimal texts** of byte strings.  Writing gives two lower-case digits a
  byte.  Reading takes digits of either case, passes over spaces and line ends
  between them, and takes a plus sign for a missing high digit.
-/
import OrderedIndex.Bytes

namespace OrderedIndex.Hex

/-- The digit of a number below sixteen. -/
def digit (n : Nat) : Char := "0123456789abcdef".toList.getD n '0'

/-- The two digits of a byte. -/
def ofByte (b : UInt8) : List Char := [digit (b.toNat / 16), digit (b.toNat % 16)]

/-- The digits of a byte string. -/
def encode (bs : Bytes) : String := String.ofList (bs.flatMap ofByte)

/-- The number a digit stands for. -/
def digit? (c : Char) : Option Nat :=
  if '0' ≤ c ∧ c ≤ '9' then some (c.toNat - '0'.toNat)
  else if 'a' ≤ c ∧ c ≤ 'f' then some (c.toNat - 'a'.toNat + 10)
  else if 'A' ≤ c ∧ c ≤ 'F' then some (c.toNat - 'A'.toNat + 10)
  else none

/-- The byte that two characters write. -/
def byte? (high low : Char) : Option UInt8 := do
  let h ← if high = '+' then some 0 else digit? high
  let l ← digit? low
  return UInt8.ofNat (16 * h + l)

/-- The bytes that digits write, two at a time. -/
def pairs? : List Char → Option Bytes
  | [] => some []
  | [_] => none
  | h :: l :: rest => do
    let b ← byte? h l
    let bs ← pairs? rest
    return b :: bs

/-- Whether reading passes over the character. -/
def isBlank (c : Char) : Bool := c == ' ' || c == '\n' || c == '\r'

/-- The byte string that a text writes. -/
def decode? (text : String) : Option Bytes := pairs? (text.toList.filter (fun c => !isBlank c))

end OrderedIndex.Hex
