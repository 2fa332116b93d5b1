/-
  OrderedIndex/CodecError.lean
  ============================
  **Faults of reading and writing** keys and stored rows.
-/
import OrderedIndex.Value

namespace OrderedIndex

/-- Why a key or a stored row could not be written or read. -/
inductive CodecError
  /-- A large object was to become part of a key. -/
  | notIndexable (type : ColumnType)
  /-- A component starts with a byte that marks no type; the byte is given as an ascending column
      would hold it. -/
  | unknownTag (tag : UInt8) (offset : Nat)
  | invalidUtf8
  | unexpectedEnd
  /-- Bytes are left over after a whole key. -/
  | trailingBytes (count : Nat)
  /-- A boolean is neither 0 nor 1. -/
  | invalidBoolean (byte : UInt8)
  /-- A zero byte is followed by neither of the bytes that may follow it. -/
  | invalidEscape (byte : UInt8)
  /-- The bytes are not a stored row. -/
  | malformedRow
  deriving DecidableEq

namespace CodecError

/-- A byte with its mark, as messages show it. -/
def renderByte (b : UInt8) : String := "0x" ++ String.ofList (Hex.ofByte b)

def message : CodecError → String
  | notIndexable type => "value of type " ++ type.sqlName ++ " cannot be part of an index key"
  | unknownTag tag offset =>
    "unknown key tag " ++ renderByte tag ++ " at offset " ++ toString offset
  | invalidUtf8 => "invalid UTF-8 string"
  | unexpectedEnd => "unexpected end of input"
  | trailingBytes count => toString count ++ " trailing bytes after key"
  | invalidBoolean byte => "decoding failed: invalid boolean byte " ++ renderByte byte
  | invalidEscape byte => "decoding failed: invalid escape byte " ++ renderByte byte
  | malformedRow => "decoding failed: malformed row"

end CodecError
end OrderedIndex
