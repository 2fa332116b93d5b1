/-
  OrderedIndex/Error.lean
  =======================
  **Faults of indexes and tables**, each with what its message shows.
-/
import OrderedIndex.CodecError
import OrderedIndex.StoreError
import OrderedIndex.Column
import OrderedIndex.RowId

namespace OrderedIndex

/-- Why an index or a table refuses an operation. -/
inductive Error
  | store (e : StoreError)
  | codec (e : CodecError)
  /-- An index was to cover a large-object column. -/
  | unsupportedColumn (index : String) (column : Column)
  /-- A unique index holds the key already. -/
  | duplicateKey (index key : String) (conflicting : RowId)
  /-- An index holds no entry for a row that is to be deleted. -/
  | entryNotFound (index : String) (row : RowId)
  | rowNotFound (table : String) (row : RowId)
  | columnNotFound (name : String)
  | indexNotFound (name : String)
  | indexExists (name : String)
  /-- A row has no value at the position of an index column. -/
  | missingValue (row : RowId) (column : Nat)
  /-- A row has more or fewer values than the table has columns. -/
  | wrongValueCount (table : String) (columns values : Nat)
  | valueDoesNotFit (value : Value) (column : Column)
  /-- The largest row id has been given out. -/
  | rowIdsExhausted (table : String)
  /-- There is no index id after the one that a new index would get. -/
  | indexIdsExhausted (table : String)
  /-- An estimate does not fit 64 bits. -/
  | costOverflow
  deriving DecidableEq

namespace Error

def isDuplicateKey : Error → Bool
  | duplicateKey .. => true
  | _ => false

def message : Error → String
  | store e => "storage error: " ++ e.message
  | codec e => "codec error: " ++ e.message
  | unsupportedColumn index column =>
    "feature not supported: index " ++ index ++ " on large-object column " ++ column.sql
  | duplicateKey index key conflicting =>
    "duplicate key in unique index " ++ index ++ ": " ++ key ++ " (conflicts with row " ++
      conflicting.render ++ ")"
  | entryNotFound index row =>
    "row not found when deleting from index " ++ index ++ ": " ++ row.render
  | rowNotFound table row => "row " ++ row.render ++ " not found in table " ++ table
  | columnNotFound name => "column not found: " ++ name
  | indexNotFound name => "index not found: " ++ name
  | indexExists name => "index already exists: " ++ name
  | missingValue row column =>
    "invalid operation: row " ++ row.render ++ " has no value for column " ++ toString column
  | wrongValueCount table columns values =>
    "invalid operation: table " ++ table ++ " has " ++ toString columns ++ " columns, got "
      ++ toString values ++ " values"
  | valueDoesNotFit value column =>
    "invalid operation: value " ++ value.render ++ " does not fit column " ++ column.sql
  | rowIdsExhausted table => "invalid operation: table " ++ table ++ " has no row ids left"
  | indexIdsExhausted table => "invalid operation: table " ++ table ++ " has no index ids left"
  | costOverflow => "invalid operation: cost estimate exceeds 64 bits"

end Error
end OrderedIndex
