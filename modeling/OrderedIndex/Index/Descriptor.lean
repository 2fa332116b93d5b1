/-
  OrderedIndex/Index/Descriptor.lean
  ==================================
  **Index definitions.**  The map of an index is named after the index and its id, a
  32-bit word.  The id stays when the index is renamed.
-/
import OrderedIndex.Column
import OrderedIndex.Direction

namespace OrderedIndex

/-- The identifier of an index within its table. -/
structure IndexId where
  word : UInt32
  deriving DecidableEq

namespace IndexId

/-- The index id after this one; the largest has none. -/
def next? (id : IndexId) : Option IndexId :=
  if id.word.toNat + 1 < UInt32.size then some ⟨id.word + 1⟩ else none

def render (id : IndexId) : String := toString id.word.toNat

end IndexId

/-- A table column in an index. -/
structure IndexColumn where
  column : Column
  direction : Direction
  deriving DecidableEq

def IndexColumn.sql (c : IndexColumn) : String :=
  match c.direction with
  | .ascending => c.column.name
  | .descending => c.column.name ++ " DESC"

/-- The definition of an index. -/
structure Descriptor where
  id : IndexId
  name : String
  table : String
  unique : Bool
  /-- The columns in key order. -/
  columns : List IndexColumn
  deriving DecidableEq

namespace Descriptor

/-- The name of the map of an index. -/
def mapNameOf (index : String) (id : IndexId) : String := index ++ "_" ++ id.render

def mapName (d : Descriptor) : String := mapNameOf d.name d.id

/-- The index as messages show it. -/
def sql (d : Descriptor) : String :=
  d.name ++ " ON " ++ d.table ++ "(" ++ ", ".intercalate (d.columns.map IndexColumn.sql) ++ ")"

end Descriptor
end OrderedIndex
