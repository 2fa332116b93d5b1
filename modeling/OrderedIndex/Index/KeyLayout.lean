/-
  OrderedIndex/Index/KeyLayout.lean
  =================================
  **Key layouts** — how the rows of a table become the keys of one index, and the
  comparison of rows that the keys' byte order stands for.

  A stored key has a component for every index column and ends in the row id.  A
  probe, made from a search row to start a scan at, stops at the first column that
  is unset, so it comes before every key that continues it.
-/
import OrderedIndex.Error
import OrderedIndex.Key.Reader
import OrderedIndex.Row
import OrderedIndex.Index.Descriptor

namespace OrderedIndex

/-- An index column as keys see it: a position in the row and a direction. -/
structure KeyPart where
  column : Nat
  direction : Direction
  deriving DecidableEq

/-- The parts of an index's keys, and the number of columns of its table. -/
structure KeyLayout where
  parts : List KeyPart
  columnCount : Nat
  deriving DecidableEq

namespace KeyLayout

def ofColumns (columns : List IndexColumn) (columnCount : Nat) : KeyLayout :=
  ⟨columns.map fun c => ⟨c.column.id, c.direction⟩, columnCount⟩

/-! ### Writing keys -/

/-- The components of a whole row. -/
def rowComponents (row : Row) : List KeyPart → Except Error Bytes
  | [] => .ok []
  | p :: ps =>
    match row.value? p.column with
    | none => .error (.missingValue row.id p.column)
    | some v => do
      let head ← (Component.write p.direction v).mapError .codec
      let tail ← rowComponents row ps
      return head ++ tail

/-- The key of a row's columns with the given id at the end. -/
def encodeAs (l : KeyLayout) (row : Row) (id : RowId) : Except Error Bytes :=
  (rowComponents row l.parts).map (Key.pushRowId · id)

/-- The stored key of a row. -/
def encode (l : KeyLayout) (row : Row) : Except Error Bytes := l.encodeAs row row.id

/-- The components of a search row, up to the first unset column; if none is unset, the row id
    follows. -/
def probeComponents (search : SearchRow) : List KeyPart → Except Error Bytes
  | [] => .ok ((search.rowId.map Key.ofRowId).getD [])
  | p :: ps =>
    match search.value? p.column with
    | none => .ok []
    | some v => do
      let head ← (Component.write p.direction v).mapError .codec
      let tail ← probeComponents search ps
      return head ++ tail

/-- Where a scan with the given lower bound starts. -/
def probe (l : KeyLayout) (search : SearchRow) : Except Error Bytes :=
  probeComponents search l.parts

/-! ### Reading keys -/

/-- Sets the slot of each part. -/
def setParts (r : SearchRow) : List (KeyPart × Value) → SearchRow
  | [] => r
  | (p, v) :: rest => setParts (r.set p.column v) rest

/-- What a stored key tells about its row; the columns outside the index stay unset. -/
def decode (l : KeyLayout) (key : Bytes) : Except Error SearchRow :=
  match Key.read (l.parts.map (·.direction)) key with
  | .error e => .error (.codec e)
  | .ok (values, id) =>
    .ok { setParts (.unset l.columnCount) (l.parts.zip values) with rowId := some id }

/-- Whether the first index column of a key is NULL. -/
def leadingIsNull (l : KeyLayout) (key : Bytes) : Except Error Bool :=
  match l.parts with
  | [] => .ok false
  | p :: _ => ((KeyReader.start key).readValue p.direction).1.mapError .codec |>.map Value.isNull

/-! ### Comparing rows -/

variable {ρ σ : Type} [RowView ρ] [RowView σ]

/-- Compares column by column.  A column that is unset on either side ends the comparison without a
    difference. -/
def compareParts (a : ρ) (b : σ) : List KeyPart → Ordering
  | [] => .eq
  | p :: ps =>
    match RowView.value? a p.column, RowView.value? b p.column with
    | some x, some y => (p.direction.apply (compare x y)).then (compareParts a b ps)
    | _, _ => .eq

/-- The order of two rows in the index, their ids left aside. -/
def compareRows (l : KeyLayout) (a : ρ) (b : σ) : Ordering := compareParts a b l.parts

/-- The values of the index columns, as messages show them. -/
def describe (l : KeyLayout) (a : ρ) : String :=
  "(" ++ ", ".intercalate (l.parts.map fun p =>
    ((RowView.value? a p.column).map Value.render).getD "?") ++ ")"

/-- Whether the row holds NULL at the column of a part. -/
def holdsNull (a : ρ) (p : KeyPart) : Bool := (RowView.value? a p.column).any Value.isNull

def anyNull (l : KeyLayout) (a : ρ) : Bool := l.parts.any (holdsNull a)

def allNull (l : KeyLayout) (a : ρ) : Bool := l.parts.all (holdsNull a)

end KeyLayout
end OrderedIndex
