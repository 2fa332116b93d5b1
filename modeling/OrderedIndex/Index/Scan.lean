/-
  OrderedIndex/Index/Scan.lean
  ============================
  **Scans** of an index: the entries between two bounds, and the first or last
  entry whose leading column is not NULL.
-/
import OrderedIndex.Index.Basic
import OrderedIndex.Index.Cursor

namespace OrderedIndex

/-- An end of an index. -/
inductive Edge
  | first
  | last
  deriving DecidableEq

/-- Keys from an end of an index inwards. -/
def Edge.order {α : Type} : Edge → List α → List α
  | first, keys => keys
  | last, keys => keys.reverse

namespace Index

/-- A cursor over the entries from `lower` on, up to the first beyond `upper`.  Columns that a bound
    leaves unset are free. -/
def find (ix : Index) (s : Store) (lower upper : Option SearchRow) : Except Error Cursor := do
  let start ← lower.mapM ix.layout.probe
  let it ← (s.keyIter ix.map start).mapError .store
  return .new ix.layout (.live it) upper

/-- Whether `findEdge` is supported, which it is for every ordered index. -/
def canFindEdge (_ : Index) : Bool := true

/-- The first key whose leading column is not NULL. -/
def firstSetKey (l : KeyLayout) : List Bytes → Except Error (Option Bytes)
  | [] => .ok none
  | key :: keys =>
    match l.leadingIsNull key with
    | .error e => .error e
    | .ok true => firstSetKey l keys
    | .ok false => .ok (some key)

/-- A cursor that stands on the entry at an end of the index, those with NULL in the leading column
    left out. -/
def findEdge (ix : Index) (s : Store) (edge : Edge) : Except Error Cursor := do
  let entries ← ix.entries s
  let key ← firstSetKey ix.layout (edge.order entries.keys)
  (Cursor.new ix.layout (.once key) none).position s

end Index
end OrderedIndex
