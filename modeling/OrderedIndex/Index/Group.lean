/-
  OrderedIndex/Index/Group.lean
  =============================
  **Several indexes at once.**  A row is added to all of them or to none, and
  removed from all of them or from none: when one refuses, what was done to those
  before it is undone, the latest first.  A step back that fails is left out.
-/
import OrderedIndex.Index.Basic

namespace OrderedIndex.Index

/-- The store without the entry of a row, if it can be removed. -/
def withdraw (ix : Index) (s : Store) (row : Row) : Store :=
  match ix.remove s row with
  | .ok s => s
  | .error _ => s

/-- The store with the entry of a row, if it can be added. -/
def restore (ix : Index) (s : Store) (row : Row) : Store :=
  match ix.add s row with
  | .ok s => s
  | .error _ => s

/-- Adds the row's entry to every index, in order. -/
def addToAll (row : Row) : List Index → Store → Except Error Unit × Store
  | [], s => (.ok (), s)
  | ix :: rest, s =>
    match ix.add s row with
    | .error e => (.error e, s)
    | .ok s =>
      match addToAll row rest s with
      | (.error e, s) => (.error e, ix.withdraw s row)
      | done => done

/-- Removes the row's entry from every index, in order. -/
def removeFromAll (row : Row) : List Index → Store → Except Error Unit × Store
  | [], s => (.ok (), s)
  | ix :: rest, s =>
    match ix.remove s row with
    | .error e => (.error e, s)
    | .ok s =>
      match removeFromAll row rest s with
      | (.error e, s) => (.error e, ix.restore s row)
      | done => done

/-- Undoes `addToAll`. -/
def withdrawFromAll (row : Row) (ixs : List Index) (s : Store) : Store :=
  ixs.foldr (fun ix s => ix.withdraw s row) s

/-- Undoes `removeFromAll`. -/
def restoreToAll (row : Row) (ixs : List Index) (s : Store) : Store :=
  ixs.foldr (fun ix s => ix.restore s row) s

/-- Clears every index, in order, up to the first whose map is removed.  What is cleared stays
    so. -/
def clearAll : List Index → Store → Except Error Unit × Store
  | [], s => (.ok (), s)
  | ix :: rest, s =>
    match ix.clear s with
    | .error e => (.error e, s)
    | .ok s => clearAll rest s

end OrderedIndex.Index
