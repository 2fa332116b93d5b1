/-
  OrderedIndex/Table/Indexing.lean
  ================================
  **The indexes of a table**: making, dropping and renaming them.

  A new index whose map is empty is filled from the rows; when a row does not go
  in, the map is removed again.  A map with entries is taken over as it is, which
  is how an index is attached again after its table was reopened.
-/
import OrderedIndex.Table.Session

namespace OrderedIndex

namespace Table

/-- The column of an index on the table. -/
def indexColumn (t : Table) (name : String) (d : Direction) : Except Error IndexColumn :=
  (t.column name).map fun c => ⟨c, d⟩

/-- The definition of the next index of the table. -/
def newDescriptor (t : Table) (name : String) (columns : List (String × Direction))
    (unique : Bool) :
    Except Error Descriptor := do
  if t.hasIndex name then throw (.indexExists name)
  let columns ← columns.mapM fun (column, d) => t.indexColumn column d
  return ⟨t.nextIndexId, name, t.name, unique, columns⟩

/-- Adds every row of the table to an index. -/
def fill (t : Table) (s : Store) (ix : Index) : Except Error Store := do
  (← t.rows s).foldlM ix.add s

/-- Fills an index that has no entries. -/
def fillIfEmpty (t : Table) (s : Store) (ix : Index) : Except Error Store := do
  if ← ix.needsRebuild s then t.fill s ix else return s

end Table

namespace Session

/-- Makes an index on the named columns.  Each new index leaves an id for the next one, so the
    largest id is not given out: nothing is kept of an index that would have it. -/
def createIndex (s : Session) (name : String) (columns : List (String × Direction))
    (unique : Bool) :
    Except Error IndexId × Session :=
  let made := do
    let d ← s.table.newDescriptor name columns unique
    Index.create s.store d s.table.columns.length s.table.config
  match made with
  | .error e => (.error e, s)
  | .ok (ix, store) =>
    match s.table.fillIfEmpty store ix with
    | .error e =>
      match ix.drop store with
      | .error e => (.error e, { s with store })
      | .ok store => (.error e, { s with store })
    | .ok store =>
      match s.table.nextIndexId.next? with
      | none => (.error (.indexIdsExhausted s.table.name), s)
      | some nextIndexId =>
        (.ok s.table.nextIndexId,
          ⟨store, { s.table with indexes := s.table.indexes ++ [ix], nextIndexId }⟩)

/-- Drops an index and its map. -/
def dropIndex (s : Session) (name : String) : Except Error Unit × Session :=
  match s.table.index name with
  | .error e => (.error e, s)
  | .ok ix =>
    let table := { s.table with indexes := s.table.indexes.eraseP (·.name == name) }
    match ix.drop s.store with
    | .error e => (.error e, { s with table })
    | .ok store => (.ok (), ⟨store, table⟩)

/-- The indexes with `ix` in the place of the first of the given name. -/
def replaceIndex (name : String) (ix : Index) : List Index → List Index
  | [] => []
  | old :: rest => if old.name == name then ix :: rest else old :: replaceIndex name ix rest

/-- Gives an index another name, which no index of the table may have. -/
def renameIndex (s : Session) (name newName : String) : Except Error Unit × Session :=
  if s.table.hasIndex newName then (.error (.indexExists newName), s)
  else
    match s.table.index name with
    | .error e => (.error e, s)
    | .ok ix =>
      let (outcome, ix, store) := ix.renameInPlace s.store newName
      (outcome, ⟨store, { s.table with indexes := replaceIndex name ix s.table.indexes }⟩)

end Session
end OrderedIndex
