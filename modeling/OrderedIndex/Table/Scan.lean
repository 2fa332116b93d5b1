/-
  OrderedIndex/Table/Scan.lean
  ============================
  **Scans** over the indexes of a table, whose cursors load rows from the table.
-/
import OrderedIndex.Index.Scan
import OrderedIndex.Table.Session

namespace OrderedIndex

/-- The table as a source of rows, which loading does not change. -/
def Table.rowSource (t : Table) (s : Store) : RowSource Unit := fun id st => (t.getRow s id, st)

namespace Session

def find (s : Session) (index : String) (lower upper : Option SearchRow) : Except Error Cursor := do
  (← s.table.index index).find s.store lower upper

def findEdge (s : Session) (index : String) (edge : Edge) : Except Error Cursor := do
  (← s.table.index index).findEdge s.store edge

end Session
end OrderedIndex
