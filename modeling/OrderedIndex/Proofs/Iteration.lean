/-
  OrderedIndex/Proofs/Iteration.lean
  ==================================
  **Key iterators in use**, while their store is called through any of its handles.

  Between two steps of an iterator anything may happen to its map: the key it has given
  last may be removed, the map cleared and filled again, renamed, or removed.  Whatever
  happens, the iterator answers from its place on (`Iteration.gives`), so what it gives
  increases and passes nothing over that stays.  From a removed map there is nothing to
  read any more (`Iteration.read_of_closed`).
-/
import OrderedIndex.Proofs.Handles
import OrderedIndex.Proofs.KeyIter

namespace OrderedIndex

/-- An iterator, and the client whose store it is over. -/
structure Iteration where
  client : Client
  iter : KeyIter

namespace Iteration

inductive Event
  | next
  | call (call : StoreCall)
  deriving DecidableEq

def run (i : Iteration) : Event → Iteration
  | .next => { i with iter := (i.iter.next i.client.store).2 }
  | .call call => { i with client := i.client.run call }

def runAll (i : Iteration) (events : List Event) : Iteration := events.foldl run i

def moment? (i : Iteration) : Event → Option (Moment StoreError)
  | .next => some ⟨i.client.store.read i.iter.map, (i.iter.next i.client.store).1⟩
  | .call _ => none

/-- The steps of the iterator, with what the map was at each. -/
def moments (i : Iteration) : List Event → List (Moment StoreError)
  | [] => []
  | event :: events => (i.moment? event).toList ++ (i.run event).moments events

variable {i : Iteration} {m : MapId} {start : Option Bytes} {it : KeyIter} {c : Client}
  {events : List Event}

theorem moments_append (i : Iteration) (before after : List Event) :
    i.moments (before ++ after) = i.moments before ++ (i.runAll before).moments after := by
  induction before generalizing i with
  | nil => rfl
  | cons event before ih => rw [List.cons_append, moments, moments, ih, List.append_assoc]; rfl

theorem map_run (i : Iteration) (event : Event) : (i.run event).iter.map = i.iter.map := by
  cases event with
  | next => exact KeyIter.map_next ..
  | call call => rfl

theorem map_runAll (i : Iteration) (events : List Event) :
    (i.runAll events).iter.map = i.iter.map := by
  induction events generalizing i with
  | nil => rfl
  | cons event events ih => exact (ih (i.run event)).trans (i.map_run event)

/-! ### Answers -/

theorem silent_of_done (hdone : i.iter.done = true) (events : List Event) :
    ∀ x ∈ i.moments events, x.answer = none := by
  induction events generalizing i with
  | nil => nofun
  | cons event events ih =>
    cases event with
    | call call => exact ih (i := i.run (.call call)) hdone
    | next =>
      have hnext : i.iter.next i.client.store = (none, i.iter) := by rw [KeyIter.next, if_pos hdone]
      rw [moments, moment?, Option.toList_some, List.singleton_append, List.forall_mem_cons]
      refine ⟨congrArg Prod.fst hnext, ih ?_⟩
      rw [run, hnext]
      exact hdone

/-- **The iterator answers from its place on**, whatever happens to the map. -/
theorem gives (hdone : i.iter.done = false) (events : List Event) :
    i.iter.start.Gives (fun _ => False) (i.moments events) := by
  induction events generalizing i with
  | nil => exact .nil
  | cons event events ih =>
    cases event with
    | call call => exact ih (i := i.run (.call call)) hdone
    | next =>
      rw [moments, moment?, Option.toList_some, List.singleton_append]
      rcases KeyIter.next_cases i.client.store i.iter hdone with
        ⟨e, hread, hnext⟩ | ⟨entries, hread, ⟨hseek, hnext⟩ | ⟨key, hseek, hnext⟩⟩
      · rw [hread, hnext]
        exact .failed (silent_of_done (by rw [run, hnext]) events)
      · rw [hread, hnext]
        refine .ended ?_ (silent_of_done (by rw [run, hnext]) events)
        intro key hkey
        cases hseek.symm.trans hkey
      · rw [hread, hnext]
        have hrest := ih (i := i.run .next) (by rw [run, hnext]; exact hdone)
        rw [run, hnext] at hrest ⊢
        exact .found hseek id hrest

theorem read_of_closed (hm : i.iter.map.index < i.client.store.maps.length)
    (hclosed : i.client.store.isClosed i.iter.map = true) (events : List Event) :
    ∀ x ∈ i.moments events, x.read = .error (.closed (i.client.store.nameOf i.iter.map)) := by
  induction events generalizing i with
  | nil => nofun
  | cons event events ih =>
    cases event with
    | next =>
      have hmap := i.map_run .next
      rw [moments, moment?, Option.toList_some, List.singleton_append, List.forall_mem_cons]
      refine ⟨by rw [Store.read, if_pos hclosed], ?_⟩
      have hrest := ih (i := i.run .next) (by rw [hmap]; exact hm) (by rw [hmap]; exact hclosed)
      rw [hmap] at hrest
      exact hrest
    | call call =>
      have hstate := Client.state_run_of_closed hm hclosed call
      have hrest := ih (i := i.run (.call call)) (hm.trans_le (Client.length_run _ call))
        ((congrArg MapState.closed hstate).trans hclosed)
      have hname : (i.client.run call).store.nameOf i.iter.map = i.client.store.nameOf i.iter.map :=
        congrArg MapState.name hstate
      rw [← hname]
      exact hrest

theorem length_runAll (i : Iteration) (events : List Event) :
    i.client.store.maps.length ≤ (i.runAll events).client.store.maps.length := by
  induction events generalizing i with
  | nil => exact Nat.le_refl _
  | cons event events ih =>
    refine Nat.le_trans ?_ (ih (i.run event))
    cases event with
    | next => exact Nat.le_refl _
    | call call => exact i.client.length_run call

/-! ### Nothing lost, nothing repeated -/

/-- The iterator gives keys from the start on, and loses and repeats none, whatever happens in the
    course of the events. -/
structure Lossless (i : Iteration) (start : Option Bytes) (events : List Event) : Prop where
  increasing : (Moment.keys (i.moments events)).Pairwise fun a b => compare a b = .lt
  atOrAfter : ∀ key ∈ Moment.keys (i.moments events), ∀ first ∈ start,
    (compare first key).isLE = true
  held : ∀ x ∈ i.moments events, ∀ key, x.answer = some (.ok key) → x.Sees key
  /-- A key that is there at every step up to the end is given exactly once. -/
  once : ∀ before x after, i.moments events = before ++ x :: after → x.answer = none → ∀ key,
    (∀ first ∈ start, (compare first key).isLE = true) → (∀ y ∈ before ++ [x], y.Sees key) →
      (Moment.keys (i.moments events)).count key = 1
  silent : ∀ before x after, i.moments events = before ++ x :: after →
    (∀ key, x.answer ≠ some (.ok key)) →
    ∀ y ∈ after, y.answer = none
  /-- The first step after the map is removed fails, unless the iterator has come to its end
      before. -/
  removed : ∀ before handle after, events = before ++ .call (.via handle .removeMap) :: after →
    (i.runAll before).client.handles[handle]? = some i.iter.map →
    (∀ x ∈ i.moments before, ∃ key, x.answer = some (.ok key)) →
    ∀ x rest, (i.runAll (before ++ [.call (.via handle .removeMap)])).moments after = x :: rest →
      x.answer = some (.error (.closed ((i.runAll before).client.store.nameOf i.iter.map))) ∧
        ∀ y ∈ rest, y.answer = none

theorem covers_iff {key : Bytes} : (start.elim KeyStart.anywhere .atOrAfter).covers key = true ↔
    ∀ first ∈ start, (compare first key).isLE = true := by
  cases start with
  | none => simp [KeyStart.covers]
  | some first => simp [KeyStart.covers, Std.OrientedCmp.isGE_eq_isLE]

theorem answers_of_removed (hdone : i.iter.done = false)
    (hm : i.iter.map.index < i.client.store.maps.length) {before after : List Event}
    {handle : Nat} (hhandle : (i.runAll before).client.handles[handle]? = some i.iter.map)
    (hbefore : ∀ x ∈ i.moments before, ∃ key, x.answer = some (.ok key)) {x : Moment StoreError}
    {rest : List (Moment StoreError)}
    (hafter : (i.runAll (before ++ [.call (.via handle .removeMap)])).moments after = x :: rest) :
    x.answer = some (.error (.closed ((i.runAll before).client.store.nameOf i.iter.map))) ∧
      ∀ y ∈ rest, y.answer = none := by
  have hrun : i.runAll (before ++ [.call (.via handle .removeMap)]) =
      (i.runAll before).run (.call (.via handle .removeMap)) := List.foldl_concat ..
  rw [hrun] at hafter
  have hmap := i.map_runAll before
  have hread : x.read = .error (.closed ((i.runAll before).client.store.nameOf i.iter.map)) := by
    obtain ⟨hclosed, hname⟩ := Client.run_removeMap hhandle
    rw [← hname, ← hmap]
    refine read_of_closed ?_ (hmap ▸ hclosed) after x (hafter ▸ List.mem_cons_self)
    show (i.runAll before).iter.map.index < ((i.runAll before).client.run _).store.maps.length
    rw [hmap]
    exact (hm.trans_le (i.length_runAll before)).trans_le (Client.length_run ..)
  have hgives : i.iter.start.Gives (fun _ => False) (i.moments before ++ x :: rest) := by
    rw [← hafter]
    have h := gives hdone (before ++ .call (.via handle .removeMap) :: after)
    rwa [moments_append] at h
  have hanswer := hgives.fails hbefore hread
  refine ⟨hanswer, hgives.silent ?_⟩
  intro key hkey
  cases hanswer.symm.trans hkey

/-- **Live key iterators lose and repeat nothing**, whatever is called through any handles of the
    store in between. -/
theorem lossless_of_keyIter (hiter : c.store.keyIter m start = .ok it) (events : List Event) :
    Lossless ⟨c, it⟩ start events := by
  obtain ⟨entries, hread, rfl⟩ := map_eq_ok_iff.1 hiter
  have hgives := gives (i := ⟨c, ⟨m, start.elim .anywhere .atOrAfter, false⟩⟩) rfl events
  refine ⟨hgives.increasing, ?_, hgives.sees, ?_, ?_, ?_⟩
  · intro key hkey
    exact covers_iff.1 (hgives.covers key hkey)
  · intro before x after heq hx key hstart hsees
    refine List.count_eq_one_of_mem (nodup_of_pairwise (f := id) hgives.increasing) ?_
    rw [heq] at hgives ⊢
    exact hgives.mem_keys hx hsees (covers_iff.2 hstart) nofun
  · intro before x after heq
    exact (heq ▸ hgives).silent
  · rintro before handle after - hhandle hbefore x rest
    exact answers_of_removed rfl (Store.index_lt_of_isClosed (Store.isClosed_of_read hread))
      hhandle hbefore

/-- Keys are put before and behind the place, the key given last is removed, and the map is emptied,
    filled again and given another name, before it is removed through another handle. -/
theorem lossless_of_keyIter_cloned :
    let c :=
      Client.empty.runAll [.openMap "a", .clone 0, .via 1 (.put [1] []), .via 0 (.put [3] [])]
    let it : KeyIter := ⟨⟨0⟩, .atOrAfter [2], false⟩
    let events : List Event := [.next, .call (.via 1 (.put [2] [])), .call (.via 0 (.put [5] [])),
      .next, .call (.via 1 (.remove [5])), .call (.via 0 .clear), .call (.via 0 (.put [4] [])),
      .call (.via 0 (.put [6] [])), .call (.via 0 (.rename "b")), .next, .call (.via 1 .removeMap),
      .call (.openMap "b"), .next, .next]
    c.store.keyIter ⟨0⟩ (some [2]) = .ok it ∧ Lossless ⟨c, it⟩ (some [2]) events ∧
      (moments ⟨c, it⟩ events).map Moment.answer = [some (.ok [3]), some (.ok [5]), some (.ok [6]),
        some (.error (.closed "b")), none] := by
  intro c it events
  have hiter : c.store.keyIter ⟨0⟩ (some [2]) = .ok it := by decide
  exact ⟨hiter, lossless_of_keyIter hiter events, by decide⟩

end Iteration
end OrderedIndex
