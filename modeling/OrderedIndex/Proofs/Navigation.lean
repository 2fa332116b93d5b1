/-
  OrderedIndex/Proofs/Navigation.lean
  ===================================
  **All questions about neighbours see one order.**

  A map is asked for its keys in several ways: for the first or last one, for the neighbour
  of a key on either side, for the first at or after a probe, and through an iterator.  Seen
  from either end the neighbour of a key is the next one in line (`Edge.inward_eq`), so
  following neighbours goes through what is left of the line (`Store.follows_inward`).  An
  iterator gives the keys ahead of its place (`KeyIter.drain_eq`), which are an end of the
  line as well (`KeyStart.exists_keys_eq_append_ahead`).

  What a key is bound to is told by the calls that have been made on the map, through
  whichever handle: the latest put of the key, if nothing has taken the key away since
  (`LatestPut`).  One call keeps that (`Client.Recalls.run`), so a whole history does.
-/
import OrderedIndex.Index.Scan
import OrderedIndex.Proofs.Handles
import OrderedIndex.Proofs.KeyIter

namespace OrderedIndex

/-- A search that passes over everything up to an element and takes whatever comes next. -/
theorem find?_append_cons {α : Type} {p : α → Bool} {before after : List α} {x : α}
    (hbefore : ∀ a ∈ before, p a = false) (hx : p x = false) (hafter : ∀ a ∈ after, p a = true) :
    (before ++ x :: after).find? p = after.head? := by
  have hnone : before.find? p = none := List.find?_eq_none.2 (by simpa using hbefore)
  rw [List.find?_append, hnone, Option.none_or, List.find?_cons_of_neg (by simp [hx])]
  cases after with
  | nil => rfl
  | cons a after => exact List.find?_cons_of_pos (hafter a List.mem_cons_self)

/-- Of a list in which everything behind an element with a property has it as well, those with the
    property are an end. -/
theorem exists_eq_append_filter {α : Type} {p : α → Bool} {l : List α}
    (h : l.Pairwise fun a b => p a = true → p b = true) : ∃ before, l = before ++ l.filter p := by
  induction l with
  | nil => exact ⟨[], rfl⟩
  | cons a l ih =>
    obtain ⟨head, tail⟩ := List.pairwise_cons.1 h
    by_cases ha : p a = true
    · refine ⟨[], (List.filter_eq_self.2 ?_).symm⟩
      exact List.forall_mem_cons.2 ⟨ha, fun b hb => head b hb ha⟩
    · obtain ⟨before, hl⟩ := ih tail
      refine ⟨a :: before, ?_⟩
      rw [List.filter_cons_of_neg ha, List.cons_append, ← hl]

/-! ### Seen from an end -/

namespace Edge

/-- The relation as it is seen from the end. -/
def facing {α : Type} (r : α → α → Prop) : Edge → α → α → Prop
  | first, a, b => r a b
  | last, a, b => r b a

variable {α : Type} {r : α → α → Prop} {xs : List α} {x : α}

theorem mem_order (edge : Edge) : x ∈ edge.order xs ↔ x ∈ xs := by
  cases edge with
  | first => exact Iff.rfl
  | last => exact List.mem_reverse

theorem pairwise_order (edge : Edge) (h : xs.Pairwise r) :
    (edge.order xs).Pairwise (edge.facing r) := by
  cases edge with
  | first => exact h
  | last => exact List.pairwise_reverse.2 h

/-- The key at the end. -/
def outermost (s : Store) (m : MapId) : Edge → Except StoreError (Option Bytes)
  | first => s.firstKey m
  | last => s.lastKey m

/-- The neighbour of a key, away from the end. -/
def inward (s : Store) (m : MapId) (key : Bytes) : Edge → Except StoreError (Option Bytes)
  | first => s.higherKey m key
  | last => s.lowerKey m key

variable {s : Store} {map : MapId} {m : SortedMap Bytes Bytes}

theorem outermost_eq (hread : s.read map = .ok m) (edge : Edge) :
    edge.outermost s map = .ok (edge.order m.keys).head? := by
  cases edge with
  | first => rw [outermost, Store.firstKey, hread, map_ok]; rfl
  | last =>
    rw [outermost, Store.lastKey, hread, map_ok, SortedMap.last?, order, List.head?_reverse]

/-- The neighbour of a key is the next one in the order of the keys. -/
theorem inward_eq (hread : s.read map = .ok m) (edge : Edge) {before after : List Bytes}
    {key : Bytes} (hsplit : edge.order m.keys = before ++ key :: after) :
    edge.inward s map key = .ok after.head? := by
  have hsorted := edge.pairwise_order m.keys_sorted
  rw [hsplit, List.pairwise_append, List.pairwise_cons] at hsorted
  obtain ⟨-, ⟨hafter, -⟩, hbefore⟩ := hsorted
  have hkey : compare key key = .eq := Std.ReflOrd.compare_self
  cases edge with
  | first =>
    have hfind : (before ++ key :: after).find? (fun x => (compare x key).isGT) = after.head? :=
      find?_append_cons
      (fun a ha => by rw [hbefore a ha key List.mem_cons_self]; rfl) (by rw [hkey]; rfl)
      (fun a ha => by rw [Std.OrientedCmp.gt_of_lt (hafter a ha)]; rfl)
    rw [inward, Store.higherKey, hread, map_ok, SortedMap.higher?, ← hfind, ← hsplit]
    rfl
  | last =>
    have hfind : (before ++ key :: after).find? (fun x => (compare x key).isLT) = after.head? :=
      find?_append_cons
      (fun a ha => by rw [Std.OrientedCmp.gt_of_lt (hbefore a ha key List.mem_cons_self)]; rfl)
        (by rw [hkey]; rfl)
      (fun a ha => by rw [hafter a ha]; rfl)
    rw [inward, Store.lowerKey, hread, map_ok, SortedMap.lower?, ← hfind, ← hsplit]
    rfl

end Edge

/-! ### Following neighbours -/

namespace Store

/-- From an answer on, the neighbour of each key in turn is asked for, until there is none; these
    are the keys. -/
inductive Follows (neighbour : Bytes → Except StoreError (Option Bytes)) :
    Except StoreError (Option Bytes) → List Bytes → Prop
  | ended : Follows neighbour (.ok none) []
  | found {key : Bytes} {keys : List Bytes} (hrest : Follows neighbour (neighbour key) keys) :
      Follows neighbour (.ok (some key)) (key :: keys)

variable {s : Store} {map : MapId} {m : SortedMap Bytes Bytes} {before rest : List Bytes}

/-- Following neighbours goes through what is left of the keys, as they are seen from an end. -/
theorem follows_inward (hread : s.read map = .ok m) (edge : Edge)
    (hsplit : edge.order m.keys = before ++ rest) :
    Follows (edge.inward s map ·) (.ok rest.head?) rest := by
  induction rest generalizing before with
  | nil => exact .ended
  | cons key rest ih =>
    refine .found ?_
    have hnext : edge.inward s map key = .ok rest.head? := edge.inward_eq hread hsplit
    have hsplit' : edge.order m.keys = (before ++ [key]) ++ rest := by rw [hsplit, List.append_cons]
    rw [hnext]
    exact ih hsplit'

end Store

/-! ### Draining iterators -/

namespace KeyStart

variable {entries : SortedMap Bytes Bytes}

theorem ahead_anywhere (entries : SortedMap Bytes Bytes) : anywhere.ahead entries = entries.keys :=
  List.filter_eq_self.2 fun _ _ => rfl

/-- The keys ahead of a place are the last ones in the order. -/
theorem exists_keys_eq_append_ahead (entries : SortedMap Bytes Bytes) (start : KeyStart) :
    ∃ before, entries.keys = before ++ start.ahead entries :=
  exists_eq_append_filter (entries.keys_sorted.imp fun hlt hcovers => covers_of_lt hcovers hlt)

end KeyStart

section

variable {s : Store} {map : MapId} {m : SortedMap Bytes Bytes}

theorem KeyIter.drain_go_eq {it : KeyIter} {rounds : Nat} (hread : s.read it.map = .ok m)
    (hdone : it.done = false) (hrounds : (it.start.ahead m).length < rounds) :
    drain.go s rounds it = (it.start.ahead m).map .ok := by
  induction rounds generalizing it with
  | zero => exact absurd hrounds (Nat.not_lt_zero _)
  | succ rounds ih =>
    have hseek := it.start.seek_eq_head? m
    rcases hahead : it.start.ahead m with _ | ⟨key, rest⟩ <;> rw [hahead] at hseek hrounds
    · have hnext : it.next s = (none, { it with done := true }) := by
        simp [next, hdone, hread, hseek]
      rw [drain.go, hnext]
      rfl
    · have hnext : it.next s = (some (.ok key), { it with start := .after key }) := by
        simp [next, hdone, hread, hseek]
      have hrest := KeyStart.ahead_after hahead
      have hgo :
          drain.go s rounds { it with start := .after key } =
            ((KeyStart.after key).ahead m).map .ok := by
        refine ih hread hdone ?_
        rw [hrest]
        exact Nat.lt_of_succ_lt_succ hrounds
      rw [drain.go, hnext, List.map_cons, ← hrest, ← hgo]

/-- An iterator over a map that stays as it is gives the keys ahead of its place, to the last. -/
theorem KeyIter.drain_eq {it : KeyIter} (hread : s.read it.map = .ok m) (hdone : it.done = false) :
    it.drain s = (it.start.ahead m).map .ok := by
  have hrounds := Nat.lt_succ_of_le (it.start.length_ahead_le m)
  rw [drain, (Store.read_eq_ok_iff.1 hread).2]
  exact drain_go_eq hread hdone hrounds

theorem Store.keys_eq (hread : s.read map = .ok m) (start : Option Bytes) :
    s.keys map start = .ok ((start.elim KeyStart.anywhere .atOrAfter).ahead m) := by
  have hdrain : KeyIter.drain s ⟨map, start.elim .anywhere .atOrAfter, false⟩ =
      ((start.elim KeyStart.anywhere .atOrAfter).ahead m).map .ok := KeyIter.drain_eq hread rfl
  rw [keys, keyIter, hread, map_ok, ok_bind, hdrain]
  refine mapM_eq_ok_iff.2 (List.forall₂_map_left_iff.2 (List.forall₂_same.2 ?_))
  intro key _
  rfl

/-- What an iterator gives from a place on is what following neighbours gives. -/
theorem Store.follows_ahead (hread : s.read map = .ok m) (start : KeyStart) :
    Follows (s.higherKey map) (.ok (start.seek m)) (start.ahead m) := by
  obtain ⟨before, hsplit⟩ := start.exists_keys_eq_append_ahead m
  rw [start.seek_eq_head?]
  exact follows_inward hread .first hsplit

end

/-! ### The latest put -/

/-- The call does not touch the binding of the key. -/
def MapCall.Spares (key : Bytes) : MapCall → Prop
  | .put k _ | .remove k => k ≠ key
  | .clear | .removeMap => False
  | .rename _ => True

/-- The latest call that touches the key puts the value. -/
def LatestPut (key value : Bytes) (calls : List MapCall) : Prop :=
  ∃ before after, calls = before ++ .put key value :: after ∧ ∀ call ∈ after, call.Spares key

theorem not_latestPut_nil {key value : Bytes} : ¬LatestPut key value [] := by
  rintro ⟨before, after, heq, -⟩
  simp at heq

theorem latestPut_concat {key value : Bytes} {calls : List MapCall} {call : MapCall} :
    LatestPut key value (calls ++ [call]) ↔ call = .put key value ∨ call.Spares key ∧
      LatestPut key value calls := by
  constructor
  · rintro ⟨before, after, heq, hafter⟩
    rcases List.eq_nil_or_concat' after with rfl | ⟨after, last, rfl⟩
    · obtain ⟨-, hcall⟩ := List.append_inj' heq rfl
      exact .inl (List.singleton_inj.1 hcall)
    · rw [← List.cons_append, ← List.append_assoc] at heq
      obtain ⟨rfl, hcall⟩ := List.append_inj' heq rfl
      obtain rfl := List.singleton_inj.1 hcall
      rw [List.forall_mem_append, List.forall_mem_singleton] at hafter
      exact .inr ⟨hafter.2, before, after, rfl, hafter.1⟩
  · rintro (rfl | ⟨hspares, before, after, rfl, hafter⟩)
    · exact ⟨calls, [], rfl, nofun⟩
    · refine ⟨before, after ++ [call], by simp, ?_⟩
      rw [List.forall_mem_append, List.forall_mem_singleton]
      exact ⟨hafter, hspares⟩

namespace Store

variable {s : Store} {m : MapId} {key value : Bytes}

/-- What a call leaves a key bound to, whether it succeeds or not. -/
theorem get?_perform (hopen : s.isClosed m = false) (call : MapCall) :
    ((s.perform m call).2.state m).entries.get? key = some value ↔
      call = .put key value ∨ call.Spares key ∧ (s.state m).entries.get? key = some value := by
  have hread : s.read m = .ok (s.state m).entries := read_eq_ok_iff.2 ⟨hopen, rfl⟩
  have hset (entries : SortedMap Bytes Bytes) :
      ((s.setEntries m entries).state m).entries = entries := by
    rw [state_setEntries hopen, if_pos rfl]
  cases call with
  | put k v =>
    simp only [perform, put, hread, map_ok, hset, SortedMap.get?_insert,
      MapCall.Spares, MapCall.put.injEq]
    by_cases hk : key = k
    · simp [hk]
    · simp [hk, Ne.symm hk]
  | remove k =>
    simp only [perform, remove, hread, map_ok, hset, SortedMap.get?_erase, MapCall.Spares]
    by_cases hk : key = k
    · simp [hk]
    · simp [hk, Ne.symm hk]
  | clear =>
    simp only [perform, clear, hread, map_ok, hset, MapCall.Spares]
    simp [SortedMap.get?, SortedMap.empty]
  | rename name =>
    rcases hrename : s.rename m name with e | s'
    · simp [perform, hrename, MapCall.Spares]
    · simp [perform, hrename, (rename_eq_ok hrename).2.2, MapCall.Spares]
  | removeMap =>
    obtain ⟨s', hremove⟩ := exists_removeMap hopen
    simp [perform, hremove, state_removeMap hremove, SortedMap.get?,
      SortedMap.empty, MapCall.Spares]

/-- Opening a map changes no entries; one that is made has none. -/
theorem entries_openMap (s : Store) (name : String) (m : MapId) :
    ((s.openMap name).2.state m).entries = (s.state m).entries := by
  rcases openMap_cases s name with ⟨_, -, hopen⟩ | ⟨hfree, -⟩
  · rw [hopen]
  rw [state_openMap hfree]
  split
  · rename_i hm
    simp [hm, state, made]
  · rfl

end Store

namespace Client

variable {c : Client} {m : MapId} {history : List MapCall} {removed : List MapId}

/-- The call as one on the map, if it is made through a handle of it. -/
def callOn? (c : Client) (m : MapId) : StoreCall → Option MapCall
  | .openMap _ | .clone _ => none
  | .via handle call => if c.handles[handle]? = some m then some call else none

/-- The calls that are made on a map in the course of a history, through whichever handle. -/
def callsOn (c : Client) (m : MapId) : List StoreCall → List MapCall
  | [] => []
  | call :: calls => (c.callOn? m call).toList ++ (c.run call).callsOn m calls

/-- The map is open, or has not been made yet. -/
def Unremoved (c : Client) (m : MapId) : Prop :=
  m.index < c.store.maps.length → c.store.isClosed m = false

/-- Unless it is removed, the map has the bindings that the calls on it have left. -/
def Recalls (c : Client) (m : MapId) (history : List MapCall) : Prop :=
  c.Unremoved m → ∀ key value, (c.store.state m).entries.get? key = some value ↔
    LatestPut key value history

theorem recalls_empty (m : MapId) : empty.Recalls m [] :=
  fun _ _ _ => iff_of_false nofun not_latestPut_nil

theorem Unremoved.of_run {call : StoreCall} (h : (c.run call).Unremoved m)
    (hstate : m.index < c.store.maps.length → (c.run call).store.state m = c.store.state m) :
    c.Unremoved m := by
  intro hm
  have hopen := h (hm.trans_le (c.length_run call))
  rwa [Store.isClosed, hstate hm] at hopen

/-- A call elsewhere changes neither side. -/
theorem Recalls.of_state {call : StoreCall} (h : c.Recalls m history)
    (hcall : c.callOn? m call = none)
    (hstate : m.index < c.store.maps.length → (c.run call).store.state m = c.store.state m)
    (hentries : ((c.run call).store.state m).entries = (c.store.state m).entries) :
    (c.run call).Recalls m (history ++ (c.callOn? m call).toList) := by
  intro hunremoved key value
  rw [hcall, Option.toList_none, List.append_nil, hentries]
  exact h (hunremoved.of_run hstate) key value

/-- **A call keeps the bindings and the calls in step.** -/
theorem Recalls.run (h : c.Recalls m history)
    (hmade : ∀ m ∈ c.handles, m.index < c.store.maps.length) (call : StoreCall) :
    (c.run call).Recalls m (history ++ (c.callOn? m call).toList) := by
  cases call with
  | openMap name =>
    exact h.of_state rfl (fun hm => Store.state_openMap_of_lt hm name)
      (c.store.entries_openMap name m)
  | clone handle => exact h.of_state rfl (fun _ => rfl) rfl
  | via handle call =>
    by_cases hhandle : c.handles[handle]? = some m
    · have hrun : c.run (.via handle call) = { c with store := (c.store.perform m call).2 } := by
        simp only [Client.run, hhandle]
      intro hunremoved key value
      -- a removed map would have stayed so
      have hopen : c.store.isClosed m = false := by
        have hopen' :=
          hunremoved ((hmade m (List.mem_of_getElem? hhandle)).trans_le (c.length_run _))
        rcases hclosed : c.store.isClosed m with _ | _
        · rfl
        · rwa [hrun, Store.perform_of_closed hclosed, hclosed] at hopen'
      rw [callOn?, if_pos hhandle, Option.toList_some, latestPut_concat, hrun,
        Store.get?_perform hopen, h (fun _ => hopen) key value]
    · have hstate := state_run_via hhandle call
      exact h.of_state (if_neg hhandle) (fun _ => hstate) (congrArg MapState.entries hstate)

theorem Recalls.runAll (h : c.Recalls m history) (htracks : c.Tracks removed)
    (calls : List StoreCall) :
    (c.runAll calls).Recalls m (history ++ c.callsOn m calls) := by
  induction calls generalizing c history removed with
  | nil => rwa [callsOn, List.append_nil]
  | cons call calls ih =>
    rw [callsOn, ← List.append_assoc]
    exact ih (h.run htracks.made call) (htracks.run call)

end Client

/-! ### One order -/

/-- The map answers all questions from one list of keys, and its values are those of the latest
    puts. -/
structure Store.OneOrder (s : Store) (m : MapId) (calls : List MapCall) (keys : List Bytes) :
    Prop where
  increasing : keys.Pairwise fun a b => compare a b = .lt
  size : s.size m = .ok keys.length
  drained : s.keys m none = .ok keys
  upward : Follows (s.higherKey m) (s.firstKey m) keys
  downward : Follows (s.lowerKey m) (s.lastKey m) keys.reverse
  /-- From a probe on there are the keys at or after it. -/
  drainedFrom : ∀ probe,
    s.keys m (some probe) = .ok (keys.filter fun key => (compare probe key).isLE)
  upwardFrom : ∀ probe,
    Follows (s.higherKey m) (s.ceilingKey m probe) (keys.filter fun key => (compare probe key).isLE)
  bound : ∀ key ∈ keys, ∃ value, s.get m key = .ok (some value)
  unbound : ∀ key, key ∉ keys → s.get m key = .ok none
  latest : ∀ key value, s.get m key = .ok (some value) ↔ LatestPut key value calls

theorem KeyStart.ahead_atOrAfter (entries : SortedMap Bytes Bytes) (probe : Bytes) :
    (atOrAfter probe).ahead entries = entries.keys.filter fun key => (compare probe key).isLE := by
  refine List.filter_congr fun key _ => ?_
  rw [covers, Std.OrientedCmp.isGE_eq_isLE]

theorem Store.oneOrder_of_read {s : Store} {map : MapId} {m : SortedMap Bytes Bytes}
    {calls : List MapCall} (hread : s.read map = .ok m)
    (hrecalls : ∀ key value, m.get? key = some value ↔ LatestPut key value calls) :
    s.OneOrder map calls m.keys := by
  have hget (key : Bytes) : s.get map key = .ok (m.get? key) := by rw [get, hread, map_ok]
  refine ⟨m.keys_sorted, ?size, ?drained, ?upward, ?downward, ?drainedFrom, ?upwardFrom,
    ?bound, ?unbound, ?latest⟩
  case size => rw [size, hread, map_ok, m.length_keys]
  case drained => rw [keys_eq hread, Option.elim_none, KeyStart.ahead_anywhere]
  case upward =>
    rw [← KeyStart.ahead_anywhere m, firstKey, hread]
    exact follows_ahead hread .anywhere
  case downward =>
    have hlast : s.lastKey map = .ok m.keys.reverse.head? := Edge.outermost_eq hread .last
    rw [hlast]
    exact follows_inward hread .last (List.nil_append _).symm
  case drainedFrom =>
    intro probe
    rw [keys_eq hread, Option.elim_some, KeyStart.ahead_atOrAfter]
  case upwardFrom =>
    intro probe
    rw [← KeyStart.ahead_atOrAfter m, ceilingKey, hread]
    exact follows_ahead hread (.atOrAfter probe)
  case bound =>
    intro key hkey
    obtain ⟨value, hvalue⟩ := SortedMap.mem_keys.1 hkey
    exact ⟨value, (hget key).trans (congrArg Except.ok (SortedMap.get?_eq_some_iff.2 hvalue))⟩
  case unbound =>
    intro key hkey
    rw [hget, SortedMap.get?_eq_none_iff.2 hkey]
  case latest =>
    intro key value
    rw [hget, Except.ok.injEq]
    exact hrecalls key value

namespace Client

/-- **All questions about neighbours see one order**, in any map that is open after any calls
    through any handles: to drain an iterator, with or without a probe, is to follow the neighbours
    of the keys, upward or downward.  The keys are those that have been put and not taken away
    since, and each leads to the value of its latest put. -/
theorem oneOrder_runAll (calls : List StoreCall) (m : MapId)
    (hopen : (empty.runAll calls).store.isClosed m = false) :
    ∃ keys, (empty.runAll calls).store.OneOrder m (empty.callsOn m calls) keys := by
  have hrecalls := (recalls_empty m).runAll tracks_empty calls fun _ => hopen
  rw [List.nil_append] at hrecalls
  exact ⟨_, Store.oneOrder_of_read (Store.read_eq_ok_iff.2 ⟨hopen, rfl⟩) hrecalls⟩

/-- Keys of which one begins another, put through two handles, one of them twice and one put,
    removed and put again. -/
theorem oneOrder_runAll_cloned :
    let calls : List StoreCall := [.openMap "a", .clone 0, .via 0 (.put [7] []), .via 1 .clear,
      .via 0 (.put [2] [1]), .via 1 (.put [2, 0] []), .openMap "b", .via 2 (.put [2] [9]),
      .via 1 (.rename "b"), .via 0 (.remove [2]), .via 1 (.put [1, 0xff] []), .via 1 (.put [2] [3]),
      .via 0 (.rename "c"), .via 0 (.put [2] [4])]
    let s := (empty.runAll calls).store
    s.isClosed ⟨0⟩ = false ∧ s.keys ⟨0⟩ none = .ok [[1, 0xff], [2], [2, 0]] ∧
      s.get ⟨0⟩ [2] = .ok (some [4]) ∧
      ∃ keys, s.OneOrder ⟨0⟩ (empty.callsOn ⟨0⟩ calls) keys := by
  intro calls s
  exact ⟨by decide, by decide, by decide, oneOrder_runAll calls ⟨0⟩ (by decide)⟩

end Client
end OrderedIndex
