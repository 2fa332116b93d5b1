/-
  OrderedIndex/Proofs/Handles.lean
  ================================
  **What the handles of a store lead to**, after any calls through any of them.

  The name of a map is kept twice, and several handles lead to one map, so a call
  through one of them shows through the others.  A history keeps account of the maps
  that it removes (`Client.Tracks`): the handles that are closed are those of these maps,
  and nothing is left in them.  One call keeps the account (`Tracks.run`), so a whole
  history does (`Tracks.runAll`).

  A call touches the map behind its own handle only (`Client.state_run`), so a map that
  is opened under a name that was free is out of reach for all earlier handles
  (`Client.state_runAll`).
-/
import OrderedIndex.Proofs.Directory
import OrderedIndex.Store.Client
import OrderedIndex.Store.KeyIter

namespace OrderedIndex

namespace Store

variable {s s' : Store} {m m' : MapId} {call : MapCall} {name : String}

/-! ### One call -/

/-- A call fails, or it changes the entries of an open map, or its name, or removes it. -/
theorem perform_cases (s : Store) (m : MapId) (call : MapCall) :
    (∃ e, s.perform m call = (.error e, s)) ∨ s.isClosed m = false ∧
      ((call ≠ .removeMap ∧ ∃ old entries, s.perform m call = (.ok old, s.setEntries m entries)) ∨
        (∃ name s', call = .rename name ∧ s.rename m name = .ok s' ∧
          s.perform m call = (.ok none, s')) ∨
        ∃ s', call = .removeMap ∧ s.removeMap m = .ok s' ∧ s.perform m call = (.ok none, s')) := by
  cases call with
  | put key value =>
    rcases hread : s.read m with e | entries
    · exact .inl ⟨e, by simp only [perform, put, hread, map_error]⟩
    · refine .inr ⟨isClosed_of_read hread,
        .inl ⟨by simp, entries.get? key, entries.insert key value, ?_⟩⟩
      simp only [perform, put, hread, map_ok]
  | remove key =>
    rcases hread : s.read m with e | entries
    · exact .inl ⟨e, by simp only [perform, remove, hread, map_error]⟩
    · refine .inr ⟨isClosed_of_read hread, .inl ⟨by simp, entries.get? key, entries.erase key, ?_⟩⟩
      simp only [perform, remove, hread, map_ok]
  | clear =>
    rcases hread : s.read m with e | entries
    · exact .inl ⟨e, by simp only [perform, clear, hread, map_error]⟩
    · refine .inr ⟨isClosed_of_read hread, .inl ⟨by simp, none, .empty, ?_⟩⟩
      simp only [perform, clear, hread, map_ok]
  | rename name =>
    rcases h : s.rename m name with e | s'
    · exact .inl ⟨e, by simp only [perform, h, map_error]⟩
    · exact .inr ⟨isClosed_of_rename h,
        .inr (.inl ⟨name, s', rfl, h, by simp only [perform, h, map_ok]⟩)⟩
  | removeMap =>
    rcases h : s.removeMap m with e | s'
    · exact .inl ⟨e, by simp only [perform, h, map_error]⟩
    · exact .inr ⟨isClosed_of_removeMap h,
        .inr (.inr ⟨s', rfl, rfl, by simp only [perform, h, map_ok]⟩)⟩

theorem perform_of_error {e : StoreError} (h : (s.perform m call).1 = .error e) :
    (s.perform m call).2 = s := by
  rcases perform_cases s m call with
    ⟨_, heq⟩ | ⟨-, ⟨-, old, entries, heq⟩ | ⟨_, _, -, -, heq⟩ | ⟨_, -, -, heq⟩⟩
  · rw [heq]
  all_goals
    rw [heq] at h
    cases h

theorem perform_of_closed (h : s.isClosed m = true) (call : MapCall) :
    s.perform m call = (.error (.closed (s.nameOf m)), s) := by
  cases call <;> simp [perform, put, remove, clear, rename, removeMap, read, h]

theorem state_perform (hm : m' ≠ m) (call : MapCall) :
    (s.perform m call).2.state m' = s.state m' := by
  rcases perform_cases s m call with
    ⟨e, heq⟩ | ⟨hopen, ⟨-, old, entries, heq⟩ | ⟨name, s', -, hrename, heq⟩ | ⟨s', -, hremove, heq⟩⟩
  · rw [heq]
  · rw [heq, state_setEntries hopen, if_neg hm]
  · rw [heq, (rename_eq_ok hrename).2.2, if_neg hm]
  · rw [heq, state_removeMap hremove, if_neg hm]

theorem length_perform (s : Store) (m : MapId) (call : MapCall) :
    (s.perform m call).2.maps.length = s.maps.length := by
  rcases perform_cases s m call with
    ⟨e, heq⟩ | ⟨-, ⟨-, old, entries, heq⟩ | ⟨name, s', -, hrename, heq⟩ | ⟨s', -, hremove, heq⟩⟩
  · rw [heq]
  · rw [heq, length_setEntries]
  · rw [heq, (rename_eq_ok hrename).1]
  · rw [heq, length_removeMap hremove]

theorem WellListed.perform (h : s.WellListed) (m : MapId) (call : MapCall) :
    (s.perform m call).2.WellListed := by
  rcases perform_cases s m call with
    ⟨e, heq⟩ | ⟨hopen, ⟨-, old, entries, heq⟩ | ⟨name, s', -, hrename, heq⟩ | ⟨s', -, hremove, heq⟩⟩
  · rw [heq]
    exact h
  · rw [heq]
    exact h.of_rewrites (rewrites_setEntries hopen entries)
  · rw [heq]
    exact h.rename hrename
  · rw [heq]
    exact h.removeMap hremove

theorem rename_of_perform {old : Option Bytes} (h : (s.perform m (.rename name)).1 = .ok old) :
    s.rename m name = .ok (s.perform m (.rename name)).2 := by
  rcases hr : s.rename m name with e | s' <;> simp [perform, hr] at h ⊢

theorem removeMap_of_perform {old : Option Bytes} (h : (s.perform m .removeMap).1 = .ok old) :
    s.removeMap m = .ok (s.perform m .removeMap).2 := by
  rcases hr : s.removeMap m with e | s' <;> simp [perform, hr] at h ⊢

/-- The name of a map is free once the map has lost it. -/
theorem WellListed.hasMap_perform (h : s.WellListed) (hopen : s.isClosed m = false)
    (hlost : (s.perform m call).2.isClosed m = true ∨ (s.perform m call).2.nameOf m ≠ s.nameOf m) :
    (s.perform m call).2.hasMap (s.nameOf m) = false := by
  rw [hasMap_eq_false_iff, Option.eq_none_iff_forall_ne_some]
  intro m' hget
  obtain ⟨hopen', hname'⟩ := (h.perform m call _ m').1 hget
  by_cases hm : m' = m
  · subst hm
    rcases hlost with hclosed | hname
    · exact Bool.false_ne_true (hopen'.symm.trans hclosed)
    · exact hname hname'
  · -- another open map cannot have had the name
    rw [isClosed, state_perform hm] at hopen'
    rw [nameOf, state_perform hm] at hname'
    exact hm (h.eq_of_nameOf hopen' hopen hname')

theorem isClosed_renamed (h : s.rename m name = .ok s') (m' : MapId) :
    s'.isClosed m' = s.isClosed m' := by
  rw [isClosed, isClosed, (rename_eq_ok h).2.2]
  split
  · rename_i hm
    rw [hm]
  · rfl

/-- The map is gone: no name leads to it, nothing is left in it, and every call through a handle of
    it fails. -/
structure Gone (s : Store) (m : MapId) : Prop where
  unlisted : ∀ name, s.directory.get? name ≠ some m
  emptied : (s.state m).entries = .empty
  calls : ∀ call, s.perform m call = (.error (.closed (s.nameOf m)), s)
  get : ∀ key, s.get m key = .error (.closed (s.nameOf m))
  size : s.size m = .error (.closed (s.nameOf m))
  ceilingKey : ∀ key, s.ceilingKey m key = .error (.closed (s.nameOf m))
  higherKey : ∀ key, s.higherKey m key = .error (.closed (s.nameOf m))
  lowerKey : ∀ key, s.lowerKey m key = .error (.closed (s.nameOf m))
  firstKey : s.firstKey m = .error (.closed (s.nameOf m))
  lastKey : s.lastKey m = .error (.closed (s.nameOf m))
  keyIter : ∀ start, s.keyIter m start = .error (.closed (s.nameOf m))

theorem WellListed.gone (h : s.WellListed) (hclosed : s.isClosed m = true)
    (hempty : (s.state m).entries = .empty) : s.Gone m := by
  have hread : s.read m = .error (.closed (s.nameOf m)) := by rw [read, if_pos hclosed]
  refine ⟨?_, hempty, perform_of_closed hclosed, ?_, ?_, ?_, ?_, ?_, ?_, ?_, ?_⟩
  · intro name hget
    exact Bool.false_ne_true (((h name m).1 hget).1.symm.trans hclosed)
  all_goals
    intros
    simp only [get, size, ceilingKey, higherKey, lowerKey, firstKey, lastKey,
      keyIter, hread, map_error]

end Store

namespace Client

variable {c : Client} {call : StoreCall} {calls : List StoreCall} {m : MapId} {removed : List MapId}

/-! ### Handles of other maps -/

/-- The calls are made through handles that do not lead to the map. -/
def Spares (m : MapId) : Client → List StoreCall → Prop
  | _, [] => True
  | c, call :: calls =>
    (∀ handle request, call = .via handle request → c.handles[handle]? ≠ some m) ∧
      Spares m (c.run call) calls

theorem length_run (c : Client) (call : StoreCall) :
    c.store.maps.length ≤ (c.run call).store.maps.length := by
  cases call with
  | openMap name => exact (Store.touches_openMap c.store name).length_le
  | clone handle => exact Nat.le_refl _
  | via handle request =>
    rw [run]
    split
    · exact Nat.le_refl _
    · exact Nat.le_of_eq (Store.length_perform ..).symm

theorem state_run_via {handle : Nat} (hhandle : c.handles[handle]? ≠ some m) (request : MapCall) :
    (c.run (.via handle request)).store.state m = c.store.state m := by
  rw [run]
  split
  · rfl
  · rename_i m' hm'
    refine Store.state_perform ?_ request
    rintro rfl
    exact hhandle hm'

/-- A call leaves a map alone unless it is made through one of its handles. -/
theorem state_run (hm : m.index < c.store.maps.length)
    (hcall : ∀ handle request, call = .via handle request → c.handles[handle]? ≠ some m) :
    (c.run call).store.state m = c.store.state m := by
  cases call with
  | openMap name => exact Store.state_openMap_of_lt hm name
  | clone handle => rfl
  | via handle request => exact state_run_via (hcall handle request rfl) request

theorem state_run_of_closed (hm : m.index < c.store.maps.length)
    (hclosed : c.store.isClosed m = true) (call : StoreCall) :
    (c.run call).store.state m = c.store.state m := by
  by_cases hcall : ∃ handle request, call = .via handle request ∧ c.handles[handle]? = some m
  · obtain ⟨handle, request, rfl, hhandle⟩ := hcall
    simp only [run, hhandle, Store.perform_of_closed hclosed]
  · exact state_run hm fun handle request heq hhandle => hcall ⟨handle, request, heq, hhandle⟩

/-- After the call a map is removed, whether it was before or not. -/
theorem run_removeMap {handle : Nat} (hhandle : c.handles[handle]? = some m) :
    (c.run (.via handle .removeMap)).store.isClosed m = true ∧
      (c.run (.via handle .removeMap)).store.nameOf m = c.store.nameOf m := by
  simp only [run, hhandle]
  rcases hclosed : c.store.isClosed m with _ | _
  · obtain ⟨s', hremove⟩ := Store.exists_removeMap hclosed
    simp [Store.perform, hremove, Store.isClosed, Store.nameOf, Store.state_removeMap hremove]
  · rw [Store.perform_of_closed hclosed]
    exact ⟨hclosed, rfl⟩

theorem state_runAll (hm : m.index < c.store.maps.length) (hcalls : c.Spares m calls) :
    (c.runAll calls).store.state m = c.store.state m := by
  induction calls generalizing c with
  | nil => rfl
  | cons call calls ih =>
    exact (ih (hm.trans_le (c.length_run call)) hcalls.2).trans (state_run hm hcalls.1)

/-! ### Removed maps -/

/-- The handles that are closed are those of the removed maps, and nothing is left in these. -/
structure Tracks (c : Client) (removed : List MapId) : Prop where
  listed : c.store.WellListed
  made : ∀ m ∈ c.handles, m.index < c.store.maps.length
  closed_iff : ∀ m ∈ c.handles, c.store.isClosed m = true ↔ m ∈ removed
  emptied : ∀ m ∈ removed, m.index < c.store.maps.length ∧ c.store.isClosed m = true ∧
    (c.store.state m).entries = .empty

theorem tracks_empty : empty.Tracks [] where
  listed := Store.wellListed_empty
  made := by simp [empty]
  closed_iff := by simp [empty]
  emptied := by simp

theorem Tracks.openMap (h : c.Tracks removed) (name : String) :
    (c.run (.openMap name)).Tracks removed := by
  have hkept {m : MapId} (hm : m.index < c.store.maps.length) :
      (c.store.openMap name).2.state m = c.store.state m := Store.state_openMap_of_lt hm name
  have hopen := (h.listed.opened name).1
  have hnew : (c.store.openMap name).1 ∉ removed := by
    intro hmem
    obtain ⟨hlt, hclosed, -⟩ := h.emptied _ hmem
    rw [Store.isClosed, hkept hlt] at hopen
    exact Bool.false_ne_true (hopen.symm.trans hclosed)
  have hhandles : (c.run (.openMap name)).handles = c.handles ++ [(c.store.openMap name).1] := rfl
  refine ⟨h.listed.openMap name, ?made, ?closed_iff, ?emptied⟩
  case made =>
    rw [hhandles, List.forall_mem_append, List.forall_mem_singleton]
    exact ⟨fun m hm => (h.made m hm).trans_le (c.length_run _),
      Store.index_openMap_lt h.listed name⟩
  case closed_iff =>
    rw [hhandles, List.forall_mem_append, List.forall_mem_singleton]
    constructor
    · intro m hm
      rw [← h.closed_iff m hm]
      exact iff_of_eq (congrArg (fun st => MapState.closed st = true) (hkept (h.made m hm)))
    · exact iff_of_false (Bool.eq_false_iff.1 hopen) hnew
  case emptied =>
    intro m hm
    obtain ⟨hlt, hclosed, hempty⟩ := h.emptied m hm
    refine ⟨hlt.trans_le (c.length_run _), ?_, ?_⟩
    · exact (congrArg MapState.closed (hkept hlt)).trans hclosed
    · exact (congrArg MapState.entries (hkept hlt)).trans hempty

/-- A call that closes nothing touches open maps only. -/
theorem Tracks.of_kept (h : c.Tracks removed) {store : Store} (hlisted : store.WellListed)
    (hlength : store.maps.length = c.store.maps.length)
    (hclosed : ∀ m, store.isClosed m = c.store.isClosed m)
    (hstate : ∀ m, c.store.isClosed m = true → store.state m = c.store.state m) :
    Tracks { c with store } removed where
  listed := hlisted
  made m hm := (h.made m hm).trans_eq hlength.symm
  closed_iff m hm := by rw [hclosed, h.closed_iff m hm]
  emptied m hm := by
    obtain ⟨hlt, hm, hempty⟩ := h.emptied m hm
    exact ⟨hlt.trans_eq hlength.symm, (hclosed m).trans hm,
      (congrArg MapState.entries (hstate m hm)).trans hempty⟩

theorem Tracks.removeMap (h : c.Tracks removed) (hm : m ∈ c.handles) {store : Store}
    (hstore : c.store.removeMap m = .ok store) : Tracks { c with store } (removed ++ [m]) := by
  have hstate := Store.state_removeMap hstore
  have hlength := Store.length_removeMap hstore
  refine ⟨h.listed.removeMap hstore, fun m' hm' => (h.made m' hm').trans_eq hlength.symm, ?_, ?_⟩
  · intro m' hm'
    rw [List.mem_append, List.mem_singleton, ← h.closed_iff m' hm', Store.isClosed,
      Store.isClosed, hstate]
    by_cases heq : m' = m <;> simp [heq]
  · rw [List.forall_mem_append, List.forall_mem_singleton]
    constructor
    · intro m' hm'
      obtain ⟨hlt, hclosed, hempty⟩ := h.emptied m' hm'
      rw [Store.isClosed, hstate, hlength]
      split
      · exact ⟨hlt, rfl, rfl⟩
      · exact ⟨hlt, hclosed, hempty⟩
    · rw [Store.isClosed, hstate, if_pos rfl, hlength]
      exact ⟨h.made m hm, rfl, rfl⟩

/-- **A call keeps the account of the removed maps.** -/
theorem Tracks.run (h : c.Tracks removed) (call : StoreCall) :
    (c.run call).Tracks (removed ++ (c.removes? call).toList) := by
  cases call with
  | openMap name =>
    rw [removes?, Option.toList_none, List.append_nil]
    exact h.openMap name
  | clone handle =>
    rw [removes?, Option.toList_none, List.append_nil]
    have hhandles : ∀ m ∈ c.handles ++ c.handles[handle]?.toList, m ∈ c.handles := by
      rw [List.forall_mem_append]
      exact ⟨fun _ hm => hm, fun m hm => List.mem_of_getElem? (Option.mem_toList.1 hm)⟩
    exact ⟨h.listed, fun m hm => h.made m (hhandles m hm),
      fun m hm => h.closed_iff m (hhandles m hm), h.emptied⟩
  | via handle request =>
    rcases hm : c.handles[handle]? with _ | m
    · simp only [Client.run, removes?, hm, Option.filter_none, Option.toList_none, List.append_nil]
      exact h
    simp only [Client.run, removes?, hm, Option.filter_some]
    have hopen_ne {m' : MapId} (hopen : c.store.isClosed m = false)
        (hm' : c.store.isClosed m' = true) : m' ≠ m := by
      rintro rfl
      exact Bool.false_ne_true (hopen.symm.trans hm')
    rcases Store.perform_cases c.store m request with
      ⟨e, heq⟩ | ⟨hopen, ⟨hrequest, old, entries, heq⟩ | ⟨name, store, rfl, hrename, heq⟩ |
        ⟨store, rfl, hremove, heq⟩⟩
    · simpa [heq, Except.isOk, Except.toBool] using h
    · have hkept :=
        h.of_kept (h.listed.of_rewrites (Store.rewrites_setEntries hopen entries))
          Store.length_setEntries
        (Store.isClosed_setEntries hopen entries) fun m' hm' => by
          rw [Store.state_setEntries hopen, if_neg (hopen_ne hopen hm')]
      simpa [heq, hrequest] using hkept
    · have hkept :=
        h.of_kept (h.listed.rename hrename) (Store.rename_eq_ok hrename).1
          (Store.isClosed_renamed hrename)
        fun m' hm' => by rw [(Store.rename_eq_ok hrename).2.2, if_neg (hopen_ne hopen hm')]
      simpa [heq] using hkept
    · simpa [heq, Except.isOk, Except.toBool] using h.removeMap (List.mem_of_getElem? hm) hremove

theorem Tracks.runAll (h : c.Tracks removed) (calls : List StoreCall) :
    (c.runAll calls).Tracks (removed ++ c.removals calls) := by
  induction calls generalizing c removed with
  | nil => rwa [removals, List.append_nil]
  | cons call calls ih =>
    rw [removals, ← List.append_assoc]
    exact ih (h.run call)

/-! ### Names and handles -/

/-- Names and handles belong together, given the maps that have been removed. -/
structure InOrder (c : Client) (removed : List MapId) : Prop where
  leads : ∀ name m, c.store.directory.get? name = some m → c.store.isClosed m = false ∧
    c.store.nameOf m = name
  listed : ∀ m ∈ c.handles, m ∉ removed → ∀ name, c.store.directory.get? name = some m ↔
    c.store.nameOf m = name
  gone : ∀ m ∈ removed, c.store.Gone m
  failed : ∀ m call e, (c.store.perform m call).1 = .error e → (c.store.perform m call).2 = c.store
  renamed : ∀ m name old, (c.store.perform m (.rename name)).1 = .ok old →
    (c.store.perform m (.rename name)).2.nameOf m = name
  /-- A map that is removed or gets another name leaves its name free. -/
  freed : ∀ m call old, (c.store.perform m call).1 = .ok old →
    call = .removeMap ∨ (∃ name, call = .rename name ∧ name ≠ c.store.nameOf m) →
      (c.store.perform m call).2.hasMap (c.store.nameOf m) = false
  /-- Under a free name there is a new map, which no handle but those given out from now on leads
      to. -/
  opened : ∀ name, c.store.hasMap name = false → ∃ m, m ∉ c.handles ∧
    (c.run (.openMap name)).handles = c.handles ++ [m] ∧
      ∀ calls, (c.run (.openMap name)).Spares m calls →
        ((c.run (.openMap name)).runAll calls).store.state m = ⟨name, .empty, false⟩

theorem Tracks.inOrder (h : c.Tracks removed) : c.InOrder removed where
  leads name m hget := (h.listed name m).1 hget
  listed m hm hnot name := by
    have hopen : c.store.isClosed m = false := Bool.eq_false_iff.2 (mt (h.closed_iff m hm).1 hnot)
    rw [h.listed name m, hopen]
    simp
  gone m hm := h.listed.gone (h.emptied m hm).2.1 (h.emptied m hm).2.2
  failed m call e := Store.perform_of_error
  renamed := by
    intro m name old hok
    rw [Store.nameOf, (Store.rename_eq_ok (Store.rename_of_perform hok)).2.2, if_pos rfl]
  freed := by
    rintro m call old hok (rfl | ⟨name, rfl, hname⟩)
    · have hremove := Store.removeMap_of_perform hok
      refine h.listed.hasMap_perform (Store.isClosed_of_removeMap hremove) (.inl ?_)
      rw [Store.isClosed, Store.state_removeMap hremove, if_pos rfl]
    · have hrename := Store.rename_of_perform hok
      refine h.listed.hasMap_perform (Store.isClosed_of_rename hrename) (.inr ?_)
      rw [Store.nameOf, (Store.rename_eq_ok hrename).2.2, if_pos rfl]
      exact hname
  opened := by
    intro name hfree
    have hfree := Store.hasMap_eq_false_iff.1 hfree
    have hnew : c.store.made ∉ c.handles := fun hm => Nat.lt_irrefl _ (h.made _ hm)
    have hrun :
        c.run (.openMap name) = ⟨(c.store.openMap name).2, c.handles ++ [c.store.made]⟩ := by
      rw [Client.run, Store.openMap_of_free hfree]
    refine ⟨c.store.made, hnew, by rw [hrun], ?_⟩
    intro calls hcalls
    have hlt : c.store.made.index < (c.run (.openMap name)).store.maps.length := by
      rw [hrun, Store.openMap_of_free hfree]
      simp [Store.made]
    rw [state_runAll hlt hcalls, hrun, Store.state_openMap hfree, if_pos rfl]

/-- **Names and handles belong together**, after any calls through any handles. -/
theorem inOrder_runAll (calls : List StoreCall) :
    (empty.runAll calls).InOrder (empty.removals calls) :=
  (tracks_empty.runAll calls).inOrder

example :
    let calls : List StoreCall := [.openMap "a", .clone 0, .via 0 (.put [1] []), .via 1 .removeMap,
      .openMap "a", .via 0 (.put [2] []), .via 2 (.rename "b")]
    (empty.runAll calls).handles = [⟨0⟩, ⟨0⟩, ⟨1⟩] ∧ empty.removals calls = [⟨0⟩] ∧
      (empty.runAll calls).store.state ⟨1⟩ = ⟨"b", .empty, false⟩ := by
  decide

end Client
end OrderedIndex
