/-
  OrderedIndex/Proofs/Table/Reopening.lean
  ========================================
  **Indexes over several sessions.**

  A session that declares the indexes of the last one again numbers them from 1, and so
  an index can come by another map than the one it had: a new one, which is filled, or
  one that was left behind, which is taken as it is.  `attached_to_leftover` is a history
  in which the second happens, and the index lacks a row from then on.

  A history is regular (`Session.Regular`) if a map that is there already is taken over
  only by the index that has filled it.  Then the indexes are in step with the rows at
  every point of all sessions, and every session declares all of them again
  (`inStep_passAll`).

    * An index that gets its own map back mirrors the rows as before (`Hosted.attach`).
    * An index that gets a new map can be filled, since it mirrored the same rows under
      the old one (`Hosted.redeclare`).
    * So the session takes over one index after the other (`Resuming.step`).
-/
import OrderedIndex.Proofs.Table.Hosted

namespace OrderedIndex

namespace Session

variable {s cur : Session} {rows : List Row} {own : SortedMap String MapId} {ix : Index}
  {m : SortedMap Bytes Bytes}

theorem run_of_fill {declaration : Declaration} {d : Descriptor} {store store' : Store}
    (hd : s.table.newDescriptor declaration.name declaration.columns declaration.unique = .ok d)
    (hcreate : Index.create s.store d s.table.columns.length s.table.config = .ok (ix, store))
    (hfill : s.table.fillIfEmpty store ix = .ok store')
    (hleft : s.table.nextIndexId.next? ≠ none) :
    (s.run declaration.command).2 = ⟨store', s.table.withIndex ix⟩ := by
  show (s.createIndex declaration.name declaration.columns declaration.unique).2 = _
  rw [createIndex_of_fill hd hcreate hfill hleft]

/-! ### One index -/

/-- **An index gets its own map back.**  There is nothing to fill: either there are entries, or
    there are no rows. -/
theorem Hosted.attach (h : s.Hosted own rows) (hdeclares : s.table.Declares ix)
    (hid : ix.descriptor.id = s.table.nextIndexId) (hleft : s.table.nextIndexId.next? ≠ none)
    (hnew : s.table.hasIndex ix.name = false)
    (hfree : ∀ e ∈ s.table.maps, e.1 ≠ ix.descriptor.mapName)
    (hlisted : s.store.directory.get? ix.descriptor.mapName = some ix.map)
    (hnamed : s.store.nameOf ix.map = ix.descriptor.mapName) (hread : s.store.read ix.map = .ok m)
    (hm : ix.Mirrors m rows) :
    (s.run ix.declaration.command).2 = ⟨s.store, s.table.withIndex ix⟩ ∧
      Hosted ⟨s.store, s.table.withIndex ix⟩ (own.insert ix.descriptor.mapName ix.map) rows := by
  have hcreate := hdeclares.create_eq s.store s.table.nextIndexId
  rw [← hid, show Descriptor.mapNameOf ix.name ix.descriptor.id = ix.descriptor.mapName from rfl,
    Store.openMap_of_listed hlisted] at hcreate
  have hfill : s.table.fillIfEmpty s.store ix = .ok s.store := by
    rw [Table.fillIfEmpty, Index.needsRebuild, Index.size, Index.entries, hread, mapError_ok,
      map_ok, map_ok, ok_bind]
    split
    · rename_i hempty
      have hsize : m.size = 0 := by simpa using hempty
      have hnil : rows = [] :=
        List.eq_nil_of_length_eq_zero ((hm.size_eq h.sound.idsIncrease).symm.trans hsize)
      obtain ⟨m', hread', hm'⟩ := h.stored
      rw [Table.fill_eq hread' hm', hnil]
      rfl
    · rfl
  have hrun : (s.run ix.declaration.command).2 = ⟨s.store, s.table.withIndex ix⟩ := by
    have hd := hdeclares.newDescriptor_eq hnew
    rw [← hid] at hd
    exact run_of_fill hd hcreate hfill hleft
  have hother : ∀ e ∈ s.table.maps, e.2 ≠ ix.map := by
    intro e he heq
    have hname : s.store.nameOf e.2 = e.1 := h.wired.named e he
    rw [heq, hnamed] at hname
    exact hfree e he hname.symm
  have hwired :
      (s.table.withIndex ix).Wired (s.store.listing (own.insert ix.descriptor.mapName ix.map)) :=
    h.wired.join hid hleft hnew hfree hother rfl
      (fun e he => ⟨h.wired.isOpen e he, h.wired.named e he⟩)
      ⟨Store.isClosed_of_read hread, hnamed⟩
  refine ⟨hrun, ?_, h.sound.withIndex hwired (fun _ _ hk => hk) hread hm hdeclares.config, ?_⟩
  · intro e he
    rcases SortedMap.mem_insert.1 he with rfl | ⟨he, -⟩
    · exact SortedMap.get?_eq_some_iff.1 hlisted
    · exact h.listed he
  · have hdeclared := h.declared.run ix.declaration.command
    rw [hrun] at hdeclared
    exact hdeclared

/-- **An index gets a new map**, which takes all rows, since the index took them before. -/
theorem Hosted.redeclare (h : s.Hosted own rows) (hdeclares : s.table.Declares ix)
    (hleft : s.table.nextIndexId.next? ≠ none) (hnew : s.table.hasIndex ix.name = false)
    (hfree : s.store.directory.get? (Descriptor.mapNameOf ix.name s.table.nextIndexId) = none)
    (hm : ix.Mirrors m rows) :
    ∃ store own', (s.run ix.declaration.command).2 =
        ⟨store, s.table.withIndex (ix.under s.table.nextIndexId s.store.made)⟩ ∧
      (s.store.openMap (Descriptor.mapNameOf ix.name s.table.nextIndexId)).2.Rewrites store
        [s.store.made] ∧
      Hosted ⟨store, s.table.withIndex (ix.under s.table.nextIndexId s.store.made)⟩ own' rows := by
  have hcreates : s.Creates ix.name (ix.under s.table.nextIndexId s.store.made) :=
    ⟨rfl, rfl, hnew, rfl, hdeclares.config, hfree⟩
  obtain ⟨m', hread', hm'⟩ := h.stored
  obtain ⟨store, hadd, hfill⟩ :=
    hcreates.exists_fill hread' hm' h.sound.idsIncrease hm.encodable hm.unique
  have hrun : (s.run ix.declaration.command).2 =
      ⟨store, s.table.withIndex (ix.under s.table.nextIndexId s.store.made)⟩ := by
    have hcreate := hdeclares.create_eq s.store s.table.nextIndexId
    rw [show (s.store.openMap (Descriptor.mapNameOf ix.name s.table.nextIndexId)).1 =
      s.store.made by
      rw [Store.openMap_of_free hfree]] at hcreate
    exact run_of_fill (hdeclares.newDescriptor_eq hnew) hcreate
      ((Table.fillIfEmpty_eq_fill hcreates.read_empty).trans hfill) hleft
  have hdeclared := h.declared.run ix.declaration.command
  rw [hrun] at hdeclared
  exact ⟨store, _, hrun, Index.rewrites_foldlM_add hadd, h.made hcreates hleft hfill hdeclared⟩

/-! ### Beginning a session -/

/-- The session before it declares any index. -/
theorem Hosted.reopened (h : s.Hosted own rows) :
    ∃ own', (s.reopened (lastIdOf rows)).Hosted own' rows := by
  have hprimary := Table.mem_maps_primary (t := s.table)
  have honly (e : String × MapId) :
      e ∈ (SortedMap.empty.insert (Table.mapNameOf s.table.name s.table.id)
      s.table.primary : SortedMap String MapId).entries ↔
          e = (Table.mapNameOf s.table.name s.table.id, s.table.primary) := by
    rw [SortedMap.mem_insert]
    simp
  refine ⟨SortedMap.empty.insert (Table.mapNameOf s.table.name s.table.id) s.table.primary, ?listed,
    ⟨⟨Table.distinct_new .., ?directory, ?isOpen, ?named⟩, h.stored, ?mirrored, ?id_le,
      ?configured⟩, ?declared⟩
  case listed =>
    intro e he
    rw [(honly e).1 he]
    exact SortedMap.get?_eq_some_iff.1 (h.get?_eq_some hprimary)
  case directory =>
    intro e
    exact (honly e).trans List.mem_singleton.symm
  case isOpen =>
    intro e he
    rw [List.mem_singleton.1 he]
    exact h.wired.isOpen _ hprimary
  case named =>
    intro e he
    rw [List.mem_singleton.1 he]
    exact h.wired.named _ hprimary
  case id_le => exact fun r hr => h.sound.idsIncrease.le_lastIdOf hr
  case mirrored | configured | declared =>
    intro ix hix
    cases hix

theorem Hosted.reopen (h : s.Hosted own rows) : s.reopen = .ok (s.reopened (lastIdOf rows)) := by
  obtain ⟨m, hread, hm⟩ := h.stored
  exact reopen_of_stores (h.get?_eq_some Table.mem_maps_primary) hread hm

/-- If the name that the map of an index would get in the next session is taken, it is the index's
    own. -/
def Resumable (s : Session) : Prop :=
  ∀ p ∈ s.table.indexes.zipIdx 1,
    s.store.hasMap (Descriptor.mapNameOf p.1.name ⟨.ofNat p.2⟩) = true →
      p.1.descriptor.id = ⟨.ofNat p.2⟩

instance (s : Session) : Decidable s.Resumable := List.decidableBAll _ _

/-- The next session after it has declared some of the indexes again. -/
structure Resuming (s : Session) (rows : List Row) (done : List Index) (cur : Session) : Prop where
  hosted : ∃ own, cur.Hosted own rows
  id_eq : cur.table.id = s.table.id
  name_eq : cur.table.name = s.table.name
  columns_eq : cur.table.columns = s.table.columns
  config_eq : cur.table.config = s.table.config
  next_eq : cur.table.nextIndexId.word.toNat = done.length + 1
  declarations_eq : cur.table.declarations = done.map Index.declaration
  touches : s.store.Touches cur.store []
  listed : s.store.directory.entries ⊆ cur.store.directory.entries
  /-- The new names are those of maps that have been made for indexes. -/
  names : ∀ n ∈ cur.store.directory.keys, n ∈ s.store.directory.keys ∨
    ∃ a id, id.word < cur.table.nextIndexId.word ∧ n = Descriptor.mapNameOf a id

theorem Hosted.resuming (h : s.Hosted own rows) :
    s.Resuming rows [] (s.reopened (lastIdOf rows)) where
  hosted := h.reopened
  id_eq := rfl
  name_eq := rfl
  columns_eq := rfl
  config_eq := rfl
  next_eq := rfl
  declarations_eq := rfl
  touches := .refl _ _
  listed := List.Subset.refl _
  names _ hn := .inl hn

variable {done rest : List Index}

/-- The name of the next index is not in use. -/
theorem Resuming.hasIndex_eq_false (h : s.Hosted own rows)
    (hsplit : s.table.indexes = done ++ ix :: rest) (hcur : s.Resuming rows done cur) :
    cur.table.hasIndex ix.name = false := by
  rw [Table.hasIndex_eq_false_iff]
  intro old hold heq
  have hmem : old.declaration ∈ done.map Index.declaration := by
    rw [← hcur.declarations_eq]
    exact List.mem_map_of_mem hold
  obtain ⟨old', hold', hdeclaration⟩ := List.mem_map.1 hmem
  have hname : old'.name = ix.name := (congrArg Declaration.name hdeclaration).trans heq
  have hnodup : (s.table.indexes.map Index.name).Nodup := h.wired.names_nodup
  rw [hsplit, List.map_append, List.nodup_append] at hnodup
  exact hnodup.2.2 _ (List.mem_map_of_mem hold') _ List.mem_cons_self hname

/-- There are ids for all indexes, since the last session has given out as many. -/
theorem Resuming.next?_ne_none (h : s.Hosted own rows)
    (hsplit : s.table.indexes = done ++ ix :: rest) (hcur : s.Resuming rows done cur) :
    cur.table.nextIndexId.next? ≠ none := by
  rw [IndexId.next?_ne_none_iff, hcur.next_eq]
  have hlength := h.wired.length_lt
  have hword : s.table.nextIndexId.word.toNat < UInt32.size := UInt32.toNat_lt_size _
  rw [hsplit, List.length_append, List.length_cons] at hlength
  omega

/-- A name that is taken when its turn comes has been taken before. -/
theorem Resuming.id_eq_of_hasMap (hresumable : s.Resumable)
    (hsplit : s.table.indexes = done ++ ix :: rest) (hcur : s.Resuming rows done cur)
    (hhas : cur.store.hasMap (Descriptor.mapNameOf ix.name cur.table.nextIndexId) = true) :
    ix.descriptor.id = cur.table.nextIndexId := by
  have hmem : (ix, done.length + 1) ∈ s.table.indexes.zipIdx 1 := by
    rw [List.mk_mem_zipIdx_iff_le_and_getElem?_sub, hsplit]
    exact ⟨Nat.le_add_left 1 _, by simp⟩
  have hresumed := hresumable _ hmem
  rw [← hcur.next_eq, UInt32.ofNat_toNat] at hresumed
  refine hresumed ?_
  rw [Store.hasMap_eq_true_iff] at hhas ⊢
  rcases hcur.names _ hhas with hold | ⟨a, id, hlt, heq⟩
  · exact hold
  · rw [← (Descriptor.mapNameOf_inj heq).2] at hlt
    exact absurd hlt (UInt32.lt_irrefl _)

/-- An index that is made as `ix` was joins those that have been declared again. -/
theorem Resuming.join (hcur : s.Resuming rows done cur)
    (hleft : cur.table.nextIndexId.next? ≠ none) {new : Index} {store : Store}
    (hhosted : ∃ own, Hosted ⟨store, cur.table.withIndex new⟩ own rows)
    (hnew : new.declaration = ix.declaration) (htouches : cur.store.Touches store [])
    (hlisted : cur.store.directory.entries ⊆ store.directory.entries)
    (hnames : ∀ n ∈ store.directory.keys, n ∈ cur.store.directory.keys ∨
      n = Descriptor.mapNameOf ix.name cur.table.nextIndexId) :
    s.Resuming rows (done ++ [ix]) ⟨store, cur.table.withIndex new⟩ where
  hosted := hhosted
  id_eq := hcur.id_eq
  name_eq := hcur.name_eq
  columns_eq := hcur.columns_eq
  config_eq := hcur.config_eq
  next_eq := by
    show (cur.table.nextIndexId.word + 1).toNat = _
    rw [IndexId.toNat_next hleft, hcur.next_eq, List.length_append]
    rfl
  declarations_eq := by
    show (cur.table.indexes ++ [new]).map Index.declaration = _
    rw [List.map_append, List.map_append, ← hcur.declarations_eq, List.map_singleton, hnew]
    rfl
  touches := hcur.touches.trans htouches
  listed := List.Subset.trans hcur.listed hlisted
  names := by
    intro n hn
    rcases hnames n hn with hn | rfl
    · rcases hcur.names n hn with hold | ⟨a, id, hlt, heq⟩
      · exact .inl hold
      · exact .inr ⟨a, id, UInt32.lt_trans hlt (IndexId.lt_next hleft), heq⟩
    · exact .inr ⟨ix.name, cur.table.nextIndexId, IndexId.lt_next hleft, rfl⟩

/-- **The next index is declared again**, on its own map or on a new one. -/
theorem Resuming.step (h : s.Hosted own rows) (hresumable : s.Resumable)
    (hsplit : s.table.indexes = done ++ ix :: rest) (hcur : s.Resuming rows done cur) :
    s.Resuming rows (done ++ [ix]) (cur.run ix.declaration.command).2 := by
  have hmem : ix ∈ s.table.indexes := by simp [hsplit]
  obtain ⟨own', h'⟩ := hcur.hosted
  obtain ⟨m, hread, hm⟩ := h.mirrored hmem
  have hdeclares : cur.table.Declares ix :=
    (h.declared ix hmem).congr hcur.name_eq hcur.columns_eq hcur.config_eq
  have hnew := hcur.hasIndex_eq_false h hsplit
  have hleft := hcur.next?_ne_none h hsplit
  rcases hhas : cur.store.hasMap (Descriptor.mapNameOf ix.name cur.table.nextIndexId) with _ | _
  case false =>
    -- a new map, which takes the rows that the index had under its old one
    have hfree := Store.hasMap_eq_false_iff.1 hhas
    obtain ⟨store, own'', hrun, hr, h''⟩ := h'.redeclare hdeclares hleft hnew hfree hm
    rw [hrun]
    have hdirectory := hr.directory_eq
    rw [Store.openMap_of_free hfree] at hdirectory
    refine hcur.join hleft ⟨own'', h''⟩ rfl (Store.touches_of_made hr) ?_ ?_
    · intro e he
      rw [hdirectory]
      refine SortedMap.mem_insert.2 (.inr ⟨he, ?_⟩)
      intro heq
      refine SortedMap.get?_eq_none_iff.1 hfree ?_
      rw [← heq]
      exact SortedMap.mem_keys.2 ⟨e.2, he⟩
    · intro n hn
      rw [hdirectory] at hn
      exact (SortedMap.mem_keys_insert.1 hn).symm
  case true =>
    -- its own map, which no step of this session has touched
    have hid := hcur.id_eq_of_hasMap hresumable hsplit hhas
    have hmaps := Table.mem_maps_of_mem hmem
    have hlt := Store.index_lt_of_isClosed (Store.isClosed_of_read hread)
    have hlisted : cur.store.directory.get? ix.descriptor.mapName = some ix.map :=
      SortedMap.get?_eq_some_iff.2
        (hcur.listed (SortedMap.get?_eq_some_iff.1 (h.get?_eq_some hmaps)))
    have hnamed : cur.store.nameOf ix.map = ix.descriptor.mapName :=
      (hcur.touches.nameOf_eq _ hlt List.not_mem_nil).trans (h.wired.named _ hmaps)
    have hread' : cur.store.read ix.map = .ok m :=
      (hcur.touches.read_eq _ hlt List.not_mem_nil).trans hread
    have hmapName : ix.descriptor.mapName = Descriptor.mapNameOf ix.name cur.table.nextIndexId :=
      congrArg (Descriptor.mapNameOf ix.name) hid
    have hprimary : Table.mapNameOf s.table.name s.table.id ≠ ix.descriptor.mapName := by
      intro heq
      have hsame : s.table.primary = ix.map :=
        (h.wired.name_eq_iff Table.mem_maps_primary hmaps).1 heq
      refine h.wired.primary_not_mem ?_
      rw [hsame]
      exact List.mem_map_of_mem hmem
    have hfree : ∀ e ∈ cur.table.maps, e.1 ≠ ix.descriptor.mapName := by
      rw [← hcur.name_eq, ← hcur.id_eq, hmapName] at hprimary
      rw [hmapName]
      exact Table.mapNameOf_free hnew hprimary
    obtain ⟨hrun, h''⟩ := h'.attach hdeclares hid hleft hnew hfree hlisted hnamed hread' hm
    rw [hrun]
    exact hcur.join hleft ⟨_, h''⟩ rfl (.refl _ _) (List.Subset.refl _) fun n hn => .inl hn

theorem Resuming.runAll (h : s.Hosted own rows) (hresumable : s.Resumable)
    (hsplit : s.table.indexes = done ++ rest) (hcur : s.Resuming rows done cur) :
    s.Resuming rows s.table.indexes (cur.runAll (rest.map (·.declaration.command))) := by
  induction rest generalizing done cur with
  | nil =>
    rw [hsplit, List.append_nil]
    exact hcur
  | cons ix rest ih => exact ih (by rw [hsplit, List.append_cons]) (hcur.step h hresumable hsplit)

/-- **The next session has the same rows and the same indexes**, in step with each other. -/
theorem Hosted.resume (h : s.Hosted own rows) (hresumable : s.Resumable) :
    ∃ next own', s.resume = .ok next ∧ next.Hosted own' rows ∧
      next.table.declarations = s.table.declarations := by
  have hall := h.resuming.runAll h hresumable rfl
  obtain ⟨own', h'⟩ := hall.hosted
  refine ⟨_, own', ?_, h', hall.declarations_eq⟩
  rw [Session.resume, h.reopen, map_ok, Table.declarations, List.map_map]
  rfl

/-! ### Histories -/

/-- A map that is there already is taken over only by the index that has filled it. -/
def Regular (s : Session) : Event → Prop
  | .command c => s.Unshared c
  | .reopening => s.Resumable

instance (s : Session) : DecidablePred s.Regular := fun e =>
  match e with
  | .command c => inferInstanceAs (Decidable (s.Unshared c))
  | .reopening => inferInstanceAs (Decidable s.Resumable)

theorem Hosted.pass (h : s.Hosted own rows) {e : Event} (he : s.Regular e) :
    ∃ s', s.pass Session.resume e = .ok s' ∧ ∃ own' rows', s'.Hosted own' rows' := by
  cases e with
  | command c => exact ⟨_, rfl, h.run he⟩
  | reopening =>
    obtain ⟨next, own', hresume, h', -⟩ := h.resume he
    exact ⟨next, hresume, own', rows, h'⟩

/-- **The indexes stay in step with the rows over all sessions of a table, as long as a map that is
    there already is taken over only by the index that has filled it.**  In every session the table
    is opened again and its indexes are declared again, in their order, and then any commands are
    run.  Nothing of that fails to lead on, and a session that begins with all indexes on their own
    maps or on new ones has the rows and the indexes of the last one. -/
theorem inStep_passAll (id : TableId) (name : String) (columns : List Column)
    (config : IndexConfig) (es : List Event)
    (hes : ∀ v ∈ (fresh id name columns config).visits resume es, v.1.Regular v.2) :
    ∃ s, (fresh id name columns config).passAll resume es = .ok s ∧ s.InStep ∧
      (s.Resumable → ∃ next, s.resume = .ok next ∧ next.InStep ∧
        next.table.rows next.store = s.table.rows s.store ∧
        next.table.declarations = s.table.declarations) := by
  obtain ⟨s, hpass, own, rows, h⟩ := exists_passAll (p := fun s => ∃ own rows, s.Hosted own rows)
    (fun s e ⟨own, rows, h⟩ he => h.pass he) ⟨_, [], hosted_fresh id name columns config⟩ hes
  refine ⟨s, hpass, h.inStep, ?_⟩
  intro hresumable
  obtain ⟨next, own', hresume, h', hdeclarations⟩ := h.resume hresumable
  exact ⟨next, hresume, h'.inStep, h'.rows_eq.trans h.rows_eq.symm, hdeclarations⟩

/-- Four sessions.  In the second one both indexes get their own maps back; the first index is
    dropped, so that the other one gets a new map in the third, which leaves its old one behind; and
    in the last one it has its own again. -/
theorem inStep_passAll_sessions :
    let es : List Event := [.command (.createIndex "a" [("n", .ascending)] false),
      .command (.createIndex "b" [("n", .descending)] true), .command (.insert [.integer 5]),
      .reopening, .command (.insert [.integer 6]), .command (.insert [.integer 5]),
      .command (.dropIndex "a"), .reopening, .command (.insert [.integer 7]),
      .command (.delete ⟨1⟩), .command (.renameIndex "b" "t"), .reopening,
      .command (.createIndex "c" [("n", .ascending)] true)]
    (∀ v ∈ (fresh ⟨1⟩ "t" [.new 0 "n" .integer] .default).visits resume es, v.1.Regular v.2) ∧
      ∃ s, (fresh ⟨1⟩ "t" [.new 0 "n" .integer] .default).passAll resume es = .ok s ∧ s.InStep := by
  intro es
  have hes : ∀ v ∈ (fresh ⟨1⟩ "t" [.new 0 "n" .integer] .default).visits resume es,
      v.1.Regular v.2 := by decide +kernel
  obtain ⟨s, hpass, hs, -⟩ := inStep_passAll _ _ _ _ es hes
  exact ⟨hes, s, hpass, hs⟩

/-- An index that has got a new map, and so has left its old one behind, is made anew under its old
    id.  It takes the old map over as it is, without the row that was inserted in the meantime. -/
theorem attached_to_leftover :
    let es : List Event := [.command (.createIndex "a" [("n", .ascending)] false),
      .command (.createIndex "b" [("n", .ascending)] false), .command (.insert [.integer 5]),
      .command (.dropIndex "a"), .reopening, .command (.insert [.integer 6]),
      .command (.dropIndex "b"), .command (.createIndex "b" [("n", .ascending)] false)]
    (∀ e ∈ es, e.Spares "t") ∧
      ∃ s, (fresh ⟨1⟩ "t" [.new 0 "n" .integer] .default).passAll resume es = .ok s ∧
        ¬s.InStep := by
  intro es
  have hs : ∃ s, (fresh ⟨1⟩ "t" [.new 0 "n" .integer] .default).passAll resume es = .ok s ∧
      (s.table.size s.store).toOption = some 2 ∧
          s.table.indexes.map (fun ix => (ix.size s.store).toOption) = [some 1] :=
    exists_ok_of_any (by decide +kernel)
  obtain ⟨s, hpass, hsize, hindexes⟩ := hs
  refine ⟨by decide, s, hpass, ?_⟩
  rintro ⟨rows, -, hrows, hall⟩
  have hone : some 1 ∈ s.table.indexes.map (fun ix => (ix.size s.store).toOption) := by
    rw [hindexes]
    exact List.mem_singleton_self _
  obtain ⟨ix, hix, heq⟩ := List.mem_map.1 hone
  obtain ⟨-, -, -, -, -, hix⟩ := hall ix hix
  rw [hix] at heq
  rw [hrows] at hsize
  cases heq.symm.trans hsize

end Session
end OrderedIndex
