import Fastetcd.Laws.Mvcc.Moves

/-!
# Runs

Every step of a run is a sequence of moves (`Step.moves`), so what the moves keep holds of every run
(`Run.invariant`). The store's invariant is kept by all of them and holds of every reachable store
(`Reachable.inv`).
-/

namespace Fastetcd.Mvcc

open Timeline Reference KeyIndex Content Replay Std

/-! ## Reads and the value cache -/

theorem zip_eq_of_map_eq {α β γ : Type} {f : α → γ} {g : β → γ} {as : List α} {bs : List β}
    (same : as.map f = bs.map g) : ∀ pair ∈ bs.zip as, f pair.2 = g pair.1 := by
  induction bs generalizing as with
  | nil => simp
  | cons b bs ih =>
    cases as with
    | nil => simp
    | cons a as =>
      simp only [List.map_cons, List.cons.injEq] at same
      simp only [List.zip_cons_cons, List.mem_cons, forall_eq_or_imp]
      exact ⟨same.1, ih same.2⟩

/-- What a fill leaves in the cache was there or was read. -/
theorem mem_fillValues {rows : List ((Bytes × Revision) × (KvRecord × Bool))} {values : ValueCache}
    {key : Bytes} {slot : Revision × KvRecord}
    (held : (rows.foldl (fun values row =>
      if row.2.2 then valueInsert values row.1.1 row.1.2 row.2.1 true else values) values)[key]? =
        some slot) :
    values[key]? = some slot ∨
      ∃ row ∈ rows, row.1 = (key, slot.1) ∧ row.2.1 = slot.2 := by
  induction rows generalizing values with
  | nil => exact .inl held
  | cons row rows ih =>
    rw [List.foldl_cons] at held
    rcases ih held with before | ⟨row', mem, found⟩
    · by_cases read : row.2.2 = true
      · rw [if_pos read] at before
        rcases slot_of_valueInsert before with old | ⟨rfl, rfl⟩
        · exact .inl old
        · exact .inr ⟨row, by simp, rfl, rfl⟩
      · rw [if_neg read] at before
        exact .inl before
    · exact .inr ⟨row', List.mem_cons_of_mem _ mem, found⟩

section Reads

variable {s : Store}

/-- A Range with no write in progress. -/
theorem rangeWithRevision_spec (inv : s.Inv) (r : RangeOp) :
    (∃ e, checkReadRev s.writeState.revs r.revision = .error e ∧
      s.rangeWithRevision r = (.error e, s)) ∨
    ∃ main values, checkReadRev s.writeState.revs r.revision = .ok (Revision.endOf main) ∧
      s.rangeWithRevision r =
        (.ok (answer (s.content.readAt (Revision.endOf main)) r, s.writeState.currentRev),
          { s with values }) ∧
      ∀ {key : Bytes} {slot}, values[key]? = some slot → s.values[key]? = some slot ∨
        s.engine.kv[KvKey.mk key slot.1]? = some slot.2 := by
  have start := inv.txnStart
  have current : s.view.current = s.writeState.currentRev := congrArg Revs.current inv.view
  unfold Store.rangeWithRevision
  rw [inv.view, current]
  cases checked : checkReadRev s.writeState.revs r.revision with
  | error e => exact .inl ⟨e, rfl, rfl⟩
  | ok readRev =>
    right
    obtain ⟨rfl, target⟩ := checkReadRev_ok checked
    generalize reading : (if r.revision = 0 then s.writeState.revs.current else r.revision) = main
      at checked ⊢
    have reach : main ≤ s.writeState.currentRev := by
      have nonneg := start.nonneg
      have revs : s.writeState.revs.current = s.writeState.currentRev := rfl
      split at reading <;> omega
    obtain ⟨recs, fetched, records, result⟩ := fetchRecords_plan start.coherent start.inv
      start.cache r (.inl reach)
    rw [overlay_empty] at result records
    refine ⟨main, if r.revision == 0 || r.revision == s.writeState.currentRev then
      fillValues s.values (planRange s.index {} r.key r.rangeEnd (Revision.endOf main) r.limit
        r.countOnly).hits recs else s.values, rfl, ?_, fun {key slot} held => ?_⟩
    · simp only [fetched, result]
      split <;> rfl
    · split at held
      · rcases mem_fillValues held with before | ⟨row, mem, same, read⟩
        · exact .inl before
        · right
          have stored := zip_eq_of_map_eq records row mem
          rw [same, read] at stored
          exact stored.symm
      · exact .inl held

theorem quiet_range (inv : s.Inv) (r : RangeOp) : Quiet s (s.rangeWithRevision r).2 := by
  rcases rangeWithRevision_spec inv r with ⟨e, -, refused⟩ | ⟨main, values, -, served, filled⟩
  · rw [refused]
    exact .refl inv
  · rw [served]
    refine ⟨rfl, rfl, ⟨rfl, rfl⟩, rfl, rfl, fun {key rev rec} held => ?_, rfl⟩
    rcases filled held with before | stored
    · exact inv.values before
    · have named := (inv.content.rows key rev rec.deleted).mpr (congrArg _ stored)
      exact ⟨(inv.settled key _ named).2, fun found => Option.some.inj (found.symm.trans stored)⟩

theorem quiet_evict (inv : s.Inv) (kept : Bytes → Bool) :
    Quiet s { s with values := s.values.filter fun k _ => kept k } := by
  refine ⟨rfl, rfl, ⟨rfl, rfl⟩, rfl, rfl, fun held => inv.values ?_, rfl⟩
  simp only [ExtTreeMap.getElem?_filter'] at held
  exact (Option.filter_eq_some_iff.mp held).1

/-! ## Reopening -/

theorem loadIndex_eq (inv : s.Inv) : loadIndex s.engine = s.index := by
  refine ExtTreeMap.ext_getElem? fun key => ?_
  rw [loadIndex, Table.getElem?_foldl fun t row => getElem?_indexSet t row.1 row.2.generations,
    inv.idx key]
  cases known : s.index[key]? with
  | none => simp
  | some gens => simp [(inv.content.wellFormed known).1]

/-- Storing the counters of a new engine changes nothing else. -/
theorem initTables_eq (t : Tables) :
    initTables t = { t with metaRows := (initTables t).metaRows } ∧
      readWriteState (initTables t) = readWriteState t := by
  unfold initTables
  split
  · next fresh => exact ⟨rfl, by rw [fresh]; rfl⟩
  · exact ⟨rfl, rfl⟩

theorem readWriteState_engine (inv : s.Inv) :
    (readWriteState s.engine).revs = s.writeState.revs := by
  rw [WriteState.revs, readWriteState, inv.stored.1, inv.stored.2]
  rfl

/-- Opening the engine again finds the same keys. -/
theorem content_open (inv : s.Inv) : (Store.open s.engine).content = s.content := by
  have same := (initTables_eq s.engine).1
  have index : loadIndex (initTables s.engine) = s.index := by
    rw [← loadIndex_eq inv, loadIndex, loadIndex, same]
  simp only [Store.content, Store.open, index]
  rw [same]

theorem Store.Inv.reopened (inv : s.Inv) : (Store.open s.engine).Inv := by
  have same := (initTables_eq s.engine).1
  have kept : readWriteState (initTables s.engine) = readWriteState s.engine :=
    (initTables_eq s.engine).2
  have content := content_open inv
  have revs : (Store.open s.engine).writeState.revs = s.writeState.revs :=
    readWriteState_engine inv
  have current : (Store.open s.engine).writeState.currentRev = s.writeState.currentRev :=
    congrArg Revs.current revs
  have compact : (Store.open s.engine).writeState.compactRev = s.writeState.compactRev :=
    congrArg Revs.compact revs
  refine ⟨content ▸ inv.content, fun key => ?_, fun key x mem => ?_, rfl, ⟨?_, ?_⟩, ?_,
    fun key x mem low => ?_, fun held => ?_⟩
  · have index : (Store.open s.engine).index = s.index := congrArg Content.index content
    rw [index, ← inv.idx key]
    simp only [Store.open]
    rw [same]
  · rw [content] at mem
    rw [current]
    exact inv.settled key x mem
  · exact congrArg WriteState.currentRev kept
  · exact congrArg WriteState.compactRev kept
  · rw [current, compact]
    exact inv.compact
  · rw [content] at mem ⊢
    rw [compact] at low ⊢
    exact inv.floor key x mem low
  · simp [Store.open] at held

end Reads

/-! ## Requests -/

section Requests

variable {s : Store}

theorem quiet_failed (inv : s.Inv) : Quiet s { s with pendingRaftMeta := [] } :=
  .same inv rfl rfl rfl rfl rfl rfl

theorem Wrote.move {effects : List Effect} {ws : List Write} {t : Store} (wrote : Wrote s ws t)
    (effected : Effected s effects ws) :
    ∃ batches, t.broadcast = s.broadcast ++ batches ∧ Move s effects batches t :=
  ⟨_, wrote.broadcast, .wrote wrote effected⟩

/-- What a served request was answered decides its move. -/
theorem Served.move {α : Type} {engineOk : Bool} {reference : Except MvccError (α × List Write)}
    {served : Except MvccError α × Store} (h : Served s engineOk reference served) (inv : s.Inv)
    {effects : Except MvccError α → List Effect} (silent : ∀ e, effects (.error e) = [])
    (ran : ∀ {a ws}, reference = .ok (a, ws) → Ordered ws ∧ Effected s (effects (.ok a)) ws) :
    ∃ batches, served.2.broadcast = s.broadcast ++ batches ∧
      Move s (effects served.1) batches served.2 := by
  cases h with
  | refused e =>
    rw [silent]
    exact ⟨[], by simp, .quiet (.refl inv)⟩
  | failed =>
    rw [silent]
    exact ⟨[], by simp, .quiet (quiet_failed inv)⟩
  | idle a => exact (Wrote.none inv).move (ran rfl).2
  | wrote ok some recorded revs =>
    obtain ⟨ordered, effected⟩ := ran rfl
    exact (Wrote.committed inv some recorded revs ordered).move effected

theorem apply_move (inv : s.Inv) (ms : List Mutation) (engineOk : Bool) :
    ∃ batches, (s.apply ms engineOk).2.broadcast = s.broadcast ++ batches ∧
      Move s (ofApply ms (s.apply ms engineOk).1) batches (s.apply ms engineOk).2 := by
  refine (apply_served inv ms engineOk).move inv (fun _ => rfl) fun {a ws} ran => ?_
  unfold Reference.apply at ran
  split at ran
  · next empty =>
    cases ran
    rw [List.isEmpty_iff] at empty
    subst empty
    exact ⟨List.Pairwise.nil, le_rfl, fun _ => rfl,
      fun e mem => .inr ⟨by rw [List.mem_singleton.mp mem]; rfl, rfl⟩⟩
  · simp only [bind, Except.bind] at ran
    split at ran
    · cases ran
    · next out mutated =>
      cases ran
      exact ⟨(mutations_ordered mutated).1, le_rfl, fun _ => (plainOf_mutations mutated).symm,
        fun e mem => .inl (by rw [List.mem_singleton.mp mem]; rfl)⟩

theorem txn_move (inv : s.Inv) (compares : List Compare) (success failure : List TxnOp)
    (engineOk : Bool) :
    ∃ batches, (s.txn compares success failure engineOk).2.broadcast = s.broadcast ++ batches ∧
      Move s (Replay.ofTxn success failure (s.txn compares success failure engineOk).1) batches
        (s.txn compares success failure engineOk).2 := by
  refine (txn_served inv compares success failure engineOk).move inv (fun _ => rfl)
    fun {result ws} ran => ?_
  obtain ⟨replays, ordered, revision⟩ := plainOf_txn ran
  have main : s.env.main = s.writeState.currentRev + 1 := rfl
  have current : s.env.revs.current = s.writeState.currentRev := rfl
  rw [main, current] at revision
  refine ⟨ordered, le_rfl, fun _ => replays, fun e mem => ?_⟩
  rw [List.mem_singleton.mp mem]
  change result.revision = _ ∨ result.revision = _ ∧ _
  cases ws with
  | nil => exact .inr ⟨revision, rfl⟩
  | cons => exact .inl revision

/-- A revoke is its cascade's writes, whatever becomes of the lease itself. -/
theorem leaseRevoke_move (inv : s.Inv) (id : LeaseId) (engineOk : Bool) :
    ∃ batches, (s.applyLeaseRevoke id engineOk).2.broadcast = s.broadcast ++ batches ∧
      Move s (ofRevoke id (s.applyLeaseRevoke id engineOk).1) batches
        (s.applyLeaseRevoke id engineOk).2 := by
  obtain ⟨results, ws, mutated, -, cases⟩ := leaseRevoke_cases inv id engineOk
  have replays (rev : Int) (scanned : ∀ e ∈ [Effect.revoke rev id], e.isScanned = true) :
      [Effect.revoke rev id].foldl Effect.run (plainOf s.content.cells) =
        plainOf (ws.foldl Reference.write s.content.cells) := by
    have exact := scanned _ (List.mem_singleton_self _)
    simp only [Effect.isScanned, Bool.and_eq_true, bne_iff_ne] at exact
    refine (plainOf_cascade id mutated fun key => ?_).symm
    rw [mem_attachedKeys inv]
    simp only [inBounds_leaseKeysBounds exact.1 exact.2, revokes, Bool.and_eq_true, bne_iff_ne,
      beq_iff_eq]
    grind
  rcases cases with ⟨-, result⟩ | ⟨-, rfl, -, result⟩ | ⟨-, some, ctx, recorded, revs, result⟩ <;>
    rw [result]
  · exact ⟨[], by simp, .quiet (quiet_failed inv)⟩
  · have same : Quiet s (s.leaseDropped id) :=
      ⟨rfl, rfl, ⟨rfl, rfl⟩, rfl, rfl, inv.values, rfl⟩
    refine ((Wrote.none inv).quiet same).move ⟨le_rfl, replays _, fun e mem => .inr ⟨?_, rfl⟩⟩
    rw [List.mem_singleton.mp mem]
    rfl
  · have wrote := Wrote.committed inv some recorded revs (mutations_ordered mutated).1
    have same : Quiet (s.committed (s.writeState.currentRev + 1) ctx) (s.revoked id ctx) :=
      ⟨rfl, rfl, ⟨rfl, rfl⟩, rfl, rfl, wrote.inv.values, rfl⟩
    refine (wrote.quiet same).move ⟨le_rfl, replays _, fun e mem => .inl ?_⟩
    rw [List.mem_singleton.mp mem]
    rfl

theorem serve_move (inv : s.Inv) {item : ApplyItem} {outcome : ApplyOutcome} {t : Store}
    (served : s.serve item = (.ok outcome, t)) :
    ∃ batches, t.broadcast = s.broadcast ++ batches ∧ Move s (ofOutcome item outcome) batches t := by
  cases item with
  | mutations ms =>
    obtain ⟨batches, broadcast, move⟩ := apply_move inv ms true
    simp only [Store.serve] at served
    generalize s.apply ms true = result at served broadcast move
    obtain ⟨answer, t'⟩ := result
    cases answer with
    | ok a =>
      cases served
      exact ⟨batches, broadcast, move⟩
    | error e =>
      simp only [answered] at served
      split at served <;> cases served
      exact ⟨batches, broadcast, move⟩
  | txn compares success failure =>
    obtain ⟨batches, broadcast, move⟩ := txn_move inv compares success failure true
    simp only [Store.serve] at served
    generalize s.txn compares success failure true = result at served broadcast move
    obtain ⟨answer, t'⟩ := result
    cases answer with
    | ok a =>
      cases served
      exact ⟨batches, broadcast, move⟩
    | error e =>
      simp only [answered] at served
      split at served <;> cases served
      exact ⟨batches, broadcast, move⟩

theorem Move.inv {effects : List Effect} {batches : List EventBatch} {t : Store}
    (move : Move s effects batches t) (inv : s.Inv) : t.Inv := by
  cases move with
  | quiet same => exact same.inv inv
  | wrote wrote _ => exact wrote.inv
  | compacted positive _ reached => exact inv.compactedAt positive reached
  | reopened => exact inv.reopened

theorem Moves.inv {effects : List Effect} {batches : List EventBatch} {t : Store}
    (moves : Moves s effects batches t) (inv : s.Inv) : t.Inv := by
  induction moves with
  | none => exact inv
  | tail _ move ih => exact move.inv ih

theorem serveAll_moves {items : List ApplyItem} :
    ∀ {s t : Store} {outcomes : List ApplyOutcome}, s.Inv → s.serveAll items = (.ok outcomes, t) →
      ∃ batches, t.broadcast = s.broadcast ++ batches ∧
        Moves s (ofApplyMany items (.ok outcomes)) batches t := by
  induction items with
  | nil =>
    intro s t outcomes _ served
    cases served
    exact ⟨[], by simp, .none⟩
  | cons item items ih =>
    intro s t outcomes inv served
    simp only [Store.serveAll] at served
    split at served
    · cases served
    · next outcome next first =>
      obtain ⟨batches, broadcast, move⟩ := serve_move inv first
      split at served
      · cases served
      · next outcomes' last rest =>
        cases served
        obtain ⟨more, broadcastRest, moves⟩ := ih (move.inv inv) rest
        refine ⟨batches ++ more, by rw [broadcastRest, broadcast, List.append_assoc], ?_⟩
        exact move.moves.trans moves

/-- Two stores with the same keys and counters agree in everything but the value cache. -/
theorem Quiet.alike {t m : Store} (invM : m.Inv) (invT : t.Inv) (content : m.content = t.content)
    (state : m.writeState = t.writeState) (broadcast : m.broadcast = t.broadcast) : Quiet t m := by
  have index : m.index = t.index := congrArg Content.index content
  have kv : m.engine.kv = t.engine.kv := congrArg Content.kv content
  refine ⟨content, ExtTreeMap.ext_getElem? fun key => ?_, ⟨?_, ?_⟩, by rw [state], ?_,
    fun held => ?_, broadcast⟩
  · rw [invM.idx, invT.idx, index]
  · rw [invM.stored.1, invT.stored.1, state]
  · rw [invM.stored.2, invT.stored.2, state]
  · rw [invM.view, invT.view, state]
  · rw [← state, ← kv]
    exact invM.values held

/-- A shared commit does what it does when the engine succeeds, or fails as a whole. -/
theorem applyMany_cases (s : Store) (items : List ApplyItem) (engineOk : Bool) :
    s.applyMany items engineOk = s.applyMany items true ∨
      s.applyMany items engineOk = (.error .storage, { s with pendingRaftMeta := [] }) := by
  cases engineOk with
  | true => exact .inl rfl
  | false =>
    simp only [Store.applyMany]
    split
    · exact .inl rfl
    · split
      · exact .inr rfl
      · exact .inl rfl

/-- A shared commit is its requests one by one, up to what the value cache holds. -/
theorem applyMany_moves (inv : s.Inv) {items : List ApplyItem}
    (admitted : ∀ item ∈ items, item.admitted = true) (engineOk : Bool) :
    ∃ batches, (s.applyMany items engineOk).2.broadcast = s.broadcast ++ batches ∧
      Moves s (ofApplyMany items (s.applyMany items engineOk).1) batches
        (s.applyMany items engineOk).2 := by
  rcases applyMany_cases s items engineOk with same | failed
  · rw [same]
    obtain ⟨outcomes, m, t, many, served, invM, invT, content, state, broadcast, -⟩ :=
      applyMany_serveAll inv admitted
    obtain ⟨batches, told, moves⟩ := serveAll_moves inv served
    rw [many]
    refine ⟨batches, broadcast.trans told, ?_⟩
    have quiet := Quiet.alike invM invT content state broadcast
    simpa using moves.trans (Move.quiet quiet).moves
  · rw [failed]
    exact ⟨[], by simp, (Move.quiet (quiet_failed inv)).moves⟩

theorem compact_move (inv : s.Inv) (rev : Int) (engineOk : Bool) :
    (s.compact rev engineOk).2.broadcast = s.broadcast ∧
      Move s [] [] (s.compact rev engineOk).2 := by
  rcases compact_cases inv rev engineOk with
    ⟨e, refused⟩ | ⟨-, -, repeated⟩ | ⟨positive, later, reached, result⟩
  · rw [refused]
    exact ⟨rfl, .quiet (.refl inv)⟩
  · rw [repeated]
    exact ⟨rfl, .quiet (.refl inv)⟩
  · rw [result]
    cases engineOk with
    | true => exact ⟨rfl, .compacted positive later reached⟩
    | false => exact ⟨rfl, .quiet (quiet_failed inv)⟩

end Requests

/-! ## Every step -/

section Steps

variable {s t : Store} {effects : List Effect}

theorem Quiet.moves (same : Quiet s t) :
    Moves s [] (t.broadcast.drop s.broadcast.length) t := by
  rw [same.broadcast, List.drop_length]
  exact (Move.quiet same).moves

theorem moves_of_broadcast
    (moved : ∃ batches, t.broadcast = s.broadcast ++ batches ∧ Moves s effects batches t) :
    Moves s effects (t.broadcast.drop s.broadcast.length) t := by
  obtain ⟨batches, broadcast, moves⟩ := moved
  rwa [broadcast, List.drop_left]

theorem moves_of_move
    (moved : ∃ batches, t.broadcast = s.broadcast ++ batches ∧ Move s effects batches t) :
    Moves s effects (t.broadcast.drop s.broadcast.length) t :=
  moves_of_broadcast (moved.imp fun _ => And.imp_right Move.moves)

/-- Every operation is a sequence of moves. -/
theorem Step.moves (inv : s.Inv) (step : Step s effects t) :
    Moves s effects (t.broadcast.drop s.broadcast.length) t := by
  cases step with
  | apply ms engineOk => exact moves_of_move (apply_move inv ms engineOk)
  | txn compares success failure engineOk =>
    exact moves_of_move (txn_move inv compares success failure engineOk)
  | applyMany items admitted engineOk =>
    exact moves_of_broadcast (applyMany_moves inv admitted engineOk)
  | compact rev engineOk =>
    obtain ⟨broadcast, move⟩ := compact_move inv rev engineOk
    rw [broadcast, List.drop_length]
    exact move.moves
  | leaseRevoke id engineOk => exact moves_of_move (leaseRevoke_move inv id engineOk)
  | leaseGrant id ttlSecs nowUnix engineOk =>
    exact (quiet_leaseGrant inv id ttlSecs nowUnix engineOk).moves
  | leaseKeepalive id nowUnix engineOk =>
    exact (quiet_leaseKeepalive inv id nowUnix engineOk).moves
  | clusterId id engineOk => exact (quiet_clusterId inv id engineOk).moves
  | auth op engineOk => exact (quiet_auth inv op engineOk).moves
  | stageRaftMeta | stageBatchProgress => exact Quiet.moves (.same inv rfl rfl rfl rfl rfl rfl)
  | stageBatchedMarker =>
    unfold Store.stageBatchedMarker
    split
    · exact (Quiet.refl inv).moves
    · exact Quiet.moves (.same inv rfl rfl rfl rfl rfl rfl)
  | flushRaftMeta engineOk => exact (quiet_flushRaftMeta inv engineOk).moves
  | range r => exact (quiet_range inv r).moves
  | evict kept => exact (quiet_evict inv kept).moves
  | reopen =>
    have silent : (Store.open s.engine).broadcast = [] := rfl
    rw [silent, List.drop_nil]
    exact Move.reopened.moves

/-! ### Which steps compact -/

theorem Served.compactRev {α : Type} {engineOk : Bool}
    {reference : Except MvccError (α × List Write)} {served : Except MvccError α × Store}
    (h : Served s engineOk reference served) :
    served.2.writeState.compactRev = s.writeState.compactRev := by
  cases h <;> rfl

theorem answered_snd {α : Type} (outcome : α → ApplyOutcome) (served : Except MvccError α × Store) :
    (answered outcome served).2 = served.2 := by
  obtain ⟨result, s⟩ := served
  cases result with
  | ok a => rfl
  | error e =>
    simp only [answered]
    split <;> rfl

theorem serve_compactRev (inv : s.Inv) (item : ApplyItem) :
    (s.serve item).2.writeState.compactRev = s.writeState.compactRev := by
  cases item with
  | mutations ms =>
    rw [Store.serve, answered_snd]
    exact (apply_served inv ms true).compactRev
  | txn compares success failure =>
    rw [Store.serve, answered_snd]
    exact (txn_served inv compares success failure true).compactRev

theorem serveAll_compactRev {items : List ApplyItem} :
    ∀ {s t : Store} {outcomes : List ApplyOutcome}, s.Inv → s.serveAll items = (.ok outcomes, t) →
      t.writeState.compactRev = s.writeState.compactRev := by
  induction items with
  | nil =>
    intro s t outcomes _ served
    cases served
    rfl
  | cons item items ih =>
    intro s t outcomes inv served
    simp only [Store.serveAll] at served
    split at served
    · cases served
    · next outcome next first =>
      obtain ⟨_, -, move⟩ := serve_move inv first
      have here := serve_compactRev inv item
      rw [first] at here
      split at served
      · cases served
      · next outcomes' last rest =>
        cases served
        exact (ih (move.inv inv) rest).trans here

theorem applyMany_compactRev (inv : s.Inv) {items : List ApplyItem}
    (admitted : ∀ item ∈ items, item.admitted = true) (engineOk : Bool) :
    (s.applyMany items engineOk).2.writeState.compactRev = s.writeState.compactRev := by
  rcases applyMany_cases s items engineOk with same | failed
  · obtain ⟨outcomes, m, t, many, served, -, -, -, state, -⟩ := applyMany_serveAll inv admitted
    rw [same, many, state]
    exact serveAll_compactRev inv served
  · rw [failed]

/-- A step is an accepted compaction or leaves the compaction revision. -/
theorem Step.compaction (inv : s.Inv) (step : Step s effects t) :
    (∃ c, 0 < c ∧ s.writeState.compactRev < c ∧ c ≤ s.writeState.currentRev ∧
      t = s.compactedAt c) ∨ t.writeState.compactRev = s.writeState.compactRev := by
  cases step with
  | apply ms engineOk => exact .inr (apply_served inv ms engineOk).compactRev
  | txn compares success failure engineOk =>
    exact .inr (txn_served inv compares success failure engineOk).compactRev
  | applyMany items admitted engineOk => exact .inr (applyMany_compactRev inv admitted engineOk)
  | compact rev engineOk =>
    rcases compact_cases inv rev engineOk with
      ⟨e, refused⟩ | ⟨-, -, repeated⟩ | ⟨positive, later, reached, result⟩
    · rw [refused]
      exact .inr rfl
    · rw [repeated]
      exact .inr rfl
    · rw [result]
      cases engineOk with
      | true => exact .inl ⟨rev, positive, later, reached, rfl⟩
      | false => exact .inr rfl
  | leaseRevoke id engineOk =>
    obtain ⟨results, ws, -, -, cases⟩ := leaseRevoke_cases inv id engineOk
    rcases cases with ⟨-, result⟩ | ⟨-, -, -, result⟩ | ⟨-, -, ctx, -, -, result⟩ <;> rw [result] <;>
      exact .inr rfl
  | leaseGrant id ttlSecs nowUnix engineOk =>
    exact .inr (congrArg Revs.compact (quiet_leaseGrant inv id ttlSecs nowUnix engineOk).revs)
  | leaseKeepalive id nowUnix engineOk =>
    exact .inr (congrArg Revs.compact (quiet_leaseKeepalive inv id nowUnix engineOk).revs)
  | clusterId id engineOk =>
    exact .inr (congrArg Revs.compact (quiet_clusterId inv id engineOk).revs)
  | auth op engineOk => exact .inr (congrArg Revs.compact (quiet_auth inv op engineOk).revs)
  | flushRaftMeta engineOk =>
    exact .inr (congrArg Revs.compact (quiet_flushRaftMeta inv engineOk).revs)
  | range r => exact .inr (congrArg Revs.compact (quiet_range inv r).revs)
  | stageRaftMeta | stageBatchProgress | evict => exact .inr rfl
  | stageBatchedMarker =>
    unfold Store.stageBatchedMarker
    split <;> exact .inr rfl
  | reopen => exact .inr (congrArg Revs.compact (readWriteState_engine inv))

/-- No move lowers the compaction revision, and a compaction raises it. -/
theorem Move.compactRev_le {new : List Effect} {more : List EventBatch} (inv : s.Inv)
    (move : Move s new more t) : s.writeState.compactRev ≤ t.writeState.compactRev := by
  cases move with
  | quiet same => exact (congrArg Revs.compact same.revs).ge
  | wrote wrote _ => exact wrote.compact.ge
  | compacted _ later _ => exact later.le
  | reopened => exact (congrArg Revs.compact (readWriteState_engine inv)).ge

theorem Moves.compactRev_le {batches : List EventBatch} (inv : s.Inv)
    (moves : Moves s effects batches t) : s.writeState.compactRev ≤ t.writeState.compactRev := by
  induction moves with
  | none => exact le_rfl
  | tail moves move ih => exact ih.trans (move.compactRev_le (moves.inv inv))

/-- Moves that leave the compaction revision are moves that each leave it. -/
theorem Moves.calm {P : List EventBatch → Store → Prop}
    (kept : ∀ {told s new more t}, s.Inv → P told s → Move s new more t →
      t.writeState.compactRev = s.writeState.compactRev → P (told ++ more) t)
    {batches told : List EventBatch} (inv : s.Inv) (moves : Moves s effects batches t)
    (same : t.writeState.compactRev = s.writeState.compactRev) (holds : P told s) :
    P (told ++ batches) t := by
  induction moves with
  | none => simpa using holds
  | tail moves move ih =>
    have before := moves.compactRev_le inv
    have after := move.compactRev_le (moves.inv inv)
    rw [← List.append_assoc]
    exact kept (moves.inv inv) (ih (by omega)) move (by omega)

end Steps

/-! ## Every run -/

theorem Content.Inv.empty : (⟨∅, ∅, ∅⟩ : Content).Inv where
  wellFormed known := by simp at known
  rows key rev deleted := by simp [life, gens, lifeOf]
  record held := by simp at held
  created _ held := by simp at held
  attached row := by simp [liveRow, cells]

theorem Store.Inv.start : (Store.open Tables.empty).Inv := by
  have content : (Store.open Tables.empty).content = ⟨∅, ∅, ∅⟩ := rfl
  have life (key : Bytes) : (Store.open Tables.empty).content.life key = [] := by
    simp [content, Content.life, gens, lifeOf]
  have idx : (Store.open Tables.empty).engine.idx = ∅ := rfl
  have index : (Store.open Tables.empty).index = ∅ := rfl
  refine ⟨content ▸ .empty, fun key => ?_, fun key x mem => ?_, rfl, ⟨rfl, rfl⟩, ⟨le_rfl, le_rfl⟩,
    fun key x mem => ?_, fun held => ?_⟩
  · simp [idx, index]
  · simp [life] at mem
  · simp [life] at mem
  · simp [Store.open] at held

/-- What holds of a new store and is kept by every move holds of every run. -/
theorem Run.invariant {P : List Effect → List EventBatch → Store → Prop}
    (start : P [] [] (Store.open Tables.empty))
    (kept : ∀ {effects told s new more t}, s.Inv → P effects told s → Move s new more t →
      P (effects ++ new) (told ++ more) t)
    {effects : List Effect} {told : List EventBatch} {s : Store} (run : Run effects told s) :
    s.Inv ∧ P effects told s := by
  induction run with
  | start => exact ⟨.start, start⟩
  | step _ step ih =>
    obtain ⟨inv, holds⟩ := ih
    have moves := step.moves inv
    refine ⟨moves.inv inv, ?_⟩
    generalize List.drop _ _ = batches at moves ⊢
    clear step
    induction moves with
    | none => simpa using holds
    | tail moves move ih =>
      rw [← List.append_assoc, ← List.append_assoc]
      exact kept (moves.inv inv) ih move

/-- The store's invariant holds of every store a run reaches. -/
theorem Reachable.inv {s : Store} (reachable : Reachable s) : s.Inv := by
  obtain ⟨effects, told, run⟩ := reachable
  exact (Run.invariant (P := fun _ _ _ => True) trivial (fun _ _ _ => trivial) run).1

end Fastetcd.Mvcc
