import Fastetcd.Mvcc.Store

/-!
# Writes (`storage/src/mvcc/store.rs`)

A request runs its mutations into an `ApplyContext` at one new main revision, one sub-revision
per mutation, and `commitCtx` writes the context, updates the memory beside the engine and
broadcasts the events. `applyMany` runs several requests into one context, each at its own main
revision, and commits once.

A commit takes a flag that says whether the engine's commit succeeds. Where an error leaves the
context or the store changed, the function answers both.
-/

namespace Fastetcd.Mvcc

/-! ## One mutation -/

/-- The `lease_keys` changes of a put over a record with `oldLease`. -/
def leaseMoves (key : Bytes) (oldLease newLease : LeaseId) : WriteBatch :=
  if oldLease != newLease then
    (if oldLease != 0 then [.deleteLeaseKey (leaseKeyIndex oldLease key)] else []) ++
      (if newLease != 0 then [.putLeaseKey (leaseKeyIndex newLease key)] else [])
  else []

/-- Apply one put at `rev` into `ctx`. -/
def Store.applyPut (s : Store) (snap : Tables) (ctx : ApplyContext) (rev : Revision)
    (key value : Bytes) (lease : LeaseId) (ignoreValue ignoreLease prevKv : Bool) :
    Except MvccError (MutationResult × Bool) × ApplyContext :=
  let (idx, fromCtx, ctx) := s.takeIndex ctx key
  let prev := if idx.isLive then s.latestRecordIn snap ctx key idx else none
  if (ignoreValue || ignoreLease) && prev.isNone then
    (.error (.refused .keyNotFound), restoreIndex ctx idx fromCtx)
  else
    let effectiveValue := if ignoreValue then (prev.map KvRecord.value).getD [] else value
    let effectiveLease := if ignoreLease then (prev.map KvRecord.lease).getD 0 else lease
    let (idx, version, created) := idx.recordPut rev
    let record : KvRecord :=
      { key, value := effectiveValue, createRevision := created.main, modRevision := rev.main,
        version, lease := effectiveLease, deleted := false }
    let oldLease := (prev.map KvRecord.lease).getD 0
    (.ok ({ n := 1, prevKvs := if prevKv then prev.toList else [] }, true),
      { ctx with
        batch := ctx.batch ++ .putKv ⟨key, rev⟩ record :: leaseMoves key oldLease record.lease
        idxCache := ctx.idxCache.insert key idx
        latestRecordCache := ctx.latestRecordCache.insert key record
        pendingEvents := ctx.pendingEvents ++ [⟨.put, record, prev⟩] })

/-- The record a delete writes. -/
def tombstoneRecord (key : Bytes) (rev : Revision) : KvRecord :=
  { key, value := [], createRevision := 0, modRevision := rev.main, version := 0, lease := 0,
    deleted := true }

/-- The loop body of a range delete: delete one key that was found live. -/
def Store.deleteKey (s : Store) (snap : Tables) (rev : Revision) (prevKv : Bool)
    (acc : MutationResult × ApplyContext) (liveKey : Bytes) : MutationResult × ApplyContext :=
  let (result, ctx) := acc
  let (idx, fromCtx, ctx) := s.takeIndex ctx liveKey
  let prev := if idx.isLive then s.latestRecordIn snap ctx liveKey idx else none
  match idx.recordDelete rev with
  | (idx, false) => (result, restoreIndex ctx idx fromCtx)
  | (idx, true) =>
    let tombstone := tombstoneRecord liveKey rev
    let detach := match prev with
      | some p => if p.lease != 0 then [.deleteLeaseKey (leaseKeyIndex p.lease liveKey)] else []
      | none => []
    ({ n := result.n + 1
       prevKvs := result.prevKvs ++ if prevKv then prev.toList else [] },
      { ctx with
        batch := ctx.batch ++ .putKv ⟨liveKey, rev⟩ tombstone :: detach
        idxCache := ctx.idxCache.insert liveKey idx
        latestRecordCache := ctx.latestRecordCache.insert liveKey tombstone
        pendingEvents := ctx.pendingEvents ++ [⟨.delete, tombstone, prev⟩] })

/-- Apply one mutation at `rev` into `ctx`: its result and whether it changed anything. -/
def Store.applyOne (s : Store) (snap : Tables) (ctx : ApplyContext) (rev : Revision) :
    Mutation → Except MvccError (MutationResult × Bool) × ApplyContext
  | .put key value lease ignoreValue ignoreLease prevKv =>
    s.applyPut snap ctx rev key value lease ignoreValue ignoreLease prevKv
  | .deleteRange key rangeEnd prevKv =>
    let (result, ctx) := (s.liveKeysInRange ctx key rangeEnd).foldl
      (s.deleteKey snap rev prevKv) (⟨0, []⟩, ctx)
    (.ok (result, decide (result.n > 0)), ctx)

/-! ## Several mutations, transactions -/

/-- The loop of `apply_inner`, from sub-revision `sub` on. -/
def Store.applyMutations (s : Store) (snap : Tables) (main : Int) :
    Nat → List Mutation → ApplyContext →
      Except MvccError (List MutationResult × Bool) × ApplyContext
  | _, [], ctx => (.ok ([], false), ctx)
  | sub, m :: ms, ctx =>
    match s.applyOne snap ctx ⟨main, sub⟩ m with
    | (.error e, ctx) => (.error e, ctx)
    | (.ok (result, produced), ctx) =>
      match s.applyMutations snap main (sub + 1) ms ctx with
      | (.error e, ctx) => (.error e, ctx)
      | (.ok (results, producedAny), ctx) => (.ok (result :: results, produced || producedAny), ctx)

/-- Run `mutations` at the next main revision. -/
def Store.applyInner (s : Store) (snap : Tables) (ctx : ApplyContext) (state : WriteState)
    (mutations : List Mutation) :
    Except MvccError (Int × List MutationResult × Bool) × ApplyContext :=
  let main := state.currentRev + 1
  match s.applyMutations snap main 0 mutations ctx with
  | (.error e, ctx) => (.error e, ctx)
  | (.ok (results, produced), ctx) => (.ok (main, results, produced), ctx)

/-- Where a txn's execution is: its revision, the next sub-revision, and whether anything has
changed yet. -/
structure TxnExec where
  main : Int
  sub : Nat
  producedAny : Bool
deriving DecidableEq

mutual

/-- One op of a txn branch. A nested txn's compares see the resident index and `snap`, the state
before the outermost txn. -/
def Store.txnOp (s : Store) (snap : Tables) (state : WriteState) :
    TxnOp → ApplyContext → TxnExec → Except MvccError (TxnOpResult × ApplyContext × TxnExec)
  | .range r, ctx, exec => do
    let current := if exec.producedAny then exec.main else state.currentRev
    let res ← s.rangeInner snap ctx ⟨current, state.compactRev⟩ r
    return (.range res, ctx, exec)
  | .mutation m, ctx, exec =>
    match s.applyOne snap ctx ⟨exec.main, exec.sub⟩ m with
    | (.error e, _) => .error e
    | (.ok (res, produced), ctx) =>
      .ok (.mutation res, ctx,
        { exec with sub := exec.sub + 1, producedAny := exec.producedAny || produced })
  | .txn compares success failure, ctx, exec => do
    let succeeded ← s.evaluateCompares snap {} compares
    let (results, ctx, exec) ←
      if succeeded then s.txnOps snap state success ctx exec
      else s.txnOps snap state failure ctx exec
    return (.txn succeeded results, ctx, exec)

/-- Run `ops` in order into `ctx`. -/
def Store.txnOps (s : Store) (snap : Tables) (state : WriteState) :
    List TxnOp → ApplyContext → TxnExec →
      Except MvccError (List TxnOpResult × ApplyContext × TxnExec)
  | [], ctx, exec => .ok ([], ctx, exec)
  | op :: ops, ctx, exec => do
    let (res, ctx, exec) ← s.txnOp snap state op ctx exec
    let (results, ctx, exec) ← s.txnOps snap state ops ctx exec
    return (res :: results, ctx, exec)

end

/-! ## Commit -/

/-- Drain the staged raft metadata into `batch`; the flag says that there was any. -/
def Store.foldRaftMeta (s : Store) (batch : WriteBatch) : WriteBatch × Bool × Store :=
  (batch ++ s.pendingRaftMeta.map (.putMeta ∘ .raft), !s.pendingRaftMeta.isEmpty,
    { s with pendingRaftMeta := [] })

/-- An engine commit that succeeds. -/
def Store.engineCommit (s : Store) (batch : WriteBatch) : Store :=
  { s with engine := s.engine.commit batch, commits := s.commits ++ [s.engine.commit batch] }

/-- An engine commit; a failed one changes no table. -/
def Store.tryCommit (s : Store) (batch : WriteBatch) (engineOk : Bool) :
    Except MvccError Unit × Store :=
  if engineOk then (.ok (), s.engineCommit batch) else (.error .storage, s)

/-- The batch of a context's commit: its own operations, each changed key's index once, and the
new revision. -/
def ApplyContext.commitBatch (ctx : ApplyContext) (newRev : Int) : WriteBatch :=
  ctx.batch ++ ctx.idxCache.toList.map (fun row => .putIdx row.1 row.2) ++
    [.putMeta (.currentRev newRev)]

/-- Cache the record `ctx` holds of a key at the revision its index names; forget a deleted key. -/
def ApplyContext.cacheValue (ctx : ApplyContext) (values : ValueCache) (row : Bytes × KvRecord) :
    ValueCache :=
  match ctx.idxCache[row.1]?.bind KeyIndex.current with
  | some (rev, _) =>
    if !row.2.isTombstone then valueInsert values row.1 rev row.2 false else values.erase row.1
  | none => values.erase row.1

/-- The value cache after a commit of `ctx`. -/
def ApplyContext.cacheValues (ctx : ApplyContext) (values : ValueCache) : ValueCache :=
  ctx.latestRecordCache.toList.foldl ctx.cacheValue values

/-- The resident index after a commit of `ctx`. -/
def ApplyContext.setIndex (ctx : ApplyContext) (index : ResidentIndex) : ResidentIndex :=
  ctx.idxCache.toList.foldl (fun index row => indexSet index row.1 row.2.generations) index

/-- One batch per mark, each with the events up to its end. -/
def splitMarks : List MvccEvent → Nat → List (Int × Nat) → List EventBatch
  | _, _, [] => []
  | events, start, (revision, stop) :: marks =>
    let batch := events.take (stop - start)
    (if batch.isEmpty then [] else [⟨revision, batch⟩]) ++
      splitMarks (events.drop (stop - start)) stop marks

/-- What a commit of `ctx` broadcasts. -/
def ApplyContext.eventBatches (ctx : ApplyContext) (newRev : Int) : List EventBatch :=
  if ctx.eventMarks.isEmpty then
    if ctx.pendingEvents.isEmpty then [] else [⟨newRev, ctx.pendingEvents⟩]
  else splitMarks ctx.pendingEvents 0 ctx.eventMarks

/-- The engine commit is in: count it. -/
def Store.countCommit (s : Store) : Store :=
  { s with view := { s.view with engineCommits := s.view.engineCommits + 1 } }

/-- Only after the engine commit does memory learn of it: values, then index and revisions
together, then the write state, then the broadcast. -/
def Store.publishCtx (s : Store) (newRev : Int) (ctx : ApplyContext) : Store :=
  { s with
    values := ctx.cacheValues s.values
    index := ctx.setIndex s.index
    view := s.view.publish ⟨newRev, s.writeState.compactRev⟩
    writeState := { s.writeState with currentRev := newRev }
    broadcast := s.broadcast ++ ctx.eventBatches newRev }

def Store.commitCtx (s : Store) (newRev : Int) (ctx : ApplyContext) (engineOk : Bool) :
    Except MvccError Unit × Store :=
  let (batch, _, s) := s.foldRaftMeta (ctx.commitBatch newRev)
  match s.tryCommit batch engineOk with
  | (.error e, s) => (.error e, s)
  | (.ok (), s) => (.ok (), s.countCommit.publishCtx newRev ctx)

/-! ## Requests -/

/-- Apply a batch of mutations atomically at one new main revision. -/
def Store.apply (s : Store) (mutations : List Mutation) (engineOk : Bool) :
    Except MvccError (Int × List MutationResult) × Store :=
  if mutations.isEmpty then (.ok (s.view.current, []), s)
  else
    match s.applyInner s.engine {} s.writeState mutations with
    | (.error e, _) => (.error e, s)
    | (.ok (revision, results, produced), ctx) =>
      if produced then
        match s.commitCtx revision ctx engineOk with
        | (.error e, s) => (.error e, s)
        | (.ok (), s) => (.ok (revision, results), s)
      else (.ok (revision, results), s)

/-- Evaluate `compares`, then run one branch atomically. -/
def Store.txn (s : Store) (compares : List Compare) (success failure : List TxnOp)
    (engineOk : Bool) : Except MvccError TxnResult × Store :=
  match s.evaluateCompares s.engine {} compares with
  | .error e => (.error e, s)
  | .ok succeeded =>
    let ops := if succeeded then success else failure
    match s.txnOps s.engine s.writeState ops {} ⟨s.writeState.currentRev + 1, 0, false⟩ with
    | .error e => (.error e, s)
    | .ok (opResults, ctx, exec) =>
      if exec.producedAny then
        match s.commitCtx exec.main ctx engineOk with
        | (.error e, s) => (.error e, s)
        | (.ok (), s) => (.ok ⟨succeeded, exec.main, opResults⟩, s)
      else (.ok ⟨succeeded, s.writeState.currentRev, opResults⟩, s)

/-- A request `applyMany` applies. -/
inductive ApplyItem where
  | mutations (mutations : List Mutation)
  | txn (compares : List Compare) (success failure : List TxnOp)

def ignoresPrev : Mutation → Bool
  | .put _ _ _ ignoreValue ignoreLease _ => ignoreValue || ignoreLease
  | .deleteRange _ _ _ => false

/-- A mutation list that can share a commit (`ApplyItem::mutations`). -/
def ApplyItem.ofMutations (mutations : List Mutation) : Option ApplyItem :=
  if mutations.length == 1 || !mutations.any ignoresPrev then some (.mutations mutations) else none

/-- An op of a txn that can share a commit. -/
def TxnOp.isPlain : TxnOp → Bool
  | .mutation m => !ignoresPrev m
  | .range r => r.revision == 0
  | .txn _ _ _ => false

/-- A txn that can share a commit (`ApplyItem::txn`). -/
def ApplyItem.ofTxn (compares : List Compare) (success failure : List TxnOp) : Option ApplyItem :=
  if success.all TxnOp.isPlain && failure.all TxnOp.isPlain then
    some (.txn compares success failure)
  else none

/-- One request's outcome in `applyMany`. -/
inductive ApplyOutcome where
  | mutations (revision : Int) (results : List MutationResult)
  | txn (result : TxnResult)
  | refused (revision : Int) (refusal : Refusal)

/-- Record that the requests so far end at `revision`. -/
def ApplyContext.mark (ctx : ApplyContext) (revision : Int) : ApplyContext :=
  { ctx with eventMarks := ctx.eventMarks ++ [(revision, ctx.pendingEvents.length)] }

/-- One turn of the loop of `applyMany`, on its context and its copy of the write state. -/
def Store.applyItem (s : Store) (snap : Tables) (ctx : ApplyContext) (state : WriteState) :
    ApplyItem → Except MvccError (ApplyOutcome × ApplyContext × WriteState)
  | .mutations mutations =>
    if mutations.isEmpty then .ok (.mutations state.currentRev [], ctx, state)
    else
      match s.applyInner snap ctx state mutations with
      | (.ok (revision, results, produced), ctx) =>
        if produced then
          .ok (.mutations revision results, ctx.mark revision,
            { state with currentRev := revision })
        else .ok (.mutations revision results, ctx, state)
      | (.error (.refused refusal), ctx) => .ok (.refused state.currentRev refusal, ctx, state)
      | (.error e, _) => .error e
  | .txn compares success failure => do
    let succeeded ← s.evaluateCompares snap ctx compares
    let ops := if succeeded then success else failure
    let (opResults, ctx, exec) ← s.txnOps snap state ops ctx ⟨state.currentRev + 1, 0, false⟩
    if exec.producedAny then
      return (.txn ⟨succeeded, exec.main, opResults⟩, ctx.mark exec.main,
        { state with currentRev := exec.main })
    else return (.txn ⟨succeeded, state.currentRev, opResults⟩, ctx, state)

/-- The loop of `applyMany`. -/
def Store.applyItems (s : Store) (snap : Tables) :
    List ApplyItem → ApplyContext → WriteState →
      Except MvccError (List ApplyOutcome × ApplyContext × WriteState)
  | [], ctx, state => .ok ([], ctx, state)
  | item :: items, ctx, state => do
    let (outcome, ctx, state) ← s.applyItem snap ctx state item
    let (outcomes, ctx, state) ← s.applyItems snap items ctx state
    return (outcome :: outcomes, ctx, state)

/-- Apply several requests, each at its own revision, in one commit. -/
def Store.applyMany (s : Store) (items : List ApplyItem) (engineOk : Bool) :
    Except MvccError (List ApplyOutcome) × Store :=
  match s.applyItems s.engine items {} s.writeState with
  | .error e => (.error e, s)
  | .ok (outcomes, ctx, state) =>
    if state.currentRev != s.writeState.currentRev then
      match s.commitCtx state.currentRev ctx engineOk with
      | (.error e, s) => (.error e, s)
      | (.ok (), s) => (.ok outcomes, s)
    else (.ok outcomes, s)

end Fastetcd.Mvcc
