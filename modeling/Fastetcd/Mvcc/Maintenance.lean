import Fastetcd.Mvcc.Apply

/-!
# Compaction, leases, raft metadata, open and reload (`storage/src/mvcc/store.rs`)

The other operations of the store. Each one that writes folds the staged raft metadata into its
own commit, so a log entry and the position that says it was applied reach disk together; what no
commit picked up is written by `flushRaftMeta`.
-/

namespace Fastetcd.Mvcc

/-! ## Compaction -/

/-- The batch operations of compacting one changed key, and the index it leaves. -/
def compactOps (compactRev : Revision) (idx : KeyIndex) : WriteBatch × KeyIndex :=
  let (left, dropped) := idx.compact compactRev
  (dropped.map (fun r => .deleteKv ⟨idx.key, r⟩) ++
      [if left.generations.isEmpty then .deleteIdx idx.key else .putIdx idx.key left], left)

/-- The keys whose generations a compaction at `compactRev` changes. -/
def compactChanged (index : ResidentIndex) (compactRev : Revision) : List KeyIndex :=
  (index.toList.filter fun row => compactionChanges row.2 compactRev).map fun row =>
    ⟨row.1, row.2⟩

/-- The batch of a compaction, before the staged raft metadata. -/
def compactBatch (changed : List KeyIndex) (rev : Int) : WriteBatch :=
  changed.flatMap (fun idx => (compactOps (Revision.endOf rev) idx).1) ++
    [.putMeta (.compactRev rev)]

/-- The resident index after a compaction. -/
def compactIndex (changed : List KeyIndex) (rev : Int) (index : ResidentIndex) : ResidentIndex :=
  changed.foldl
    (fun index idx =>
      let left := (compactOps (Revision.endOf rev) idx).2
      indexSet index left.key left.generations)
    index

/-- Reads below `rev` are refused before any record goes. -/
def Store.raiseFloor (s : Store) (rev : Int) : Store :=
  { s with view := s.view.store ⟨s.writeState.currentRev, rev⟩ }

/-- Publish a compaction whose engine commit was counted. -/
def Store.publishCompaction (s : Store) (changed : List KeyIndex) (rev : Int) : Store :=
  { s with
    index := compactIndex changed rev s.index
    view := s.view.publish ⟨s.writeState.currentRev, rev⟩
    writeState := { s.writeState with compactRev := rev } }

/-- Compact the MVCC history at `rev`. -/
def Store.compact (s : Store) (rev : Int) (engineOk : Bool) : Except MvccError Int × Store :=
  if rev ≤ 0 then
    (.error (.refused (.invalidArgument s!"compact rev must be > 0, got {rev}")), s)
  else if rev > s.writeState.currentRev then
    (.error (.futureRevision rev s.writeState.currentRev), s)
  else if rev < s.writeState.compactRev then
    (.error (.compacted rev s.writeState.compactRev), s)
  else if rev = s.writeState.compactRev then (.ok rev, s)
  else
    let changed := compactChanged s.index (Revision.endOf rev)
    let (batch, _, s) := s.foldRaftMeta (compactBatch changed rev)
    match (s.raiseFloor rev).tryCommit batch engineOk with
    | (.error e, s) => (.error e, { s with view := s.view.store s.writeState.revs })
    | (.ok (), s) => (.ok rev, s.countCommit.publishCompaction changed rev)

/-! ## Leases -/

/-- `i64::saturating_add`. -/
def saturatingAdd (a b : Int) : Int := max (-2 ^ 63) (min (2 ^ 63 - 1) (a + b))

/-- The id a grant uses and the high-water mark after it. An id of `0` allocates the next one; a
client's own id raises the mark so that later allocations do not collide. -/
def grantId (id next : LeaseId) : LeaseId × LeaseId :=
  if id = 0 then (next + 1, next + 1) else if id > next then (id, id) else (id, next)

/-- Grant a lease. The mark moves in memory before the commit that stores it. -/
def Store.applyLeaseGrant (s : Store) (id : LeaseId) (ttlSecs nowUnix : Int) (engineOk : Bool) :
    Except MvccError LeaseGrantResult × Store :=
  if ttlSecs ≤ 0 then
    (.error (.refused (.invalidArgument s!"lease TTL must be positive, got {ttlSecs}")), s)
  else
    let next := s.writeState.nextLeaseId
    let (finalId, mark) := grantId id next
    let s := { s with writeState := { s.writeState with nextLeaseId := mark } }
    let lease : LeaseRecord := ⟨finalId, ttlSecs, saturatingAdd nowUnix ttlSecs⟩
    let moved : WriteBatch := if id = 0 ∨ id > next then [.putMeta (.nextLeaseId mark)] else []
    let (batch, _, s) := s.foldRaftMeta (moved ++ [.putLease (leaseIdKey finalId) lease])
    match s.tryCommit batch engineOk with
    | (.error e, s) => (.error e, s)
    | (.ok (), s) => (.ok ⟨finalId, ttlSecs, s.writeState.currentRev⟩, s)

/-- Refresh a lease's deadline. -/
def Store.applyLeaseKeepalive (s : Store) (id : LeaseId) (nowUnix : Int) (engineOk : Bool) :
    Except MvccError LeaseTtlResult × Store :=
  match s.engine.lease[leaseIdKey id]? with
  | none => (.error (.refused .leaseNotFound), s)
  | some rec =>
    let renewed := { rec with deadlineUnixSecs := saturatingAdd nowUnix rec.ttlSecs }
    let (batch, _, s) := s.foldRaftMeta [.putLease (leaseIdKey id) renewed]
    match s.tryCommit batch engineOk with
    | (.error e, s) => (.error e, s)
    | (.ok (), s) => (.ok ⟨id, rec.ttlSecs, rec.ttlSecs⟩, s)

/-- The `lease_keys` rows of a lease. -/
def attachedRows (t : Tables) (id : LeaseId) : List Bytes :=
  let (start, stop) := leaseKeysBounds id
  (t.leaseKeys.scan (inBounds start stop)).map Prod.fst

/-- The user keys of `lease_keys` rows; a row that does not parse is an internal error. -/
def parseAttached : List Bytes → Except MvccError (List Bytes)
  | [] => .ok []
  | row :: rows =>
    match parseLeaseKeysKey row with
    | none => .error (.malformed row)
    | some (_, key) => do
      let keys ← parseAttached rows
      return key :: keys

/-- The cascade of a revoke: one delete per attached key. -/
def cascade (attached : List Bytes) : List Mutation := attached.map (.deleteRange · [] false)

/-- The operations that drop the lease itself. -/
def dropLease (id : LeaseId) (rows : List Bytes) : WriteBatch :=
  .deleteLease (leaseIdKey id) :: rows.map .deleteLeaseKey

/-- Revoke a lease and delete every key attached to it, at one main revision. -/
def Store.applyLeaseRevoke (s : Store) (id : LeaseId) (engineOk : Bool) :
    Except MvccError LeaseRevokeResult × Store :=
  let rows := attachedRows s.engine id
  match parseAttached rows with
  | .error e => (.error e, s)
  | .ok attached =>
    let mutations := cascade attached
    let applied : Except MvccError (Int × List MutationResult × Bool) × ApplyContext :=
      if mutations.isEmpty then (.ok (s.writeState.currentRev, [], false), {})
      else s.applyInner s.engine {} s.writeState mutations
    match applied with
    | (.error e, _) => (.error e, s)
    | (.ok (revision, results, produced), ctx) =>
      let ctx := { ctx with batch := ctx.batch ++ dropLease id rows }
      let committed : Except MvccError Unit × Store :=
        if produced then s.commitCtx revision ctx engineOk
        else
          let (batch, _, s) := s.foldRaftMeta ctx.batch
          s.tryCommit batch engineOk
      match committed with
      | (.error e, s) => (.error e, s)
      | (.ok (), s) => (.ok ⟨revision, (results.map MutationResult.n).sum⟩, s)

/-! ## Raft metadata, cluster id and auth -/

def RaftRow.isApplied : RaftRow → Bool
  | .applied _ => true
  | _ => false

def RaftRow.isMembership : RaftRow → Bool
  | .membership _ => true
  | _ => false

def RaftRow.isBatch : RaftRow → Bool
  | .batch _ _ => true
  | _ => false

/-- Stage the applied position, and the membership an entry sets, for the next commit. -/
def Store.stageRaftMeta (s : Store) (applied : Option LogId)
    (membership : Option StoredMembership) : Store :=
  let kept := s.pendingRaftMeta.filter fun row =>
    !row.isApplied && (membership.isNone || !row.isMembership)
  { s with pendingRaftMeta := kept ++ .applied applied ::
      (membership.map RaftRow.membership).toList }

/-- Stage the batch progress, replacing any still staged. -/
def Store.stageBatchProgress (s : Store) (index done : Nat) : Store :=
  { s with pendingRaftMeta :=
      s.pendingRaftMeta.filter (fun row => !row.isBatch) ++ [.batch index done] }

/-- Record that a batched entry is being applied, the first time only. -/
def Store.stageBatchedMarker (s : Store) : Store :=
  if s.batched then s
  else { s with batched := true, pendingRaftMeta := s.pendingRaftMeta ++ [.batched] }

/-- Commit any staged raft metadata that no other commit picked up. -/
def Store.flushRaftMeta (s : Store) (engineOk : Bool) : Except MvccError Unit × Store :=
  let (batch, staged, s) := s.foldRaftMeta []
  if !staged then (.ok (), s) else s.tryCommit batch engineOk

/-- Record the cluster's id unless it already has one. -/
def Store.applyClusterId (s : Store) (id : UInt64) (engineOk : Bool) :
    Except MvccError UInt64 × Store :=
  let current := s.clusterId
  let (batch, _, s) := s.foldRaftMeta (if current = 0 then [.putMeta (.clusterId id)] else [])
  let committed := if batch.isEmpty then (.ok (), s) else s.tryCommit batch engineOk
  match committed with
  | (.error e, s) => (.error e, s)
  | (.ok (), s) =>
    if current = 0 then (.ok id, { s with clusterId := id }) else (.ok current, s)

/-- Apply one replicated auth change: its writes commit with the staged raft metadata, and only
then do the in-memory effects run. A refusal writes nothing. -/
def Store.applyAuth (s : Store) (op : AuthOp) (engineOk : Bool) :
    Except MvccError (Int × Except AuthApplyError Unit) × Store :=
  let rev := s.view.current
  match plan s.engine op with
  | .error e => (.error e, s)
  | .ok (.error refused) => (.ok (rev, .error refused), s)
  | .ok (.ok (effects, batch)) =>
    let (batch, staged, s) := s.foldRaftMeta batch
    let committed := if staged || !batch.isEmpty then s.tryCommit batch engineOk else (.ok (), s)
    match committed with
    | (.error e, s) => (.error e, s)
    | (.ok (), s) => (.ok (rev, .ok ()), { s with auth := effects.apply s.auth })

/-! ## Open, reload and install -/

/-- The resident index as `mvcc_idx` holds it (`load_index`). The source reads it in chunks of
consecutive keys; a row with no generations adds no key. -/
def loadIndex (t : Tables) : ResidentIndex :=
  t.idx.toList.foldl (fun index row => indexSet index row.1 row.2.generations) ∅

/-- The enabled flag as the auth tables hold it (`reload_auth`). -/
def authEnabled (t : Tables) : Bool := ((t.auth .state)[metaAuthEnabled]?.map isOn).getD false

/-- The write-side counters as `mvcc_meta` holds them. -/
def readWriteState (t : Tables) : WriteState :=
  ⟨t.metaRows.currentRev.getD 0, t.metaRows.compactRev.getD 0, t.metaRows.nextLeaseId.getD 0⟩

/-- On the first open the counters are stored as `0`. -/
def initTables (t : Tables) : Tables :=
  if readWriteState t = ⟨0, 0, 0⟩ then
    t.commit [.putMeta (.currentRev 0), .putMeta (.compactRev 0), .putMeta (.nextLeaseId 0)]
  else t

/-- Open a store over an engine (`open_with`). -/
def Store.open (t : Tables) : Store :=
  let state := readWriteState t
  let engine := initTables t
  { engine
    commits := if state = ⟨0, 0, 0⟩ then [engine] else []
    writeState := state
    view := { current := state.currentRev, compact := state.compactRev }
    index := loadIndex engine
    values := ∅
    pendingRaftMeta := []
    batched := t.metaRows.raft.batched
    clusterId := t.metaRows.clusterId.getD 0
    auth := { enabled := authEnabled engine }
    broadcast := [] }

/-- Reload everything this handle keeps of the tables (`reload_locked`). -/
def Store.reloadLocked (s : Store) : Store :=
  let state := readWriteState s.engine
  let clusterId := s.engine.metaRows.clusterId.getD 0
  { s with
    batched := s.batched || s.engine.metaRows.raft.batched
    clusterId := if clusterId != 0 then clusterId else s.clusterId
    index := loadIndex s.engine
    values := ∅
    writeState := state
    view := s.view.store state.revs }

/-- Commit a batch that replaces the MVCC tables wholesale, and reload (`install_tables`,
`install_tables_stream`). -/
def Store.installTables (s : Store) (batch : WriteBatch) (engineOk : Bool) :
    Except MvccError Unit × Store :=
  match s.tryCommit batch engineOk with
  | (.error e, s) => (.error e, s)
  | (.ok (), s) => (.ok (), s.reloadLocked)

/-- Re-read the enabled flag; tokens are not stored and stay as they are. -/
def Store.reloadAuth (s : Store) : Store :=
  { s with auth := { s.auth with enabled := authEnabled s.engine } }

end Fastetcd.Mvcc
