import Fastetcd.Mvcc.Run

/-!
# Reads through the value cache (`storage/src/mvcc/store.rs`, `storage/src/mvcc/cache.rs`)

One writer at a time holds the write state. Its engine commit comes first; then it caches or forgets
the record of each key it changed, one key after the other and in no order (the context holds them
in a hash map); then it publishes the index and the revisions. Readers run meanwhile. A reader's plan
is made from what is published, its engine snapshot may already hold the commit that is being
published; it fetches its records one by one, each from the cache or else from its snapshot, and a
fill is a step of its own, however many commits later. An entry may be evicted at any time: for its
age, or because its record is too large to cache.

A reader sees the compaction floor of the commit being published: a compaction raises it before its
engine commit. What a reader sees earlier admits more reads and no others.
-/

namespace Fastetcd.Mvcc.Cached

/-! ## Writers -/

/-- The writer has run a request and is about to commit `ctx` at `newRev`. -/
inductive Writes (s : Store) : Int → ApplyContext → Prop
  | apply {ms : List Mutation} {revision : Int} {results : List MutationResult}
      {ctx : ApplyContext}
      (ran : s.applyInner s.engine {} s.writeState ms = (.ok (revision, results, true), ctx)) :
      Writes s revision ctx
  | txn {compares : List Compare} {success failure : List TxnOp} {succeeded : Bool}
      {results : List TxnOpResult} {ctx : ApplyContext} {exec : TxnExec}
      (decided : s.evaluateCompares s.engine {} compares = .ok succeeded)
      (ran : s.txnOps s.engine s.writeState (if succeeded then success else failure) {}
        ⟨s.writeState.currentRev + 1, 0, false⟩ = .ok (results, ctx, exec))
      (produced : exec.producedAny = true) : Writes s exec.main ctx
  | applyMany {items : List ApplyItem} {outcomes : List ApplyOutcome} {ctx : ApplyContext}
      {state : WriteState} (admitted : ∀ item ∈ items, item.admitted = true)
      (ran : s.applyItems s.engine items {} s.writeState = .ok (outcomes, ctx, state))
      (moved : state.currentRev ≠ s.writeState.currentRev) : Writes s state.currentRev ctx
  | leaseRevoke {id : LeaseId} {attached : List Bytes} {revision : Int}
      {results : List MutationResult} {ctx : ApplyContext}
      (parsed : parseAttached (attachedRows s.engine id) = .ok attached)
      (ran : s.applyInner s.engine {} s.writeState (cascade attached) =
        (.ok (revision, results, true), ctx)) :
      Writes s revision { ctx with batch := ctx.batch ++ dropLease id (attachedRows s.engine id) }

/-- Something a writer does with the write state: the context whose records it caches, and the store
it publishes. Only a commit of keys has records to cache. -/
inductive Work (s : Store) : ApplyContext → Store → Prop
  | commit {newRev : Int} {ctx : ApplyContext} (writes : Writes s newRev ctx) :
      Work s ctx (s.commitCtx newRev ctx true).2
  | failed {newRev : Int} {ctx : ApplyContext} (writes : Writes s newRev ctx) :
      Work s {} (s.commitCtx newRev ctx false).2
  | compact (rev : Int) (engineOk : Bool) : Work s {} (s.compact rev engineOk).2
  | leaseGrant (id : LeaseId) (ttlSecs nowUnix : Int) (engineOk : Bool) :
      Work s {} (s.applyLeaseGrant id ttlSecs nowUnix engineOk).2
  | leaseKeepalive (id : LeaseId) (nowUnix : Int) (engineOk : Bool) :
      Work s {} (s.applyLeaseKeepalive id nowUnix engineOk).2
  /-- The revoke of a lease without keys commits no revision. -/
  | leaseRevoke {id : LeaseId} (free : attachedRows s.engine id = []) (engineOk : Bool) :
      Work s {} (s.applyLeaseRevoke id engineOk).2
  | clusterId (id : UInt64) (engineOk : Bool) : Work s {} (s.applyClusterId id engineOk).2
  | auth (op : AuthOp) (engineOk : Bool) : Work s {} (s.applyAuth op engineOk).2
  | stageRaftMeta (applied : Option LogId) (membership : Option StoredMembership) :
      Work s {} (s.stageRaftMeta applied membership)
  | stageBatchProgress (index done : Nat) : Work s {} (s.stageBatchProgress index done)
  | stageBatchedMarker : Work s {} s.stageBatchedMarker
  | flushRaftMeta (engineOk : Bool) : Work s {} (s.flushRaftMeta engineOk).2

/-- A writer past its engine commit. -/
structure Writer where
  ctx : ApplyContext
  /-- The keys whose record is still to be cached or forgotten. -/
  rows : List (Bytes × KvRecord)
  /-- What it publishes. -/
  after : Store

/-! ## Readers -/

/-- A Range being served. -/
structure Reader where
  snap : Tables
  /-- Only a read of the latest revision fills the cache. -/
  fill : Bool
  planned : List (Bytes × Revision)
  /-- What is still to be fetched of the plan. -/
  hits : List (Bytes × Revision)
  fetched : Except MvccError (List KvRecord)
  /-- A record read from the engine and not yet put into the cache. -/
  filling : Option (Bytes × Revision × KvRecord)

/-- One turn of the loop of `fetch_records`, up to the fill. -/
def Reader.fetch (s : Store) (r : Reader) : Reader :=
  match r.hits with
  | [] => r
  | (key, rev) :: hits =>
    match s.recordAt r.snap {} key rev with
    | .error e => { r with hits := [], fetched := .error e }
    | .ok (rec, read) =>
      { r with
        hits
        fetched := r.fetched.map (· ++ [rec])
        filling := if read && r.fill then some (key, rev, rec) else none }

/-- The records a plan names, from the engine alone. -/
def engineRecords (snap : Tables) (hits : List (Bytes × Revision)) :
    Except MvccError (List KvRecord) :=
  hits.mapM fun hit => readRecord snap hit.1 hit.2

/-! ## Runs -/

structure Config where
  /-- What is published; its `values` is the cache that readers and writers share. -/
  store : Store
  writer : Option Writer
  readers : List Reader
  /-- What the engine has held, from the start on. -/
  history : List Tables

/-- The store with what the writer is about to publish. -/
def Config.newest (c : Config) : Store := (c.writer.map Writer.after).getD c.store

/-- The revisions a reader checks its own against. -/
def Config.revs (c : Config) : Revs := ⟨c.store.view.current, c.newest.view.compact⟩

/-- A Range at `readRev` as it starts. -/
def Config.reader (c : Config) (r : RangeOp) (readRev : Revision) : Reader :=
  let plan := planRange c.store.index {} r.key r.rangeEnd readRev r.limit r.countOnly
  { snap := c.newest.engine
    fill := r.revision == 0 || r.revision == c.store.view.current
    planned := plan.hits
    hits := plan.hits
    fetched := .ok []
    filling := none }

def Config.cached (c : Config) (values : ValueCache) : Config :=
  { c with store := { c.store with values } }

inductive Step (c : Config) : Config → Prop
  | engineCommit {ctx : ApplyContext} {t : Store} (free : c.writer = none)
      (work : Work c.store ctx t) :
      Step c { c with
        writer := some ⟨ctx, ctx.latestRecordCache.toList, t⟩
        history := c.history ++ [t.engine] }
  | cache {w : Writer} {before after : List (Bytes × KvRecord)} {row : Bytes × KvRecord}
      (writing : c.writer = some w) (left : w.rows = before ++ row :: after) :
      Step c { c.cached (w.ctx.cacheValue c.store.values row) with
        writer := some { w with rows := before ++ after } }
  | publish {w : Writer} (writing : c.writer = some w) (done : w.rows = []) :
      Step c { c with store := { w.after with values := c.store.values }, writer := none }
  | read (r : RangeOp) {readRev : Revision} (checked : checkReadRev c.revs r.revision = .ok readRev) :
      Step c { c with readers := c.reader r readRev :: c.readers }
  | fetch {before after : List Reader} {r : Reader} (reading : c.readers = before ++ r :: after)
      (free : r.filling = none) :
      Step c { c with readers := before ++ r.fetch c.store :: after }
  | fill {before after : List Reader} {r : Reader} {key : Bytes} {rev : Revision} {rec : KvRecord}
      (reading : c.readers = before ++ r :: after) (filling : r.filling = some (key, rev, rec)) :
      Step c { c.cached (valueInsert c.store.values key rev rec true) with
        readers := before ++ { r with filling := none } :: after }
  | evict (kept : Bytes → Bool) : Step c (c.cached (c.store.values.filter fun k _ => kept k))

/-- A member from the opening of its engine on, with an empty cache; any run may have left the
engine. -/
inductive Run : Config → Prop
  | start {s : Store} (reached : Reachable s) :
      Run ⟨Store.open s.engine, none, [], [(Store.open s.engine).engine]⟩
  | step {c d : Config} (run : Run c) (step : Step c d) : Run d

/-- The store wrote `rec` for `key` at `rev`. -/
def Config.Wrote (c : Config) (key : Bytes) (rev : Revision) (rec : KvRecord) : Prop :=
  ∃ t ∈ c.history, t.kv[KvKey.mk key rev]? = some rec

end Fastetcd.Mvcc.Cached
