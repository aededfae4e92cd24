import Fastetcd.Mvcc.Auth

/-!
# The MVCC store and its reads (`storage/src/mvcc/store.rs`, `cache.rs`)

The store keeps every key's generations in memory beside the engine's tables, the latest records
of some keys in a value cache, and the revisions that reads see. A write collects its changes in
an `ApplyContext`, an overlay that its own later reads look through, and commits it as a whole.

The two `HashMap`s of the overlay are tables here: the source walks one only to test keys or
before it sorts. The value cache has no size limit in the model; a cache that forgets entries at
any time is a step of the runs the laws are about. Operation counters, latency observers and the
clock stamps of leases change no answer and are left out.
-/

namespace Fastetcd.Mvcc

/-! ## Resident index and value cache -/

/-- `ResidentIndex`: every key's generations, in key order. -/
abbrev ResidentIndex := Table Bytes (List Generation)

/-- `IndexRead::get`. -/
def indexGet (index : ResidentIndex) (key : Bytes) : Option KeyIndex :=
  index[key]?.map fun gens => ⟨key, gens⟩

/-- `IndexWrite::set`: an index with no generations removes the key. -/
def indexSet (index : ResidentIndex) (key : Bytes) (gens : List Generation) : ResidentIndex :=
  if gens.isEmpty then index.erase key else index.insert key gens

/-- `ValueCache`: the latest record of recently used keys, with the revision it was written at. -/
abbrev ValueCache := Table Bytes (Revision × KvRecord)

/-- The cached record of `key` if it is the one written at `rev` (`ValueCache::get`). -/
def valueGet (values : ValueCache) (key : Bytes) (rev : Revision) : Option KvRecord :=
  match values[key]? with
  | some (r, rec) => if r = rev then some rec else none
  | none => none

/-- `ValueCache::insert`: with `onlyIfNewer`, an entry at `rev` or later is kept instead. -/
def valueInsert (values : ValueCache) (key : Bytes) (rev : Revision) (rec : KvRecord)
    (onlyIfNewer : Bool) : ValueCache :=
  match values[key]? with
  | some (r, _) => if onlyIfNewer && decide (r ≥ rev) then values else values.insert key (rev, rec)
  | none => values.insert key (rev, rec)

/-! ## State -/

structure Revs where
  current : Int
  compact : Int
deriving DecidableEq

/-- `ReadView`: the revisions reads are served at and the two counters that tell a reader
whether its engine snapshot holds every commit they describe. -/
structure ReadView where
  current : Int
  compact : Int
  engineCommits : Nat := 0
  published : Nat := 0
deriving DecidableEq

def ReadView.revs (v : ReadView) : Revs := ⟨v.current, v.compact⟩

/-- Store `revs` as what reads see, with no commit to publish. -/
def ReadView.store (v : ReadView) (revs : Revs) : ReadView :=
  { v with current := revs.current, compact := revs.compact }

/-- Publish a commit that was counted in `engineCommits`. -/
def ReadView.publish (v : ReadView) (revs : Revs) : ReadView :=
  { v.store revs with published := v.published + 1 }

structure WriteState where
  currentRev : Int
  compactRev : Int
  nextLeaseId : LeaseId
deriving DecidableEq

def WriteState.revs (w : WriteState) : Revs := ⟨w.currentRev, w.compactRev⟩

/-- `MvccStore`: the engine's tables and everything kept in memory beside them. -/
structure Store where
  engine : Tables
  /-- Not in the source: the tables after each commit since the store was opened, oldest first.
  A crash leaves the last one it kept. -/
  commits : List Tables
  writeState : WriteState
  view : ReadView
  index : ResidentIndex
  values : ValueCache
  pendingRaftMeta : List RaftRow
  batched : Bool
  clusterId : UInt64
  auth : AuthMemory
  /-- Every batch sent on `event_tx` so far. -/
  broadcast : List EventBatch

/-- Per-apply state shared between read and write paths. -/
structure ApplyContext where
  batch : WriteBatch := []
  idxCache : Table Bytes KeyIndex := ∅
  latestRecordCache : Table Bytes KvRecord := ∅
  pendingEvents : List MvccEvent := []
  /-- Each revision of an `applyMany` and the end of its events in `pendingEvents`. -/
  eventMarks : List (Int × Nat) := []

/-! ## Indexes and records as an apply sees them -/

/-- The key's index for changing it: moved out of `ctx`, else a copy of the resident one. The
flag says that it came from `ctx`. -/
def Store.takeIndex (s : Store) (ctx : ApplyContext) (key : Bytes) :
    KeyIndex × Bool × ApplyContext :=
  match ctx.idxCache[key]? with
  | some idx => (idx, true, { ctx with idxCache := ctx.idxCache.erase key })
  | none => ((indexGet s.index key).getD (KeyIndex.new key), false, ctx)

/-- Put back an index `takeIndex` took out of `ctx` and did not change. -/
def restoreIndex (ctx : ApplyContext) (idx : KeyIndex) (fromCtx : Bool) : ApplyContext :=
  if fromCtx then { ctx with idxCache := ctx.idxCache.insert idx.key idx } else ctx

/-- The latest live record of `key` per `idx`, from the value cache or the engine. -/
def Store.latestRecord (s : Store) (snap : Tables) (key : Bytes) (idx : KeyIndex) :
    Option KvRecord :=
  match idx.current with
  | none => none
  | some (rev, _) =>
    match valueGet s.values key rev with
    | some rec => some rec
    | none =>
      match snap.kv[KvKey.mk key rev]? with
      | none => none
      | some rec => if !rec.isTombstone then some rec else none

/-- The key's latest record as the apply in progress sees it. -/
def Store.latestRecordIn (s : Store) (snap : Tables) (ctx : ApplyContext) (key : Bytes)
    (idx : KeyIndex) : Option KvRecord :=
  match ctx.latestRecordCache[key]? with
  | some rec => if !rec.isTombstone then some rec else none
  | none => s.latestRecord snap key idx

/-- Whether a key of the resident index is live as `ctx` sees it. -/
def ApplyContext.sees (ctx : ApplyContext) (row : Bytes × List Generation) : Bool :=
  match ctx.idxCache[row.1]? with
  | some c => c.isLive
  | none =>
    match row.2.getLast? with
    | some g => g.isOpen
    | none => false

/-- Live keys of the resident index in the range, in order. -/
def Store.residentLiveKeys (s : Store) (ctx : ApplyContext) (key rangeEnd : Bytes) : List Bytes :=
  (indexRange s.index key rangeEnd).filterMap fun row =>
    if ctx.sees row then some row.1 else none

/-- Live keys in the range first created in this same apply: those not `found` in the index. -/
def ApplyContext.createdLiveKeys (ctx : ApplyContext) (key rangeEnd : Bytes)
    (found : List Bytes) : List Bytes :=
  ctx.idxCache.toList.filterMap fun row =>
    if inRange row.1 key rangeEnd && row.2.isLive && !found.contains row.1 then some row.1
    else none

/-- Live keys in the range as the apply in progress sees them, sorted. -/
def Store.liveKeysInRange (s : Store) (ctx : ApplyContext) (key rangeEnd : Bytes) : List Bytes :=
  let keys := s.residentLiveKeys ctx key rangeEnd
  let extra := ctx.createdLiveKeys key rangeEnd keys
  if extra.isEmpty then keys else (keys ++ extra).mergeSort fun a b => (compare a b).isLE

/-- The record of `key` at `rev` from the engine; it must exist. -/
def readRecord (snap : Tables) (key : Bytes) (rev : Revision) : Except MvccError KvRecord :=
  match snap.kv[KvKey.mk key rev]? with
  | some rec => .ok rec
  | none => .error (.missingRecord key rev)

/-- The record of `key` at `rev` from the value cache, else from the engine; the flag says that it
was read from the engine. -/
def Store.storedRecord (s : Store) (snap : Tables) (key : Bytes) (rev : Revision) :
    Except MvccError (KvRecord × Bool) :=
  match valueGet s.values key rev with
  | some rec => .ok (rec, false)
  | none => (readRecord snap key rev).map (·, true)

/-- The record of `key` written at `rev`: from `ctx`, the value cache, or the engine. A record
`ctx` holds is used only when it is the revision being read: a read of an older revision must read
history. -/
def Store.recordAt (s : Store) (snap : Tables) (ctx : ApplyContext) (key : Bytes)
    (rev : Revision) : Except MvccError (KvRecord × Bool) :=
  match ctx.latestRecordCache[key]? with
  | some rec =>
    if !rec.isTombstone && rec.modRevision == rev.main then .ok (rec, false)
    else s.storedRecord snap key rev
  | none => s.storedRecord snap key rev

/-! ## Ranges -/

/-- The revision a Range reads at, after etcd's checks. -/
def checkReadRev (revs : Revs) (targetRev : Int) : Except MvccError Revision :=
  if targetRev > 0 ∧ targetRev > revs.current then
    .error (.futureRevision targetRev revs.current)
  else if targetRev > 0 ∧ targetRev < revs.compact then
    .error (.compacted targetRev revs.compact)
  else .ok (Revision.endOf (if targetRev = 0 then revs.current else targetRev))

/-- What a Range found in the index: the keys to return with the revision of each one's record,
the count of every match, and whether the limit cut it short. -/
structure RangePlan where
  hits : List (Bytes × Revision)
  total : Int
  more : Bool
deriving DecidableEq

def RangePlan.intoResult (plan : RangePlan) (kvs : List KvRecord) (countOnly : Bool) :
    RangeResult :=
  { kvs := if countOnly then [] else kvs, more := plan.more, count := plan.total }

/-- A key's generations as `ctx` sees them over the resident index. -/
def ApplyContext.patch (ctx : ApplyContext) (row : Bytes × List Generation) : List Generation :=
  match ctx.idxCache[row.1]? with
  | some c => c.generations
  | none => row.2

/-- The matches a Range finds walking the resident index, in key order. -/
def walkIndex (index : ResidentIndex) (ctx : ApplyContext) (key rangeEnd : Bytes)
    (readRev : Revision) : List (Bytes × Revision) :=
  (indexRange index key rangeEnd).filterMap fun row =>
    (revisionAt (ctx.patch row) readRev).map (row.1, ·)

/-- The matches a Range finds among the keys only `ctx` has. -/
def pendingHits (index : ResidentIndex) (ctx : ApplyContext) (key rangeEnd : Bytes)
    (readRev : Revision) : List (Bytes × Revision) :=
  ctx.idxCache.toList.filterMap fun row =>
    if !inRange row.1 key rangeEnd || index.contains row.1 then none
    else (row.2.revisionAt readRev).map (row.1, ·)

/-- Find a Range's matches in the resident index overlaid with `ctx`, without reading any
record. Only the first `limit` matches are kept; every match is counted. -/
def planRange (index : ResidentIndex) (ctx : ApplyContext) (key rangeEnd : Bytes)
    (readRev : Revision) (limit : Nat) (countOnly : Bool) : RangePlan :=
  let overlay := !ctx.idxCache.isEmpty
  let walked := walkIndex index ctx key rangeEnd readRev
  -- The walk is in key order, so with no pending changes it stops collecting at the limit.
  let collected :=
    if countOnly then []
    else if limit > 0 && !overlay then walked.take limit
    else walked
  let pending := if overlay then pendingHits index ctx key rangeEnd readRev else []
  let total : Nat := walked.length + pending.length
  let hits :=
    if countOnly || pending.isEmpty then collected
    else (collected ++ pending).mergeSort fun a b => (keyCmp a b).isLE
  { hits := if limit > 0 then hits.take limit else hits
    total := total
    more := !countOnly && decide (limit > 0) && decide (total > limit) }

/-- A copy of `rec` to return, without its value for `keysOnly`. -/
def trim (rec : KvRecord) (keysOnly : Bool) : KvRecord :=
  if keysOnly then { rec with value := [] } else rec

/-- The records a plan names, in its order, each with the flag that it came from the engine. -/
def Store.fetchRecords (s : Store) (snap : Tables) (ctx : ApplyContext) :
    List (Bytes × Revision) → Except MvccError (List (KvRecord × Bool))
  | [] => .ok []
  | (key, rev) :: hits => do
    let record ← s.recordAt snap ctx key rev
    let records ← s.fetchRecords snap ctx hits
    return record :: records

/-- With `fill`, the records that were read from the engine go into the value cache. -/
def fillValues (values : ValueCache) (hits : List (Bytes × Revision))
    (recs : List (KvRecord × Bool)) : ValueCache :=
  (hits.zip recs).foldl
    (fun values row =>
      if row.2.2 then valueInsert values row.1.1 row.1.2 row.2.1 true else values)
    values

/-- A Range inside a txn: `revs` is the txn's read state, `ctx` its pending writes. -/
def Store.rangeInner (s : Store) (snap : Tables) (ctx : ApplyContext) (revs : Revs)
    (r : RangeOp) : Except MvccError RangeResult := do
  let readRev ← checkReadRev revs r.revision
  let plan := planRange s.index ctx r.key r.rangeEnd readRev r.limit r.countOnly
  let recs ← s.fetchRecords snap ctx plan.hits
  return plan.intoResult (recs.map fun rec => trim rec.1 r.keysOnly) r.countOnly

/-- A Range with no write in progress, with the revision it was taken at. Only a read of the
latest revision fills the value cache. -/
def Store.rangeWithRevision (s : Store) (r : RangeOp) :
    Except MvccError (RangeResult × Int) × Store :=
  match checkReadRev s.view.revs r.revision with
  | .error e => (.error e, s)
  | .ok readRev =>
    let plan := planRange s.index {} r.key r.rangeEnd readRev r.limit r.countOnly
    match s.fetchRecords s.engine {} plan.hits with
    | .error e => (.error e, s)
    | .ok recs =>
      let fill := r.revision == 0 || r.revision == s.view.current
      (.ok (plan.intoResult (recs.map fun rec => trim rec.1 r.keysOnly) r.countOnly,
          s.view.current),
        if fill then { s with values := fillValues s.values plan.hits recs } else s)

/-! ## Compares -/

/-- The record a compare sees for a key that is absent. -/
def implicitZeroRecord (key : Bytes) : KvRecord :=
  { key, value := [], createRevision := 0, modRevision := 0, version := 0, lease := 0,
    deleted := false }

def evalCompare (rec : KvRecord) (op : CompareOp) (target : CompareTarget) : Bool :=
  let ordering : Ordering := match target with
    | .version v => compare rec.version v
    | .createRevision v => compare rec.createRevision v
    | .modRevision v => compare rec.modRevision v
    | .lease v => compare rec.lease v
    | .value v => compare rec.value v
  match op with
  | .equal => ordering == .eq
  | .notEqual => ordering != .eq
  | .greater => ordering == .gt
  | .less => ordering == .lt

/-- A key's live revision as `ctx` sees it over the resident generations. -/
def ApplyContext.currentIn (ctx : ApplyContext) (key : Bytes)
    (resident : Option (List Generation)) : Option Revision :=
  match ctx.idxCache[key]? with
  | some idx => idx.current.map Prod.fst
  | none => resident.bind currentOf

/-- What one compare covers: each key and its live revision (`compare_targets_in`). -/
def compareTargetsIn (index : ResidentIndex) (ctx : ApplyContext) (cmp : Compare) :
    List (Bytes × Option Revision) :=
  if cmp.rangeEnd.isEmpty then
    let resident := index[cmp.key]?
    if resident.isNone && !ctx.idxCache.contains cmp.key then []
    else [(cmp.key, ctx.currentIn cmp.key resident)]
  else
    (indexRange index cmp.key cmp.rangeEnd).map
        (fun row => (row.1, ctx.currentIn row.1 (some row.2))) ++
      -- Keys this context created.
      ctx.idxCache.toList.filterMap fun row =>
        if inRange row.1 cmp.key cmp.rangeEnd && !index.contains row.1 then
          some (row.1, row.2.current.map Prod.fst)
        else none

/-- The record a compare sees of a key it covers. -/
def Store.comparedRecord (s : Store) (snap : Tables) (ctx : ApplyContext) (key : Bytes) :
    Option Revision → Except MvccError KvRecord
  | none => .ok (implicitZeroRecord key)
  | some rev => (s.recordAt snap ctx key rev).map Prod.fst

/-- Whether `cmp` holds of every key it covers, read in order up to the first that fails it. -/
def Store.compareAll (s : Store) (snap : Tables) (ctx : ApplyContext) (cmp : Compare) :
    List (Bytes × Option Revision) → Except MvccError Bool
  | [] => .ok true
  | (key, rev) :: keys => do
    let record ← s.comparedRecord snap ctx key rev
    if evalCompare record cmp.op cmp.target then s.compareAll snap ctx cmp keys else return false

/-- A single-key compare sees the latest live record or the implicit zero record; a range
compare must hold of every key in the range, and an empty range matches. -/
def Store.evaluateCompare (s : Store) (snap : Tables) (ctx : ApplyContext) (cmp : Compare) :
    Except MvccError Bool :=
  let keys := compareTargetsIn s.index ctx cmp
  if cmp.rangeEnd.isEmpty && keys.isEmpty then
    .ok (evalCompare (implicitZeroRecord cmp.key) cmp.op cmp.target)
  else s.compareAll snap ctx cmp keys

/-- Whether every compare holds, in order up to the first that does not. -/
def Store.evaluateCompares (s : Store) (snap : Tables) (ctx : ApplyContext) :
    List Compare → Except MvccError Bool
  | [] => .ok true
  | cmp :: compares => do
    if ← s.evaluateCompare snap ctx cmp then s.evaluateCompares snap ctx compares
    else return false

end Fastetcd.Mvcc
