import Fastetcd.Mvcc.Maintenance

/-!
# The map a history stands for

What a read at a revision is supposed to see, with nothing of how the store keeps it: a plain map
from keys to their value, creation, modification and lease, and the effects of the requests that
took place, replayed in order up to that revision.

A txn's effect is the mutations of the branches its answer says it took. Versions are not part of
the map.
-/

namespace Fastetcd.Mvcc.Replay

structure Entry where
  value : Bytes
  createRevision : Int
  modRevision : Int
  lease : LeaseId
deriving DecidableEq

abbrev Plain := Table Bytes Entry

/-- The entry a record stands for. -/
def entryOf (rec : KvRecord) : Entry :=
  ⟨rec.value, rec.createRevision, rec.modRevision, rec.lease⟩

def put (m : Plain) (rev : Int) (key value : Bytes) (lease : LeaseId)
    (ignoreValue ignoreLease : Bool) : Plain :=
  let before := m[key]?
  m.insert key
    { value := if ignoreValue then (before.map Entry.value).getD [] else value
      createRevision := (before.map Entry.createRevision).getD rev
      modRevision := rev
      lease := if ignoreLease then (before.map Entry.lease).getD 0 else lease }

def mutate (rev : Int) (m : Plain) : Mutation → Plain
  | .put key value lease ignoreValue ignoreLease _ =>
    put m rev key value lease ignoreValue ignoreLease
  | .deleteRange key rangeEnd _ => m.filter fun k _ => !inRange k key rangeEnd

/-- Whether a key that carries `lease` goes when `id` is revoked. Lease `0` is no lease. -/
def revokes (id lease : LeaseId) : Bool := id != 0 && lease == id

/-- What one request did, at the revision it was answered with. -/
inductive Effect where
  | mutations (rev : Int) (ms : List Mutation)
  | revoke (rev : Int) (id : LeaseId)
deriving DecidableEq

def Effect.rev : Effect → Int
  | .mutations rev _ => rev
  | .revoke rev _ => rev

def Effect.run (m : Plain) : Effect → Plain
  | .mutations rev ms => ms.foldl (mutate rev) m
  | .revoke _ id => m.filter fun _ entry => !revokes id entry.lease

/-- Every effect but a revoke of `-1` or of the largest id, the two whose attachments the store's
scan does not find exactly. -/
def Effect.isScanned : Effect → Bool
  | .mutations _ _ => true
  | .revoke _ id => id != -1 && id != Int64.maxValue

/-- The map after every effect up to and including revision `r`. -/
def replay (effects : List Effect) (r : Int) : Plain :=
  (effects.filter fun e => e.rev ≤ r).foldl Effect.run ∅

/-! ## Ranges -/

/-- The rows of the map that a Range covers, in byte order. -/
def covered (m : Plain) (r : RangeOp) : List (Bytes × Entry) :=
  m.scan (inRange · r.key r.rangeEnd)

/-- The rows a Range returns: none for a count, no more than its limit, and only the keys for a
Range of keys. -/
def returned (m : Plain) (r : RangeOp) : List (Bytes × Entry) :=
  if r.countOnly then []
  else
    (if r.limit > 0 then (covered m r).take r.limit else covered m r).map fun row =>
      (row.1, if r.keysOnly then { row.2 with value := [] } else row.2)

/-- `result` is what a Range over the map answers. -/
structure Answers (m : Plain) (r : RangeOp) (result : RangeResult) : Prop where
  kvs : result.kvs.map (fun kv => (kv.key, entryOf kv)) = returned m r
  sorted : (result.kvs.map KvRecord.key).Pairwise (· < ·)
  count : result.count = (covered m r).length
  more : result.more = true ↔ r.countOnly = false ∧ 0 < r.limit ∧ r.limit < (covered m r).length

/-! ## What the answers tell -/

mutual

/-- The mutations an op ran, by its result. -/
def executed : TxnOp → TxnOpResult → List Mutation
  | .mutation m, _ => [m]
  | .txn _ success failure, .txn succeeded results =>
    if succeeded then executedAll success results else executedAll failure results
  | _, _ => []

def executedAll : List TxnOp → List TxnOpResult → List Mutation
  | op :: ops, result :: results => executed op result ++ executedAll ops results
  | _, _ => []

end

/-- The effect of a mutation list that was answered. -/
def ofApply (ms : List Mutation) : Except MvccError (Int × List MutationResult) → List Effect
  | .ok (rev, _) => [.mutations rev ms]
  | .error _ => []

/-- The effect of a txn that was answered. -/
def ofTxn (success failure : List TxnOp) : Except MvccError TxnResult → List Effect
  | .ok result =>
    [.mutations result.revision
      (executedAll (if result.succeeded then success else failure) result.opResults)]
  | .error _ => []

/-- The effect of a request of a shared commit. -/
def ofOutcome : ApplyItem → ApplyOutcome → List Effect
  | .mutations ms, .mutations rev results => ofApply ms (.ok (rev, results))
  | .txn _ success failure, .txn result => ofTxn success failure (.ok result)
  | _, _ => []

/-- The effects of a shared commit. -/
def ofApplyMany (items : List ApplyItem) : Except MvccError (List ApplyOutcome) → List Effect
  | .ok outcomes => (items.zipWith ofOutcome outcomes).flatten
  | .error _ => []

/-- The effect of a revoke that was answered. -/
def ofRevoke (id : LeaseId) : Except MvccError LeaseRevokeResult → List Effect
  | .ok result => [.revoke result.revision id]
  | .error _ => []

end Fastetcd.Mvcc.Replay
