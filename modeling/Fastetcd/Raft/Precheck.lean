import Fastetcd.Mvcc.Maintenance

/-!
# Checks before a proposal (`raft/src/precheck.rs`, `raft/src/state_machine.rs`)

Just before it proposes an entry the leader asks whether the state machine would refuse it
(`refusal`). The state machine decides again when it applies the entry (`applyData`): a request that
cannot apply is answered `Refused` and changes nothing, anything else that fails stops it.

`refusal` reads the store like a client: whether a key exists is a Range, the branch of a txn is an
evaluation of its compares. Of the ops of a txn it looks at the mutations alone.

The check of the leases an entry names (`any_missing`) comes first in the source and is not modelled.
-/

namespace Fastetcd.Raft

open Mvcc

inductive FastetcdLogEntry where
  | apply (mutations : List Mutation)
  | txn (compares : List Compare) (success failure : List TxnOp)
  | compact (rev : Int)
  | leaseGrant (id : LeaseId) (ttlSecs nowUnix : Int)
  | leaseRevoke (id : LeaseId)
  | leaseKeepAlive (id : LeaseId) (nowUnix : Int)
  | noop
  | auth (op : AuthOp)
  | batch (entries : List FastetcdLogEntry)
  | clusterId (id : UInt64)

/-- The response to one entry; a batch has a list of them. -/
inductive FastetcdLogResponse where
  | apply (revision : Int) (results : List MutationResult)
  | txn (result : TxnResult)
  | compact (compactRev : Int)
  | leaseGrant (result : LeaseGrantResult)
  | leaseRevoke (result : LeaseRevokeResult)
  | leaseKeepAlive (result : LeaseTtlResult)
  | noop (revision : Int)
  | auth (revision : Int) (logIndex : Nat) (result : Except AuthApplyError Unit)
  | refused (revision : Int) (refusal : Refusal)

/-- `other` is a batch inside a batch. -/
inductive ApplyError where
  | mvcc (e : MvccError)
  | other (message : String)

/-! ## Apply -/

/-- The answer of a store operation as a response. -/
def responding {α : Type} (response : α → FastetcdLogResponse) :
    Except MvccError α × Store → Except ApplyError FastetcdLogResponse × Store
  | (.ok a, s) => (.ok (response a), s)
  | (.error e, s) => (.error (.mvcc e), s)

/-- `apply_request`. -/
def applyRequest (s : Store) (logIndex : Nat) (engineOk : Bool) :
    FastetcdLogEntry → Except ApplyError FastetcdLogResponse × Store
  | .apply mutations => responding (fun a => .apply a.1 a.2) (s.apply mutations engineOk)
  | .txn compares success failure => responding .txn (s.txn compares success failure engineOk)
  | .compact rev => responding .compact (s.compact rev engineOk)
  | .leaseGrant id ttlSecs nowUnix =>
    responding .leaseGrant (s.applyLeaseGrant id ttlSecs nowUnix engineOk)
  | .leaseRevoke id => responding .leaseRevoke (s.applyLeaseRevoke id engineOk)
  | .leaseKeepAlive id nowUnix =>
    responding .leaseKeepAlive (s.applyLeaseKeepalive id nowUnix engineOk)
  | .noop => (.ok (.noop s.view.current), s)
  | .clusterId id =>
    match s.applyClusterId id engineOk with
    | (.ok _, s) => (.ok (.noop s.view.current), s)
    | (.error e, s) => (.error (.mvcc e), s)
  | .auth op => responding (fun a => .auth a.1 logIndex a.2) (s.applyAuth op engineOk)
  | .batch _ => (.error (.other s!"nested batch in log entry {logIndex}"), s)

/-- `apply_data`: a refusal is an answer, every other error stops the state machine. -/
def applyData (s : Store) (logIndex : Nat) (engineOk : Bool) (entry : FastetcdLogEntry) :
    Except ApplyError FastetcdLogResponse × Store :=
  match applyRequest s logIndex engineOk entry with
  | (.ok response, s) => (.ok response, s)
  | (.error (.mvcc e), s) =>
    match e.refusal with
    | some refusal => (.ok (.refused s.view.current refusal), s)
    | none => (.error (.mvcc e), s)
  | (.error (.other message), s) => (.error (.other message), s)

/-! ## Precheck -/

def ignoresPrev : Mutation → Bool
  | .put _ _ _ ignoreValue ignoreLease _ => ignoreValue || ignoreLease
  | .deleteRange _ _ _ => false

def keyExists (s : Store) (key : Bytes) : Except MvccError Bool := do
  let (result, _) ← (s.rangeWithRevision ⟨key, [], 1, 0, true, false⟩).1
  return !result.kvs.isEmpty

/-- Whether a put keeps the value or lease of a key that does not exist and that no put before it,
of those in `put`, makes. -/
def keepsMissingKey (s : Store) (put : List Bytes) : List Mutation → Except MvccError Bool
  | [] => .ok false
  | m :: ms =>
    match m with
    | .put key _ _ _ _ _ => do
      -- The key is looked up only if the put needs it.
      let found ← if ignoresPrev m && !put.contains key then keyExists s key else .ok true
      if !found then return true
      keepsMissingKey s (key :: put) ms
    | .deleteRange _ _ _ => keepsMissingKey s put ms

mutual

/-- Whether a mutation of the op satisfies `pred`, in either branch of a nested txn. -/
def anyMutationOf (pred : Mutation → Bool) : TxnOp → Bool
  | .mutation m => pred m
  | .range _ => false
  | .txn _ success failure => anyMutation pred success || anyMutation pred failure

def anyMutation (pred : Mutation → Bool) : List TxnOp → Bool
  | [] => false
  | op :: ops => anyMutationOf pred op || anyMutation pred ops

end

def txnWouldSucceed (s : Store) (compares : List Compare) : Except MvccError Bool :=
  s.evaluateCompares s.engine {} compares

mutual

/-- The mutations one op would run now. -/
def chosenOf (s : Store) : TxnOp → Except MvccError (List Mutation)
  | .mutation m => .ok [m]
  | .range _ => .ok []
  | .txn compares success failure => do
    if ← txnWouldSucceed s compares then chosenOfAll s success else chosenOfAll s failure

def chosenOfAll (s : Store) : List TxnOp → Except MvccError (List Mutation)
  | [] => .ok []
  | op :: ops => do
    let first ← chosenOf s op
    let rest ← chosenOfAll s ops
    return first ++ rest

end

/-- The mutations a txn would run now, in order. -/
def chosenMutations (s : Store) (compares : List Compare) (success failure : List TxnOp) :
    Except MvccError (List Mutation) := do
  if ← txnWouldSucceed s compares then chosenOfAll s success else chosenOfAll s failure

def leaseExists (s : Store) (id : LeaseId) : Bool := s.engine.lease[leaseIdKey id]?.isSome

/-- What the state machine would refuse the entry with. -/
def refusal (s : Store) : FastetcdLogEntry → Except MvccError (Option Refusal)
  | .apply mutations => do
    if !mutations.any ignoresPrev then return none
    if ← keepsMissingKey s [] mutations then return some .keyNotFound
    return none
  | .txn compares success failure => do
    if !anyMutation ignoresPrev success && !anyMutation ignoresPrev failure then return none
    let ops ← chosenMutations s compares success failure
    if ← keepsMissingKey s [] ops then return some .keyNotFound
    return none
  | .compact rev =>
    if rev ≤ 0 then .ok (some (.invalidArgument s!"compact rev must be > 0, got {rev}"))
    else if rev > s.view.current then .ok (some .futureRevision)
    else if rev < s.view.compact then .ok (some .compacted)
    else .ok none
  | .leaseKeepAlive id _ => .ok (if leaseExists s id then none else some .leaseNotFound)
  | .leaseGrant _ ttlSecs _ =>
    if ttlSecs ≤ 0 then
      .ok (some (.invalidArgument s!"lease TTL must be positive, got {ttlSecs}"))
    else .ok none
  | _ => .ok none

end Fastetcd.Raft
