import Fastetcd.Mvcc.Replay

/-!
# Runs of a store

A run starts from a new engine and takes any of the store's operations, each with a flag that says
whether its engine commit succeeds. The value cache may forget entries at any time, and the process
may stop between two operations and open the engine again.

A run keeps two things the store does not: the effects its requests were answered with, and every
event batch that was broadcast, by this process or one before it.
-/

namespace Fastetcd.Mvcc

open Replay

/-- `ApplyItem.ofMutations` and `ApplyItem.ofTxn` admit the request. -/
def ApplyItem.admitted : ApplyItem → Bool
  | .mutations ms => (ofMutations ms).isSome
  | .txn compares success failure => (ofTxn compares success failure).isSome

/-! ## Requests one by one -/

/-- An answer to a request that was refused names the store's revision. -/
def answered {α : Type} (outcome : α → ApplyOutcome) :
    Except MvccError α × Store → Except MvccError ApplyOutcome × Store
  | (.ok a, s) => (.ok (outcome a), s)
  | (.error e, s) =>
    match e.refusal with
    | some refusal => (.ok (.refused s.view.current refusal), s)
    | none => (.error e, s)

/-- One request on its own, through `apply` or `txn`. -/
def Store.serve (s : Store) : ApplyItem → Except MvccError ApplyOutcome × Store
  | .mutations ms => answered (fun a => .mutations a.1 a.2) (s.apply ms true)
  | .txn compares success failure => answered .txn (s.txn compares success failure true)

/-- Requests one by one, up to the first that fails. -/
def Store.serveAll (s : Store) : List ApplyItem → Except MvccError (List ApplyOutcome) × Store
  | [] => (.ok [], s)
  | item :: items =>
    match s.serve item with
    | (.error e, s) => (.error e, s)
    | (.ok outcome, s) =>
      match s.serveAll items with
      | (.error e, s) => (.error e, s)
      | (.ok outcomes, s) => (.ok (outcome :: outcomes), s)

/-- `batches` is what a store at revision `current` broadcasts next: one batch for each revision. -/
def OnePerRevision (current : Int) (batches : List EventBatch) : Prop :=
  batches.map EventBatch.revision = (List.range batches.length).map fun i => current + 1 + (i : Int)

/-! ## Steps and runs -/

/-- One operation of a store, with its effects. -/
inductive Step (s : Store) : List Effect → Store → Prop
  | apply (ms : List Mutation) (engineOk : Bool) :
      Step s (Replay.ofApply ms (s.apply ms engineOk).1) (s.apply ms engineOk).2
  | txn (compares : List Compare) (success failure : List TxnOp) (engineOk : Bool) :
      Step s (Replay.ofTxn success failure (s.txn compares success failure engineOk).1)
        (s.txn compares success failure engineOk).2
  | applyMany (items : List ApplyItem) (admitted : ∀ item ∈ items, item.admitted = true)
      (engineOk : Bool) :
      Step s (ofApplyMany items (s.applyMany items engineOk).1) (s.applyMany items engineOk).2
  | compact (rev : Int) (engineOk : Bool) : Step s [] (s.compact rev engineOk).2
  | leaseGrant (id : LeaseId) (ttlSecs nowUnix : Int) (engineOk : Bool) :
      Step s [] (s.applyLeaseGrant id ttlSecs nowUnix engineOk).2
  | leaseKeepalive (id : LeaseId) (nowUnix : Int) (engineOk : Bool) :
      Step s [] (s.applyLeaseKeepalive id nowUnix engineOk).2
  | leaseRevoke (id : LeaseId) (engineOk : Bool) :
      Step s (ofRevoke id (s.applyLeaseRevoke id engineOk).1) (s.applyLeaseRevoke id engineOk).2
  | clusterId (id : UInt64) (engineOk : Bool) : Step s [] (s.applyClusterId id engineOk).2
  | auth (op : AuthOp) (engineOk : Bool) : Step s [] (s.applyAuth op engineOk).2
  | stageRaftMeta (applied : Option LogId) (membership : Option StoredMembership) :
      Step s [] (s.stageRaftMeta applied membership)
  | stageBatchProgress (index done : Nat) : Step s [] (s.stageBatchProgress index done)
  | stageBatchedMarker : Step s [] s.stageBatchedMarker
  | flushRaftMeta (engineOk : Bool) : Step s [] (s.flushRaftMeta engineOk).2
  | range (r : RangeOp) : Step s [] (s.rangeWithRevision r).2
  | evict (kept : Bytes → Bool) : Step s [] { s with values := s.values.filter fun k _ => kept k }
  | reopen : Step s [] (Store.open s.engine)

/-- A run from a new engine, with its effects and what it broadcast. -/
inductive Run : List Effect → List EventBatch → Store → Prop
  | start : Run [] [] (Store.open Tables.empty)
  | step {effects : List Effect} {told : List EventBatch} {s t : Store} {new : List Effect}
      (run : Run effects told s) (step : Step s new t) :
      Run (effects ++ new) (told ++ t.broadcast.drop s.broadcast.length) t

/-- What a store does from `s` on, with its effects and what it broadcasts. -/
inductive Steps (s : Store) : List Effect → List EventBatch → Store → Prop
  | none : Steps s [] [] s
  | step {effects : List Effect} {told : List EventBatch} {t u : Store} {new : List Effect}
      (steps : Steps s effects told t) (step : Step t new u) :
      Steps s (effects ++ new) (told ++ u.broadcast.drop t.broadcast.length) u

/-- What a reader may find in the view of a store between two of its operations, or while a
compaction has raised the floor and not committed yet. -/
inductive Visible (s : Store) : ReadView → Prop
  | published : Visible s s.view
  | raised {rev : Int} (later : s.writeState.compactRev < rev)
      (reached : rev ≤ s.writeState.currentRev) : Visible s (s.raiseFloor rev).view

/-- A store that some run reaches. -/
def Reachable (s : Store) : Prop := ∃ effects told, Run effects told s

end Fastetcd.Mvcc
