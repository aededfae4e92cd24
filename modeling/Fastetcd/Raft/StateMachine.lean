import Fastetcd.Raft.Precheck
import Fastetcd.Raft.Snapshot

/-!
# The state machine (`raft/src/state_machine.rs`)

The state machine applies committed entries to the store, in log order. What it has applied is
staged with the store before an entry runs, and reaches disk in the entry's own commit: the applied
log id for an entry, and for a batched entry how many of its sub-entries are done as well. Runs of
puts, deletes and txns in a batch share a commit. What no commit took along is flushed at the end of
`apply`.

An engine commit that fails stops the state machine, and what is on disk then is what a crash before
it leaves, so commits succeed here. Waiting until an entry is durable in the log (`log_durable`), and
the counts of `ProposalLog`, are in modules of their own.
-/

namespace Fastetcd.Raft

open Mvcc

/-- openraft's `EntryPayload`. -/
inductive Payload where
  | blank
  | normal (data : FastetcdLogEntry)
  | membership (configs : List (List Nat))

/-- openraft's `Entry`. -/
structure Entry where
  logId : Mvcc.LogId
  payload : Payload

def Entry.index (e : Entry) : Nat := e.logId.index

/-- A response, and those of the sub-entries of a batch. -/
inductive Response where
  | one (response : FastetcdLogResponse)
  | batch (responses : List FastetcdLogResponse)

/-- `FastetcdStateMachine`, with the fields of `Inner` that `apply` uses. -/
structure StateMachine where
  mvcc : Store
  lastAppliedLogId : Option Mvcc.LogId
  lastMembership : StoredMembership
  /-- the progress in a batched entry as read at open -/
  batchProgress : Option (Nat × Nat)

/-- Where a batched entry's apply starts. -/
def skipOf (progress : Option (Nat × Nat)) (index : Nat) : Nat :=
  match progress with
  | some (i, done) => if i = index then done else 0
  | none => 0

/-! ## Batches -/

/-- `MAX_RUN`. -/
def maxRun : Nat := 256

/-- A sub-entry that `applyMany` may apply with others. -/
def groupable : FastetcdLogEntry → Option ApplyItem
  | .apply mutations => ApplyItem.ofMutations mutations
  | .txn compares success failure => ApplyItem.ofTxn compares success failure
  | _ => none

/-- `map_while`. -/
def mapWhile {α β : Type} (f : α → Option β) : List α → List β
  | [] => []
  | a :: as =>
    match f a with
    | some b => b :: mapWhile f as
    | none => []

def FastetcdLogEntry.isBatch : FastetcdLogEntry → Bool
  | .batch _ => true
  | _ => false

/-- The response to a request that shared a commit. -/
def responseOf : ApplyOutcome → FastetcdLogResponse
  | .mutations revision results => .apply revision results
  | .txn result => .txn result
  | .refused revision refusal => .refused revision refusal

/-- The first answers, before those of the rest. -/
def prepend {α : Type} (first : List FastetcdLogResponse) :
    Except ApplyError (List FastetcdLogResponse) × α →
      Except ApplyError (List FastetcdLogResponse) × α
  | (.ok rest, s) => (.ok (first ++ rest), s)
  | (.error e, s) => (.error e, s)

section

variable (logId : Mvcc.LogId) (total skip : Nat)

/-- Stage that `done` sub-entries are applied, and the entry itself if they are all. -/
def stageDone (s : Store) (done : Nat) : Store :=
  let s := s.stageBatchProgress logId.index done
  if done = total then s.stageRaftMeta (some logId) none else s

/-- The loop of `apply_batch`, from sub-entry `j` on. Each turn takes one at least, so as many turns
as there are sub-entries are enough. -/
def applySubs : (turns : Nat) → (j : Nat) → List FastetcdLogEntry → Store →
    Except ApplyError (List FastetcdLogResponse) × Store
  | _, _, [], s => (.ok [], s)
  | 0, _, _ :: _, s => (.ok [], s)
  | turns + 1, j, sub :: subs, s =>
    if sub.isBatch then (.error (.other s!"nested batch in log entry {logId.index}"), s)
    else if j < skip then prepend [.noop s.view.current] (applySubs turns (j + 1) subs s)
    else
      let run := mapWhile groupable ((sub :: subs).take maxRun)
      if run.length > 1 then
        match (stageDone logId total s (j + run.length)).applyMany run true with
        | (.error e, s) => (.error (.mvcc e), s)
        | (.ok outcomes, s) =>
          prepend (outcomes.map responseOf)
            (applySubs turns (j + run.length) ((sub :: subs).drop run.length) s)
      else
        match applyData (stageDone logId total s (j + 1)) logId.index true sub with
        | (.error e, s) => (.error e, s)
        | (.ok response, s) => prepend [response] (applySubs turns (j + 1) subs s)

/-- `apply_batch`. The last sub-entry stages the entry's log id; if it was skipped, nothing has. -/
def applyBatch (subs : List FastetcdLogEntry) (s : Store) :
    Except ApplyError (List FastetcdLogResponse) × Store :=
  match applySubs logId subs.length skip subs.length 0 subs s.stageBatchedMarker with
  | (.error e, s) => (.error e, s)
  | (.ok responses, s) =>
    (.ok responses, if subs.length ≤ skip then s.stageRaftMeta (some logId) none else s)

end

/-! ## Entries -/

namespace StateMachine

def applied (sm : StateMachine) (logId : Mvcc.LogId) (s : Store) : StateMachine :=
  { sm with mvcc := s, lastAppliedLogId := some logId }

/-- One turn of the loop of `apply`. -/
def applyEntry (sm : StateMachine) (e : Entry) : Except ApplyError Response × StateMachine :=
  match e.payload with
  | .membership configs =>
    let membership := ⟨some e.logId, configs⟩
    let s := sm.mvcc.stageRaftMeta (some e.logId) (some membership)
    (.ok (.one (.noop s.view.current)),
      { sm.applied e.logId s with lastMembership := membership })
  | .blank =>
    let s := sm.mvcc.stageRaftMeta (some e.logId) none
    (.ok (.one (.noop s.view.current)), sm.applied e.logId s)
  | .normal (.batch subs) =>
    match applyBatch e.logId (skipOf sm.batchProgress e.index) subs sm.mvcc with
    | (.error err, s) => (.error err, { sm with mvcc := s })
    | (.ok responses, s) => (.ok (.batch responses), sm.applied e.logId s)
  | .normal data =>
    match applyData (sm.mvcc.stageRaftMeta (some e.logId) none) e.index true data with
    | (.error err, s) => (.error err, { sm with mvcc := s })
    | (.ok response, s) => (.ok (.one response), sm.applied e.logId s)

/-- The loop of `apply`. -/
def applyEntries (sm : StateMachine) : List Entry → Except ApplyError (List Response) × StateMachine
  | [] => (.ok [], sm)
  | e :: entries =>
    match sm.applyEntry e with
    | (.error err, sm) => (.error err, sm)
    | (.ok response, sm) =>
      match sm.applyEntries entries with
      | (.error err, sm) => (.error err, sm)
      | (.ok responses, sm) => (.ok (response :: responses), sm)

/-- `apply`: what no commit took along is flushed. -/
def apply (sm : StateMachine) (entries : List Entry) :
    Except ApplyError (List Response) × StateMachine :=
  match sm.applyEntries entries with
  | (.error err, sm) => (.error err, sm)
  | (.ok responses, sm) => (.ok responses, { sm with mvcc := (sm.mvcc.flushRaftMeta true).2 })

/-- openraft hands over entries a few at a time. An error stops it. -/
def run (sm : StateMachine) : List (List Entry) → Except ApplyError (List Response) × StateMachine
  | [] => (.ok [], sm)
  | entries :: rest =>
    match sm.apply entries with
    | (.error err, sm) => (.error err, sm)
    | (.ok responses, sm) =>
      match sm.run rest with
      | (.error err, sm) => (.error err, sm)
      | (.ok more, sm) => (.ok (responses ++ more), sm)

/-! ## Opening, and snapshots -/

/-- `StateMachine::open` over the tables a process finds on disk. -/
def open_ (t : Tables) : StateMachine where
  mvcc := Store.open t
  lastAppliedLogId := t.metaRows.raft.applied.getD none
  lastMembership := t.metaRows.raft.membership.getD ⟨none, []⟩
  batchProgress := t.metaRows.raft.batch

/-- The body of a snapshot built now. -/
def buildSnapshot (sm : StateMachine) : SnapshotBody :=
  writeBody (bodySource sm.mvcc.engine sm.lastAppliedLogId sm.lastMembership)

/-- `install_snapshot`. The progress in a batched entry stays as it was read at open. -/
def install (sm : StateMachine) (body : SnapshotBody) : Except MvccError Unit × StateMachine :=
  match installSnapshot sm.mvcc body true with
  | (.error e, s) => (.error e, { sm with mvcc := s })
  | (.ok (), s) =>
    (.ok (), { sm with
      mvcc := s
      lastAppliedLogId := body.lastAppliedLogId
      lastMembership := body.lastMembership })

end StateMachine

end Fastetcd.Raft
