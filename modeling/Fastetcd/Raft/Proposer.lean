import Fastetcd.Raft.StateMachine

/-!
# Group commit (`raft/src/proposer.rs`)

Proposals queue, and the proposer's task puts what has queued into one `client_write`: a batched
entry, or a plain one for a proposal alone. While the gate is closed, because some member may not
decode a batched entry, every proposal is its own `client_write`. What `submit` is answered goes to
the callers.

The gate may say anything whenever it is asked, and proposals arrive and writes are answered between
any two steps of the task, also while it forms a batch. A leader transfer that holds proposals is a
task that makes no step.
-/

namespace Fastetcd.Raft.Proposer

/-- `IN_FLIGHT`. -/
def inFlight : Nat := 1

/-- `MAX_BATCH`. -/
def maxBatch : Nat := 4096

/-- `MAX_BATCH_BYTES`. -/
def maxBatchBytes : Nat := 512 * 1024

/-- `u64::saturating_add`. -/
def saturatingAdd (a b : Nat) : Nat := min (a + b) (2 ^ 64 - 1)

/-- `ProposeError`. `unexpected` is a `Failed` whose text has the number and the response. -/
inductive ProposeError where
  | forwardToLeader (leaderId : Option Nat) (message : String)
  | failed (message : String)
  | unexpected (n : Nat) (other : Response)

/-- `Pending`, with the caller that waits for the reply. -/
structure Pending where
  entry : FastetcdLogEntry
  bytes : Nat
  reply : Nat

/-! ## `submit` -/

/-- What `submit` writes. -/
def entryOf : List Pending → FastetcdLogEntry
  | [p] => p.entry
  | batch => .batch (batch.map Pending.entry)

/-- What `submit` sends once `client_write` has answered. -/
def submit (batch : List Pending) (answer : Except ProposeError Response) :
    List (Nat × Except ProposeError Response) :=
  match batch, answer with
  | [p], answer => [(p.reply, answer)]
  | batch, .ok (.batch rs) =>
    if rs.length = batch.length then List.zipWith (fun p r => (p.reply, .ok (.one r))) batch rs
    else batch.map fun p => (p.reply, .error (.unexpected batch.length (.batch rs)))
  | batch, .ok other => batch.map fun p => (p.reply, .error (.unexpected batch.length other))
  | batch, .error e => batch.map fun p => (p.reply, .error e)

/-! ## `run` -/

/-- Where the task is in its loop: at the top, at the hold and the gate with the first proposal of a
batch, waiting for a permit, or taking what has queued. -/
inductive Task where
  | next
  | first (p : Pending)
  | waits (p : Pending)
  | forms (batch : List Pending) (bytes : Nat)

/-- A `client_write` without an answer, and whether it has a permit to give back. -/
structure Write where
  batch : List Pending
  permit : Bool

structure State where
  queue : List Pending
  carry : Option Pending
  task : Task
  permits : Nat
  flying : List Write
  /-- all that was proposed, in order -/
  proposed : List Pending
  /-- every `client_write` made, in order -/
  writes : List (List Pending)
  /-- and those answered -/
  answered : List (List Pending × Except ProposeError Response)

namespace State

def start : State := ⟨[], none, .next, inFlight, [], [], [], []⟩

/-- The task spawns a `submit` and is back at the top. -/
def spawn (σ : State) (batch : List Pending) (permit : Bool) : State :=
  { σ with task := .next, flying := σ.flying ++ [⟨batch, permit⟩], writes := σ.writes ++ [batch] }

/-- The next step of the task, unless it waits. -/
def turn (σ : State) (isOpen : Bool) : Option State :=
  match σ.task with
  | .next =>
    match σ.carry, σ.queue with
    | some p, _ => some { σ with task := .first p, carry := none }
    | none, p :: queue => some { σ with task := .first p, queue }
    | none, [] => none
  | .first p => if isOpen then some { σ with task := .waits p } else some (σ.spawn [p] false)
  | .waits p =>
    match σ.permits with
    | permits + 1 => some { σ with task := .forms [p] p.bytes, permits }
    | 0 => none
  | .forms batch bytes =>
    if batch.length < maxBatch then
      match σ.queue with
      | p :: queue =>
        if saturatingAdd bytes p.bytes ≤ maxBatchBytes then
          some { σ with task := .forms (batch ++ [p]) (bytes + p.bytes), queue }
        else some ({ σ with carry := some p, queue }.spawn batch true)
      | [] => some (σ.spawn batch true)
    else some (σ.spawn batch true)

end State

/-- What happens around the task. `answers` tells what `client_write` may answer. -/
inductive Around (answers : FastetcdLogEntry → Except ProposeError Response → Prop) (σ : State) :
    State → Prop
  | propose (p : Pending) :
      Around answers σ { σ with queue := σ.queue ++ [p], proposed := σ.proposed ++ [p] }
  | answer {before after : List Write} {w : Write} {answer : Except ProposeError Response}
      (flying : σ.flying = before ++ w :: after) (may : answers (entryOf w.batch) answer) :
      Around answers σ { σ with
        flying := before ++ after
        permits := σ.permits + w.permit.toNat
        answered := σ.answered ++ [(w.batch, answer)] }

/-- Runs in which the task makes `n` steps. -/
inductive Path (answers : FastetcdLogEntry → Except ProposeError Response → Prop) (σ : State) :
    Nat → State → Prop
  | none : Path answers σ 0 σ
  | turn {n : Nat} {τ υ : State} (before : Path answers σ n τ) (isOpen : Bool)
      (turn : τ.turn isOpen = some υ) : Path answers σ (n + 1) υ
  | around {n : Nat} {τ υ : State} (before : Path answers σ n τ) (around : Around answers τ υ) :
      Path answers σ n υ

end Fastetcd.Raft.Proposer
