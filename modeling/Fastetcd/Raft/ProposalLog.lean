import Fastetcd.Data.Checked

/-!
# The proposal log (`raft/src/snapshot_policy.rs`)

How many proposals were applied up to each log index since the process started. An entry is an index
and the count up to and including it; the entries below the log's purge point are forgotten, and the
newest one forgotten is the floor. A purge after a snapshot keeps a number of proposals, and the log
says at which index that is.

Subtractions are checked, so an underflow is `none`.
-/

namespace Fastetcd.Raft

structure ProposalLog where
  entries : List (Nat × Nat)
  floor : Nat × Nat
  total : Nat

namespace ProposalLog

def default : ProposalLog := ⟨[], (0, 0), 0⟩

/-- The entry at `index` held `n` proposals. -/
def record (log : ProposalLog) (index n : Nat) : ProposalLog :=
  if n = 0 then log
  else { log with total := log.total + n, entries := log.entries ++ [(index, log.total + n)] }

/-- `partition_point` finds the entries up to `index`, as their indexes ascend. -/
def cumulativeAt (log : ProposalLog) (index : Nat) : Nat :=
  match (log.entries.takeWhile fun e => e.1 ≤ index).getLast? with
  | some e => e.2
  | none => if log.floor.1 ≤ index then log.floor.2 else 0

/-- The loop of `purge_point` over the entries, `point` being the newest that passed. -/
def purgeLoop (snapshotIndex upTo keep : Nat) :
    List (Nat × Nat) → (point : Option Nat) → Option (Option Nat)
  | [], point => some point
  | (index, count) :: entries, point =>
    if snapshotIndex < index then some point
    else do
      let left ← checkedSub upTo count
      if left < keep then some point else purgeLoop snapshotIndex upTo keep entries (some index)

/-- Where to purge after a snapshot at `snapshotIndex`, to keep `keep` proposals. -/
def purgePoint (log : ProposalLog) (snapshotIndex keep : Nat) : Option (Option Nat) :=
  let upTo := log.cumulativeAt snapshotIndex
  if keep = 0 then some (some snapshotIndex)
  else purgeLoop snapshotIndex upTo keep log.entries none

/-- The loop of `forget_upto`. -/
def forgetLoop (index : Nat) : List (Nat × Nat) → (floor : Nat × Nat) →
    List (Nat × Nat) × (Nat × Nat)
  | [], floor => ([], floor)
  | e :: entries, floor => if e.1 ≤ index then forgetLoop index entries e else (e :: entries, floor)

/-- Forget the entries the log no longer has. -/
def forgetUpto (log : ProposalLog) (index : Nat) : ProposalLog :=
  let (entries, floor) := forgetLoop index log.entries log.floor
  { log with entries, floor }

/-- A call that changes the log. -/
inductive Call where
  | record (index n : Nat)
  | forgetUpto (index : Nat)

def call (log : ProposalLog) : Call → ProposalLog
  | .record index n => log.record index n
  | .forgetUpto index => log.forgetUpto index

def run (calls : List Call) : ProposalLog := calls.foldl call default

end ProposalLog

end Fastetcd.Raft
