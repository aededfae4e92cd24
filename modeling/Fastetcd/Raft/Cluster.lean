import Fastetcd.Raft.StateMachine
import Mathlib.Logic.Function.Basic

/-!
# Members of a cluster

Members apply one committed log, each on its own disk. A process may stop at any commit and another
opens what that commit left. A snapshot that one member has built may be installed on another.
-/

namespace Fastetcd.Raft

/-- A log: indexes grow. -/
structure CommittedLog where
  entries : List Entry
  ascending : entries.Pairwise (·.index < ·.index)

/-- The entries that openraft hands over after the applied one. -/
def CommittedLog.after (log : CommittedLog) (applied : Option Mvcc.LogId) : List Entry :=
  log.entries.filter fun e => applied.all (·.index < e.index)

end Fastetcd.Raft

namespace Fastetcd.Raft.Cluster

open Mvcc

/-- A member's process: the tables it found, and its state machine. -/
structure Process where
  found : Tables
  sm : StateMachine

/-- A new process over what is on disk. -/
def Process.start (t : Tables) : Process := ⟨t, .open_ t⟩

/-- What a snapshot is built from. -/
structure Built where
  tables : Tables
  lastAppliedLogId : Option Mvcc.LogId
  lastMembership : StoredMembership

def Built.body (b : Built) : SnapshotBody :=
  writeBody (bodySource b.tables b.lastAppliedLogId b.lastMembership)

/-- `build_snapshot`, under the lock that `apply` holds. -/
def Process.build (p : Process) : Built :=
  ⟨p.sm.mvcc.engine, p.sm.lastAppliedLogId, p.sm.lastMembership⟩

theorem body_build (p : Process) : p.build.body = p.sm.buildSnapshot := rfl

/-- The members, and the snapshots built. -/
structure State (M : Type) where
  members : M → Process
  built : List Built

def State.set {M : Type} [DecidableEq M] (c : State M) (m : M) (p : Process) : State M :=
  { c with members := Function.update c.members m p }

/-- The tables a crash may leave while a process applies `entries`. -/
def Process.left (p : Process) (entries : List Entry) : List Tables :=
  p.found :: (p.sm.apply entries).2.mvcc.commits

/-- What members do. A snapshot is installed where `installs` lets it be. -/
inductive Step {M : Type} [DecidableEq M] (log : CommittedLog) (installs : Built → Process → Prop)
    (c : State M) : State M → Prop
  | apply (m : M) {entries : List Entry} {responses : List Response} {sm : StateMachine}
      (handed : entries <+: log.after (c.members m).sm.lastAppliedLogId)
      (ok : (c.members m).sm.apply entries = (.ok responses, sm)) :
      Step log installs c (c.set m { c.members m with sm })
  | crash (m : M) {entries : List Entry} {t : Tables}
      (handed : entries <+: log.after (c.members m).sm.lastAppliedLogId)
      (kept : t ∈ (c.members m).left entries) : Step log installs c (c.set m (.start t))
  | build (m : M) : Step log installs c { c with built := c.built ++ [(c.members m).build] }
  | install (m : M) {b : Built} (built : b ∈ c.built) (may : installs b (c.members m))
      {sm : StateMachine} (ok : (c.members m).sm.install b.body = (.ok (), sm)) :
      Step log installs c (c.set m { c.members m with sm })

/-- The states that new members reach. -/
inductive Reaches {M : Type} [DecidableEq M] (log : CommittedLog) (installs : Built → Process → Prop) :
    State M → Prop
  | start : Reaches log installs ⟨fun _ => .start .empty, []⟩
  | step {c d : State M} (before : Reaches log installs c) (step : Step log installs c d) :
      Reaches log installs d

/-- The process has applied the log up to `last`, and nothing of an entry after it. -/
structure Process.Through (p : Process) (last : Option Mvcc.LogId) : Prop where
  applied : p.sm.lastAppliedLogId = last
  whole : ∀ i done, p.sm.mvcc.engine.metaRows.raft.batch = some (i, done) →
    ∃ id, last = some id ∧ i ≤ id.index

end Fastetcd.Raft.Cluster
