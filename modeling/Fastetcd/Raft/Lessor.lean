import Fastetcd.Data.Table
import Fastetcd.Mvcc.Lease

/-!
# The leader's lease deadlines (`raft/src/lessor.rs`, `server/src/lease_expiry.rs`)

A leader keeps a deadline for each lease in memory. It sets them all when it first acts in its term,
and a keep-alive moves one. The sweeper lists the leases whose deadline has passed and proposes to
revoke them, one after the other. A lease has its TTL from its grant and from a keep-alive that went
through the log, too: the instants these were applied at are kept by the store.

Every critical section is a step of its own, and so is every reading of the clock. One sweeper runs,
and entries are applied one at a time. The member is the leader in one term from the first state on;
what makes a renewal go through the log instead (`Renewal::Propose`) is a renewal that does not begin.
Durations and instants are counted in one unit. The calls of the last section follow one another, and
a term may follow another.
-/

namespace Fastetcd.Raft

open Mvcc (LeaseId)

/-- `effective_deadline` once it has read when the lease was applied: the deadline, and the deadlines
with one for this lease. -/
def effectiveDeadline (deadlines : Table LeaseId Nat) (id : LeaseId) (ttl now : Nat)
    (applied : Option Nat) : Nat × Table LeaseId Nat :=
  let due := applied.map (· + ttl)
  let (held, deadlines) :=
    match deadlines[id]? with
    | some held => (held, deadlines)
    | none =>
      let held := due.getD (now + ttl)
      (held, deadlines.insert id held)
  (due.elim held (max held ·), deadlines)

/-- What there was to see of a lease when a renewal found it. -/
structure Mark where
  changed : Nat
  listed : Nat
  proposals : Nat

inductive Renewing where
  | idle
  /-- The leader is confirmed and has its deadlines. -/
  | begun (id : LeaseId)
  | found (id : LeaseId) (ttl since : Nat) (mark : Mark)
  | timed (id : LeaseId) (ttl now : Nat) (mark : Mark)
  | looked (id : LeaseId) (ttl now : Nat) (applied : Option Nat) (mark : Mark)
  | checked (id : LeaseId) (ttl now : Nat) (mark : Mark)
  | notFound
  | renewed (ttl : Nat)

inductive Sweeping where
  | idle
  | read (records : Table LeaseId Nat) (changed : LeaseId → Nat)
  /-- The leases to look at, and those found expired. -/
  | looking (now : Nat) (rest : List (LeaseId × Nat)) (found : List LeaseId)
      (changed : LeaseId → Nat)
  | looked (now : Nat) (id : LeaseId) (ttl : Nat) (applied : Option Nat)
      (rest : List (LeaseId × Nat)) (found : List LeaseId) (changed : LeaseId → Nat)
  | proposing (now : Nat) (found : List LeaseId) (changed : LeaseId → Nat)

/-- What is being applied: a commit is followed by its stamp. -/
inductive Applying where
  | idle
  | stamp (id : LeaseId)
  | unstamp (id : LeaseId)

/-- A lease is not proposed for expiry before `ends`, from the `since`-th proposal on. -/
structure Promise where
  id : LeaseId
  since : Nat
  ends : Nat

structure Lessor where
  clock : Nat := 0
  /-- The leases' TTLs. -/
  leases : Table LeaseId Nat := ∅
  /-- `lease_applied`: when this member applied a grant or keep-alive. -/
  applied : Table LeaseId Nat := ∅
  applying : Applying := .idle
  promoted : Bool := false
  deadlines : Table LeaseId Nat := ∅
  /-- Calls of `promote` that have read the records. -/
  promotions : Nat → Option (Table LeaseId Nat) := fun _ => none
  renewals : Nat → Renewing := fun _ => .idle
  sweep : Sweeping := .idle
  /-- How often a lease was granted, kept alive, revoked or renewed, and how often listed. -/
  changed : LeaseId → Nat := fun _ => 0
  listed : LeaseId → Nat := fun _ => 0
  promises : List Promise := []
  /-- The revokes proposed, and when. -/
  proposals : List (LeaseId × Nat) := []

namespace Lessor

def bump (count : LeaseId → Nat) (id : LeaseId) : LeaseId → Nat :=
  Function.update count id (count id + 1)

def renewal (s : Lessor) (n : Nat) (phase : Renewing) : Lessor :=
  { s with renewals := Function.update s.renewals n phase }

/-- `apply_lease_grant`, committed. -/
def grant (s : Lessor) (id : LeaseId) (ttl : Nat) : Lessor :=
  { s with
    leases := s.leases.insert id ttl
    applying := .stamp id
    changed := bump s.changed id }

/-- `stamp_lease_applied`. -/
def stamp (s : Lessor) (id : LeaseId) (ttl : Nat) : Lessor :=
  { s with
    applied := s.applied.insert id s.clock
    applying := .idle
    changed := bump s.changed id
    promises := s.promises ++ [⟨id, s.proposals.length, s.clock + ttl⟩] }

/-- `apply_lease_revoke`, committed. -/
def revoke (s : Lessor) (id : LeaseId) : Lessor :=
  { s with
    leases := s.leases.erase id
    applying := .unstamp id
    changed := bump s.changed id
    promises := s.promises.filter (·.id ≠ id) }

def unstamp (s : Lessor) (id : LeaseId) : Lessor :=
  { s with
    applied := s.applied.erase id
    applying := .idle
    changed := bump s.changed id }

/-- `promote` with the records it has read, if it is the first. -/
def promote (s : Lessor) (records : Table LeaseId Nat) (now : Nat) : Lessor :=
  if s.promoted then s
  else
    { s with
      promoted := true
      deadlines := records.map fun _ ttl => now + ttl
      promises := s.promises ++ s.leases.toList.map fun row =>
        ⟨row.1, s.proposals.length, now + row.2⟩ }

/-- The renewal's check. -/
def check (s : Lessor) (n : Nat) (id : LeaseId) (ttl now : Nat) (applied : Option Nat)
    (mark : Mark) : Lessor :=
  let (deadline, deadlines) := effectiveDeadline s.deadlines id ttl now applied
  { s with deadlines := deadlines }.renewal n
    (if deadline ≤ now then .notFound else .checked id ttl now mark)

/-- The renewal's write, and its answer. -/
def renew (s : Lessor) (n : Nat) (id : LeaseId) (ttl now : Nat) (mark : Mark) : Lessor :=
  { s with
    deadlines := s.deadlines.insert id (now + ttl)
    renewals := Function.update s.renewals n (.renewed ttl)
    changed := bump s.changed id
    promises := s.promises ++ [⟨id, mark.proposals, now + ttl⟩] }

/-- `expired` drops the deadlines of leases that are gone, if there are more than leases. -/
def retain (s : Lessor) (records : Table LeaseId Nat) : Table LeaseId Nat :=
  if s.deadlines.size > records.size then s.deadlines.filter fun id _ => records.contains id
  else s.deadlines

/-- The sweeper's look at a lease. -/
def sweepCheck (s : Lessor) (now : Nat) (id : LeaseId) (ttl : Nat) (applied : Option Nat)
    (rest : List (LeaseId × Nat)) (found : List LeaseId) (changed : LeaseId → Nat) : Lessor :=
  let (deadline, deadlines) := effectiveDeadline s.deadlines id ttl now applied
  if deadline ≤ now then
    { s with
      deadlines := deadlines
      sweep := .looking now rest (found ++ [id]) changed
      listed := bump s.listed id }
  else { s with deadlines := deadlines, sweep := .looking now rest found changed }

/-- `quiet` runs are those in which what is done to one lease does not overlap, and no grant is of a
lease that is there. -/
inductive Step (quiet : Prop) : Lessor → Lessor → Prop
  | pass {s} (d : Nat) : Step quiet s { s with clock := s.clock + d }
  -- entries are applied
  | grant {s} (id : LeaseId) {ttl : Nat} (positive : 0 < ttl) (free : s.applying = .idle)
      (new : quiet → s.leases[id]? = none) : Step quiet s (s.grant id ttl)
  | keepAlive {s id ttl} (free : s.applying = .idle) (there : s.leases[id]? = some ttl) :
      Step quiet s { s with applying := .stamp id }
  | stamp {s id ttl} (at_ : s.applying = .stamp id) (there : s.leases[id]? = some ttl) :
      Step quiet s (s.stamp id ttl)
  | revoke {s} (id : LeaseId) (free : s.applying = .idle) : Step quiet s (s.revoke id)
  | unstamp {s id} (at_ : s.applying = .unstamp id) : Step quiet s (s.unstamp id)
  -- `promote`
  | promoteRead {s} (n : Nat) (first : s.promoted = false) :
      Step quiet s { s with promotions := Function.update s.promotions n (some s.leases) }
  | promote {s records} (n now : Nat) (at_ : s.promotions n = some records) (past : now ≤ s.clock)
      (same : quiet → records = s.leases) : Step quiet s (s.promote records now)
  -- `renew`
  | begin {s} (n : Nat) (id : LeaseId) (free : s.renewals n = .idle) (leads : s.promoted = true) :
      Step quiet s (s.renewal n (.begun id))
  | missing {s id} (n : Nat) (at_ : s.renewals n = .begun id) (gone : s.leases[id]? = none) :
      Step quiet s (s.renewal n .notFound)
  | find {s id ttl} (n : Nat) (at_ : s.renewals n = .begun id) (there : s.leases[id]? = some ttl) :
      Step quiet s (s.renewal n
        (.found id ttl s.clock ⟨s.changed id, s.listed id, s.proposals.length⟩))
  | time {s id ttl since mark} (n : Nat) (at_ : s.renewals n = .found id ttl since mark) :
      Step quiet s (s.renewal n (.timed id ttl s.clock mark))
  | look {s id ttl now mark} (n : Nat) (at_ : s.renewals n = .timed id ttl now mark) :
      Step quiet s (s.renewal n (.looked id ttl now s.applied[id]? mark))
  | check {s id ttl now applied mark} (n : Nat)
      (at_ : s.renewals n = .looked id ttl now applied mark) :
      Step quiet s (s.check n id ttl now applied mark)
  | renew {s id ttl now mark} (n : Nat) (at_ : s.renewals n = .checked id ttl now mark)
      (alone : quiet → s.changed id = mark.changed ∧ s.listed id = mark.listed) :
      Step quiet s (s.renew n id ttl now mark)
  -- `time_to_live`, with what it has read
  | timeToLive {s} (id : LeaseId) (ttl now : Nat) (applied : Option Nat) (leads : s.promoted = true) :
      Step quiet s { s with deadlines := (effectiveDeadline s.deadlines id ttl now applied).2 }
  -- `expired` and `sweep_once`
  | sweepRead {s} (free : s.sweep = .idle) (leads : s.promoted = true) :
      Step quiet s { s with sweep := .read s.leases s.changed }
  | retain {s records changed} (now : Nat) (at_ : s.sweep = .read records changed)
      (past : now ≤ s.clock)
      (same : quiet → ∀ id ttl, s.leases[id]? = some ttl → records.contains id = true) :
      Step quiet s { s with
        deadlines := s.retain records
        sweep := .looking now records.toList [] changed }
  | sweepLook {s now id ttl rest found changed}
      (at_ : s.sweep = .looking now ((id, ttl) :: rest) found changed) :
      Step quiet s { s with sweep := .looked now id ttl s.applied[id]? rest found changed }
  | sweepCheck {s now id ttl applied rest found changed}
      (at_ : s.sweep = .looked now id ttl applied rest found changed) :
      Step quiet s (s.sweepCheck now id ttl applied rest found changed)
  | list {s now found changed} (at_ : s.sweep = .looking now [] found changed) :
      Step quiet s { s with sweep := .proposing now found changed }
  | propose {s now id found changed} (at_ : s.sweep = .proposing now (id :: found) changed)
      (alone : quiet → s.changed id = changed id) :
      Step quiet s { s with
        sweep := .proposing now found changed
        proposals := s.proposals ++ [(id, s.clock)] }
  | finish {s now changed} (at_ : s.sweep = .proposing now [] changed) :
      Step quiet s { s with sweep := .idle }

/-- A leader of one term, with the leases there are when it is elected, and when it applied them. -/
def Reachable (quiet : Prop) (leases applied : Table LeaseId Nat) (clock : Nat) (s : Lessor) : Prop :=
  Relation.ReflTransGen (Step quiet) { clock := clock, leases := leases, applied := applied } s

/-- No lease is proposed for expiry before a promise for it ends. -/
def Kept (s : Lessor) : Prop :=
  ∀ p ∈ s.promises, ∀ i at_, p.since ≤ i → s.proposals[i]? = some (p.id, at_) → p.ends ≤ at_

/-! ## One call after the other -/

/-- What is done to the leases, where each call returns before the next begins. `renew` has the number
of its call. -/
inductive Call where
  | pass (d : Nat)
  | grant (id : LeaseId) (ttl : Nat)
  | keepAlive (id : LeaseId)
  | revoke (id : LeaseId)
  /-- This member leads in a new term. -/
  | elect
  | promote
  | renew (n : Nat) (id : LeaseId)
  | timeToLive (id : LeaseId)
  | expired

/-- `promote`, which every call of the leader begins with. -/
def lead (s : Lessor) : Lessor :=
  if s.promoted then s
  else { s with promotions := Function.update s.promotions 0 (some s.leases) }.promote s.leases s.clock

/-- `effective_deadline`, of a lease with this TTL. -/
def effective (s : Lessor) (id : LeaseId) (ttl : Nat) : Nat × Table LeaseId Nat :=
  effectiveDeadline s.deadlines id ttl s.clock s.applied[id]?

/-- `renew` of a leader. -/
def renewed (s : Lessor) (n : Nat) (id : LeaseId) : Lessor :=
  match s.leases[id]? with
  | none => s.renewal n .notFound
  | some ttl =>
    let mark : Mark := ⟨s.changed id, s.listed id, s.proposals.length⟩
    let checked := s.check n id ttl s.clock s.applied[id]? mark
    if (s.effective id ttl).1 ≤ s.clock then checked else checked.renew n id ttl s.clock mark

/-- `time_to_live` of a leader. -/
def timeToLive (s : Lessor) (id : LeaseId) : Lessor :=
  match s.leases[id]? with
  | none => s
  | some ttl => { s with deadlines := (s.effective id ttl).2 }

/-- The sweeper looks at these leases, and proposes to revoke those found. -/
def sweepRest (now : Nat) (changed : LeaseId → Nat) :
    List (LeaseId × Nat) → List LeaseId → Lessor → Lessor
  | [], found, s =>
    { s with sweep := .idle, proposals := s.proposals ++ found.map fun id => (id, s.clock) }
  | (id, ttl) :: rest, found, s =>
    let deadline := (effectiveDeadline s.deadlines id ttl now s.applied[id]?).1
    sweepRest now changed rest (if deadline ≤ now then found ++ [id] else found)
      (s.sweepCheck now id ttl s.applied[id]? rest found changed)

/-- `expired` and `sweep_once` of a leader. -/
def swept (s : Lessor) : Lessor :=
  sweepRest s.clock s.changed s.leases.toList []
    { s with
      deadlines := s.retain s.leases
      sweep := .looking s.clock s.leases.toList [] s.changed }

def call (s : Lessor) : Call → Lessor
  | .pass d => { s with clock := s.clock + d }
  | .grant id ttl => if 0 < ttl then (s.grant id ttl).stamp id ttl else s
  | .keepAlive id =>
    match s.leases[id]? with
    | some ttl => { s with applying := .stamp id }.stamp id ttl
    | none => s
  | .revoke id => if s.leases.contains id then (s.revoke id).unstamp id else s
  | .elect => { s with promoted := false }
  | .promote => s.lead
  | .renew n id => s.lead.renewed n id
  | .timeToLive id => s.lead.timeToLive id
  | .expired => s.lead.swept

end Lessor

end Fastetcd.Raft
