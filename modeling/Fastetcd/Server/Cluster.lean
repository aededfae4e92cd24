import Mathlib.Data.Finset.Basic
import Mathlib.Logic.Relation

/-!
# Membership calls (`server/src/cluster.rs`, `server/src/state.rs`)

`MemberAdd`, `MemberPromote` and `MemberRemove` read the voters from the metrics of the member that
serves them, edit the set and have the leader replace the voters by it. A voter is added as a learner
first.

What can make a call fail before it changes anything (permissions, the version guard) is left out: a
call may stop anywhere. openraft's two steps through a joint configuration are one here.
-/

namespace Fastetcd.Server

abbrev NodeId := Nat

/-- `derive_node_id_from_url`: FNV-1a, 63 bits of it, and not 0. -/
def deriveNodeIdFromUrl (url : String) : NodeId :=
  let hash := url.toUTF8.toList.foldl
    (fun (hash : UInt64) b => (hash ^^^ b.toUInt64) * 0x100000001b3) 0xcbf29ce484222325
  max (hash &&& 0x7FFFFFFFFFFFFFFF).toNat 1

/-! ## Raft's membership -/

structure Membership where
  voters : Finset NodeId
  learners : Finset NodeId
  apart : Disjoint voters learners

namespace Membership

def nodes (m : Membership) : Finset NodeId := m.voters ∪ m.learners

/-- openraft's `add_learner`, which leaves a member as it is. -/
def addLearner (m : Membership) (id : NodeId) : Membership :=
  if h : id ∈ m.nodes then m
  else
    { voters := m.voters
      learners := insert id m.learners
      apart := by
        rw [nodes, Finset.mem_union, not_or] at h
        exact Finset.disjoint_insert_right.mpr ⟨h.1, m.apart⟩ }

/-- openraft's `change_membership(voters, false)`. A voter must be a member before. -/
def changeMembership (m : Membership) (voters : Finset NodeId) : Option Membership :=
  if voters.Nonempty ∧ voters ⊆ m.nodes then
    some ⟨voters, m.learners \ voters, Finset.disjoint_sdiff⟩
  else none

end Membership

/-! ## Calls -/

inductive Call where
  | add (url : String) (isLearner : Bool)
  | promote (id : NodeId)
  | remove (id : NodeId)

/-- The member a call is about. -/
def Call.id : Call → NodeId
  | .add url _ => deriveNodeIdFromUrl url
  | .promote id => id
  | .remove id => id

/-- What a call makes of the voters it reads. -/
def Call.edit (c : Call) (voters : Finset NodeId) : Finset NodeId :=
  match c with
  | .add _ _ => insert c.id voters
  | .promote _ => insert c.id voters
  | .remove _ => voters.erase c.id

/-- Where a call is. -/
inductive Phase where
  | none
  | called (c : Call)
  /-- `member_add` of a voter, added as a learner. -/
  | added (url : String)
  /-- Before `propose_set_voters`. -/
  | proposes (c : Call) (voters : Finset NodeId)
  | ok

/-- Raft's membership, those before it, the calls, and those that took effect. -/
structure Cluster where
  raft : Membership
  earlier : List Membership := []
  calls : Nat → Phase := fun _ => .none
  effects : List Call := []

namespace Cluster

def turns (s : Cluster) (n : Nat) (phase : Phase) : Cluster :=
  { s with calls := Function.update s.calls n phase }

/-- Raft's membership changes. -/
def becomes (s : Cluster) (m : Membership) : Cluster :=
  { s with raft := m, earlier := s.earlier ++ [s.raft] }

/-- A call returns Ok, having taken effect. -/
def returns (s : Cluster) (n : Nat) (c : Call) : Cluster :=
  { s.turns n .ok with effects := s.effects ++ [c] }

/-- The metrics of some member. They may be behind. -/
def Metrics (s : Cluster) (m : Membership) : Prop := m = s.raft ∨ m ∈ s.earlier

/-- When a call may take effect, by raft's membership and the voters it proposes. -/
abbrev Condition := Membership → Call → Option (Finset NodeId) → Prop

variable (may : Condition)

inductive Step : Cluster → Cluster → Prop
  | call {s} (n : Nat) (c : Call) (free : s.calls n = .none) : Step s (s.turns n (.called c))
  -- `propose_add_learner`
  | addLearner {s url} (n : Nat) (at_ : s.calls n = .called (.add url true))
      (meets : may s.raft (.add url true) none) :
      Step s ((s.becomes (s.raft.addLearner (deriveNodeIdFromUrl url))).returns n (.add url true))
  | addVoter {s url} (n : Nat) (at_ : s.calls n = .called (.add url false)) :
      Step s ((s.becomes (s.raft.addLearner (deriveNodeIdFromUrl url))).turns n (.added url))
  -- `current_voter_set`
  | readAdd {s url m} (n : Nat) (at_ : s.calls n = .added url) (view : s.Metrics m) :
      Step s (s.turns n (.proposes (.add url false) ((Call.add url false).edit m.voters)))
  | readPromote {s id m} (n : Nat) (at_ : s.calls n = .called (.promote id)) (view : s.Metrics m)
      (learner : id ∉ m.voters) :
      Step s (s.turns n (.proposes (.promote id) ((Call.promote id).edit m.voters)))
  | readRemove {s id m} (n : Nat) (self : NodeId) (at_ : s.calls n = .called (.remove id))
      (other : id ≠ self) (view : s.Metrics m) (present : id ∈ m.voters) :
      Step s (s.turns n (.proposes (.remove id) ((Call.remove id).edit m.voters)))
  -- `member_remove` of what is no voter changes nothing
  | removeNone {s id m} (n : Nat) (self : NodeId) (at_ : s.calls n = .called (.remove id))
      (other : id ≠ self) (view : s.Metrics m) (absent : id ∉ m.voters)
      (meets : may s.raft (.remove id) none) : Step s (s.returns n (.remove id))
  -- `propose_set_voters`
  | setVoters {s c voters m} (n : Nat) (at_ : s.calls n = .proposes c voters)
      (changed : s.raft.changeMembership voters = some m)
      (meets : may s.raft c (some voters)) : Step s ((s.becomes m).returns n c)

/-- A cluster after some calls. -/
def Reachable (first : Membership) (s : Cluster) : Prop :=
  Relation.ReflTransGen (Step may) { raft := first } s

/-- Every call has returned Ok. -/
def AllOk (s : Cluster) : Prop := ∀ n, s.calls n = .none ∨ s.calls n = .ok

end Cluster

/-! ## What the calls are for -/

namespace Membership

def asLearner (m : Membership) (id : NodeId) : Membership where
  voters := m.voters.erase id
  learners := insert id m.learners
  apart := by
    rw [Finset.disjoint_insert_right]
    exact ⟨Finset.notMem_erase _ _, m.apart.mono_left (Finset.erase_subset ..)⟩

def asVoter (m : Membership) (id : NodeId) : Membership where
  voters := insert id m.voters
  learners := m.learners.erase id
  apart := by
    rw [Finset.disjoint_insert_left]
    exact ⟨Finset.notMem_erase _ _, m.apart.mono_right (Finset.erase_subset ..)⟩

def without (m : Membership) (id : NodeId) : Membership where
  voters := m.voters.erase id
  learners := m.learners.erase id
  apart := m.apart.mono (Finset.erase_subset ..) (Finset.erase_subset ..)

end Membership

/-- The membership a call asks for. -/
def Call.effect (m : Membership) (c : Call) : Membership :=
  match c with
  | .add _ true => m.asLearner c.id
  | .add _ false => m.asVoter c.id
  | .promote _ => m.asVoter c.id
  | .remove _ => m.without c.id

namespace Cluster

/-- The voters after a call are its edit of those before, a learner added is no voter, and what is
removed is no learner. -/
def Undisturbed : Condition := fun m c proposed =>
  match c with
  | .add _ true => c.id ∉ m.voters
  | .add _ false => proposed = some (c.edit m.voters)
  | .promote _ => proposed = some (c.edit m.voters)
  | .remove _ => proposed.getD m.voters = c.edit m.voters ∧ c.id ∉ m.learners

end Cluster

end Fastetcd.Server
