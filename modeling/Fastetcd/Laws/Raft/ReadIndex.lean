import Mathlib.Tactic
import Fastetcd.Raft.ReadIndex

/-!
# A confirmed read has no newer leader before it

A voter that confirms has saved no newer term, so it had saved none when the round started, and none
when a read arrived that the round serves: saved terms only rise, and a read takes no round that
started before it. Two majorities of a config share a voter, so no newer term had a majority then.
-/

namespace Fastetcd.Raft.ReadIndex

/-- Two majorities of a set share a member. -/
theorem exists_of_majorities {α : Type} [DecidableEq α] {s : Finset α} {p q : α → Prop}
    [DecidablePred p] [DecidablePred q] (first : s.card < (s.filter p).card * 2)
    (second : s.card < (s.filter q).card * 2) : ∃ a ∈ s, p a ∧ q a := by
  by_contra apart
  push Not at apart
  have disjoint : Disjoint (s.filter p) (s.filter q) :=
    Finset.disjoint_filter.mpr fun a mem left => apart a mem left
  have both := Finset.card_le_card
    (Finset.union_subset (Finset.filter_subset p s) (Finset.filter_subset q s))
  rw [Finset.card_union_of_disjoint disjoint] at both
  omega

/-- The voters that confirmed had saved no newer term when the round started. -/
def Round.Sound (round : Round) : Prop := ∀ id ∈ round.confirmed, round.opened id ≤ round.term

/-- What a call is answered with was confirmed by a quorum, in a round started after it came. -/
def Serves (r : Reader) (round : Round) : Prop :=
  round.Sound ∧ quorum round.configs round.confirmed = true ∧ r.seen ≤ round.opened

structure Inv (c : State) : Prop where
  waiting : ∀ r ∈ c.waiting, r.seen ≤ c.saved ∧ r.arrival ≤ c.started
  holder : ∀ round, c.holder = some round → round.Sound ∧ round.opened ≤ c.saved ∧
    round.number = c.started ∧ round.reader.seen ≤ round.opened ∧
    ∀ r ∈ c.waiting, r.arrival < round.number → r.seen ≤ round.opened
  last : ∀ number round, c.last = some (number, some round) →
    number ≤ c.started ∧ round.Sound ∧ quorum round.configs round.confirmed = true ∧
      ∀ r ∈ c.waiting, r.arrival < number → r.seen ≤ round.opened
  answered : ∀ a ∈ c.answered, ∀ round, a.by_ = some round → Serves a.reader round

theorem Inv.ended {c : State} (inv : Inv c) {round : Round} (held : c.holder = some round)
    {result : Option Round} (confirmed : ∀ r, result = some r →
      r = round ∧ quorum round.configs round.confirmed = true) : Inv (c.ended round result) := by
  obtain ⟨sound, -, number, own, waits⟩ := inv.holder round held
  refine ⟨inv.waiting, by rintro _ ⟨⟩, ?_, ?_⟩
  · intro n r ended
    obtain ⟨rfl, same⟩ := Prod.mk.inj (Option.some.inj ended)
    obtain ⟨rfl, enough⟩ := confirmed r same
    exact ⟨number.le, sound, enough, waits⟩
  · intro a mem r same
    rcases List.mem_cons.mp mem with rfl | old
    · obtain ⟨rfl, enough⟩ := confirmed r same
      exact ⟨sound, enough, own⟩
    · exact inv.answered a old r same

/-- A call leaves the line. -/
theorem Inv.leaves {c : State} (inv : Inv c) {rest : List Reader} (less : rest ⊆ c.waiting) :
    Inv { c with waiting := rest } where
  waiting r mem := inv.waiting r (less mem)
  holder round held := by
    obtain ⟨sound, opened, number, own, waits⟩ := inv.holder round held
    exact ⟨sound, opened, number, own, fun r mem => waits r (less mem)⟩
  last number round ended := by
    obtain ⟨started, sound, enough, waits⟩ := inv.last number round ended
    exact ⟨started, sound, enough, fun r mem => waits r (less mem)⟩
  answered := inv.answered

theorem Inv.step {c d : State} (inv : Inv c) (step : Step c d) : Inv d := by
  have others {before after : List Reader} {r : Reader} (waits : c.waiting = before ++ r :: after) :
      before ++ after ⊆ c.waiting ∧ r ∈ c.waiting := by
    rw [waits]
    refine ⟨fun q mem => ?_, by simp⟩
    rcases List.mem_append.mp mem with first | last
    · exact List.mem_append_left _ first
    · exact List.mem_append_right _ (List.mem_cons_of_mem _ last)
  cases step with
  | save id term =>
    have rises : c.saved ≤ Function.update c.saved id (max (c.saved id) term) := by
      intro x
      by_cases own : x = id
      · subst own
        simp
      · simp [own]
    refine ⟨fun r mem => ?_, fun round held => ?_, inv.last, inv.answered⟩
    · exact ⟨(inv.waiting r mem).1.trans rises, (inv.waiting r mem).2⟩
    · obtain ⟨sound, opened, rest⟩ := inv.holder round held
      exact ⟨sound, opened.trans rises, rest⟩
  | arrive =>
    -- No round under way or ended has a later number than the call finds.
    refine ⟨fun r mem => ?_, fun round held => ?_, fun number round ended => ?_, inv.answered⟩
    · rcases List.mem_cons.mp mem with rfl | old
      · exact ⟨le_rfl, le_rfl⟩
      · exact inv.waiting r old
    · obtain ⟨sound, opened, number, own, waits⟩ := inv.holder round held
      refine ⟨sound, opened, number, own, fun r mem early => ?_⟩
      rcases List.mem_cons.mp mem with rfl | old
      · exact absurd early number.le.not_gt
      · exact waits r old early
    · obtain ⟨started, sound, enough, waits⟩ := inv.last number round ended
      refine ⟨started, sound, enough, fun r mem early => ?_⟩
      rcases List.mem_cons.mp mem with rfl | old
      · exact absurd early started.not_gt
      · exact waits r old early
  | join free waits ended later =>
    obtain ⟨less, own⟩ := others waits
    refine { inv.leaves less with answered := fun a mem round same => ?_ }
    rcases List.mem_cons.mp mem with rfl | old
    · subst same
      obtain ⟨-, sound, enough, waits⟩ := inv.last _ round ended
      exact ⟨sound, enough, waits _ own later⟩
    · exact inv.answered a old round same
  | start me term configs index free waits none saved =>
    obtain ⟨less, own⟩ := others waits
    refine ⟨fun r mem => ?_, ?_, fun number round ended => ?_, inv.answered⟩
    · exact ⟨(inv.waiting r (less mem)).1, (inv.waiting r (less mem)).2.trans (Nat.le_succ _)⟩
    · rintro _ ⟨⟩
      refine ⟨fun id mem => ?_, le_rfl, rfl, (inv.waiting _ own).1, fun r mem _ => ?_⟩
      · rw [Finset.mem_singleton.mp mem]
        exact saved.le
      · exact (inv.waiting r (less mem)).1
    · obtain ⟨started, sound, enough, waits⟩ := inv.last number round ended
      exact ⟨started.trans (Nat.le_succ _), sound, enough, fun r mem => waits r (less mem)⟩
  | confirm held asked older =>
    refine ⟨inv.waiting, ?_, inv.last, inv.answered⟩
    rintro _ ⟨⟩
    obtain ⟨sound, opened, rest⟩ := inv.holder _ held
    refine ⟨fun id mem => ?_, opened, rest⟩
    rcases Finset.mem_insert.mp mem with rfl | old
    · exact (opened _).trans older
    · exact sound id old
  | finish held enough _ =>
    refine inv.ended held ?_
    rintro _ ⟨⟩
    exact ⟨rfl, enough⟩
  | refuse held => exact inv.ended held (by rintro _ ⟨⟩)
  | dropWaiting waits => exact inv.leaves (others waits).1
  | dropHolder => exact { inv with holder := by rintro _ ⟨⟩ }

theorem Run.inv {c : State} (run : Run c) : Inv c := by
  induction run with
  | start saved =>
    refine ⟨?_, ?_, ?_, ?_⟩ <;> intro _ <;> simp
  | step _ step ih => exact ih.step step

/-- When a call that a round confirmed arrived, no config of the round had a majority that had saved
a term newer than the leader's. -/
theorem no_newer_leader_before {c : State} (run : Run c) {a : Answered} (served : a ∈ c.answered)
    {round : Round} (confirmed : a.by_ = some round) {cfg : Finset NodeId}
    (voters : cfg ∈ round.configs) {newer : Nat} (later : round.term < newer) :
    ¬cfg.card < (cfg.filter fun id => newer ≤ a.reader.seen id).card * 2 := by
  intro elected
  obtain ⟨sound, enough, before⟩ := run.inv.answered a served round confirmed
  have majority : cfg.card < (cfg.filter (· ∈ round.confirmed)).card * 2 :=
    of_decide_eq_true (List.all_eq_true.mp enough cfg voters)
  obtain ⟨id, -, voted, answered⟩ := exists_of_majorities elected majority
  have early : a.reader.seen id ≤ round.opened id := before id
  have old := sound id answered
  omega

/-- Of three voters, one confirms the leader's term 2 while the other has voted in term 3. -/
theorem no_newer_leader_before_one : ∃ c a round, Run c ∧ a ∈ c.answered ∧ a.by_ = some round ∧
    round.configs = [{1, 2, 3}] ∧
      ¬({1, 2, 3} : Finset NodeId).card <
        (({1, 2, 3} : Finset NodeId).filter fun id => 3 ≤ a.reader.seen id).card * 2 := by
  have waits := (Run.start fun id => id).step .arrive
  have asked := waits.step (@Step.start _ [] [] _ 2 2 [{1, 2, 3}] 7 rfl rfl (by rintro _ ⟨⟩) rfl)
  have heard := asked.step (@Step.confirm _ _ {1, 2, 3} 1 rfl (by decide) (by decide))
  have run := heard.step (.finish rfl (by decide) rfl)
  exact ⟨_, _, _, run, List.mem_cons_self, rfl, rfl,
    no_newer_leader_before run List.mem_cons_self rfl List.mem_cons_self (by decide)⟩

end Fastetcd.Raft.ReadIndex
