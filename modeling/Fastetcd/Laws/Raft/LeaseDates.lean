import Fastetcd.Laws.Raft.Lessor

/-!
# Whose deadline a lease has

A leader's deadline for a lease should come from that lease: be no later than its TTL from when it was
granted, last renewed or kept alive, or from the leader's promotion. But a revoke leaves the lease's
deadline in memory, and the sweeper drops it only if there are more deadlines than leases. A lease
granted with the id of an earlier one then has the earlier one's deadline, if that is later
(`earlier_deadline_kept`). It has its own if each grant finds no later deadline
(`deadline_of_current_lease`).
-/

namespace Fastetcd.Raft

open Mvcc (LeaseId)
open Lessor (Call)

/-- A leader's leases, and for each the latest of its grant's application, its renewals and keep-alives,
and the leader's promotion. -/
structure Dated where
  lessor : Lessor
  latest : LeaseId → Nat

namespace Dated

/-- A member starts: it has applied nothing yet. -/
def start (leases : Table LeaseId Nat) (clock : Nat) : Dated where
  lessor := { clock, leases }
  latest _ := 0

/-- The lease's TTL starts again. -/
def touch (d : Dated) (id : LeaseId) : LeaseId → Nat :=
  Function.update d.latest id d.lessor.clock

def lead (d : Dated) : Dated where
  lessor := d.lessor.lead
  latest := if d.lessor.promoted then d.latest else fun _ => d.lessor.clock

def latestAfter (d : Dated) : Call → LeaseId → Nat
  | .pass _ | .revoke _ | .elect => d.latest
  | .grant id ttl => if 0 < ttl then d.touch id else d.latest
  | .keepAlive id => if d.lessor.leases.contains id then d.touch id else d.latest
  | .promote | .timeToLive _ | .expired => d.lead.latest
  | .renew n id =>
    match (d.lessor.call (.renew n id)).renewals n with
    | .renewed _ => d.lead.touch id
    | _ => d.lead.latest

def call (d : Dated) (c : Call) : Dated := ⟨d.lessor.call c, d.latestAfter c⟩

def run (d : Dated) (calls : List Call) : Dated := calls.foldl call d

/-- A grant finds no deadline later than its own. -/
def Timely (d : Dated) : Call → Prop
  | .grant id ttl => d.lessor.promoted = true →
    ∀ held, d.lessor.deadlines[id]? = some held → held ≤ d.lessor.clock + ttl
  | _ => True

/-- Each call of a run does. -/
def TimelyRun : Dated → List Call → Prop
  | _, [] => True
  | d, c :: calls => d.Timely c ∧ (d.call c).TimelyRun calls

end Dated

/-- The deadline taken is the one there was, or no later than the one found. -/
theorem effectiveDeadline_entry {deadlines : Table LeaseId Nat} {id k : LeaseId} {ttl now d : Nat}
    {applied : Option Nat}
    (entry : (effectiveDeadline deadlines id ttl now applied).2[k]? = some d) :
    deadlines[k]? = some d ∨ k = id ∧ d ≤ (effectiveDeadline deadlines id ttl now applied).1 := by
  obtain ⟨held, at_, found⟩ := effectiveDeadline_held deadlines id ttl now applied
  by_cases same : k = id
  · subst same
    obtain rfl : held = d := Option.some.inj (at_.symm.trans entry)
    exact .inr ⟨rfl, found ▸ Nat.le_max_left ..⟩
  · left
    unfold effectiveDeadline at entry
    split at entry
    · exact entry
    · simpa [Std.ExtTreeMap.getElem?_insert, Ne.symm same] using entry

namespace Lessor

variable {s : Lessor}

/-! ## Calls are runs -/

@[simp] theorem renewal_renewal (s : Lessor) (n : Nat) (a b : Renewing) :
    (s.renewal n a).renewal n b = s.renewal n b := by
  simp only [renewal, Function.update_idem]

@[simp] theorem check_renewal (s : Lessor) (n : Nat) (phase : Renewing) (id : LeaseId) (ttl now : Nat)
    (applied : Option Nat) (mark : Mark) :
    (s.renewal n phase).check n id ttl now applied mark = s.check n id ttl now applied mark := by
  unfold check
  simp only [renewal, Function.update_idem]
  rfl

theorem sweepCheck_sweep (s : Lessor) (sweep : Sweeping) (now : Nat) (id : LeaseId) (ttl : Nat)
    (applied : Option Nat) (rest : List (LeaseId × Nat)) (found : List LeaseId)
    (changed : LeaseId → Nat) :
    { s with sweep }.sweepCheck now id ttl applied rest found changed =
      s.sweepCheck now id ttl applied rest found changed := by
  unfold sweepCheck
  dsimp only

abbrev Steps := Relation.ReflTransGen (Step False)

/-- Nothing is being applied, and the sweeper waits. -/
structure Resting (s : Lessor) : Prop where
  applying : s.applying = .idle
  sweep : s.sweep = .idle

theorem Resting.lead (resting : s.Resting) : Steps s s.lead ∧ s.lead.Resting := by
  unfold Lessor.lead
  split
  · exact ⟨.refl, resting⟩
  next first =>
    rw [Bool.not_eq_true] at first
    have read : Step False s
        { s with promotions := Function.update s.promotions 0 (some s.leases) } := .promoteRead 0 first
    have records : Function.update s.promotions 0 (some s.leases) 0 = some s.leases :=
      Function.update_self ..
    have set : Step False { s with promotions := Function.update s.promotions 0 (some s.leases) } _ :=
      .promote 0 s.clock records (Nat.le_refl _) False.elim
    refine ⟨.tail (.single read) set, ?_⟩
    simp only [promote, first, Bool.false_eq_true, if_false]
    exact ⟨resting.applying, resting.sweep⟩

theorem lead_promoted (s : Lessor) : s.lead.promoted = true := by
  unfold Lessor.lead promote
  cases promoted : s.promoted <;> simp [promoted]

theorem lead_leases (s : Lessor) : s.lead.leases = s.leases := by
  unfold Lessor.lead promote
  cases promoted : s.promoted <;> simp

theorem lead_renewals (s : Lessor) : s.lead.renewals = s.renewals := by
  unfold Lessor.lead promote
  cases promoted : s.promoted <;> simp

theorem steps_renewed {n : Nat} {id : LeaseId} (leads : s.promoted = true)
    (free : s.renewals n = .idle) : Steps s (s.renewed n id) := by
  have at_ : ∀ phase, (s.renewal n phase).renewals n = phase := fun _ => Function.update_self ..
  have begun : Steps s (s.renewal n (.begun id)) := .single (.begin n id free leads)
  unfold renewed
  cases lease : s.leases[id]? with
  | none =>
    have run := begun.tail (.missing n (at_ _) lease)
    rwa [renewal_renewal] at run
  | some ttl =>
    have run := begun.tail (.find n (at_ _) lease)
    rw [renewal_renewal] at run
    have run := run.tail (.time n (at_ _))
    rw [renewal_renewal] at run
    have run := run.tail (.look n (at_ _))
    rw [renewal_renewal] at run
    have run := run.tail (.check n (at_ _))
    rw [check_renewal] at run
    dsimp only
    split
    · exact run
    next live =>
      refine run.tail (.renew n ?_ False.elim)
      exact (Function.update_self ..).trans (if_neg live)

theorem steps_propose {now : Nat} {changed : LeaseId → Nat} {found : List LeaseId} :
    ∀ {s : Lessor}, s.sweep = .proposing now found changed →
      Steps s { s with
        sweep := .idle
        proposals := s.proposals ++ found.map fun id => (id, s.clock) } := by
  induction found with
  | nil =>
    intro s at_
    have run : Steps s { s with sweep := .idle } := .single (.finish at_)
    simpa using run
  | cons id found ih =>
    intro s at_
    have run : Steps s { s with
        sweep := .proposing now found changed
        proposals := s.proposals ++ [(id, s.clock)] } := .single (.propose at_ False.elim)
    simpa using run.trans (ih rfl)

theorem steps_sweepRest {now : Nat} {changed : LeaseId → Nat} {rows : List (LeaseId × Nat)} :
    ∀ {found : List LeaseId} {s : Lessor}, s.sweep = .looking now rows found changed →
      Steps s (sweepRest now changed rows found s) := by
  induction rows with
  | nil =>
    intro found s at_
    have listed : Steps s { s with sweep := .proposing now found changed } := .single (.list at_)
    exact listed.trans (steps_propose rfl)
  | cons row rest ih =>
    intro found s at_
    have looked : Steps s _ := .single (.sweepLook at_)
    have checked := looked.tail (.sweepCheck rfl)
    rw [sweepCheck_sweep] at checked
    refine checked.trans (ih ?_)
    unfold sweepCheck
    dsimp only
    split <;> rfl

theorem sweepRest_resting {now : Nat} {changed : LeaseId → Nat} {rows : List (LeaseId × Nat)} :
    ∀ {found : List LeaseId} {s : Lessor}, s.applying = .idle →
      (sweepRest now changed rows found s).Resting := by
  induction rows with
  | nil => exact fun free => ⟨free, rfl⟩
  | cons row rest ih =>
    intro found s free
    refine ih ?_
    unfold sweepCheck
    dsimp only
    split <;> exact free

/-- A call that nothing else overlaps is a run of the leader, which rests again after it. -/
theorem Resting.call (resting : s.Resting) (c : Call) (same : c ≠ .elect)
    (free : ∀ n id, c = .renew n id → s.renewals n = .idle) :
    Steps s (s.call c) ∧ (s.call c).Resting := by
  obtain ⟨run, led⟩ := resting.lead
  have leads := s.lead_promoted
  cases c with
  | pass d => exact ⟨.single (.pass d), resting.applying, resting.sweep⟩
  | grant id ttl =>
    simp only [Lessor.call]
    split
    next positive =>
      refine ⟨.tail (.single (.grant id positive resting.applying False.elim)) (.stamp rfl ?_), rfl, resting.sweep⟩
      exact Std.ExtTreeMap.getElem?_insert_self
    · exact ⟨.refl, resting⟩
  | keepAlive id =>
    simp only [Lessor.call]
    cases lease : s.leases[id]? with
    | none => exact ⟨.refl, resting⟩
    | some ttl =>
      exact ⟨.tail (.single (.keepAlive resting.applying lease)) (.stamp rfl lease), rfl, resting.sweep⟩
  | revoke id =>
    simp only [Lessor.call]
    split
    · exact ⟨.tail (.single (.revoke id resting.applying)) (.unstamp rfl), rfl, resting.sweep⟩
    · exact ⟨.refl, resting⟩
  | elect => exact absurd rfl same
  | promote => exact ⟨run, led⟩
  | renew n id =>
    have idle : s.lead.renewals n = .idle := s.lead_renewals ▸ free n id rfl
    refine ⟨run.trans (steps_renewed leads idle), ?_⟩
    simp only [Lessor.call, renewed]
    split
    · exact ⟨led.applying, led.sweep⟩
    · split <;> exact ⟨led.applying, led.sweep⟩
  | timeToLive id =>
    simp only [Lessor.call, timeToLive]
    split
    · exact ⟨run, led⟩
    next ttl _ =>
      exact ⟨run.tail (.timeToLive id ttl s.lead.clock s.lead.applied[id]? leads), led.applying, led.sweep⟩
  | expired =>
    have read := run.tail (.sweepRead led.sweep leads)
    have kept := read.tail (.retain s.lead.clock rfl (Nat.le_refl _) False.elim)
    exact ⟨kept.trans (steps_sweepRest rfl), sweepRest_resting led.applying⟩

/-! ## The deadline of the lease there is -/

/-- The deadlines are those of the leases there are. -/
structure Current (s : Lessor) (latest : LeaseId → Nat) : Prop where
  latest_le : ∀ id, latest id ≤ s.clock
  applied_le : ∀ id at_, s.applied[id]? = some at_ → at_ ≤ latest id
  deadline_le : s.promoted = true → ∀ id ttl d, s.leases[id]? = some ttl →
    s.deadlines[id]? = some d → d ≤ latest id + ttl
  known : s.promoted = true → ∀ (id : LeaseId) (ttl : Nat), s.leases[id]? = some ttl →
    s.applied[id]? = none → ∃ d, s.deadlines[id]? = some d

namespace Current

variable {latest : LeaseId → Nat} {id : LeaseId} {ttl : Nat}

theorem effective_le (current : s.Current latest) (leads : s.promoted = true)
    (lease : s.leases[id]? = some ttl) : (s.effective id ttl).1 ≤ latest id + ttl := by
  unfold effective effectiveDeadline
  cases held : s.deadlines[id]? with
  | some d =>
    have le := current.deadline_le leads id ttl d lease held
    cases stamp : s.applied[id]? with
    | none => exact le
    | some at_ =>
      have at_le := current.applied_le id at_ stamp
      exact Nat.max_le.mpr ⟨le, Nat.add_le_add_right at_le ttl⟩
  | none =>
    cases stamp : s.applied[id]? with
    | none =>
      -- a lease not applied since the member started has had a deadline since the promotion
      obtain ⟨d, there⟩ := current.known leads id ttl lease stamp
      rw [held] at there
      cases there
    | some at_ =>
      have at_le := current.applied_le id at_ stamp
      exact Nat.max_le.mpr ⟨Nat.add_le_add_right at_le ttl, Nat.add_le_add_right at_le ttl⟩

/-- Other deadlines, where each is an old one or the TTL from the latest instant. -/
theorem of_deadlines {s' : Lessor} {latest' : LeaseId → Nat} (current : s.Current latest)
    (clock : s'.clock = s.clock) (leases : s'.leases = s.leases) (applied : s'.applied = s.applied)
    (promoted : s'.promoted = s.promoted)
    (latest_le : ∀ id, latest id ≤ latest' id ∧ latest' id ≤ s.clock)
    (from_ : s.promoted = true → ∀ id ttl d, s.leases[id]? = some ttl → s'.deadlines[id]? = some d →
      s.deadlines[id]? = some d ∨ d ≤ latest' id + ttl)
    (keeps : ∀ (id : LeaseId) (ttl d : Nat), s.leases[id]? = some ttl → s.deadlines[id]? = some d →
      ∃ d', s'.deadlines[id]? = some d') :
    s'.Current latest' where
  latest_le id := clock ▸ (latest_le id).2
  applied_le id at_ stamp :=
    (current.applied_le id at_ (applied ▸ stamp)).trans (latest_le id).1
  deadline_le leads id ttl d lease entry := by
    rw [promoted] at leads
    rw [leases] at lease
    obtain old | le := from_ leads id ttl d lease entry
    · exact (current.deadline_le leads id ttl d lease old).trans
        (Nat.add_le_add_right (latest_le id).1 ttl)
    · exact le
  known leads id ttl lease stamp := by
    rw [promoted] at leads
    rw [leases] at lease
    rw [applied] at stamp
    obtain ⟨d, old⟩ := current.known leads id ttl lease stamp
    exact keeps id ttl d lease old

/-- Looking at a lease may take its deadline down. -/
theorem looked {s' : Lessor} (current : s.Current latest) (leads : s.promoted = true)
    (lease : s.leases[id]? = some ttl) (clock : s'.clock = s.clock) (leases : s'.leases = s.leases)
    (applied : s'.applied = s.applied) (promoted : s'.promoted = s.promoted)
    (deadlines : s'.deadlines = (s.effective id ttl).2) : s'.Current latest := by
  refine current.of_deadlines clock leases applied promoted
    (fun id => ⟨Nat.le_refl _, current.latest_le id⟩) ?_ ?_
  · intro _ k ttl' d lease' entry
    rw [deadlines] at entry
    obtain old | ⟨rfl, le⟩ := effectiveDeadline_entry entry
    · exact .inl old
    · obtain rfl : ttl' = ttl := Option.some.inj (lease'.symm.trans lease)
      exact .inr (le.trans (current.effective_le leads lease))
  · intro k _ d _ old
    exact ⟨d, deadlines ▸ effectiveDeadline_keeps _ _ _ _ _ old⟩

theorem timeToLive (current : s.Current latest) (leads : s.promoted = true) :
    (s.timeToLive id).Current latest := by
  unfold Lessor.timeToLive
  split
  · exact current
  next ttl lease => exact current.looked leads lease rfl rfl rfl rfl rfl

theorem renewed {n : Nat} (current : s.Current latest) (leads : s.promoted = true) :
    (s.renewed n id).Current
      (match (s.renewed n id).renewals n with
        | .renewed _ => Function.update latest id s.clock
        | _ => latest) := by
  unfold Lessor.renewed
  cases lease : s.leases[id]? with
  | none =>
    simp only [renewal, Function.update_self]
    exact ⟨current.latest_le, current.applied_le, current.deadline_le, current.known⟩
  | some ttl =>
    have checked : (s.check n id ttl s.clock s.applied[id]?
        ⟨s.changed id, s.listed id, s.proposals.length⟩).Current latest :=
      current.looked leads lease rfl rfl rfl rfl rfl
    by_cases expired : (s.effective id ttl).1 ≤ s.clock
    · have answer : (s.check n id ttl s.clock s.applied[id]?
          ⟨s.changed id, s.listed id, s.proposals.length⟩).renewals n = .notFound := by
        unfold effective at expired
        simp [check, renewal, expired]
      simpa only [if_pos expired, answer] using checked
    · simp only [if_neg expired, renew, Function.update_self]
      refine checked.of_deadlines rfl rfl rfl rfl ?_ ?_ ?_
      · intro k
        have le := checked.latest_le k
        by_cases same : k = id
        · subst same
          rw [Function.update_self]
          exact ⟨le, Nat.le_refl _⟩
        · rw [Function.update_of_ne same]
          exact ⟨Nat.le_refl _, le⟩
      · intro _ k ttl' d lease' entry
        by_cases same : k = id
        · subst same
          obtain rfl : ttl' = ttl := Option.some.inj (lease'.symm.trans lease)
          obtain rfl : s.clock + ttl' = d := by simpa using entry
          exact .inr (by simp)
        · exact .inl (by simpa [Std.ExtTreeMap.getElem?_insert, Ne.symm same] using entry)
      · intro k _ d _ old
        by_cases same : k = id
        · exact ⟨s.clock + ttl, by simp [same]⟩
        · exact ⟨d, by simpa [Std.ExtTreeMap.getElem?_insert, Ne.symm same] using old⟩

/-- What a look of the sweeper leaves alone. -/
theorem sweepCheck_frame (s : Lessor) (row : LeaseId × Nat) (rest : List (LeaseId × Nat))
    (found : List LeaseId) (changed : LeaseId → Nat) :
    let next := s.sweepCheck s.clock row.1 row.2 s.applied[row.1]? rest found changed
    next.clock = s.clock ∧ next.leases = s.leases ∧ next.applied = s.applied ∧
      next.promoted = s.promoted ∧ next.deadlines = (s.effective row.1 row.2).2 := by
  unfold sweepCheck
  dsimp only
  split <;> exact ⟨rfl, rfl, rfl, rfl, rfl⟩

theorem sweepRest {now : Nat} {changed : LeaseId → Nat} {rows : List (LeaseId × Nat)} :
    ∀ (found : List LeaseId) {s : Lessor}, s.clock = now → s.Current latest → s.promoted = true →
      (∀ row ∈ rows, s.leases[row.1]? = some row.2) →
      (sweepRest now changed rows found s).Current latest := by
  induction rows with
  | nil =>
    intro found s _ current _ _
    exact ⟨current.latest_le, current.applied_le, current.deadline_le, current.known⟩
  | cons row rest ih =>
    rintro found s rfl current leads leases
    obtain ⟨clock, same, applied, promoted, deadlines⟩ := sweepCheck_frame s row rest found changed
    have current := current.looked leads (leases row List.mem_cons_self) clock same applied promoted
      deadlines
    exact ih _ clock current (promoted.trans leads) fun row mem =>
      same ▸ leases row (List.mem_cons_of_mem _ mem)

theorem swept (current : s.Current latest) (leads : s.promoted = true) :
    s.swept.Current latest := by
  have kept : ∀ (id : LeaseId) (ttl : Nat), s.leases[id]? = some ttl →
      (s.retain s.leases)[id]? = s.deadlines[id]? := by
    intro id ttl lease
    apply Inv.getElem?_retain
    rw [Std.ExtTreeMap.contains_eq_isSome_getElem?, lease]
    rfl
  have retained : Current { s with
      deadlines := s.retain s.leases
      sweep := .looking s.clock s.leases.toList [] s.changed } latest := by
    refine current.of_deadlines rfl rfl rfl rfl (fun id => ⟨Nat.le_refl _, current.latest_le id⟩) ?_ ?_
    · intro _ id ttl d lease entry
      exact .inl ((kept id ttl lease).symm.trans entry)
    · intro id ttl d lease held
      exact ⟨d, (kept id ttl lease).trans held⟩
  exact sweepRest [] rfl retained leads fun row mem =>
    Std.ExtTreeMap.mem_toList_iff_getElem?_eq_some.mp mem

theorem lead {d : Dated} (current : d.lessor.Current d.latest) :
    d.lead.lessor.Current d.lead.latest ∧ d.lead.lessor.promoted = true := by
  unfold Dated.lead Lessor.lead
  cases promoted : d.lessor.promoted with
  | true => simpa [promoted] using current
  | false =>
    simp only [Bool.false_eq_true, if_false, promote]
    refine ⟨⟨fun _ => Nat.le_refl _, ?_, ?_, ?_⟩, trivial⟩
    · intro id at_ stamp
      exact (current.applied_le id at_ stamp).trans (current.latest_le id)
    · intro _ id ttl held lease entry
      rw [Std.ExtTreeMap.getElem?_map, lease] at entry
      exact (Option.some.inj entry).ge
    · intro _ id ttl lease _
      exact ⟨d.lessor.clock + ttl, by rw [Std.ExtTreeMap.getElem?_map, lease]; rfl⟩

/-- A lease is stamped now, if the deadline held for it is no later than its TTL from now. -/
theorem stamped {s' : Lessor} (current : s.Current latest) (clock : s'.clock = s.clock)
    (promoted : s'.promoted = s.promoted) (deadlines : s'.deadlines = s.deadlines)
    (leases : ∀ k : LeaseId, k ≠ id → s'.leases[k]? = s.leases[k]?)
    (applied : s'.applied = s.applied.insert id s.clock)
    (own : s.promoted = true → ∀ ttl held : Nat, s'.leases[id]? = some ttl →
      s.deadlines[id]? = some held → held ≤ s.clock + ttl) :
    s'.Current (Function.update latest id s.clock) := by
  have stamps : ∀ k : LeaseId, k ≠ id → s'.applied[k]? = s.applied[k]? := by
    intro k other
    simp [applied, Std.ExtTreeMap.getElem?_insert, Ne.symm other]
  constructor
  · intro k
    by_cases same : k = id
    · rw [same, Function.update_self, clock]
    · rw [Function.update_of_ne same, clock]
      exact current.latest_le k
  · intro k at_ stamp
    by_cases same : k = id
    · rw [same, applied, Std.ExtTreeMap.getElem?_insert_self] at stamp
      rw [same, Function.update_self]
      exact (Option.some.inj stamp).ge
    · rw [Function.update_of_ne same]
      exact current.applied_le k at_ (stamps k same ▸ stamp)
  · intro leads k ttl d lease entry
    rw [promoted] at leads
    rw [deadlines] at entry
    by_cases same : k = id
    · subst same
      rw [Function.update_self]
      exact own leads ttl d lease entry
    · rw [Function.update_of_ne same]
      exact current.deadline_le leads k ttl d (leases k same ▸ lease) entry
  · intro leads k ttl lease stamp
    rw [promoted] at leads
    rw [deadlines]
    by_cases same : k = id
    · rw [same, applied, Std.ExtTreeMap.getElem?_insert_self] at stamp
      cases stamp
    · exact current.known leads k ttl (leases k same ▸ lease) (stamps k same ▸ stamp)

theorem grant (current : s.Current latest)
    (timely : s.promoted = true → ∀ held, s.deadlines[id]? = some held → held ≤ s.clock + ttl) :
    ((s.grant id ttl).stamp id ttl).Current (Function.update latest id s.clock) := by
  refine current.stamped rfl rfl rfl ?_ rfl ?_
  · intro k other
    exact Std.ExtTreeMap.getElem?_insert.trans (by simp [Ne.symm other])
  · intro leads ttl' held lease entry
    obtain rfl : ttl = ttl' := Option.some.inj (Std.ExtTreeMap.getElem?_insert_self.symm.trans lease)
    exact timely leads held entry

theorem keepAlive (current : s.Current latest) :
    ({ s with applying := .stamp id }.stamp id ttl).Current (Function.update latest id s.clock) := by
  refine current.stamped rfl rfl rfl (fun _ _ => rfl) rfl ?_
  intro leads ttl' held lease entry
  exact (current.deadline_le leads id ttl' held lease entry).trans
    (Nat.add_le_add_right (current.latest_le id) ttl')

theorem revoke (current : s.Current latest) : ((s.revoke id).unstamp id).Current latest where
  latest_le := current.latest_le
  applied_le k at_ stamp := by
    apply current.applied_le k
    simp only [Lessor.revoke, Lessor.unstamp, Std.ExtTreeMap.getElem?_erase] at stamp
    split at stamp
    · cases stamp
    · exact stamp
  deadline_le leads k ttl d lease entry := by
    refine current.deadline_le leads k ttl d ?_ entry
    simp only [Lessor.revoke, Lessor.unstamp, Std.ExtTreeMap.getElem?_erase] at lease
    split at lease
    · cases lease
    · exact lease
  known leads k ttl lease stamp := by
    simp only [Lessor.revoke, Lessor.unstamp, Std.ExtTreeMap.getElem?_erase] at lease stamp
    split at lease
    · cases lease
    next other =>
      rw [if_neg other] at stamp
      exact current.known leads k ttl lease stamp

end Current

end Lessor

namespace Dated

variable {d : Dated}

def Current (d : Dated) : Prop := d.lessor.Current d.latest

theorem Current.call {c : Call} (current : d.Current) (timely : d.Timely c) : (d.call c).Current := by
  have lead := Lessor.Current.lead current
  cases c with
  | pass n =>
    exact ⟨fun id => (current.latest_le id).trans (Nat.le_add_right ..), current.applied_le,
      current.deadline_le, current.known⟩
  | grant id ttl =>
    simp only [Current, Dated.call, Lessor.call, latestAfter]
    split
    · exact Lessor.Current.grant current timely
    · exact current
  | keepAlive id =>
    simp only [Current, Dated.call, Lessor.call, latestAfter,
      Std.ExtTreeMap.contains_eq_isSome_getElem?]
    split
    next ttl lease =>
      rw [lease]
      exact Lessor.Current.keepAlive current
    next missing =>
      rw [missing]
      exact current
  | revoke id =>
    simp only [Current, Dated.call, Lessor.call, latestAfter]
    split
    · exact Lessor.Current.revoke current
    · exact current
  | elect => exact ⟨current.latest_le, current.applied_le, nofun, nofun⟩
  | promote => exact lead.1
  | renew n id => exact lead.1.renewed lead.2
  | timeToLive id => exact lead.1.timeToLive lead.2
  | expired => exact lead.1.swept lead.2

theorem Current.run {calls : List Call} :
    ∀ {d : Dated}, d.Current → d.TimelyRun calls → (d.run calls).Current := by
  induction calls with
  | nil => exact fun current _ => current
  | cons c calls ih => exact fun current timely => ih (current.call timely.1) timely.2

/-- A leader's deadline for a lease is no later than the lease's TTL from the latest of its grant's
application, its renewals and keep-alives, and the leader's promotion, if no grant finds a later
deadline for its id. -/
theorem deadline_of_current_lease (leases : Table LeaseId Nat) (clock : Nat) (calls : List Call)
    (timely : (start leases clock).TimelyRun calls) (id : LeaseId) (ttl : Nat)
    (lease : ((start leases clock).run calls).lessor.leases[id]? = some ttl) :
    (((start leases clock).run calls).lead.lessor.effective id ttl).1 ≤
      ((start leases clock).run calls).lead.latest id + ttl := by
  have started : (start leases clock).Current := ⟨fun _ => Nat.zero_le _, nofun, nofun, nofun⟩
  obtain ⟨current, leads⟩ := Lessor.Current.lead (started.run timely)
  exact current.effective_le leads ((congrArg (·[id]?) (Lessor.lead_leases _)).trans lease)

/-- A lease is renewed twice, revoked, swept and granted anew. -/
def grantedAnew : List Call :=
  [.renew 0 7, .pass 4, .renew 1 7, .revoke 7, .expired, .pass 3, .grant 7 5, .pass 1]

/-- The new lease, of five units from 7 on, ends at 12. The first, renewed at 4, would have at 14. -/
theorem deadline_of_current_lease_anew :
    let d := (start Lessor.oneLease 0).run grantedAnew
    d.lessor.leases[(7 : LeaseId)]? = some 5 ∧ d.lead.latest 7 = 7 ∧
      (d.lead.lessor.effective 7 5).1 = 12 ∧ (d.lead.lessor.effective 7 5).1 ≤ d.lead.latest 7 + 5 := by
  have timely : (start Lessor.oneLease 0).TimelyRun grantedAnew := by
    simp only [grantedAnew, TimelyRun, Timely, true_and, and_true]
    intro _ held entry
    have swept : ((start Lessor.oneLease 0).run (grantedAnew.take 6)).lessor.deadlines[(7 : LeaseId)]? =
        none := by decide +kernel
    cases swept.symm.trans entry
  have lease : ((start Lessor.oneLease 0).run grantedAnew).lessor.leases[(7 : LeaseId)]? = some 5 := by
    decide +kernel
  exact ⟨lease, by decide +kernel, by decide +kernel, deadline_of_current_lease _ _ _ timely _ _ lease⟩

/-- A lease of ten units is revoked and granted again for one. The leader lets it live ten units. -/
theorem earlier_deadline_kept :
    ¬ ∀ (leases : Table LeaseId Nat) (clock : Nat) (calls : List Call) (id : LeaseId) (ttl : Nat),
      ((start leases clock).run calls).lessor.leases[id]? = some ttl →
        (((start leases clock).run calls).lead.lessor.effective id ttl).1 ≤
          ((start leases clock).run calls).lead.latest id + ttl := by
  intro all
  have le := all ∅ 0 [.promote, .grant 7 10, .timeToLive 7, .revoke 7, .grant 7 1] 7 1 (by decide +kernel)
  revert le
  decide +kernel

end Dated

end Fastetcd.Raft
