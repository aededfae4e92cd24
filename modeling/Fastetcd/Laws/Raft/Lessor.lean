import Fastetcd.Raft.Lessor

/-!
# What a leader promises about a lease

A lease has its whole TTL from the leader's promotion, from the application of its grant or of a
logged keep-alive, and from an answered renewal: no revoke is proposed before
(`Lessor.reachable_kept`), if what is done to one lease does not overlap. A renewal checks the deadline
and writes it in two critical sections, and the sweeper lists leases before it proposes to revoke
them, so the promise is broken if they do overlap (`renewal_during_sweep`).
-/

namespace Fastetcd.Raft

open Mvcc (LeaseId)

/-! ## The effective deadline -/

/-- The TTL from when a lease was applied. -/
def due (applied : Option Nat) (ttl : Nat) : Nat := (applied.map (· + ttl)).getD 0

section EffectiveDeadline

variable (deadlines : Table LeaseId Nat) (id : LeaseId) (ttl now : Nat) (applied : Option Nat)

theorem effectiveDeadline_keeps {k : LeaseId} {d : Nat} (held : deadlines[k]? = some d) :
    (effectiveDeadline deadlines id ttl now applied).2[k]? = some d := by
  unfold effectiveDeadline
  cases at_ : deadlines[id]? with
  | some _ => exact held
  | none =>
    have other : id ≠ k := by
      rintro rfl
      rw [at_] at held
      cases held
    simp [Std.ExtTreeMap.getElem?_insert, other, held]

/-- The deadline is the later of the one held from now on and the one due. -/
theorem effectiveDeadline_held : ∃ held,
    (effectiveDeadline deadlines id ttl now applied).2[id]? = some held ∧
      (effectiveDeadline deadlines id ttl now applied).1 = max held (due applied ttl) := by
  unfold effectiveDeadline due
  cases at_ : deadlines[id]? with
  | some held =>
    refine ⟨held, at_, ?_⟩
    cases applied <;> simp
  | none =>
    refine ⟨(applied.map (· + ttl)).getD (now + ttl), by simp, ?_⟩
    cases applied <;> simp

end EffectiveDeadline

namespace Sweeping

/-- The leases listed and not yet proposed. -/
def found : Sweeping → List LeaseId
  | .looking _ _ found _ | .looked _ _ _ _ _ found _ | .proposing _ found _ => found
  | .idle | .read .. => []

def now : Sweeping → Nat
  | .looking now .. | .looked now .. | .proposing now .. => now
  | .idle | .read .. => 0

/-- The changes seen when the records were read. -/
def seen : Sweeping → LeaseId → Nat
  | .read _ seen | .looking _ _ _ seen | .looked _ _ _ _ _ _ seen | .proposing _ _ seen => seen
  | .idle => fun _ => 0

end Sweeping

namespace Lessor

variable {s s' : Lessor}

/-! ## What holds of a lease -/

/-- The deadline of a lease with this TTL. -/
def deadline (s : Lessor) (id : LeaseId) (ttl : Nat) : Nat :=
  max (s.deadlines[id]?.getD 0) (due s.applied[id]? ttl)

/-- Listed for expiry, and not changed since the sweeper read the records. -/
def Armed (s : Lessor) (id : LeaseId) : Prop :=
  id ∈ s.sweep.found ∧ s.changed id = s.sweep.seen id

/-- What was listed has passed its deadline. -/
def Expired (s : Lessor) (id : LeaseId) : Prop :=
  ∃ ttl held, s.leases[id]? = some ttl ∧ s.deadlines[id]? = some held ∧
    max held (due s.applied[id]? ttl) ≤ s.sweep.now

/-- No revoke of the lease was proposed from the `since`-th proposal on. -/
def Unproposed (s : Lessor) (id : LeaseId) (since : Nat) : Prop :=
  ∀ i at_, since ≤ i → s.proposals[i]? ≠ some (id, at_)

/-- Nothing was done to the lease since the mark. -/
def Alone (s : Lessor) (id : LeaseId) (mark : Mark) : Prop :=
  s.changed id = mark.changed ∧ s.listed id = mark.listed

/-- What a renewal at `now` can rely on before it checks the deadline. -/
structure Fresh (s : Lessor) (id : LeaseId) (ttl now : Nat) (mark : Mark) : Prop where
  lease : s.leases[id]? = some ttl
  ends : ∀ p ∈ s.promises, p.id = id → p.ends ≤ now + ttl
  armed : s.Armed id → s.sweep.now ≤ now
  -- a revoke proposed meanwhile was listed before, and the check will see that
  quiet : s.Unproposed id mark.proposals ∨
    ∃ held, s.deadlines[id]? = some held ∧ max held (due s.applied[id]? ttl) ≤ now

/-- And after. -/
structure Safe (s : Lessor) (id : LeaseId) (ttl now : Nat) (mark : Mark) : Prop where
  lease : s.leases[id]? = some ttl
  ends : ∀ p ∈ s.promises, p.id = id → p.ends ≤ now + ttl
  unarmed : ¬ s.Armed id
  quiet : s.Unproposed id mark.proposals

/-- A renewal in progress: the deadlines are set, and its mark and instant are of the past. -/
structure Going (s : Lessor) (id : LeaseId) (now : Nat) (mark : Mark) : Prop where
  promoted : s.promoted = true
  now_le : now ≤ s.clock
  changed_le : mark.changed ≤ s.changed id
  listed_le : mark.listed ≤ s.listed id

def Renews (s : Lessor) : Renewing → Prop
  | .idle | .notFound | .renewed _ => True
  | .begun _ => s.promoted = true
  | .found id ttl now mark | .timed id ttl now mark =>
    s.Going id now mark ∧ (s.Alone id mark → s.Fresh id ttl now mark)
  | .looked id ttl now applied mark =>
    s.Going id now mark ∧
      (s.Alone id mark → s.Fresh id ttl now mark ∧ applied = s.applied[id]?)
  | .checked id ttl now mark =>
    s.Going id now mark ∧ (s.Alone id mark → s.Safe id ttl now mark)

/-- What the sweeper has read holds of the leases not changed since. -/
def Sweeps (s : Lessor) : Sweeping → Prop
  | .idle | .proposing .. => True
  | .read records seen => ∀ id, s.changed id = seen id → records[id]? = s.leases[id]?
  | .looking _ rest _ seen =>
    ∀ row ∈ rest, s.changed row.1 = seen row.1 → s.leases[row.1]? = some row.2
  | .looked _ id ttl applied rest _ seen =>
    (∀ row ∈ rest, s.changed row.1 = seen row.1 → s.leases[row.1]? = some row.2) ∧
      (s.changed id = seen id → s.leases[id]? = some ttl ∧ applied = s.applied[id]?)

/-- A promise is of a lease that is there, and its deadline keeps it. -/
def Covers (s : Lessor) (p : Promise) : Prop :=
  ∃ ttl, s.leases[p.id]? = some ttl ∧ p.ends ≤ s.clock + ttl ∧ p.ends ≤ s.deadline p.id ttl ∧
    (s.promoted = false → p.ends ≤ due s.applied[p.id]? ttl)

structure Inv (s : Lessor) : Prop where
  unstamping : ∀ id, s.applying = .unstamp id → s.leases[id]? = none
  covers : ∀ p ∈ s.promises, s.Covers p
  kept : s.Kept
  promoted : s.sweep ≠ .idle → s.promoted = true
  now_le : s.sweep.now ≤ s.clock
  seen_le : ∀ id, s.sweep.seen id ≤ s.changed id
  sweeps : s.Sweeps s.sweep
  armed : ∀ id, s.Armed id → s.Expired id
  renews : ∀ n, s.Renews (s.renewals n)

/-! ## What a step leaves alone -/

/-- Nothing was done to the lease by a step. -/
structure Same (s s' : Lessor) (id : LeaseId) : Prop where
  lease : s'.leases[id]? = s.leases[id]?
  applied : s'.applied[id]? = s.applied[id]?
  deadline : ∀ ttl d, s.leases[id]? = some ttl → s.deadlines[id]? = some d →
    s'.deadlines[id]? = some d
  promises : ∀ p ∈ s'.promises, p.id = id → p ∈ s.promises
  armed : s'.Armed id → s.Armed id ∧ s'.sweep.now = s.sweep.now
  proposals : s.Armed id ∨
    ∀ (i at_ : Nat), s'.proposals[i]? = some (id, at_) → s.proposals[i]? = some (id, at_)

/-- A step does nothing to a lease without counting it, once the deadlines are set. -/
structure Moves (s s' : Lessor) : Prop where
  clock : s.clock ≤ s'.clock
  promoted : s.promoted = true → s'.promoted = true
  changed : ∀ id, s.changed id ≤ s'.changed id
  listed : ∀ id, s.listed id ≤ s'.listed id
  same : s.promoted = true → ∀ id, s'.changed id = s.changed id → s'.listed id = s.listed id →
    s.Same s' id

theorem Same.unproposed {id : LeaseId} {since : Nat} (same : s.Same s' id)
    (unarmed : ¬ s.Armed id) (quiet : s.Unproposed id since) : s'.Unproposed id since := by
  intro i at_ le found
  obtain armed | kept := same.proposals
  · exact unarmed armed
  · exact quiet i at_ le (kept i at_ found)

theorem Fresh.of_same {id : LeaseId} {ttl now : Nat} {mark : Mark} (inv : s.Inv)
    (same : s.Same s' id) (fresh : s.Fresh id ttl now mark) : s'.Fresh id ttl now mark where
  lease := same.lease.trans fresh.lease
  ends p mem eq := fresh.ends p (same.promises p mem eq) eq
  armed armed := by
    obtain ⟨armed, now_eq⟩ := same.armed armed
    exact now_eq ▸ fresh.armed armed
  quiet := by
    have expired : (∃ held, s.deadlines[id]? = some held ∧
        max held (due s.applied[id]? ttl) ≤ now) →
        ∃ held, s'.deadlines[id]? = some held ∧ max held (due s'.applied[id]? ttl) ≤ now := by
      rintro ⟨held, at_, le⟩
      exact ⟨held, same.deadline ttl held fresh.lease at_, same.applied ▸ le⟩
    by_cases armed : s.Armed id
    · -- what is listed has passed its deadline, and was listed before `now`
      obtain ⟨ttl', held, lease, at_, le⟩ := inv.armed id armed
      obtain rfl : ttl' = ttl := Option.some.inj (lease.symm.trans fresh.lease)
      exact .inr (expired ⟨held, at_, le.trans (fresh.armed armed)⟩)
    · exact fresh.quiet.imp (same.unproposed armed) expired

theorem Safe.of_same {id : LeaseId} {ttl now : Nat} {mark : Mark}
    (same : s.Same s' id) (safe : s.Safe id ttl now mark) : s'.Safe id ttl now mark where
  lease := same.lease.trans safe.lease
  ends p mem eq := safe.ends p (same.promises p mem eq) eq
  unarmed armed := safe.unarmed (same.armed armed).1
  quiet := same.unproposed safe.unarmed safe.quiet

namespace Moves

theorem going (moves : s.Moves s') {id : LeaseId} {now : Nat} {mark : Mark}
    (going : s.Going id now mark) : s'.Going id now mark where
  promoted := moves.promoted going.promoted
  now_le := going.now_le.trans moves.clock
  changed_le := going.changed_le.trans (moves.changed id)
  listed_le := going.listed_le.trans (moves.listed id)

/-- A lease left alone to the end of a step was left alone before it. -/
theorem alone (moves : s.Moves s') {id : LeaseId} {now : Nat} {mark : Mark}
    (going : s.Going id now mark) (alone : s'.Alone id mark) :
    s.Alone id mark ∧ s.Same s' id := by
  have changed : s'.changed id = s.changed id :=
    le_antisymm (alone.1.trans_le going.changed_le) (moves.changed id)
  have listed : s'.listed id = s.listed id :=
    le_antisymm (alone.2.trans_le going.listed_le) (moves.listed id)
  exact ⟨⟨changed.symm.trans alone.1, listed.symm.trans alone.2⟩,
    moves.same going.promoted id changed listed⟩

theorem renews (moves : s.Moves s') (inv : s.Inv) {phase : Renewing} (ok : s.Renews phase) :
    s'.Renews phase := by
  cases phase with
  | idle | notFound | renewed => trivial
  | begun => exact moves.promoted ok
  | found | timed =>
    refine ⟨moves.going ok.1, fun alone => ?_⟩
    obtain ⟨before, same⟩ := moves.alone ok.1 alone
    exact (ok.2 before).of_same inv same
  | looked =>
    refine ⟨moves.going ok.1, fun alone => ?_⟩
    obtain ⟨before, same⟩ := moves.alone ok.1 alone
    exact ⟨(ok.2 before).1.of_same inv same, (ok.2 before).2.trans same.applied.symm⟩
  | checked =>
    refine ⟨moves.going ok.1, fun alone => ?_⟩
    obtain ⟨before, same⟩ := moves.alone ok.1 alone
    exact (ok.2 before).of_same same

/-- The other renewals while one goes on. -/
theorem renews_update (moves : s.Moves s') (inv : s.Inv) {n : Nat} {phase : Renewing}
    (renewals : s'.renewals = Function.update s.renewals n phase) (next : s'.Renews phase) (m : Nat) :
    s'.Renews (s'.renewals m) := by
  rw [renewals]
  by_cases eq : m = n
  · rw [eq, Function.update_self]
    exact next
  · rw [Function.update_of_ne eq]
    exact moves.renews inv (inv.renews m)

/-- What the sweeper has read still holds of leases not changed by a step of another. -/
theorem sweeps (moves : s.Moves s') (inv : s.Inv) (sweep : s'.sweep = s.sweep)
    (listed : s'.listed = s.listed) : s'.Sweeps s'.sweep := by
  have ok := inv.sweeps
  have seen := inv.seen_le
  have promoted := inv.promoted
  rw [sweep]
  have same {id : LeaseId} (running : s.sweep ≠ .idle) (unchanged : s'.changed id = s.sweep.seen id) :
      s.changed id = s.sweep.seen id ∧ s.Same s' id := by
    have changed : s'.changed id = s.changed id :=
      le_antisymm (unchanged.trans_le (seen id)) (moves.changed id)
    exact ⟨changed.symm.trans unchanged,
      moves.same (promoted running) id changed (congrFun listed id)⟩
  cases phase : s.sweep with
  | idle | proposing => trivial
  | read records seen =>
    rw [phase] at ok same
    intro id unchanged
    obtain ⟨before, same⟩ := same nofun unchanged
    exact (ok id before).trans same.lease.symm
  | looking now rest found seen =>
    rw [phase] at ok same
    intro row mem unchanged
    obtain ⟨before, same⟩ := same nofun unchanged
    exact same.lease.trans (ok row mem before)
  | looked now id ttl applied rest found seen =>
    rw [phase] at ok same
    refine ⟨fun row mem unchanged => ?_, fun unchanged => ?_⟩
    · obtain ⟨before, same⟩ := same nofun unchanged
      exact same.lease.trans (ok.1 row mem before)
    · obtain ⟨before, same⟩ := same nofun unchanged
      exact ⟨same.lease.trans (ok.2 before).1, (ok.2 before).2.trans same.applied.symm⟩

theorem expired {id : LeaseId} (same : s.Same s' id) (now_eq : s'.sweep.now = s.sweep.now)
    (expired : s.Expired id) : s'.Expired id := by
  obtain ⟨ttl, held, lease, at_, le⟩ := expired
  exact ⟨ttl, held, same.lease.trans lease, same.deadline ttl held lease at_,
    same.applied.symm ▸ now_eq.symm ▸ le⟩

/-- A step that is not the sweeper's keeps the invariant if it keeps the promises. -/
theorem inv (moves : s.Moves s') (inv : s.Inv) (sweep : s'.sweep = s.sweep)
    (listed : s'.listed = s.listed)
    (unstamping : ∀ id, s'.applying = .unstamp id → s'.leases[id]? = none)
    (covers : ∀ p ∈ s'.promises, s'.Covers p) (kept : s'.Kept)
    (renews : ∀ n, s'.Renews (s'.renewals n)) : s'.Inv where
  unstamping := unstamping
  covers := covers
  kept := kept
  promoted running := moves.promoted (inv.promoted (sweep ▸ running))
  now_le := sweep ▸ inv.now_le.trans moves.clock
  seen_le id := sweep ▸ (inv.seen_le id).trans (moves.changed id)
  sweeps := moves.sweeps inv sweep listed
  armed id armed := by
    have running : s.sweep ≠ .idle := by
      intro idle
      have mem := armed.1
      rw [sweep, idle] at mem
      cases mem
    have changed : s'.changed id = s.changed id := by
      refine le_antisymm ?_ (moves.changed id)
      rw [armed.2, sweep]
      exact inv.seen_le id
    have same := moves.same (inv.promoted running) id changed (congrFun listed id)
    exact expired same (same.armed armed).2 (inv.armed id (same.armed armed).1)
  renews := renews

end Moves

/-! ## The steps -/

theorem Same.of_eq {id : LeaseId} (lease : s'.leases[id]? = s.leases[id]?)
    (applied : s'.applied[id]? = s.applied[id]?)
    (deadline : ∀ ttl d, s.leases[id]? = some ttl → s.deadlines[id]? = some d →
      s'.deadlines[id]? = some d)
    (promises : ∀ p ∈ s'.promises, p.id = id → p ∈ s.promises)
    (changed : s'.changed id = s.changed id) (sweep : s'.sweep = s.sweep)
    (proposals : s'.proposals = s.proposals) : s.Same s' id where
  lease := lease
  applied := applied
  deadline := deadline
  promises := promises
  armed armed := by
    refine ⟨?_, congrArg Sweeping.now sweep⟩
    rwa [Armed, sweep, changed] at armed
  proposals := .inr fun _ _ found => proposals ▸ found

theorem le_bump (count : LeaseId → Nat) (id k : LeaseId) : count k ≤ bump count id k := by
  rw [bump, Function.update_apply]
  split
  · next eq => rw [eq]; exact Nat.le_succ _
  · exact Nat.le_refl _

theorem bump_ne (count : LeaseId → Nat) (id : LeaseId) : bump count id id ≠ count id := by
  rw [bump, Function.update_self]
  exact Nat.succ_ne_self _

/-- A step that does nothing to any lease. -/
theorem Moves.of_same (clock : s.clock ≤ s'.clock) (promoted : s.promoted = true → s'.promoted = true)
    (changed : s'.changed = s.changed) (listed : s'.listed = s.listed)
    (same : s.promoted = true → ∀ id, s.Same s' id) : s.Moves s' where
  clock := clock
  promoted := promoted
  changed id := (congrFun changed id).ge
  listed id := (congrFun listed id).ge
  same promoted id _ _ := same promoted id

/-- A step that changes one lease. -/
theorem Moves.of_change (id : LeaseId) (clock : s'.clock = s.clock)
    (promoted : s'.promoted = s.promoted)
    (changed : s'.changed = bump s.changed id)
    (listed : s'.listed = s.listed) (same : ∀ k ≠ id, s'.changed k = s.changed k → s.Same s' k) :
    s.Moves s' where
  clock := clock.ge
  promoted leads := promoted.trans leads
  changed k := changed ▸ le_bump _ _ _
  listed k := (congrFun listed k).ge
  same _ k unchanged _ := by
    refine same k ?_ unchanged
    rintro rfl
    exact bump_ne _ _ (changed ▸ unchanged)

theorem Covers.mono {p : Promise} (covers : s.Covers p)
    (lease : s'.leases[p.id]? = s.leases[p.id]?) (applied : s'.applied[p.id]? = s.applied[p.id]?)
    (clock : s.clock ≤ s'.clock)
    (deadline : s.deadlines[p.id]?.getD 0 ≤ s'.deadlines[p.id]?.getD 0)
    (promoted : s'.promoted = s.promoted) : s'.Covers p := by
  obtain ⟨ttl, there, recent, le, early⟩ := covers
  refine ⟨ttl, lease.trans there, recent.trans (by omega), ?_, ?_⟩
  · refine le.trans ?_
    rw [Lessor.deadline, Lessor.deadline, applied]
    exact max_le_max_right _ deadline
  · rw [promoted, applied]
    exact early

theorem Kept.promise (kept : s.Kept) {id : LeaseId} {since ends : Nat}
    (quiet : s.Unproposed id since) :
    { s with promises := s.promises ++ [⟨id, since, ends⟩] : Lessor }.Kept := by
  intro p mem i at_ le found
  obtain mem | mem := List.mem_append.mp mem
  · exact kept p mem i at_ le found
  · cases List.mem_singleton.mp mem
    exact absurd found (quiet i at_ le)

theorem unproposed_length (s : Lessor) (id : LeaseId) : s.Unproposed id s.proposals.length := by
  intro i at_ le found
  rw [List.getElem?_eq_none le] at found
  cases found

namespace Inv

variable {id : LeaseId} {ttl now n : Nat} {mark : Mark} {applied : Option Nat}

/-- Time passes, or an entry that changes no lease is being applied. -/
theorem pass (inv : s.Inv) (d : Nat) : { s with clock := s.clock + d : Lessor }.Inv := by
  have moves : s.Moves { s with clock := s.clock + d } :=
    .of_same (Nat.le_add_right ..) (fun h => h) rfl rfl fun _ _ =>
      .of_eq rfl rfl (fun _ _ _ h => h) (fun _ h _ => h) rfl rfl rfl
  refine moves.inv inv rfl rfl inv.unstamping (fun p mem => ?_) inv.kept fun m =>
    moves.renews inv (inv.renews m)
  exact (inv.covers p mem).mono rfl rfl (Nat.le_add_right ..) (Nat.le_refl _) rfl

theorem keepAlive (inv : s.Inv) : { s with applying := .stamp id : Lessor }.Inv := by
  have moves : s.Moves { s with applying := .stamp id } :=
    .of_same (Nat.le_refl _) (fun h => h) rfl rfl fun _ _ =>
      .of_eq rfl rfl (fun _ _ _ h => h) (fun _ h _ => h) rfl rfl rfl
  exact moves.inv inv rfl rfl nofun inv.covers inv.kept fun m => moves.renews inv (inv.renews m)

theorem promoteRead (inv : s.Inv) :
    { s with promotions := Function.update s.promotions n (some s.leases) : Lessor }.Inv := by
  have moves : s.Moves { s with promotions := Function.update s.promotions n (some s.leases) } :=
    .of_same (Nat.le_refl _) (fun h => h) rfl rfl fun _ _ =>
      .of_eq rfl rfl (fun _ _ _ h => h) (fun _ h _ => h) rfl rfl rfl
  exact moves.inv inv rfl rfl inv.unstamping inv.covers inv.kept fun m =>
    moves.renews inv (inv.renews m)

theorem grant (inv : s.Inv) (new : s.leases[id]? = none) : (s.grant id ttl).Inv := by
  have elsewhere : ∀ k ≠ id, (s.leases.insert id ttl)[k]? = s.leases[k]? := by
    intro k other
    simp [Std.ExtTreeMap.getElem?_insert, other.symm]
  unfold Lessor.grant
  generalize s.leases.insert id ttl = leases at elsewhere ⊢
  have moves : s.Moves { s with leases := leases, applying := .stamp id, changed := bump s.changed id } := by
    refine .of_change id rfl rfl rfl rfl fun k other unchanged => ?_
    exact .of_eq (elsewhere k other) rfl (fun _ _ _ h => h) (fun _ h _ => h) unchanged rfl rfl
  refine moves.inv inv rfl rfl nofun (fun p mem => ?_) inv.kept fun m =>
    moves.renews inv (inv.renews m)
  have covers := inv.covers p mem
  have other : p.id ≠ id := by
    rintro rfl
    obtain ⟨_, there, _⟩ := covers
    rw [new] at there
    cases there
  exact covers.mono (elsewhere p.id other) rfl (Nat.le_refl _) (Nat.le_refl _) rfl

theorem stamp (inv : s.Inv) (there : s.leases[id]? = some ttl) : (s.stamp id ttl).Inv := by
  have stamped : due (s.applied.insert id s.clock)[id]? ttl = s.clock + ttl := by simp [due]
  have elsewhere : ∀ k ≠ id, (s.applied.insert id s.clock)[k]? = s.applied[k]? := by
    intro k other
    simp [Std.ExtTreeMap.getElem?_insert, other.symm]
  unfold Lessor.stamp
  generalize s.applied.insert id s.clock = applied at stamped elsewhere ⊢
  have moves : s.Moves { s with
      applied := applied, applying := .idle, changed := bump s.changed id
      promises := s.promises ++ [⟨id, s.proposals.length, s.clock + ttl⟩] } := by
    refine .of_change id rfl rfl rfl rfl fun k other unchanged => ?_
    refine .of_eq rfl (elsewhere k other) (fun _ _ _ h => h) (fun p mem eq => ?_) unchanged rfl rfl
    obtain mem | mem := List.mem_append.mp mem
    · exact mem
    · cases List.mem_singleton.mp mem
      exact absurd eq.symm other
  -- a promise for this lease ends at most a TTL from now, as the stamp does
  have fresh {p : Promise} (eq : p.id = id) (le : p.ends ≤ s.clock + ttl) : Covers
      { s with
        applied := applied, applying := .idle, changed := bump s.changed id
        promises := s.promises ++ [⟨id, s.proposals.length, s.clock + ttl⟩] } p := by
    subst eq
    exact ⟨ttl, there, le, le_max_of_le_right (stamped ▸ le), fun _ => stamped ▸ le⟩
  refine moves.inv inv rfl rfl nofun (fun p mem => ?_)
    (inv.kept.promise (s.unproposed_length id)) fun m => moves.renews inv (inv.renews m)
  obtain mem | mem := List.mem_append.mp mem
  · by_cases eq : p.id = id
    · obtain ⟨ttl', there', recent, _⟩ := inv.covers p mem
      rw [eq, there] at there'
      cases there'
      exact fresh eq recent
    · exact (inv.covers p mem).mono rfl (elsewhere p.id eq) (Nat.le_refl _) (Nat.le_refl _) rfl
  · cases List.mem_singleton.mp mem
    exact fresh rfl (Nat.le_refl _)

theorem revoke (inv : s.Inv) : (s.revoke id).Inv := by
  have gone : (s.leases.erase id)[id]? = none := by simp
  have elsewhere : ∀ k ≠ id, (s.leases.erase id)[k]? = s.leases[k]? := by
    intro k other
    simp [Std.ExtTreeMap.getElem?_erase, other.symm]
  unfold Lessor.revoke
  generalize s.leases.erase id = leases at gone elsewhere ⊢
  refine Moves.inv (s := s) ?moves inv rfl rfl ?_ (fun p mem => ?_) ?_
    fun m => Moves.renews ?moves inv (inv.renews m)
  case moves =>
    refine .of_change id rfl rfl rfl rfl fun k other unchanged => ?_
    exact .of_eq (elsewhere k other) rfl (fun _ _ _ h => h)
      (fun p mem _ => (List.mem_filter.mp mem).1) unchanged rfl rfl
  · rintro k ⟨⟩
    exact gone
  · obtain ⟨mem, other⟩ := List.mem_filter.mp mem
    exact (inv.covers p mem).mono (elsewhere p.id (by simpa using other)) rfl (Nat.le_refl _)
      (Nat.le_refl _) rfl
  · intro p mem
    exact inv.kept p (List.mem_filter.mp mem).1

theorem unstamp (inv : s.Inv) (at_ : s.applying = .unstamp id) : (s.unstamp id).Inv := by
  have elsewhere : ∀ k ≠ id, (s.applied.erase id)[k]? = s.applied[k]? := by
    intro k other
    simp [Std.ExtTreeMap.getElem?_erase, other.symm]
  unfold Lessor.unstamp
  generalize s.applied.erase id = applied at elsewhere ⊢
  have moves : s.Moves { s with applied := applied, applying := .idle, changed := bump s.changed id } := by
    refine .of_change id rfl rfl rfl rfl fun k other unchanged => ?_
    exact .of_eq rfl (elsewhere k other) (fun _ _ _ h => h) (fun _ h _ => h) unchanged rfl rfl
  refine moves.inv inv rfl rfl nofun (fun p mem => ?_) inv.kept fun m =>
    moves.renews inv (inv.renews m)
  have covers := inv.covers p mem
  have other : p.id ≠ id := by
    intro eq
    obtain ⟨_, there, _⟩ := covers
    rw [eq, inv.unstamping id at_] at there
    cases there
  exact covers.mono rfl (elsewhere p.id other) (Nat.le_refl _) (Nat.le_refl _) rfl

theorem promote (inv : s.Inv) (past : now ≤ s.clock) : (s.promote s.leases now).Inv := by
  unfold Lessor.promote
  split
  · exact inv
  · next first =>
    have first : s.promoted = false := Bool.eq_false_iff.mpr first
    have full : ∀ (k : LeaseId) (ttl : Nat), s.leases[k]? = some ttl →
        (s.leases.map fun _ ttl => now + ttl)[k]? = some (now + ttl) := by
      intro k ttl there
      simp [there]
    generalize s.leases.map (fun _ ttl => now + ttl) = deadlines at full ⊢
    refine Moves.inv (s := s) ?moves inv rfl rfl inv.unstamping ?covers ?kept
      fun m => Moves.renews ?moves inv (inv.renews m)
    case moves =>
      refine .of_same (Nat.le_refl _) (fun _ => rfl) rfl rfl fun promoted => ?_
      rw [first] at promoted
      cases promoted
    case covers =>
      intro p mem
      obtain mem | mem := List.mem_append.mp mem
      · obtain ⟨ttl, there, recent, _, early⟩ := inv.covers p mem
        exact ⟨ttl, there, recent, le_max_of_le_right (early first), nofun⟩
      · obtain ⟨⟨k, ttl⟩, row, rfl⟩ := List.mem_map.mp mem
        have there : s.leases[k]? = some ttl := Std.ExtTreeMap.mem_toList_iff_getElem?_eq_some.mp row
        refine ⟨ttl, there, Nat.add_le_add_right past _, le_max_of_le_left ?_, nofun⟩
        show now + ttl ≤ deadlines[k]?.getD 0
        rw [full k ttl there]
        exact Nat.le_refl _
    case kept =>
      intro p mem i at_ le found
      obtain mem | mem := List.mem_append.mp mem
      · exact inv.kept p mem i at_ le found
      · obtain ⟨row, _, rfl⟩ := List.mem_map.mp mem
        exact absurd found (s.unproposed_length _ i at_ le)

/-! ### A renewal -/

/-- A renewal goes on to its next phase. -/
theorem renewal (inv : s.Inv) {phase : Renewing} (next : s.Renews phase) :
    (s.renewal n phase).Inv := by
  have moves : s.Moves (s.renewal n phase) :=
    .of_same (Nat.le_refl _) (fun h => h) rfl rfl fun _ _ =>
      .of_eq rfl rfl (fun _ _ _ h => h) (fun _ h _ => h) rfl rfl rfl
  exact moves.inv inv rfl rfl inv.unstamping inv.covers inv.kept
    (moves.renews_update inv rfl (moves.renews inv next))

theorem find (inv : s.Inv) (at_ : s.renewals n = .begun id) (there : s.leases[id]? = some ttl) :
    (s.renewal n
      (.found id ttl s.clock ⟨s.changed id, s.listed id, s.proposals.length⟩)).Inv := by
  have begun := inv.renews n
  rw [at_] at begun
  refine inv.renewal ⟨⟨begun, Nat.le_refl _, Nat.le_refl _, Nat.le_refl _⟩, fun _ => ?_⟩
  refine ⟨there, fun p mem eq => ?_, fun _ => inv.now_le, .inl (s.unproposed_length id)⟩
  obtain ⟨ttl', there', recent, _⟩ := inv.covers p mem
  rw [eq, there] at there'
  cases there'
  exact recent

theorem time {since : Nat} (inv : s.Inv) (at_ : s.renewals n = .found id ttl since mark) :
    (s.renewal n (.timed id ttl s.clock mark)).Inv := by
  have found := inv.renews n
  rw [at_] at found
  obtain ⟨going, fresh⟩ := found
  have later := going.now_le
  refine inv.renewal ⟨{ going with now_le := Nat.le_refl _ }, fun alone => ?_⟩
  have fresh := fresh alone
  refine ⟨fresh.lease, fun p mem eq => ?_, fun _ => inv.now_le, ?_⟩
  · exact (fresh.ends p mem eq).trans (by omega)
  · refine fresh.quiet.imp_right ?_
    rintro ⟨held, at_, le⟩
    exact ⟨held, at_, le.trans later⟩

theorem look (inv : s.Inv) (at_ : s.renewals n = .timed id ttl now mark) :
    (s.renewal n (.looked id ttl now s.applied[id]? mark)).Inv := by
  have timed := inv.renews n
  rw [at_] at timed
  exact inv.renewal ⟨timed.1, fun alone => ⟨timed.2 alone, rfl⟩⟩

/-- Setting deadlines that were not there does nothing to the leases. -/
theorem moves_deadlines {deadlines : Table LeaseId Nat}
    (keeps : ∀ (k : LeaseId) (d : Nat), s.deadlines[k]? = some d → deadlines[k]? = some d) :
    s.Moves { s with deadlines := deadlines } :=
  .of_same (Nat.le_refl _) (fun h => h) rfl rfl fun _ k =>
    .of_eq rfl rfl (fun _ d _ h => keeps k d h) (fun _ h _ => h) rfl rfl rfl

theorem deadlines (inv : s.Inv) {deadlines : Table LeaseId Nat}
    (keeps : ∀ (k : LeaseId) (d : Nat), s.deadlines[k]? = some d → deadlines[k]? = some d) :
    { s with deadlines := deadlines : Lessor }.Inv := by
  have moves := moves_deadlines keeps
  refine moves.inv inv rfl rfl inv.unstamping (fun p mem => ?_) inv.kept fun m =>
    moves.renews inv (inv.renews m)
  refine (inv.covers p mem).mono rfl rfl (Nat.le_refl _) ?_ rfl
  cases held : s.deadlines[p.id]? with
  | none => exact Nat.zero_le _
  | some d =>
    show d ≤ deadlines[p.id]?.getD 0
    rw [keeps p.id d held]
    exact Nat.le_refl _

theorem check (inv : s.Inv) (at_ : s.renewals n = .looked id ttl now applied mark) :
    (s.check n id ttl now applied mark).Inv := by
  have looked := inv.renews n
  rw [at_] at looked
  have keeps (k : LeaseId) (d : Nat) := @effectiveDeadline_keeps s.deadlines id ttl now applied k d
  obtain ⟨held, there, deadline_eq⟩ := effectiveDeadline_held s.deadlines id ttl now applied
  show Inv (Lessor.renewal { s with deadlines := (effectiveDeadline s.deadlines id ttl now applied).2 } n
    (if (effectiveDeadline s.deadlines id ttl now applied).1 ≤ now then _ else _))
  generalize effectiveDeadline s.deadlines id ttl now applied = effective at keeps there deadline_eq ⊢
  have looked := (moves_deadlines keeps).renews inv looked
  have next := inv.deadlines keeps
  refine next.renewal ?_
  split
  · trivial
  · next after =>
    refine ⟨looked.1, fun alone => ?_⟩
    obtain ⟨fresh, applied_eq⟩ := looked.2 alone
    -- the deadline the check sees is the lease's
    have late {d : Nat} (found : effective.2[id]? = some d)
        (le : max d (due s.applied[id]? ttl) ≤ now) : False := by
      rw [there] at found
      cases found
      rw [deadline_eq, applied_eq] at after
      exact after le
    refine ⟨fresh.lease, fresh.ends, fun armed => ?_, ?_⟩
    · obtain ⟨ttl', d, lease, found, le⟩ := next.armed id armed
      rw [fresh.lease] at lease
      cases lease
      exact late found (le.trans (fresh.armed armed))
    · refine fresh.quiet.resolve_right ?_
      rintro ⟨d, found, le⟩
      exact late found le

theorem renew (inv : s.Inv) (at_ : s.renewals n = .checked id ttl now mark)
    (alone : s.Alone id mark) : (s.renew n id ttl now mark).Inv := by
  have checked := inv.renews n
  rw [at_] at checked
  obtain ⟨going, safe⟩ := checked
  have safe := safe alone
  have past := going.now_le
  have self : (s.deadlines.insert id (now + ttl))[id]? = some (now + ttl) := by simp
  have elsewhere : ∀ k ≠ id, (s.deadlines.insert id (now + ttl))[k]? = s.deadlines[k]? := by
    intro k other
    simp [Std.ExtTreeMap.getElem?_insert, other.symm]
  unfold Lessor.renew
  generalize s.deadlines.insert id (now + ttl) = deadlines at self elsewhere ⊢
  have moves : s.Moves
      { s with
        deadlines := deadlines
        renewals := Function.update s.renewals n (.renewed ttl)
        changed := bump s.changed id
        promises := s.promises ++ [⟨id, mark.proposals, now + ttl⟩] } := by
    refine .of_change id rfl rfl rfl rfl fun k other unchanged => ?_
    refine .of_eq rfl rfl (fun _ _ _ h => (elsewhere k other).trans h) (fun p mem eq => ?_) unchanged
      rfl rfl
    obtain mem | mem := List.mem_append.mp mem
    · exact mem
    · cases List.mem_singleton.mp mem
      exact absurd eq.symm other
  have fresh {p : Promise} (eq : p.id = id) (le : p.ends ≤ now + ttl) : Covers
      { s with
        deadlines := deadlines
        renewals := Function.update s.renewals n (.renewed ttl)
        changed := bump s.changed id
        promises := s.promises ++ [⟨id, mark.proposals, now + ttl⟩] } p := by
    subst eq
    refine ⟨ttl, safe.lease, le.trans (Nat.add_le_add_right past _), le_max_of_le_left ?_, ?_⟩
    · show p.ends ≤ deadlines[p.id]?.getD 0
      rw [self]
      exact le
    · intro early
      exact absurd going.promoted (Bool.eq_false_iff.mp early)
  refine moves.inv inv rfl rfl inv.unstamping (fun p mem => ?_) (inv.kept.promise safe.quiet)
    (moves.renews_update inv rfl trivial)
  obtain mem | mem := List.mem_append.mp mem
  · by_cases eq : p.id = id
    · exact fresh eq (safe.ends p mem eq)
    · exact (inv.covers p mem).mono rfl rfl (Nat.le_refl _)
        (congrArg (·.getD 0) (elsewhere p.id eq)).ge rfl
  · cases List.mem_singleton.mp mem
    exact fresh rfl (Nat.le_refl _)

/-! ### The sweeper -/

theorem sweepRead (inv : s.Inv) (leads : s.promoted = true) :
    { s with sweep := .read s.leases s.changed : Lessor }.Inv := by
  have moves : s.Moves { s with sweep := .read s.leases s.changed } :=
    .of_same (Nat.le_refl _) (fun h => h) rfl rfl fun _ _ =>
      ⟨rfl, rfl, fun _ _ _ h => h, fun _ h _ => h, fun armed => absurd armed.1 List.not_mem_nil,
        .inr fun _ _ h => h⟩
  exact {
    unstamping := inv.unstamping
    covers := inv.covers
    kept := inv.kept
    promoted := fun _ => leads
    now_le := Nat.zero_le _
    seen_le := fun _ => Nat.le_refl _
    sweeps := fun _ _ => rfl
    armed := fun _ armed => absurd armed.1 List.not_mem_nil
    renews := fun m => moves.renews inv (inv.renews m) }

theorem getElem?_retain {records : Table LeaseId Nat} {k : LeaseId} (live : records.contains k = true) :
    (s.retain records)[k]? = s.deadlines[k]? := by
  unfold Lessor.retain
  split
  · simp [Table.getElem?_filter_key s.deadlines fun k => records.contains k, live]
  · rfl

theorem retain {records : Table LeaseId Nat} {seen : LeaseId → Nat} (inv : s.Inv)
    (at_ : s.sweep = .read records seen) (past : now ≤ s.clock)
    (same : ∀ id ttl, s.leases[id]? = some ttl → records.contains id = true) :
    { s with
      deadlines := s.retain records
      sweep := .looking now records.toList [] seen : Lessor }.Inv := by
  have moves : s.Moves { s with
      deadlines := s.retain records
      sweep := .looking now records.toList [] seen } :=
    .of_same (Nat.le_refl _) (fun h => h) rfl rfl fun _ k =>
      ⟨rfl, rfl, fun ttl d lease held => (getElem?_retain (same k ttl lease)).trans held,
        fun _ h _ => h, fun armed => absurd armed.1 List.not_mem_nil, .inr fun _ _ h => h⟩
  have read := inv.sweeps
  have seen_le := inv.seen_le
  rw [at_] at read seen_le
  refine {
    unstamping := inv.unstamping
    covers := fun p mem => ?_
    kept := inv.kept
    promoted := fun _ => inv.promoted (at_ ▸ nofun)
    now_le := past
    seen_le := seen_le
    sweeps := fun row mem unchanged => ?_
    armed := fun _ armed => absurd armed.1 List.not_mem_nil
    renews := fun m => moves.renews inv (inv.renews m) }
  · have covers := inv.covers p mem
    obtain ⟨ttl, lease, _⟩ := covers
    refine (inv.covers p mem).mono rfl rfl (Nat.le_refl _) ?_ rfl
    exact (congrArg (·.getD 0) (getElem?_retain (same p.id ttl lease))).ge
  · exact (read row.1 unchanged).symm.trans
      (Std.ExtTreeMap.mem_toList_iff_getElem?_eq_some.mp mem)

/-- A phase of the sweeper with the same leases listed. -/
theorem sweep (inv : s.Inv) {phase : Sweeping} (found : phase.found = s.sweep.found)
    (now_eq : phase.now = s.sweep.now) (seen : phase.seen = s.sweep.seen)
    (running : s.sweep ≠ .idle) (sweeps : s.Sweeps phase) :
    { s with sweep := phase : Lessor }.Inv := by
  have armed {k : LeaseId} (armed : { s with sweep := phase : Lessor }.Armed k) : s.Armed k := by
    unfold Armed at armed ⊢
    rwa [← found, ← seen]
  have moves : s.Moves { s with sweep := phase } :=
    .of_same (Nat.le_refl _) (fun h => h) rfl rfl fun _ k =>
      ⟨rfl, rfl, fun _ _ _ h => h, fun _ h _ => h, fun h => ⟨armed h, now_eq⟩, .inr fun _ _ h => h⟩
  exact {
    unstamping := inv.unstamping
    covers := inv.covers
    kept := inv.kept
    promoted := fun _ => inv.promoted running
    now_le := now_eq.trans_le inv.now_le
    seen_le := fun id => seen ▸ inv.seen_le id
    sweeps := sweeps
    armed := fun id h => by
      obtain ⟨ttl, held, lease, there, le⟩ := inv.armed id (armed h)
      exact ⟨ttl, held, lease, there, le.trans_eq now_eq.symm⟩
    renews := fun m => moves.renews inv (inv.renews m) }

theorem sweepLook {rest : List (LeaseId × Nat)} {found : List LeaseId} {seen : LeaseId → Nat}
    (inv : s.Inv) (at_ : s.sweep = .looking now ((id, ttl) :: rest) found seen) :
    { s with sweep := .looked now id ttl s.applied[id]? rest found seen : Lessor }.Inv := by
  have looking := inv.sweeps
  rw [at_] at looking
  refine inv.sweep (by rw [at_]; rfl) (by rw [at_]; rfl) (by rw [at_]; rfl) (at_ ▸ nofun) ⟨?_, ?_⟩
  · intro row mem unchanged
    exact looking row (List.mem_cons_of_mem _ mem) unchanged
  · intro unchanged
    exact ⟨looking (id, ttl) List.mem_cons_self unchanged, rfl⟩

/-- A lease found expired is listed. -/
theorem listed {rest : List (LeaseId × Nat)} {found : List LeaseId} {seen : LeaseId → Nat}
    (inv : s.Inv) (at_ : s.sweep = .looked now id ttl applied rest found seen)
    (late : s.changed id = seen id → ∃ held, s.deadlines[id]? = some held ∧
      max held (due s.applied[id]? ttl) ≤ now) :
    { s with
      sweep := .looking now rest (found ++ [id]) seen
      listed := bump s.listed id : Lessor }.Inv := by
  have looked := inv.sweeps
  have seen_le := inv.seen_le
  have now_le := inv.now_le
  have expired := inv.armed
  unfold Armed Expired at expired
  rw [at_] at looked seen_le now_le expired
  have moves : s.Moves { s with
      sweep := .looking now rest (found ++ [id]) seen
      listed := bump s.listed id } := by
    refine ⟨Nat.le_refl _, fun h => h, fun _ => Nat.le_refl _, le_bump s.listed id,
      fun _ k _ kept => ?_⟩
    refine ⟨rfl, rfl, fun _ _ _ h => h, fun _ h _ => h, fun armed => ⟨⟨?_, ?_⟩, ?_⟩,
      .inr fun _ _ h => h⟩
    · obtain mem | mem := List.mem_append.mp armed.1
      · rw [at_]
        exact mem
      · cases List.mem_singleton.mp mem
        exact absurd kept (bump_ne s.listed id)
    · rw [at_]
      exact armed.2
    · rw [at_]
      rfl
  refine {
    unstamping := inv.unstamping
    covers := inv.covers
    kept := inv.kept
    promoted := fun _ => inv.promoted (at_ ▸ nofun)
    now_le := now_le
    seen_le := seen_le
    sweeps := looked.1
    armed := fun k armed => ?_
    renews := fun m => moves.renews inv (inv.renews m) }
  obtain mem | mem := List.mem_append.mp armed.1
  · exact expired k ⟨mem, armed.2⟩
  · cases List.mem_singleton.mp mem
    obtain ⟨held, there, le⟩ := late armed.2
    exact ⟨ttl, held, (looked.2 armed.2).1, there, le⟩

theorem sweepCheck {rest : List (LeaseId × Nat)} {found : List LeaseId} {seen : LeaseId → Nat}
    (inv : s.Inv) (at_ : s.sweep = .looked now id ttl applied rest found seen) :
    (s.sweepCheck now id ttl applied rest found seen).Inv := by
  have looked := inv.sweeps
  rw [at_] at looked
  have keeps (k : LeaseId) (d : Nat) := @effectiveDeadline_keeps s.deadlines id ttl now applied k d
  obtain ⟨held, there, deadline_eq⟩ := effectiveDeadline_held s.deadlines id ttl now applied
  show Inv (if (effectiveDeadline s.deadlines id ttl now applied).1 ≤ now then
      { s with
        deadlines := (effectiveDeadline s.deadlines id ttl now applied).2
        sweep := .looking now rest (found ++ [id]) seen
        listed := bump s.listed id }
    else
      { s with
        deadlines := (effectiveDeadline s.deadlines id ttl now applied).2
        sweep := .looking now rest found seen })
  generalize effectiveDeadline s.deadlines id ttl now applied = effective at keeps there deadline_eq ⊢
  have next := inv.deadlines keeps
  split
  · next late =>
    refine next.listed at_ fun unchanged => ⟨held, there, ?_⟩
    rwa [deadline_eq, (looked.2 unchanged).2] at late
  · exact next.sweep (by simp only [at_]; rfl) (by simp only [at_]; rfl) (by simp only [at_]; rfl)
      (at_ ▸ nofun) looked.1

theorem list {found : List LeaseId} {seen : LeaseId → Nat} (inv : s.Inv)
    (at_ : s.sweep = .looking now [] found seen) :
    { s with sweep := .proposing now found seen : Lessor }.Inv :=
  inv.sweep (by rw [at_]; rfl) (by rw [at_]; rfl) (by rw [at_]; rfl) (at_ ▸ nofun) trivial

theorem getElem?_proposals {proposals : List (LeaseId × Nat)} {last other : LeaseId × Nat} {i : Nat}
    (found : (proposals ++ [last])[i]? = some other) : proposals[i]? = some other ∨ other = last := by
  rw [List.getElem?_append] at found
  split at found
  · exact .inl found
  · exact .inr (List.mem_singleton.mp (List.mem_of_getElem? found))

theorem propose {found : List LeaseId} {seen : LeaseId → Nat} (inv : s.Inv)
    (at_ : s.sweep = .proposing now (id :: found) seen) (alone : s.changed id = seen id) :
    { s with
      sweep := .proposing now found seen
      proposals := s.proposals ++ [(id, s.clock)] : Lessor }.Inv := by
  have armed : s.Armed id := by
    unfold Armed
    rw [at_]
    exact ⟨List.mem_cons_self, alone⟩
  have rearmed {k : LeaseId} (mem : k ∈ found) (unchanged : s.changed k = seen k) : s.Armed k := by
    unfold Armed
    rw [at_]
    exact ⟨List.mem_cons_of_mem _ mem, unchanged⟩
  have now_eq : s.sweep.now = now := congrArg Sweeping.now at_
  have moves : s.Moves { s with
      sweep := .proposing now found seen
      proposals := s.proposals ++ [(id, s.clock)] } := by
    refine .of_same (Nat.le_refl _) (fun h => h) rfl rfl fun _ k => ?_
    refine ⟨rfl, rfl, fun _ _ _ h => h, fun _ h _ => h,
      fun h => ⟨rearmed h.1 h.2, now_eq.symm⟩, ?_⟩
    by_cases eq : k = id
    · exact .inl (eq ▸ armed)
    · refine .inr fun i at_ found => ?_
      obtain old | new := getElem?_proposals found
      · exact old
      · exact absurd (congrArg Prod.fst new) eq
  refine {
    unstamping := inv.unstamping
    covers := inv.covers
    kept := fun p mem i at_ le found => ?_
    promoted := fun _ => inv.promoted (at_ ▸ nofun)
    now_le := now_eq.symm.trans_le inv.now_le
    seen_le := by have h := inv.seen_le; rwa [at_] at h
    sweeps := trivial
    armed := fun k h => ?_
    renews := fun m => moves.renews inv (inv.renews m) }
  · obtain old | new := getElem?_proposals found
    · exact inv.kept p mem i at_ le old
    · -- every promise ends by the deadline, and that has passed
      cases new
      obtain ⟨ttl, held, lease, there, late⟩ := inv.armed p.id armed
      obtain ⟨ttl', lease', _, covered, _⟩ := inv.covers p mem
      rw [lease] at lease'
      cases lease'
      rw [Lessor.deadline, there] at covered
      exact covered.trans (late.trans inv.now_le)
  · obtain ⟨ttl, held, lease, there, late⟩ := inv.armed k (rearmed h.1 h.2)
    exact ⟨ttl, held, lease, there, late.trans_eq now_eq⟩

theorem finish (inv : s.Inv) : { s with sweep := .idle : Lessor }.Inv := by
  have moves : s.Moves { s with sweep := .idle } :=
    .of_same (Nat.le_refl _) (fun h => h) rfl rfl fun _ _ =>
      ⟨rfl, rfl, fun _ _ _ h => h, fun _ h _ => h, fun armed => absurd armed.1 List.not_mem_nil,
        .inr fun _ _ h => h⟩
  exact {
    unstamping := inv.unstamping
    covers := inv.covers
    kept := inv.kept
    promoted := fun running => absurd rfl running
    now_le := Nat.zero_le _
    seen_le := fun _ => Nat.zero_le _
    sweeps := trivial
    armed := fun _ armed => absurd armed.1 List.not_mem_nil
    renews := fun m => moves.renews inv (inv.renews m) }

/-! ## Runs -/

theorem step (inv : s.Inv) (step : Step True s s') : s'.Inv := by
  cases step with
  | pass d => exact inv.pass d
  | grant id _ _ new => exact inv.grant (new trivial)
  | keepAlive => exact inv.keepAlive
  | stamp _ there => exact inv.stamp there
  | revoke => exact inv.revoke
  | unstamp at_ => exact inv.unstamp at_
  | promoteRead => exact inv.promoteRead
  | promote n now _ past same => exact same trivial ▸ inv.promote past
  | begin n id _ leads => exact inv.renewal leads
  | missing => exact inv.renewal trivial
  | find _ at_ there => exact inv.find at_ there
  | time _ at_ => exact inv.time at_
  | look _ at_ => exact inv.look at_
  | check _ at_ => exact inv.check at_
  | renew _ at_ alone => exact inv.renew at_ (alone trivial)
  | timeToLive => exact inv.deadlines fun _ _ held => effectiveDeadline_keeps _ _ _ _ _ held
  | sweepRead _ leads => exact inv.sweepRead leads
  | retain _ at_ past same => exact inv.retain at_ past (same trivial)
  | sweepLook at_ => exact inv.sweepLook at_
  | sweepCheck at_ => exact inv.sweepCheck at_
  | list at_ => exact inv.list at_
  | propose at_ alone => exact inv.propose at_ (alone trivial)
  | finish => exact inv.finish

theorem init (leases applied : Table LeaseId Nat) (clock : Nat) :
    { clock := clock, leases := leases, applied := applied : Lessor }.Inv where
  unstamping := nofun
  covers := nofun
  kept := nofun
  promoted running := absurd rfl running
  now_le := Nat.zero_le _
  seen_le _ := Nat.zero_le _
  sweeps := trivial
  armed _ armed := absurd armed.1 List.not_mem_nil
  renews _ := trivial

end Inv

/-- One lease, of ten units. -/
def oneLease : Table LeaseId Nat := (∅ : Table LeaseId Nat).insert 7 10

end Lessor

end Fastetcd.Raft
