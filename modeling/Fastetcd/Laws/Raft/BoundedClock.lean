import Fastetcd.Laws.Raft.LeaseDates
import Fastetcd.Raft.BoundedClock

/-!
# Deadlines that a clock can hold

If the TTL of every lease ends before the clock does, no call panics, and the deadlines are those of
the leader whose clock has no end (`Leader.Views.call`). But a request may ask for any TTL, and one
lease whose TTL does not end is enough: the promotion panics with the deadlines locked, and no lease
expires any more (`longest_ttl_stops_expiry`).
-/

namespace Fastetcd.Raft

open Mvcc (LeaseId)
open Lessor (Call)
open Std (ExtTreeMap)

variable {last : Nat}

namespace Ram

theorem add_eq {at_ ttl : Nat} (le : at_ + ttl ≤ last) : add last at_ ttl = some (at_ + ttl) :=
  if_pos le

/-- Where nothing overflows, `effective_deadline` is the one on a clock without end. -/
theorem effectiveDeadline_eq {ram : Ram} {id : LeaseId} {ttl now : Nat} {applied : Option Nat}
    (free : ram.poisoned = false) (fits : now + ttl ≤ last) (past : ∀ at_ ∈ applied, at_ ≤ now) :
    ram.effectiveDeadline last id ttl now applied =
      .ok ((Raft.effectiveDeadline ram.deadlines id ttl now applied).1,
        { ram with deadlines := (Raft.effectiveDeadline ram.deadlines id ttl now applied).2 }) := by
  have due : applied.mapM (add last · ttl) = some (applied.map (· + ttl)) := by
    cases applied with
    | none => rfl
    | some at_ =>
      have le : at_ + ttl ≤ last := (Nat.add_le_add_right (past at_ rfl) ttl).trans fits
      simp [add_eq le]
  unfold effectiveDeadline Raft.effectiveDeadline
  rw [due, add_eq fits]
  cases ram.deadlines[id]? <;> simp [free]

theorem promote_eq {ram : Ram} {leases : Table LeaseId Nat} {now : Nat} (free : ram.poisoned = false)
    (first : ram.promoted = false)
    (fits : ∀ (id : LeaseId) (ttl : Nat), leases[id]? = some ttl → now + ttl ≤ last) :
    ram.promote last leases.toList now =
      .ok { ram with promoted := true, deadlines := leases.map fun _ ttl => now + ttl } := by
  have rows : leases.toList.mapM (fun row => (add last now row.2).map (row.1, ·)) =
      some (leases.toList.map fun row => (row.1, now + row.2)) := by
    apply mapM_eq_pure
    intro row mem
    have lease := ExtTreeMap.mem_toList_iff_getElem?_eq_some.mp mem
    rw [add_eq (fits row.1 row.2 lease)]
    rfl
  have table : (leases.toList.map fun row => (row.1, now + row.2)).foldl
      (fun deadlines row => deadlines.insert row.1 row.2) ∅ = leases.map fun _ ttl => now + ttl := by
    rw [List.foldl_map]
    change (∅ : Table LeaseId Nat).overwrite leases (now + ·) = _
    refine ExtTreeMap.ext_getElem? fun id => ?_
    rw [Table.getElem?_overwrite, ExtTreeMap.getElem?_map]
    simp
  unfold promote
  rw [rows]
  simp [free, first, table]

theorem renew_eq {ram : Ram} {id : LeaseId} {ttl now : Nat} {applied : Option Nat}
    (free : ram.poisoned = false) (fits : now + ttl ≤ last) (past : ∀ at_ ∈ applied, at_ ≤ now) :
    ram.renew last id ttl now applied = .ok { ram with deadlines :=
      if (Raft.effectiveDeadline ram.deadlines id ttl now applied).1 ≤ now then
        (Raft.effectiveDeadline ram.deadlines id ttl now applied).2
      else (Raft.effectiveDeadline ram.deadlines id ttl now applied).2.insert id (now + ttl) } := by
  unfold renew
  rw [effectiveDeadline_eq free fits past]
  simp only [bind, Except.bind]
  split
  · rfl
  · simp [free, add_eq fits]
    rfl

/-- The sweep looks at every lease, as the one on a clock without end does. -/
theorem expiredAmong_eq {now : Nat} {applied : Table LeaseId Nat} (changed : LeaseId → Nat)
    {rows : List (LeaseId × Nat)} :
    ∀ (ram : Ram) {s : Lessor} (found : List LeaseId), ram.poisoned = false →
      s.deadlines = ram.deadlines → s.applied = applied → (∀ row ∈ rows, now + row.2 ≤ last) →
      (∀ (id : LeaseId) (at_ : Nat), applied[id]? = some at_ → at_ ≤ now) →
      ∃ ids, expiredAmong last now applied rows ram =
        .ok (ids, { ram with deadlines := (Lessor.sweepRest now changed rows found s).deadlines }) := by
  induction rows with
  | nil =>
    intro ram s found free same stamps fits past
    refine ⟨[], ?_⟩
    rw [Lessor.sweepRest, same]
    rfl
  | cons row rest ih =>
    intro ram s found free same stamps fits past
    subst stamps
    have look : ram.effectiveDeadline last row.1 row.2 now s.applied[row.1]? = _ :=
      effectiveDeadline_eq free (fits row List.mem_cons_self) (past row.1)
    rw [← same] at look
    have next : (s.sweepCheck now row.1 row.2 s.applied[row.1]? rest found changed).deadlines =
        (Raft.effectiveDeadline s.deadlines row.1 row.2 now s.applied[row.1]?).2 ∧
        (s.sweepCheck now row.1 row.2 s.applied[row.1]? rest found changed).applied = s.applied := by
      unfold Lessor.sweepCheck
      dsimp only
      split <;> exact ⟨rfl, rfl⟩
    have rows_fit : ∀ row ∈ rest, now + row.2 ≤ last := by
      intro row mem
      exact fits row (List.mem_cons_of_mem _ mem)
    obtain ⟨ids, swept⟩ := ih
      { ram with deadlines := (Raft.effectiveDeadline s.deadlines row.1 row.2 now s.applied[row.1]?).2 }
      (if (Raft.effectiveDeadline s.deadlines row.1 row.2 now s.applied[row.1]?).1 ≤ now then
        found ++ [row.1] else found) free next.1 next.2 rows_fit past
    refine ⟨if (Raft.effectiveDeadline s.deadlines row.1 row.2 now s.applied[row.1]?).1 ≤ now then
      row.1 :: ids else ids, ?_⟩
    unfold expiredAmong
    simp only [bind, Except.bind, look]
    rw [swept]
    rfl

theorem expired_eq {ram : Ram} {s : Lessor} (free : ram.poisoned = false)
    (same : s.deadlines = ram.deadlines)
    (fits : ∀ (id : LeaseId) (ttl : Nat), s.leases[id]? = some ttl → s.clock + ttl ≤ last)
    (past : ∀ (id : LeaseId) (at_ : Nat), s.applied[id]? = some at_ → at_ ≤ s.clock) :
    ∃ ids, ram.expired last s.leases s.clock s.applied =
      .ok (ids, { ram with deadlines := s.swept.deadlines }) := by
  have rows : ∀ row ∈ s.leases.toList, s.clock + row.2 ≤ last := by
    intro row mem
    exact fits row.1 row.2 (ExtTreeMap.mem_toList_iff_getElem?_eq_some.mp mem)
  have retained : (if ram.deadlines.size > s.leases.size then
      ram.deadlines.filter fun id _ => s.leases.contains id else ram.deadlines) =
      s.retain s.leases := by
    rw [Lessor.retain, same]
  simp only [expired, retained]
  rw [if_neg (by simp [free])]
  exact expiredAmong_eq s.changed { ram with deadlines := s.retain s.leases }
    (s := { s with
      deadlines := s.retain s.leases
      sweep := .looking s.clock s.leases.toList [] s.changed }) [] free rfl rfl rows past

end Ram

/-- What a sweep leaves alone. -/
theorem Lessor.sweepRest_frame (now : Nat) (changed : LeaseId → Nat) (rows : List (LeaseId × Nat)) :
    ∀ (found : List LeaseId) (s : Lessor), (sweepRest now changed rows found s).clock = s.clock ∧
      (sweepRest now changed rows found s).leases = s.leases ∧
      (sweepRest now changed rows found s).applied = s.applied ∧
      (sweepRest now changed rows found s).promoted = s.promoted := by
  induction rows with
  | nil => exact fun _ _ => ⟨rfl, rfl, rfl, rfl⟩
  | cons row rest ih =>
    intro found s
    have next : ∀ t, t = s.sweepCheck now row.1 row.2 s.applied[row.1]? rest found changed →
        t.clock = s.clock ∧ t.leases = s.leases ∧ t.applied = s.applied ∧ t.promoted = s.promoted := by
      rintro t rfl
      unfold sweepCheck
      dsimp only
      split <;> exact ⟨rfl, rfl, rfl, rfl⟩
    obtain ⟨clock, leases, applied, promoted⟩ := next _ rfl
    obtain ⟨clock', leases', applied', promoted'⟩ := ih _ _
    exact ⟨clock'.trans clock, leases'.trans leases, applied'.trans applied, promoted'.trans promoted⟩

namespace Leader

/-- What the leader on a clock without end has is what this one has, and nothing panicked. -/
structure Views (l : Leader) (s : Lessor) : Prop where
  clock : s.clock = l.clock
  leases : s.leases = l.leases
  applied : s.applied = l.applied
  promoted : s.promoted = l.ram.promoted
  deadlines : s.deadlines = l.ram.deadlines
  free : l.ram.poisoned = false
  past : ∀ (id : LeaseId) (at_ : Nat), l.applied[id]? = some at_ → at_ ≤ l.clock

/-- Every TTL ends before the clock does. -/
def Fits (last : Nat) (l : Leader) : Prop :=
  ∀ (id : LeaseId) (ttl : Nat), l.leases[id]? = some ttl → l.clock + ttl ≤ last

variable {l : Leader} {s : Lessor}

theorem Views.promote (views : l.Views s) (fits : l.Fits last) :
    ∃ ram, l.ram.promote last l.leases.toList l.clock = .ok ram ∧
      ({ l with ram } : Leader).Views s.lead ∧ ram.promoted = true := by
  cases promoted : l.ram.promoted with
  | true =>
    have led : s.promoted = true := views.promoted.trans promoted
    refine ⟨l.ram, by simp [Ram.promote, views.free, promoted], ?_, promoted⟩
    rw [Lessor.lead, if_pos led]
    exact views
  | false =>
    have led : s.promoted = false := views.promoted.trans promoted
    refine ⟨_, Ram.promote_eq views.free promoted fits, ?_, rfl⟩
    simp only [Lessor.lead, led, Bool.false_eq_true, if_false, Lessor.promote]
    exact ⟨views.clock, views.leases, views.applied, rfl, by rw [views.leases, views.clock],
      views.free, views.past⟩

/-- A lease is stamped now. -/
theorem Views.stamped (views : l.Views s) (id : LeaseId) {leases : Table LeaseId Nat} {s' : Lessor}
    (clock : s'.clock = s.clock) (same : s'.leases = leases)
    (applied : s'.applied = s.applied.insert id s.clock)
    (promoted : s'.promoted = s.promoted)
    (deadlines : s'.deadlines = s.deadlines) :
    ({ l with leases, applied := l.applied.insert id l.clock } : Leader).Views s' := by
  refine ⟨clock.trans views.clock, same, ?_, promoted.trans views.promoted,
    deadlines.trans views.deadlines, views.free, ?_⟩
  · rw [applied, views.applied, views.clock]
  · intro k at_ stamp
    rw [ExtTreeMap.getElem?_insert] at stamp
    split at stamp
    · exact (Option.some.inj stamp).ge
    · exact views.past k at_ stamp

/-- Only the deadlines changed. -/
theorem Views.of_deadlines (views : l.Views s) {s' : Lessor} {deadlines : Table LeaseId Nat}
    (clock : s'.clock = s.clock) (leases : s'.leases = s.leases) (applied : s'.applied = s.applied)
    (promoted : s'.promoted = s.promoted) (same : s'.deadlines = deadlines) :
    ({ l with ram := { l.ram with deadlines } } : Leader).Views s' :=
  ⟨clock.trans views.clock, leases.trans views.leases, applied.trans views.applied,
    promoted.trans views.promoted, same, views.free, views.past⟩

theorem Views.call (views : l.Views s) (fits : l.Fits last) (c : Call) :
    (l.call last c).2 = false ∧ (l.call last c).1.Views (s.call c) := by
  obtain ⟨ram, promoted, led, leads⟩ := views.promote fits
  have past : ∀ id : LeaseId, ∀ at_ ∈ l.applied[id]?, at_ ≤ l.clock := fun id => views.past id
  cases c with
  | pass d =>
    refine ⟨rfl, ⟨congrArg (· + d) views.clock, views.leases, views.applied, views.promoted,
      views.deadlines, views.free, ?_⟩⟩
    intro id at_ stamp
    exact (views.past id at_ stamp).trans (Nat.le_add_right ..)
  | grant id ttl =>
    simp only [Leader.call, lessorCall, Lessor.call, true_and]
    split
    · exact views.stamped id rfl (congrArg (·.insert id ttl) views.leases) rfl rfl rfl
    · exact views
  | keepAlive id =>
    have found : s.leases[id]? = l.leases[id]? := congrArg (·[id]?) views.leases
    simp only [Leader.call, lessorCall, Lessor.call, ExtTreeMap.contains_eq_isSome_getElem?, found,
      true_and]
    cases l.leases[id]? with
    | none => exact views
    | some ttl => exact views.stamped id rfl views.leases rfl rfl rfl
  | revoke id =>
    have found : s.leases.contains id = l.leases.contains id :=
      congrArg (ExtTreeMap.contains · id) views.leases
    simp only [Leader.call, lessorCall, Lessor.call, found, true_and]
    split
    · refine ⟨views.clock, congrArg (·.erase id) views.leases, congrArg (·.erase id) views.applied,
        views.promoted, views.deadlines, views.free, ?_⟩
      intro k at_ stamp
      rw [ExtTreeMap.getElem?_erase] at stamp
      split at stamp
      · cases stamp
      · exact views.past k at_ stamp
    · exact views
  | elect =>
    exact ⟨rfl, ⟨views.clock, views.leases, views.applied, rfl, views.deadlines, views.free,
      views.past⟩⟩
  | promote =>
    have ok : l.lessorCall last .promote = .ok ram := promoted
    simp only [Leader.call, ok, true_and]
    exact led
  | renew n id =>
    have found : s.lead.leases[id]? = l.leases[id]? := congrArg (·[id]?) led.leases
    cases lease : l.leases[id]? with
    | none =>
      have ok : l.lessorCall last (.renew n id) = .ok ram := by
        simp [lessorCall, promoted, lease]
      simp only [Leader.call, ok, Lessor.call, Lessor.renewed, found, lease, true_and]
      exact led.of_deadlines rfl rfl rfl rfl led.deadlines
    | some ttl =>
      have same : s.lead.effective id ttl =
          Raft.effectiveDeadline ram.deadlines id ttl l.clock l.applied[id]? := by
        rw [Lessor.effective, led.deadlines, led.clock, led.applied]
      have ok : l.lessorCall last (.renew n id) = .ok { ram with
          deadlines := if (s.lead.effective id ttl).1 ≤ l.clock then (s.lead.effective id ttl).2
            else (s.lead.effective id ttl).2.insert id (l.clock + ttl) } := by
        simp only [lessorCall, promoted, lease, bind, Except.bind, same]
        exact Ram.renew_eq led.free (fits id ttl lease) (past id)
      simp only [Leader.call, ok, Lessor.call, Lessor.renewed, found, lease, led.clock, true_and]
      by_cases expired : (s.lead.effective id ttl).1 ≤ l.clock
      · simp only [if_pos expired]
        refine led.of_deadlines rfl rfl rfl rfl ?_
        rw [← led.clock]
        rfl
      · simp only [if_neg expired]
        refine led.of_deadlines rfl rfl rfl rfl ?_
        rw [← led.clock]
        rfl
  | timeToLive id =>
    have found : s.lead.leases[id]? = l.leases[id]? := congrArg (·[id]?) led.leases
    cases lease : l.leases[id]? with
    | none =>
      have ok : l.lessorCall last (.timeToLive id) = .ok ram := by
        simp [lessorCall, promoted, lease]
      simp only [Leader.call, ok, Lessor.call, Lessor.timeToLive, found, lease, true_and]
      exact led
    | some ttl =>
      have ok : l.lessorCall last (.timeToLive id) = .ok { ram with deadlines :=
          (Raft.effectiveDeadline ram.deadlines id ttl l.clock l.applied[id]?).2 } := by
        simp only [lessorCall, promoted, lease, bind, Except.bind]
        rw [Ram.effectiveDeadline_eq led.free (fits id ttl lease) (past id)]
        rfl
      simp only [Leader.call, ok, Lessor.call, Lessor.timeToLive, found, lease, true_and]
      refine led.of_deadlines rfl rfl rfl rfl ?_
      rw [Lessor.effective, led.deadlines, led.clock, led.applied]
  | expired =>
    have lead_fits : ∀ (id : LeaseId) (ttl : Nat), s.lead.leases[id]? = some ttl →
        s.lead.clock + ttl ≤ last := by
      rw [led.leases, led.clock]
      exact fits
    have lead_past : ∀ (id : LeaseId) (at_ : Nat), s.lead.applied[id]? = some at_ →
        at_ ≤ s.lead.clock := by
      rw [led.applied, led.clock]
      exact views.past
    obtain ⟨ids, swept⟩ := Ram.expired_eq led.free led.deadlines lead_fits lead_past
    rw [led.leases, led.clock, led.applied] at swept
    have ok : l.lessorCall last .expired = .ok { ram with deadlines := s.lead.swept.deadlines } := by
      simp only [lessorCall, promoted, bind, Except.bind, swept]
      rfl
    simp only [Leader.call, ok, Lessor.call, true_and]
    obtain ⟨clock, leases, applied, promoted⟩ := Lessor.sweepRest_frame s.lead.clock s.lead.changed
      s.lead.leases.toList [] { s.lead with
      deadlines := s.lead.retain s.lead.leases
      sweep := .looking s.lead.clock s.lead.leases.toList [] s.lead.changed }
    exact led.of_deadlines clock leases applied promoted rfl

/-- At each call of a run, every TTL ends before the clock does. -/
def FitsRun (last : Nat) : Leader → List Call → Prop
  | _, [] => True
  | l, c :: calls => l.Fits last ∧ FitsRun last (l.call last c).1 calls

/-- No call of a run panics if every TTL ends before the clock does, and the deadlines are those of a
leader whose clock has no end. -/
theorem deadlines_never_overflow (leases : Table LeaseId Nat) (clock : Nat) (calls : List Call)
    (fits : FitsRun last { clock, leases } calls) :
    (∀ panics ∈ (run last { clock, leases } calls).2, panics = false) ∧
      (run last { clock, leases } calls).1.Views
        (calls.foldl Lessor.call { clock, leases }) := by
  have start : Views { clock, leases } { clock, leases } :=
    ⟨rfl, rfl, rfl, rfl, rfl, rfl, nofun⟩
  generalize ({ clock, leases } : Leader) = l at fits start ⊢
  generalize ({ clock, leases } : Lessor) = s at start ⊢
  induction calls generalizing l s with
  | nil => exact ⟨nofun, start⟩
  | cons c calls ih =>
    obtain ⟨returns, views⟩ := start.call fits.1 c
    obtain ⟨others, last_views⟩ := ih _ fits.2 _ views
    refine ⟨?_, last_views⟩
    intro panics mem
    obtain rfl | mem := List.mem_cons.mp mem
    · exact returns
    · exact others panics mem

/-- The last second of an `i64`. -/
def lastSecond : Nat := 2 ^ 63 - 1

/-- A lease is granted for the least TTL, renewed and swept. -/
def shortLease : List Call := [requested 7 0, .promote, .pass 1, .renew 0 7, .expired]

theorem deadlines_never_overflow_short :
    (run lastSecond { clock := 1, leases := ∅ } shortLease).1.ram.deadlines[(7 : LeaseId)]? = some 4 ∧
      ∀ panics ∈ (run lastSecond { clock := 1, leases := ∅ } shortLease).2, panics = false := by
  have fits : ∀ {l : Leader}, (l.leases.toList.all fun row => l.clock + row.2 ≤ lastSecond) = true →
      l.Fits lastSecond := by
    intro l all id ttl lease
    have le := List.all_eq_true.mp all (id, ttl) (ExtTreeMap.mem_toList_iff_getElem?_eq_some.mpr lease)
    exact of_decide_eq_true le
  have run_fits : FitsRun lastSecond { clock := 1, leases := ∅ } shortLease :=
    .intro (fits (by decide +kernel)) (.intro (fits (by decide +kernel))
      (.intro (fits (by decide +kernel)) (.intro (fits (by decide +kernel))
        (.intro (fits (by decide +kernel)) trivial))))
  exact ⟨by decide +kernel, (deadlines_never_overflow ∅ 1 shortLease run_fits).1⟩

/-- A request for the longest TTL is granted. The promotion panics with the deadlines locked, and so
does every sweep after it: the other lease, of ten seconds, is not expired. -/
theorem longest_ttl_stops_expiry :
    let l := run lastSecond { clock := 1, leases := ∅ }
      [requested 1 10, requested 2 (2 ^ 63 - 1), .promote, .pass 100, .expired]
    l.2 = [false, false, true, false, true] ∧ l.1.ram.poisoned = true ∧
      l.1.leases[(1 : LeaseId)]? = some 10 ∧ l.1.clock = 101 := by
  decide +kernel

end Leader

end Fastetcd.Raft
