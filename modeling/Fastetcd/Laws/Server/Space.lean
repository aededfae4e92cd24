import Fastetcd.Laws.Mvcc.ListWatch
import Fastetcd.Server.Space

/-!
# What the space monitor guarantees

The alarm has two marks, and what lies between them keeps it as it is (`nospace_iff`). The
rewrite's copy stays under the high-water mark, so its own bytes cannot raise the alarm, and a
compaction under pressure keeps the history it was told to keep, however late it is applied.
-/

namespace Fastetcd.Server.Space

open Mvcc

/-- At or over the alarm's mark. -/
def Full (cfg : SpaceConfig) (f : Footprint) : Prop :=
  0 < f.capacity cfg ∧ cfg.alarmPercent.toNat * f.capacity cfg ≤ usedBytes f * 100

/-- Back to the mark that clears the alarm, to a millionth of the capacity. -/
def Low (cfg : SpaceConfig) (f : Footprint) : Prop :=
  0 < f.capacity cfg ∧ usedBytes f * 1000000 < (pctPpm cfg.clearPercent + 1) * f.capacity cfg

section

variable {cfg : SpaceConfig} {f : Footprint} {used capacity : Nat}

theorem pctPpm_lt (percent : UInt8) : pctPpm percent < u64Max := by
  have := percent.toNat_lt
  unfold pctPpm u64Max
  omega

theorem le_usedPpm (known : 0 < capacity) (percent : UInt8) :
    pctPpm percent ≤ usedPpm used capacity ↔ percent.toNat * capacity ≤ used * 100 := by
  have small := (pctPpm_lt percent).le
  rw [usedPpm, if_neg known.ne', le_min_iff, and_iff_left small, Nat.le_div_iff_mul_le known,
    pctPpm]
  constructor <;> intro le <;> nlinarith

theorem usedPpm_le (known : 0 < capacity) (percent : UInt8) :
    usedPpm used capacity ≤ pctPpm percent ↔
      used * 1000000 < (pctPpm percent + 1) * capacity := by
  have small := (pctPpm_lt percent).not_ge
  rw [usedPpm, if_neg known.ne', min_le_iff, or_iff_left small, ← Nat.lt_succ_iff,
    Nat.div_lt_iff_lt_mul known]

theorem refresh_false : refresh cfg false f = true ↔ Full cfg f := by
  rw [refresh, updateAlarm, Full]
  rcases Nat.eq_zero_or_pos (f.capacity cfg) with unknown | known
  · simp [unknown]
  · rw [if_neg known.ne', ← le_usedPpm known]
    simp [known]

theorem refresh_true : refresh cfg true f = true ↔ ¬Low cfg f := by
  rw [refresh, updateAlarm, Low]
  rcases Nat.eq_zero_or_pos (f.capacity cfg) with unknown | known
  · simp [unknown]
  · rw [if_neg known.ne', ← usedPpm_le known]
    simp [known]

theorem Full.not_low (marks : cfg.clearPercent < cfg.alarmPercent) (full : Full cfg f) :
    ¬Low cfg f := by
  intro low
  have less : cfg.clearPercent.toNat < cfg.alarmPercent.toNat := marks
  have above := full.2
  have below := low.2
  unfold pctPpm at below
  have : (cfg.clearPercent.toNat + 1) * f.capacity cfg ≤ cfg.alarmPercent.toNat * f.capacity cfg :=
    Nat.mul_le_mul_right _ less
  nlinarith [full.1]

/-- The event leaves a raised alarm raised. -/
def Keeps (cfg : SpaceConfig) : Event → Prop
  | .sample f => ¬Low cfg f
  | .disarm => False

theorem step_true (e : Event) : step cfg true e = true ↔ Keeps cfg e := by
  cases e with
  | sample f => exact refresh_true
  | disarm => exact iff_of_false Bool.false_ne_true id

/-- The alarm is raised exactly if some sample was at its mark and nothing since has cleared it. -/
theorem nospace_iff (marks : cfg.clearPercent < cfg.alarmPercent) (events : List Event) :
    nospace cfg events = true ↔ ∃ before f after, events = before ++ .sample f :: after ∧
      Full cfg f ∧ ∀ e ∈ after, Keeps cfg e := by
  induction events using List.reverseRecOn with
  | nil => simp [nospace]
  | append_singleton events e ih =>
    have last : nospace cfg (events ++ [e]) = step cfg (nospace cfg events) e := by
      rw [nospace, List.foldl_append]
      rfl
    rw [last]
    constructor
    · intro raised
      cases was : nospace cfg events with
      | true =>
        rw [was, step_true] at raised
        obtain ⟨before, f, after, rfl, full, kept⟩ := ih.mp was
        refine ⟨before, f, after ++ [e], by simp, full, fun e' mem => ?_⟩
        rcases List.mem_append.mp mem with old | new
        · exact kept e' old
        · rwa [List.mem_singleton.mp new]
      | false =>
        rw [was] at raised
        cases e with
        | disarm => cases raised
        | sample f => exact ⟨events, f, [], rfl, refresh_false.mp raised, by simp⟩
    · rintro ⟨before, f, after, parts, full, kept⟩
      rcases List.eq_nil_or_concat after with rfl | ⟨rest, e', rfl⟩
      · obtain ⟨rfl, same⟩ := List.append_inj' parts rfl
        cases same
        cases was : nospace cfg events with
        | true => exact refresh_true.mpr (full.not_low marks)
        | false => exact refresh_false.mpr full
      · rw [List.concat_eq_append, ← List.cons_append, ← List.append_assoc] at parts
        obtain ⟨rfl, same⟩ := List.append_inj' parts rfl
        cases same
        rw [List.concat_eq_append, List.forall_mem_append] at kept
        rw [ih.mpr ⟨before, f, rest, rfl, full, kept.1⟩, step_true]
        exact kept.2 e List.mem_cons_self

theorem nospace_iff_default : (∃ before f after, [Event.sample ⟨0, 0, 96, some 4⟩,
      .sample ⟨0, 0, 80, some 20⟩] = before ++ .sample f :: after ∧
      Full {} f ∧ ∀ e ∈ after, Keeps {} e) ∧
    nospace {} [.sample ⟨0, 0, 96, some 4⟩, .sample ⟨0, 0, 80, some 20⟩] = true := by
  have raised : nospace {} [.sample ⟨0, 0, 96, some 4⟩, .sample ⟨0, 0, 80, some 20⟩] = true := by
    decide
  exact ⟨(nospace_iff (by decide) _).mp raised, raised⟩

/-- What a sample finds once a copy of some bytes stands beside the data file. -/
def Footprint.withCopy (f : Footprint) (bytes : Nat) : Footprint :=
  { f with dataDirBytes := f.dataDirBytes + bytes, available := f.available.map (· - bytes) }

/-- The copy takes its bytes from what is free, so the capacity stands. -/
theorem capacity_withCopy {bytes : Nat} (scanned : 0 < f.dataDirBytes)
    (free : ∀ avail, f.available = some avail → bytes ≤ avail) :
    (f.withCopy bytes).capacity cfg = f.capacity cfg := by
  have used : usedBytes f = f.dataDirBytes := if_pos scanned
  have more : usedBytes (f.withCopy bytes) = f.dataDirBytes + bytes :=
    if_pos (Nat.add_pos_left scanned _)
  rw [Footprint.capacity, Footprint.capacity, capacityBytes, capacityBytes, used, more,
    Footprint.withCopy]
  cases known : f.available with
  | none => rfl
  | some avail =>
    have same : f.dataDirBytes + bytes + (avail - bytes) = f.dataDirBytes + avail := by
      have := free avail known
      omega
    simp only [Option.map_some, same]

/-- A rewrite that is decided on leaves room: a sample that finds the copy beside the data file does
not raise the alarm. -/
theorem rewrite_raises_no_alarm (marks : cfg.highWaterPercent < cfg.alarmPercent) {file inUse : Nat}
    (scanned : 0 < f.dataDirBytes) (room : f.dataDirBytes + inUse ≤ u64Max)
    (free : ∀ avail, f.available = some avail → inUse ≤ avail)
    (decided : rewriteDecision cfg.rewrite cfg.highWaterPercent file inUse (usedBytes f)
      (f.capacity cfg) = .ok ()) :
    refresh cfg false (f.withCopy inUse) = false := by
  have less : cfg.highWaterPercent.toNat + 1 ≤ cfg.alarmPercent.toNat := marks
  have used : usedBytes f = f.dataDirBytes := if_pos scanned
  have more : usedBytes (f.withCopy inUse) = f.dataDirBytes + inUse :=
    if_pos (Nat.add_pos_left scanned _)
  rw [← Bool.not_eq_true, refresh_false, Full, capacity_withCopy scanned free, more]
  rintro ⟨known, full⟩
  have tight : f.capacity cfg > 0 ∧
      min (usedBytes f + inUse) u64Max * 100 > f.capacity cfg * cfg.highWaterPercent.toNat := by
    rw [used, min_eq_left room]
    exact ⟨known, by nlinarith [Nat.mul_le_mul_right (f.capacity cfg) less]⟩
  rw [rewriteDecision, if_pos tight] at decided
  split_ifs at decided

theorem rewrite_raises_no_alarm_half :
    rewriteDecision {} 80 67108864 20000000 (usedBytes ⟨0, 0, 67108864, some 200000000⟩)
      (Footprint.capacity ⟨0, 0, 67108864, some 200000000⟩ {}) = .ok () ∧
    refresh {} false (Footprint.withCopy ⟨0, 0, 67108864, some 200000000⟩ 20000000) = false := by
  have decided : rewriteDecision {} 80 67108864 20000000
      (usedBytes ⟨0, 0, 67108864, some 200000000⟩)
      (Footprint.capacity ⟨0, 0, 67108864, some 200000000⟩ {}) = .ok () := by decide
  refine ⟨decided, @rewrite_raises_no_alarm {} ⟨0, 0, 67108864, some 200000000⟩ (by decide) _ _
    (by decide) (by decide) ?_ decided⟩
  rintro avail ⟨⟩
  decide

end

/-! ## Compactions under pressure -/

section

variable {s t : Store} {effects : List Replay.Effect} {told : List EventBatch}

/-- A compaction that was proposed to keep the last `retention` revisions keeps them, those there
are when it is applied: a read of one of them is answered as before. -/
theorem retention_kept (reachable : Reachable s) (steps : Steps s effects told t) {retention : Int}
    {leads : Bool} {target : Int} (proposed : compactToRetention leads s retention = some target)
    (engineOk : Bool) (r : RangeOp) (positive : 0 < r.revision)
    (floor : t.writeState.compactRev ≤ r.revision) (reached : r.revision ≤ t.writeState.currentRev)
    (recent : t.writeState.currentRev - retention ≤ r.revision) :
    ((t.compact target engineOk).2.rangeWithRevision r).1 = (t.rangeWithRevision r).1 := by
  have inv := reachable.inv
  obtain ⟨batches, moves⟩ := steps.moves_all inv
  have invT := moves.inv inv
  have low : target ≤ r.revision := by
    have grown := moves.currentRev_le inv
    have current : s.view.current = s.writeState.currentRev := congrArg Revs.current inv.view
    unfold compactToRetention at proposed
    dsimp only at proposed
    split_ifs at proposed
    cases proposed
    omega
  have move := (compact_move invT target engineOk).2
  have revs : (t.compact target engineOk).2.writeState.compactRev ≤ r.revision ∧
      (t.compact target engineOk).2.writeState.currentRev = t.writeState.currentRev := by
    rcases compact_cases invT target engineOk with
      ⟨e, refused⟩ | ⟨-, -, repeated⟩ | ⟨-, -, -, result⟩
    · rw [refused]
      exact ⟨floor, rfl⟩
    · rw [repeated]
      exact ⟨floor, rfl⟩
    · rw [result]
      cases engineOk with
      | true => exact ⟨low, rfl⟩
      | false => exact ⟨floor, rfl⟩
  rw [range_at (move.inv invT) positive revs.1 (revs.2 ▸ reached) r rfl,
    range_at invT positive floor reached r rfl, revs.2, move.readAt_eq invT revs.1 reached]

theorem retention_kept_late :
    let s := (((Store.open Tables.empty).apply [.put [97] [1] 0 false false false] true).2.apply
      [.put [97] [2] 0 false false false] true).2
    let t := (s.apply [.put [97] [3] 0 false false false] true).2
    compactToRetention true s 1 = some 1 ∧
      ((t.compact 1 true).2.rangeWithRevision (.single [97] 2)).1 =
        (t.rangeWithRevision (.single [97] 2)).1 := by
  have run := Run.step (.step .start (.apply [.put [97] [1] 0 false false false] true))
    (.apply [.put [97] [2] 0 false false false] true)
  have proposed : compactToRetention true ((((Store.open Tables.empty).apply
      [.put [97] [1] 0 false false false] true).2.apply
      [.put [97] [2] 0 false false false] true).2) 1 = some 1 := by decide +kernel
  exact ⟨proposed, retention_kept ⟨_, _, run⟩
    (Steps.none.step (.apply [.put [97] [3] 0 false false false] true)) proposed true
    (.single [97] 2) (by decide) (by decide) (by decide) (by decide)⟩

end

end Fastetcd.Server.Space
