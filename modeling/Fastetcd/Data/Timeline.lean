import Mathlib

/-!
# Timelines

The life of one key in a multi-version store: the stamps of its writes in ascending order, each
with the flag that the write was a deletion. What a reader at a stamp sees is decided by the last
write at or before it (`Timeline.lastAt`): the key is live there when that write is not a deletion
(`Timeline.liveAt`).

Two facts carry every multi-version argument. Writes after a stamp do not change what a reader
there sees (`liveAt_append`). Trimming a timeline at a floor, which keeps only what the floor's
reader sees and everything later, changes no reader at or after the floor (`liveAt_trim`).
-/

namespace Fastetcd

variable {T : Type} [LinearOrder T]

/-- Stamped writes, oldest first; the flag marks a deletion. -/
abbrev Timeline (T : Type) := List (T × Bool)

namespace Timeline

/-- Each stamp once, in order. -/
abbrev Ascending (life : Timeline T) : Prop := life.Pairwise fun a b => a.1 < b.1

/-- The last write at or before `t`. -/
def lastAt (life : Timeline T) (t : T) : Option (T × Bool) :=
  (life.filter fun w => w.1 ≤ t).getLast?

/-- The stamp of a write that is not a deletion. -/
def put? : Option (T × Bool) → Option T
  | some (stamp, false) => some stamp
  | _ => none

/-- The write that a reader at `t` sees, if the key is live there. -/
def liveAt (life : Timeline T) (t : T) : Option T := put? (lastAt life t)

/-- The write that a reader after every write sees. -/
def live (life : Timeline T) : Option T := put? life.getLast?

/-- What is left after everything that no reader at or after `floor` sees is dropped. -/
def trim (life : Timeline T) (floor : T) : Timeline T :=
  (liveAt life floor).toList.map (·, false) ++ life.filter fun w => floor < w.1

omit [LinearOrder T] in
@[simp]
theorem put?_eq_some {w : Option (T × Bool)} {stamp : T} :
    put? w = some stamp ↔ w = some (stamp, false) := by
  match w with
  | none => simp [put?]
  | some (_, true) => simp [put?]
  | some (_, false) => simp [put?]

/-! ## Reading -/

theorem lastAt_append (early late : Timeline T) (t : T) :
    lastAt (early ++ late) t = (lastAt late t).or (lastAt early t) := by
  simp only [lastAt, List.filter_append, List.getLast?_append]

theorem lastAt_eq_none {life : Timeline T} {t : T} (later : ∀ w ∈ life, t < w.1) :
    lastAt life t = none := by
  have : life.filter (fun w => w.1 ≤ t) = [] :=
    List.filter_eq_nil_iff.mpr fun w hw => by simpa using later w hw
  rw [lastAt, this, List.getLast?_nil]

theorem lastAt_eq_getLast? {life : Timeline T} {t : T} (earlier : ∀ w ∈ life, w.1 ≤ t) :
    lastAt life t = life.getLast? := by
  rw [lastAt, List.filter_eq_self.mpr fun w hw => by simpa using earlier w hw]

/-- Writes after `t` do not change what a reader at `t` sees. -/
theorem liveAt_append {life late : Timeline T} {t : T} (later : ∀ w ∈ late, t < w.1) :
    liveAt (life ++ late) t = liveAt life t := by
  rw [liveAt, lastAt_append, lastAt_eq_none later, Option.none_or, liveAt]

/-- A reader after every write sees the last one. -/
theorem liveAt_eq_live {life : Timeline T} {t : T} (earlier : ∀ w ∈ life, w.1 ≤ t) :
    liveAt life t = live life := by
  rw [liveAt, lastAt_eq_getLast? earlier, live]

theorem mem_of_liveAt {life : Timeline T} {t stamp : T} (h : liveAt life t = some stamp) :
    (stamp, false) ∈ life ∧ stamp ≤ t := by
  have mem := List.mem_of_getLast? (put?_eq_some.mp h)
  simpa using mem

omit [LinearOrder T] in
theorem mem_of_live {life : Timeline T} {stamp : T} (h : live life = some stamp) :
    (stamp, false) ∈ life :=
  List.mem_of_getLast? (put?_eq_some.mp h)

omit [LinearOrder T] in
@[simp]
theorem live_append_singleton (life : Timeline T) (stamp : T) (deleted : Bool) :
    live (life ++ [(stamp, deleted)]) = if deleted then none else some stamp := by
  cases deleted <;> simp [live, put?]

/-- One stamp is one write. -/
theorem Ascending.flag_unique {life : Timeline T} (ascending : Ascending life) {stamp : T}
    {a b : Bool} (ha : (stamp, a) ∈ life) (hb : (stamp, b) ∈ life) : a = b := by
  have symmetric : Std.Symm fun v w : T × Bool => v.1 = w.1 → v = w :=
    ⟨fun _ _ h eq => (h eq.symm).symm⟩
  have distinct : life.Pairwise fun v w => v.1 = w.1 → v = w :=
    ascending.imp fun lt eq => absurd eq lt.ne
  exact (Prod.mk.inj (distinct.forall_of_forall (fun _ _ _ => rfl) ha hb rfl)).2

/-- The write that makes the key live is its last. -/
theorem Ascending.le_of_live {life : Timeline T} (ascending : Ascending life) {stamp : T}
    (isLive : live life = some stamp) : ∀ w ∈ life, w.1 ≤ stamp := by
  obtain ⟨early, rfl⟩ := List.getLast?_eq_some_iff.mp (put?_eq_some.mp isLive)
  intro w mem
  rcases List.mem_append.mp mem with before | last
  · exact ((List.pairwise_append.mp ascending).2.2 w before _ List.mem_cons_self).le
  · rw [List.mem_singleton.mp last]

/-! ## Trimming -/

theorem Ascending.split {life : Timeline T} (ascending : Ascending life) (floor : T) :
    life = life.filter (fun w => w.1 ≤ floor) ++ life.filter fun w => floor < w.1 := by
  induction life with
  | nil => rfl
  | cons w life ih =>
    obtain ⟨first, rest⟩ := List.pairwise_cons.mp ascending
    by_cases low : w.1 ≤ floor
    · simp only [List.filter_cons, low, decide_true, if_true, not_lt.mpr low, decide_false,
        Bool.false_eq_true, if_false, List.cons_append]
      rw [← ih rest]
    · -- Every later write is above the floor too, so nothing is left of the first part.
      have high : floor < w.1 := not_le.mp low
      have above : life.filter (fun w => w.1 ≤ floor) = [] :=
        List.filter_eq_nil_iff.mpr fun v hv => by
          simpa using high.trans (first v hv)
      have all : life.filter (fun w => floor < w.1) = life :=
        List.filter_eq_self.mpr fun v hv => by simpa using high.trans (first v hv)
      simp [low, high, above, all]

/-- Trimming at a floor changes no reader at or after it. -/
theorem liveAt_trim {life : Timeline T} (ascending : Ascending life) {floor t : T}
    (after : floor ≤ t) : liveAt (trim life floor) t = liveAt life t := by
  have low : lastAt (life.filter fun w => w.1 ≤ floor) t = lastAt life floor :=
    lastAt_eq_getLast? fun w hw => by
      have : w.1 ≤ floor := by simpa using (List.mem_filter.mp hw).2
      exact this.trans after
  have floored : lastAt ((liveAt life floor).toList.map (·, false)) t =
      (liveAt life floor).map (·, false) := by
    cases h : liveAt life floor with
    | none => rfl
    | some stamp => simp [lastAt, (mem_of_liveAt h).2.trans after]
  have whole : liveAt life t =
      put? ((lastAt (life.filter fun w => floor < w.1) t).or (lastAt life floor)) := by
    rw [liveAt, ← low, ← lastAt_append, ← ascending.split floor]
  rw [whole, liveAt, trim, lastAt_append, floored]
  cases lastAt (life.filter fun w => floor < w.1) t with
  | some w => rfl
  | none =>
    simp only [Option.none_or, liveAt]
    match lastAt life floor with
    | none => rfl
    | some (_, true) => rfl
    | some (_, false) => rfl

theorem mem_trim {life : Timeline T} (ascending : Ascending life) {floor : T} {w : T × Bool} :
    w ∈ trim life floor ↔ w ∈ life ∧ (floor < w.1 ∨ liveAt life floor = some w.1) := by
  simp only [trim, List.mem_append, List.mem_map, Option.mem_toList, List.mem_filter,
    decide_eq_true_eq]
  constructor
  · rintro (⟨stamp, seen, rfl⟩ | ⟨mem, above⟩)
    · exact ⟨(mem_of_liveAt seen).1, .inr seen⟩
    · exact ⟨mem, .inl above⟩
  · rintro ⟨mem, above | seen⟩
    · exact .inr ⟨mem, above⟩
    · refine .inl ⟨w.1, seen, ?_⟩
      have flag : w.2 = false := ascending.flag_unique mem (mem_of_liveAt seen).1
      exact Prod.ext rfl flag.symm

theorem Ascending.trim {life : Timeline T} (ascending : Ascending life) (floor : T) :
    Ascending (trim life floor) := by
  refine List.pairwise_append.mpr ⟨?_, ascending.filter _, ?_⟩
  · cases liveAt life floor <;> simp
  · intro a ha b hb
    obtain ⟨stamp, seen, rfl⟩ := List.mem_map.mp ha
    have low := (mem_of_liveAt (Option.mem_toList.mp seen)).2
    have high : floor < b.1 := by simpa using (List.mem_filter.mp hb).2
    exact low.trans_lt high

/-- Trimming changes nothing of what a reader after every write sees. -/
theorem live_trim {life : Timeline T} (ascending : Ascending life) (floor : T) :
    live (trim life floor) = live life := by
  have split := ascending.split floor
  rw [trim, live, live, List.getLast?_append]
  cases high : (life.filter fun w => floor < w.1).getLast? with
  | some w =>
    rw [Option.some_or, split, List.getLast?_append, high, Option.some_or]
  | none =>
    have low : life = life.filter fun w => w.1 ≤ floor := by
      rw [List.getLast?_eq_none_iff.mp high, List.append_nil] at split
      exact split
    rw [Option.none_or, liveAt, lastAt, ← low]
    match life.getLast? with
    | none => rfl
    | some (_, true) => rfl
    | some (_, false) => rfl

/-- Writes after the floor are kept as they are. -/
theorem trim_append_late {early late : Timeline T} {floor : T} (later : ∀ w ∈ late, floor < w.1) :
    trim (early ++ late) floor = trim early floor ++ late := by
  have all : late.filter (fun w => floor < w.1) = late :=
    List.filter_eq_self.mpr fun w mem => by simpa using later w mem
  rw [trim, trim, liveAt_append later, List.filter_append, all, List.append_assoc]

/-- Trimming again at a later floor is trimming there. -/
theorem trim_trim {life : Timeline T} (ascending : Ascending life) {floor later : T}
    (le : floor ≤ later) : trim (trim life floor) later = trim life later := by
  rw [trim, liveAt_trim ascending le, trim, trim, List.filter_append, List.filter_filter]
  have low : ((liveAt life floor).toList.map (·, false)).filter (fun w => later < w.1) = [] := by
    refine List.filter_eq_nil_iff.mpr fun w mem => ?_
    obtain ⟨stamp, seen, rfl⟩ := List.mem_map.mp mem
    have reached := (mem_of_liveAt (Option.mem_toList.mp seen)).2
    simpa using reached.trans le
  have high : life.filter (fun w => decide (later < w.1) && decide (floor < w.1)) =
      life.filter fun w => later < w.1 := by
    refine List.filter_congr fun w _ => ?_
    by_cases above : later < w.1
    · simp [above, le.trans_lt above]
    · simp [above]
  rw [low, high, List.nil_append]

/-- The newest write before `t` that is not a deletion. -/
def putBefore (life : Timeline T) (t : T) : Option T :=
  (life.filter fun w => !w.2 && decide (w.1 < t)).getLast?.map Prod.fst

theorem putBefore_append (early late : Timeline T) (t : T) :
    putBefore (early ++ late) t = (putBefore late t).or (putBefore early t) := by
  rw [putBefore, List.filter_append, List.getLast?_append, Option.map_or, putBefore, putBefore]

theorem putBefore_eq_none {life : Timeline T} {t : T} :
    putBefore life t = none ↔ ∀ w ∈ life, w.2 = false → t ≤ w.1 := by
  rw [putBefore, Option.map_eq_none_iff, List.getLast?_eq_none_iff, List.filter_eq_nil_iff]
  refine forall₂_congr fun w _ => ?_
  cases w.2 <;> simp

theorem mem_of_putBefore {life : Timeline T} {t stamp : T} (h : putBefore life t = some stamp) :
    (stamp, false) ∈ life ∧ stamp < t := by
  obtain ⟨⟨stamp, deleted⟩, last, rfl⟩ := Option.map_eq_some_iff.mp h
  have mem := List.mem_of_getLast? last
  simp only [List.mem_filter, Bool.and_eq_true, Bool.not_eq_true', decide_eq_true_eq] at mem
  obtain ⟨mem, rfl, before⟩ := mem
  exact ⟨mem, before⟩

/-- Just after a write the key is live with, that write is the newest. -/
theorem putBefore_of_live {life : Timeline T} {t stamp : T} (isLive : live life = some stamp)
    (before : stamp < t) : putBefore life t = some stamp := by
  obtain ⟨early, rfl⟩ := List.getLast?_eq_some_iff.mp (put?_eq_some.mp isLive)
  rw [putBefore_append]
  simp [putBefore, before]

/-- Trimming cuts at a deletion: a part that ends in one is trimmed on its own. -/
theorem trim_append {early late : Timeline T} (ascending : Ascending (early ++ late))
    (ended : late ≠ [] → live early = none) (floor : T) :
    trim (early ++ late) floor = trim early floor ++ trim late floor := by
  obtain ⟨ascEarly, -, before⟩ := List.pairwise_append.mp ascending
  by_cases reached : ∃ w ∈ late, w.1 ≤ floor
  · -- The floor is past the early part, whose last write is a deletion.
    obtain ⟨w, mem, low⟩ := reached
    have past : ∀ v ∈ early, v.1 ≤ floor := fun v hv => ((before v hv w mem).trans_le low).le
    have gone : trim early floor = [] := by
      have none := ended (List.ne_nil_of_mem mem)
      rw [← liveAt_eq_live past] at none
      simp only [trim, none, Option.toList_none, List.map_nil, List.nil_append]
      exact List.filter_eq_nil_iff.mpr fun v hv => by simpa using past v hv
    have some_low : lastAt late floor ≠ none := by
      rw [lastAt, ne_eq, List.getLast?_eq_none_iff, List.filter_eq_nil_iff]
      exact fun none => none w mem (by simpa using low)
    obtain ⟨v, last⟩ := Option.ne_none_iff_exists'.mp some_low
    have earlyHigh : early.filter (fun w => floor < w.1) = [] :=
      List.filter_eq_nil_iff.mpr fun v hv => by simpa using past v hv
    rw [gone, List.nil_append, trim, trim, liveAt, lastAt_append, last, Option.some_or, liveAt, last,
      List.filter_append, earlyHigh, List.nil_append]
  · have later : ∀ w ∈ late, floor < w.1 := fun w mem => by
      by_contra low
      exact reached ⟨w, mem, not_lt.mp low⟩
    have unseen : liveAt late floor = none := by rw [liveAt, lastAt_eq_none later]; rfl
    simp only [trim, liveAt_append later, unseen, Option.toList_none, List.map_nil,
      List.nil_append, List.filter_append, List.append_assoc]

end Timeline

end Fastetcd
