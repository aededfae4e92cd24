import Fastetcd.Data.Timeline
import Fastetcd.Mvcc.Record

/-!
# Generations are timelines

A key's generations are a timeline cut at its deletions: `lifeOf` glues them together again. Under
`WellFormed`, what the index operations keep, every lookup of `record.rs` is the timeline's own:
`revisionAt` reads it, `currentOf` reads its end, `recordPut` and `recordDelete` append to it, and
`compact` trims it.
-/

namespace Fastetcd.Mvcc

open Timeline

/-- The writes of one generation: its puts, then the delete that closed it. -/
def Generation.life (g : Generation) : Timeline Revision :=
  g.revs.map (·, false) ++ (g.tombstone.map (·, true)).toList

/-- The writes that a key's generations name, oldest first. -/
def lifeOf (gens : List Generation) : Timeline Revision := gens.flatMap Generation.life

/-- What every index operation keeps: writes ascend across and inside generations, each generation
has a put and was created by then, and only the last one may be open. -/
structure WellFormed (gens : List Generation) : Prop where
  ascending : Ascending (lifeOf gens)
  nonempty : ∀ g ∈ gens, g.revs ≠ []
  created : ∀ g ∈ gens, ∀ r ∈ g.revs, g.created ≤ r
  closed : gens.Pairwise fun g _ => g.tombstone.isSome

@[simp]
theorem lifeOf_nil : lifeOf [] = [] := rfl

@[simp]
theorem lifeOf_cons (g : Generation) (gens : List Generation) :
    lifeOf (g :: gens) = g.life ++ lifeOf gens := rfl

@[simp]
theorem lifeOf_append (a b : List Generation) : lifeOf (a ++ b) = lifeOf a ++ lifeOf b :=
  List.flatMap_append

theorem Generation.mem_life {g : Generation} {r : Revision} {deleted : Bool} :
    (r, deleted) ∈ g.life ↔ if deleted then g.tombstone = some r else r ∈ g.revs := by
  cases deleted <;> simp [Generation.life]

theorem WellFormed.nil : WellFormed [] :=
  ⟨List.Pairwise.nil, by simp, by simp, List.Pairwise.nil⟩

theorem WellFormed.of_append {a b : List Generation} (wf : WellFormed (a ++ b)) :
    WellFormed a ∧ WellFormed b := by
  obtain ⟨ascending, nonempty, created, closed⟩ := wf
  rw [lifeOf_append] at ascending
  obtain ⟨ascA, ascB, -⟩ := List.pairwise_append.mp ascending
  obtain ⟨closedA, closedB, -⟩ := List.pairwise_append.mp closed
  exact ⟨⟨ascA, fun g h => nonempty g (by simp [h]), fun g h => created g (by simp [h]), closedA⟩,
    ⟨ascB, fun g h => nonempty g (by simp [h]), fun g h => created g (by simp [h]), closedB⟩⟩

/-- Well-formedness seen from the newest generation: it alone may be open. -/
theorem wellFormed_concat {older : List Generation} {g : Generation} :
    WellFormed (older ++ [g]) ↔
      Timeline.Ascending (lifeOf older ++ g.life) ∧
      (∀ h ∈ older, h.revs ≠ [] ∧ (∀ r ∈ h.revs, h.created ≤ r) ∧ h.tombstone.isSome) ∧
      g.revs ≠ [] ∧ ∀ r ∈ g.revs, g.created ≤ r := by
  constructor
  · rintro ⟨ascending, nonempty, created, closed⟩
    refine ⟨by simpa using ascending, fun h mem => ⟨nonempty h (by simp [mem]),
      created h (by simp [mem]), (List.pairwise_append.mp closed).2.2 h mem g (by simp)⟩,
      nonempty g (by simp), created g (by simp)⟩
  · rintro ⟨ascending, old, nonempty, created⟩
    refine ⟨by simpa using ascending, ?_, ?_, List.pairwise_append.mpr
      ⟨List.pairwise_of_forall_mem_list fun h mem _ _ => (old h mem).2.2, by simp,
        fun h mem _ _ => (old h mem).2.2⟩⟩
    · simpa [or_imp, forall_and] using ⟨fun h mem => (old h mem).1, nonempty⟩
    · simpa [or_imp, forall_and] using ⟨fun h mem => (old h mem).2.1, created⟩

/-- The life of a generation alone ascends. -/
theorem WellFormed.ascending_life {gens : List Generation} (wf : WellFormed gens)
    {g : Generation} (mem : g ∈ gens) : Ascending g.life := by
  obtain ⟨a, b, rfl⟩ := List.append_of_mem mem
  have asc := wf.of_append.2.ascending
  rw [lifeOf_cons] at asc
  exact (List.pairwise_append.mp asc).1

/-! ## Lookups -/

theorem foldl_latestStep {target : Revision} {revs : List Revision}
    (ascending : revs.Pairwise (· < ·)) :
    revs.foldl (Generation.latestStep target) none =
      ((revs.filter (· ≤ target)).getLast?).map (·, false) := by
  induction revs using List.reverseRecOn with
  | nil => rfl
  | append_singleton revs r ih =>
    obtain ⟨asc, -, below⟩ := List.pairwise_append.mp ascending
    rw [List.foldl_append, List.foldl_cons, List.foldl_nil, ih asc]
    by_cases reached : r ≤ target
    · simp only [List.filter_append, List.filter_singleton, reached, decide_true, cond_true, if_true,
        List.getLast?_concat, Option.map_some, Generation.latestStep]
      cases found : (revs.filter (· ≤ target)).getLast? with
      | none => rfl
      | some b =>
        have mem : b ∈ revs := (List.mem_filter.mp (List.mem_of_getLast? found)).1
        simp [not_le.mpr (below b mem r (by simp))]
    · simp [Generation.latestStep, reached]

/-- The lookup inside one generation is the timeline's. -/
theorem Generation.latestAtOrBefore_eq {g : Generation} (ascending : Timeline.Ascending g.life)
    (target : Revision) : g.latestAtOrBefore target = lastAt g.life target := by
  obtain ⟨puts, -, closing⟩ := List.pairwise_append.mp ascending
  have inOrder : g.revs.Pairwise (· < ·) := by rwa [List.pairwise_map] at puts
  have scan : g.revs.foldl (Generation.latestStep target) none = _ := foldl_latestStep inOrder
  have filtered : (g.revs.map (·, false)).filter (fun w : Revision × Bool => w.1 ≤ target) =
      (g.revs.filter (· ≤ target)).map (·, false) := by
    rw [List.filter_map]
    rfl
  simp only [Generation.latestAtOrBefore, scan, Generation.life, lastAt, List.filter_append,
    filtered]
  cases tomb : g.tombstone with
  | none => simp
  | some t =>
    by_cases reached : t ≤ target
    · simp only [reached, if_true, Option.map_some, Option.toList_some, List.filter_singleton,
        decide_true, cond_true, List.getLast?_concat]
      cases found : (g.revs.filter (· ≤ target)).getLast? with
      | none => rfl
      | some b =>
        have mem : b ∈ g.revs := (List.mem_filter.mp (List.mem_of_getLast? found)).1
        have below : b < t := closing (b, false) (by simpa using mem) (t, true) (by simp [tomb])
        simp [not_lt.mpr below.le]
    · simp [reached]

/-- A read at `target` sees what the timeline says. -/
theorem revisionAt_eq_liveAt {gens : List Generation} (wf : WellFormed gens) (target : Revision) :
    revisionAt gens target = liveAt (lifeOf gens) target := by
  unfold revisionAt
  induction gens using List.reverseRecOn with
  | nil => rfl
  | append_singleton older g ih =>
    obtain ⟨wfOlder, wfLast⟩ := wf.of_append
    have lookup := Generation.latestAtOrBefore_eq (wfLast.ascending_life List.mem_cons_self) target
    have life : lifeOf [g] = g.life := by simp
    rw [List.reverse_append, List.reverse_singleton, List.singleton_append, revisionAtRev,
      lifeOf_append, liveAt, lastAt_append, life, ← lookup]
    by_cases later : g.created > target
    · -- A generation that starts after the target has no write there.
      have none : g.latestAtOrBefore target = none := by
        rw [lookup]
        refine lastAt_eq_none fun w hw => ?_
        have first : g.revs ≠ [] := wfLast.nonempty g (by simp)
        have started : ∀ r ∈ g.revs, target < r := fun r hr =>
          later.trans_le (wfLast.created g (by simp) r hr)
        obtain ⟨r, deleted⟩ := w
        cases deleted with
        | false => exact started r (by simpa using Generation.mem_life.mp hw)
        | true =>
          obtain ⟨p, hp⟩ := List.exists_mem_of_ne_nil _ first
          have asc := List.pairwise_append.mp (wfLast.ascending_life (g := g) (by simp))
          have tomb : g.tombstone = some r := by simpa using Generation.mem_life.mp hw
          exact (started p hp).trans (asc.2.2 (p, false) (by simpa using hp) (r, true)
            (by simp [tomb]))
      rw [if_pos later, none, Option.none_or, ih wfOlder, liveAt]
    · rw [if_neg later]
      rcases g.latestAtOrBefore target with _ | ⟨r, _ | _⟩
      · rw [Option.none_or, ih wfOlder, liveAt]
      · rfl
      · rfl

/-- The end of the timeline decides whether the key is live, and since when. -/
theorem currentOf_eq_live {gens : List Generation} (nonempty : ∀ g ∈ gens, g.revs ≠ []) :
    currentOf gens = live (lifeOf gens) := by
  rcases List.eq_nil_or_concat gens with rfl | ⟨older, g, rfl⟩
  · rfl
  · simp only [List.concat_eq_append] at nonempty ⊢
    have some_put : g.revs ≠ [] := nonempty g (by simp)
    cases tomb : g.tombstone with
    | some t => simp [currentOf, Generation.isOpen, Generation.life, tomb, live, put?]
    | none =>
      simp [currentOf, Generation.isOpen, Generation.life, tomb, live,
        List.getLast?_eq_some_getLast some_put, put?]

namespace KeyIndex

/-- The number of puts since the key was last created. -/
def openPuts (gens : List Generation) : Nat :=
  match gens.getLast? with
  | some g => if g.isOpen then g.revs.length else 0
  | none => 0

/-- The revision a put at `rev` belongs to: the creation of the open generation, or its own. -/
def openCreated (gens : List Generation) (rev : Revision) : Revision :=
  match gens.getLast? with
  | some g => if g.isOpen then g.created else rev
  | none => rev

theorem current_map_fst (idx : KeyIndex) :
    idx.current.map Prod.fst = currentOf idx.generations := by
  unfold current currentOf
  cases idx.generations.getLast? with
  | none => rfl
  | some g =>
    cases opened : g.isOpen with
    | false => simp [opened]
    | true => cases last : g.revs.getLast? <;> simp [opened, last]

theorem isLive_eq {idx : KeyIndex} (nonempty : ∀ g ∈ idx.generations, g.revs ≠ []) :
    idx.isLive = (currentOf idx.generations).isSome := by
  unfold isLive currentOf
  cases last : idx.generations.getLast? with
  | none => rfl
  | some g =>
    have some_put : g.revs ≠ [] := nonempty g (List.mem_of_getLast? last)
    cases opened : g.isOpen with
    | false => simp [opened]
    | true => simp [opened, List.getLast?_eq_some_getLast some_put]

/-- A key that is not live has no put to count, and its next put creates it. -/
theorem open_of_not_live {gens : List Generation} (nonempty : ∀ g ∈ gens, g.revs ≠ [])
    (dead : live (lifeOf gens) = none) : openPuts gens = 0 ∧ ∀ r, openCreated gens r = r := by
  rw [← currentOf_eq_live nonempty] at dead
  unfold currentOf at dead
  unfold openPuts openCreated
  cases last : gens.getLast? with
  | none => simp
  | some g =>
    have some_put : g.revs ≠ [] := nonempty g (List.mem_of_getLast? last)
    cases opened : g.isOpen with
    | false => simp [opened]
    | true => simp [last, opened, some_put] at dead

/-! ## Writes append -/

/-- A put appends to the timeline and answers the version and creation of its record. -/
theorem recordPut_spec (idx : KeyIndex) (wf : WellFormed idx.generations) {rev : Revision}
    (later : ∀ w ∈ lifeOf idx.generations, w.1 < rev) :
    ∃ gens, idx.recordPut rev = (KeyIndex.mk idx.key gens, (openPuts idx.generations + 1 : Int),
        openCreated idx.generations rev) ∧
      gens ≠ [] ∧ WellFormed gens ∧ lifeOf gens = lifeOf idx.generations ++ [(rev, false)] ∧
      openPuts gens = openPuts idx.generations + 1 ∧
      (∀ r, openCreated gens r = openCreated idx.generations rev) := by
  obtain ⟨key, gens⟩ := idx
  simp only at wf later ⊢
  have appended : Timeline.Ascending (lifeOf gens ++ [(rev, false)]) :=
    List.pairwise_append.mpr ⟨wf.ascending, by simp, fun a ha b hb => by
      obtain rfl : b = (rev, false) := by simpa using hb
      exact later a ha⟩
  rcases List.eq_nil_or_concat gens with rfl | ⟨older, g, rfl⟩
  · refine ⟨[] ++ [⟨rev, [rev], none⟩], ?_, by simp, wellFormed_concat.mpr ?_, ?_, ?_, ?_⟩
    · simp [recordPut, openPuts, openCreated]
    · simp [Generation.life]
    · simp [Generation.life]
    · simp [openPuts, Generation.isOpen]
    · simp [openCreated, Generation.isOpen]
  · simp only [List.concat_eq_append] at wf later appended ⊢
    obtain ⟨-, old, nonempty, created⟩ := wellFormed_concat.mp wf
    cases tomb : g.tombstone with
    | some t =>
      -- The key is deleted: the put opens a generation.
      refine ⟨older ++ [g] ++ [⟨rev, [rev], none⟩], ?_, by simp, wellFormed_concat.mpr ?_, ?_, ?_,
        ?_⟩
      · simp [recordPut, openPuts, openCreated, Generation.isOpen, tomb]
      · refine ⟨by simpa [Generation.life] using appended, ?_, by simp, by simp⟩
        intro h mem
        rcases List.mem_append.mp mem with before | last
        · exact old h before
        · obtain rfl : h = g := by simpa using last
          exact ⟨nonempty, created, by simp [tomb]⟩
      · simp [Generation.life]
      · simp [openPuts, Generation.isOpen, tomb]
      · simp [openCreated, Generation.isOpen, tomb]
    | none =>
      refine ⟨older ++ [{ g with revs := g.revs ++ [rev] }], ?_, by simp,
        wellFormed_concat.mpr ⟨?_, old, by simp, ?_⟩, ?_, ?_, ?_⟩
      · simp [recordPut, openPuts, openCreated, Generation.isOpen, tomb]
      · simpa [Generation.life, tomb] using appended
      · intro r hr
        rcases List.mem_append.mp hr with before | new
        · exact created r before
        · obtain rfl : r = rev := by simpa using new
          obtain ⟨p, hp⟩ := List.exists_mem_of_ne_nil _ nonempty
          have below := later (p, false) (by simp [Generation.life, hp])
          exact (created p hp).trans below.le
      · simp [Generation.life, tomb]
      · simp [openPuts, Generation.isOpen, tomb]
      · simp [openCreated, Generation.isOpen, tomb]

/-- A delete of a live key appends its tombstone. -/
theorem recordDelete_spec (idx : KeyIndex) (wf : WellFormed idx.generations)
    (isLive : idx.isLive = true) {rev : Revision}
    (later : ∀ w ∈ lifeOf idx.generations, w.1 < rev) :
    ∃ gens, idx.recordDelete rev = (KeyIndex.mk idx.key gens, true) ∧ gens ≠ [] ∧
      WellFormed gens ∧ lifeOf gens = lifeOf idx.generations ++ [(rev, true)] := by
  obtain ⟨key, gens⟩ := idx
  simp only at wf later ⊢
  have appended : Timeline.Ascending (lifeOf gens ++ [(rev, true)]) :=
    List.pairwise_append.mpr ⟨wf.ascending, by simp, fun a ha b hb => by
      obtain rfl : b = (rev, true) := by simpa using hb
      exact later a ha⟩
  rcases List.eq_nil_or_concat gens with rfl | ⟨older, g, rfl⟩
  · simp [KeyIndex.isLive] at isLive
  · simp only [List.concat_eq_append] at wf later isLive appended ⊢
    obtain ⟨-, old, nonempty, created⟩ := wellFormed_concat.mp wf
    have tomb : g.tombstone = none := by
      simpa [KeyIndex.isLive, Generation.isOpen] using isLive
    refine ⟨older ++ [{ g with tombstone := some rev }], ?_, by simp,
      wellFormed_concat.mpr ⟨?_, old, nonempty, created⟩, ?_⟩
    · simp [recordDelete, Generation.isOpen, tomb]
    · simpa [Generation.life, tomb] using appended
    · simp [Generation.life, tomb]

end KeyIndex

end Fastetcd.Mvcc
