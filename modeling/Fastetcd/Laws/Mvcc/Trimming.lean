import Fastetcd.Laws.Mvcc.KeyIndex

/-!
# Compacting an index trims its timeline

`KeyIndex.compact` walks the generations and cuts each one at the floor. Glued together again, what
it leaves is the key's timeline trimmed at the floor (`lifeOf_compactGens`), and what it drops are
the other stamps (`mem_droppedRevs`), so the timeline laws say which reads are kept. `compactionChanges`, the test that
spares a compaction the keys it would not change, is exact (`compactionChanges_iff`).
-/

namespace Fastetcd.Mvcc

open Timeline

namespace KeyIndex

/-! ## One generation -/

/-- On ascending puts the scan finds the last one at or below the floor. -/
theorem floorIdx_append {c : Revision} {low high : List Revision} (reached : ∀ r ∈ low, r ≤ c)
    (above : ∀ r ∈ high, c < r) (i : Nat) (found : Option Nat) :
    Generation.floorIdx c (low ++ high) i found =
      if low.isEmpty then found else some (i + low.length - 1) := by
  induction low generalizing i found with
  | nil =>
    cases high with
    | nil => rfl
    | cons r high => simp [Generation.floorIdx, above r (by simp)]
  | cons r low ih =>
    rw [List.cons_append, Generation.floorIdx, if_pos (reached r (by simp)),
      ih fun r mem => reached r (by simp [mem])]
    cases low with
    | nil => simp
    | cons => simp; omega

/-- Puts in order split at the floor. -/
theorem split_revs {revs : List Revision} (ascending : revs.Pairwise (· < ·)) (c : Revision) :
    revs = revs.filter (· ≤ c) ++ revs.filter (c < ·) := by
  have timeline : Timeline.Ascending (revs.map (·, false)) := List.pairwise_map.mpr ascending
  have split := congrArg (List.map Prod.fst) (timeline.split c)
  simpa [List.filter_map, Function.comp_def] using split

theorem ascending_revs {g : Generation} (ascending : Timeline.Ascending g.life) :
    g.revs.Pairwise (· < ·) := by
  have puts := (List.pairwise_append.mp ascending).1
  rwa [List.pairwise_map] at puts

/-- The three things a compaction does to a generation: drop it, leave it, or cut it before its
last put at or below the floor. -/
theorem compactGeneration_cases {c : Revision} {g : Generation}
    (ascending : Timeline.Ascending g.life) (nonempty : g.revs ≠ []) :
    (∃ t, g.tombstone = some t ∧ t ≤ c ∧ compactGeneration c g = (none, g.revs ++ [t])) ∨
    (∀ t, g.tombstone = some t → c < t) ∧
      ((∀ r ∈ g.revs, c < r) ∧ compactGeneration c g = (some g, []) ∨
        ∃ init last high, g.revs = init ++ last :: high ∧ last ≤ c ∧ (∀ r ∈ high, c < r) ∧
          compactGeneration c g = (some ⟨g.created, last :: high, g.tombstone⟩, init)) := by
  by_cases closed : ∃ t, g.tombstone = some t ∧ t ≤ c
  · obtain ⟨t, tomb, reached⟩ := closed
    exact .inl ⟨t, tomb, reached, by simp [compactGeneration, tomb, reached]⟩
  right
  have later : ∀ t, g.tombstone = some t → c < t := fun t tomb => by
    by_contra low
    exact closed ⟨t, tomb, not_lt.mp low⟩
  refine ⟨later, ?_⟩
  have trims : compactGeneration c g =
      (Generation.floorIdx c g.revs 0 none).elim
        (if g.revs.isEmpty && g.tombstone.isNone then (none, []) else (some g, [])) fun fi =>
          if (g.revs.drop fi).isEmpty && g.tombstone.isNone then (none, g.revs.take fi)
          else (some ⟨g.created, g.revs.drop fi, g.tombstone⟩, g.revs.take fi) := by
    unfold compactGeneration
    cases tomb : g.tombstone with
    | none => cases Generation.floorIdx c g.revs 0 none <;> simp [← tomb]
    | some t =>
      have high := not_le.mpr (later t tomb)
      cases Generation.floorIdx c g.revs 0 none <;> simp [high, ← tomb]
  have split := split_revs (ascending_revs ascending) c
  have low : ∀ r ∈ g.revs.filter (· ≤ c), r ≤ c := fun r mem => by
    simpa using (List.mem_filter.mp mem).2
  have high : ∀ r ∈ g.revs.filter (c < ·), c < r := fun r mem => by
    simpa using (List.mem_filter.mp mem).2
  have found := floorIdx_append low high 0 none
  rw [← split] at found
  rw [trims]
  rcases List.eq_nil_or_concat (g.revs.filter (· ≤ c)) with none | ⟨init, last, some⟩
  · left
    rw [none, List.nil_append] at split
    refine ⟨fun r mem => ?_, by rw [found]; simp [none, nonempty]⟩
    rw [split] at mem
    simpa using (List.mem_filter.mp mem).2
  · right
    rw [List.concat_eq_append] at some
    have reached : last ≤ c := by
      have mem : last ∈ g.revs.filter (· ≤ c) := by simp [some]
      simpa using (List.mem_filter.mp mem).2
    rw [some, List.append_assoc, List.singleton_append] at split
    refine ⟨init, last, g.revs.filter (c < ·), split, reached,
      fun r mem => by simpa using (List.mem_filter.mp mem).2, ?_⟩
    have found : Generation.floorIdx c g.revs 0 none = .some init.length := by
      rw [found, some]
      simp
    generalize g.revs.filter (c < ·) = high at split
    rw [found]
    simp [split]

/-- What is kept of a generation is its trimmed timeline, and what is dropped comes before it. -/
theorem life_compactGeneration {c : Revision} {g : Generation}
    (ascending : Timeline.Ascending g.life) (nonempty : g.revs ≠ []) :
    lifeOf (compactGeneration c g).1.toList = Timeline.trim g.life c ∧
      g.life.map Prod.fst = (compactGeneration c g).2 ++ (Timeline.trim g.life c).map Prod.fst := by
  rcases compactGeneration_cases (c := c) ascending nonempty with
    ⟨t, tomb, reached, eq⟩ | ⟨later, ⟨above, eq⟩ | ⟨init, last, high, revs, reached, above, eq⟩⟩
  · -- Everything is at or below the floor and ends in the tombstone.
    have life : g.life = g.revs.map (·, false) ++ [(t, true)] := by simp [Generation.life, tomb]
    have past : ∀ w ∈ g.life, w.1 ≤ c := fun w mem => by
      have below : w.1 ≤ t := by
        rw [life] at ascending mem
        rcases List.mem_append.mp mem with before | last
        · exact ((List.pairwise_append.mp ascending).2.2 w before _ (List.mem_singleton_self _)).le
        · rw [List.mem_singleton.mp last]
      exact below.trans reached
    have gone : Timeline.trim g.life c = [] := by
      have none : liveAt g.life c = none := by rw [liveAt_eq_live past, life]; simp
      simp only [Timeline.trim, none, Option.toList_none, List.map_nil, List.nil_append]
      exact List.filter_eq_nil_iff.mpr fun w mem => by simpa using past w mem
    rw [eq, gone]
    simp [life, Function.comp_def]
  · have later : ∀ w ∈ g.life, c < w.1 := by
      rintro ⟨r, deleted⟩ mem
      cases deleted with
      | false => exact above r (by simpa using Generation.mem_life.mp mem)
      | true => exact later r (by simpa using Generation.mem_life.mp mem)
    have whole : Timeline.trim g.life c = g.life := by
      have none : liveAt g.life c = none := by rw [liveAt, lastAt_eq_none later]; rfl
      simp only [Timeline.trim, none, Option.toList_none, List.map_nil, List.nil_append]
      exact List.filter_eq_self.mpr fun w mem => by simpa using later w mem
    rw [eq, whole]
    simp
  · have life : g.life = init.map (·, false) ++ [(last, false)] ++
        (high.map (·, false) ++ (g.tombstone.map (·, true)).toList) := by
      simp [Generation.life, revs]
    have highLater : ∀ w ∈ high.map (·, false) ++ (g.tombstone.map (·, true)).toList, c < w.1 := by
      intro w mem
      rcases List.mem_append.mp mem with put | closing
      · obtain ⟨r, kept, rfl⟩ := List.mem_map.mp put
        exact above r kept
      · obtain ⟨t, tomb, rfl⟩ := Option.map_eq_some_iff.mp (Option.mem_toList.mp closing)
        exact later t tomb
    have lowPast : ∀ w ∈ init.map (·, false) ++ [(last, false)], w.1 ≤ c := by
      intro w mem
      rw [life] at ascending
      obtain ⟨low, -, -⟩ := List.pairwise_append.mp ascending
      rcases List.mem_append.mp mem with before | here
      · exact ((List.pairwise_append.mp low).2.2 w before _ (List.mem_singleton_self _)).le.trans
          reached
      · rw [List.mem_singleton.mp here]
        exact reached
    have cut : Timeline.trim g.life c = (last, false) ::
        (high.map (·, false) ++ (g.tombstone.map (·, true)).toList) := by
      rw [Timeline.trim, life, liveAt_append highLater, liveAt_eq_live lowPast, List.filter_append,
        List.filter_eq_nil_iff.mpr fun w mem => by simpa using lowPast w mem,
        List.filter_eq_self.mpr fun w mem => by simpa using highLater w mem]
      simp
    rw [cut, eq, life]
    simp [Generation.life, Function.comp_def]

theorem compactionChanges_singleton {c : Revision} {g : Generation} :
    compactionChanges [g] c = true ↔ (∃ t, g.tombstone = some t ∧ t ≤ c) ∨
      ∃ first second rest, g.revs = first :: second :: rest ∧ second ≤ c := by
  obtain ⟨created, revs, tombstone⟩ := g
  cases tombstone <;> rcases revs with _ | ⟨first, _ | ⟨second, rest⟩⟩ <;>
    simp [compactionChanges]

/-- The test for one generation is exact. -/
theorem compactGeneration_changes {c : Revision} {g : Generation}
    (ascending : Timeline.Ascending g.life) (nonempty : g.revs ≠ []) :
    compactionChanges [g] c = true ↔ (compactGeneration c g).1 ≠ some g := by
  have inOrder := ascending_revs ascending
  rw [compactionChanges_singleton]
  rcases compactGeneration_cases (c := c) ascending nonempty with
    ⟨t, tomb, reached, eq⟩ | ⟨later, ⟨above, eq⟩ | ⟨init, last, high, revs, reached, above, eq⟩⟩
  · simp [eq, tomb, reached]
  · simp only [eq, ne_eq, not_true_eq_false, iff_false, not_or, not_exists, not_and, not_le]
    exact ⟨later, fun first second rest revs => above second (by simp [revs])⟩
  · have unclosed : ¬∃ t, g.tombstone = some t ∧ t ≤ c := by
      rintro ⟨t, tomb, low⟩
      exact absurd (later t tomb) (not_lt.mpr low)
    rw [eq, or_iff_right unclosed, revs]
    cases init with
    | nil =>
      have same : (⟨g.created, last :: high, g.tombstone⟩ : Generation) = g := by
        rw [← List.nil_append (last :: high), ← revs]
      rw [same]
      simp only [List.nil_append, ne_eq, not_true_eq_false, iff_false, not_exists, not_and, not_le]
      rintro first second rest ⟨⟩
      exact above second (by simp)
    | cons first init =>
      have shorter : (⟨g.created, last :: high, g.tombstone⟩ : Generation) ≠ g := fun h => by
        have := congrArg (fun g => g.revs.length) h
        simp [revs] at this
        omega
      simp only [ne_eq, Option.some.injEq, shorter, not_false_eq_true, iff_true]
      -- The second put is at most the last one at or below the floor.
      rw [revs] at inOrder
      cases init with
      | nil => exact ⟨first, last, high, rfl, reached⟩
      | cons second init =>
        have below := (List.pairwise_cons.mp (List.pairwise_cons.mp inOrder).2).1 last (by simp)
        exact ⟨first, second, init ++ last :: high, rfl, below.le.trans reached⟩

/-! ## All generations -/

/-- The generations a compaction leaves. -/
def compactGens (c : Revision) (gens : List Generation) : List Generation :=
  gens.filterMap fun g => (compactGeneration c g).1

/-- The revisions a compaction drops. -/
def droppedRevs (c : Revision) (gens : List Generation) : List Revision :=
  gens.flatMap fun g => (compactGeneration c g).2

theorem compactGens_cons (c : Revision) (g : Generation) (gens : List Generation) :
    compactGens c (g :: gens) = (compactGeneration c g).1.toList ++ compactGens c gens := by
  rw [compactGens, List.filterMap_cons]
  cases (compactGeneration c g).1 <;> rfl

theorem compact_eq (idx : KeyIndex) (c : Revision) :
    idx.compact c = (KeyIndex.mk idx.key (compactGens c idx.generations),
      droppedRevs c idx.generations) := by
  have folded : ∀ (gens : List Generation) (keep : List Generation) (dropped : List Revision),
      gens.foldl (fun acc g => (acc.1 ++ (compactGeneration c g).1.toList,
        acc.2 ++ (compactGeneration c g).2)) (keep, dropped) =
        (keep ++ compactGens c gens, dropped ++ droppedRevs c gens) := by
    intro gens
    induction gens with
    | nil => simp [compactGens, droppedRevs]
    | cons g gens ih => simp [ih, compactGens_cons, droppedRevs]
  have := folded idx.generations [] []
  simp only [List.nil_append] at this
  simp only [compact, this]

section Generations

variable {gens : List Generation} (c : Revision)

/-- A generation that another follows ends in its deletion. -/
theorem live_of_followed {g : Generation} (wf : WellFormed (g :: gens)) (follows : gens ≠ []) :
    live g.life = none := by
  obtain ⟨next, mem⟩ := List.exists_mem_of_ne_nil _ follows
  obtain ⟨t, tomb⟩ := Option.isSome_iff_exists.mp ((List.pairwise_cons.mp wf.closed).1 next mem)
  simp [Generation.life, tomb]

/-- Trimming goes generation by generation. -/
theorem trim_lifeOf_cons {g : Generation} (wf : WellFormed (g :: gens)) :
    Timeline.trim (lifeOf (g :: gens)) c =
      Timeline.trim g.life c ++ Timeline.trim (lifeOf gens) c := by
  rw [lifeOf_cons]
  exact trim_append wf.ascending
    (fun some => live_of_followed wf (by rintro rfl; exact some rfl)) c

/-- Compaction trims the timeline. -/
theorem lifeOf_compactGens (wf : WellFormed gens) :
    lifeOf (compactGens c gens) = Timeline.trim (lifeOf gens) c := by
  induction gens with
  | nil => rfl
  | cons g gens ih =>
    have parts := WellFormed.of_append (a := [g]) wf
    rw [compactGens_cons, lifeOf_append, trim_lifeOf_cons c wf, ih parts.2,
      (life_compactGeneration (wf.ascending_life (by simp)) (wf.nonempty g (by simp))).1]

/-- What a compaction drops and what it keeps are together what was there. -/
theorem perm_droppedRevs (wf : WellFormed gens) :
    ((lifeOf gens).map Prod.fst).Perm
      (droppedRevs c gens ++ (Timeline.trim (lifeOf gens) c).map Prod.fst) := by
  induction gens with
  | nil => exact .refl _
  | cons g gens ih =>
    have parts := WellFormed.of_append (a := [g]) wf
    rw [trim_lifeOf_cons c wf, lifeOf_cons, List.map_append, List.map_append,
      (life_compactGeneration (c := c) (wf.ascending_life (by simp))
        (wf.nonempty g (by simp))).2]
    simp only [droppedRevs, List.flatMap_cons, List.append_assoc]
    refine List.Perm.append_left _ (((ih parts.2).append_left _).trans ?_)
    rw [← List.append_assoc, ← List.append_assoc]
    exact List.perm_append_comm.append_right _

/-- A dropped revision is one the timeline had and the trimmed one has not. -/
theorem mem_droppedRevs (wf : WellFormed gens) {r : Revision} :
    r ∈ droppedRevs c gens ↔ (∃ deleted, (r, deleted) ∈ lifeOf gens) ∧
      ∀ deleted, (r, deleted) ∉ Timeline.trim (lifeOf gens) c := by
  have perm := perm_droppedRevs c wf
  have distinct : ((lifeOf gens).map Prod.fst).Nodup :=
    List.pairwise_map.mpr (wf.ascending.imp fun lt => lt.ne)
  have apart := (List.nodup_append.mp (perm.nodup_iff.mp distinct)).2.2
  have stamps : (∃ deleted, (r, deleted) ∈ lifeOf gens) ↔ r ∈ droppedRevs c gens ∨
      r ∈ (Timeline.trim (lifeOf gens) c).map Prod.fst := by
    rw [← List.mem_append, ← perm.mem_iff]
    simp
  rw [stamps]
  constructor
  · intro dropped
    exact ⟨.inl dropped, fun deleted kept =>
      apart r dropped r (List.mem_map.mpr ⟨_, kept, rfl⟩) rfl⟩
  · rintro ⟨dropped | kept, gone⟩
    · exact dropped
    · obtain ⟨⟨r, deleted⟩, mem, rfl⟩ := List.mem_map.mp kept
      exact absurd mem (gone deleted)

/-- A generation that is kept keeps its creation and its deletion, and some of its puts. -/
theorem kept_of_mem {g kept : Generation} (wf : WellFormed gens) (mem : g ∈ gens)
    (eq : (compactGeneration c g).1 = some kept) :
    kept.created = g.created ∧ kept.tombstone = g.tombstone ∧ kept.revs ≠ [] ∧
      ∀ r ∈ kept.revs, r ∈ g.revs := by
  have nonempty := wf.nonempty g mem
  rcases compactGeneration_cases (c := c) (wf.ascending_life mem) nonempty with
    ⟨t, -, -, cut⟩ | ⟨-, ⟨-, cut⟩ | ⟨init, last, high, revs, -, -, cut⟩⟩ <;> rw [cut] at eq
  · cases eq
  · cases eq
    exact ⟨rfl, rfl, nonempty, fun r mem => mem⟩
  · cases eq
    exact ⟨rfl, rfl, by simp, fun r mem => by rw [revs]; exact List.mem_append_right _ mem⟩

theorem wellFormed_compactGens (wf : WellFormed gens) : WellFormed (compactGens c gens) where
  ascending := lifeOf_compactGens c wf ▸ wf.ascending.trim c
  nonempty kept mem := by
    obtain ⟨g, mem, eq⟩ := List.mem_filterMap.mp mem
    exact (kept_of_mem c wf mem eq).2.2.1
  created kept mem r hr := by
    obtain ⟨g, mem, eq⟩ := List.mem_filterMap.mp mem
    obtain ⟨created, -, -, revs⟩ := kept_of_mem c wf mem eq
    exact created ▸ wf.created g mem r (revs r hr)
  closed := by
    refine List.pairwise_filterMap.mpr (wf.closed.imp_of_mem fun {a b} ha _ closed a' eq b' _ => ?_)
    exact (kept_of_mem c wf ha eq).2.1 ▸ closed

/-- A live key keeps its creation. -/
theorem openCreated_compactGens (wf : WellFormed gens) {rev : Revision}
    (isLive : live (lifeOf gens) = some rev) (r : Revision) :
    openCreated (compactGens c gens) r = openCreated gens r := by
  rcases List.eq_nil_or_concat gens with rfl | ⟨older, g, rfl⟩
  · rfl
  rw [List.concat_eq_append] at wf isLive ⊢
  have mem : g ∈ older ++ [g] := by simp
  have opened : g.tombstone = none := by
    rw [← currentOf_eq_live wf.nonempty] at isLive
    by_contra closed
    simp [currentOf, Generation.isOpen, Option.isNone_iff_eq_none, closed] at isLive
  have kept : ∃ kept, (compactGeneration c g).1 = some kept := by
    rcases compactGeneration_cases (c := c) (wf.ascending_life mem) (wf.nonempty g mem) with
      ⟨t, tomb, -⟩ | ⟨-, ⟨-, cut⟩ | ⟨init, last, high, -, -, -, cut⟩⟩
    · rw [opened] at tomb
      cases tomb
    · exact ⟨_, by rw [cut]⟩
    · exact ⟨_, by rw [cut]⟩
  obtain ⟨kept, eq⟩ := kept
  obtain ⟨created, tomb, -⟩ := kept_of_mem c wf mem eq
  simp [openCreated, compactGens, eq, Generation.isOpen, tomb, opened, created]

/-- The test that spares a compaction the keys it would not change is exact. -/
theorem compactionChanges_iff (wf : WellFormed gens) :
    compactionChanges gens c = true ↔ compactGens c gens ≠ gens := by
  have shrinks : ∀ gens : List Generation, (compactGens c gens).length ≤ gens.length :=
    fun gens => List.length_filterMap_le _ gens
  induction gens with
  | nil => simp [compactionChanges, compactGens]
  | cons g gens ih =>
    have parts := WellFormed.of_append (a := [g]) wf
    have first := compactGeneration_changes (c := c) (wf.ascending_life (by simp))
      (wf.nonempty g (by simp))
    have split : compactionChanges (g :: gens) c =
        (compactionChanges [g] c || compactionChanges gens c) := by
      simp [compactionChanges]
    rw [split, Bool.or_eq_true, compactGens_cons]
    refine (or_congr first (ih parts.2)).trans ?_
    cases kept : (compactGeneration c g).1 with
    | none =>
      have ne : compactGens c gens ≠ g :: gens := fun eq => by
        have := shrinks gens
        rw [eq, List.length_cons] at this
        omega
      simpa using ne
    | some g' =>
      simp only [ne_eq, Option.some.injEq, Option.toList_some, List.singleton_append,
        List.cons.injEq, not_and_or]

end Generations

end KeyIndex

end Fastetcd.Mvcc
