import Fastetcd.Laws.Mvcc.WatchHistory

/-!
# What the told events say of a key

The events a run told decide what is live under a key (`liveAfter`), and each event was told with the
record that was live before it (`Run.heard`). A property of the told events and the content holds of
every run once a write keeps it and a compaction keeps it (`Run.told_invariant`).

How many puts a key has had since its creation is told too (`putsSince`), but the store does not keep
it: the version of a put is the length of the key's open generation, and a compaction shortens that.
It is the told number in the runs whose compactions take at most the puts that no version counts
(`GentleRun`).
-/

namespace Fastetcd.Mvcc

open Timeline Reference KeyIndex Content Replay
open Std (ExtTreeMap)

/-! ## Events one by one -/

@[simp]
theorem eventsOf_append (a b : List EventBatch) : eventsOf (a ++ b) = eventsOf a ++ eventsOf b :=
  List.flatMap_append

theorem eventsOf_toldOf (current : Int) (ws : List Write) :
    eventsOf (toldOf current ws) = ws.map Write.event := by
  cases ws with
  | nil => rfl
  | cons => simp [eventsOf, toldOf]

theorem eventsOf_eq (told : List EventBatch) : eventsOf told = (toldEvents told).map Prod.snd := by
  rw [eventsOf, toldEvents, List.map_flatMap]
  simp [Function.comp_def]

theorem ofKey_concat (key : Bytes) (events : List MvccEvent) (e : MvccEvent) :
    ofKey key (events ++ [e]) =
      if e.kv.key = key then ofKey key events ++ [e] else ofKey key events := by
  rw [ofKey, List.filter_append]
  by_cases own : e.kv.key = key <;> simp [own, ofKey]

theorem liveAfter_concat (key : Bytes) (events : List MvccEvent) (e : MvccEvent) :
    liveAfter key (events ++ [e]) =
      if e.kv.key = key then (if e.kind = .put then some e.kv else none)
      else liveAfter key events := by
  rw [liveAfter, ofKey_concat]
  split
  · simp
  · rfl

theorem putsSince_concat (key : Bytes) (events : List MvccEvent) (e : MvccEvent) :
    putsSince key (events ++ [e]) =
      if e.kv.key = key then (if e.kind = .put then putsSince key events + 1 else 0)
      else putsSince key events := by
  rw [putsSince, ofKey_concat]
  split
  · cases kind : e.kind <;> simp [kind, putsSince]
  · rfl

/-- A property of each event and those before it, once more events are told. -/
theorem forall_concat {events : List MvccEvent} {e : MvccEvent}
    {P : MvccEvent → List MvccEvent → Prop}
    (old : ∀ i x, events[i]? = some x → P x (events.take i)) (new : P e events) :
    ∀ i x, (events ++ [e])[i]? = some x → P x ((events ++ [e]).take i) := by
  intro i x found
  obtain inside | rfl | past := Nat.lt_trichotomy i events.length
  · rw [List.getElem?_append_left inside] at found
    rw [List.take_append_of_le_length inside.le]
    exact old i x found
  · rw [List.getElem?_concat_length, Option.some.injEq] at found
    rw [List.take_left, ← found]
    exact new
  · rw [List.getElem?_eq_none (by simpa using past)] at found
    cases found

/-! ## Told events along a run -/

section Told

variable {P : List MvccEvent → Content → Prop} {s t : Store} {events : List MvccEvent}
  {effects new : List Effect} {told more : List EventBatch}

theorem told_writes
    (write : ∀ {events C w}, C.Inv → C.Fits w → P events C → P (events ++ [w.event]) (C.write w))
    {C : Content} {ws : List Write} (inv : C.Inv) (fits : C.FitsAll ws) (holds : P events C) :
    P (events ++ ws.map Write.event) (C.writes ws) := by
  induction ws generalizing C events with
  | nil => simpa using holds
  | cons w ws ih =>
    have rest := ih (inv.write fits.1) fits.2 (write inv fits.1 holds)
    simpa using rest

/-- A move keeps what its writes and its compaction keep. -/
theorem Move.told_invariant
    (write : ∀ {events C w}, C.Inv → C.Fits w → P events C → P (events ++ [w.event]) (C.write w))
    (move : Move s new more t) (inv : s.Inv) (holds : P events s.content)
    (compacted : ∀ c, s.writeState.compactRev < c → t = s.compactedAt c →
      P events (s.content.compacted (.endOf c))) :
    P (events ++ eventsOf more) t.content := by
  cases move with
  | quiet same =>
    rw [same.content]
    simpa [eventsOf] using holds
  | wrote wrote _ =>
    rw [eventsOf_toldOf, wrote.content]
    exact told_writes write inv.content wrote.fits holds
  | compacted _ later _ =>
    rw [content_compactedAt inv]
    simpa [eventsOf] using compacted _ later rfl
  | reopened =>
    rw [content_open inv]
    simpa [eventsOf] using holds

theorem Run.told_invariant (start : P [] ⟨∅, ∅, ∅⟩)
    (write : ∀ {events C w}, C.Inv → C.Fits w → P events C → P (events ++ [w.event]) (C.write w))
    (compacted : ∀ {events C c}, C.Inv → P events C → P events (C.compacted c))
    (run : Run effects told s) : P (eventsOf told) s.content := by
  refine (Run.invariant (P := fun _ told s => P (eventsOf told) s.content) start ?_ run).2
  intro effects told s new more t inv holds move
  rw [eventsOf_append]
  exact move.told_invariant write inv holds fun c _ _ => compacted inv.content holds

end Told

/-! ## The record before an event -/

/-- What the events have to do with the live keys: they decide them, and each was told with the
record that was live before it. -/
structure Heard (events : List MvccEvent) (C : Content) : Prop where
  live : ∀ key, liveAfter key events = (liveRow C.cells key).map Row.record
  prev : ∀ i e, events[i]? = some e → e.prevKv = liveAfter e.kv.key (events.take i)

theorem Heard.write {events : List MvccEvent} {C : Content} {w : Write} (inv : C.Inv)
    (fits : C.Fits w) (heard : Heard events C) : Heard (events ++ [w.event]) (C.write w) where
  live key := by
    rw [liveAfter_concat, liveRow_write inv fits, heard.live]
    split
    · cases w.event.kind <;> simp
    · rfl
  prev := by
    refine forall_concat (P := fun e before => e.prevKv = liveAfter e.kv.key before) heard.prev ?_
    rw [heard.live, fits.prev]

theorem Heard.compacted {events : List MvccEvent} {C : Content} {c : Revision} (inv : C.Inv)
    (heard : Heard events C) : Heard events (C.compacted c) :=
  ⟨fun key => (heard.live key).trans (record_compacted inv key).symm, heard.prev⟩

theorem Run.heard {effects : List Effect} {told : List EventBatch} {s : Store}
    (run : Run effects told s) : Heard (eventsOf told) s.content :=
  run.told_invariant ⟨fun key => by simp [liveAfter, ofKey, liveRow, cells], by simp⟩ .write .compacted

/-! ## Versions -/

/-- The version law for one event, after the events before it. -/
def VersionLaw (e : MvccEvent) (before : List MvccEvent) : Prop :=
  e.kind = .put → e.kv.version = putsSince e.kv.key before + 1 ∧
    e.kv.version = (e.prevKv.map KvRecord.version).getD 0 + 1

/-- The generations count the told puts, and the version of a live key is the count. -/
structure Counted (events : List MvccEvent) (C : Content) : Prop where
  puts : ∀ key, openPuts (C.gens key) = putsSince key events
  newest : ∀ key row, liveRow C.cells key = some row → row.record.version = row.puts
  law : ∀ i e, events[i]? = some e → VersionLaw e (events.take i)

theorem Counted.write {events : List MvccEvent} {C : Content} {w : Write} (inv : C.Inv)
    (fits : C.Fits w) (counted : Counted events C) :
    Counted (events ++ [w.event]) (C.write w) where
  puts key := by
    obtain ⟨-, wf, life, opened⟩ := fits.gens_spec inv
    rw [gens_write, putsSince_concat]
    split
    · next own =>
      cases kind : w.event.kind with
      | put =>
        rw [← kind, (opened kind).1, counted.puts, own, kind]
        rfl
      | delete =>
        have dead : Timeline.live (lifeOf (writeGens (C.gens w.event.kv.key) w.rev .delete)) = none := by
          rw [← kind, life, fits.deleted, kind]
          simp
        rw [kind] at wf
        exact (open_of_not_live wf.nonempty dead).1
    · exact counted.puts key
  newest key row found := by
    rw [liveRow_write inv fits] at found
    split at found
    · next own =>
      cases kind : w.event.kind with
      | put =>
        simp only [kind, Option.some.injEq] at found
        rw [← found, fits.version kind, own]
      | delete => simp [kind] at found
    · exact counted.newest key row found
  law := by
    refine forall_concat counted.law fun put => ?_
    have version := fits.version put
    refine ⟨?_, ?_⟩
    · rw [version, inv.putsAfter_liveRow, counted.puts]
      rfl
    · rw [version, fits.prev, putsAfter]
      cases here : liveRow C.cells w.event.kv.key with
      | none => rfl
      | some row =>
        have newest := counted.newest _ row here
        simp [newest]

/-- A compaction at `c` takes no put that the version of a live key counts: a key's open generation
has at most one put at or below it. -/
def Gentle (s : Store) (c : Int) : Prop :=
  ∀ (key : Bytes) (gens : List Generation) (g : Generation), s.index[key]? = some gens →
    gens.getLast? = some g → g.isOpen = true → (g.revs.filter (· ≤ Revision.endOf c)).length ≤ 1

instance (s : Store) (c : Int) : Decidable (Gentle s c) :=
  decidable_of_iff (∀ row ∈ s.index.toList, ∀ g ∈ row.2.getLast?, g.isOpen = true →
      (g.revs.filter (· ≤ Revision.endOf c)).length ≤ 1) <| by
    simp only [Gentle, Prod.forall, ExtTreeMap.mem_toList_iff_getElem?_eq_some, Option.mem_def]
    exact forall_congr' fun key => forall_congr' fun gens => ⟨fun h g known => h known g,
      fun h known g => h g known⟩

/-- A generation with at most one put at or below the floor is left as it is. -/
theorem openPuts_compactGens {gens : List Generation} (wf : WellFormed gens) {c : Revision}
    (few : ∀ g, gens.getLast? = some g → g.isOpen = true → (g.revs.filter (· ≤ c)).length ≤ 1) :
    openPuts (compactGens c gens) = openPuts gens := by
  cases isLive : live (lifeOf gens) with
  | none =>
    have still : live (lifeOf (compactGens c gens)) = none := by
      rw [lifeOf_compactGens c wf, live_trim wf.ascending, isLive]
    rw [(open_of_not_live wf.nonempty isLive).1,
      (open_of_not_live (wellFormed_compactGens c wf).nonempty still).1]
  | some rev =>
    rcases List.eq_nil_or_concat gens with rfl | ⟨older, g, rfl⟩
    · rfl
    rw [List.concat_eq_append] at wf isLive few ⊢
    have mem : g ∈ older ++ [g] := by simp
    have opened : g.tombstone = none := by
      rw [← currentOf_eq_live wf.nonempty] at isLive
      by_contra closed
      simp [currentOf, Generation.isOpen, Option.isNone_iff_eq_none, closed] at isLive
    have isOpen : g.isOpen = true := by simp [Generation.isOpen, opened]
    have few := few g (by simp) isOpen
    have kept : (compactGeneration c g).1 = some g := by
      rcases compactGeneration_cases (c := c) (wf.ascending_life mem) (wf.nonempty g mem) with
        ⟨t, tomb, -⟩ | ⟨-, ⟨-, cut⟩ | ⟨init, last, high, revs, reached, above, cut⟩⟩
      · rw [opened] at tomb
        cases tomb
      · rw [cut]
      · -- What is cut off lies below the last put at or below the floor, and there is nothing.
        have inOrder := ascending_revs (wf.ascending_life mem)
        have low : ∀ r ∈ init ++ [last], r ≤ c := by
          rw [revs] at inOrder
          intro r before
          rcases List.mem_append.mp before with before | here
          · exact ((List.pairwise_append.mp inOrder).2.2 r before last (by simp)).le.trans reached
          · rw [List.mem_singleton.mp here]
            exact reached
        have none : init = [] := by
          rw [revs, List.append_cons, List.filter_append,
            List.filter_eq_self.mpr fun r mem => by simpa using low r mem] at few
          simp only [List.length_append, List.length_cons, List.length_nil] at few
          exact List.eq_nil_of_length_eq_zero (by omega)
        subst none
        rw [cut, ← List.nil_append (last :: high), ← revs]
    simp [openPuts, compactGens, kept]

theorem Counted.compacted {events : List MvccEvent} {C : Content} {c : Revision} (inv : C.Inv)
    (few : ∀ key g, (C.gens key).getLast? = some g → g.isOpen = true →
      (g.revs.filter (· ≤ c)).length ≤ 1)
    (counted : Counted events C) : Counted events (C.compacted c) where
  puts key := by
    rw [gens_compacted, openPuts_compactGens (inv.wellFormed_gens key) (few key), counted.puts]
  newest key row found := by
    obtain ⟨rev, isLive, stored, puts⟩ := Inv.live_of_liveRow found
    rw [live_compacted inv] at isLive
    obtain ⟨rec, before, -, here⟩ := inv.liveRow_of_live isLive
    have same : rec = row.record := Option.some.inj (before.symm.trans (kv_of_compacted stored))
    rw [puts, gens_compacted, openPuts_compactGens (inv.wellFormed_gens key) (few key), ← same]
    exact counted.newest key _ here
  law := counted.law

/-! ### Gentle runs -/

/-- A run in which no compaction takes a put that a version counts. -/
inductive GentleRun : List EventBatch → Store → Prop
  | start : GentleRun [] (Store.open Tables.empty)
  | step {told : List EventBatch} {s t : Store} {effects : List Effect} (run : GentleRun told s)
      (step : Step s effects t) (gentle : Gentle s t.writeState.compactRev) :
      GentleRun (told ++ t.broadcast.drop s.broadcast.length) t

theorem GentleRun.run {told : List EventBatch} {s : Store} (gentle : GentleRun told s) :
    ∃ effects, Run effects told s := by
  induction gentle with
  | start => exact ⟨[], .start⟩
  | step _ step _ ih =>
    obtain ⟨effects, run⟩ := ih
    exact ⟨_, .step run step⟩

theorem GentleRun.counted {told : List EventBatch} {s : Store} (gentle : GentleRun told s) :
    Counted (eventsOf told) s.content := by
  induction gentle with
  | start =>
    refine ⟨fun key => ?_, fun key row found => ?_, by simp [eventsOf]⟩
    · rfl
    · simp [liveRow, cells, Store.content, show (Store.open Tables.empty).index = ∅ from rfl] at found
  | @step told s t effects before step gentle ih =>
    obtain ⟨_, run⟩ := before.run
    have inv : s.Inv := Reachable.inv ⟨_, _, run⟩
    obtain ⟨c, -, -, -, rfl⟩ | same := step.compaction inv
    · -- A compaction tells nothing and takes no put that a version counts.
      have silent : (s.compactedAt c).broadcast = s.broadcast := rfl
      rw [silent, List.drop_length, List.append_nil, content_compactedAt inv]
      refine ih.compacted inv.content fun key g last isOpen => ?_
      cases known : s.index[key]? with
      | none => simp [Content.gens, Store.content, known] at last
      | some gens =>
        have own : s.content.gens key = gens := by simp [Content.gens, Store.content, known]
        exact gentle key gens g known (own ▸ last) isOpen
    · refine Moves.calm (P := fun told s => Counted (eventsOf told) s.content)
        (fun {_ s _ _ _} inv holds move same => ?_) inv (step.moves inv) same ih
      rw [eventsOf_append]
      refine move.told_invariant .write inv holds fun c later compacted => ?_
      rw [compacted] at same
      exact absurd same later.ne'

/-- In a gentle run the version of a put is one more than the puts told since its key was last
created, and than the version of the record it replaced; it is the version in the tables as long as
the put is above the compaction revision. -/
theorem GentleRun.versions {told : List EventBatch} {s : Store} (run : GentleRun told s)
    {before after : List (Int × MvccEvent)} {rev : Int} {e : MvccEvent}
    (here : toldEvents told = before ++ (rev, e) :: after) (put : e.kind = .put) :
    e.kv.version = putsSince e.kv.key (before.map Prod.snd) + 1 ∧
      e.prevKv = liveAfter e.kv.key (before.map Prod.snd) ∧
      e.kv.version = (e.prevKv.map KvRecord.version).getD 0 + 1 ∧
      (s.writeState.compactRev < rev →
        ∃ sub, s.engine.kv[KvKey.mk e.kv.key ⟨rev, sub⟩]? = some e.kv) := by
  obtain ⟨effects, plain⟩ := run.run
  have events : eventsOf told = before.map Prod.snd ++ e :: after.map Prod.snd := by
    rw [eventsOf_eq, here, List.map_append, List.map_cons]
  have at_ : (eventsOf told)[before.length]? = some e := by simp [events]
  have upto : (eventsOf told).take before.length = before.map Prod.snd := by simp [events]
  have law := run.counted.law _ e at_ put
  have prev := plain.heard.prev _ e at_
  rw [upto] at law prev
  refine ⟨law.1, prev, law.2, fun above => ?_⟩
  obtain ⟨log, ledger⟩ := plain.ledger
  have mem : (rev, e) ∈ toldEvents told := by simp [here]
  rw [ledger.told] at mem
  obtain ⟨w, logged, same⟩ := List.mem_map.mp mem
  obtain ⟨rfl, rfl⟩ := Prod.mk.inj same
  exact ⟨w.rev.sub, ledger.stored logged above⟩

/-- Two puts, a compaction at the first, and a third put. -/
theorem GentleRun.versions_compacted :
    let put (v : UInt8) : Mutation := .put [107] [v] 0 false false false
    let s := (((Store.open Tables.empty).apply [put 1] true).2.apply [put 2] true).2
    let t := ((s.compact 1 true).2.apply [put 3] true).2
    ∃ (before : List (Int × MvccEvent)) (e : MvccEvent),
      toldEvents t.broadcast = before ++ [(3, e)] ∧ e.kv.version = 3 ∧
      e.kv.version = putsSince e.kv.key (before.map Prod.snd) + 1 ∧
      e.prevKv = liveAfter e.kv.key (before.map Prod.snd) ∧
      e.kv.version = (e.prevKv.map KvRecord.version).getD 0 + 1 := by
  intro put s t
  have run := GentleRun.step (.step (.step (.step .start (.apply [put 1] true) (by decide +kernel))
    (.apply [put 2] true) (by decide +kernel)) (.compact 1 true) (by decide +kernel))
    (.apply [put 3] true) (by decide +kernel)
  have here : toldEvents t.broadcast = (toldEvents t.broadcast).dropLast ++
      [(3, ⟨.put, ⟨[107], [3], 1, 3, 3, 0, false⟩, some ⟨[107], [2], 1, 2, 2, 0, false⟩⟩)] := by
    decide +kernel
  obtain ⟨count, prev, next, -⟩ := GentleRun.versions run here rfl
  exact ⟨_, _, here, rfl, count, prev, next⟩

/-- A compaction that takes two of three puts sets the version back. -/
theorem compaction_lowers_version :
    ∃ effects told s, Run effects told s ∧
      (eventsOf told).map (fun e => (e.kv.key, e.kind, e.kv.version,
        e.prevKv.map KvRecord.version)) =
        [([107], .put, 1, none), ([107], .put, 2, some 1), ([107], .put, 3, some 2),
          ([107], .put, 2, some 3)] := by
  let put (v : UInt8) : Mutation := .put [107] [v] 0 false false false
  exact ⟨_, _, _, .step (.step (.step (.step (.step .start (.apply [put 1] true))
    (.apply [put 2] true)) (.apply [put 3] true)) (.compact 3 true)) (.apply [put 4] true),
    by decide +kernel⟩

end Fastetcd.Mvcc
