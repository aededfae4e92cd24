import Fastetcd.Laws.Mvcc.LeaseGuarantees
import Fastetcd.Laws.Server.WatchSteps

/-!
# The ids of a stream's watchers

A create takes the id the client chose, or the next of a counter that knows nothing of the map. So
the ids the counter gives are fresh among themselves, and they collide with an id some client chose.
-/

namespace Fastetcd.Server.Watch

open Mvcc

namespace Machine

variable {wire : Wire} {m m' : Machine}

/-- A create that is about to get its id gets a fresh one: the id the client chose is not live, or the
next of the counter is no live watcher's whose id a client chose, and the counter has not run out. -/
def FreshIds (m : Machine) : Prop :=
  ∀ create current, m.inbound = .creating create current →
    (create.watchId > 0 → m.watchers[create.watchId]? = none) ∧
    (¬create.watchId > 0 → m.nextAutoId ≠ Int64.maxValue ∧
      ∀ w, m.watchers[m.nextAutoId + 1]? = some w → w.chosen = false)

/-- Every id the counter gave is at or below it, and the create in progress has an id of its own. -/
structure Ids (m : Machine) : Prop where
  counted : ∀ (id : WatchId) (w : Watcher), m.watchers[id]? = some w → w.chosen = false → id.toInt ≤ m.nextAutoId.toInt
  waiting : ∀ id w, m.pending = some (id, w) →
    m.watchers[id]? = none ∧ (w.chosen = false → id.toInt ≤ m.nextAutoId.toInt)

theorem Ids.nextId (ids : Ids m) (fresh : FreshIds m) {create : WatchCreateRequest} {current : Int}
    (at_ : m.inbound = .creating create current) :
    m.watchers[(m.nextId create).1]? = none ∧ m.nextAutoId.toInt ≤ (m.nextId create).2.toInt ∧
      (¬create.watchId > 0 → (m.nextId create).1.toInt ≤ (m.nextId create).2.toInt) := by
  obtain ⟨chosen, counted⟩ := fresh create current at_
  unfold Machine.nextId
  by_cases own : create.watchId > 0
  · rw [if_pos own]
    exact ⟨chosen own, le_rfl, fun auto => absurd own auto⟩
  · rw [if_neg own]
    obtain ⟨room, free⟩ := counted own
    have next := toInt_succ room
    refine ⟨?_, by dsimp only; omega, fun _ => le_rfl⟩
    cases live : m.watchers[m.nextAutoId + 1]? with
    | none => rfl
    | some w =>
      -- An id the counter gave is not above it.
      have := ids.counted _ w live (free w live)
      omega

theorem Ids.step (ids : Ids m) (fresh : FreshIds m) (step : Step wire m m') : Ids m' := by
  have change := step.mapChange
  rcases step.pending_cases with ⟨-, auto, goes⟩ | ⟨create, current, compactRev, at_, rfl⟩
  · refine ⟨fun id w live given => ?_, fun id v waits => ?_⟩
    · rw [auto]
      rcases change.origin live with ⟨nextRev, before⟩ | ⟨inserting, -⟩
      · exact ids.counted id _ before given
      · exact (ids.waiting id w (by rw [pending, inserting])).2 given
    · obtain ⟨w, nextRev, before, rfl⟩ := goes id v waits
      rw [auto]
      obtain ⟨absent, given⟩ := ids.waiting id w before
      refine ⟨?_, given⟩
      cases live : m'.watchers[id]? with
      | none => rfl
      | some v =>
        rcases change.origin live with ⟨nextRev, there⟩ | ⟨-, rfl⟩
        · cases absent.symm.trans there
        · -- A step that inserts ends the create.
          cases waits
  · obtain ⟨absent, grown, given⟩ := ids.nextId fresh at_
    obtain ⟨auto, acked⟩ := acknowledge_cases m create current compactRev
    refine ⟨fun id w live counted => ?_, fun id v waits => ?_⟩
    · rw [acknowledge_watchers] at live
      rw [auto]
      exact (ids.counted id w live counted).trans grown
    · rcases acked with ⟨-, none⟩ | ⟨-, some⟩
      · cases none.symm.trans waits
      · obtain ⟨rfl, rfl⟩ := Prod.mk.inj (Option.some.inj (some.symm.trans waits))
        rw [acknowledge_watchers, auto]
        refine ⟨absent, fun counted => given ?_⟩
        simpa [WatchCreateRequest.watcher] using counted

theorem Reaches.ids (run : Reaches wire FreshIds m) : Ids m := by
  induction run with
  | start => exact ⟨fun id w live => by simp [Machine.start] at live, fun id w waits => nomatch waits⟩
  | step _ fine step ih => exact ih.step fine step

/-- On a stream whose creates get fresh ids, no create is acknowledged with the id of a live watcher,
and no step does more to a live watcher than to move its cursor or take it out. -/
theorem created_ids_unique (run : Reaches wire FreshIds m) (fresh : FreshIds m)
    (step : Step wire m m') :
    (∀ id w, m'.acks = m.acks ++ [(id, w)] → m.watchers[id]? = none) ∧
    ∀ (id : WatchId) w, m.watchers[id]? = some w →
      m'.watchers[id]? = none ∨ ∃ nextRev, m'.watchers[id]? = some { w with nextRev } := by
  have ids := run.ids
  refine ⟨fun id w acked => ?_, fun id w live => ?_⟩
  · rcases step.pending_cases with ⟨none, -⟩ | ⟨create, current, compactRev, at_, rfl⟩
    · simp [none] at acked
    · rcases (acknowledge_cases m create current compactRev).2 with ⟨none, -⟩ | ⟨more, -⟩
      · simp [none] at acked
      · obtain ⟨rfl, -⟩ : (m.nextId create).1 = id ∧ _ = w := by simpa [more] using acked
        exact (ids.nextId fresh at_).1
  · rcases step.mapChange.kept live with gone | moved | ⟨w', inserting⟩
    · exact .inl gone
    · exact .inr moved
    · have absent := (ids.waiting id w' (by rw [pending, inserting])).1
      cases absent.symm.trans live

/-- No response is ever split. -/
def shortWire : Wire := { encodedLen := fun _ => 0 }

/-- A client takes id 7 while the counter's first id is live. -/
theorem created_ids_unique_chosen :
    ∃ m m', Step shortWire m m' ∧ (∃ w, m'.acks = m.acks ++ [(7, w)]) ∧
      (∃ w, m.watchers[(1 : WatchId)]? = some w ∧ w.key = [97]) ∧
      ((∀ id w, m'.acks = m.acks ++ [(id, w)] → m.watchers[id]? = none) ∧
        ∀ (id : WatchId) w, m.watchers[id]? = some w →
          m'.watchers[id]? = none ∨ ∃ nextRev, m'.watchers[id]? = some { w with nextRev }) := by
  have fresh : FreshIds (start (Store.open Tables.empty) [] [] []) := fun _ _ at_ => nomatch at_
  have r0 : Reaches shortWire FreshIds (start (Store.open Tables.empty) [] [] []) :=
    .start .start (by simp) (by simp)
  have r1 := r0.step fresh (.inbound (.create { key := [97] } rfl rfl rfl))
  have r2 := r1.step (by
    rintro _ _ ⟨⟩
    exact ⟨by decide, fun _ => ⟨by decide, fun w live => by simp [Machine.start] at live⟩⟩)
    (.inbound (.acknowledge rfl .published))
  have r3 := r2.step (fun _ _ at_ => nomatch at_) (.send .inbound rfl)
  have r4 := r3.step (fun _ _ at_ => nomatch at_) (.inbound (.check rfl rfl .published))
  have r5 := r4.step (fun _ _ at_ => nomatch at_) (.inbound (.insert rfl rfl))
  have r6 := r5.step (fun _ _ at_ => nomatch at_)
    (.inbound (.create { key := [98], watchId := 7 } rfl rfl rfl))
  refine ⟨_, _, .inbound (.acknowledge rfl .published), ⟨_, rfl⟩, ⟨_, rfl, rfl⟩,
    created_ids_unique r6 ?_ (.inbound (.acknowledge rfl .published))⟩
  rintro _ _ ⟨⟩
  exact ⟨fun _ => by decide +kernel, fun auto => absurd (by decide) auto⟩

/-- A client chooses id 1 for a watcher of `a`. The next create, of `b`, leaves the choice to the
server: it is acknowledged with id 1 as well, and its watcher takes the other's place. -/
theorem counter_meets_chosen_id :
    ∃ m m' m'' : Machine, Reaches shortWire (fun _ => True) m ∧ Step shortWire m m' ∧
      Reaches shortWire (fun _ => True) m'' ∧
      (m'.acks.drop m.acks.length).map (fun ack => (ack.1, ack.2.key)) = [(1, [98])] ∧
      m.watchers[(1 : WatchId)]?.map Watcher.key = some [97] ∧
      m''.watchers[(1 : WatchId)]?.map Watcher.key = some [98] := by
  have r0 : Reaches shortWire (fun _ => True) (start (Store.open Tables.empty) [] [] []) :=
    .start .start (by simp) (by simp)
  have r1 := r0.step trivial (.inbound (.create { key := [97], watchId := 1 } rfl rfl rfl))
  have r2 := r1.step trivial (.inbound (.acknowledge rfl .published))
  have r3 := r2.step trivial (.send .inbound rfl)
  have r4 := r3.step trivial (.inbound (.check rfl rfl .published))
  have r5 := r4.step trivial (.inbound (.insert rfl rfl))
  have r6 := r5.step trivial (.inbound (.create { key := [98] } rfl rfl rfl))
  have r7 := r6.step trivial (.inbound (.acknowledge rfl .published))
  have r8 := r7.step trivial (.send .inbound rfl)
  have r9 := r8.step trivial (.inbound (.check rfl rfl .published))
  have r10 := r9.step trivial (.inbound (.insert rfl rfl))
  exact ⟨_, _, _, r6, .inbound (.acknowledge rfl .published), r10, by decide +kernel, by decide +kernel,
    by decide +kernel⟩

end Machine

end Fastetcd.Server.Watch
