import Fastetcd.Laws.Mvcc.WatchHistory
import Fastetcd.Server.Watch

/-!
# History reads against compaction

A reader of history loads the revisions, refuses what is compacted, and only then takes the snapshot
it scans. The store steps in between. Writes do no harm: the window ends at the revision that was
loaded. A compaction that commits in between does, unless it stays at or below the start of the window
or the reader already saw the raised floor (`Undisturbed`): otherwise the scan finds the rows gone and
the read succeeds without them.
-/

namespace Fastetcd.Server.Watch

open Mvcc

/-- The outcome of a history read is every event told in the window, or that it is compacted. -/
def Whole (told : List EventBatch) (key rangeEnd : Bytes) (start stop : Int) :
    Except MvccError (List MvccEvent) → Prop
  | .ok events => events.map MvccEvent.bare =
      (eventsWithin key rangeEnd start stop (toldEvents told)).map MvccEvent.bare
  | .error e => ∃ compactRev, e = .compacted start compactRev

/-- The same for a watcher's replay up to `upto`, by a reader that loaded the revision `current`. -/
def ReplayWhole (told : List EventBatch) (w : Watcher) (upto current : Int) : Replay → Prop
  | .done events => events.map MvccEvent.bare =
      (eventsWithin w.key w.rangeEnd (w.nextRev - 1) (min upto current) (toldEvents told)).map
        MvccEvent.bare
  | .compacted _ => True
  | .failed _ => False

/-- No compaction above `start` committed between the load of `view` and the snapshot of `t`, or the
load saw its floor. Nothing is told at a revision below 1. -/
def Undisturbed (view : ReadView) (t : Store) (start : Int) : Prop :=
  t.writeState.compactRev ≤ max start 0 ∨ start < view.compact ∧ 0 < view.compact

section Reads

variable {effects : List Mvcc.Replay.Effect} {told : List EventBatch} {t : Store} {view : ReadView}

theorem rangeEvents_whole (run : Run effects told t) (key rangeEnd : Bytes) {start : Int}
    (undisturbed : Undisturbed view t start) (stop : Int) :
    Whole told key rangeEnd start (min stop view.current)
      ((t.behind view).rangeEventsUntil key rangeEnd start stop) := by
  have inv : t.Inv := Reachable.inv ⟨effects, told, run⟩
  by_cases refused : start < view.compact ∧ view.compact > 0
  · have answer : (t.behind view).rangeEventsUntil key rangeEnd start stop =
        .error (.compacted start view.compact) := if_pos refused
    rw [answer]
    exact ⟨view.compact, rfl⟩
  · obtain ⟨log, here⟩ := run.ledger
    have floor : t.writeState.compactRev ≤ max start 0 :=
      undisturbed.resolve_right refused
    have above (w : Reference.Write) (mem : w ∈ log) (late : start < w.rev.main) :
        t.writeState.compactRev < w.rev.main := by
      have := here.positive run.numbered mem
      omega
    rw [here.rangeEvents_behind inv key rangeEnd floor above stop refused, Whole,
      here.eventsWithin, List.map_map, List.map_map]
    rfl

theorem replayHistory_whole (run : Run effects told t) {w : Watcher} {loaded : Int}
    (undisturbed : Undisturbed view t (w.nextRev - 1) ∨ w.nextRev < loaded) (upto : Int) :
    ReplayWhole told w upto view.current (replayHistory loaded (t.behind view) w upto) := by
  unfold replayHistory replayCheck
  split
  · next past =>
    -- The window is empty.
    have none : eventsWithin w.key w.rangeEnd (w.nextRev - 1) (min upto view.current)
        (toldEvents told) = [] := by
      rw [eventsWithin, List.filter_eq_nil_iff.mpr fun e _ inside => ?_, List.map_nil]
      have := of_decide_eq_true inside
      omega
    rw [Option.getD_some, ReplayWhole, none]
  · split
    · trivial
    · next late =>
      have whole := rangeEvents_whole run w.key w.rangeEnd (undisturbed.resolve_right late) upto
      rw [Option.getD_none, replayRead]
      generalize (t.behind view).rangeEventsUntil w.key w.rangeEnd (w.nextRev - 1) upto = answer
        at whole
      cases answer with
      | ok events => exact whole
      | error e =>
        obtain ⟨compactRev, rfl⟩ := whole
        trivial

end Reads

/-- A history read and a watcher's replay, whose revisions `view` were loaded at any moment before the
snapshot of `t`: unless a compaction disturbed them, each reports that the window is compacted or
returns all of it, up to the current revision it loaded. -/
theorem history_reads_whole {effects : List Mvcc.Replay.Effect} {told : List EventBatch} {t : Store}
    (run : Run effects told t) (view : ReadView) :
    (∀ key rangeEnd start stop, Undisturbed view t start →
      Whole told key rangeEnd start (min stop view.current)
        ((t.behind view).rangeEventsUntil key rangeEnd start stop)) ∧
    ∀ (w : Watcher) loaded upto, Undisturbed view t (w.nextRev - 1) ∨ w.nextRev < loaded →
      ReplayWhole told w upto view.current (replayHistory loaded (t.behind view) w upto) :=
  ⟨fun key rangeEnd _ stop undisturbed => rangeEvents_whole run key rangeEnd undisturbed stop,
    fun _ _ upto undisturbed => replayHistory_whole run undisturbed upto⟩

/-- Two puts of the key `a`. -/
def twicePut : Store :=
  (((Store.open Tables.empty).apply [.put [97] [1] 0 false false false] true).2.apply
    [.put [97] [2] 0 false false false] true).2

theorem twicePut_run : ∃ effects, Run effects twicePut.broadcast twicePut :=
  ⟨_, .step (.step .start (.apply [.put [97] [1] 0 false false false] true))
    (.apply [.put [97] [2] 0 false false false] true)⟩

/-- A compaction at the start of the window commits between the check and the snapshot. -/
theorem history_reads_whole_compacted :
    let s := twicePut
    let t := (s.compact 1 true).2
    Undisturbed s.view t 1 ∧
      Whole s.broadcast [97] [] 1 (min 9 s.view.current)
        ((t.behind s.view).rangeEventsUntil [97] [] 1 9) := by
  obtain ⟨effects, run⟩ := twicePut_run
  have calm : Undisturbed twicePut.view (twicePut.compact 1 true).2 1 := .inl (by decide +kernel)
  have compacted := run.step (.compact 1 true)
  have silent : (twicePut.compact 1 true).2.broadcast.drop twicePut.broadcast.length = [] := by
    decide +kernel
  rw [silent, List.append_nil] at compacted
  exact ⟨calm, (history_reads_whole compacted twicePut.view).1 [97] [] 1 9 calm⟩

/-- The reader loads the revisions, the store compacts at 2, the reader takes its snapshot: the read,
and the replay of a watcher from revision 1 on, succeed without the event of revision 1. -/
theorem compaction_slips_under_history_read :
    let s := twicePut
    let t := (s.compact 2 true).2
    let w := ({ key := [97], startRevision := 1 } : WatchCreateRequest).watcher 2 0
    (∃ effects, Run effects s.broadcast s) ∧ Visible s s.view ∧ Step s [] t ∧
      (∃ events, (t.behind s.view).rangeEventsUntil [97] [] 0 9 = .ok events ∧
        replayHistory s.view.compact (t.behind s.view) w 2 = .done events ∧
        events.map (·.kv.modRevision) = [2]) ∧
      (eventsWithin [97] [] 0 (min 9 s.view.current) (toldEvents s.broadcast)).map
        (·.kv.modRevision) = [1, 2] :=
  ⟨twicePut_run, .published, .compact 2 true,
    ⟨[⟨.put, ⟨[97], [2], 1, 2, 2, 0, false⟩, none⟩], by decide +kernel, by decide +kernel, rfl⟩,
    by decide +kernel⟩

end Fastetcd.Server.Watch
