import Fastetcd.Server.Watch

/-!
# What the steps of a stream do

Every step either leaves the map of watchers alone, moves cursors, takes a watcher out, or puts in the
one of a create (`MapChange`). A task leaves the state of the others alone (`ForwarderFrame`,
`InboundFrame`). A create in progress goes on (`Goes`) until its watcher is in the map or it is
cancelled.
-/

namespace Fastetcd.Server.Watch

open Mvcc
open Std (ExtTreeMap LawfulEqCmp)

namespace Machine

variable {wire : Wire} {m m' : Machine}

/-! ## What a step does to the map -/

/-- How a step from `m` to `m'` leaves the map. -/
inductive MapChange (m m' : Machine) : Prop
  | same (eq : m'.watchers = m.watchers)
  | advanced (b : EventBatch) (eq : m'.watchers = m.watchers.map fun _ w => advance b w)
  | moved {id : WatchId} {w : Watcher} (here : m.watchers[id]? = some w) (nextRev : Int)
      (eq : m'.watchers = m.watchers.insert id { w with nextRev })
  | removed (id : WatchId) (eq : m'.watchers = m.watchers.erase id)
  | inserted {id : WatchId} {w : Watcher} (at_ : m.inbound = .inserting id w)
      (eq : m' = m.insert id w)

/-- What receiving leaves alone. -/
theorem receive_frame (m : Machine) (item : Received) (rest : List Received) :
    ∃ forwarder lastRev, m.receive item rest = { m with channel := rest, forwarder, lastRev } := by
  cases item with
  | lagged => exact ⟨_, _, rfl⟩
  | batch b =>
    unfold receive
    dsimp only
    split
    · exact ⟨_, _, rfl⟩
    · split <;> exact ⟨_, _, rfl⟩

theorem resynced_mapChange (wire : Wire) {id : WatchId} {w : Watcher}
    (here : m.watchers[id]? = some w) (upto : Int) (todo : List WatchId)
    (cancelled : List (WatchId × Int × CancelReason)) (outcome : Replay) :
    MapChange m (m.resynced wire upto todo cancelled id w outcome) := by
  cases outcome with
  | done events => exact .moved here (upto + 1) rfl
  | compacted compactRev => exact .same rfl
  | failed e => exact .same rfl

theorem replayed_watchers (wire : Wire) (m : Machine) (create : WatchCreateRequest) (current : Int)
    (id : WatchId) (w : Watcher) (outcome : Replay) :
    (m.replayed wire create current id w outcome).watchers = m.watchers := by
  cases outcome <;> rfl

theorem acknowledge_watchers (m : Machine) (create : WatchCreateRequest) (current compactRev : Int) :
    (m.acknowledge create current compactRev).watchers = m.watchers := by
  unfold acknowledge
  dsimp only
  split <;> rfl

theorem ForwarderStep.mapChange (step : ForwarderStep wire m m') : MapChange m m' := by
  cases step with
  | @receive item rest =>
    obtain ⟨forwarder, lastRev, received⟩ := receive_frame m item rest
    rw [received]
    exact .same rfl
  | deliver => exact .advanced _ rfl
  | check _ here _ =>
    split
    · exact resynced_mapChange wire here _ _ _ _
    · exact .same rfl
  | read _ here => exact resynced_mapChange wire here _ _ _ _
  | cancel => exact .removed _ rfl
  | delivered | resync | replay | load | finish => exact .same rfl

theorem InboundStep.mapChange (step : InboundStep wire m m') : MapChange m m' := by
  cases step with
  | acknowledge => exact .same (acknowledge_watchers m _ _ _)
  | check =>
    split
    · exact .same (replayed_watchers wire m _ _ _ _ _)
    · exact .same rfl
  | read => exact .same (replayed_watchers wire m _ _ _ _ _)
  | insert at_ => exact .inserted at_ rfl
  | cancel => exact .removed _ rfl
  | create | deny | load | cancelled | progress | progressed => exact .same rfl

theorem Step.mapChange (step : Step wire m m') : MapChange m m' := by
  cases step with
  | store step => cases step <;> exact .same rfl
  | forwarder step => exact step.mapChange
  | inbound step => exact step.mapChange
  | ticker step => cases step <;> exact .same rfl
  | send => exact .same rfl

/-- A watcher keeps everything but its cursor, unless it is taken out or a create puts its own watcher
in its place. -/
theorem MapChange.kept (change : MapChange m m') {id : WatchId} {w : Watcher}
    (here : m.watchers[id]? = some w) :
    m'.watchers[id]? = none ∨ (∃ nextRev, m'.watchers[id]? = some { w with nextRev }) ∨
      ∃ w', m.inbound = .inserting id w' := by
  cases change with
  | same eq => exact .inr (.inl ⟨w.nextRev, eq ▸ here⟩)
  | advanced b eq =>
    rw [eq, ExtTreeMap.getElem?_map, here, Option.map_some]
    refine .inr (.inl ?_)
    unfold advance
    split
    · exact ⟨w.nextRev, rfl⟩
    · exact ⟨b.revision + 1, rfl⟩
  | @moved other v found nextRev eq =>
    rw [eq, ExtTreeMap.getElem?_insert]
    split
    · next same =>
      rw [LawfulEqCmp.compare_eq_iff_eq] at same
      subst same
      obtain rfl := Option.some.inj (found.symm.trans here)
      exact .inr (.inl ⟨nextRev, rfl⟩)
    · exact .inr (.inl ⟨w.nextRev, here⟩)
  | removed other eq =>
    rw [eq, ExtTreeMap.getElem?_erase]
    split
    · exact .inl rfl
    · exact .inr (.inl ⟨w.nextRev, here⟩)
  | @inserted other v at_ eq =>
    rw [eq, insert, ExtTreeMap.getElem?_insert]
    split
    · next same =>
      rw [LawfulEqCmp.compare_eq_iff_eq] at same
      subst same
      exact .inr (.inr ⟨v, at_⟩)
    · exact .inr (.inl ⟨w.nextRev, here⟩)

/-- A watcher of the new map was there before, or a create puts it in. -/
theorem MapChange.origin (change : MapChange m m') {id : WatchId} {w : Watcher}
    (here : m'.watchers[id]? = some w) :
    (∃ nextRev, m.watchers[id]? = some { w with nextRev }) ∨
      m.inbound = .inserting id w ∧ m' = m.insert id w := by
  cases change with
  | same eq => exact .inl ⟨w.nextRev, eq ▸ here⟩
  | advanced b eq =>
    rw [eq, ExtTreeMap.getElem?_map, Option.map_eq_some_iff] at here
    obtain ⟨v, found, rfl⟩ := here
    refine .inl ⟨v.nextRev, found.trans ?_⟩
    unfold advance
    split <;> rfl
  | @moved other v found nextRev eq =>
    rw [eq, ExtTreeMap.getElem?_insert] at here
    split at here
    · next same =>
      rw [LawfulEqCmp.compare_eq_iff_eq] at same
      subst same
      obtain rfl := Option.some.inj here
      exact .inl ⟨v.nextRev, found⟩
    · exact .inl ⟨w.nextRev, here⟩
  | removed other eq =>
    rw [eq, ExtTreeMap.getElem?_erase] at here
    split at here
    · cases here
    · exact .inl ⟨w.nextRev, here⟩
  | @inserted other v at_ eq =>
    rw [eq, insert, ExtTreeMap.getElem?_insert] at here
    split at here
    · next same =>
      rw [LawfulEqCmp.compare_eq_iff_eq] at same
      subst same
      obtain rfl := Option.some.inj here
      exact .inr ⟨at_, eq⟩
    · exact .inl ⟨w.nextRev, here⟩

/-! ## What the forwarder leaves alone -/

/-- What the forwarder leaves alone. -/
structure ForwarderFrame (m m' : Machine) : Prop where
  store : m'.store = m.store
  told : m'.told = m.told
  unsent : m'.unsent = m.unsent
  inbound : m'.inbound = m.inbound
  sent : m'.sent = m.sent
  acks : m'.acks = m.acks
  used : m'.used = m.used
  nextAutoId : m'.nextAutoId = m.nextAutoId
  outInbound : m'.out .inbound = m.out .inbound
  outTicker : m'.out .ticker = m.out .ticker

theorem resynced_frame (wire : Wire) (m : Machine) (upto : Int) (todo : List WatchId)
    (cancelled : List (WatchId × Int × CancelReason)) (id : WatchId) (w : Watcher)
    (outcome : Replay) : ForwarderFrame m (m.resynced wire upto todo cancelled id w outcome) := by
  cases outcome <;> exact ⟨rfl, rfl, rfl, rfl, rfl, rfl, rfl, rfl, rfl, rfl⟩

theorem ForwarderStep.frame (step : ForwarderStep wire m m') : ForwarderFrame m m' := by
  cases step with
  | @receive item rest =>
    obtain ⟨forwarder, lastRev, received⟩ := receive_frame m item rest
    rw [received]
    exact ⟨rfl, rfl, rfl, rfl, rfl, rfl, rfl, rfl, rfl, rfl⟩
  | check =>
    split
    · exact resynced_frame wire m _ _ _ _ _ _
    · exact ⟨rfl, rfl, rfl, rfl, rfl, rfl, rfl, rfl, rfl, rfl⟩
  | read => exact resynced_frame wire m _ _ _ _ _ _
  | _ => exact ⟨rfl, rfl, rfl, rfl, rfl, rfl, rfl, rfl, rfl, rfl⟩

/-! ## Creates -/

/-- The watcher of a create that is acknowledged and not in the map yet. -/
def pending (m : Machine) : Option (WatchId × Watcher) :=
  match m.inbound with
  | .replaying _ _ id w _ | .inserting id w => some (id, w)
  | .waiting | .creating _ _ | .cancelling _ _ _ | .progressing => none

theorem replayed_pending (wire : Wire) (m : Machine) (create : WatchCreateRequest) (current : Int)
    {id other : WatchId} {w v : Watcher} (outcome : Replay)
    (waits : (m.replayed wire create current id w outcome).pending = some (other, v)) :
    other = id ∧ ∃ nextRev, v = { w with nextRev } := by
  cases outcome with
  | done events =>
    obtain ⟨rfl, rfl⟩ := Prod.mk.inj (Option.some.inj waits)
    exact ⟨rfl, _, rfl⟩
  | compacted compactRev => cases waits
  | failed e => cases waits

theorem acknowledge_cases (m : Machine) (create : WatchCreateRequest) (current compactRev : Int) :
    (m.acknowledge create current compactRev).nextAutoId = (m.nextId create).2 ∧
      ((m.acknowledge create current compactRev).acks = m.acks ∧
          (m.acknowledge create current compactRev).pending = none ∨
        (m.acknowledge create current compactRev).acks =
            m.acks ++ [((m.nextId create).1, create.watcher current m.sent.length)] ∧
          (m.acknowledge create current compactRev).pending =
            some ((m.nextId create).1, create.watcher current m.sent.length)) := by
  unfold acknowledge
  dsimp only
  split
  · exact ⟨rfl, .inl ⟨rfl, rfl⟩⟩
  · exact ⟨rfl, .inr ⟨rfl, rfl⟩⟩

/-- The create in progress goes on from `m` to `m'`, if it is still there. -/
def Goes (m m' : Machine) : Prop :=
  m'.acks = m.acks ∧ m'.nextAutoId = m.nextAutoId ∧
    ∀ id v, m'.pending = some (id, v) → ∃ w nextRev, m.pending = some (id, w) ∧
      v = { w with nextRev }

theorem Goes.of_inbound (inbound : m'.inbound = m.inbound) (acks : m'.acks = m.acks)
    (auto : m'.nextAutoId = m.nextAutoId) : Goes m m' := by
  refine ⟨acks, auto, fun id v waits => ⟨v, v.nextRev, ?_, rfl⟩⟩
  rw [← waits, pending, pending, inbound]

theorem goes_replayed (wire : Wire) {create : WatchCreateRequest} {current : Int} {id : WatchId}
    {w : Watcher} (waits : m.pending = some (id, w)) (outcome : Replay) :
    Goes m (m.replayed wire create current id w outcome) := by
  refine ⟨by cases outcome <;> rfl, by cases outcome <;> rfl, fun other v there => ?_⟩
  obtain ⟨rfl, nextRev, rfl⟩ := replayed_pending wire m create current outcome there
  exact ⟨w, nextRev, waits, rfl⟩

/-- What a step does to the create in progress: it goes on, or it is acknowledged. -/
theorem Step.pending_cases (step : Step wire m m') :
    Goes m m' ∨ ∃ create current compactRev, m.inbound = .creating create current ∧
      m' = m.acknowledge create current compactRev := by
  have waits {create current id w reading}
      (at_ : m.inbound = .replaying create current id w reading) : m.pending = some (id, w) := by
    rw [pending, at_]
  cases step with
  | store step => cases step <;> exact .inl (.of_inbound rfl rfl rfl)
  | forwarder step =>
    have frame := step.frame
    exact .inl (.of_inbound frame.inbound frame.acks frame.nextAutoId)
  | ticker step => cases step <;> exact .inl (.of_inbound rfl rfl rfl)
  | send => exact .inl (.of_inbound rfl rfl rfl)
  | inbound step =>
    cases step with
    | acknowledge at_ => exact .inr ⟨_, _, _, at_, rfl⟩
    | deny => exact .inl (.of_inbound rfl rfl rfl)
    | @check create current id w view at_ _ _ =>
      refine .inl ?_
      split
      · exact goes_replayed wire (waits at_) _
      · exact ⟨rfl, rfl, fun other v there => ⟨v, v.nextRev, (waits at_).trans there, rfl⟩⟩
    | load at_ =>
      exact .inl ⟨rfl, rfl, fun other v there => ⟨v, v.nextRev, (waits at_).trans there, rfl⟩⟩
    | read at_ => exact .inl (goes_replayed wire (waits at_) _)
    | create | insert | cancel | cancelled | progress | progressed =>
      exact .inl ⟨rfl, rfl, fun id v there => nomatch there⟩

end Machine

end Fastetcd.Server.Watch
