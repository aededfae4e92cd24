import Fastetcd.Mvcc.History
import Fastetcd.Mvcc.Run

/-!
# Watch streams (`server/src/watch.rs`)

A stream has a map of watchers under a lock, and three tasks that put responses on it. The forwarder
receives the store's batches and hands each watcher the events it selects. When it missed some, because
the channel lagged or a batch does not follow the last one, it reads them back from history. The
inbound task serves the client's requests: a create replays history from the revision it asks for.
The ticker sends progress.

The steps of a task are apart: between two of them the other tasks step, as far as the lock lets them,
and the store takes any operation. A machine keeps three things the server does not: the batches told
so far, the creates it answered, and with each watcher where it began.
-/

namespace Fastetcd.Server.Watch

open Mvcc

/-! ## Watchers -/

abbrev WatchId := Int64

structure Watcher where
  key : Bytes
  rangeEnd : Bytes
  progressNotify : Bool
  filterNoPut : Bool
  filterNoDelete : Bool
  prevKv : Bool
  fragment : Bool
  /-- The first revision this watcher has not been given. -/
  nextRev : Int
  /-- Not in the source: what `nextRev` was at first. -/
  first : Int
  /-- Not in the source: how many responses were on the stream when it was created. -/
  since : Nat
  /-- Not in the source: the client chose its id. -/
  chosen : Bool
deriving DecidableEq

namespace Watcher

def matchesKey (w : Watcher) (key : Bytes) : Bool := inRange key w.key w.rangeEnd

def passesFilter (w : Watcher) (e : MvccEvent) : Bool :=
  match e.kind with
  | .put => !w.filterNoPut
  | .delete => !w.filterNoDelete

def toPb (w : Watcher) (e : MvccEvent) : MvccEvent :=
  { e with prevKv := if w.prevKv then e.prevKv else none }

/-- What an event counts for in a replay's chunk. -/
def eventBytes (w : Watcher) (e : MvccEvent) : Nat :=
  e.kv.key.length + e.kv.value.length +
    ((e.prevKv.filter fun _ => w.prevKv).map fun p => p.key.length + p.value.length).getD 0

end Watcher

/-! ## Responses -/

/-- The texts of `cancel_reason`, each with what its `format!` prints. -/
inductive CancelReason where
  | empty
  /-- "watch revision .. has been compacted (compact_rev = ..)" -/
  | compacted (startRevision compactRev : Int)
  /-- "watch history could not be read: .." -/
  | unread (e : MvccError)
  /-- "watcher fell behind and required revision .. has been compacted (compact_rev = ..)" -/
  | behindCompacted (nextRev compactRev : Int)
  /-- "watcher fell behind and its history could not be read: .." -/
  | behindUnread (e : MvccError)
  /-- `PERMISSION_DENIED`, or what `authorize` says. -/
  | denied (text : String)
deriving DecidableEq

/-- `pb::WatchResponse`; of its header the revision. -/
structure WatchResponse where
  revision : Int
  watchId : WatchId
  created : Bool := false
  canceled : Bool := false
  compactRevision : Int := 0
  cancelReason : CancelReason := .empty
  fragment : Bool := false
  events : List MvccEvent := []
deriving DecidableEq

def eventsResponse (revision : Int) (watchId : WatchId) (events : List MvccEvent) : WatchResponse :=
  { revision, watchId, events }

/-- The response of `send_cancel`, and of `handle_cancel` with nothing to say. -/
def cancelResponse (revision : Int) (watchId : WatchId) (compactRevision : Int)
    (cancelReason : CancelReason) : WatchResponse :=
  { revision, watchId, canceled := true, compactRevision, cancelReason }

/-- Progress, for every watcher of the stream. -/
def progressResponse (revision : Int) : WatchResponse := { revision, watchId := -1 }

def deniedResponse (revision : Int) (text : String) : WatchResponse :=
  { revision, watchId := -1, created := true, canceled := true, cancelReason := .denied text }

/-! ### Fragments -/

/-- How a response is measured, and `--max-request-bytes`. -/
structure Wire where
  encodedLen : WatchResponse → Nat
  maxRequestBytes : Option Nat := none

def DEFAULT_FRAGMENT_BYTES : Nat := 3 * 512 * 1024

/-- The parts of a response: an event that makes `cur` too long is pushed back and begins the next
part. -/
def parts (tooLong : List MvccEvent → Bool) (cur : List MvccEvent) :
    List MvccEvent → List (List MvccEvent)
  | [] => if cur.isEmpty then [] else [cur]
  | ev :: events =>
    if (cur ++ [ev]).length > 1 && tooLong (cur ++ [ev]) then cur :: parts tooLong [ev] events
    else parts tooLong (cur ++ [ev]) events

/-- Every part but the last is a fragment. -/
def markParts (empty : WatchResponse) : List (List MvccEvent) → List WatchResponse
  | [] => []
  | [part] => [{ empty with events := part, fragment := false }]
  | part :: rest => { empty with events := part, fragment := true } :: markParts empty rest

def fragments (wire : Wire) (resp : WatchResponse) (max : Nat) : List WatchResponse :=
  if wire.encodedLen resp < max || resp.events.length < 2 then [resp]
  else
    let empty := { resp with events := [], fragment := true }
    markParts empty
      (parts (fun events => wire.encodedLen { empty with events } ≥ max) [] resp.events)

/-- The responses `send_events` sends. -/
def sendEvents (wire : Wire) (fragment : Bool) (resp : WatchResponse) : List WatchResponse :=
  if fragment then fragments wire resp (wire.maxRequestBytes.getD DEFAULT_FRAGMENT_BYTES) else [resp]

/-! ## History -/

def REPLAY_CHUNK_BYTES : Nat := 1 <<< 20

/-- Outcome of reading a watcher its history; `done` has the events. -/
inductive Replay where
  | done (events : List MvccEvent)
  | compacted (compactRev : Int)
  | failed (e : MvccError)
deriving DecidableEq

/-- `replay_history` before it reads history, with the compact revision it loads. -/
def replayCheck (w : Watcher) (upto compactRev : Int) : Option Replay :=
  if w.nextRev > upto then some (.done [])
  else if w.nextRev < compactRev then some (.compacted compactRev)
  else none

/-- The read of `replay_history`. -/
def replayRead (reader : Store) (w : Watcher) (upto : Int) : Replay :=
  match reader.rangeEventsUntil w.key w.rangeEnd (w.nextRev - 1) upto with
  | .ok events => .done events
  | .error (.compacted _ compactRev) => .compacted compactRev
  | .error e => .failed e

/-- What `replay_history` finds: `compactRev` is loaded first, the rest is read by `reader`. -/
def replayHistory (compactRev : Int) (reader : Store) (w : Watcher) (upto : Int) : Replay :=
  (replayCheck w upto compactRev).getD (replayRead reader w upto)

/-- The events of a replay that `w` selects, cut between revisions once a chunk is full. -/
def chunks (w : Watcher) : List MvccEvent → (chunk : List MvccEvent) → (chunkBytes : Nat) →
    (chunkRev : Int) → List (List MvccEvent)
  | [], chunk, _, _ => if chunk.isEmpty then [] else [chunk]
  | e :: events, chunk, chunkBytes, chunkRev =>
    if w.passesFilter e then
      let rev := e.kv.modRevision
      if chunkBytes ≥ REPLAY_CHUNK_BYTES ∧ rev ≠ chunkRev then
        chunk :: chunks w events [w.toPb e] (w.eventBytes e) rev
      else chunks w events (chunk ++ [w.toPb e]) (chunkBytes + w.eventBytes e) rev
    else chunks w events chunk chunkBytes chunkRev

/-- The responses of a replay that is done. -/
def replayResponses (wire : Wire) (id : WatchId) (w : Watcher) (upto : Int)
    (events : List MvccEvent) : List WatchResponse :=
  (chunks w events [] 0 0).flatMap fun chunk =>
    sendEvents wire w.fragment (eventsResponse upto id chunk)

/-! ## Requests -/

inductive FilterType where
  | noput | nodelete
deriving DecidableEq

/-- `pb::WatchCreateRequest`; a filter that is none of the two is dropped. -/
structure WatchCreateRequest where
  key : Bytes
  rangeEnd : Bytes := []
  startRevision : Int := 0
  progressNotify : Bool := false
  filters : List FilterType := []
  prevKv : Bool := false
  watchId : WatchId := 0
  fragment : Bool := false

/-- The watcher of a create at revision `current`. -/
def WatchCreateRequest.watcher (create : WatchCreateRequest) (current : Int) (since : Nat) :
    Watcher :=
  let nextRev := if create.startRevision > 0 then create.startRevision else current + 1
  { key := create.key
    rangeEnd := create.rangeEnd
    progressNotify := create.progressNotify
    filterNoPut := create.filters.contains .noput
    filterNoDelete := create.filters.contains .nodelete
    prevKv := create.prevKv
    fragment := create.fragment
    nextRev
    first := nextRev
    since
    chosen := create.watchId > 0 }

/-! ## Tasks -/

inductive Task where
  | forwarder | inbound | ticker
deriving DecidableEq

/-- What `event_rx.recv` returns. -/
inductive Received where
  | batch (b : EventBatch)
  | lagged
deriving DecidableEq

/-- How far a read of history is: nothing yet, the compact revision, the revisions. -/
inductive Reading where
  | begun
  | checked
  | viewed (view : ReadView)
deriving DecidableEq

/-- Where `forward_events` is. `received` and `missed` wait for the lock, the phases after them hold
it. -/
inductive Forwarder where
  | waiting
  | received (b : EventBatch)
  | missed
  | delivering
  | resyncing (upto : Int) (todo : List WatchId) (cancelled : List (WatchId × Int × CancelReason))
  | replaying (upto : Int) (todo : List WatchId) (cancelled : List (WatchId × Int × CancelReason))
      (id : WatchId) (reading : Reading)

/-- Where the inbound task is. A create holds the lock until its watcher is in the map. -/
inductive Inbound where
  | waiting
  | creating (create : WatchCreateRequest) (current : Int)
  | replaying (create : WatchCreateRequest) (current : Int) (id : WatchId) (w : Watcher)
      (reading : Reading)
  | inserting (id : WatchId) (w : Watcher)
  | cancelling (id : WatchId) (compactRev : Int) (reason : CancelReason)
  | progressing

def Forwarder.locks : Forwarder → Bool
  | .waiting | .received _ | .missed => false
  | .delivering | .resyncing _ _ _ | .replaying _ _ _ _ _ => true

def Inbound.locks : Inbound → Bool
  | .waiting | .cancelling _ _ _ | .progressing => false
  | .creating _ _ | .replaying _ _ _ _ _ | .inserting _ _ => true

/-- One stream and the store under it. -/
structure Machine where
  store : Store
  /-- Batches of revisions that are published and not on the channel yet. -/
  unsent : List EventBatch := []
  /-- What the forwarder is still to receive. -/
  channel : List Received := []
  watchers : Table WatchId Watcher := ∅
  nextAutoId : WatchId := 0
  forwarder : Forwarder := .waiting
  lastRev : Int
  inbound : Inbound := .waiting
  /-- The ticker found a watcher that asked for progress. -/
  notifying : Bool := false
  /-- What each task is about to send, one response after the other. -/
  out : Task → List WatchResponse := fun _ => []
  sent : List WatchResponse := []
  told : List EventBatch
  /-- Every create that was acknowledged, with its watcher as it was then. -/
  acks : List (WatchId × Watcher) := []
  /-- The id of every create that was answered. -/
  used : List WatchId := []

namespace Machine

/-- The stream of a client that subscribed and then read the revision: of what was told before, the
channel may hold batches, and others may be on their way. -/
def start (s : Store) (told unsent : List EventBatch) (channel : List Received) : Machine :=
  { store := s, told, unsent, channel, lastRev := s.view.current }

/-- No task holds the lock. -/
def free (m : Machine) : Bool := !m.forwarder.locks && !m.inbound.locks

def put (m : Machine) (task : Task) (responses : List WatchResponse) : Machine :=
  { m with out := Function.update m.out task responses }

/-! ### The store -/

/-- The store has become `t` by an operation of its own. -/
def become (m : Machine) (t : Store) : Machine :=
  let batches := t.broadcast.drop m.store.broadcast.length
  { m with store := t, told := m.told ++ batches, unsent := m.unsent ++ batches }

/-- A snapshot was installed: the store has become what the batches of `more` make of it, and none of
them is broadcast here. -/
def install (m : Machine) (t : Store) (more : List EventBatch) : Machine :=
  { m with store := t, told := m.told ++ more }

/-! ### The forwarder -/

/-- `recv` returned. -/
def receive (m : Machine) (item : Received) (rest : List Received) : Machine :=
  match item with
  | .lagged => { m with channel := rest, forwarder := .missed }
  | .batch b =>
    if b.revision ≤ m.lastRev then { m with channel := rest, forwarder := .received b }
    else if b.revision ≠ m.lastRev + 1 then { m with channel := rest, forwarder := .missed }
    else { m with channel := rest, forwarder := .received b, lastRev := b.revision }

/-- A watcher's cursor after a batch. -/
def advance (b : EventBatch) (w : Watcher) : Watcher :=
  if b.revision < w.nextRev then w else { w with nextRev := b.revision + 1 }

/-- What a watcher gets of a batch, if anything. -/
def delivery (b : EventBatch) (row : WatchId × Watcher) : Option (WatchId × Bool × List MvccEvent) :=
  let (id, w) := row
  if b.revision < w.nextRev then none
  else
    let events := (b.events.filter fun e => w.matchesKey e.kv.key && w.passesFilter e).map w.toPb
    if events.isEmpty then none else some (id, w.fragment, events)

/-- A batch goes to the watchers, in the order `rows` of the map. -/
def deliver (wire : Wire) (m : Machine) (b : EventBatch) (rows : List (WatchId × Watcher)) : Machine :=
  let responses := (rows.filterMap (delivery b)).flatMap fun d =>
    sendEvents wire d.2.1 (eventsResponse b.revision d.1 d.2.2)
  ({ m with
    watchers := m.watchers.map fun _ w => advance b w
    forwarder := .delivering }).put .forwarder responses

/-- `resync` has the lock. -/
def resync (m : Machine) : Machine :=
  let upto := m.store.view.current
  let todo := (m.watchers.toList.filter fun row => row.2.nextRev ≤ upto).map Prod.fst
  { m with forwarder := .resyncing upto todo [] }

/-- What a resync does with one watcher's history. -/
def resynced (wire : Wire) (m : Machine) (upto : Int) (todo : List WatchId)
    (cancelled : List (WatchId × Int × CancelReason)) (id : WatchId) (w : Watcher) :
    Replay → Machine
  | .done events =>
    ({ m with
      watchers := m.watchers.insert id { w with nextRev := upto + 1 }
      forwarder := .resyncing upto todo cancelled }).put .forwarder
        (replayResponses wire id w upto events)
  | .compacted compactRev =>
    { m with
      forwarder := .resyncing upto todo
        (cancelled ++ [(id, compactRev, .behindCompacted w.nextRev compactRev)]) }
  | .failed e =>
    { m with forwarder := .resyncing upto todo (cancelled ++ [(id, 0, .behindUnread e)]) }

/-- A watcher whose history is gone is cancelled. -/
def cancelBehind (m : Machine) (upto : Int) (id : WatchId) (compactRev : Int)
    (reason : CancelReason) (rest : List (WatchId × Int × CancelReason)) : Machine :=
  ({ m with watchers := m.watchers.erase id, forwarder := .resyncing upto [] rest }).put
    .forwarder [cancelResponse m.store.view.current id compactRev reason]

/-! ### The inbound task -/

/-- The id of a create and the counter after it. -/
def nextId (m : Machine) (create : WatchCreateRequest) : WatchId × WatchId :=
  if create.watchId > 0 then (create.watchId, m.nextAutoId)
  else (m.nextAutoId + 1, m.nextAutoId + 1)

/-- `handle_create` from the compact revision it loads to its acknowledgement. -/
def acknowledge (m : Machine) (create : WatchCreateRequest) (current compactRev : Int) : Machine :=
  let (id, nextAutoId) := m.nextId create
  if create.startRevision > 0 ∧ create.startRevision < compactRev then
    ({ m with nextAutoId, inbound := .waiting, used := m.used ++ [id] }).put .inbound
      [{ revision := current, watchId := id, created := true, canceled := true,
         compactRevision := compactRev, cancelReason := .compacted create.startRevision compactRev }]
  else
    let w := create.watcher current m.sent.length
    ({ m with
      nextAutoId
      inbound := .replaying create current id w .begun
      acks := m.acks ++ [(id, w)]
      used := m.used ++ [id] }).put .inbound
        [{ revision := current, watchId := id, created := true }]

/-- What a create does with its watcher's history. -/
def replayed (wire : Wire) (m : Machine) (create : WatchCreateRequest) (current : Int) (id : WatchId)
    (w : Watcher) : Replay → Machine
  | .done events =>
    ({ m with inbound := .inserting id { w with nextRev := max w.nextRev (current + 1) } }).put
      .inbound (replayResponses wire id w current events)
  | .compacted compactRev =>
    { m with inbound := .cancelling id compactRev (.compacted create.startRevision compactRev) }
  | .failed e => { m with inbound := .cancelling id 0 (.unread e) }

def insert (m : Machine) (id : WatchId) (w : Watcher) : Machine :=
  { m with watchers := m.watchers.insert id w, inbound := .waiting }

/-! ### Steps -/

/-- The store takes an operation or installs a snapshot, a batch comes to the channel, or the channel
drops its oldest and will say so. -/
inductive StoreStep (m : Machine) : Machine → Prop
  | operation {effects : List Mvcc.Replay.Effect} {t : Store} (step : Mvcc.Step m.store effects t) :
      StoreStep m (m.become t)
  | installed {effects : List Mvcc.Replay.Effect} {more : List EventBatch} {t : Store}
      (steps : Steps m.store effects more t) : StoreStep m (m.install t more)
  | broadcast {b : EventBatch} {rest : List EventBatch} (next : m.unsent = b :: rest) :
      StoreStep m { m with unsent := rest, channel := m.channel ++ [.batch b] }
  | lag (n : Nat) : StoreStep m { m with channel := .lagged :: m.channel.drop (n + 1) }

/-- A step of `forward_events`. -/
inductive ForwarderStep (wire : Wire) (m : Machine) : Machine → Prop
  | receive {item : Received} {rest : List Received} (at_ : m.forwarder = .waiting)
      (next : m.channel = item :: rest) : ForwarderStep wire m (m.receive item rest)
  | deliver {b : EventBatch} {rows : List (WatchId × Watcher)} (at_ : m.forwarder = .received b)
      (free : m.free = true) (order : rows.Perm m.watchers.toList) :
      ForwarderStep wire m (m.deliver wire b rows)
  | delivered (at_ : m.forwarder = .delivering) (flushed : m.out .forwarder = []) :
      ForwarderStep wire m { m with forwarder := .waiting }
  | resync (at_ : m.forwarder = .missed) (free : m.free = true) : ForwarderStep wire m m.resync
  | replay {upto : Int} {todo : List WatchId} {cancelled : List (WatchId × Int × CancelReason)}
      {id : WatchId} (at_ : m.forwarder = .resyncing upto todo cancelled) (mem : id ∈ todo)
      (flushed : m.out .forwarder = []) :
      ForwarderStep wire m
        { m with forwarder := .replaying upto (todo.erase id) cancelled id .begun }
  | check {upto : Int} {todo : List WatchId} {cancelled : List (WatchId × Int × CancelReason)}
      {id : WatchId} {w : Watcher} {view : ReadView}
      (at_ : m.forwarder = .replaying upto todo cancelled id .begun)
      (here : m.watchers[id]? = some w) (visible : Visible m.store view) :
      ForwarderStep wire m (match replayCheck w upto view.compact with
        | some outcome => m.resynced wire upto todo cancelled id w outcome
        | none => { m with forwarder := .replaying upto todo cancelled id .checked })
  | load {upto : Int} {todo : List WatchId} {cancelled : List (WatchId × Int × CancelReason)}
      {id : WatchId} {view : ReadView}
      (at_ : m.forwarder = .replaying upto todo cancelled id .checked)
      (visible : Visible m.store view) :
      ForwarderStep wire m { m with forwarder := .replaying upto todo cancelled id (.viewed view) }
  | read {upto : Int} {todo : List WatchId} {cancelled : List (WatchId × Int × CancelReason)}
      {id : WatchId} {w : Watcher} {view : ReadView}
      (at_ : m.forwarder = .replaying upto todo cancelled id (.viewed view))
      (here : m.watchers[id]? = some w) :
      ForwarderStep wire m
        (m.resynced wire upto todo cancelled id w (replayRead (m.store.behind view) w upto))
  | cancel {upto : Int} {id : WatchId} {compactRev : Int} {reason : CancelReason}
      {rest : List (WatchId × Int × CancelReason)}
      (at_ : m.forwarder = .resyncing upto [] ((id, compactRev, reason) :: rest))
      (flushed : m.out .forwarder = []) :
      ForwarderStep wire m (m.cancelBehind upto id compactRev reason rest)
  | finish {upto : Int} (at_ : m.forwarder = .resyncing upto [] [])
      (flushed : m.out .forwarder = []) :
      ForwarderStep wire m { m with forwarder := .waiting, lastRev := max m.lastRev upto }

/-- A step of the inbound task. -/
inductive InboundStep (wire : Wire) (m : Machine) : Machine → Prop
  | create (create : WatchCreateRequest) (at_ : m.inbound = .waiting) (flushed : m.out .inbound = [])
      (free : m.free = true) :
      InboundStep wire m { m with inbound := .creating create m.store.view.current }
  | deny (text : String) (at_ : m.inbound = .waiting) (flushed : m.out .inbound = []) :
      InboundStep wire m (({ m with used := m.used ++ [-1] }).put .inbound
        [deniedResponse m.store.view.current text])
  | acknowledge {create : WatchCreateRequest} {current : Int} {view : ReadView}
      (at_ : m.inbound = .creating create current) (visible : Visible m.store view) :
      InboundStep wire m (m.acknowledge create current view.compact)
  | check {create : WatchCreateRequest} {current : Int} {id : WatchId} {w : Watcher}
      {view : ReadView} (at_ : m.inbound = .replaying create current id w .begun)
      (flushed : m.out .inbound = []) (visible : Visible m.store view) :
      InboundStep wire m (match replayCheck w current view.compact with
        | some outcome => m.replayed wire create current id w outcome
        | none => { m with inbound := .replaying create current id w .checked })
  | load {create : WatchCreateRequest} {current : Int} {id : WatchId} {w : Watcher}
      {view : ReadView} (at_ : m.inbound = .replaying create current id w .checked)
      (visible : Visible m.store view) :
      InboundStep wire m { m with inbound := .replaying create current id w (.viewed view) }
  | read {create : WatchCreateRequest} {current : Int} {id : WatchId} {w : Watcher}
      {view : ReadView} (at_ : m.inbound = .replaying create current id w (.viewed view)) :
      InboundStep wire m
        (m.replayed wire create current id w (replayRead (m.store.behind view) w current))
  | insert {id : WatchId} {w : Watcher} (at_ : m.inbound = .inserting id w)
      (flushed : m.out .inbound = []) : InboundStep wire m (m.insert id w)
  | cancel (id : WatchId) (at_ : m.inbound = .waiting) (flushed : m.out .inbound = [])
      (free : m.free = true) :
      InboundStep wire m { m with watchers := m.watchers.erase id, inbound := .cancelling id 0 .empty }
  | cancelled {id : WatchId} {compactRev : Int} {reason : CancelReason}
      (at_ : m.inbound = .cancelling id compactRev reason) :
      InboundStep wire m (({ m with inbound := .waiting }).put .inbound
        [cancelResponse m.store.view.current id compactRev reason])
  | progress (at_ : m.inbound = .waiting) (flushed : m.out .inbound = []) (free : m.free = true)
      (some : m.watchers.isEmpty = false) : InboundStep wire m { m with inbound := .progressing }
  | progressed (at_ : m.inbound = .progressing) :
      InboundStep wire m (({ m with inbound := .waiting }).put .inbound
        [progressResponse m.store.view.current])

/-- A step of `progress_notify_ticker`. -/
inductive TickerStep (m : Machine) : Machine → Prop
  | tick (at_ : m.notifying = false) (flushed : m.out .ticker = []) (free : m.free = true)
      {id : WatchId} {w : Watcher} (here : m.watchers[id]? = some w) (asked : w.progressNotify = true) :
      TickerStep m { m with notifying := true }
  | ticked (at_ : m.notifying = true) :
      TickerStep m (({ m with notifying := false }).put .ticker
        [progressResponse m.store.view.current])

/-- One step. A task sends all it has to before it goes on. -/
inductive Step (wire : Wire) (m : Machine) : Machine → Prop
  | store {m' : Machine} (step : StoreStep m m') : Step wire m m'
  | forwarder {m' : Machine} (step : ForwarderStep wire m m') : Step wire m m'
  | inbound {m' : Machine} (step : InboundStep wire m m') : Step wire m m'
  | ticker {m' : Machine} (step : TickerStep m m') : Step wire m m'
  | send (task : Task) {r : WatchResponse} {rest : List WatchResponse}
      (next : m.out task = r :: rest) : Step wire m { m.put task rest with sent := m.sent ++ [r] }

/-- A machine that a stream on some run's store reaches, by steps from machines of which `ok` holds. -/
inductive Reaches (wire : Wire) (ok : Machine → Prop) : Machine → Prop
  | start {effects : List Mvcc.Replay.Effect} {told unsent : List EventBatch} {s : Store}
      {channel : List Received} (run : Run effects told s) (pending : ∀ b ∈ unsent, b ∈ told)
      (queued : ∀ b, .batch b ∈ channel → b ∈ told) : Reaches wire ok (start s told unsent channel)
  | step {m m' : Machine} (run : Reaches wire ok m) (fine : ok m) (step : Step wire m m') :
      Reaches wire ok m'

end Machine

end Fastetcd.Server.Watch
