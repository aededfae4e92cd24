import Fastetcd.Mvcc.Maintenance

/-!
# Event history (`storage/src/mvcc/store.rs`)

A watcher that starts in the past is caught up from the tables: every revision the indexes name in
the window, sorted, each with its record.
-/

namespace Fastetcd.Mvcc

/-- The order of the backfill: by revision, then by key. -/
def pairCmp (a b : Revision × Bytes) : Ordering := (compare a.1 b.1).then (compare a.2 b.2)

/-- Every revision that generations name, puts and tombstones, in stored order. -/
def generationRevs (gens : List Generation) : List Revision :=
  gens.flatMap fun g => g.revs ++ g.tombstone.toList

/-- The newest put of `gens` strictly before `beforeRev`. -/
def previousPut (gens : List Generation) (beforeRev : Revision) : Option Revision :=
  gens.reverse.findSome? fun g => g.revs.reverse.find? (· < beforeRev)

/-- The latest live record of `key` strictly before `beforeRev`. -/
def previousLiveRecord (snap : Tables) (key : Bytes) (beforeRev : Revision) : Option KvRecord :=
  match snap.idx[key]? with
  | none => none
  | some idx =>
    match previousPut idx.generations beforeRev with
    | none => none
    | some rev =>
      match snap.kv[KvKey.mk key rev]? with
      | none => none
      | some rec => if rec.isTombstone then none else some rec

/-- The event of one pair of the window. -/
def backfillEvent (snap : Tables) (pair : Revision × Bytes) : Except MvccError MvccEvent := do
  let record ← readRecord snap pair.2 pair.1
  return { kind := if record.isTombstone then .delete else .put
           kv := record
           prevKv := previousLiveRecord snap pair.2 pair.1 }

/-- The revisions of `rows` that fall in the window `(start, stop]`, each with its key. -/
def windowPairs (rows : List (Bytes × KeyIndex)) (start stop : Int) : List (Revision × Bytes) :=
  rows.flatMap fun row =>
    ((generationRevs row.2.generations).filter fun r => start < r.main ∧ r.main ≤ stop).map
      (·, row.1)

/-- Events in the range with revision in `(startRev, min endRev current]`, in revision and key
order. -/
def Store.rangeEventsUntil (s : Store) (key rangeEnd : Bytes) (startRev endRev : Int) :
    Except MvccError (List MvccEvent) :=
  let current := min s.view.current endRev
  let compact := s.view.compact
  if startRev < compact ∧ compact > 0 then .error (.compacted startRev compact)
  else if startRev > current then .ok []
  else
    let (start, stop) := rangeBounds key rangeEnd
    let rows := s.engine.idx.scan (inBounds start stop)
    let pairs := (windowPairs rows startRev current).mergeSort fun a b => (pairCmp a b).isLE
    pairs.mapM (backfillEvent s.engine)

/-- A reader of the revisions of `view` that takes its snapshot only once the store has become `s`:
`range_events_until` checks the one and scans the other. -/
def Store.behind (s : Store) (view : ReadView) : Store := { s with view }

/-! ## The live stream -/

/-- Every event broadcast, with its revision, in the order it was told. -/
def toldEvents (told : List EventBatch) : List (Int × MvccEvent) :=
  told.flatMap fun batch => batch.events.map (batch.revision, ·)

/-- The events of a stream in a key range, with revision in `(start, stop]`. -/
def eventsWithin (key rangeEnd : Bytes) (start stop : Int) (events : List (Int × MvccEvent)) :
    List MvccEvent :=
  (events.filter fun e => start < e.1 ∧ e.1 ≤ stop ∧ inRange e.2.kv.key key rangeEnd).map Prod.snd

/-- An event without the record it replaced. -/
def MvccEvent.bare (e : MvccEvent) : EventKind × KvRecord := (e.kind, e.kv)

/-- The events of some batches. -/
def eventsOf (batches : List EventBatch) : List MvccEvent := batches.flatMap EventBatch.events

/-- The events of one key. -/
def ofKey (key : Bytes) (events : List MvccEvent) : List MvccEvent :=
  events.filter (·.kv.key = key)

/-- The record that events leave live under a key: that of the key's last event, if it is a put. -/
def liveAfter (key : Bytes) (events : List MvccEvent) : Option KvRecord :=
  (ofKey key events).getLast?.bind fun e => if e.kind = .put then some e.kv else none

/-- The puts of a key since events last deleted it. -/
def putsSince (key : Bytes) (events : List MvccEvent) : Nat :=
  ((ofKey key events).reverse.takeWhile (·.kind = .put)).length

end Fastetcd.Mvcc
