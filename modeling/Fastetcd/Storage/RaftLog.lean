import Fastetcd.Storage.RaftWal

/-!
# The log a WAL is for

A log has an entry at some indexes, and a purge, a vote and a committed mark. Each record changes it
as the module documentation of `raft_wal.rs` says, without a word on files: an entry replaces what is
at its index and after it, a truncate removes what is at its index and after it, a purge what is at
its index and before it.

`Wal.Run` is what a writer may do with a WAL: append, sync, delete old segments, close and open again.
It carries the records appended, each at the location `append` gave it.
-/

namespace Fastetcd.Storage

/-- An index's entry, with where it was appended, and the latest sticky records. -/
structure Log where
  entries : Nat → Option (Loc × Record) := fun _ => none
  sticky : Sticky := {}

namespace Log

def apply (log : Log) (row : Loc × Record) : Log :=
  match row.2.kind with
  | .entry =>
    { log with
      entries := fun k =>
        if k < row.2.index then log.entries k
        else if k = row.2.index ∧ log.sticky.purge.all (·.index < k) then some row
        else none }
  | .truncate => { log with entries := fun k => if k < row.2.index then log.entries k else none }
  | .purge =>
    { entries := fun k => if row.2.index < k then log.entries k else none
      sticky := log.sticky.insert row.2 }
  | .vote => { log with sticky := log.sticky.insert row.2 }
  | .committed => { log with sticky := log.sticky.insert row.2 }

/-- The records in order. -/
def run (log : Log) (rows : List (Loc × Record)) : Log := rows.foldl apply log

end Log

namespace Wal

/-- When segments up to an index may be dropped, after the records appended, the first so many of
them synced. -/
abbrev Drops := List (Loc × Record) → Nat → Nat → Prop

/-- A purge at or past the index was made durable. -/
def afterDurablePurge : Drops := fun appended synced index =>
  ∃ row ∈ appended.take synced, row.2.kind = .purge ∧ index ≤ row.2.index

/-- The latest purge is at or past the index. -/
def whilePurged : Drops := fun appended _ index =>
  ∃ purge, (Log.run {} appended).sticky.purge = some purge ∧ index ≤ purge.index

/-- A WAL after some calls, the records appended by them, and how many a sync has covered. -/
inductive Run (drops : Drops) : Wal → List (Loc × Record) → Nat → Prop
  | create {wal replay} (segmentBytes room : Nat)
      (opened : openDir segmentBytes room [] = .ok (wal, replay)) : Run drops wal [] 0
  | append {wal appended synced wal' locs} (run : Run drops wal appended synced)
      (spares : Nat → Spare) (ready : Bool) (records : List Record)
      (done : append spares ready wal records = some (wal', locs)) :
      Run drops wal' (appended ++ locs.zip records) synced
  | sync {wal appended synced} (run : Run drops wal appended synced) :
      Run drops wal.sync appended appended.length
  | dropSegmentsUpto {wal appended synced} (run : Run drops wal appended synced) (index : Nat)
      (may : drops appended synced index) : Run drops (wal.dropSegmentsUpto index) appended synced
  | reopen {wal appended synced wal' replay} (run : Run drops wal appended synced)
      (segmentBytes room : Nat) (opened : openDir segmentBytes room wal.dir = .ok (wal', replay)) :
      Run drops wal' appended synced

end Wal

end Fastetcd.Storage
