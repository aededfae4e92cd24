import Fastetcd.Raft.Durability
import Fastetcd.Raft.WalLogStore

/-!
# Purges (`raft/src/wal_log_store.rs`)

A purge removes entries from memory at once and is held (`pending_purge`) until the data file is
durable past it. Two tasks then write it to the WAL. The checkpointer reads what is held, syncs the
data file and completes what it has read. RaftCore completes a purge past the last entry itself,
after a sync of its own. Both send a command to the WAL writer, which appends the commands in the
order they were sent, syncs, deletes the segments that are purged, and answers.

RaftCore makes one call at a time. A sync of the data file is a wait that may fail. I/O errors of the
WAL are left out; a record that is too large stops the writer.
-/

namespace Fastetcd.Raft.Purging

open Storage

/-- Where RaftCore is. `upto` is how many commands are answered when its own is. -/
inductive Core where
  | free
  | truncating (upto : Nat)
  /-- `purge` past the last entry, in `engine.sync`. -/
  | syncing (id : LogId)
  /-- `complete_purge` waits for its record's sync. -/
  | purging (id : LogId) (upto : Nat)
deriving DecidableEq

/-- Where the checkpointer is. -/
inductive Checkpointer where
  | idle
  /-- In `engine.sync`, after it has read the applied watch and the held purge. -/
  | syncing (target : Nat) (purge : Option LogId)
  | purging (id : LogId) (upto : Nat)
deriving DecidableEq

/-- The purge the checkpointer has read and not sent. -/
def Checkpointer.held : Checkpointer → Option LogId
  | .syncing _ purge => purge
  | _ => none

/-- Where the writer is with a group of commands. -/
inductive Writer where
  | appending (group : List Cmd) (placed : List Placed)
  | synced (group : List Cmd) (placed : List Placed)

def Writer.group : Writer → List Cmd
  | .appending group _ => group
  | .synced group _ => group

/-- What a group of commands lets go of. -/
def dropUpto (group : List Cmd) : Option Nat :=
  group.foldl
    (fun upto cmd =>
      match cmd.dropUpto with
      | none => upto
      | some d => some (upto.elim d (max · d))) none

structure Config where
  state : State
  core : Core := .free
  checkpointer : Checkpointer := .idle
  /-- The commands sent and not taken by the writer, and how many there were in all. -/
  queue : List Cmd := []
  sent : Nat := 0
  writer : Writer := .appending [] []
  answered : Nat := 0
  wal : Wal
  /-- The highest entry of each segment deleted, from the start on. -/
  dropped : List Nat := []

namespace Config

def send (c : Config) (cmd : Cmd) : Config :=
  { c with queue := c.queue ++ [cmd], sent := c.sent + 1 }

/-- `purge` up to its first wait. -/
def purge (c : Config) (id : LogId) : Config :=
  { c with
    state := (c.state.purge id).1
    core := if (c.state.purge id).2 then .syncing id else .free }

/-- `drop_segments_upto`, if there is anything to drop. -/
def dropSegments (c : Config) : Option Nat → Config
  | none => c
  | some d =>
    let gone := c.wal.closed.takeWhile fun segment => segment.maxEntry.all (· ≤ d)
    { c with
      wal := c.wal.dropSegmentsUpto d
      dropped := c.dropped ++ gone.filterMap Segment.maxEntry }

/-- The log store of a new process. -/
def opened (wal : Wal) (replay : Replay) (cacheLimit : Nat) (dropped : List Nat) : Config :=
  { state := (Store.open_ wal replay cacheLimit).state, wal, dropped }

/-- The mark of the purge that an open of the WAL replays. -/
def replayed (c : Config) (segmentBytes room : Nat) : Except Wal.Damage Nat :=
  (Wal.openDir segmentBytes room c.wal.dir).map fun r => purgeMark r.2.sticky

/-! ## What keeps the purges in order -/

/-- The log has nothing at or past the index. -/
def PastLast (c : Config) (index : Nat) : Prop :=
  (c.state.entries.maxKey?.or (c.state.lastPurged.map LogId.index)).all (· < index) = true

/-- The purge is not below an earlier one, and if it is past the last entry the checkpointer holds
none. -/
def Orderly (c : Config) (id : LogId) : Prop :=
  (∀ p ∈ c.state.lastPurged, p.index ≤ id.index) ∧
    (c.PastLast id.index → c.checkpointer.held = none)

end Config

/-! ## Steps -/

open Config

/-- One step. Where `calm` holds, purges are orderly. -/
inductive Step (calm : Prop) (c : Config) : Config → Prop
  -- RaftCore
  | append (entries : List Encoded) (free : c.core = .free) :
      Step calm c { c.send (c.state.append entries).2 with state := (c.state.append entries).1 }
  | truncate (id : LogId) (ptr : Nat) (free : c.core = .free) :
      Step calm c { c.send (c.state.truncate id ptr).2 with
        state := (c.state.truncate id ptr).1
        core := .truncating (c.sent + 1) }
  | truncated {upto : Nat} (at_ : c.core = .truncating upto) (answered : upto ≤ c.answered) :
      Step calm c { c with core := .free }
  -- a vote or a committed mark
  | note (cmd : Cmd) (other : ∀ r ∈ cmd.records, r.kind = .vote ∨ r.kind = .committed)
      (keeps : cmd.dropUpto = none) : Step calm c (c.send cmd)
  | purge (id : LogId) (free : c.core = .free) (orderly : calm → c.Orderly id) :
      Step calm c (c.purge id)
  | syncFailed {id : LogId} (at_ : c.core = .syncing id) : Step calm c { c with core := .free }
  | holePurge {id : LogId} (ptr : Nat) (at_ : c.core = .syncing id) :
      Step calm c { c.send (State.completePurge id ptr) with core := .purging id (c.sent + 1) }
  | holePurged {id : LogId} {upto : Nat} (at_ : c.core = .purging id upto)
      (answered : upto ≤ c.answered) :
      Step calm c { c with state := c.state.purgeDone id, core := .free }
  -- the checkpointer
  | checkpoint (target : Nat) (at_ : c.checkpointer = .idle) :
      Step calm c { c with checkpointer := .syncing target c.state.pendingPurge }
  | checkpointFailed {target : Nat} {purge : Option LogId}
      (at_ : c.checkpointer = .syncing target purge) : Step calm c { c with checkpointer := .idle }
  | noPurge {target : Nat} {purge : Option LogId} (at_ : c.checkpointer = .syncing target purge)
      (ahead : ∀ p ∈ purge, target ≤ p.index) : Step calm c { c with checkpointer := .idle }
  | completePurge {target : Nat} {id : LogId} (ptr : Nat)
      (at_ : c.checkpointer = .syncing target (some id)) (behind : id.index < target) :
      Step calm c { c.send (State.completePurge id ptr) with
        checkpointer := .purging id (c.sent + 1) }
  | purged {id : LogId} {upto : Nat} (at_ : c.checkpointer = .purging id upto)
      (answered : upto ≤ c.answered) :
      Step calm c { c with state := c.state.purgeDone id, checkpointer := .idle }
  -- the writer
  | write {group : List Cmd} {placed : List Placed} {cmd : Cmd} {queue : List Cmd} {wal : Wal}
      {locs : List Loc} (spares : Nat → Spare) (ready : Bool)
      (at_ : c.writer = .appending group placed) (room : group.length < 4096)
      (first : c.queue = cmd :: queue)
      (done : c.wal.append spares ready (cmd.records.map CmdRecord.record) = some (wal, locs)) :
      Step calm c { c with
        queue := queue
        writer := .appending (group ++ [cmd]) (placed ++ Store.placedBy cmd.records locs)
        wal := wal }
  | sync {group : List Cmd} {placed : List Placed} (at_ : c.writer = .appending group placed) :
      Step calm c { c with
        writer := .synced group placed
        wal := if group.any Cmd.sync then c.wal.sync else c.wal }
  | answer {group : List Cmd} {placed : List Placed} (at_ : c.writer = .synced group placed) :
      Step calm c { c.dropSegments (dropUpto group) with
        state := c.state.place placed
        writer := .appending [] []
        answered := c.answered + group.length }
  -- the process stops, and the next one opens what is there
  | reopen {wal : Wal} {replay : Replay} (segmentBytes room cacheLimit : Nat)
      (done : Wal.openDir segmentBytes room c.wal.dir = .ok (wal, replay)) :
      Step calm c (opened wal replay cacheLimit c.dropped)

/-- Steps one after the other. -/
abbrev Steps (calm : Prop) : Config → Config → Prop := Relation.ReflTransGen (Step calm)

/-- A log store with a new WAL. -/
inductive Start : Config → Prop
  | create {wal : Wal} {replay : Replay} (segmentBytes room cacheLimit : Nat)
      (done : Wal.openDir segmentBytes room [] = .ok (wal, replay)) :
      Start (opened wal replay cacheLimit [])

end Fastetcd.Raft.Purging
