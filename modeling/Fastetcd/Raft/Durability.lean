import Mathlib.Logic.Relation
import Fastetcd.Storage.RaftLog

/-!
# The log and the data file of a member, and crashes
(`raft/src/wal_log_store.rs`, `raft/src/kv_log_store.rs`, `raft/src/state_machine.rs`)

Two things on a member's disk are made durable apart from each other. The log is records sent to the
WAL writer, which appends and syncs them and answers each command after its sync. The data file
holds what was applied, in engine commits that are made durable by the checkpointer.

The WAL is here what its opens give back: the records written to it, all of them after a crash of the
process, those synced and maybe more after a loss of power. Deleting old segments changes no log and
is left out. So are failed writes.

Indexes are counted as `LogProgress` does: a mark is `index + 1`, and 0 is none.
-/

namespace Fastetcd.Raft

open Storage

/-- The mark of the purge. -/
def purgeMark (sticky : Sticky) : Nat := sticky.purge.elim 0 (·.index + 1)

/-- The mark of the last entry, or of the purge if there is none: what `WalLogStore::open` raises
`last_durable` to. -/
def openMark (replay : Replay) : Nat :=
  replay.entries.maxKey?.elim (purgeMark replay.sticky) (· + 1)

/-- What is done when a command is answered. -/
inductive Done where
  /-- `append`: `raise_durable`. -/
  | append (mark : Nat)
  /-- `truncate` goes on. -/
  | truncate (index : Nat)
  /-- `complete_purge` goes on, in `purge` or in the checkpointer. -/
  | purge (index : Nat) (hole : Bool)

/-- A command not answered, its last record the `upto`-th of those sent. -/
structure Call where
  upto : Nat
  done : Done

/-- Where RaftCore is: it makes one call at a time on the log store. -/
inductive Core where
  | free
  /-- `truncate` waits for its record's sync. -/
  | truncating (index : Nat)
  /-- `truncate` before it lowers the durable mark. -/
  | truncated (index : Nat)
  /-- `purge` past the last entry, in `engine.sync`, begun with `saved` committed. -/
  | holeSync (index saved : Nat)
  /-- `purge` before `complete_purge`. -/
  | holeSynced (index : Nat)
  /-- `complete_purge` waits for its record's sync. -/
  | holePurging (index : Nat)

/-- Where the checkpointer is. `purge` is the mark of the pending purge it has read. -/
inductive Checkpointer where
  | idle
  | target (applied : Nat)
  /-- In `engine.sync`, begun with `saved` committed. -/
  | syncing (applied purge saved : Nat)
  | synced (applied purge : Nat)
  | purging

structure Node where
  /-- The records sent to the WAL writer, after those the open has read. -/
  sent : List (Loc × Record) := []
  /-- How many of them are written, and how many synced. -/
  written : Nat := 0
  synced : Nat := 0
  calls : List Call := []
  /-- The log in memory: the mark of its last entry, or of the last purge if it has none. -/
  next : Nat := 0
  /-- `last_purged` and `pending_purge`. -/
  purged : Nat := 0
  pending : Nat := 0
  /-- `LogProgress::last_durable`. -/
  durable : Nat := 0
  core : Core := .free
  /-- The state machine's `applied` watch. -/
  applied : Nat := 0
  /-- The applied mark in the last engine commit, and in the last durable one. -/
  saved : Nat := 0
  onDisk : Nat := 0
  /-- The last snapshot installed, and the last one built of what is applied. -/
  installed : Nat := 0
  built : Nat := 0
  /-- What the cluster has committed, as far as this member knows. -/
  committed : Nat := 0
  checkpointer : Checkpointer := .idle
  /-- Every record ever sent. -/
  history : List Record := []

namespace Node

/-- The log of the records sent. -/
def log (s : Node) : Log := Log.run {} s.sent

def send (s : Node) (loc : Loc) (r : Record) : Node :=
  { s with sent := s.sent ++ [(loc, r)], history := s.history ++ [r] }

/-- A command that ends with the record last sent. -/
def call (s : Node) (done : Done) : Node := { s with calls := s.calls ++ [⟨s.sent.length, done⟩] }

/-- An entry at a time: `append`'s command follows its last one. -/
def entry (s : Node) (loc : Loc) (r : Record) : Node :=
  { s.send loc r with next := r.index + 1 }

def truncate (s : Node) (loc : Loc) (r : Record) : Node :=
  { (s.send loc r).call (.truncate r.index) with
    next := max s.purged (min s.next r.index)
    core := .truncating r.index }

/-- `purge` up to its first wait. -/
def purge (s : Node) (index : Nat) : Node :=
  { s with
    next := max s.next (index + 1)
    purged := max s.purged (index + 1)
    pending := max s.pending (index + 1)
    core := if s.next ≤ index then .holeSync index s.saved else .free }

/-- `complete_purge` up to its wait. -/
def completePurge (s : Node) (loc : Loc) (r : Record) (hole : Bool) : Node :=
  (s.send loc r).call (.purge r.index hole)

/-- The end of `complete_purge`. -/
def purgeDone (s : Node) (index : Nat) : Node :=
  { s with pending := if s.pending ≤ index + 1 then 0 else s.pending }

/-- A new process, with these records in the WAL and this mark applied in the data file. A snapshot
of more than is applied is not one openraft purges by. -/
def reopen (s : Node) (rows : List (Loc × Record)) (synced saved onDisk : Nat) : Node :=
  let replay := Replay.run {} rows
  { sent := rows
    written := rows.length
    synced := synced
    next := openMark replay
    purged := purgeMark replay.sticky
    durable := openMark replay
    applied := saved
    saved := saved
    onDisk := onDisk
    installed := s.installed
    built := min s.built saved
    committed := s.committed
    history := s.history }

/-- What a loss of power may leave of the WAL: the records synced, and maybe more. -/
def Leaves (s : Node) (rows : List (Loc × Record)) : Prop :=
  ∃ j, s.synced ≤ j ∧ j ≤ s.written ∧ rows = s.sent.take j

/-- What a crash may leave of the data file: the last durable commit, or a later one. -/
def Saves (s : Node) (saved : Nat) : Prop := s.onDisk ≤ saved ∧ saved ≤ s.saved

/-- Every record in the WAL is synced. -/
def AllSynced (s : Node) : Prop := s.synced = s.written

/-- `reopens` says when the process may crash and be started again. -/
inductive Step (reopens : Node → Prop) : Node → Node → Prop
  -- RaftCore
  | entry {s} (loc : Loc) (r : Record) (free : s.core = .free) (kind : r.kind = .entry)
      (index : r.index = s.next) : Step reopens s (s.entry loc r)
  | append {s} (free : s.core = .free) : Step reopens s (s.call (.append s.next))
  | note {s} (loc : Loc) (r : Record) (kind : r.kind = .vote ∨ r.kind = .committed) :
      Step reopens s (s.send loc r)
  -- a committed entry is not truncated
  | truncate {s} (loc : Loc) (r : Record) (free : s.core = .free) (kind : r.kind = .truncate)
      (open_ : s.committed ≤ r.index) : Step reopens s (s.truncate loc r)
  | lower {s index} (at_ : s.core = .truncated index) :
      Step reopens s { s with durable := min s.durable index, core := .free }
  -- openraft purges forward, up to a snapshot
  | purge {s} (index : Nat) (free : s.core = .free) (forward : s.purged ≤ index)
      (covered : index < max s.built s.installed) : Step reopens s (s.purge index)
  | holeSynced {s index saved} (onDisk : Nat) (at_ : s.core = .holeSync index saved)
      (least : saved ≤ onDisk) (most : onDisk ≤ s.saved) :
      Step reopens s { s with onDisk := max s.onDisk onDisk, core := .holeSynced index }
  | holePurge {s} (loc : Loc) (r : Record) (kind : r.kind = .purge)
      (at_ : s.core = .holeSynced r.index) :
      Step reopens s { s.completePurge loc r true with core := .holePurging r.index }
  | commit {s} (committed : Nat) (least : s.committed ≤ committed)
      (known : committed ≤ max s.committed s.next) : Step reopens s { s with committed := committed }
  -- the WAL writer
  | write {s} (more : s.written < s.sent.length) :
      Step reopens s { s with written := s.written + 1 }
  | sync {s} : Step reopens s { s with synced := s.written }
  | answerAppend {s upto mark calls} (first : s.calls = ⟨upto, .append mark⟩ :: calls)
      (covered : upto ≤ s.synced) :
      Step reopens s { s with durable := max s.durable mark, calls := calls }
  | answerTruncate {s upto index calls} (first : s.calls = ⟨upto, .truncate index⟩ :: calls)
      (covered : upto ≤ s.synced) :
      Step reopens s { s with core := .truncated index, calls := calls }
  | answerHolePurge {s upto index calls} (first : s.calls = ⟨upto, .purge index true⟩ :: calls)
      (covered : upto ≤ s.synced) :
      Step reopens s { s.purgeDone index with core := .free, calls := calls }
  | answerPurge {s upto index calls} (first : s.calls = ⟨upto, .purge index false⟩ :: calls)
      (covered : upto ≤ s.synced) :
      Step reopens s { s.purgeDone index with checkpointer := .idle, calls := calls }
  -- the state machine, which waits until an entry is durable and commits it at once or later
  | apply {s row} (saved : Nat) (held : s.log.entries s.applied = some row)
      (kept : s.purged ≤ s.applied) (committed : s.applied < s.committed)
      (durable : s.applied < s.durable) (now : saved = s.saved ∨ saved = s.applied + 1) :
      Step reopens s { s with applied := s.applied + 1, saved := saved }
  | flush {s} : Step reopens s { s with saved := s.applied }
  | build {s} (flushed : s.saved = s.applied) : Step reopens s { s with built := s.applied }
  -- a snapshot is installed in one durable commit
  | install {s} (mark : Nat) (newer : s.applied < mark) :
      Step reopens s { s with
        applied := mark
        saved := mark
        onDisk := mark
        installed := mark
        committed := max s.committed mark }
  -- the engine writes what is committed on its own
  | persist {s} (onDisk : Nat) (least : s.onDisk ≤ onDisk) (most : onDisk ≤ s.saved) :
      Step reopens s { s with onDisk := onDisk }
  -- the checkpointer
  | target {s} (at_ : s.checkpointer = .idle) :
      Step reopens s { s with checkpointer := .target s.applied }
  | checkpoint {s applied} (at_ : s.checkpointer = .target applied) :
      Step reopens s { s with checkpointer := .syncing applied s.pending s.saved }
  | failed {s applied purge saved} (at_ : s.checkpointer = .syncing applied purge saved) :
      Step reopens s { s with checkpointer := .idle }
  | synced {s applied purge saved} (onDisk : Nat)
      (at_ : s.checkpointer = .syncing applied purge saved) (least : saved ≤ onDisk)
      (most : onDisk ≤ s.saved) :
      Step reopens s { s with
        onDisk := max s.onDisk onDisk
        checkpointer := .synced applied purge }
  | noPurge {s applied purge} (at_ : s.checkpointer = .synced applied purge)
      (none : purge = 0 ∨ applied < purge) : Step reopens s { s with checkpointer := .idle }
  | completePurge {s applied} (loc : Loc) (r : Record) (kind : r.kind = .purge)
      (at_ : s.checkpointer = .synced applied (r.index + 1)) (behind : r.index < applied) :
      Step reopens s { s.completePurge loc r false with checkpointer := .purging }
  -- crashes, and the next start
  | crash {s} (saved : Nat) (may : reopens s) (data : s.Saves saved) :
      Step reopens s (s.reopen (s.sent.take s.written) s.synced saved s.onDisk)
  | powerLoss {s rows} (saved : Nat) (log : s.Leaves rows) (data : s.Saves saved) :
      Step reopens s (s.reopen rows rows.length saved saved)

/-- A member started with an empty disk, after some steps. -/
def Reachable (reopens : Node → Prop) (s : Node) : Prop :=
  Relation.ReflTransGen (Step reopens) {} s

end Node

end Fastetcd.Raft
