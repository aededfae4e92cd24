import Mathlib.Logic.Relation
import Fastetcd.Storage.RaftWal

/-!
# The log in memory (`raft/src/wal_log_store.rs`)

An index of the log has a slot: the entry's bytes, or where the WAL has them, or both. RaftCore changes
the slots at once and sends the records to the writer. The writer appends them and then says where
they are (`place`), when the slots may be others. Bytes are given up, from the oldest slot on, when
there are too many of them and the slot has a location.

`Store` is the log store with its writer, and next to it what openraft has asked for: the entry last
appended at each index (`log`).
-/

namespace Fastetcd.Raft

open Mvcc (Bytes)
open Storage

/-- An `Arc<Vec<u8>>`. `ptr` is its allocation, which clones share. -/
structure Arc where
  ptr : Nat
  bytes : Bytes
deriving DecidableEq

/-- `Arc::ptr_eq` -/
def Arc.ptrEq (a b : Arc) : Bool := a.ptr == b.ptr

structure Slot where
  bytes : Option Arc
  loc : Option Loc

/-- How many bytes a slot has in memory. -/
def Slot.cached (slot : Slot) : Nat := slot.bytes.elim 0 (·.bytes.length)

/-- A log id with its encoding. Only the index is looked at. -/
structure LogId where
  index : Nat
  encoded : Bytes
  index_lt : index < 256 ^ 8

instance : DecidableEq LogId := fun a b =>
  decidable_of_iff (a.index = b.index ∧ a.encoded = b.encoded) (by cases a; cases b; simp)

/-- An entry to append: its index and its encoding. -/
structure Encoded where
  index : Nat
  bytes : Arc
  index_lt : index < 256 ^ 8

/-- An entry the writer has appended, and where. -/
structure Placed where
  index : Nat
  bytes : Arc
  loc : Loc
deriving DecidableEq

/-! ## Commands -/

structure CmdRecord where
  kind : Kind
  index : Nat
  payload : Arc
  index_lt : index < 256 ^ 8

def CmdRecord.record (r : CmdRecord) : Record := ⟨r.kind, r.index, r.payload.bytes, r.index_lt⟩

/-- What the writer is sent. -/
structure Cmd where
  records : List CmdRecord
  sync : Bool
  dropUpto : Option Nat := none

def Encoded.record (e : Encoded) : CmdRecord := ⟨.entry, e.index, e.bytes, e.index_lt⟩

/-! ## State -/

structure State where
  entries : Table Nat Slot
  cachedBytes : Nat := 0
  cacheLimit : Nat
  evictCursor : Nat := 0
  lastPurged : Option LogId
  pendingPurge : Option LogId := none

namespace State

def forget (st : State) (gone : Table Nat Slot) : State :=
  gone.toList.foldl
    (fun st row =>
      match row.2.bytes with
      | some b => { st with cachedBytes := st.cachedBytes - b.bytes.length }
      | none => st) st

/-- Drop every entry at `≥ index`. -/
def removeFrom (st : State) (index : Nat) : State :=
  let gone : Table Nat Slot := st.entries.filter fun k _ => decide (index ≤ k)
  let st := { st with entries := st.entries.filter fun k _ => decide (k < index) }
  let st := st.forget gone
  { st with evictCursor := min st.evictCursor index }

/-- Drop every entry at `≤ index`. -/
def removeUpto (st : State) (index : Nat) : State :=
  let split := min (index + 1) U64_MAX
  let keep : Table Nat Slot := st.entries.filter fun k _ => decide (split ≤ k)
  let gone : Table Nat Slot := st.entries.filter fun k _ => decide (k < split)
  { st with entries := keep }.forget gone

/-- A location is for the very bytes that were written. -/
def placeOne (entries : Table Nat Slot) (p : Placed) : Table Nat Slot :=
  match entries[p.index]? with
  | none => entries
  | some slot =>
    if slot.bytes.any (·.ptrEq p.bytes) then
      entries.insert p.index { slot with loc := some p.loc }
    else entries

/-- Give up the bytes of slots, in order, until few enough are left or a slot has no location. -/
def evict (st : State) : List (Nat × Slot) → State
  | [] => st
  | (index, slot) :: rows =>
    if st.cachedBytes ≤ st.cacheLimit ∨ slot.loc = none then st
    else
      evict { st with
        entries := st.entries.insert index { slot with bytes := none }
        cachedBytes := st.cachedBytes - slot.cached
        evictCursor := index + 1 } rows

def place (st : State) (placed : List Placed) : State :=
  let st := { st with entries := placed.foldl placeOne st.entries }
  if st.cachedBytes ≤ st.cacheLimit then st
  else st.evict (Table.scan st.entries fun k => decide (st.evictCursor ≤ k))

/-! ## What openraft calls -/

/-- An entry replaces whatever was at its index and after. -/
def appendEntry (st : State) (e : Encoded) : State :=
  let st := st.removeFrom e.index
  { st with
    cachedBytes := st.cachedBytes + e.bytes.bytes.length
    entries := st.entries.insert e.index ⟨some e.bytes, none⟩ }

def append (st : State) (entries : List Encoded) : State × Cmd :=
  (entries.foldl appendEntry st, ⟨entries.map Encoded.record, true, none⟩)

def truncate (st : State) (id : LogId) (ptr : Nat) : State × Cmd :=
  (st.removeFrom id.index, ⟨[⟨.truncate, id.index, ⟨ptr, []⟩, id.index_lt⟩], true, none⟩)

/-- Also whether the purge is past the last entry. -/
def purge (st : State) (id : LogId) : State × Bool :=
  let last := st.entries.maxKey?.or (st.lastPurged.map LogId.index)
  let st := st.removeUpto id.index
  ({ st with
      lastPurged := if st.lastPurged.all (·.index < id.index) then some id else st.lastPurged
      pendingPurge :=
        if st.pendingPurge.all (·.index < id.index) then some id else st.pendingPurge },
    last.all (· < id.index))

/-- `complete_purge`'s command. -/
def completePurge (id : LogId) (ptr : Nat) : Cmd :=
  ⟨[⟨.purge, id.index, ⟨ptr, id.encoded⟩, id.index_lt⟩], true, some id.index⟩

/-- The end of `complete_purge`. -/
def purgeDone (st : State) (id : LogId) : State :=
  if st.pendingPurge.any (·.index ≤ id.index) then { st with pendingPurge := none } else st

end State

/-! ## Reading -/

inductive ReadError where
  /-- `raft WAL entry has no data` -/
  | noData
  | unreadable (loc : Loc)
  | undecodable (bytes : Bytes)

inductive Src where
  | mem (bytes : Arc)
  | disk (loc : Loc)

def Slot.src (slot : Slot) : Except ReadError Src :=
  match slot.bytes, slot.loc with
  | some b, _ => .ok (.mem b)
  | none, some loc => .ok (.disk loc)
  | none, none => .error .noData

section Reading

variable {E : Type} (decode : Bytes → Except ReadError E)

def Src.load (wal : Wal) : Src → Except ReadError E
  | .mem b => decode b.bytes
  | .disk loc =>
    match wal.read loc with
    | some bytes => decode bytes
    | none => .error (.unreadable loc)

/-- `try_get_log_entries`. What is on disk is read on another thread, with the same outcome. -/
def State.tryGetLogEntries (st : State) (wal : Wal) (range : Nat → Bool) :
    Except ReadError (List E) := do
  let srcs ← (Table.scan st.entries range).mapM fun row => row.2.src
  srcs.mapM (Src.load decode wal)

/-- Most encoded bytes of the entries of one `AppendEntries`. -/
def REPLICATION_BYTES : Nat := 1024 * 1024

/-- The encoded size of a slot's entry. -/
def Slot.size (slot : Slot) : Nat :=
  match slot.bytes, slot.loc with
  | some b, _ => b.bytes.length
  | none, some loc => loc.len
  | none, none => 0

/-- The first of these indexes whose entry does not fit after `bytes` others, or `stop`. -/
def stopAt (stop bytes : Nat) : List (Nat × Slot) → Nat
  | [] => stop
  | (index, slot) :: rows =>
    if bytes > 0 ∧ bytes + slot.size > REPLICATION_BYTES then index
    else stopAt stop (bytes + slot.size) rows

/-- `limited_get_log_entries`. -/
def State.limitedGetLogEntries (st : State) (wal : Wal) (start stop : Nat) :
    Except ReadError (List E) :=
  let stop := stopAt stop 0 (Table.scan st.entries fun k => decide (start ≤ k) && decide (k < stop))
  st.tryGetLogEntries decode wal fun k => decide (start ≤ k) && decide (k < stop)

end Reading

/-! ## The log asked for -/

/-- The entry last appended at each index, if it is not truncated or purged. -/
abbrev Entries := Nat → Option Arc

namespace Entries

def append (log : Entries) (e : Encoded) : Entries := fun k =>
  if k < e.index then log k else if k = e.index then some e.bytes else none

def truncate (log : Entries) (index : Nat) : Entries := fun k => if k < index then log k else none

def purge (log : Entries) (index : Nat) : Entries := fun k => if index < k then log k else none

/-- An entry at the index leaves no gap before it. -/
def Follows (log : Entries) (index : Nat) : Prop :=
  (∀ k, k < index → log k = none) ∨ ∃ i, i + 1 = index ∧ (log i).isSome

/-- The entries, one after the other. openraft counts `index + 1`. -/
def Admits (log : Entries) : List Encoded → Prop
  | [] => True
  | e :: entries => (Follows log e.index ∧ e.index < U64_MAX) ∧ Admits (log.append e) entries

end Entries

/-! ## The store and its writer -/

structure Store where
  state : State
  /-- RaftCore's command, when it has changed the state and not sent it. -/
  core : Option Cmd := none
  queue : List Cmd := []
  /-- The writer's WAL, and what it keeps until the end of a group of commands. -/
  wal : Wal
  placed : List Placed := []
  dropUpto : Option Nat := none
  log : Entries
  /-- The bytes of every entry there was. -/
  arcs : List Arc
  /-- Every entry written, and where. -/
  written : List Placed

namespace Store

/-- What `WalLogStore::open` makes of an opened WAL. The entries it has are given bytes of their
own. -/
def open_ (wal : Wal) (replay : Replay) (cacheLimit : Nat) : Store :=
  let arc (k : Nat) (loc : Loc) : Arc := ⟨k, (wal.read loc).getD []⟩
  { state := {
      entries := replay.entries.map fun _ loc => ⟨none, some loc⟩
      cacheLimit := cacheLimit
      lastPurged := replay.sticky.purge.map fun r => ⟨r.index, r.payload, r.index_lt⟩ }
    wal := wal
    log := fun k => replay.entries[k]?.map (arc k)
    arcs := replay.entries.toList.map fun row => arc row.1 row.2
    written := replay.entries.toList.map fun row => ⟨row.1, arc row.1 row.2, row.2⟩ }

/-- The entries of a command, where they were appended. -/
def placedBy (records : List CmdRecord) (locs : List Loc) : List Placed :=
  (records.zip locs).filterMap fun (r, loc) =>
    if r.kind = .entry then some ⟨r.index, r.payload, loc⟩ else none

/-- A purge at or past the index was asked for. -/
def Purged (s : Store) (index : Nat) : Prop :=
  ∃ p, s.state.lastPurged = some p ∧ index ≤ p.index

inductive Step : Store → Store → Prop
  -- RaftCore: openraft appends past the purge, in allocations of their own
  | append {s} (entries : List Encoded) (free : s.core = none) (admits : s.log.Admits entries)
      (past : ∀ e ∈ entries, ¬s.Purged e.index)
      (fresh : ∀ e ∈ entries, ∀ a ∈ s.arcs, a.ptr ≠ e.bytes.ptr)
      (apart : (entries.map fun e => e.bytes.ptr).Nodup) :
      Step s { s with
        state := (s.state.append entries).1
        core := some (s.state.append entries).2
        log := entries.foldl Entries.append s.log
        arcs := s.arcs ++ entries.map Encoded.bytes }
  | truncate {s} (id : LogId) (ptr : Nat) (free : s.core = none) :
      Step s { s with
        state := (s.state.truncate id ptr).1
        core := some (s.state.truncate id ptr).2
        log := s.log.truncate id.index }
  | purge {s} (id : LogId) (free : s.core = none) :
      Step s { s with state := (s.state.purge id).1, log := s.log.purge id.index }
  | send {s cmd} (at_ : s.core = some cmd) :
      Step s { s with core := none, queue := s.queue ++ [cmd] }
  -- a vote or a committed mark
  | note {s} (cmd : Cmd) (other : ∀ r ∈ cmd.records, r.kind = .vote ∨ r.kind = .committed)
      (keeps : cmd.dropUpto = none) : Step s { s with queue := s.queue ++ [cmd] }
  -- by the checkpointer, or by a purge past the last entry
  | completePurge {s} (id : LogId) (ptr : Nat) (asked : s.Purged id.index) :
      Step s { s with queue := s.queue ++ [State.completePurge id ptr] }
  | purgeDone {s} (id : LogId) : Step s { s with state := s.state.purgeDone id }
  -- the writer
  | write {s cmd queue wal locs} (spares : Nat → Spare) (ready : Bool)
      (first : s.queue = cmd :: queue)
      (done : s.wal.append spares ready (cmd.records.map CmdRecord.record) = some (wal, locs)) :
      Step s { s with
        queue := queue
        wal := wal
        placed := s.placed ++ placedBy cmd.records locs
        dropUpto := match cmd.dropUpto with
          | none => s.dropUpto
          | some d => some (s.dropUpto.elim d (max · d))
        written := s.written ++ placedBy cmd.records locs }
  | sync {s} : Step s { s with wal := s.wal.sync }
  | drop {s d} (at_ : s.dropUpto = some d) :
      Step s { s with wal := s.wal.dropSegmentsUpto d, dropUpto := none }
  | place {s} : Step s { s with state := s.state.place s.placed, placed := [] }

end Store

end Fastetcd.Raft
