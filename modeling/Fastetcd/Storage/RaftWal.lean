import Fastetcd.Data.Bincode
import Fastetcd.Mvcc.Revision

/-!
# The raft log's write-ahead log (`storage/src/raft_wal.rs`)

A directory of segment files, numbered upwards. A segment is records one after the other, each with
its length and checksum before it, and zeros after them. Only the last segment is written to. A new
segment begins with the current purge, vote and committed records, so that the oldest segments can be
deleted.

A file has two contents: what a reader of the page cache sees, and what was there at the last sync.
Writing changes the first only. The source's I/O errors are left out, and so is how a new segment got
its zeros: a segment may start as any number of them.
-/

namespace Fastetcd.Storage

open Mvcc (Bytes)
open Bincode (leBytes ofLeBytes)

/-! ## Records -/

inductive Kind where
  | entry
  | truncate
  | purge
  | vote
  | committed
deriving DecidableEq

def Kind.byte : Kind → UInt8
  | .entry => 1
  | .truncate => 2
  | .purge => 3
  | .vote => 4
  | .committed => 5

def Kind.ofByte (b : UInt8) : Option Kind :=
  if b = 1 then some .entry
  else if b = 2 then some .truncate
  else if b = 3 then some .purge
  else if b = 4 then some .vote
  else if b = 5 then some .committed
  else none

/-- A record. Its index is a `u64`. -/
structure Record where
  kind : Kind
  index : Nat
  payload : Bytes
  index_lt : index < 256 ^ 8
deriving DecidableEq

/-- Bytes before a record's payload. -/
def HEADER_LEN : Nat := 17

def MAX_PAYLOAD : Nat := 2 ^ 30

/-- An entry of the CRC-32C table. -/
def crcEntry (i : UInt32) : UInt32 :=
  (List.range 8).foldl
    (fun (c : UInt32) _ => if c &&& 1 ≠ 0 then (0x82F63B78 : UInt32) ^^^ (c >>> 1) else c >>> 1) i

def crc32c (bytes : Bytes) : UInt32 :=
  ~~~ bytes.foldl (fun c b => crcEntry ((c ^^^ b.toUInt32) &&& 0xff) ^^^ (c >>> 8)) (~~~ 0)

/-- The checksum covers kind, index and payload. -/
def Record.crc (r : Record) : UInt32 := crc32c (r.kind.byte :: (leBytes 8 r.index ++ r.payload))

def encodeRecord (r : Record) : Bytes :=
  leBytes 4 r.payload.length ++
    (leBytes 4 r.crc.toNat ++ (r.kind.byte :: (leBytes 8 r.index ++ r.payload)))

inductive Parsed where
  | record (r : Record)
  | done
  | bad (why : String)

theorem ofLeBytes_lt (bytes : Bytes) : ofLeBytes bytes < 256 ^ bytes.length := by
  induction bytes with
  | nil => simp [ofLeBytes]
  | cons b bytes ih =>
    have digit : b.toNat < 256 := b.toNat_lt
    have tail : ofLeBytes bytes < 256 ^ bytes.length := ih
    have cons : ofLeBytes (b :: bytes) = b.toNat + 256 * ofLeBytes bytes := rfl
    rw [cons, List.length_cons, Nat.pow_succ]
    omega

/-- The record at the front of `rest`, what is left of a segment. A header of zeros is the end of a
segment's data. -/
def parse (rest : Bytes) : Parsed :=
  if rest.isEmpty then .done
  else if rest.length < HEADER_LEN then
    if rest.all (· == 0) then .done else .bad "short header"
  else if (rest.take HEADER_LEN).all (· == 0) then .done
  else
    let len := ofLeBytes (rest.take 4)
    let crc := ofLeBytes ((rest.drop 4).take 4)
    let index := ofLeBytes ((rest.drop 9).take 8)
    match Kind.ofByte ((rest.drop 8).headD 0) with
    | none => .bad "unknown record kind"
    | some kind =>
      if len > MAX_PAYLOAD ∨ rest.length - HEADER_LEN < len then
        .bad "record runs past the end of the segment"
      else
        let r : Record := {
          kind := kind
          index := index
          payload := (rest.drop HEADER_LEN).take len
          index_lt := (ofLeBytes_lt _).trans_le
            (Nat.pow_le_pow_right (by decide) (List.length_take_le ..)) }
        if r.crc.toNat ≠ crc then .bad "checksum mismatch" else .record r

/-! ## Replay -/

/-- Where a record is. -/
structure Loc where
  segment : Nat
  offset : Nat
  len : Nat
deriving DecidableEq

/-- The latest record of each sticky kind. -/
structure Sticky where
  purge : Option Record := none
  vote : Option Record := none
  committed : Option Record := none
deriving DecidableEq

def Sticky.insert (s : Sticky) (r : Record) : Sticky :=
  match r.kind with
  | .purge => { s with purge := some r }
  | .vote => { s with vote := some r }
  | .committed => { s with committed := some r }
  | .entry => s
  | .truncate => s

/-- The values there are, by kind. -/
def Sticky.records (s : Sticky) : List Record :=
  s.purge.toList ++ (s.vote.toList ++ s.committed.toList)

/-- What the log holds. -/
structure Replay where
  entries : Table Nat Loc := ∅
  sticky : Sticky := {}
  tornTail : Bool := false

/-- `split_off`: the entries below `index`. -/
def below (entries : Table Nat Loc) (index : Nat) : Table Nat Loc :=
  entries.filter fun k _ => decide (k < index)

/-- The entries at or above `index`. -/
def atLeast (entries : Table Nat Loc) (index : Nat) : Table Nat Loc :=
  entries.filter fun k _ => decide (index ≤ k)

/-- `u64::MAX`. -/
def U64_MAX : Nat := 256 ^ 8 - 1

/-- One record, in order. -/
def Replay.apply (replay : Replay) (loc : Loc) (r : Record) : Replay :=
  match r.kind with
  | .entry =>
    let purged := replay.sticky.purge.map Record.index
    let entries := below replay.entries r.index
    { replay with
      entries := if purged.all (r.index > ·) then entries.insert r.index loc else entries }
  | .truncate => { replay with entries := below replay.entries r.index }
  | .purge =>
    let entries := atLeast replay.entries (min (r.index + 1) U64_MAX)
    { replay with
      entries := if r.index = U64_MAX then ∅ else entries
      sticky := replay.sticky.insert r }
  | .vote => { replay with sticky := replay.sticky.insert r }
  | .committed => { replay with sticky := replay.sticky.insert r }

/-- The largest entry index seen. -/
def raiseMax (m : Option Nat) (r : Record) : Option Nat :=
  if r.kind = .entry then some (m.elim r.index (max · r.index)) else m

theorem ne_nil_of_parse {rest : Bytes} {r : Record} (h : parse rest = .record r) : rest ≠ [] := by
  rintro rfl
  simp [parse] at h

/-- The records from the front of `rest`, each with its offset, where the reading stopped, and why if
not at the end of the data. -/
def scan (rest : Bytes) (offset : Nat) : List (Nat × Record) × Nat × Option String :=
  match _parsed : parse rest with
  | .record r =>
    let (records, stop) := scan (rest.drop (HEADER_LEN + r.payload.length))
      (offset + HEADER_LEN + r.payload.length)
    ((offset, r) :: records, stop)
  | .done => ([], offset, none)
  | .bad why => ([], offset, some why)
termination_by rest.length
decreasing_by
  have some := List.length_pos_of_ne_nil (ne_nil_of_parse _parsed)
  rw [List.length_drop, HEADER_LEN]
  omega

/-- Where a segment's record is. -/
def locOf (segment : Nat) (row : Nat × Record) : Loc := ⟨segment, row.1, row.2.payload.length⟩

/-- The records of a segment, in order. -/
def Replay.applyAll (segment : Nat) (replay : Replay) (rows : List (Nat × Record)) : Replay :=
  rows.foldl (fun replay row => replay.apply (locOf segment row) row.2) replay

/-- The records at their locations, in order. -/
def Replay.run (replay : Replay) (rows : List (Loc × Record)) : Replay :=
  rows.foldl (fun replay row => replay.apply row.1 row.2) replay

/-! ## Files -/

/-- `write_all_at`, which fills a hole with zeros. -/
def writeAt (bytes : Bytes) (offset : Nat) (buf : Bytes) : Bytes :=
  bytes.take offset ++ (List.replicate (offset - bytes.length) 0 ++
    (buf ++ bytes.drop (offset + buf.length)))

/-- A segment file: what the page cache has of it, and what it was at the last sync. -/
structure SegFile where
  seq : Nat
  bytes : Bytes
  synced : Bytes

def SegFile.sync (file : SegFile) : SegFile := { file with synced := file.bytes }

def SegFile.write (file : SegFile) (offset : Nat) (buf : Bytes) : SegFile :=
  { file with bytes := writeAt file.bytes offset buf }

/-- A segment file of zeros, synced. -/
def SegFile.zeros (seq size : Nat) : SegFile := ⟨seq, List.replicate size 0, List.replicate size 0⟩

/-- Cut at `offset`, preallocated again and synced. Preallocation may fail; `room` zeros follow. -/
def SegFile.cut (file : SegFile) (offset room : Nat) : SegFile :=
  let bytes := file.bytes.take offset ++ List.replicate room 0
  ⟨file.seq, bytes, bytes⟩

/-- A segment as the writer knows it, with its file. -/
structure Segment where
  file : SegFile
  maxEntry : Option Nat

/-- What a new segment starts as: how many zeros, and whether they were written out. -/
structure Spare where
  size : Nat
  zeroFilled : Bool

/-- The writer, with its directory: the closed segments, the oldest first, and the last one. -/
structure Wal where
  segmentBytes : Nat
  closed : List Segment
  last : Segment
  offset : Nat
  sticky : Sticky
  preallocatedOnly : Bool

namespace Wal

def dir (wal : Wal) : List SegFile := (wal.closed ++ [wal.last]).map Segment.file

/-! ## Writing -/

/-- `fdatasync` of the last segment. -/
def sync (wal : Wal) : Wal := { wal with last := { wal.last with file := wal.last.file.sync } }

/-- Write at the end of the last segment. -/
def write (wal : Wal) (buf : Bytes) : Wal :=
  if buf.isEmpty then wal
  else
    { wal with
      last := { wal.last with file := wal.last.file.write wal.offset buf }
      offset := wal.offset + buf.length }

/-- Close the last segment, synced, and start the next with the sticky values. -/
def roll (wal : Wal) (spare : Spare) : Wal :=
  let wal := wal.sync
  let wal := { wal with
    closed := wal.closed ++ [wal.last]
    last := ⟨.zeros (wal.last.file.seq + 1) spare.size, none⟩
    offset := 0
    preallocatedOnly := !spare.zeroFilled }
  wal.write (wal.sticky.records.flatMap encodeRecord)

/-- What a record changes in memory. -/
def note (wal : Wal) (r : Record) : Wal :=
  { wal with
    last := { wal.last with maxEntry := raiseMax wal.last.maxEntry r }
    sticky := wal.sticky.insert r }

/-- One record, written at once. -/
def put (wal : Wal) (r : Record) : Wal := (wal.note r).write (encodeRecord r)

variable (spares : Nat → Spare)

/-- The records one by one into the buffer `buf`, which is written out before a roll. -/
def appendLoop (wal : Wal) (buf : Bytes) : List Record → Option (Wal × Bytes × List Loc)
  | [] => some (wal, buf, [])
  | r :: records =>
    if r.payload.length > MAX_PAYLOAD then none
    else
      let (wal, buf) :=
        if wal.offset + buf.length ≥ wal.segmentBytes ∧ wal.offset + buf.length > 0 then
          ((wal.write buf).roll (spares (wal.last.file.seq + 1)), [])
        else (wal, buf)
      let loc : Loc := ⟨wal.last.file.seq, wal.offset + buf.length, r.payload.length⟩
      (appendLoop (wal.note r) (buf ++ encodeRecord r) records).map
        fun (wal, buf, locs) => (wal, buf, loc :: locs)

/-- Append records, not synced, and say where each one is. `ready`: the zero-filled spare is. -/
def append (ready : Bool) (wal : Wal) (records : List Record) : Option (Wal × List Loc) :=
  let wal :=
    if wal.preallocatedOnly ∧ wal.offset > 0 ∧ ready then wal.roll (spares (wal.last.file.seq + 1))
    else wal
  (appendLoop spares wal [] records).map fun (wal, buf, locs) => (wal.write buf, locs)

/-- Delete the oldest segments while every entry in them is at `≤ index`, never the last one. -/
def dropSegmentsUpto (wal : Wal) (index : Nat) : Wal :=
  { wal with closed := wal.closed.dropWhile fun segment => segment.maxEntry.all (· ≤ index) }

/-! ## Opening -/

/-- A segment that is not the last has a record that does not parse. -/
structure Damage where
  segment : Nat
  offset : Nat
  why : String
deriving DecidableEq

/-- Replay the segments in order. The last one is cut at a record that does not parse. -/
def openSegments (segmentBytes room : Nat) :
    List Segment → SegFile → List SegFile → Replay → Except Damage (Wal × Replay)
  | closed, file, [], replay =>
    let (rows, offset, stop) := scan file.bytes 0
    let replay := replay.applyAll file.seq rows
    let maxEntry := (rows.map Prod.snd).foldl raiseMax none
    let (file, replay) :=
      match stop with
      | none => (file, replay)
      | some _ => (file.cut offset room, { replay with tornTail := true })
    .ok (⟨segmentBytes, closed, ⟨file, maxEntry⟩, offset, replay.sticky, false⟩, replay)
  | closed, file, next :: files, replay =>
    let (rows, offset, stop) := scan file.bytes 0
    match stop with
    | some why => .error ⟨file.seq, offset, why⟩
    | none =>
      let maxEntry := (rows.map Prod.snd).foldl raiseMax none
      openSegments segmentBytes room (closed ++ [⟨file, maxEntry⟩]) next files
        (replay.applyAll file.seq rows)

/-- Open, or create, the log in a directory and replay it. A new log's first segment is only
preallocated. -/
def openDir (segmentBytes room : Nat) : List SegFile → Except Damage (Wal × Replay)
  | [] => .ok (⟨max segmentBytes 4096, [], ⟨.zeros 0 room, none⟩, 0, {}, true⟩, {})
  | file :: files => openSegments (max segmentBytes 4096) room [] file files {}

/-- The payload at a location, its checksum verified. -/
def read (wal : Wal) (loc : Loc) : Option Bytes :=
  (wal.dir.find? (·.seq = loc.segment)).bind fun file =>
    let buf := (file.bytes.drop loc.offset).take (HEADER_LEN + loc.len)
    if buf.length < HEADER_LEN + loc.len then none
    else
      match parse buf with
      | .record r => if r.payload.length = loc.len then some r.payload else none
      | .done => none
      | .bad _ => none

end Wal

end Fastetcd.Storage
