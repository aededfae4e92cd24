import Fastetcd.Data.BigEndian
import Fastetcd.Data.ReaderCut
import Fastetcd.Data.Writer
import Fastetcd.Storage.Rewrite

/-!
# The backup format (`server/src/backup.rs`, `server/src/maintenance.rs`)

A backup is every table of the engine behind a magic number, a format number and a header, with the
SHA-256 of all that at its end. `Dump::write_to` writes it to a file, or into the chunks of
`Maintenance.Snapshot`, and hashes what the writer takes. `restore_to` checks a file and builds a new
store from it, which then takes the data file's place.

SHA-256 is any function to 32 bytes. How bincode splits what it writes is any way of splitting it.
Writers, the engine and the files answer every call: what a failed or cut off restore leaves is not
modelled. The response header and version of a chunk are left out.
-/

namespace Fastetcd.Server.Backup

open Mvcc (Bytes)
open Storage (Db Row WriteBatch BatchOp)
open Storage.Rewrite (File putRows)
open Bincode (Reader asBytes leBytes ofLeBytes encodeString readString encodeBytes readBytes encodeList
  readList encodeU64 readU64 encodeOption readOption)

structure BackupHeader where
  fastetcdVersion : String
  createdUnixMs : UInt64
  nodeId : UInt64
  clusterId : Option UInt64
  revision : Int64
  members : List UInt64
deriving DecidableEq

/-- A table's name and rows. -/
abbrev TableDump := String × List Row

structure Dump where
  header : BackupHeader
  tables : List TableDump

/-- `SHA-256`. -/
structure Digest where
  sum : Bytes → Bytes
  length_sum : ∀ bytes, (sum bytes).length = 32

/-! ## Reading the engine -/

/-- The lengths bincode writes are `u64`s. -/
abbrev lengthEnd : Nat := 256 ^ 8

/-- An engine's tables, of lengths that a machine can have. -/
structure Engine extends File where
  names_lt : names.length < lengthEnd
  name_lt : ∀ table ∈ names, (asBytes table).length < lengthEnd
  rows_lt : ∀ table ∈ names, (db table).toList.length < lengthEnd
  cells_lt : ∀ table ∈ names, ∀ row ∈ (db table).toList,
    row.1.length < lengthEnd ∧ row.2.length < lengthEnd

/-- What the header takes from the build and from openraft: the version, and the members a stored
membership names. -/
structure Build where
  version : String
  memberIds : Bytes → Option (List UInt64)
  version_lt : (asBytes version).length < lengthEnd
  ids_lt : ∀ bytes ids, memberIds bytes = some ids → ids.length < lengthEnd

def find (tables : List TableDump) (table : String) (key : Bytes) : Option Bytes := do
  let dump ← tables.find? fun t => t.1 == table
  let row ← dump.2.find? fun row => row.1 == key
  return row.2

/-- `<[u8; 8]>::try_from` and `from_be_bytes`. -/
def fromBeBytes (bytes : Bytes) : Option UInt64 :=
  if bytes.length = 8 then some (UInt64.ofNat (BigEndian.value bytes)) else none

/-- `Dump::read`. -/
def Dump.read (engine : Engine) (build : Build) (nodeId nowMs : UInt64) : Dump :=
  let tables := engine.rows
  { header :=
      { fastetcdVersion := build.version
        createdUnixMs := nowMs
        nodeId := nodeId
        clusterId := (find tables "node_meta" (asBytes "cluster_id")).bind fromBeBytes
        revision := (((find tables "mvcc_meta" (asBytes "current_rev")).bind fromBeBytes).map
          UInt64.toInt64).getD 0
        members := ((find tables "mvcc_meta" (asBytes "raft_membership")).bind
          build.memberIds).getD [] }
    tables }

/-! ## The format -/

/-- `FEBACKUP`. -/
def magic : Bytes := [0x46, 0x45, 0x42, 0x41, 0x43, 0x4b, 0x55, 0x50]

def format : Nat := 1

def encodeHeader (h : BackupHeader) : Bytes :=
  encodeString h.fastetcdVersion ++ (encodeU64 h.createdUnixMs ++ (encodeU64 h.nodeId ++
    (encodeOption encodeU64 h.clusterId ++ (encodeU64 h.revision.toUInt64 ++
      encodeList encodeU64 h.members))))

def readHeader : Reader BackupHeader :=
  readString.andThen fun fastetcdVersion => readU64.andThen fun createdUnixMs =>
    readU64.andThen fun nodeId => (readOption readU64).andThen fun clusterId =>
      readU64.andThen fun revision => (readList readU64).andThen fun members =>
        Reader.value
          { fastetcdVersion, createdUnixMs, nodeId, clusterId, revision := revision.toInt64, members }

def encodeRow (row : Row) : Bytes := encodeBytes row.1 ++ encodeBytes row.2

def readRow : Reader Row := readBytes.andThen fun key => readBytes.andThen fun value =>
  Reader.value (key, value)

def encodeTable (t : TableDump) : Bytes := encodeString t.1 ++ encodeList encodeRow t.2

def readTable : Reader TableDump := readString.andThen fun name =>
  (readList readRow).andThen fun rows => Reader.value (name, rows)

/-- Everything the digest is of. -/
def Dump.body (dump : Dump) : Bytes :=
  magic ++ (leBytes 4 format ++ (encodeHeader dump.header ++ encodeList encodeTable dump.tables))

/-! ## Writing it -/

/-- How bincode splits what it writes. -/
structure Pieces where
  split : Bytes → List Bytes
  flatten_split : ∀ bytes, (split bytes).flatten = bytes

/-- `HashingWriter`: the writer, and what was hashed. -/
def hashing {W : Type} (write : Writer W) : Writer (W × Bytes) := fun w buf =>
  let (n, inner) := write w.1 buf
  (n, inner, w.2 ++ buf.take n)

/-- `Dump::write_to`. -/
def Dump.writeTo {W : Type} (digest : Digest) (pieces : Pieces) (write : Writer W) (w : W)
    (dump : Dump) : Option W := do
  let w ← Writer.writeAll (hashing write) (w, []) magic
  let w ← Writer.writeAll (hashing write) w (leBytes 4 format)
  let w ← Writer.writePieces (hashing write) w (pieces.split (encodeHeader dump.header))
  let w ← Writer.writePieces (hashing write) w (pieces.split (encodeList encodeTable dump.tables))
  Writer.writeAll write w.1 (digest.sum w.2)

/-- A file, written through a buffer. -/
def fileWriter : Writer Bytes := fun written buf => (buf.length, written ++ buf)

/-! ### `Maintenance.Snapshot` -/

/-- `bincode::serialized_size` of the header. -/
def headerSize (h : BackupHeader) : Nat :=
  (8 + (asBytes h.fastetcdVersion).length) + 8 + 8 + (if h.clusterId.isSome then 9 else 1) + 8 +
    (8 + 8 * h.members.length)

def rowSize (row : Row) : Nat := (8 + row.1.length) + (8 + row.2.length)

def tableSize (t : TableDump) : Nat :=
  (8 + (asBytes t.1).length) + (8 + (t.2.map rowSize).sum)

/-- `Dump::encoded_len`. -/
def Dump.encodedLen (dump : Dump) : Nat :=
  magic.length + 4 + headerSize dump.header + (8 + (dump.tables.map tableSize).sum) + 32

/-- What of a `SnapshotResponse` is the chunk's own. -/
structure Chunk where
  remainingBytes : Nat
  blob : Bytes
deriving DecidableEq

structure SnapshotChunks where
  total : Nat
  sent : Nat
  buf : Bytes
  /-- the stream so far -/
  stream : List Chunk

namespace SnapshotChunks

/-- `CHUNK`. -/
def chunkSize : Nat := 64 * 1024

def sendBuf (w : SnapshotChunks) : SnapshotChunks :=
  if w.buf.isEmpty then w
  else
    let sent := w.sent + w.buf.length
    { w with sent, buf := [], stream := w.stream ++ [⟨w.total - sent, w.buf⟩] }

def write : Writer SnapshotChunks := fun w data =>
  let n := min data.length (chunkSize - w.buf.length)
  let w := { w with buf := w.buf ++ data.take n }
  (n, if w.buf.length = chunkSize then w.sendBuf else w)

end SnapshotChunks

/-- `snapshot`: the chunks it streams. -/
def snapshot (digest : Digest) (pieces : Pieces) (dump : Dump) : Option (List Chunk) := do
  let w ← dump.writeTo digest pieces SnapshotChunks.write ⟨dump.encodedLen, 0, [], []⟩
  return w.sendBuf.stream

/-! ## Reading it -/

inductive ReadError where
  | tooShort
  | checksum
  | notABackup
  | format (n : Nat)
  | decode
deriving DecidableEq

/-- The rest of `read`, once the digest has passed. -/
def readChecked (body : Bytes) (tables : Bool) :
    Except ReadError (BackupHeader × List TableDump) :=
  if body.take 8 ≠ magic then .error .notABackup
  else
    let found := ofLeBytes ((body.drop 8).take 4)
    if found ≠ format then .error (.format found)
    else
      match readHeader (body.drop 12) with
      | none => .error .decode
      | some (header, rest) =>
        if tables then
          match readList readTable rest with
          | none => .error .decode
          | some (tables, _) => .ok (header, tables)
        else .ok (header, [])

/-- `read`: the digest before anything else. -/
def read (digest : Digest) (file : Bytes) (tables : Bool) :
    Except ReadError (BackupHeader × List TableDump) :=
  if file.length < magic.length + 4 + 32 then .error .tooShort
  else
    let body := file.take (file.length - 32)
    if digest.sum body ≠ file.drop (file.length - 32) then .error .checksum
    else readChecked body tables

/-- `RESTORE_BATCH_ROWS`. -/
def restoreBatchRows : Nat := 10000

/-- `chunks`. -/
def chunks {α : Type} (n : Nat) (l : List α) : List (List α) :=
  if _more : l ≠ [] ∧ 0 < n then l.take n :: chunks n (l.drop n) else []
termination_by l.length
decreasing_by
  have long := List.length_pos_iff.mpr _more.1
  rw [List.length_drop]
  omega

/-- The batches a restore commits. -/
def restoreBatches (tables : List TableDump) : List WriteBatch :=
  tables.flatMap fun t => (chunks restoreBatchRows t.2).map (putRows t.1)

/-- `restore_to`: what it returns, and the data file then. -/
def restoreTo (digest : Digest) (file : Bytes) (target : Option Db) :
    Except ReadError BackupHeader × Option Db :=
  match read digest file true with
  | .error e => (.error e, target)
  | .ok (header, tables) =>
    (.ok header, some (Db.commitAll (fun _ => ∅) (restoreBatches tables)))

end Fastetcd.Server.Backup
