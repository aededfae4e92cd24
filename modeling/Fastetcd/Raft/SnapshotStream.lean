import Fastetcd.Data.StreamCodec
import Fastetcd.Raft.Snapshot
import Fastetcd.Storage.KvStore

/-!
# The bytes of a snapshot body, and installing them (`raft/src/state_machine.rs`)

A body is the applied position, the membership, the rows of the three MVCC tables, and up to two
trailers. `stream_body` decodes it a record at a time and sends the engine the operations that
install it; `commit_stream` applies them in one write transaction as they arrive, and drops the
transaction when the stream ends with an error. After the commit the store reloads its index and
its counters from the tables.

openraft's log ids and memberships are read back as they were written; nothing else about them
matters here, so they are any two types with a codec. The engine and the file answer every call.
-/

namespace Fastetcd.Raft.Streamed

open Mvcc (Bytes clearEnd)
open Storage (Db BatchOp WriteBatch Row)
open StreamCodec (Codec Vec ReadError Sender)
open Bincode (asBytes)

/-! ## The layout -/

/-- `(Vec<u8>, Vec<u8>)`. -/
abbrev KvPair := Vec UInt8 × Vec UInt8

def KvPair.row (pair : KvPair) : Row := (pair.1.toList, pair.2.toList)

def kvPair : Codec KvPair := Codec.byte.vec.pair Codec.byte.vec

/-- The rows of a table, as the body has them. -/
abbrev TableRows := Vec KvPair

def TableRows.rows (t : TableRows) : List Row := t.toList.map KvPair.row

structure AuthTables where
  users : TableRows
  roles : TableRows
  state : TableRows

structure LeaseTables where
  leases : TableRows
  keys : TableRows

structure SnapshotTrailer where
  magic : { bytes : List UInt8 // bytes.length = 8 }
  auth : Option AuthTables

structure LeaseTrailer where
  magic : { bytes : List UInt8 // bytes.length = 8 }
  leases : Option LeaseTables

def authTables : Codec AuthTables :=
  (kvPair.vec.pair (kvPair.vec.pair kvPair.vec)).iso (fun v => ⟨v.1, v.2.1, v.2.2⟩)
    (fun t => (t.users, t.roles, t.state)) fun _ => rfl

def leaseTables : Codec LeaseTables :=
  (kvPair.vec.pair kvPair.vec).iso (fun v => ⟨v.1, v.2⟩) (fun t => (t.leases, t.keys)) fun _ => rfl

def snapshotTrailer : Codec SnapshotTrailer :=
  ((Codec.byte.array 8).pair authTables.option).iso (fun v => ⟨v.1, v.2⟩)
    (fun t => (t.magic, t.auth)) fun _ => rfl

def leaseTrailer : Codec LeaseTrailer :=
  ((Codec.byte.array 8).pair leaseTables.option).iso (fun v => ⟨v.1, v.2⟩)
    (fun t => (t.magic, t.leases)) fun _ => rfl

/-- `BODY_TABLES`. -/
def bodyTables : List String := ["mvcc_kv", "mvcc_idx", "mvcc_meta"]

/-! ## What a body installs -/

/-- `AuthTables::replace_into`. -/
def AuthTables.replaceInto (t : AuthTables) : WriteBatch :=
  ["auth_users", "auth_roles", "auth_state"].map (BatchOp.deleteRange · [] clearEnd) ++
    t.users.rows.map (fun row => .put "auth_users" row.1 row.2) ++
    t.roles.rows.map (fun row => .put "auth_roles" row.1 row.2) ++
    t.state.rows.map (fun row => .put "auth_state" row.1 row.2)

/-- This member's lease rows, read before the body is. -/
structure CurrentLeases where
  leases : List Row
  keys : List Row

def CurrentLeases.read (db : Db) : CurrentLeases :=
  ⟨(db "lease").toList, (db "lease_keys").toList⟩

/-- `LeaseTables::replace_into`: every row `current` holds is deleted first. -/
def LeaseTables.replaceInto (t : LeaseTables) (current : CurrentLeases) : WriteBatch :=
  current.leases.map (fun row => .delete "lease" row.1) ++
    current.keys.map (fun row => .delete "lease_keys" row.1) ++
    t.leases.rows.map (fun row => .put "lease" row.1 row.2) ++
    t.keys.rows.map (fun row => .put "lease_keys" row.1 row.2)

/-- The rows of one table, each sent as it is read. -/
def streamRows (table : String) : Nat → Sender BatchOp Unit
  | 0 => pure ()
  | n + 1 => do
    let pair ← Sender.read kvPair
    Sender.send [.put table pair.row.1 pair.row.2]
    streamRows table n

def streamTable (table : String) : Sender BatchOp Unit := do
  let n ← Sender.read Codec.u64
  streamRows table n.toNat

/-- What the trailers add to the batch. Each is optional, and a body without one leaves its tables
as they are. -/
def trailerOps (current : CurrentLeases) : Sender BatchOp WriteBatch := do
  match ← Sender.readTrailer snapshotTrailer with
  | none => return []
  | some t =>
    if t.magic.1 ≠ trailerMagic then Sender.fail .invalidData
    else
      let auth := t.auth.elim [] AuthTables.replaceInto
      match ← Sender.readTrailer leaseTrailer with
      | none => return auth
      | some l =>
        if l.magic.1 ≠ leaseTrailerMagic then Sender.fail .invalidData
        else return auth ++ l.leases.elim [] (·.replaceInto current)

section Headers

variable {LogId StoredMembership : Type} (logId : Codec LogId)
  (storedMembership : Codec StoredMembership)

structure BodyHeader (LogId StoredMembership : Type) where
  lastAppliedLogId : Option LogId
  lastMembership : StoredMembership

/-- The applied position and the membership as the tables keep them. -/
def BodyHeader.rows (header : BodyHeader LogId StoredMembership) : WriteBatch :=
  [.put "mvcc_meta" (asBytes "raft_applied") (logId.option.encode header.lastAppliedLogId),
   .put "mvcc_meta" (asBytes "raft_membership") (storedMembership.encode header.lastMembership)]

/-- The body up to the end of its tables. -/
def streamTables : Sender BatchOp (BodyHeader LogId StoredMembership) := do
  let lastAppliedLogId ← Sender.read logId.option
  let lastMembership ← Sender.read storedMembership
  Sender.send (bodyTables.map (BatchOp.deleteRange · [] clearEnd))
  bodyTables.forM streamTable
  return ⟨lastAppliedLogId, lastMembership⟩

/-- `stream_body`. -/
def streamBody (current : CurrentLeases) : Sender BatchOp (BodyHeader LogId StoredMembership) := do
  let header ← streamTables logId storedMembership
  let trailers ← trailerOps current
  Sender.send (header.rows logId storedMembership ++ trailers)
  return header

/-! ## Installing -/

/-- What the decoding thread sends the engine: an operation, or that the body could not be read to
its end. -/
inductive Item where
  | op (op : BatchOp)
  | abort

/-- `stream_content`: a body that does not decode ends the stream with an error. -/
def streamContent (current : CurrentLeases) (content : Bytes) :
    List Item × Except ReadError (BodyHeader LogId StoredMembership) :=
  match streamBody logId storedMembership current content with
  | (ops, .ok (header, _)) => (ops.map .op, .ok header)
  | (ops, .error e) => (ops.map .op ++ [.abort], .error e)

/-- `commit_stream`: one transaction, fed as the operations arrive, and committed if the stream
ends without an error. -/
def commitStream (txn : Db) : List Item → Option Db
  | [] => some txn
  | .op op :: items => commitStream (txn.apply op) items
  | .abort :: _ => none

def revision : Codec (UInt64 × UInt64) := Codec.u64.pair Codec.u64

/-- A `KeyIndex` row: the key, and for each generation where it starts, its revisions and its
tombstone. -/
def keyIndex : Codec (Vec UInt8 × Vec ((UInt64 × UInt64) × Vec (UInt64 × UInt64) ×
    Option (UInt64 × UInt64))) :=
  Codec.byte.vec.pair (revision.pair (revision.vec.pair revision.option)).vec

/-- Whether `reload_locked` can read the tables: a cluster id of eight bytes if there is one, and an
index whose every row decodes. -/
def reloads (db : Db) : Bool :=
  (db.get "mvcc_meta" (asBytes "cluster_id")).all (·.length == 8) &&
    (db "mvcc_idx").toList.all fun row => (keyIndex.read row.2).isOk

inductive InstallError where
  /-- "decode snapshot" -/
  | decode (e : ReadError)
  /-- "rebuild mvcc from snapshot" -/
  | rebuild
deriving DecidableEq

/-- `install_snapshot` up to the state machine's own fields: its answer and the tables after it. -/
def installSnapshot (db : Db) (content : Bytes) :
    Except InstallError (BodyHeader LogId StoredMembership) × Db :=
  let (items, header) := streamContent logId storedMembership (CurrentLeases.read db) content
  let committed := commitStream db items
  let after := committed.getD db
  match header, committed with
  | .error e, _ => (.error (.decode e), after)
  | .ok _, none => (.error .rebuild, after)
  | .ok header, some _ => if reloads after then (.ok header, after) else (.error .rebuild, after)

/-! ## Bodies -/

/-- The trailers of a body: none from the oldest members, then the auth tables, then the lease
tables after them. -/
inductive Trailers where
  | none
  | auth (auth : Option AuthTables)
  | both (auth : Option AuthTables) (leases : Option LeaseTables)

/-- A snapshot body, as a member writes it. -/
structure Body (LogId StoredMembership : Type) where
  header : BodyHeader LogId StoredMembership
  kv : TableRows
  idx : TableRows
  metaRows : TableRows
  trailers : Trailers

/-- A trailer's bytes: its magic and its tables. -/
def authTrailerBytes (auth : Option AuthTables) : Bytes :=
  snapshotTrailer.encode ⟨⟨trailerMagic, by decide +kernel⟩, auth⟩

def leaseTrailerBytes (leases : Option LeaseTables) : Bytes :=
  leaseTrailer.encode ⟨⟨leaseTrailerMagic, by decide +kernel⟩, leases⟩

def Trailers.bytes : Trailers → List Bytes
  | .none => []
  | .auth tables => [authTrailerBytes tables]
  | .both tables leases => [authTrailerBytes tables, leaseTrailerBytes leases]

namespace Body

def tables (body : Body LogId StoredMembership) : List TableRows :=
  [body.kv, body.idx, body.metaRows]

/-- The bytes up to the end of the tables. -/
def tablesSection (logId : Codec LogId) (storedMembership : Codec StoredMembership)
    (body : Body LogId StoredMembership) : Bytes :=
  logId.option.encode body.header.lastAppliedLogId ++
    (storedMembership.encode body.header.lastMembership ++ body.tables.flatMap kvPair.vec.encode)

def bytes (logId : Codec LogId) (storedMembership : Codec StoredMembership)
    (body : Body LogId StoredMembership) : Bytes :=
  body.tablesSection logId storedMembership ++ body.trailers.bytes.flatten

end Body

end Headers

end Fastetcd.Raft.Streamed
