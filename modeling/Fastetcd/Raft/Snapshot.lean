import Fastetcd.Mvcc.Maintenance

/-!
# Snapshot bodies (`raft/src/state_machine.rs`, `storage/src/mvcc/lease.rs`)

A snapshot body is the applied position and the membership, the three MVCC tables, and two
trailers: the auth tables and the lease tables. A member older than a trailer ends its body before
it. A body is written from one engine snapshot, a chunk of rows at a time, and installed by one commit
that clears the MVCC tables, puts every row, and replaces the trailers' tables.

The body is modelled as the values `bincode` writes and reads back, one after the other; a file that
does not decode is a body that is not there.
-/

namespace Fastetcd.Raft

open Mvcc

/-- The lease tables' rows, in key order. -/
structure LeaseTables where
  leases : List (Bytes × LeaseRecord)
  keys : List (Bytes × Unit)

def LeaseTables.read (t : Tables) : LeaseTables := ⟨t.lease.toList, t.leaseKeys.toList⟩

/-- Replace both tables: every row `current` holds is deleted first. -/
def LeaseTables.replaceInto (tables current : LeaseTables) : WriteBatch :=
  current.leases.map (fun row => .deleteLease row.1) ++
    current.keys.map (fun row => .deleteLeaseKey row.1) ++
    tables.leases.map (fun row => .putLease row.1 row.2) ++
    tables.keys.map (fun row => .putLeaseKey row.1)

/-- `TRAILER_MAGIC`, `LEASE_TRAILER_MAGIC`. -/
def trailerMagic : Bytes := Bincode.asBytes "FETCDTR1"

def leaseTrailerMagic : Bytes := Bincode.asBytes "FETCDTR2"

structure SnapshotTrailer where
  magic : Bytes
  auth : Option AuthTables

structure LeaseTrailer where
  magic : Bytes
  leases : Option LeaseTables

structure SnapshotBody where
  lastAppliedLogId : Option LogId
  lastMembership : StoredMembership
  kv : List (KvKey × KvRecord)
  idx : List (Bytes × KeyIndex)
  metaRows : List MetaRow
  trailer : Option SnapshotTrailer
  leaseTrailer : Option LeaseTrailer

/-! ## Writing a body -/

/-- What a snapshot is written from. -/
structure BodySource where
  snap : Tables
  lastAppliedLogId : Option LogId
  lastMembership : StoredMembership
  auth : AuthTables
  leases : LeaseTables

/-- `BODY_CHUNK`. -/
def bodyChunk : Nat := 128

/-- A table's rows as the body has them. -/
def bodyRows {K V : Type} [Ord K] [Std.TransOrd K] (t : Table K V) : List (K × V) :=
  t.readChunks bodyChunk (t.size + 1) none

/-- The rows of `mvcc_meta` that the state machine writes. -/
def raftRows (r : RaftTable) : List RaftRow :=
  r.applied.toList.map .applied ++ r.membership.toList.map .membership ++
    r.batch.toList.map (fun b => .batch b.1 b.2) ++ if r.batched then [.batched] else []

/-- The rows of `mvcc_meta`. They are few, and one chunk holds them. -/
def metaTableRows (m : MetaTable) : List MetaRow :=
  m.currentRev.toList.map .currentRev ++ m.compactRev.toList.map .compactRev ++
    m.nextLeaseId.toList.map .nextLeaseId ++ m.clusterId.toList.map .clusterId ++
    (raftRows m.raft).map .raft

/-- `write_body`. -/
def writeBody (src : BodySource) : SnapshotBody where
  lastAppliedLogId := src.lastAppliedLogId
  lastMembership := src.lastMembership
  kv := bodyRows src.snap.kv
  idx := bodyRows src.snap.idx
  metaRows := metaTableRows src.snap.metaRows
  trailer := some ⟨trailerMagic, some src.auth⟩
  leaseTrailer := some ⟨leaseTrailerMagic, some src.leases⟩

/-- `body_source`: everything from one engine snapshot. -/
def bodySource (t : Tables) (lastAppliedLogId : Option LogId) (lastMembership : StoredMembership) :
    BodySource :=
  ⟨t, lastAppliedLogId, lastMembership, AuthTables.read t, LeaseTables.read t⟩

/-! ## Installing a body -/

/-- What the trailers add to the batch; an unknown magic is an error. -/
def trailerOps (body : SnapshotBody) (current : LeaseTables) : Option WriteBatch :=
  match body.trailer with
  | none => some []
  | some t =>
    if t.magic ≠ trailerMagic then none
    else
      let auth := t.auth.elim [] AuthTables.replaceInto
      match body.leaseTrailer with
      | none => some auth
      | some l =>
        if l.magic ≠ leaseTrailerMagic then none
        else some (auth ++ l.leases.elim [] (·.replaceInto current))

/-- `stream_body`: the operations that install a body over a member's tables. -/
def streamBody (body : SnapshotBody) (current : LeaseTables) : Option WriteBatch := do
  let trailers ← trailerOps body current
  return [.deleteRangeKv [] clearEnd, .deleteRangeIdx [] clearEnd, .clearMeta] ++
    body.kv.map (fun row => .putKv row.1 row.2) ++ body.idx.map (fun row => .putIdx row.1 row.2) ++
    body.metaRows.map .putMeta ++
    [.putMeta (.raft (.applied body.lastAppliedLogId)),
     .putMeta (.raft (.membership body.lastMembership))] ++
    trailers

/-- `install_snapshot` up to the state machine's own fields. A body that does not decode leaves the
store as it is. -/
def installSnapshot (s : Store) (body : SnapshotBody) (engineOk : Bool) :
    Except MvccError Unit × Store :=
  match streamBody body (LeaseTables.read s.engine) with
  | none => (.error .storage, s)
  | some batch =>
    match s.installTables batch engineOk with
    | (.error e, s) => (.error e, s)
    | (.ok (), s) => (.ok (), s.reloadAuth)

end Fastetcd.Raft
