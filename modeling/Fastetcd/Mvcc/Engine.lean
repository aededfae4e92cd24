import Fastetcd.Mvcc.Request

/-!
# The engine's tables and write batches (`storage/src/kvstore.rs`)

The engine holds named tables of byte strings and commits a batch of operations atomically, in
order. The model keeps each table typed by what the store writes into it: a row that only the
store writes and reads back through `bincode` is its decoded value. `mvcc_meta` has one row per
key the store knows; the raft rows among them are opaque to the store, which only carries them.

An engine read that fails is outside the model. A commit either takes effect as a whole or
returns an error and takes no effect.
-/

namespace Fastetcd.Mvcc

/-! ## `mvcc_meta` -/

/-- openraft's `LogId`. -/
structure LogId where
  term : Nat
  node : Nat
  index : Nat
deriving DecidableEq

/-- openraft's `StoredMembership`: the configuration and the entry that set it. -/
structure StoredMembership where
  logId : Option LogId
  configs : List (List Nat)
deriving DecidableEq

/-- The rows of `mvcc_meta` that the state machine stages and the store only carries: the applied
position, the membership, how far into a batched entry the apply is, and the marker that a batched
entry was applied. -/
inductive RaftRow where
  | applied (logId : Option LogId)
  | membership (membership : StoredMembership)
  | batch (index done : Nat)
  | batched
deriving DecidableEq

/-- One row of `mvcc_meta`. -/
inductive MetaRow where
  | currentRev (rev : Int)
  | compactRev (rev : Int)
  | nextLeaseId (id : LeaseId)
  | clusterId (id : UInt64)
  | raft (row : RaftRow)
deriving DecidableEq

/-- The staged rows of `mvcc_meta`, by key. -/
structure RaftTable where
  applied : Option (Option LogId) := none
  membership : Option StoredMembership := none
  batch : Option (Nat × Nat) := none
  batched : Bool := false
deriving DecidableEq

/-- The rows of `mvcc_meta`, by key. -/
structure MetaTable where
  currentRev : Option Int := none
  compactRev : Option Int := none
  nextLeaseId : Option LeaseId := none
  clusterId : Option UInt64 := none
  raft : RaftTable := {}
deriving DecidableEq

def RaftTable.put (r : RaftTable) : RaftRow → RaftTable
  | .applied logId => { r with applied := some logId }
  | .membership membership => { r with membership := some membership }
  | .batch index done => { r with batch := some (index, done) }
  | .batched => { r with batched := true }

def MetaTable.put (m : MetaTable) : MetaRow → MetaTable
  | .currentRev rev => { m with currentRev := some rev }
  | .compactRev rev => { m with compactRev := some rev }
  | .nextLeaseId id => { m with nextLeaseId := some id }
  | .clusterId id => { m with clusterId := some id }
  | .raft row => { m with raft := m.raft.put row }

/-! ## Tables and batches -/

/-- The three auth tables. -/
inductive AuthTable where
  | users | roles | state
deriving DecidableEq

/-- Every table the store and the state machine write. -/
structure Tables where
  kv : Table KvKey KvRecord
  idx : Table Bytes KeyIndex
  metaRows : MetaTable
  lease : Table Bytes LeaseRecord
  leaseKeys : Table Bytes Unit
  auth : AuthTable → Table Bytes Bytes

/-- A new engine's tables. -/
def Tables.empty : Tables := ⟨∅, ∅, {}, ∅, ∅, fun _ => ∅⟩

/-- `u32::to_be_bytes` of a length. -/
def lengthPrefix (n : Nat) : Bytes :=
  [n / 256 ^ 3, n / 256 ^ 2, n / 256, n].map UInt8.ofNat

/-- `make_kv_key`: length-prefixed user key, then the revision's sixteen bytes. -/
def makeKvKey (k : KvKey) : Bytes :=
  lengthPrefix k.key.length ++ k.key ++ toBeBytes (Int64.ofInt k.rev.main) ++
    toBeBytes (match k.rev.sub with
      | some sub => Int64.ofNat sub
      | none => Int64.maxValue)

/-- One operation of a `WriteBatch`. -/
inductive BatchOp where
  | putKv (key : KvKey) (rec : KvRecord)
  | deleteKv (key : KvKey)
  | deleteRangeKv (start stop : Bytes)
  | putIdx (key : Bytes) (idx : KeyIndex)
  | deleteIdx (key : Bytes)
  | deleteRangeIdx (start stop : Bytes)
  | putMeta (row : MetaRow)
  /-- The range delete of a snapshot install; every `mvcc_meta` key is ASCII and lies in it. -/
  | clearMeta
  | putLease (key : Bytes) (rec : LeaseRecord)
  | deleteLease (key : Bytes)
  | putLeaseKey (key : Bytes)
  | deleteLeaseKey (key : Bytes)
  | putAuth (table : AuthTable) (key value : Bytes)
  | deleteAuth (table : AuthTable) (key : Bytes)
  | deleteRangeAuth (table : AuthTable) (start stop : Bytes)

abbrev WriteBatch := List BatchOp

/-- `[start, stop)`, what a range delete removes. -/
def inDeleteRange (start stop k : Bytes) : Bool := decide (start ≤ k) && decide (k < stop)

def Tables.setAuth (t : Tables) (table : AuthTable) (rows : Table Bytes Bytes) : Tables :=
  { t with auth := Function.update t.auth table rows }

def Tables.apply (t : Tables) : BatchOp → Tables
  | .putKv k rec => { t with kv := t.kv.insert k rec }
  | .deleteKv k => { t with kv := t.kv.erase k }
  | .deleteRangeKv start stop =>
    { t with kv := t.kv.filter fun k _ => !inDeleteRange start stop (makeKvKey k) }
  | .putIdx k idx => { t with idx := t.idx.insert k idx }
  | .deleteIdx k => { t with idx := t.idx.erase k }
  | .deleteRangeIdx start stop =>
    { t with idx := t.idx.filter fun k _ => !inDeleteRange start stop k }
  | .putMeta row => { t with metaRows := t.metaRows.put row }
  | .clearMeta => { t with metaRows := {} }
  | .putLease k rec => { t with lease := t.lease.insert k rec }
  | .deleteLease k => { t with lease := t.lease.erase k }
  | .putLeaseKey k => { t with leaseKeys := t.leaseKeys.insert k () }
  | .deleteLeaseKey k => { t with leaseKeys := t.leaseKeys.erase k }
  | .putAuth table k v => t.setAuth table ((t.auth table).insert k v)
  | .deleteAuth table k => t.setAuth table ((t.auth table).erase k)
  | .deleteRangeAuth table start stop =>
    t.setAuth table ((t.auth table).filter fun k _ => !inDeleteRange start stop k)

/-- A commit that succeeds applies the whole batch, in order. -/
def Tables.commit (t : Tables) (batch : WriteBatch) : Tables := batch.foldl Tables.apply t

@[simp]
theorem Tables.commit_nil (t : Tables) : t.commit [] = t := rfl

@[simp]
theorem Tables.commit_cons (t : Tables) (op : BatchOp) (batch : WriteBatch) :
    t.commit (op :: batch) = (t.apply op).commit batch := rfl

theorem Tables.commit_append (t : Tables) (a b : WriteBatch) :
    t.commit (a ++ b) = (t.commit a).commit b :=
  List.foldl_append

end Fastetcd.Mvcc
