import Fastetcd.Mvcc.Engine

/-!
# `HashKV` (`server/src/maintenance.rs`)

The hash is over the rows of `mvcc_kv` in one snapshot of the engine. The revision in the answer is
read afterwards.
-/

namespace Fastetcd.Server

open Mvcc

/-- `HashKvResponse`. -/
structure HashKvResponse where
  hash : UInt32
  compactRevision : Int
  hashRevision : Int

section

variable (serialize : KvRecord → Bytes) (digest : Bytes → UInt32)

/-- What is hashed of a row. -/
def hashedRow (row : KvKey × KvRecord) : Bytes :=
  let k := makeKvKey row.1
  let v := serialize row.2
  lengthPrefix k.length ++ k ++ lengthPrefix v.length ++ v

/-- The rows that are hashed. -/
def hashedRows (snap : Tables) (revision : Int) : List (KvKey × KvRecord) :=
  snap.kv.toList.filter fun row => !(revision > 0 && row.2.modRevision > revision)

/-- `hash_kv_table`, for a snapshot and the revision read after it. `digest` is the first four bytes
of a SHA-256. -/
def hashKvTable (snap : Tables) (current revision : Int) : Int × UInt32 :=
  (current, digest ((hashedRows snap revision).flatMap (hashedRow serialize)))

/-- `hash_kv`. -/
def hashKv (snap : Tables) (current revision : Int) : HashKvResponse :=
  let (revision, hash) := hashKvTable serialize digest snap current revision
  ⟨hash, 0, revision⟩

end

end Fastetcd.Server
