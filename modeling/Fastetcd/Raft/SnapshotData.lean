import Fastetcd.Data.WriteAt
import Fastetcd.Mvcc.Revision

/-!
# A snapshot being received (`raft/src/snapshot_data.rs`)

The body of a snapshot is a retained file, a temp file that received chunks are written into, or
bytes in memory. A write into the temp file that fails is retried once the retained snapshots are
discarded, if the volume is full; if that fails too, what was received so far is read back and the
receiver goes on in memory.

Every operation on a file may fail, and a failed write may leave any part of its data and the
position anywhere. What discarding does to the retained snapshots is not modelled here.
-/

namespace Fastetcd.Raft.Received

open Mvcc (Bytes)

/-- An open file, or a `Cursor<Vec<u8>>`. -/
structure Cursor where
  bytes : Bytes
  pos : Nat
deriving DecidableEq

inductive SeekFrom where
  | start (n : Nat)
  | fromEnd (off : Int)
  | current (off : Int)

inductive IoError where
  | outOfSpace
  | permissionDenied
  | invalidInput
  | other
deriving DecidableEq

/-- `is_out_of_space`. -/
def IoError.isOutOfSpace : IoError → Bool
  | .outOfSpace => true
  | _ => false

namespace Cursor

/-- A position is a `u64`. -/
def moveTo (c : Cursor) (pos : Int) : Except IoError Cursor :=
  if 0 ≤ pos ∧ pos < 2 ^ 64 then .ok { c with pos := pos.toNat } else .error .invalidInput

/-- `Seek::seek` of a cursor. -/
def seek (c : Cursor) : SeekFrom → Except IoError Cursor
  | .start n => c.moveTo n
  | .fromEnd off => c.moveTo (c.bytes.length + off)
  | .current off => c.moveTo (c.pos + off)

/-- `Write::write` of a cursor: it takes all of `data`, and fills a gap before the position. -/
def write (c : Cursor) (data : Bytes) : Cursor :=
  ⟨writeAt 0 c.bytes c.pos data, c.pos + data.length⟩

/-- A file's `seek`: it may fail, and a file has no position of 2⁶³ or more. -/
def seekFile (f : Cursor) (target : SeekFrom) (fault : Option IoError) : Except IoError Cursor :=
  match fault with
  | some e => .error e
  | none => do
    let f ← f.seek target
    if f.pos < 2 ^ 63 then return f else throw .invalidInput

/-- What a file holds after `data` was written: nothing changes when there is none. -/
def put (f : Cursor) (data : Bytes) : Cursor := if data = [] then f else f.write data

end Cursor

/-- How a file's `write_all` ends. -/
inductive Wrote where
  | all
  | failed (e : IoError) (part pos : Nat)

def Cursor.writeAllFile (f : Cursor) (data : Bytes) : Wrote → Cursor × Except IoError Unit
  | .all => (f.put data, .ok ())
  | .failed e part pos => ({ f.put (data.take part) with pos }, .error e)

inductive Body where
  | retained (file : Cursor)
  | incoming (file : Cursor) (discarded : Bool)
  | memory (cursor : Cursor)
deriving DecidableEq

/-- How the file operations of one write end. -/
structure Faults where
  position : Option IoError
  write : Wrote
  retrySeek : Option IoError
  retry : Wrote
  readBack : Option IoError

/-- `fall_back_to_memory`. -/
def Body.fallBackToMemory (b : Body) (err : IoError) (pos : Nat) (data : Bytes) (faults : Faults) :
    Body × Except IoError Unit :=
  match b with
  | .incoming file _ =>
    match faults.readBack with
    | some _ => (b, .error err)
    | none => (.memory (Cursor.write ⟨file.bytes, pos⟩ data), .ok ())
  | _ => (b, .error err)

/-- `recover_write`. -/
def Body.recoverWrite (b : Body) (err : IoError) (pos : Nat) (data : Bytes) (faults : Faults) :
    Body × Except IoError Unit :=
  match b with
  | .incoming file discarded =>
    if err.isOutOfSpace && !discarded then
      match file.seekFile (.start pos) faults.retrySeek with
      | .error e => (Body.incoming file true).fallBackToMemory e pos data faults
      | .ok file =>
        match file.writeAllFile data faults.retry with
        | (file, .ok ()) => (.incoming file true, .ok ())
        | (file, .error e) => (Body.incoming file true).fallBackToMemory e pos data faults
    else b.fallBackToMemory err pos data faults
  | _ => (b, .error err)

/-- `poll_write`. -/
def Body.pollWrite (b : Body) (data : Bytes) (faults : Faults) : Body × Except IoError Nat :=
  match b with
  | .memory c => (.memory (c.write data), .ok data.length)
  | .retained _ => (b, .error .permissionDenied)
  | .incoming file discarded =>
    match faults.position with
    | some e => (b, .error e)
    | none =>
      match file.writeAllFile data faults.write with
      | (written, .ok ()) => (.incoming written discarded, .ok data.length)
      | (written, .error e) =>
        let (b, recovered) := (Body.incoming written discarded).recoverWrite e file.pos data faults
        (b, recovered.map fun () => data.length)

/-- `start_seek` and `poll_complete`. -/
def Body.seek (b : Body) (target : SeekFrom) (fault : Option IoError) : Except IoError Body :=
  match b with
  | .retained file => .retained <$> file.seekFile target fault
  | .incoming file discarded => (.incoming · discarded) <$> file.seekFile target fault
  | .memory c => .memory <$> c.seek target

/-- `AsyncWriteExt::write_all`. A `poll_write` that returns has taken all of the data, so one is
enough, and there is none when there is no data. -/
def Body.writeAll (b : Body) (data : Bytes) (faults : Faults) : Except IoError Body :=
  if data = [] then .ok b
  else
    match b.pollWrite data faults with
    | (b, .ok _) => .ok b
    | (_, .error e) => .error e

/-- What install gets. -/
inductive Content where
  | incoming (file : Cursor)
  | retained (file : Cursor)
  | memory (bytes : Bytes)
deriving DecidableEq

/-- `into_content`. Where the file cannot be opened a second time, install gets nothing to read. -/
def Body.intoContent (b : Body) (reopened : Bool) : Content :=
  match b with
  | .retained file => .retained file
  | .memory c => .memory c.bytes
  | .incoming file _ => if reopened then .incoming file else .memory []

/-- The bytes install reads, from the start of a file. -/
def Content.bytes : Content → Bytes
  | .incoming file => file.bytes
  | .retained file => file.bytes
  | .memory bytes => bytes

inductive Call where
  | seek (target : SeekFrom) (fault : Option IoError)
  | write (data : Bytes) (faults : Faults)

def Body.call (b : Body) : Call → Except IoError Body
  | .seek target fault => b.seek target fault
  | .write data faults => b.writeAll data faults

/-- Calls that all return `Ok`, or the first error. -/
def Body.run (b : Body) (calls : List Call) : Except IoError Body := calls.foldlM Body.call b

/-- `SnapshotFile::incoming` of the file `begin_incoming` created. -/
def Body.received : Body := .incoming ⟨[], 0⟩ false

end Fastetcd.Raft.Received
