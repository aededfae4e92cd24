import Fastetcd.Storage.RaftLog

/-!
# A WAL and the loss of power

A power loss leaves each sector of a file as it was last written or as it was at the last sync, and a
file that grew has some length between the two. A sector that reads as zeros is no third case: what
is at the last sync behind the synced records is zeros.

`Wal.Life` is a WAL under its writer's steps and losses of power. An `append` is records put one by
one, with a roll where it rolls (`Wal.Life.append`). It carries the records in the WAL, those that a
roll repeats marked, and how many of them a completed sync has covered. After a loss of power the
records in the WAL are those the open has read.
-/

namespace Fastetcd.Storage

open Mvcc (Bytes)

/-! ## What is left -/

/-- A file after a loss of power. What is left is on the disk. -/
def SegFile.lose (file : SegFile) (sector : Nat) (kept : Nat → Bool) (length : Nat) : SegFile :=
  let bytes := (List.range length).map fun i =>
    if kept (i / sector) then file.bytes.getD i 0 else file.synced.getD i 0
  ⟨file.seq, bytes, bytes⟩

/-- Any sectors may be kept, in any file. -/
def PowerLoss (sector : Nat) (dir dir' : List SegFile) : Prop :=
  List.Forall₂ (fun file file' => ∃ kept length,
    file.synced.length ≤ length ∧ length ≤ file.bytes.length ∧
      file' = file.lose sector kept length) dir dir'

/-! ## What is in a WAL -/

/-- A record in a WAL, with where it is, and whether a roll repeated it there. -/
structure Written where
  loc : Loc
  record : Record
  copy : Bool

def Written.row (w : Written) : Loc × Record := (w.loc, w.record)

/-- The records appended, those repeated by a roll left out. -/
def appendedIn (written : List Written) : List (Loc × Record) :=
  (written.filter fun w => !w.copy).map Written.row

/-- What an open reads of a file. -/
def SegFile.rows (file : SegFile) : List (Loc × Record) :=
  (scan file.bytes 0).1.map fun row => (locOf file.seq row, row.2)

def readAll (dir : List SegFile) : List (Loc × Record) := dir.flatMap SegFile.rows

/-- The checksum detects every torn record: what is read where a record was written is the record,
if it is read as one at all. -/
def CrcDetects (written : List Written) (dir : List SegFile) : Prop :=
  ∀ w ∈ written, ∀ file ∈ dir, file.seq = w.loc.segment →
    ∀ r, parse (file.bytes.drop w.loc.offset) = .record r → r = w.record

/-- Where reading the last segment stops at a header of zeros, zeros follow to the end. -/
def ZerosBehind (dir : List SegFile) : Prop :=
  ∀ file ∈ dir.getLast?, ∀ offset, (scan file.bytes 0).2 = (offset, none) →
    ∀ b ∈ file.bytes.drop offset, b = 0

namespace Wal

/-- The sticky records a roll repeats, at the front of a segment. -/
def copies (segment : Nat) : Nat → List Record → List Written
  | _, [] => []
  | offset, r :: records =>
    ⟨⟨segment, offset, r.payload.length⟩, r, true⟩ ::
      copies segment (offset + (encodeRecord r).length) records

/-- A WAL after some steps, the records in it, and how many of them are synced. `losses` says which
directories a loss of power may leave. -/
inductive Life (sector : Nat) (losses : List SegFile → Prop) : Wal → List Written → Nat → Prop
  | create {wal replay} (segmentBytes room : Nat)
      (opened : openDir segmentBytes room [] = .ok (wal, replay)) : Life sector losses wal [] 0
  | put {wal written synced} (life : Life sector losses wal written synced) (r : Record)
      (fits : r.payload.length ≤ MAX_PAYLOAD) :
      Life sector losses (wal.put r)
        (written ++ [⟨⟨wal.last.file.seq, wal.offset, r.payload.length⟩, r, false⟩]) synced
  | roll {wal written synced} (life : Life sector losses wal written synced) (spare : Spare) :
      Life sector losses (wal.roll spare)
        (written ++ copies (wal.last.file.seq + 1) 0 wal.sticky.records) written.length
  | sync {wal written synced} (life : Life sector losses wal written synced) :
      Life sector losses wal.sync written written.length
  | reopen {wal written synced wal' replay} (life : Life sector losses wal written synced)
      (segmentBytes room : Nat) (opened : openDir segmentBytes room wal.dir = .ok (wal', replay)) :
      Life sector losses wal' written synced
  | powerLoss {wal written synced dir wal' replay} (life : Life sector losses wal written synced)
      (loss : PowerLoss sector wal.dir dir) (crc : CrcDetects written dir) (may : losses dir)
      (segmentBytes room : Nat) (opened : openDir segmentBytes room dir = .ok (wal', replay)) :
      Life sector losses wal' (written.take (readAll dir).length) (readAll dir).length

end Wal

end Fastetcd.Storage
