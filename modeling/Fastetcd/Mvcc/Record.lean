import Fastetcd.Mvcc.Revision

/-!
# Stored records and key indexes (`storage/src/mvcc/record.rs`)

`KvRecord` is one row of `mvcc_kv`: a put carries its value, a delete writes a tombstone.
`KeyIndex` is one row of `mvcc_idx`: the life of a key as a list of generations, each opened by
a put on an absent key and closed by the delete that ends it. A read at an old revision finds
the generation that spans it and the newest put of that generation at or below it.

`usize` lengths are natural numbers, and `len() as i64` is the coercion to `Int`.
-/

namespace Fastetcd.Mvcc

/-- Lease ids are arbitrary `i64`; clients may pick them. -/
abbrev LeaseId := Int64

/-- `KvRecord`, the value of a `mvcc_kv` row. -/
structure KvRecord where
  key : Bytes
  value : Bytes
  createRevision : Int
  modRevision : Int
  version : Int
  lease : LeaseId
  deleted : Bool
deriving DecidableEq

def KvRecord.isTombstone (rec : KvRecord) : Bool := rec.deleted

/-- `Generation`: from a create-put through the delete that ends it, if any. -/
structure Generation where
  created : Revision
  revs : List Revision
  tombstone : Option Revision
deriving DecidableEq

namespace Generation

def isOpen (g : Generation) : Bool := g.tombstone.isNone

/-- One step of the scan over `revs` in `latest_at_or_before`. -/
def latestStep (target : Revision) (best : Option (Revision × Bool)) (r : Revision) :
    Option (Revision × Bool) :=
  if r ≤ target then
    match best with
    | some (b, _) => if b ≥ r then some (b, false) else some (r, false)
    | none => some (r, false)
  else best

/-- The latest revision of the generation at or below `target`, puts and closing tombstone
alike; the flag says that it is the tombstone. -/
def latestAtOrBefore (g : Generation) (target : Revision) : Option (Revision × Bool) :=
  let best := g.revs.foldl (latestStep target) none
  match g.tombstone with
  | some t =>
    if t ≤ target then
      match best with
      | some (b, _) => if b > t then best else some (t, true)
      | none => some (t, true)
    else best
  | none => best

/-- The loop that finds the last put at or below `compactRev`, stopping at the first above it. -/
def floorIdx (compactRev : Revision) : List Revision → Nat → Option Nat → Option Nat
  | [], _, found => found
  | r :: revs, i, found =>
    if r ≤ compactRev then floorIdx compactRev revs (i + 1) (some i) else found

end Generation

/-- The live revision of a key with these generations, if any (`current_of`). -/
def currentOf (gens : List Generation) : Option Revision :=
  match gens.getLast? with
  | none => none
  | some g => if !g.isOpen then none else g.revs.getLast?

/-- Walk generations newest first; the first one that started by `target` and has a revision
there decides (`revision_at`). -/
def revisionAtRev (target : Revision) : List Generation → Option Revision
  | [] => none
  | g :: older =>
    if g.created > target then revisionAtRev target older
    else
      match g.latestAtOrBefore target with
      | some (rev, isTombstone) => if isTombstone then none else some rev
      | none => revisionAtRev target older

/-- The revision to read a key with these generations at `target`; `none` if it did not exist. -/
def revisionAt (gens : List Generation) (target : Revision) : Option Revision :=
  revisionAtRev target gens.reverse

/-- Whether `KeyIndex.compact` at `compactRev` would change these generations. -/
def compactionChanges (gens : List Generation) (compactRev : Revision) : Bool :=
  gens.any fun g =>
    (match g.tombstone with
      | some t => decide (t ≤ compactRev)
      | none => false) ||
    (match g.revs with
      | _ :: second :: _ => decide (second ≤ compactRev)
      | _ => false)

/-- `KeyIndex`, the value of a `mvcc_idx` row. -/
structure KeyIndex where
  key : Bytes
  generations : List Generation
deriving DecidableEq

namespace KeyIndex

def new (key : Bytes) : KeyIndex := ⟨key, []⟩

/-- The last generation is open. -/
def isLive (idx : KeyIndex) : Bool :=
  match idx.generations.getLast? with
  | some g => g.isOpen
  | none => false

/-- Latest revision and version of a live key. -/
def current (idx : KeyIndex) : Option (Revision × Int) :=
  match idx.generations.getLast? with
  | none => none
  | some g =>
    if !g.isOpen then none
    else match g.revs.getLast? with
      | none => none
      | some rev => some (rev, g.revs.length)

/-- Apply a put: open a generation if the key is deleted, else append to the open one. Returns
the new index with the version and the create revision of the record. -/
def recordPut (idx : KeyIndex) (rev : Revision) : KeyIndex × Int × Revision :=
  let opened : KeyIndex × Int × Revision :=
    ({ idx with generations := idx.generations ++ [⟨rev, [rev], none⟩] }, 1, rev)
  match idx.generations.getLast? with
  | none => opened
  | some g =>
    if !g.isOpen then opened
    else
      let g' := { g with revs := g.revs ++ [rev] }
      ({ idx with generations := idx.generations.dropLast ++ [g'] }, g'.revs.length, g.created)

/-- Apply a delete: close the open generation. `false` if there was none to close. -/
def recordDelete (idx : KeyIndex) (rev : Revision) : KeyIndex × Bool :=
  match idx.generations.getLast? with
  | some g =>
    if g.isOpen then
      ({ idx with generations := idx.generations.dropLast ++ [{ g with tombstone := some rev }] },
        true)
    else (idx, false)
  | none => (idx, false)

def revisionAt (idx : KeyIndex) (target : Revision) : Option Revision :=
  Mvcc.revisionAt idx.generations target

/-- The body of the loop in `compact`: the generation that is kept, if any, and the revisions
that are dropped. -/
def compactGeneration (compactRev : Revision) (g : Generation) :
    Option Generation × List Revision :=
  let trimmed : Option Generation × List Revision :=
    let (newRevs, dropped) :=
      match Generation.floorIdx compactRev g.revs 0 none with
      | some fi => (g.revs.drop fi, g.revs.take fi)
      | none => (g.revs, [])
    -- The source's defensive arm: an open generation always has a put.
    if newRevs.isEmpty && g.tombstone.isNone then (none, dropped)
    else (some ⟨g.created, newRevs, g.tombstone⟩, dropped)
  match g.tombstone with
  | some t => if t ≤ compactRev then (none, g.revs ++ [t]) else trimmed
  | none => trimmed

/-- Compact the index against `compactRev`: the index left, and the revisions whose records are
no longer reachable. -/
def compact (idx : KeyIndex) (compactRev : Revision) : KeyIndex × List Revision :=
  let step := fun (acc : List Generation × List Revision) g =>
    let (kept, dropped) := compactGeneration compactRev g
    (acc.1 ++ kept.toList, acc.2 ++ dropped)
  let (keep, dropped) := idx.generations.foldl step ([], [])
  ({ idx with generations := keep }, dropped)

end KeyIndex

end Fastetcd.Mvcc
