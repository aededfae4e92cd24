import Fastetcd.Storage.KvStore

/-!
# The online rewrite (`storage/src/redb_engine.rs`)

`rewrite` copies a store into a fresh file while commits go on, and switches to it. A read
transaction is taken together with the start of a capture of every commit made from then on; its
tables are copied a chunk at a time; the captured commits are applied to the new file in passes; and
under the engine's write lock the rest is applied, the file is closed and reopened, renamed over the
data file, the directory synced and the handle swapped.

A file is known by its inode. A commit holds the engine's read lock from before its transaction
begins until it is captured, and the capture is locked across the transaction's own commit, so one
step says all of it. Every operation the rewrite makes of redb or of the file system may fail;
removing its own unfinished file does not.
-/

namespace Fastetcd.Storage

/-- The table an operation opens. -/
def BatchOp.table : BatchOp → String
  | .put table _ _ => table
  | .delete table _ => table
  | .deleteRange table _ _ => table

/-- `op_bytes`. -/
def BatchOp.bytes : BatchOp → Nat
  | .put table key value => table.utf8ByteSize + key.length + value.length
  | .delete table key => table.utf8ByteSize + key.length
  | .deleteRange table start stop => table.utf8ByteSize + start.length + stop.length

namespace Rewrite

/-! ## Files -/

/-- A data file: the tables it has, and their rows. -/
structure File where
  names : List String
  db : Db
  listed : ∀ table, table ∉ names → db table = ∅

namespace File

def empty : File := ⟨[], fun _ => ∅, fun _ _ => rfl⟩

theorem listed_apply {db : Db} {names : List String}
    (listed : ∀ table, table ∉ names → db table = ∅) (op : BatchOp) :
    ∀ table, table ∉ names.insert op.table → db.apply op table = ∅ := by
  intro table other
  rw [List.mem_insert_iff, not_or] at other
  have elsewhere : db.apply op table = db table := by
    cases op <;> exact Function.update_of_ne other.1 _ _
  rw [elsewhere]
  exact listed table other.2

/-- `apply_op`: the table is opened, so it exists from then on. -/
def apply (file : File) (op : BatchOp) : File where
  names := file.names.insert op.table
  db := file.db.apply op
  listed := listed_apply file.listed op

/-- `apply_all`, and the operations of a commit: one transaction. -/
def commit (file : File) (batch : WriteBatch) : File := batch.foldl apply file

/-- `open_table` in a write transaction. -/
def openTable (file : File) (table : String) : File where
  names := file.names.insert table
  db := file.db
  listed := fun other notIn => file.listed other fun mem => notIn (List.mem_insert_of_mem mem)

/-- Every table's rows, in the order they are listed. -/
def rows (file : File) : List (String × List Row) :=
  file.names.map fun table => (table, (file.db table).toList)

end File

/-! ## The capture -/

/-- `CAPTURE_MAX_BYTES`, `REWRITE_CHUNK_BYTES`, `CATCHUP_DONE_BYTES`, `CATCHUP_MAX_PASSES`. -/
def captureMaxBytes : Nat := 256 <<< 20

def rewriteChunkBytes : Nat := 4 <<< 20

def catchupDoneBytes : Nat := 1 <<< 20

def catchupMaxPasses : Nat := 16

/-- The commits a rewrite has yet to apply to its new file. -/
structure Capture where
  ops : WriteBatch
  bytes : Nat
  abandoned : Option String

namespace Capture

/-- `Capture::default`. -/
def fresh : Capture := ⟨[], 0, none⟩

def abandon (c : Capture) (why : String) : Capture :=
  { c with abandoned := c.abandoned.or (some why), ops := [] }

def push (c : Capture) (ops : WriteBatch) : Capture :=
  if c.abandoned.isSome then c
  else
    let c := { c with bytes := c.bytes + (ops.map BatchOp.bytes).sum }
    if captureMaxBytes < c.bytes then c.abandon "more than 256 MiB written during the copy"
    else { c with ops := c.ops ++ ops }

end Capture

/-! ## The rewrite -/

/-- What the rewrite asks of redb and of the file system. -/
inductive Op where
  /-- the file's size, before the rewrite and after the switch -/
  | sizeBefore
  | sizeAfter
  | beginRead
  | create
  | copy
  | commit
  | compact
  | reopen
  | rename
  | syncDir
deriving DecidableEq

/-- Why a rewrite returned `Err`. -/
inductive Stop where
  | failed (op : Op)
  | abandoned (why : String)
  | noCapture
deriving DecidableEq

/-- What is being done to the new file. -/
inductive Work where
  /-- the tables left to copy, the first one perhaps in part -/
  | copying (todo : List (String × List Row))
  /-- a chunk is copied, and the capture is looked at -/
  | checking (todo : List (String × List Row))
  /-- at most `passes` passes are left -/
  | catching (passes : Nat)
  /-- a pass has taken `ops`, of `bytes` bytes -/
  | applying (passes : Nat) (ops : WriteBatch) (bytes : Nat)
  /-- the durable commit after the passes -/
  | settling
  | compacting
  /-- waits for the engine's write lock -/
  | waiting
  /-- has it -/
  | switching
  /-- has taken the last captured commits -/
  | finishing (ops : WriteBatch)
  | reopening
  | moving
  | syncing
  | swapping

/-- Where the rewrite is; `new` is the file it writes. -/
inductive Phase where
  | idle
  | starting
  | creating (read : File)
  | building (new : Nat) (work : Work)
  | measuring
  | returned (result : Except Stop Unit)

namespace Work

/-- Whether the rewrite holds the engine's write lock. -/
def locked : Work → Bool
  | switching | finishing _ | reopening | moving | syncing | swapping => true
  | _ => false

/-- The operation made next. -/
def op : Work → Option Op
  | copying _ => some .copy
  | applying .. | settling | finishing _ => some .commit
  | compacting => some .compact
  | reopening => some .reopen
  | moving => some .rename
  | syncing => some .syncDir
  | _ => none

end Work

namespace Phase

def locked : Phase → Bool
  | building _ work => work.locked
  | _ => false

def op : Phase → Option Op
  | idle => some .sizeBefore
  | measuring => some .sizeAfter
  | starting => some .beginRead
  | creating _ => some .create
  | building _ work => work.op
  | returned _ => none

end Phase

/-- The rows of one chunk, and those after it; none are left when the iterator has ended. -/
def chunk (limit : Nat) : (bytes : Nat) → List Row → List Row × Option (List Row)
  | _, [] => ([], none)
  | bytes, row :: rows =>
    let bytes := bytes + (row.1.length + row.2.length)
    if limit ≤ bytes then ([row], some rows)
    else
      let (taken, rest) := chunk limit bytes rows
      (row :: taken, rest)

/-- The rows of a table as puts. -/
def putRows (table : String) (rows : List Row) : WriteBatch :=
  rows.map fun row => .put table row.1 row.2

structure Config where
  files : Nat → File
  /-- the next inode -/
  fresh : Nat
  /-- the file the data path names, and the file the rewrite's path names -/
  path : Nat
  tmp : Option Nat
  /-- the file the engine's handle writes to -/
  handle : Nat
  capture : Option Capture
  phase : Phase
  /-- every commit made, in commit order -/
  commits : List WriteBatch
  /-- the snapshots asked for: how many commits had been made -/
  requests : List Nat
  /-- the snapshots taken: what was asked for, and what they show -/
  served : List (Nat × Db)

namespace Config

/-- The tables of the file in use. -/
def db (c : Config) : Db := (c.files c.handle).db

/-- Opening the data path again: the file it names, all of whose commits were written when its last
handle was dropped. -/
def reopened (c : Config) : Db := (c.files c.path).db

def setFile (c : Config) (inode : Nat) (file : File) : Config :=
  { c with files := Function.update c.files inode file }

/-- One transaction of the file `inode`. -/
def write (c : Config) (inode : Nat) (batch : WriteBatch) : Config :=
  c.setFile inode ((c.files inode).commit batch)

/-- `commit`. -/
def commit (c : Config) (batch : WriteBatch) : Config :=
  { c.write c.handle batch with
    capture := c.capture.map (·.push batch)
    commits := c.commits ++ [batch] }

/-- `commit_stream`, the stream having ended without an error. -/
def commitStream (c : Config) (batch : WriteBatch) : Config :=
  { c.write c.handle batch with
    capture := c.capture.map (·.abandon "a raft snapshot was installed during the copy")
    commits := c.commits ++ [batch] }

/-- `Err`: `RewriteCleanup` ends the capture and removes the new file. -/
def stop (c : Config) (why : Stop) : Config :=
  { c with capture := none, tmp := none, phase := .returned (.error why) }

/-- The new file at another piece of work. -/
def at_ (c : Config) (new : Nat) (work : Work) : Config := { c with phase := .building new work }

/-- `take_capture`, and what is done with the operations and their bytes. -/
def takeCapture (c : Config) (next : WriteBatch → Nat → Work) (new : Nat) : Config :=
  match c.capture with
  | none => c.stop .noCapture
  | some captured =>
    match captured.abandoned with
    | some why => c.stop (.abandoned why)
    | none =>
      { c with capture := some { captured with ops := [], bytes := 0 } }.at_ new
        (next captured.ops captured.bytes)

/-- The next step on the new file, its operation succeeding. -/
def build (c : Config) (new : Nat) : Work → Config
  | .copying [] => c.at_ new (.catching catchupMaxPasses)
  | .copying ((table, rows) :: todo) =>
    let (taken, rest) := chunk rewriteChunkBytes 0 rows
    let todo := match rest with
      | none => todo
      | some rest => (table, rest) :: todo
    -- opened even when empty, so that the table exists in the new file
    let file := ((c.files new).openTable table).commit (putRows table taken)
    (c.setFile new file).at_ new (.checking todo)
  | .checking todo =>
    match c.capture.bind Capture.abandoned with
    | some why => c.stop (.abandoned why)
    | none => c.at_ new (.copying todo)
  | .catching 0 => c.at_ new .settling
  | .catching (passes + 1) => c.takeCapture (.applying passes) new
  | .applying passes ops bytes =>
    (c.write new ops).at_ new (if bytes < catchupDoneBytes then .settling else .catching passes)
  | .settling => (c.write new []).at_ new .compacting
  | .compacting => c.at_ new .waiting
  | .waiting => c.at_ new .switching
  | .switching =>
    let taken := c.takeCapture (fun ops _ => .finishing ops) new
    { taken with capture := none }
  | .finishing ops => (c.write new ops).at_ new .reopening
  -- closed, and opened again at the rewrite's path
  | .reopening => c.at_ (c.tmp.getD new) .moving
  | .moving => { c with path := c.tmp.getD c.path, tmp := none }.at_ new .syncing
  | .syncing => c.at_ new .swapping
  | .swapping => { c with handle := new, capture := none, phase := .measuring }

/-- The rewrite's next step, its operation succeeding. -/
def go (c : Config) : Config :=
  match c.phase with
  | .idle => { c with tmp := none, phase := .starting }
  | .starting => { c with capture := some .fresh, phase := .creating (c.files c.handle) }
  | .creating read =>
    let created := c.setFile c.fresh .empty
    { created with fresh := c.fresh + 1, tmp := some c.fresh }.at_ c.fresh (.copying read.rows)
  | .building new work => c.build new work
  | .measuring => { c with phase := .returned (.ok ()) }
  | .returned _ => c

end Config

/-- A step of the engine. Commits and snapshots wait while the rewrite holds the write lock. -/
inductive Step : Config → Config → Prop
  | commit (c : Config) (batch : WriteBatch) (free : c.phase.locked = false) :
      Step c (c.commit batch)
  | commitStream (c : Config) (batch : WriteBatch) (free : c.phase.locked = false) :
      Step c (c.commitStream batch)
  | request (c : Config) : Step c { c with requests := c.commits.length :: c.requests }
  | serve (c : Config) (n : Nat) (asked : n ∈ c.requests) (free : c.phase.locked = false) :
      Step c { c with served := (n, c.db) :: c.served }
  | go (c : Config) : Step c c.go
  | fail (c : Config) (op : Op) (next : c.phase.op = some op) : Step c (c.stop (.failed op))

/-- Any number of steps. -/
abbrev Steps : Config → Config → Prop := Relation.ReflTransGen Step

/-- An engine as it was opened: one file, which the data path names. -/
structure Start (c : Config) : Prop where
  named : c.path = c.handle
  below : c.handle < c.fresh
  unused : c.tmp = none
  uncaptured : c.capture = none
  idle : c.phase = .idle
  noCommits : c.commits = []
  noSnapshots : c.served = []
  noRequests : c.requests = []

end Rewrite

end Fastetcd.Storage
