import Mathlib.Data.List.Sort
import Fastetcd.Server.Cluster

/-!
# Backups, and starting from one (`server/src/backup.rs`, `server/src/recovery.rs`)

A member with a corrupt data file starts from its newest backup if the backup records no other member.
Backups are taken by a task that looks every few seconds at the revision and at a fingerprint of the
membership.

`Machine` is the member over its restarts: raft's membership as the metrics have it (`effective`) and
as the data file has it (`stored`), the backup directory, the backup task and the data file. An event
says what the disk and the clock do. What a backup holds besides its header is left out, and so is a
crash between the renames of a restore, which the next start finishes.
-/

namespace Fastetcd.Server

/-! ## Backups -/

/-- What of `BackupHeader` is looked at. -/
structure BackupHeader where
  nodeId : NodeId
  revision : Int
  members : List NodeId
deriving DecidableEq

/-- A backup in the directory, and whether its checksum is right. -/
structure BackupFile where
  createdUnixMs : Nat
  header : BackupHeader
  verifies : Bool
deriving DecidableEq

def BackupFile.Newer (a b : BackupFile) : Prop := b.createdUnixMs ≤ a.createdUnixMs

instance : DecidableRel BackupFile.Newer := fun a b =>
  inferInstanceAs (Decidable (b.createdUnixMs ≤ a.createdUnixMs))

/-- The backups, newest first. -/
def list (dir : List BackupFile) : List BackupFile := dir.insertionSort BackupFile.Newer

/-- The newest `keep` backups. -/
def prune (dir : List BackupFile) (keep : Nat) : List BackupFile := (list dir).take keep

/-- How writing a backup goes. After the first failure for want of room it is tried once more. -/
inductive Disk where
  | written
  | full (retry : Bool)
  | failed

/-- `write_backup`: what is in the directory then, and whether the backup is. -/
def writeBackup (dir : List BackupFile) (file : BackupFile) (retain : Nat) (disk : Disk) :
    List BackupFile × Bool :=
  match disk with
  | .written => (prune (file :: dir) (max retain 1), true)
  | .full retry =>
    if 1 < (list dir).length then
      let dir := prune dir ((list dir).length - 1)
      if retry then (prune (file :: dir) (max retain 1), true) else (dir, false)
    else (dir, false)
  | .failed => (dir, false)

structure BackupConfig where
  interval : Nat
  everyRevisions : Int
  retain : Nat

/-- What the last backup captured. -/
structure Last where
  revision : Int
  members : UInt64
deriving DecidableEq

/-- Whether a backup is due, `since` after the last one. -/
def due (cfg : BackupConfig) (last : Option Last) (since : Option Nat) (revision : Int)
    (members : UInt64) : Bool :=
  match last with
  | none => true
  | some last =>
    if revision ≠ last.revision ∨ members ≠ last.members then
      members ≠ last.members || since.all (cfg.interval ≤ ·) ||
        (cfg.everyRevisions > 0 && revision - last.revision ≥ cfg.everyRevisions)
    else false

def membersFingerprint (members : List NodeId) : UInt64 :=
  (members.insertionSort (· ≤ ·)).foldl (fun h id => (h ^^^ UInt64.ofNat id) * 0x100000001b3)
    0xcbf29ce484222325

/-- What `spawn` starts from: the newest backup that verifies, without a fingerprint. -/
def firstLast (dir : List BackupFile) : Option Last :=
  ((list dir).find? BackupFile.verifies).map fun file => ⟨file.header.revision, 0⟩

/-- A backup read from disk has no fingerprint; the current one is adopted. -/
def adopt (last : Option Last) (members : UInt64) : Option Last :=
  last.map fun l => if l.members = 0 then { l with members := members } else l

/-! ## Opening the data file -/

inductive OnCorruption where
  | restore
  | refuse
deriving DecidableEq

structure OpenOptions where
  hasBackupDir : Bool
  onCorruption : OnCorruption
  nodeId : NodeId
  configuredMembers : Nat

inductive Refusal where
  | asked
  | multiMember
  | noBackupDir
  | noBackup
deriving DecidableEq

/-- The newest backup that verifies, and belongs to this node. -/
def chosen (nodeId : NodeId) (dir : List BackupFile) : Option BackupFile :=
  (list dir).find? fun file => file.verifies && file.header.nodeId == nodeId

/-- `open_or_recover` of a corrupt data file: the backup it is replaced by. -/
def openOrRecover (opts : OpenOptions) (dir : List BackupFile) : Except Refusal BackupHeader :=
  if opts.onCorruption = .refuse then .error .asked
  else if opts.configuredMembers > 1 then .error .multiMember
  else if !opts.hasBackupDir then .error .noBackupDir
  else
    match chosen opts.nodeId dir with
    | none => .error .noBackup
    | some file =>
      if file.header.members.any (· != opts.nodeId) then .error .multiMember
      else .ok file.header

/-! ## A member over its restarts -/

structure Machine where
  self : NodeId
  effective : List NodeId
  stored : List NodeId
  revision : Int := 0
  dir : List BackupFile := []
  /-- The backup task's `last`, while the process runs. -/
  task : Option (Option Last) := none
  /-- The membership at the moment the data file became corrupt, if it is. -/
  corrupt : Option (List NodeId) := none
  /-- Every data file replaced: the membership at the moment of its corruption. -/
  replaced : List (List NodeId) := []
  /-- No membership change since the backup task last looked, and the look did not fail. -/
  settled : Bool := false

inductive Event where
  /-- A membership entry is appended. -/
  | change (members : List NodeId)
  /-- It is applied. -/
  | apply
  | write (revision : Int)
  | tick (cfg : BackupConfig) (since : Option Nat) (nowMs : Nat) (disk : Disk)
  /-- A backup file decays. -/
  | damage (i : Nat)
  /-- The data file becomes corrupt. -/
  | corrupt
  | stop
  | start (opts : OpenOptions)

namespace Machine

/-- One round of the backup task. -/
def tick (s : Machine) (last : Option Last) (cfg : BackupConfig) (since : Option Nat) (nowMs : Nat)
    (disk : Disk) : Machine :=
  let members := membersFingerprint s.effective
  let last := adopt last members
  if due cfg last since s.revision members then
    let header : BackupHeader := ⟨s.self, s.revision, s.stored⟩
    match writeBackup s.dir ⟨nowMs, header, true⟩ cfg.retain disk with
    | (dir, true) =>
      { s with dir := dir, task := some (some ⟨s.revision, members⟩), settled := true }
    | (dir, false) => { s with dir := dir, task := some last }
  else { s with task := some last, settled := true }

/-- The process starts, if the data file can be opened or replaced. -/
def start (s : Machine) (opts : OpenOptions) : Machine :=
  match s.corrupt with
  | none => { s with task := some (firstLast s.dir) }
  | some members =>
    match openOrRecover { opts with nodeId := s.self } s.dir with
    | .error _ => s
    | .ok header =>
      { s with
        effective := header.members
        stored := header.members
        revision := header.revision
        task := some (firstLast s.dir)
        corrupt := none
        replaced := s.replaced ++ [members] }

def step (s : Machine) : Event → Machine
  | .change members => if s.task.isSome then { s with effective := members, settled := false } else s
  | .apply => if s.task.isSome then { s with stored := s.effective } else s
  | .write revision => if s.task.isSome then { s with revision := revision } else s
  | .tick cfg since nowMs disk =>
    match s.task with
    | none => s
    | some last => s.tick last cfg since nowMs disk
  | .damage i => { s with dir := s.dir.modify i fun file => { file with verifies := false } }
  | .corrupt => { s with corrupt := s.corrupt.or (some s.effective) }
  | .stop => { s with task := none }
  | .start opts => if s.task.isSome then s else s.start opts

def run (s : Machine) (events : List Event) : Machine := events.foldl step s

end Machine

end Fastetcd.Server
