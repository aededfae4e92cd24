import Fastetcd.Storage.WriteBehind

/-!
# Commits, flushes, syncs and snapshots at once (`storage/src/write_behind.rs`)

The write-behind engine as a state machine. Commits come one after the other. Flushes, syncs,
defragmentations and snapshots run beside them and beside each other, each of them a sequence of
steps between which any other may take its own. Two locks order them: the flush lock, held by every
task that writes to the engine, and the layers' read-write lock, whose write side is taken for one
step at a time and never while a snapshot is being taken.

The engine is what its own commits made of it. A crash keeps a prefix of them, with every one up to
the last durable one.

Three fields are history only, and no step reads them: the batches that took effect, in order; how
many of them were there when a commit last returned; and how many a crash must keep.
-/

namespace Fastetcd.Storage

open Mvcc (Bytes)

/-- Most layers before a commit has to flush. -/
def MAX_LAYERS : Nat := 1024

/-- A task for the flush lock, by what it does after `flush_locked`. A sync takes the lock twice, and
carries the number of commits that had returned when it began. -/
inductive Task where
  | flush
  | call
  | syncFirst (began : Nat)
  | syncSecond (began : Nat)
  | defragment

/-- Where the task that holds the flush lock is. -/
inductive Phase where
  /-- At the start of `flush_locked`. -/
  | locked
  /-- The layers are copied, the engine's commit of them is next. -/
  | writing (list : List Layer)
  /-- The engine has them, dropping them is next. -/
  | written (list : List Layer)
  /-- `flush_locked` is done. -/
  | flushed
  /-- The engine has the durable commit's batch. -/
  | committed

/-- The commit in progress, once it is to take the flush lock. -/
inductive Call where
  | backpressure
  | durable (batch : WriteBatch)

/-- A snapshot call, with the number of commits that had returned when it was made. -/
inductive Reader where
  | idle
  | asked (returned : Nat)
  | reading (returned : Nat)
  | based (returned : Nat) (base : Db)
  | got (returned : Nat) (snapshot : OverlaySnapshot)

/-- Whether a snapshot call holds the read side of the layers' lock. -/
def Reader.holds : Reader → Bool
  | .reading _ => true
  | .based _ _ => true
  | _ => false

structure WriteBehind where
  /-- The engine's own commits. -/
  engine : List WriteBatch
  /-- How many of them a crash keeps at least. -/
  durable : Nat
  layers : List Layer
  bytes : Nat
  holder : Option (Task × Phase)
  waiting : List Task
  /-- The syncs in their fsync between the two flushes. -/
  presyncing : List Nat
  call : Option Call
  readers : Nat → Reader
  log : List WriteBatch
  returned : Nat
  kept : Nat

namespace WriteBehind

def new : WriteBehind where
  engine := []
  durable := 0
  layers := []
  bytes := 0
  holder := none
  waiting := []
  presyncing := []
  call := none
  readers := fun _ => .idle
  log := []
  returned := 0
  kept := 0

/-- What the engine holds, `first` being what it was opened with. -/
def base (first : Db) (s : WriteBehind) : Db := first.commitAll s.engine

/-- The commit in progress returns. -/
def returns (s : WriteBehind) : WriteBehind := { s with call := none, returned := s.log.length }

/-- A commit with `sync = false`: the batch becomes a layer, and the commit returns unless the layers
are over their budget. -/
def push (maxBytes : Nat) (s : WriteBehind) (batch : WriteBatch) : WriteBehind :=
  let layer := Layer.fromBatch batch
  let s := { s with
    layers := s.layers ++ [layer]
    bytes := s.bytes + layer.bytes
    log := s.log ++ [batch] }
  if s.bytes > maxBytes ∨ s.layers.length > MAX_LAYERS then { s with call := some .backpressure }
  else s.returns

/-- Copy the layers; without any there is nothing to flush. -/
def copyLayers (s : WriteBehind) (task : Task) : WriteBehind :=
  { s with holder := some (task, if s.layers.isEmpty then .flushed else .writing s.layers) }

/-- The engine commits the copied layers as one batch. -/
def writeLayers (s : WriteBehind) (task : Task) (list : List Layer) : WriteBehind :=
  { s with
    engine := s.engine ++ [list.flatMap Layer.toOps]
    holder := some (task, .written list) }

def dropLayers (s : WriteBehind) (task : Task) (list : List Layer) : WriteBehind :=
  { s with
    layers := s.layers.drop list.length
    bytes := s.bytes - (list.map Layer.bytes).sum
    holder := some (task, .flushed) }

/-- A task gives up on an error of the engine. A commit in progress returns it. -/
def fails (s : WriteBehind) : Task → WriteBehind
  | .call => { s with holder := none }.returns
  | _ => { s with holder := none }

/-- What a task other than a durable commit does after `flush_locked`. -/
def finish (s : WriteBehind) : Task → WriteBehind
  | .call => { s with holder := none }.returns
  | .syncFirst began => { s with holder := none, presyncing := began :: s.presyncing }
  | .syncSecond began =>
    { s with holder := none, durable := s.engine.length, kept := max s.kept began }
  | .flush => { s with holder := none }
  | .defragment => { s with holder := none }

/-- A durable commit's batch is in the engine. -/
def applyBatch (s : WriteBehind) (batch : WriteBatch) : WriteBehind :=
  { s with
    engine := s.engine ++ [batch]
    log := s.log ++ [batch]
    holder := some (.call, .committed) }

/-- A durable commit returns: the engine has flushed all it holds. -/
def finishDurable (s : WriteBehind) : WriteBehind :=
  { s with holder := none, durable := s.engine.length, kept := s.log.length }.returns

def setReader (s : WriteBehind) (id : Nat) (reader : Reader) : WriteBehind :=
  { s with readers := Function.update s.readers id reader }

/-- One step of one task. -/
inductive Step (first : Db) (maxBytes : Nat) : WriteBehind → WriteBehind → Prop
  /-- A commit with `sync = false`, under the write side of the layers' lock. -/
  | push {s} (batch : WriteBatch) (idle : s.call = none) (free : ∀ id, (s.readers id).holds = false) :
      Step first maxBytes s (s.push maxBytes batch)
  /-- A commit with `sync = true` begins. -/
  | begin {s} (batch : WriteBatch) (idle : s.call = none) :
      Step first maxBytes s { s with call := some (.durable batch) }
  | flush {s} : Step first maxBytes s { s with waiting := .flush :: s.waiting }
  | defragment {s} : Step first maxBytes s { s with waiting := .defragment :: s.waiting }
  | sync {s} : Step first maxBytes s { s with waiting := .syncFirst s.returned :: s.waiting }
  /-- A waiting task gets the flush lock. -/
  | lock {s task before after} (free : s.holder = none) (waits : s.waiting = before ++ task :: after) :
      Step first maxBytes s { s with waiting := before ++ after, holder := some (task, .locked) }
  /-- The commit in progress gets the flush lock. -/
  | lockCall {s} (free : s.holder = none) (called : s.call.isSome) :
      Step first maxBytes s { s with holder := some (.call, .locked) }
  | copyLayers {s task} (at_ : s.holder = some (task, .locked)) :
      Step first maxBytes s (s.copyLayers task)
  | writeLayers {s task list} (at_ : s.holder = some (task, .writing list)) :
      Step first maxBytes s (s.writeLayers task list)
  /-- The written layers go, under the write side of the layers' lock. -/
  | dropLayers {s task list} (at_ : s.holder = some (task, .written list))
      (free : ∀ id, (s.readers id).holds = false) :
      Step first maxBytes s (s.dropLayers task list)
  /-- The engine fails. It may have done what it was asked for all the same. -/
  | fails {s task phase} (at_ : s.holder = some (task, phase)) : Step first maxBytes s (s.fails task)
  | finish {s task} (at_ : s.holder = some (task, .flushed))
      (other : task = .call → s.call = some .backpressure) : Step first maxBytes s (s.finish task)
  | applyBatch {s batch} (at_ : s.holder = some (.call, .flushed))
      (called : s.call = some (.durable batch)) : Step first maxBytes s (s.applyBatch batch)
  | finishDurable {s} (at_ : s.holder = some (.call, .committed)) :
      Step first maxBytes s s.finishDurable
  /-- A sync's fsync outside the flush lock is over. -/
  | presynced {s began before after} (runs : s.presyncing = before ++ began :: after) :
      Step first maxBytes s
        { s with presyncing := before ++ after, waiting := .syncSecond began :: s.waiting }
  | presyncFails {s began before after} (runs : s.presyncing = before ++ began :: after) :
      Step first maxBytes s { s with presyncing := before ++ after }
  | ask {s id} (at_ : s.readers id = .idle) :
      Step first maxBytes s (s.setReader id (.asked s.returned))
  | readLock {s id returned} (at_ : s.readers id = .asked returned) :
      Step first maxBytes s (s.setReader id (.reading returned))
  | readBase {s id returned} (at_ : s.readers id = .reading returned) :
      Step first maxBytes s (s.setReader id (.based returned (s.base first)))
  | readFails {s id returned} (at_ : s.readers id = .reading returned) :
      Step first maxBytes s (s.setReader id .idle)
  | readLayers {s id returned base} (at_ : s.readers id = .based returned base) :
      Step first maxBytes s (s.setReader id (.got returned ⟨base, s.layers⟩))

/-- The states a run over an engine opened with `first` reaches. -/
inductive Reachable (first : Db) (maxBytes : Nat) : WriteBehind → Prop
  | new : Reachable first maxBytes new
  | step {s t} (run : Reachable first maxBytes s) (step : Step first maxBytes s t) :
      Reachable first maxBytes t

/-- What a crash may leave: a prefix of the engine's commits, with all of the durable ones. -/
def Recovers (first : Db) (s : WriteBehind) (db : Db) : Prop :=
  ∃ n, s.durable ≤ n ∧ n ≤ s.engine.length ∧ db = first.commitAll (s.engine.take n)

end WriteBehind

end Fastetcd.Storage
