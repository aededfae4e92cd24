import Fastetcd.Mvcc.CachedReads

/-!
# Read views (`ReadView`, `read_view` in `storage/src/mvcc/store.rs`)

A writer's engine commit, its count in `engine_commits` and its publishing are steps of their own,
and a compaction raises the floor before its engine commit. A reader loads `engine_commits`, takes
an engine snapshot, and then looks at what is published: if no more than it loaded, it plans its
read from the index and the revisions it finds. Otherwise it tries again, and after eight tries
takes the writers' lock. Its records come from the snapshot; the value cache is left out here, it
answers as the engine does (`Mvcc/CachedReads`).
-/

namespace Fastetcd.Mvcc.Views

/-- `READ_VIEW_TRIES`. -/
def readViewTries : Nat := 8

/-- How far a writer is: a compaction's floor is raised, the engine has committed, the commit is
counted. -/
inductive Phase where
  | raised | committed | counted
deriving DecidableEq

/-- The writer that holds the write state, and the store it is about to publish. -/
structure Writer where
  after : Store
  phase : Phase

/-- Where a reader is in a try, with what it has. -/
inductive Place where
  | load
  | snapshot (engineCommits : Nat)
  | guard (engineCommits : Nat) (snap : Tables)

structure Reader where
  range : RangeOp
  /-- the revision that was published when the read began -/
  began : Int
  tries : Nat
  place : Place

/-- What `read_view` gives a Range. -/
structure Viewed where
  range : RangeOp
  began : Int
  snap : Tables
  revs : Revs
  plan : Except MvccError RangePlan
  /-- the store that was published then, -/
  point : Store
  /-- and the one that a writer was about to publish -/
  ahead : Option Store

/-- The answer of the Range. -/
def Viewed.answer (v : Viewed) : Except MvccError (RangeResult × Int) := do
  let plan ← v.plan
  let recs ← Cached.engineRecords v.snap plan.hits
  return (plan.intoResult (recs.map (trim · v.range.keysOnly)) v.range.countOnly, v.revs.current)

structure Config where
  store : Store
  writer : Option Writer
  readers : List Reader
  viewed : List Viewed

namespace Config

/-- What an engine snapshot holds now. -/
def engine (c : Config) : Tables :=
  match c.writer with
  | some ⟨_, .raised⟩ | none => c.store.engine
  | some w => w.after.engine

/-- `engine_commits` now. -/
def engineCommits (c : Config) : Nat :=
  match c.writer with
  | some ⟨after, .counted⟩ => after.view.engineCommits
  | _ => c.store.view.engineCommits

/-- `view.revs()` now. -/
def revs (c : Config) : Revs :=
  ⟨c.store.view.current, (c.writer.elim c.store Writer.after).view.compact⟩

/-- The reader's closure over what is published. -/
def viewing (c : Config) (r : Reader) (snap : Tables) (revs : Revs) : Viewed where
  range := r.range
  began := r.began
  snap := snap
  revs := revs
  plan := (checkReadRev revs r.range.revision).map fun readRev =>
    planRange c.store.index {} r.range.key r.range.rangeEnd readRev r.range.limit r.range.countOnly
  point := c.store
  ahead := c.writer.map Writer.after

/-- The next step of a reader, unless it waits for the lock. -/
def read (c : Config) (r : Reader) : Option (Reader ⊕ Viewed) :=
  match r.place with
  | .load =>
    if 0 < r.tries then some (.inl { r with place := .snapshot c.engineCommits })
    else if c.writer.isNone then
      some (.inr (c.viewing r c.store.engine c.store.writeState.revs))
    else none
  | .snapshot engineCommits => some (.inl { r with place := .guard engineCommits c.engine })
  | .guard engineCommits snap =>
    if c.store.view.published ≤ engineCommits then some (.inr (c.viewing r snap c.revs))
    else some (.inl { r with tries := r.tries - 1, place := .load })

end Config

/-- The tables differ in leases, auth and other rows of `mvcc_meta` only. -/
structure SameKeys (t u : Tables) : Prop where
  kv : u.kv = t.kv
  idx : u.idx = t.idx
  leaseKeys : u.leaseKeys = t.leaseKeys
  currentRev : u.metaRows.currentRev = t.metaRows.currentRev
  compactRev : u.metaRows.compactRev = t.metaRows.compactRev

inductive Step (c : Config) : Config → Prop
  | commit {newRev : Int} {ctx : ApplyContext} (free : c.writer = none)
      (writes : Cached.Writes c.store newRev ctx) :
      Step c { c with writer := some ⟨(c.store.commitCtx newRev ctx true).2, .committed⟩ }
  | raise {rev : Int} (free : c.writer = none) (accepted : (c.store.compact rev true).1 = .ok rev)
      (later : c.store.writeState.compactRev < rev) :
      Step c { c with writer := some ⟨(c.store.compact rev true).2, .raised⟩ }
  | compact {t : Store} (raised : c.writer = some ⟨t, .raised⟩) :
      Step c { c with writer := some ⟨t, .committed⟩ }
  | compactFailed {t : Store} (raised : c.writer = some ⟨t, .raised⟩) :
      Step c { c with store := { c.store with pendingRaftMeta := [] }, writer := none }
  | count {t : Store} (committed : c.writer = some ⟨t, .committed⟩) :
      Step c { c with writer := some ⟨t, .counted⟩ }
  | publish {t : Store} (counted : c.writer = some ⟨t, .counted⟩) :
      Step c { c with store := t, writer := none }
  | other {t : Tables} (free : c.writer = none) (same : SameKeys c.store.engine t) :
      Step c { c with store := { c.store with engine := t } }
  | begin (r : RangeOp) :
      Step c { c with readers := ⟨r, c.store.view.current, readViewTries, .load⟩ :: c.readers }
  | goOn {before after : List Reader} {r r' : Reader} (reading : c.readers = before ++ r :: after)
      (read : c.read r = some (.inl r')) : Step c { c with readers := before ++ r' :: after }
  | view {before after : List Reader} {r : Reader} {v : Viewed}
      (reading : c.readers = before ++ r :: after) (read : c.read r = some (.inr v)) :
      Step c { c with readers := before ++ after, viewed := v :: c.viewed }

/-- A member from the opening of its engine on. -/
inductive Run : Config → Prop
  | start {s : Store} (reached : Reachable s) : Run ⟨Store.open s.engine, none, [], []⟩
  | step {c d : Config} (run : Run c) (step : Step c d) : Run d

end Fastetcd.Mvcc.Views
