import Fastetcd.Mvcc.Apply

/-!
# The reference interpreter

What the write path is for, over a plain map. A state is the map of the keys the store knows
(`Cells`): a live key has its newest record and the number of puts since its creation, a deleted
key has none. There are no generations, no overlay, no caches and no tables: an op reads the map
the ops before it left, a mutation answers the writes it makes, and a txn is a walk over its tree.

A compare is the store's own rule. It covers the keys the store knows, so a range compare meets a
deleted key as the implicit zero record until compaction forgets the key.
-/

namespace Fastetcd.Mvcc.Reference

/-- A live key: its newest record and the puts since its creation. -/
structure Row where
  record : KvRecord
  puts : Nat
deriving DecidableEq

/-- Every known key, with its row if it is live. -/
abbrev Cells := Table Bytes (Option Row)

/-- The row of a live key. -/
def liveRow (cells : Cells) (key : Bytes) : Option Row := cells[key]?.join

/-- The live keys. -/
def liveRows (cells : Cells) : Table Bytes Row := cells.filterMap fun _ cell => cell

/-- One write: the revision it takes and the event that tells it. -/
structure Write where
  rev : Revision
  event : MvccEvent
deriving DecidableEq

/-- The puts since creation once one more is made. -/
def putsAfter (prev : Option Row) : Nat := (prev.map Row.puts).getD 0 + 1

def write (cells : Cells) (w : Write) : Cells :=
  cells.insert w.event.kv.key (match w.event.kind with
    | .put => some ⟨w.event.kv, putsAfter (liveRow cells w.event.kv.key)⟩
    | .delete => none)

/-! ## Mutations -/

/-- The record a put writes over `prev`. -/
def putRecord (prev : Option Row) (rev : Revision) (key value : Bytes) (lease : LeaseId)
    (ignoreValue ignoreLease : Bool) : KvRecord :=
  let before := prev.map Row.record
  { key
    value := if ignoreValue then (before.map KvRecord.value).getD [] else value
    createRevision := (before.map KvRecord.createRevision).getD rev.main
    modRevision := rev.main
    version := putsAfter prev
    lease := if ignoreLease then (before.map KvRecord.lease).getD 0 else lease
    deleted := false }

/-- The write of a put over `prev`. -/
def putWrite (prev : Option Row) (rev : Revision) (key value : Bytes) (lease : LeaseId)
    (ignoreValue ignoreLease : Bool) : Write :=
  ⟨rev, .put, putRecord prev rev key value lease ignoreValue ignoreLease, prev.map Row.record⟩

/-- The write that deletes one live key. -/
def deleteWrite (rev : Revision) (live : Bytes × Row) : Write :=
  ⟨rev, .delete, tombstoneRecord live.1 rev, some live.2.record⟩

/-- One mutation at `rev`: its result and its writes. Every key a range delete removes takes the
same revision. -/
def mutate (cells : Cells) (rev : Revision) :
    Mutation → Except MvccError (MutationResult × List Write)
  | .put key value lease ignoreValue ignoreLease prevKv =>
    let prev := liveRow cells key
    if (ignoreValue || ignoreLease) && prev.isNone then .error (.refused .keyNotFound)
    else .ok (⟨1, if prevKv then (prev.map Row.record).toList else []⟩,
      [putWrite prev rev key value lease ignoreValue ignoreLease])
  | .deleteRange key rangeEnd prevKv =>
    let gone := (liveRows cells).scan (inRange · key rangeEnd)
    .ok (⟨gone.length, if prevKv then gone.map (·.2.record) else []⟩,
      gone.map (deleteWrite rev))

/-- Mutations in order at main revision `main`, from sub-revision `sub` on. -/
def mutations (main : Int) :
    Nat → List Mutation → Cells → Except MvccError (List MutationResult × List Write)
  | _, [], _ => .ok ([], [])
  | sub, m :: ms, cells => do
    let (result, ws) ← mutate cells ⟨main, sub⟩ m
    let (results, rest) ← mutations main (sub + 1) ms (ws.foldl write cells)
    return (result :: results, ws ++ rest)

/-! ## Ranges and compares -/

/-- The answer of a Range over the records that are live at its revision. -/
def answer (records : Table Bytes KvRecord) (r : RangeOp) : RangeResult :=
  let found := records.scan (inRange · r.key r.rangeEnd)
  let kept := if r.limit > 0 then found.take r.limit else found
  { kvs := if r.countOnly then [] else kept.map fun row => trim row.2 r.keysOnly
    more := !r.countOnly && decide (r.limit > 0) && decide (found.length > r.limit)
    count := found.length }

/-- The record a compare sees. -/
def cellRecord (key : Bytes) (cell : Option Row) : KvRecord :=
  (cell.map Row.record).getD (implicitZeroRecord key)

def holds (cells : Cells) (cmp : Compare) : Bool :=
  if cmp.rangeEnd.isEmpty then
    evalCompare (cellRecord cmp.key (liveRow cells cmp.key)) cmp.op cmp.target
  else
    (cells.scan (inRange · cmp.key cmp.rangeEnd)).all fun row =>
      evalCompare (cellRecord row.1 row.2) cmp.op cmp.target

/-! ## Transactions -/

/-- What a txn is run against: the cells before it, the records live at each past revision, and
the store's revisions. -/
structure Env where
  before : Cells
  past : Int → Table Bytes KvRecord
  revs : Revs

/-- Where a txn is: the cells now, the next sub-revision, and the writes made. -/
structure Exec where
  cells : Cells
  sub : Nat
  writes : List Write

def Exec.start (cells : Cells) : Exec := ⟨cells, 0, []⟩

/-- The main revision all writes of the txn take. -/
def Env.main (env : Env) : Int := env.revs.current + 1

/-- The revision reads of the txn are checked against: its own once it has written. -/
def Exec.current (exec : Exec) (env : Env) : Int :=
  if exec.writes.isEmpty then env.revs.current else env.main

/-- A Range inside a txn: the txn's own revision is the cells now, an earlier one is history. -/
def range (env : Env) (exec : Exec) (r : RangeOp) : Except MvccError RangeResult := do
  let readRev ← checkReadRev ⟨exec.current env, env.revs.compact⟩ r.revision
  let records :=
    if env.revs.current < readRev.main then (liveRows exec.cells).map fun _ row => row.record
    else env.past readRev.main
  return answer records r

mutual

def txnOp (env : Env) : TxnOp → Exec → Except MvccError (TxnOpResult × Exec)
  | .range r, exec => do
    let res ← range env exec r
    return (.range res, exec)
  | .mutation m, exec => do
    let (res, ws) ← mutate exec.cells ⟨env.main, exec.sub⟩ m
    return (.mutation res, ⟨ws.foldl write exec.cells, exec.sub + 1, exec.writes ++ ws⟩)
  | .txn compares success failure, exec => do
    let succeeded := compares.all (holds env.before)
    let (results, exec) ← if succeeded then txnOps env success exec else txnOps env failure exec
    return (.txn succeeded results, exec)

def txnOps (env : Env) : List TxnOp → Exec → Except MvccError (List TxnOpResult × Exec)
  | [], exec => .ok ([], exec)
  | op :: ops, exec => do
    let (res, exec) ← txnOp env op exec
    let (results, exec) ← txnOps env ops exec
    return (res :: results, exec)

end

/-- A whole txn: the result and the writes. -/
def txn (env : Env) (compares : List Compare) (success failure : List TxnOp) :
    Except MvccError (TxnResult × List Write) := do
  let succeeded := compares.all (holds env.before)
  let (results, exec) ← txnOps env (if succeeded then success else failure) (.start env.before)
  return (⟨succeeded, exec.current env, results⟩, exec.writes)

end Fastetcd.Mvcc.Reference
