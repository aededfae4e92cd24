import Fastetcd.Mvcc.Lease

/-!
# Requests, outcomes and events of the MVCC store

The types of `storage/src/mvcc/store.rs` and `event.rs` that requests and answers are made of.
A txn's operations form a tree: a nested txn carries its own compares and branches.

Range limits are `usize` in the store and reach it as `limit.max(0) as usize` of a client's
`i64`, so casting one back to `i64` is exact and the model keeps it a natural number.
-/

namespace Fastetcd.Mvcc

/-- Why a request was refused at apply. -/
inductive Refusal where
  | keyNotFound
  | leaseNotFound
  | compacted
  | futureRevision
  | invalidArgument (message : String)
deriving DecidableEq

/-- `MvccError`. `storage` is a failed engine call; `missingRecord` is the internal error of a
read whose index entry has no record; `malformed` is the internal error of a table key that
does not parse. -/
inductive MvccError where
  | storage
  | compacted (requested compactRev : Int)
  | futureRevision (requested currentRev : Int)
  | refused (refusal : Refusal)
  | missingRecord (key : Bytes) (rev : Revision)
  | malformed (tableKey : Bytes)
deriving DecidableEq

/-- The request-level refusal this error is, if any. -/
def MvccError.refusal : MvccError → Option Refusal
  | .refused r => some r
  | .compacted _ _ => some .compacted
  | .futureRevision _ _ => some .futureRevision
  | .storage | .missingRecord _ _ | .malformed _ => none

/-- A single mutation: put one key, or delete a range. -/
inductive Mutation where
  | put (key value : Bytes) (lease : LeaseId) (ignoreValue ignoreLease prevKv : Bool)
  | deleteRange (key rangeEnd : Bytes) (prevKv : Bool)
deriving DecidableEq

/-- Keys written or deleted, and the records that were there before if asked for. -/
structure MutationResult where
  n : Int
  prevKvs : List KvRecord
deriving DecidableEq

structure RangeResult where
  kvs : List KvRecord
  more : Bool
  count : Int
deriving DecidableEq

inductive CompareOp where
  | equal | notEqual | greater | less
deriving DecidableEq

inductive CompareTarget where
  | version (v : Int)
  | createRevision (v : Int)
  | modRevision (v : Int)
  | value (v : Bytes)
  | lease (v : LeaseId)
deriving DecidableEq

/-- One predicate of a txn's compare list, on a key or on every key of a range. -/
structure Compare where
  key : Bytes
  rangeEnd : Bytes
  op : CompareOp
  target : CompareTarget
deriving DecidableEq

structure RangeOp where
  key : Bytes
  rangeEnd : Bytes
  limit : Nat
  revision : Int
  keysOnly : Bool
  countOnly : Bool
deriving DecidableEq

/-- One operation of a txn branch; `txn` is the source's `NestedTxn`. -/
inductive TxnOp where
  | range (r : RangeOp)
  | mutation (m : Mutation)
  | txn (compares : List Compare) (success failure : List TxnOp)

inductive TxnOpResult where
  | range (r : RangeResult)
  | mutation (r : MutationResult)
  | txn (succeeded : Bool) (opResults : List TxnOpResult)

structure TxnResult where
  succeeded : Bool
  revision : Int
  opResults : List TxnOpResult

structure LeaseGrantResult where
  id : LeaseId
  ttlSecs : Int
  revision : Int
deriving DecidableEq

structure LeaseRevokeResult where
  revision : Int
  deletedKeys : Int
deriving DecidableEq

/-- The answer to a keep-alive; it lists no keys. -/
structure LeaseTtlResult where
  id : LeaseId
  grantedTtlSecs : Int
  remainingTtlSecs : Int
deriving DecidableEq

inductive EventKind where
  | put | delete
deriving DecidableEq

/-- One key's change, as watchers get it. -/
structure MvccEvent where
  kind : EventKind
  kv : KvRecord
  prevKv : Option KvRecord
deriving DecidableEq

/-- The events of one revision, broadcast together. -/
structure EventBatch where
  revision : Int
  events : List MvccEvent
deriving DecidableEq

/-! ## Key ranges -/

/-- A range's bounds for the resident index; `none` when it is empty (`index_bounds`). -/
def indexBounds (key rangeEnd : Bytes) : Option (Bound × Bound) :=
  if rangeEnd = [] then some (.included key, .included key)
  else if rangeEnd = [0] then some (.included key, .unbounded)
  else if rangeEnd ≤ key then none
  else some (.included key, .excluded rangeEnd)

/-- A range's bounds for the engine (`range_bounds`). -/
def rangeBounds (key rangeEnd : Bytes) : Bound × Bound :=
  if rangeEnd = [] then (.included key, .included key)
  else if rangeEnd = [0] then (.included key, .unbounded)
  else (.included key, .excluded rangeEnd)

/-- etcd's range membership: one key, from a key to the end, or half-open. -/
def inRange (probe key rangeEnd : Bytes) : Bool :=
  if rangeEnd = [] then decide (probe = key)
  else if rangeEnd = [0] then decide (key ≤ probe)
  else decide (key ≤ probe) && decide (probe < rangeEnd)

/-- The engine's bounds admit exactly the keys of the range. -/
theorem inBounds_rangeBounds (k key rangeEnd : Bytes) :
    inBounds (rangeBounds key rangeEnd).1 (rangeBounds key rangeEnd).2 k =
      inRange k key rangeEnd := by
  unfold rangeBounds inRange
  split
  · simp only [inBounds]
    rw [Bool.eq_iff_iff]
    simp only [Bool.and_eq_true, decide_eq_true_eq]
    exact ⟨fun h => List.le_antisymm h.2 h.1, fun h => by subst h; exact ⟨List.le_refl _, List.le_refl _⟩⟩
  · split <;> simp [inBounds]

/-- An end at or before the start leaves no key in the range. -/
theorem inRange_eq_false {key rangeEnd : Bytes} (single : rangeEnd ≠ []) (toEnd : rangeEnd ≠ [0])
    (inverted : rangeEnd ≤ key) (k : Bytes) : inRange k key rangeEnd = false := by
  simp only [inRange, if_neg single, if_neg toEnd, Bool.and_eq_false_iff, decide_eq_false_iff_not]
  by_cases h : key ≤ k
  · exact Or.inr fun hlt => absurd (List.le_trans inverted h) (List.not_le.mpr hlt)
  · exact Or.inl h

/-- The rows of `t` in the range, as a walk of the resident index reads them. -/
def indexRange {V : Type} (t : Table Bytes V) (key rangeEnd : Bytes) : List (Bytes × V) :=
  match indexBounds key rangeEnd with
  | some (start, stop) => t.scan (inBounds start stop)
  | none => []

/-- The index's bounds admit exactly the keys of the range, an empty range included. -/
theorem indexRange_eq_scan {V : Type} (t : Table Bytes V) (key rangeEnd : Bytes) :
    indexRange t key rangeEnd = t.scan (inRange · key rangeEnd) := by
  have bounds := fun k => inBounds_rangeBounds k key rangeEnd
  by_cases single : rangeEnd = []
  · simp only [rangeBounds, if_pos single] at bounds
    simp only [indexRange, indexBounds, if_pos single, Table.scan, bounds]
  by_cases toEnd : rangeEnd = [0]
  · simp only [rangeBounds, if_neg single, if_pos toEnd] at bounds
    simp only [indexRange, indexBounds, if_neg single, if_pos toEnd, Table.scan, bounds]
  by_cases inverted : rangeEnd ≤ key
  · simp [indexRange, indexBounds, single, toEnd, inverted, Table.scan,
      inRange_eq_false single toEnd inverted]
  · simp only [rangeBounds, if_neg single, if_neg toEnd] at bounds
    simp only [indexRange, indexBounds, if_neg single, if_neg toEnd, if_neg inverted, Table.scan,
      bounds]

end Fastetcd.Mvcc
