import Fastetcd.Mvcc.Apply

/-!
# Requests on the wire (`server/src/conv.rs`, `server/src/range_options.rs`, `server/src/kv.rs`)

The KV requests as clients send them, their conversion to the store's own, and the responses built
from the store's results. An enum arrives as a number, a txn's operations form a tree, and what has
no meaning is an invalid argument.

Serving is from the store on; the checks before it that only refuse (the space alarm, the version
gate of nested txns) are left out. Of a response's header the revision is kept, beside the response.
-/

namespace Fastetcd.Server

open Mvcc

/-! ## Messages -/

structure RangeRequest where
  key : Bytes
  rangeEnd : Bytes
  limit : Int := 0
  revision : Int := 0
  sortOrder : Int := 0
  sortTarget : Int := 0
  keysOnly : Bool := false
  countOnly : Bool := false
  minModRevision : Int := 0
  maxModRevision : Int := 0
  minCreateRevision : Int := 0
  maxCreateRevision : Int := 0

structure PutRequest where
  key : Bytes
  value : Bytes
  lease : LeaseId := 0
  prevKv : Bool := false
  ignoreValue : Bool := false
  ignoreLease : Bool := false

structure DeleteRangeRequest where
  key : Bytes
  rangeEnd : Bytes
  prevKv : Bool := false

/-- `pb::Compare`. -/
structure CompareRequest where
  result : Int
  target : Int
  key : Bytes
  rangeEnd : Bytes := []
  targetUnion : Option CompareTarget

/-- `pb::RequestOp`; `missing` is one whose `request` is not set. -/
inductive RequestOp where
  | missing
  | range (r : RangeRequest)
  | put (p : PutRequest)
  | deleteRange (d : DeleteRangeRequest)
  | txn (compare : List CompareRequest) (success failure : List RequestOp)

structure TxnRequest where
  compare : List CompareRequest
  success : List RequestOp
  failure : List RequestOp

/-! ## Range options -/

inductive SortTarget where
  | key | version | create | mod | value
deriving DecidableEq

/-- `SortTarget::try_from`, or `Key`. -/
def SortTarget.ofInt : Int → SortTarget
  | 1 => .version
  | 2 => .create
  | 3 => .mod
  | 4 => .value
  | _ => .key

/-- The order etcd sorts in, and whether it ascends; `none` is the store's own. -/
def effectiveOrder (req : RangeRequest) : Option (SortTarget × Bool) :=
  let target := SortTarget.ofInt req.sortTarget
  if req.sortOrder = 2 then some (target, false)
  else if target = .key then none
  else some (target, true)

def filters (req : RangeRequest) : Bool :=
  req.minModRevision != 0 || req.maxModRevision != 0 || req.minCreateRevision != 0 ||
    req.maxCreateRevision != 0

def applies (req : RangeRequest) : Bool :=
  !req.countOnly && ((effectiveOrder req).isSome || filters req)

/-- The limit the store is read with. -/
def storeLimit (req : RangeRequest) : Nat := if applies req then 0 else req.limit.toNat

/-- `compare` of the two records' targets is not `Greater`. -/
def SortTarget.le : SortTarget → KvRecord → KvRecord → Bool
  | .key, a, b => decide (a.key ≤ b.key)
  | .version, a, b => decide (a.version ≤ b.version)
  | .create, a, b => decide (a.createRevision ≤ b.createRevision)
  | .mod, a, b => decide (a.modRevision ≤ b.modRevision)
  | .value, a, b => decide (a.value ≤ b.value)

def keep (req : RangeRequest) (kv : KvRecord) : Bool :=
  (req.maxModRevision == 0 || decide (kv.modRevision ≤ req.maxModRevision)) &&
    (req.minModRevision == 0 || decide (req.minModRevision ≤ kv.modRevision)) &&
    (req.maxCreateRevision == 0 || decide (kv.createRevision ≤ req.maxCreateRevision)) &&
    (req.minCreateRevision == 0 || decide (req.minCreateRevision ≤ kv.createRevision))

/-- The records in the request's order; the sort is stable. -/
def sorted (req : RangeRequest) (kvs : List KvRecord) : List KvRecord :=
  match effectiveOrder req with
  | none => kvs
  | some (target, true) => kvs.insertionSort fun a b => target.le a b
  | some (target, false) => kvs.insertionSort fun a b => target.le b a

/-- `range_options::apply`: the filters, the sort and the limit, over the store's result. -/
def applyOptions (req : RangeRequest) (result : RangeResult) : RangeResult :=
  if !applies req then result
  else
    let kvs := sorted req (result.kvs.filter (keep req))
    let limit := req.limit.toNat
    let more := decide (limit > 0) && decide (kvs.length > limit)
    { result with kvs := if more then kvs.take limit else kvs, more }

/-! ## Conversion -/

def putRequestToMutation (p : PutRequest) : Mutation :=
  .put p.key p.value p.lease p.ignoreValue p.ignoreLease p.prevKv

def deleteRequestToMutation (d : DeleteRangeRequest) : Mutation :=
  .deleteRange d.key d.rangeEnd d.prevKv

def rangeRequestToOp (r : RangeRequest) : RangeOp where
  key := r.key
  rangeEnd := r.rangeEnd
  limit := storeLimit r
  revision := r.revision
  keysOnly := r.keysOnly
  countOnly := r.countOnly

/-- `CompareResult::try_from`. -/
def compareOpOfInt : Int → Option CompareOp
  | 0 => some .equal
  | 1 => some .greater
  | 2 => some .less
  | 3 => some .notEqual
  | _ => none

/-- The number a compare's target has on the wire. -/
def targetNumber : CompareTarget → Int
  | .version _ => 0
  | .createRevision _ => 1
  | .modRevision _ => 2
  | .value _ => 3
  | .lease _ => 4

/-- `compare_from_proto`; `none` is an invalid argument. -/
def compareFromProto (c : CompareRequest) : Option Compare := do
  let op ← compareOpOfInt c.result
  let target ← c.targetUnion
  if c.target = targetNumber target then some ⟨c.key, c.rangeEnd, op, target⟩ else none

mutual

/-- `request_op_from_proto`. -/
def requestOpFromProto : RequestOp → Option TxnOp
  | .missing => none
  | .range r => some (.range (rangeRequestToOp r))
  | .put p => some (.mutation (putRequestToMutation p))
  | .deleteRange d => some (.mutation (deleteRequestToMutation d))
  | .txn compare success failure => do
    let compares ← compare.mapM compareFromProto
    let success ← requestOpsFromProto success
    let failure ← requestOpsFromProto failure
    return .txn compares success failure

def requestOpsFromProto : List RequestOp → Option (List TxnOp)
  | [] => some []
  | op :: ops => do
    let op ← requestOpFromProto op
    let ops ← requestOpsFromProto ops
    return op :: ops

end

/-- `txn_request_parts`. -/
def txnRequestParts (req : TxnRequest) : Option (List Compare × List TxnOp × List TxnOp) := do
  let compares ← req.compare.mapM compareFromProto
  let success ← requestOpsFromProto req.success
  let failure ← requestOpsFromProto req.failure
  return (compares, success, failure)

/-! ## Serving -/

inductive Request where
  | range (r : RangeRequest)
  | put (p : PutRequest)
  | deleteRange (d : DeleteRangeRequest)
  | txn (t : TxnRequest)

inductive Response where
  | range (kvs : List KvRecord) (more : Bool) (count : Int)
  | put (prevKv : Option KvRecord)
  | deleteRange (deleted : Int) (prevKvs : List KvRecord)
  | txn (succeeded : Bool) (responses : List Response)

/-- Why no response is given; `internal` is a result that does not match its request. -/
inductive Status where
  | invalidArgument
  | mvcc (e : MvccError)
  | internal
deriving DecidableEq

/-- `range_result_to_response`, of the result with the request's options applied. -/
def rangeResponse (req : RangeRequest) (result : RangeResult) : Response :=
  let result := applyOptions req result
  .range (if req.countOnly then [] else result.kvs) result.more result.count

mutual

/-- The response to one op, of the kind its request has. -/
def opResponse : RequestOp → TxnOpResult → Option Response
  | .range r, .range res => some (rangeResponse r res)
  | .put _, .mutation m => some (.put m.prevKvs.head?)
  | .deleteRange _, .mutation m => some (.deleteRange m.n m.prevKvs)
  | .txn _ success failure, .txn succeeded results => do
    let responses ← if succeeded then txnResponses success results
      else txnResponses failure results
    return .txn succeeded responses
  | _, _ => none

/-- `txn_responses`: one per op of the branch that ran. -/
def txnResponses : List RequestOp → List TxnOpResult → Option (List Response)
  | [], [] => some []
  | op :: ops, result :: results => do
    let response ← opResponse op result
    let responses ← txnResponses ops results
    return response :: responses
  | _, _ => none

end

/-- Serving one mutation: the list holds it alone, so its result is the last. -/
def serveMutation (s : Store) (engineOk : Bool) (m : Mutation) (response : MutationResult → Response) :
    Except Status (Int × Response) × Store :=
  match s.apply [m] engineOk with
  | (.error e, s) => (.error (.mvcc e), s)
  | (.ok (revision, results), s) =>
    match results.getLast? with
    | none => (.error .internal, s)
    | some result => (.ok (revision, response result), s)

/-- `txn_result_to_response`. -/
def txnResponse (t : TxnRequest) (result : TxnResult) : Except Status (Int × Response) :=
  match txnResponses (if result.succeeded then t.success else t.failure) result.opResults with
  | none => .error .internal
  | some responses => .ok (result.revision, .txn result.succeeded responses)

/-- An authorized request on the store that answers it: the header's revision and the response. -/
def Request.serve (s : Store) (engineOk : Bool) :
    Request → Except Status (Int × Response) × Store
  | .range r =>
    match s.rangeWithRevision (rangeRequestToOp r) with
    | (.error e, s) => (.error (.mvcc e), s)
    | (.ok (result, revision), s) => (.ok (revision, rangeResponse r result), s)
  | .put p => serveMutation s engineOk (putRequestToMutation p) fun m => .put m.prevKvs.head?
  | .deleteRange d =>
    serveMutation s engineOk (deleteRequestToMutation d) fun m => .deleteRange m.n m.prevKvs
  | .txn t =>
    match txnRequestParts t with
    | none => (.error .invalidArgument, s)
    | some (compares, success, failure) =>
      match s.txn compares success failure engineOk with
      | (.error e, s) => (.error (.mvcc e), s)
      | (.ok result, s) => (txnResponse t result, s)

end Fastetcd.Server
