import Fastetcd.Data.Merge
import Fastetcd.Laws.Server.Authz

/-!
# Range options

Two requests that differ in their ranges alone are served alike: the ranges of a txn read the same
records in both, whatever the txn has written before, and nothing else of a txn reads a range. So
one answer is the other with each range's response changed in a given way (`view`), exactly if that
holds of every range the request runs, on the records it reads (`serve_shown_iff`). `keys_only` and
`limit` are such changes.

`keys_only` erases the values in the store (`trim`), before the server sorts. A range that sorts by
value then compares empty strings and keeps the order of the keys.
-/

namespace Fastetcd.Server

open Mvcc Reference

/-! ## What the ranges of a request read -/

/-- The records a Range inside a txn answers over. -/
def recordsRead (env : Env) (exec : Exec) (revision : Int) :
    Except MvccError (Table Bytes KvRecord) := do
  let readRev ← checkReadRev ⟨exec.current env, env.revs.compact⟩ revision
  return if env.revs.current < readRev.main then (liveRows exec.cells).map fun _ row => row.record
    else env.past readRev.main

theorem range_eq_map (env : Env) (exec : Exec) (r : RangeOp) :
    Reference.range env exec r = (recordsRead env exec r.revision).map (answer · r) := by
  simp only [Reference.range, recordsRead]
  cases checkReadRev ⟨exec.current env, env.revs.compact⟩ r.revision <;> rfl

/-- A Range that reads `records`. -/
abbrev Read := RangeRequest × Table Bytes KvRecord

/-- Where an op leaves a txn, if it is not refused. -/
def afterOp (env : Env) (op : RequestOp) (exec : Exec) : Option Exec := do
  let top ← requestOpFromProto op
  let (_, exec) ← (Reference.txnOp env top exec).toOption
  return exec

/-- Whether a txn takes its success branch. -/
def takesSuccess (env : Env) (compare : List CompareRequest) : Bool :=
  ((compare.mapM compareFromProto).map fun compares => compares.all (holds env.before)).getD false

mutual

/-- The ranges an op runs, in order. -/
def readsOp (env : Env) : RequestOp → Exec → List Read
  | .range r, exec => ((recordsRead env exec r.revision).toOption.map fun read => (r, read)).toList
  | .txn compare success failure, exec =>
    if takesSuccess env compare then readsOps env success exec else readsOps env failure exec
  | _, _ => []

def readsOps (env : Env) : List RequestOp → Exec → List Read
  | [], _ => []
  | op :: ops, exec => readsOp env op exec ++
    ((afterOp env op exec).map fun exec => readsOps env ops exec).getD []

end

/-- The ranges a request runs on the store if it is not refused. -/
def Request.reads (s : Store) : Request → List Read
  | .range r => readsOp s.env (.range r) (.start s.env.before)
  | .txn t =>
    let op := RequestOp.txn t.compare t.success t.failure
    if (afterOp s.env op (.start s.env.before)).isSome then readsOp s.env op (.start s.env.before)
    else []
  | _ => []

/-! ## Answers that differ in the ranges alone -/

section Change

variable (change : RangeRequest → RangeRequest) (view : RangeRequest → Response → Response)

mutual

def RequestOp.changed : RequestOp → RequestOp
  | .range r => .range (change r)
  | .txn compare success failure => .txn compare (changedOps success) (changedOps failure)
  | op => op

def changedOps : List RequestOp → List RequestOp
  | [] => []
  | op :: ops => op.changed :: changedOps ops

end

mutual

/-- The response with every range's seen through `view`. -/
def RequestOp.viewed : RequestOp → Response → Response
  | .range r, response => view r response
  | .txn _ success failure, .txn succeeded responses =>
    .txn succeeded (if succeeded then viewedOps success responses else viewedOps failure responses)
  | _, response => response

def viewedOps : List RequestOp → List Response → List Response
  | op :: ops, response :: responses => op.viewed response :: viewedOps ops responses
  | _, _ => []

end

def TxnRequest.changed (t : TxnRequest) : TxnRequest :=
  ⟨t.compare, changedOps change t.success, changedOps change t.failure⟩

def Request.changed : Request → Request
  | .range r => .range (change r)
  | .txn t => .txn (t.changed change)
  | req => req

def Request.viewed : Request → Response → Response
  | .range r, response => view r response
  | .txn t, response => (RequestOp.txn t.compare t.success t.failure).viewed view response
  | _, response => response

/-- On these records `view` takes the changed range's response to the range's own. -/
def Shows (read : Read) : Prop :=
  rangeResponse read.1 (answer read.2 (rangeRequestToOp read.1)) =
    view read.1 (rangeResponse (change read.1) (answer read.2 (rangeRequestToOp (change read.1))))

/-- Two runs that end alike: both refused for one reason, or both at one point with responses, the
first's being the second's seen through `seen` exactly if `shows`. -/
def Alike {α β : Type} (run run' : Except MvccError (α × Exec)) (respond respond' : α → Option β)
    (seen : β → β) (shows : Prop) : Prop :=
  (∃ e, run = .error e ∧ run' = .error e) ∨
    ∃ a a' exec b b', run = .ok (a, exec) ∧ run' = .ok (a', exec) ∧ respond a = some b ∧
      respond' a' = some b' ∧ (b = seen b' ↔ shows)

/-- The op and the changed op are both not convertible, or run alike from everywhere. -/
def OpShown (op : RequestOp) : Prop :=
  (requestOpFromProto op = none ∧ requestOpFromProto (op.changed change) = none) ∨
    ∃ top top', requestOpFromProto op = some top ∧
      requestOpFromProto (op.changed change) = some top' ∧ ∀ env exec,
        Alike (Reference.txnOp env top exec) (Reference.txnOp env top' exec) (opResponse op)
          (opResponse (op.changed change)) (op.viewed view)
          (∀ read ∈ readsOp env op exec, Shows change view read)

/-- The ops and the changed ops are both not convertible, or run alike from everywhere. -/
def OpsShown (ops : List RequestOp) : Prop :=
  (requestOpsFromProto ops = none ∧ requestOpsFromProto (changedOps change ops) = none) ∨
    ∃ tops tops', requestOpsFromProto ops = some tops ∧
      requestOpsFromProto (changedOps change ops) = some tops' ∧ ∀ env exec,
        Alike (Reference.txnOps env tops exec) (Reference.txnOps env tops' exec) (txnResponses ops)
          (txnResponses (changedOps change ops)) (viewedOps view ops)
          (∀ read ∈ readsOps env ops exec, Shows change view read)

variable {change view}

theorem OpShown.range (revision : ∀ r, (change r).revision = r.revision) (r : RangeRequest) :
    OpShown change view (.range r) := by
  refine .inr ⟨.range (rangeRequestToOp r), .range (rangeRequestToOp (change r)), rfl, rfl, ?_⟩
  intro env exec
  have same : (rangeRequestToOp (change r)).revision = r.revision := revision r
  have own : (rangeRequestToOp r).revision = r.revision := rfl
  simp only [Reference.txnOp, range_eq_map, same, own, readsOp]
  cases recordsRead env exec r.revision with
  | error e => exact .inl ⟨e, rfl, rfl⟩
  | ok records =>
    refine .inr ⟨_, _, exec, _, _, rfl, rfl, rfl, rfl, ?_⟩
    simp only [Except.toOption, Option.map_some, Option.toList_some, List.mem_singleton,
      forall_eq]
    exact Iff.rfl

/-- A mutation reads no range. -/
theorem OpShown.mutation {op : RequestOp} {m : Mutation} {response : MutationResult → Response}
    (converted : requestOpFromProto op = some (.mutation m))
    (responds : ∀ result, opResponse op (.mutation result) = some (response result))
    (unchanged : op.changed change = op) (unseen : ∀ response, op.viewed view response = response)
    (unread : ∀ env exec, readsOp env op exec = []) : OpShown change view op := by
  refine .inr ⟨.mutation m, .mutation m, converted, by rw [unchanged, converted], ?_⟩
  intro env exec
  simp only [Reference.txnOp, unchanged]
  cases mutate exec.cells ⟨env.main, exec.sub⟩ m with
  | error e => exact .inl ⟨e, rfl, rfl⟩
  | ok done =>
    refine .inr ⟨_, _, _, _, _, rfl, rfl, responds done.1, responds done.1, ?_⟩
    simp [unseen, unread]

/-- A branch that runs alike makes the nested txn around it do so. -/
theorem Alike.nested {ops ops' : List RequestOp} {branch branch' : Except MvccError _}
    {seen : List Response → List Response} {shows : Prop}
    {respond respond' : TxnOpResult → Option Response} {seenTxn : Response → Response}
    (succeeded : Bool) (alike : Alike branch branch' (txnResponses ops) (txnResponses ops') seen shows)
    (responds : ∀ results, respond (.txn succeeded results) =
      (txnResponses ops results).bind fun responses => some (.txn succeeded responses))
    (responds' : ∀ results, respond' (.txn succeeded results) =
      (txnResponses ops' results).bind fun responses => some (.txn succeeded responses))
    (sees : ∀ responses, seenTxn (.txn succeeded responses) = .txn succeeded (seen responses)) :
    Alike (branch >>= fun ran => .ok (.txn succeeded ran.1, ran.2))
      (branch' >>= fun ran => .ok (.txn succeeded ran.1, ran.2)) respond respond' seenTxn shows := by
  rcases alike with ⟨e, rfl, rfl⟩ | ⟨results, results', exec, bs, bs', rfl, rfl, some, some', iff⟩
  · exact .inl ⟨e, rfl, rfl⟩
  · refine .inr ⟨_, _, exec, .txn succeeded bs, .txn succeeded bs', rfl, rfl, ?_, ?_, ?_⟩
    · rw [responds, some]
      rfl
    · rw [responds', some']
      rfl
    · rw [sees, Response.txn.injEq]
      exact (and_iff_right rfl).trans iff

/-- A nested txn takes the same branch, so it runs alike if both its branches do. -/
theorem OpShown.txn {compare : List CompareRequest} {success failure : List RequestOp}
    (onSuccess : OpsShown change view success) (onFailure : OpsShown change view failure) :
    OpShown change view (.txn compare success failure) := by
  cases compares : compare.mapM compareFromProto with
  | none =>
    left
    simp only [requestOpFromProto, RequestOp.changed, compares]
    exact ⟨rfl, rfl⟩
  | some cmps =>
    rcases onSuccess with ⟨bad, bad'⟩ | ⟨tops, tops', into, into', run⟩
    · left
      simp only [requestOpFromProto, RequestOp.changed, compares, bad, bad']
      exact ⟨rfl, rfl⟩
    rcases onFailure with ⟨bad, bad'⟩ | ⟨fops, fops', intos, intos', runs⟩
    · left
      simp only [requestOpFromProto, RequestOp.changed, compares, into, into', bad, bad']
      exact ⟨rfl, rfl⟩
    refine .inr ⟨.txn cmps tops fops, .txn cmps tops' fops', ?_, ?_, ?_⟩
    · simp only [requestOpFromProto, compares, into, intos]
      rfl
    · simp only [requestOpFromProto, RequestOp.changed, compares, into', intos']
      rfl
    intro env exec
    have takes : takesSuccess env compare = cmps.all (holds env.before) := by
      simp [takesSuccess, compares]
    simp only [Reference.txnOp, readsOp, takes]
    cases cmps.all (holds env.before) with
    | true => exact (run env exec).nested true (fun _ => rfl) (fun _ => rfl) fun _ => rfl
    | false => exact (runs env exec).nested false (fun _ => rfl) (fun _ => rfl) fun _ => rfl

theorem OpsShown.cons {op : RequestOp} {ops : List RequestOp} (first : OpShown change view op)
    (rest : OpsShown change view ops) : OpsShown change view (op :: ops) := by
  rcases first with ⟨bad, bad'⟩ | ⟨top, top', into, into', run⟩
  · left
    simp only [requestOpsFromProto, changedOps, bad, bad']
    exact ⟨rfl, rfl⟩
  rcases rest with ⟨bad, bad'⟩ | ⟨tops, tops', intos, intos', runs⟩
  · left
    simp only [requestOpsFromProto, changedOps, into, into', bad, bad']
    exact ⟨rfl, rfl⟩
  refine .inr ⟨top :: tops, top' :: tops', ?_, ?_, ?_⟩
  · simp only [requestOpsFromProto, into, intos]
    rfl
  · simp only [requestOpsFromProto, changedOps, into', intos']
    rfl
  intro env exec
  simp only [Reference.txnOps]
  rcases run env exec with
    ⟨e, refused, refused'⟩ | ⟨result, result', exec', b, b', ran, ran', responds, responds', iff⟩
  · exact .inl ⟨e, by rw [refused]; rfl, by rw [refused']; rfl⟩
  have after : afterOp env op exec = some exec' := by
    simp [afterOp, into, ran, Except.toOption]
  simp only [ran, ran', bind, Except.bind]
  rcases runs env exec' with
    ⟨e, refused, refused'⟩ | ⟨results, results', last, bs, bs', rans, rans', respond, respond', iffs⟩
  · exact .inl ⟨e, by rw [refused], by rw [refused']⟩
  refine .inr ⟨result :: results, result' :: results', last, b :: bs, b' :: bs', by rw [rans]; rfl,
    by rw [rans']; rfl, ?_, ?_, ?_⟩
  · simp only [txnResponses, responds, respond]
    rfl
  · simp only [txnResponses, changedOps, responds', respond']
    rfl
  · simp only [viewedOps, List.cons.injEq, iff, iffs, readsOps, after, Option.map_some,
      Option.getD_some, List.forall_mem_append]

mutual

theorem opShown (revision : ∀ r, (change r).revision = r.revision) (op : RequestOp) :
    OpShown change view op := by
  match op with
  | .missing => exact .inl ⟨rfl, rfl⟩
  | .range r => exact .range revision r
  | .put p =>
    exact .mutation rfl (fun _ => rfl) rfl (fun response => by cases response <;> rfl)
      fun _ _ => rfl
  | .deleteRange d =>
    exact .mutation rfl (fun _ => rfl) rfl (fun response => by cases response <;> rfl)
      fun _ _ => rfl
  | .txn compare success failure =>
    exact .txn (opsShown revision success) (opsShown revision failure)

theorem opsShown (revision : ∀ r, (change r).revision = r.revision) (ops : List RequestOp) :
    OpsShown change view ops := by
  match ops with
  | [] => exact .inr ⟨[], [], rfl, rfl, fun env exec => .inr ⟨[], [], exec, [], [], rfl, rfl, rfl,
      rfl, by simp [viewedOps, readsOps]⟩⟩
  | op :: ops => exact .cons (opShown revision op) (opsShown revision ops)

end

/-! ### Whole requests -/

theorem requestOpFromProto_txn (t : TxnRequest) :
    requestOpFromProto (.txn t.compare t.success t.failure) =
      (txnRequestParts t).map fun parts => .txn parts.1 parts.2.1 parts.2.2 := by
  simp only [requestOpFromProto, txnRequestParts]
  cases t.compare.mapM compareFromProto with
  | none => rfl
  | some compares =>
    cases requestOpsFromProto t.success with
    | none => rfl
    | some success => cases requestOpsFromProto t.failure <;> rfl

theorem txnResponse_eq (t : TxnRequest) (result : TxnResult) :
    txnResponse t result =
      match opResponse (.txn t.compare t.success t.failure)
        (.txn result.succeeded result.opResults) with
      | none => .error .internal
      | some response => .ok (result.revision, response) := by
  simp only [txnResponse, opResponse]
  cases result.succeeded with
  | true => cases h : txnResponses t.success result.opResults <;> simp [h]
  | false => cases h : txnResponses t.failure result.opResults <;> simp [h]

variable {s : Store}

/-- What a convertible txn is answered. -/
theorem serve_txn_fst (inv : s.Inv) {t : TxnRequest} {top : TxnOp}
    (into : requestOpFromProto (.txn t.compare t.success t.failure) = some top) (engineOk : Bool) :
    ((Request.txn t).serve s engineOk).1 =
      match Reference.txnOp s.env top (.start s.env.before) with
      | .error e => .error (.mvcc e)
      | .ok (result, exec) =>
        if exec.writes.isEmpty || engineOk then
          match opResponse (.txn t.compare t.success t.failure) result with
          | none => .error .internal
          | some response => .ok (exec.current s.env, response)
        else .error (.mvcc .storage) := by
  rw [requestOpFromProto_txn] at into
  obtain ⟨⟨compares, success, failure⟩, parts, rfl⟩ := Option.map_eq_some_iff.mp into
  have served := (txn_served inv compares success failure engineOk).answer
  simp only [Request.serve, parts]
  generalize s.txn compares success failure engineOk = answered at served
  obtain ⟨answer, after⟩ := answered
  rcases txn_eq_txnOp s.env compares success failure with
    ⟨e, stopped, refused⟩ | ⟨succeeded, results, exec, ran, done⟩
  · rw [refused] at served
    obtain rfl : answer = .error e := served
    simp only [stopped]
  · rw [done] at served
    simp only [ran]
    simp only [Except.bind] at served
    cases kept : exec.writes.isEmpty || engineOk with
    | true =>
      rw [kept] at served
      obtain rfl : answer = .ok ⟨succeeded, exec.current s.env, results⟩ := served
      exact txnResponse_eq t _
    | false =>
      rw [kept] at served
      obtain rfl : answer = .error .storage := served
      rfl

theorem serve_range_fst (inv : s.Inv) (engineOk : Bool) (r : RangeRequest) :
    ((Request.range r).serve s engineOk).1 =
      match recordsRead s.env (.start s.env.before) r.revision with
      | .error e => .error (.mvcc e)
      | .ok records => .ok (s.writeState.currentRev,
          rangeResponse r (answer records (rangeRequestToOp r))) := by
  have own : (rangeRequestToOp r).revision = r.revision := rfl
  have revs : (⟨(Exec.start s.env.before).current s.env, s.env.revs.compact⟩ : Revs) =
      s.writeState.revs := rfl
  simp only [Request.serve, recordsRead, revs]
  rcases rangeWithRevision_spec inv (rangeRequestToOp r) with
    ⟨e, checked, refused⟩ | ⟨main, values, checked, read, -⟩
  · rw [own] at checked
    simp only [refused, checked, bind, Except.bind]
  · rw [own] at checked
    have settled : ¬s.env.revs.current < (Revision.endOf main).main := by
      obtain ⟨same, bound⟩ := checkReadRev_ok checked
      have nonneg : 0 ≤ s.writeState.revs.current := inv.txnStart.nonneg
      have current : s.env.revs.current = s.writeState.revs.current := rfl
      rw [same, current]
      simp only [Revision.endOf]
      split <;> omega
    simp only [read, checked, bind, Except.bind, pure, Except.pure, if_neg settled]
    rfl

/-- A request's answer is the changed one's, each range's response seen through `view`, exactly if
that holds of every range the request runs. -/
theorem serve_shown_iff (inv : s.Inv) (revision : ∀ r, (change r).revision = r.revision)
    (req : Request) :
    (∀ engineOk, (req.serve s engineOk).1 = ((req.changed change).serve s engineOk).1.map fun out =>
      (out.1, req.viewed view out.2)) ↔ ∀ read ∈ req.reads s, Shows change view read := by
  cases req with
  | range r =>
    simp only [Request.changed, serve_range_fst inv, revision, Request.reads, readsOp]
    cases recordsRead s.env (.start s.env.before) r.revision with
    | error e => simp [Except.map, Except.toOption]
    | ok records => simp [Except.map, Except.toOption, Shows, Request.viewed]
  | put p =>
    refine iff_of_true (fun engineOk => (congrFun Except.map_id _).symm) fun read mem => ?_
    exact absurd mem (List.not_mem_nil)
  | deleteRange d =>
    refine iff_of_true (fun engineOk => (congrFun Except.map_id _).symm) fun read mem => ?_
    exact absurd mem (List.not_mem_nil)
  | txn t =>
    simp only [Request.changed, Request.reads]
    have shown : OpShown change view (.txn t.compare t.success t.failure) := opShown revision _
    rcases shown with ⟨bad, bad'⟩ | ⟨top, top', into, into', run⟩
    · have parts : txnRequestParts t = none := by simpa [requestOpFromProto_txn] using bad
      have parts' : txnRequestParts (t.changed change) = none := by
        have bad' : requestOpFromProto (.txn (t.changed change).compare (t.changed change).success
          (t.changed change).failure) = none := bad'
        simpa [requestOpFromProto_txn] using bad'
      simp [Request.serve, parts, parts', Except.map, afterOp, bad]
    have answered := serve_txn_fst inv into
    have answered' := serve_txn_fst (t := t.changed change) inv into'
    rcases run s.env (.start s.env.before) with
      ⟨e, refused, refused'⟩ | ⟨result, result', exec, b, b', ran, ran', responds, responds', iff⟩
    · simp [answered, answered', refused, refused', afterOp, into, Except.map, Except.toOption]
    · have after : (afterOp s.env (.txn t.compare t.success t.failure)
          (.start s.env.before)).isSome = true := by
        simp [afterOp, into, ran, Except.toOption]
      have responds' : opResponse (.txn (t.changed change).compare (t.changed change).success
        (t.changed change).failure) result' = some b' := responds'
      rw [if_pos after, ← iff]
      simp only [answered, answered', ran, ran', responds, responds']
      constructor
      · intro same
        have written := same true
        simp only [Bool.or_true, if_true, Except.map, Except.ok.injEq, Prod.mk.injEq] at written
        exact written.2
      · intro same engineOk
        rw [same]
        cases exec.writes.isEmpty || engineOk <;> rfl

end Change

/-! ## The response of one range -/

section Response

variable (r : RangeRequest) (records : Table Bytes KvRecord)

/-- The records of the range that its filters keep, in the order of their keys. -/
def matched (read : Read) : List KvRecord :=
  ((read.2.scan (inRange · read.1.key read.1.rangeEnd)).map Prod.snd).filter (keep read.1)

/-- The records up to the request's limit. -/
def upToLimit (kvs : List KvRecord) : List KvRecord :=
  if 0 < r.limit then kvs.take r.limit.toNat else kvs

theorem filter_keep_of_not_filters (plain : filters r = false) (kvs : List KvRecord) :
    kvs.filter (keep r) = kvs := by
  simp only [filters, Bool.or_eq_false_iff, bne_eq_false_iff_eq] at plain
  obtain ⟨⟨⟨minMod, maxMod⟩, minCreate⟩, maxCreate⟩ := plain
  simp [keep, minMod, maxMod, minCreate, maxCreate]

theorem filter_keep_trim (kvs : List KvRecord) (keysOnly : Bool) :
    (kvs.map (trim · keysOnly)).filter (keep r) = (kvs.filter (keep r)).map (trim · keysOnly) := by
  rw [List.filter_map]
  cases keysOnly <;> rfl

@[simp]
theorem length_sorted (kvs : List KvRecord) : (sorted r kvs).length = kvs.length := by
  unfold sorted
  split <;> simp

theorem upToLimit_eq (kvs : List KvRecord) :
    (if decide (r.limit.toNat > 0) && decide (kvs.length > r.limit.toNat) then
      kvs.take r.limit.toNat else kvs) = upToLimit r kvs := by
  unfold upToLimit
  by_cases limited : 0 < r.limit
  · have positive : r.limit.toNat > 0 := Int.pos_iff_toNat_pos.mp limited
    simp only [limited, positive, if_true, decide_true, Bool.true_and, decide_eq_true_eq]
    split
    · rfl
    · next short => exact (List.take_of_length_le (Nat.not_lt.mp short)).symm
  · have none : ¬r.limit.toNat > 0 := fun positive => limited (Int.pos_iff_toNat_pos.mpr positive)
    simp [limited, none]

/-- All paths of a range that is not count-only: the matched records, trimmed, sorted and cut. -/
theorem rangeResponse_answer (listed : r.countOnly = false) :
    rangeResponse r (answer records (rangeRequestToOp r)) =
      let kvs := sorted r ((matched (r, records)).map (trim · r.keysOnly))
      .range (upToLimit r kvs) (decide (0 < r.limit) && decide (r.limit.toNat < kvs.length))
        (records.scan (inRange · r.key r.rangeEnd)).length := by
  have positive : decide (r.limit.toNat > 0) = decide (0 < r.limit) :=
    decide_eq_decide.mpr Int.pos_iff_toNat_pos.symm
  have fields : (rangeRequestToOp r).countOnly = r.countOnly ∧
      (rangeRequestToOp r).keysOnly = r.keysOnly ∧ (rangeRequestToOp r).key = r.key ∧
      (rangeRequestToOp r).rangeEnd = r.rangeEnd ∧ (rangeRequestToOp r).limit = storeLimit r :=
    ⟨rfl, rfl, rfl, rfl, rfl⟩
  have found : ∀ rows : List (Bytes × KvRecord), (rows.map fun row => trim row.2 r.keysOnly) =
      (rows.map Prod.snd).map (trim · r.keysOnly) := by
    intro rows
    rw [List.map_map]
    rfl
  simp only [rangeResponse, applyOptions, answer, fields, listed, Bool.false_eq_true, if_false,
    found, matched, storeLimit]
  cases options : applies r with
  | true =>
    simp only [Bool.not_true, Bool.false_eq_true, if_false, if_true, gt_iff_lt, Nat.lt_irrefl,
      filter_keep_trim]
    rw [upToLimit_eq, ← positive]
    rfl
  | false =>
    -- No order and no filter: what the store answers is what is sent.
    obtain ⟨order, plain⟩ : effectiveOrder r = none ∧ filters r = false := by
      simpa [applies, listed] using options
    simp only [Bool.not_false, if_true, Bool.false_eq_true, if_false, sorted, order,
      filter_keep_of_not_filters r plain]
    rw [← positive]
    by_cases limited : 0 < r.limit
    · have cut : r.limit.toNat > 0 := Int.pos_iff_toNat_pos.mp limited
      simp [upToLimit, limited, cut, List.map_take]
    · have uncut : ¬r.limit.toNat > 0 := fun cut => limited (Int.pos_iff_toNat_pos.mpr cut)
      simp [upToLimit, limited, uncut]

theorem rangeResponse_countOnly (counts : r.countOnly = true) :
    rangeResponse r (answer records (rangeRequestToOp r)) =
      .range [] false (records.scan (inRange · r.key r.rangeEnd)).length := by
  simp [rangeResponse, applyOptions, applies, answer, rangeRequestToOp, counts]

end Response

/-! ## Limit -/

def unlimited (r : RangeRequest) : RangeRequest := { r with limit := 0 }

/-- The first records of the response, up to the request's limit. -/
def limited (r : RangeRequest) : Response → Response
  | .range kvs more count =>
    if 0 < r.limit then
      .range (kvs.take r.limit.toNat) (decide (r.limit.toNat < kvs.length)) count
    else .range kvs more count
  | response => response

theorem shows_limited (read : Read) : Shows unlimited limited read := by
  obtain ⟨r, records⟩ := read
  unfold Shows
  cases counts : r.countOnly with
  | true =>
    have counts' : (unlimited r).countOnly = true := counts
    rw [rangeResponse_countOnly r records counts, rangeResponse_countOnly _ records counts']
    simp [limited, unlimited]
  | false =>
    have counts' : (unlimited r).countOnly = false := counts
    have kept : sorted (unlimited r) ((matched (unlimited r, records)).map
        (trim · (unlimited r).keysOnly)) =
        sorted r ((matched (r, records)).map (trim · r.keysOnly)) := rfl
    rw [rangeResponse_answer r records counts, rangeResponse_answer _ records counts', kept]
    by_cases cut : 0 < r.limit
    · simp [limited, upToLimit, unlimited, cut]
    · simp [limited, upToLimit, unlimited, cut]

variable {s : Store}

/-- A limit cuts the answer and does nothing else: with every limit of the request taken away the
answer is the same but that each range of it has all its records. -/
theorem limit_cuts_answer (reachable : Reachable s) (req : Request) (engineOk : Bool) :
    (req.serve s engineOk).1 =
      ((req.changed unlimited).serve s engineOk).1.map fun out => (out.1, req.viewed limited out.2) := by
  have revision : ∀ r, (unlimited r).revision = r.revision := fun _ => rfl
  apply (serve_shown_iff reachable.inv revision req).mpr
  intro read _
  exact shows_limited read

theorem limit_cuts_answer_in_txn :
    let s := ((Store.open Tables.empty).apply
      [.put [97] [2] 0 false false false, .put [98] [1] 0 false false false] true).2
    let range : RangeRequest := { key := [0], rangeEnd := [0], limit := 2, sortTarget := 4 }
    let req : Request := .txn ⟨[], [.put ⟨[99], [0], 0, false, false, false⟩, .range range], []⟩
    (req.serve s true).1 =
      ((req.changed unlimited).serve s true).1.map fun out => (out.1, req.viewed limited out.2) :=
  limit_cuts_answer ⟨_, _, .step .start (.apply _ true)⟩ _ true

/-! ## `keys_only` -/

def withValues (r : RangeRequest) : RangeRequest := { r with keysOnly := false }

def Response.erased : Response → Response
  | .range kvs more count => .range (kvs.map (trim · true)) more count
  | response => response

/-- The response with the values erased, for a request that asks for keys only. -/
def erasedFor (r : RangeRequest) (response : Response) : Response :=
  if r.keysOnly then response.erased else response

/-- `a` may come before `b` in a sort by value. -/
def valueLe (ascending : Bool) (a b : KvRecord) : Prop :=
  if ascending then a.value ≤ b.value else b.value ≤ a.value

instance (ascending : Bool) : DecidableRel (valueLe ascending) := fun a b =>
  inferInstanceAs (Decidable (if ascending then a.value ≤ b.value else b.value ≤ a.value))

instance (ascending : Bool) : Std.Total (valueLe ascending) where
  total a b := by
    cases ascending with
    | true => exact List.le_total a.value b.value
    | false => exact List.le_total b.value a.value

instance (ascending : Bool) : IsTrans KvRecord (valueLe ascending) where
  trans a b c first second := by
    cases ascending with
    | true => exact List.le_trans first second
    | false => exact List.le_trans second first

/-- A range that lists records sorted by value finds those it shows sorted already: in the order of
the keys they are in the order of the values, and before all others. -/
def InValueOrder (read : Read) : Prop :=
  ∀ ascending, effectiveOrder read.1 = some (.value, ascending) → read.1.countOnly = false →
    let kvs := matched read
    let shown := if 0 < read.1.limit then read.1.limit.toNat else kvs.length
    (kvs.take shown).Pairwise (valueLe ascending) ∧
      ∀ a ∈ kvs.take shown, ∀ b ∈ kvs.drop shown, valueLe ascending a b

theorem sorted_trim (r : RangeRequest) (other : ∀ ascending, effectiveOrder r ≠ some (.value, ascending))
    (kvs : List KvRecord) :
    sorted r (kvs.map (trim · true)) = (sorted r kvs).map (trim · true) := by
  unfold sorted
  rcases order : effectiveOrder r with _ | ⟨target, ascending⟩
  · rfl
  have blind : ∀ a b, target.le (trim a true) (trim b true) = target.le a b := by
    intro a b
    cases target with
    | value => exact absurd order (other ascending)
    | key | version | create | mod => rfl
  cases ascending with
  | true => exact (List.map_insertionSort _ _ _ _ fun a _ b _ => by rw [blind]).symm
  | false => exact (List.map_insertionSort _ _ _ _ fun a _ b _ => by rw [blind]).symm

theorem sorted_value {r : RangeRequest} {ascending : Bool}
    (order : effectiveOrder r = some (.value, ascending)) (kvs : List KvRecord) :
    sorted r kvs = kvs.insertionSort (valueLe ascending) := by
  have same : ∀ le : KvRecord → KvRecord → Bool,
      (∀ a b, le a b = true ↔ valueLe ascending a b) →
        kvs.insertionSort (fun a b => le a b) = kvs.insertionSort (valueLe ascending) := by
    intro le agree
    have mapped := List.map_insertionSort (fun a b => le a b) (valueLe ascending) id kvs
      fun a _ b _ => agree a b
    simpa using mapped
  unfold sorted
  rw [order]
  cases ascending with
  | true => exact same (SortTarget.value.le · ·) fun a b => decide_eq_true_iff
  | false => exact same (fun a b => SortTarget.value.le b a) fun a b => decide_eq_true_iff

/-- Erased values are all in order. -/
theorem sorted_value_trim {r : RangeRequest} {ascending : Bool}
    (order : effectiveOrder r = some (.value, ascending)) (kvs : List KvRecord) :
    sorted r (kvs.map (trim · true)) = kvs.map (trim · true) := by
  have equal : ∀ a b, valueLe ascending (trim a true) (trim b true) := by
    intro a b
    cases ascending <;> exact List.le_refl []
  rw [sorted_value order]
  apply List.Pairwise.insertionSort_eq
  apply List.pairwise_map.mpr
  exact List.pairwise_of_forall equal

theorem upToLimit_map (r : RangeRequest) (f : KvRecord → KvRecord) (kvs : List KvRecord) :
    upToLimit r (kvs.map f) = (upToLimit r kvs).map f := by
  unfold upToLimit
  split
  · exact List.map_take.symm
  · rfl

theorem upToLimit_eq_take (r : RangeRequest) {kvs : List KvRecord} {n : Nat}
    (size : kvs.length = n) :
    upToLimit r kvs = kvs.take (if 0 < r.limit then r.limit.toNat else n) := by
  unfold upToLimit
  split
  · rfl
  · exact (List.take_of_length_le size.le).symm

/-- Records with different keys stay different without their values. -/
theorem trim_inj {read : Read} (keyed : Keyed read.2) {a b : KvRecord} (first : a ∈ matched read)
    (second : b ∈ matched read) (same : trim a true = trim b true) : a = b := by
  have key : a.key = b.key := by simpa [trim] using congrArg KvRecord.key same
  have stored : ∀ kv ∈ matched read, read.2[kv.key]? = some kv := by
    intro kv mem
    obtain ⟨⟨k, found⟩, row, rfl⟩ := List.mem_map.mp (List.mem_filter.mp mem).1
    have there := (Table.mem_scan.mp row).1
    rw [keyed k found there]
    exact there
  have stored := (stored a first).symm.trans (key ▸ stored b second)
  exact Option.some.inj stored

theorem map_trim_inj {read : Read} (keyed : Keyed read.2) :
    ∀ {front back : List KvRecord}, (∀ kv ∈ front, kv ∈ matched read) →
      (∀ kv ∈ back, kv ∈ matched read) →
      front.map (trim · true) = back.map (trim · true) → front = back
  | [], [], _, _, _ => rfl
  | [], _ :: _, _, _, same => nomatch same
  | _ :: _, [], _, _, same => nomatch same
  | a :: front, b :: back, first, second, same => by
    obtain ⟨head, tail⟩ := List.cons.inj same
    have heads := trim_inj keyed (first a List.mem_cons_self) (second b List.mem_cons_self) head
    have tails := map_trim_inj keyed (fun kv mem => first kv (List.mem_cons_of_mem a mem))
      (fun kv mem => second kv (List.mem_cons_of_mem b mem)) tail
    rw [heads, tails]

theorem mem_of_mem_upToLimit {r : RangeRequest} {kvs : List KvRecord} {kv : KvRecord}
    (mem : kv ∈ upToLimit r kvs) : kv ∈ kvs := by
  unfold upToLimit at mem
  split at mem
  · exact List.mem_of_mem_take mem
  · exact mem

/-- Sorting before and after the values are erased shows the same records exactly if a sort by value
finds them in order. -/
theorem upToLimit_sorted_trim_iff {read : Read} (keyed : Keyed read.2)
    (listed : read.1.countOnly = false) :
    upToLimit read.1 (sorted read.1 ((matched read).map (trim · true))) =
      (upToLimit read.1 (sorted read.1 (matched read))).map (trim · true) ↔ InValueOrder read := by
  obtain ⟨r, records⟩ := read
  by_cases order : ∃ ascending, effectiveOrder r = some (.value, ascending)
  · obtain ⟨ascending, order⟩ := order
    have inOrder : InValueOrder (r, records) ↔
        upToLimit r (sorted r (matched (r, records))) = upToLimit r (matched (r, records)) := by
      rw [upToLimit_eq_take r (length_sorted r _), upToLimit_eq_take r rfl, sorted_value order,
        take_insertionSort_iff]
      constructor
      · intro inOrder
        exact inOrder ascending order listed
      · intro inOrder ascending' order' _
        have same : ascending' = ascending := by simpa [order] using order'.symm
        rw [same]
        exact inOrder
    rw [sorted_value_trim order, upToLimit_map, inOrder]
    constructor
    · intro same
      refine (map_trim_inj keyed (fun kv mem => mem_of_mem_upToLimit mem) (fun kv mem => ?_) same).symm
      have mem := mem_of_mem_upToLimit mem
      rw [sorted_value order, List.mem_insertionSort] at mem
      exact mem
    · intro same
      rw [same]
  · have other : ∀ ascending, effectiveOrder r ≠ some (.value, ascending) := fun ascending found =>
      order ⟨ascending, found⟩
    refine iff_of_true ?_ fun ascending found => absurd found (other ascending)
    rw [sorted_trim r other, upToLimit_map]

theorem shows_erased_iff {read : Read} (keyed : Keyed read.2) :
    Shows withValues erasedFor read ↔ (read.1.keysOnly = true → InValueOrder read) := by
  obtain ⟨r, records⟩ := read
  unfold Shows
  cases only : r.keysOnly with
  | false =>
    have same : withValues r = r := by
      cases r
      cases only
      rfl
    simp [same, erasedFor, only]
  | true =>
    cases counts : r.countOnly with
    | true =>
      have counts' : (withValues r).countOnly = true := counts
      rw [rangeResponse_countOnly r records counts, rangeResponse_countOnly _ records counts']
      simp [erasedFor, only, Response.erased, withValues, InValueOrder, counts]
    | false =>
      have counts' : (withValues r).countOnly = false := counts
      have kept : sorted (withValues r) ((matched (withValues r, records)).map
          (trim · (withValues r).keysOnly)) = sorted r (matched (r, records)) :=
        congrArg (sorted r) (List.map_id (matched (r, records)))
      rw [rangeResponse_answer r records counts, rangeResponse_answer _ records counts', kept, only,
        ← upToLimit_sorted_trim_iff keyed counts]
      simp only [erasedFor, only, if_true, Response.erased, Response.range.injEq, length_sorted,
        List.length_map, forall_const]
      exact and_iff_left ⟨rfl, rfl⟩

/-! ### The records a request reads -/

theorem keyed_recordsRead {env : Env} (before : KeyedCells env.before)
    (past : ∀ main, Keyed (env.past main)) {exec : Exec} (here : exec.Sound env) {revision : Int}
    {records : Table Bytes KvRecord} (read : recordsRead env exec revision = .ok records) :
    Keyed records := by
  have keyed : KeyedCells exec.cells := by
    rw [here.cells]
    exact before.writes exec.writes
  unfold recordsRead at read
  cases checked : checkReadRev ⟨exec.current env, env.revs.compact⟩ revision with
  | error e => simp [checked, bind, Except.bind] at read
  | ok readRev =>
    simp only [checked, bind, Except.bind, pure, Except.pure, Except.ok.injEq] at read
    subst read
    split
    · exact keyed.records
    · exact past readRev.main

mutual

theorem keyed_readsOp {env : Env} (before : KeyedCells env.before)
    (past : ∀ main, Keyed (env.past main)) (op : RequestOp) {exec : Exec} (here : exec.Sound env) :
    ∀ read ∈ readsOp env op exec, Keyed read.2 := by
  intro read mem
  match op with
  | .missing | .put _ | .deleteRange _ => exact nomatch mem
  | .range r =>
    simp only [readsOp, Option.mem_toList, Option.map_eq_some_iff] at mem
    obtain ⟨records, found, rfl⟩ := mem
    cases reads : recordsRead env exec r.revision with
    | error e => simp [reads, Except.toOption] at found
    | ok records' =>
      obtain rfl : records' = records := by simpa [reads, Except.toOption] using found
      exact keyed_recordsRead before past here reads
  | .txn compare success failure =>
    simp only [readsOp] at mem
    split at mem
    · exact keyed_readsOps before past success here read mem
    · exact keyed_readsOps before past failure here read mem

theorem keyed_readsOps {env : Env} (before : KeyedCells env.before)
    (past : ∀ main, Keyed (env.past main)) (ops : List RequestOp) {exec : Exec}
    (here : exec.Sound env) : ∀ read ∈ readsOps env ops exec, Keyed read.2 := by
  intro read mem
  match ops with
  | [] => exact nomatch mem
  | op :: ops =>
    simp only [readsOps, List.mem_append] at mem
    rcases mem with mem | mem
    · exact keyed_readsOp before past op here read mem
    cases after : afterOp env op exec with
    | none => simp [after] at mem
    | some exec' =>
      simp only [after, Option.map_some, Option.getD_some] at mem
      obtain ⟨top, into, ran⟩ := Option.bind_eq_some_iff.mp after
      cases run : Reference.txnOp env top exec with
      | error e => simp [run, Except.toOption] at ran
      | ok out =>
        obtain rfl : out.2 = exec' := by simpa [run, Except.toOption] using ran
        exact keyed_readsOps before past ops (txnOp_sound top run here) read mem

end

theorem keyed_reads {s : Store} (inv : s.Inv) (req : Request) :
    ∀ read ∈ req.reads s, Keyed read.2 := by
  have before := keyedCells_before inv
  have past : ∀ main, Keyed (s.env.past main) := fun main => keyed_readAt inv _
  have start := Exec.Sound.start s.env
  intro read mem
  cases req with
  | put | deleteRange => exact nomatch mem
  | range r => exact keyed_readsOp before past (.range r) start read mem
  | txn t =>
    simp only [Request.reads] at mem
    split at mem
    · exact keyed_readsOp before past _ start read mem
    · exact nomatch mem

/-- Asking for keys only erases the values of the answer and does nothing else, exactly if every
range that asks for it and sorts by value finds its records in order. -/
theorem keysOnly_erases_iff (reachable : Reachable s) (req : Request) :
    (∀ engineOk, (req.serve s engineOk).1 =
      ((req.changed withValues).serve s engineOk).1.map fun out =>
        (out.1, req.viewed erasedFor out.2)) ↔
      ∀ read ∈ req.reads s, read.1.keysOnly = true → InValueOrder read := by
  have revision : ∀ r, (withValues r).revision = r.revision := fun _ => rfl
  rw [serve_shown_iff reachable.inv revision req]
  constructor
  · intro shows read mem
    exact (shows_erased_iff (keyed_reads reachable.inv req read mem)).mp (shows read mem)
  · intro ordered read mem
    exact (shows_erased_iff (keyed_reads reachable.inv req read mem)).mpr (ordered read mem)

theorem keysOnly_erases_newest_first :
    let s := ((Store.open Tables.empty).apply
      [.put [97] [2] 0 false false false, .put [98] [1] 0 false false false] true).2
    let range : RangeRequest :=
      { key := [0], rangeEnd := [0], sortOrder := 2, sortTarget := 3, keysOnly := true }
    ∀ engineOk, ((Request.range range).serve s engineOk).1 =
      ((Request.range (withValues range)).serve s engineOk).1.map fun out =>
        (out.1, out.2.erased) := by
  intro s range
  refine (keysOnly_erases_iff ⟨_, _, .step .start (.apply _ true)⟩ (.range range)).mpr ?_
  intro read mem _ ascending order
  have same : read.1 = range := by
    simp only [Request.reads, readsOp, Option.mem_toList, Option.map_eq_some_iff] at mem
    obtain ⟨records, -, rfl⟩ := mem
    rfl
  rw [same] at order
  cases order

/-- The keys of a range's response. -/
def Response.keys : Response → List Bytes
  | .range kvs _ _ => kvs.map KvRecord.key
  | _ => []

theorem keysOnly_loses_value_order :
    let s := ((Store.open Tables.empty).apply
      [.put [97] [2] 0 false false false, .put [98] [1] 0 false false false] true).2
    let range : RangeRequest :=
      { key := [0], rangeEnd := [0], sortTarget := 4, keysOnly := true }
    let answered := ((Request.range range).serve s true).1
    let full := ((Request.range (withValues range)).serve s true).1
    Reachable s ∧ answered.toOption.map (·.2.keys) = some [[97], [98]] ∧
      full.toOption.map (·.2.keys) = some [[98], [97]] ∧
      answered ≠ full.map fun out => (out.1, out.2.erased) := by
  intro s range answered full
  have listed : answered.toOption.map (·.2.keys) = some [[97], [98]] := by decide +kernel
  refine ⟨⟨_, _, .step .start (.apply _ true)⟩, listed, by decide +kernel, ?_⟩
  intro same
  rw [same] at listed
  revert listed
  decide +kernel

end Fastetcd.Server
