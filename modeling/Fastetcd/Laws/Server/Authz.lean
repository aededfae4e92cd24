import Fastetcd.Laws.Mvcc.Runs
import Fastetcd.Server.Authz

/-!
# An authorized request stays within the user's permissions

A permission covers the keys between the bounds the check compares (`covers_eq_inBounds`), and so does
the store's reading of a request's range (`inRange_eq_inBounds`), so an access that passes the check
reaches no key outside the permissions (`permitted_of_authorizeAll`). What a request does is decided by
the reference interpreter's answer; that every record it returns, every key it writes and every key
a compare looks at was accessed is a walk over its tree (`txnOps_within`).
-/

namespace Fastetcd.Server

open Mvcc

/-! ## Ranges and permissions -/

/-- Nothing lies between a key and its successor. -/
theorem le_and_lt_succ_iff {k key : Bytes} : key ≤ k ∧ k < key ++ [0] ↔ k = key := by
  induction key generalizing k with
  | nil =>
    cases k with
    | nil => simp
    | cons x k => simp [List.cons_lt_cons_iff, UInt8.not_lt_zero]
  | cons a key ih =>
    cases k with
    | nil => simp
    | cons x k =>
      simp only [List.cons_append, List.cons_lt_cons_iff, List.cons_le_cons_iff, List.cons.injEq]
      constructor
      · rintro ⟨lo | ⟨rfl, lo⟩, hi | ⟨same, hi⟩⟩
        · exact absurd (UInt8.lt_trans lo hi) (UInt8.lt_irrefl _)
        · exact absurd (same ▸ lo) (UInt8.lt_irrefl _)
        · exact absurd hi (UInt8.lt_irrefl _)
        · exact ⟨rfl, ih.mp ⟨lo, hi⟩⟩
      · rintro ⟨rfl, rfl⟩
        exact ⟨.inr ⟨rfl, (ih.mpr rfl).1⟩, .inr ⟨rfl, (ih.mpr rfl).2⟩⟩

/-- The store reads a range as the check does. -/
theorem inRange_eq_inBounds (k key rangeEnd : Bytes) :
    inRange k key rangeEnd =
      inBounds (boundsFor key rangeEnd).1 (boundsFor key rangeEnd).2 k := by
  unfold inRange boundsFor
  split
  · rw [Bool.eq_iff_iff]
    simp [inBounds, ← le_and_lt_succ_iff]
  · split <;> simp [inBounds]

theorem covers_eq_inBounds (p : StoredPermission) (k : Bytes) :
    p.covers k = inBounds (boundsFor p.key p.rangeEnd).1 (boundsFor p.key p.rangeEnd).2 k := by
  rw [← inRange_eq_inBounds]
  rfl

theorem boundsFor_fst (key rangeEnd : Bytes) : (boundsFor key rangeEnd).1 = .included key := by
  unfold boundsFor
  split
  · rfl
  · split <;> rfl

/-- A permission that covers a range covers every key of it. -/
theorem permCovers_sound {p : StoredPermission} {required : RequiredPerm} {key rangeEnd k : Bytes}
    (covers : permCovers p required key rangeEnd = true) (mem : inRange k key rangeEnd = true) :
    PermType.allows p.permType required = true ∧ p.covers k = true := by
  rw [inRange_eq_inBounds] at mem
  rw [covers_eq_inBounds]
  unfold permCovers at covers
  split at covers
  · cases covers
  · next allowed =>
    refine ⟨by simpa using allowed, ?_⟩
    simp only [boundsFor_fst] at covers mem ⊢
    generalize (boundsFor key rangeEnd).2 = reqHi at covers mem
    generalize (boundsFor p.key p.rangeEnd).2 = permHi at covers ⊢
    cases permHi <;> cases reqHi <;>
      simp only [inBounds, Bool.and_eq_true, decide_eq_true_eq, Bool.and_true, Bool.and_false,
        Bool.false_eq_true] at covers mem ⊢
    case excluded.excluded =>
      exact ⟨List.le_trans covers.1 mem.1, List.not_le.mp fun late =>
        absurd (List.le_trans covers.2 late) (List.not_le.mpr mem.2)⟩
    case unbounded.unbounded => exact List.le_trans covers mem
    case unbounded.included | unbounded.excluded => exact List.le_trans covers mem.1

/-- One of the user's permissions allows this on the key. -/
def Permitted (t : Tables) (user : String) (perm : RequiredPerm) (k : Bytes) : Prop :=
  ∃ u role r, getUser t user = .ok (some u) ∧ role ∈ u.roles ∧ getRole t role = .ok (some r) ∧
    ∃ p ∈ r.permissions, PermType.allows p.permType perm = true ∧ p.covers k = true

/-- Neither the root user nor one with the root role. -/
def NotRoot (t : Tables) (user : String) : Prop :=
  user ≠ "root" ∧ ∀ u, getUser t user = .ok (some u) → "root" ∉ u.roles

/-- Every access reaches only keys `may` allows it. -/
def Within (may : RequiredPerm → Bytes → Prop) (accesses : List Access) : Prop :=
  ∀ a ∈ accesses, ∀ k, inRange k a.key a.rangeEnd = true → may a.perm k

theorem readRow_eq_ok {α : Type} {row : Except MvccError α} {a : α} (ok : readRow row = .ok a) :
    row = .ok a := by
  cases row with
  | ok b => cases ok; rfl
  | error e => cases ok

theorem mem_rolePermissions {t : Tables} {roles : List String} {perms : List StoredPermission}
    (read : rolePermissions t roles = .ok perms) {p : StoredPermission} (mem : p ∈ perms) :
    ∃ role ∈ roles, ∃ r, getRole t role = .ok (some r) ∧ p ∈ r.permissions := by
  induction roles generalizing perms with
  | nil =>
    cases read
    cases mem
  | cons role roles ih =>
    simp only [rolePermissions, bind, Except.bind] at read
    split at read
    · cases read
    · next found =>
      split at read
      · obtain ⟨role', mem', rest⟩ := ih read mem
        exact ⟨role', List.mem_cons_of_mem _ mem', rest⟩
      · next r =>
        split at read
        · cases read
        · next rest_eq =>
          cases read
          obtain here | later := List.mem_append.mp mem
          · exact ⟨role, List.mem_cons_self, r, readRow_eq_ok found, here⟩
          · obtain ⟨role', mem', rest⟩ := ih rest_eq later
            exact ⟨role', List.mem_cons_of_mem _ mem', rest⟩

/-- Accesses that pass the check stay within the user's permissions. -/
theorem permitted_of_authorizeAll {t : Tables} {user : String} {accesses : List Access}
    (accepted : authorizeAll t true (some user) accesses = .ok ()) (notRoot : NotRoot t user) :
    Within (Permitted t user) accesses := by
  intro a mem k reached
  have some_ : accesses.isEmpty = false := by
    cases accesses with
    | nil => cases mem
    | cons => rfl
  simp only [authorizeAll, Bool.not_true, some_, Bool.or_false, Bool.false_eq_true, if_false,
    notRoot.1, bind, Except.bind] at accepted
  split at accepted
  · cases accepted
  · next found =>
    split at accepted
    · cases accepted
    · next u =>
      have found := readRow_eq_ok found
      rw [if_neg (by simpa using notRoot.2 u found)] at accepted
      split at accepted
      · cases accepted
      · next perms read =>
        split at accepted
        · next covered =>
          have covered := List.all_eq_true.mp covered a mem
          obtain ⟨p, held, covers⟩ := List.any_eq_true.mp covered
          obtain ⟨role, has, r, role_found, mem⟩ := mem_rolePermissions read held
          exact ⟨u, role, r, found, has, role_found, p, mem, permCovers_sound covers reached⟩
        · cases accepted

theorem Within.append {may : RequiredPerm → Bytes → Prop} {a b : List Access} :
    Within may (a ++ b) ↔ Within may a ∧ Within may b := by
  simp only [Within, List.mem_append, or_imp, forall_and]

/-! ## Operations within permissions -/

section Operations

variable (may : RequiredPerm → Bytes → Prop)

def comparesWithin (compares : List Compare) : Prop :=
  ∀ c ∈ compares, ∀ k, inRange k c.key c.rangeEnd = true → may .read k

def mutationWithin : Mutation → Prop
  | .put key _ _ _ _ prevKv => may .write key ∧ (prevKv = true → may .read key)
  | .deleteRange key rangeEnd prevKv => ∀ k, inRange k key rangeEnd = true →
    may .write k ∧ (prevKv = true → may .read k)

mutual

def opWithin : TxnOp → Prop
  | .range r => ∀ k, inRange k r.key r.rangeEnd = true → may .read k
  | .mutation m => mutationWithin may m
  | .txn compares success failure =>
    comparesWithin may compares ∧ opsWithin success ∧ opsWithin failure

def opsWithin : List TxnOp → Prop
  | [] => True
  | op :: ops => opWithin op ∧ opsWithin ops

end

end Operations

section Conversion

variable {may : RequiredPerm → Bytes → Prop}

theorem inRange_self (k : Bytes) : inRange k k [] = true := by simp [inRange]

theorem mutationWithin_put {p : PutRequest} (within : Within may (putAccesses p)) :
    mutationWithin may (putRequestToMutation p) := by
  refine ⟨within _ List.mem_cons_self _ (inRange_self _), fun prev => ?_⟩
  refine within ⟨.read, p.key, []⟩ (List.mem_cons_of_mem _ ?_) _ (inRange_self _)
  rw [if_pos prev]
  exact List.mem_cons_self

theorem mutationWithin_delete {d : DeleteRangeRequest} (within : Within may (deleteAccesses d)) :
    mutationWithin may (deleteRequestToMutation d) := by
  intro k reached
  refine ⟨within _ List.mem_cons_self k reached, fun prev => ?_⟩
  refine within ⟨.read, d.key, d.rangeEnd⟩ (List.mem_cons_of_mem _ ?_) k reached
  rw [if_pos prev]
  exact List.mem_cons_self

theorem compare_of_fromProto {c : CompareRequest} {cmp : Compare}
    (converted : compareFromProto c = some cmp) : cmp.key = c.key ∧ cmp.rangeEnd = c.rangeEnd := by
  simp only [compareFromProto, Option.bind_eq_bind, Option.bind_eq_some_iff] at converted
  obtain ⟨op, -, target, -, rest⟩ := converted
  split at rest <;> cases rest
  exact ⟨rfl, rfl⟩

theorem comparesWithin_fromProto {compare : List CompareRequest} {compares : List Compare}
    (converted : compare.mapM compareFromProto = some compares)
    (within : Within may (compareAccesses compare)) : comparesWithin may compares := by
  induction compare generalizing compares with
  | nil =>
    cases converted
    intro cmp mem
    cases mem
  | cons c compare ih =>
    simp only [List.mapM_cons, Option.bind_eq_bind, Option.bind_eq_some_iff] at converted
    obtain ⟨first, first_eq, rest, rest_eq, ⟨⟩⟩ := converted
    obtain ⟨key, rangeEnd⟩ := compare_of_fromProto first_eq
    intro cmp mem k reached
    obtain rfl | later := List.mem_cons.mp mem
    · rw [key, rangeEnd] at reached
      exact within _ List.mem_cons_self k reached
    · exact ih rest_eq (fun a mem => within a (List.mem_cons_of_mem _ mem)) cmp later k reached

mutual

theorem opWithin_fromProto {op : RequestOp} {converted : TxnOp}
    (eq : requestOpFromProto op = some converted) (within : Within may (opAccesses op)) :
    opWithin may converted := by
  cases op with
  | missing => cases eq
  | range r =>
    cases eq
    exact within _ List.mem_cons_self
  | put p =>
    cases eq
    exact mutationWithin_put within
  | deleteRange d =>
    cases eq
    exact mutationWithin_delete within
  | txn compare success failure =>
    simp only [requestOpFromProto, Option.bind_eq_bind, Option.bind_eq_some_iff] at eq
    obtain ⟨compares, compares_eq, success', success_eq, failure', failure_eq, ⟨⟩⟩ := eq
    obtain ⟨within, failureWithin⟩ := Within.append.mp within
    obtain ⟨compareWithin, successWithin⟩ := Within.append.mp within
    exact ⟨comparesWithin_fromProto compares_eq compareWithin,
      opsWithin_fromProto success_eq successWithin, opsWithin_fromProto failure_eq failureWithin⟩

theorem opsWithin_fromProto {ops : List RequestOp} {converted : List TxnOp}
    (eq : requestOpsFromProto ops = some converted) (within : Within may (opsAccesses ops)) :
    opsWithin may converted := by
  cases ops with
  | nil =>
    cases eq
    trivial
  | cons op ops =>
    simp only [requestOpsFromProto, Option.bind_eq_bind, Option.bind_eq_some_iff] at eq
    obtain ⟨op', op_eq, ops', ops_eq, ⟨⟩⟩ := eq
    obtain ⟨opWithin, opsWithin⟩ := Within.append.mp within
    exact ⟨opWithin_fromProto op_eq opWithin, opsWithin_fromProto ops_eq opsWithin⟩

end

end Conversion

/-! ## What the interpreter returns and writes -/

section Interpreter

open Reference Std

variable {may : RequiredPerm → Bytes → Prop} {env : Env}

/-- Every record stands under its own key. -/
def Keyed (records : Table Bytes KvRecord) : Prop :=
  ∀ (k : Bytes) (r : KvRecord), records[k]? = some r → r.key = k

/-- Every live row's record has its key. -/
def KeyedCells (cells : Cells) : Prop :=
  ∀ (k : Bytes) (row : Row), liveRow cells k = some row → row.record.key = k

theorem KeyedCells.write {cells : Cells} (keyed : KeyedCells cells) (w : Write) :
    KeyedCells (Reference.write cells w) := by
  intro k row found
  rw [Reference.liveRow_write] at found
  split at found
  · next same =>
    split at found
    · cases found
      exact same
    · cases found
  · exact keyed k row found

theorem KeyedCells.writes {cells : Cells} (keyed : KeyedCells cells) (ws : List Write) :
    KeyedCells (ws.foldl Reference.write cells) := by
  induction ws generalizing cells with
  | nil => exact keyed
  | cons w ws ih => exact ih (keyed.write w)

theorem KeyedCells.records {cells : Cells} (keyed : KeyedCells cells) :
    Keyed ((liveRows cells).map fun _ row => row.record) := by
  intro k r found
  rw [ExtTreeMap.getElem?_map, getElem?_liveRows] at found
  obtain ⟨row, isLive, rfl⟩ := Option.map_eq_some_iff.mp found
  exact keyed k row isLive

@[simp]
theorem key_trim (r : KvRecord) (keysOnly : Bool) : (trim r keysOnly).key = r.key := by
  unfold trim
  split <;> rfl

/-- A Range answers with records of its own range. -/
theorem inRange_of_mem_answer {records : Table Bytes KvRecord} (keyed : Keyed records) {r : RangeOp}
    {kv : KvRecord} (mem : kv ∈ (answer records r).kvs) : inRange kv.key r.key r.rangeEnd = true := by
  simp only [answer] at mem
  split at mem
  · cases mem
  · obtain ⟨⟨k, found⟩, kept, rfl⟩ := List.mem_map.mp mem
    have kept : (k, found) ∈ records.scan (inRange · r.key r.rangeEnd) := by
      split at kept
      · exact List.mem_of_mem_take kept
      · exact kept
    obtain ⟨there, reached⟩ := Table.mem_scan.mp kept
    rw [key_trim, keyed k found there]
    exact reached

/-- A mutation returns readable records only, and writes writable keys only. -/
theorem mutate_within {cells : Cells} {rev : Revision} {m : Mutation} {result : MutationResult}
    {ws : List Write} (ran : mutate cells rev m = .ok (result, ws)) (within : mutationWithin may m)
    (keyed : KeyedCells cells) :
    (∀ r ∈ result.prevKvs, may .read r.key) ∧ ∀ w ∈ ws, may .write w.event.kv.key := by
  cases m with
  | put key value lease ignoreValue ignoreLease prevKv =>
    simp only [mutate] at ran
    split at ran
    · cases ran
    · obtain ⟨rfl, rfl⟩ := Prod.mk.inj (Except.ok.inj ran)
      constructor
      · intro r mem
        simp only at mem
        split at mem
        · next prev =>
          obtain ⟨row, found, rfl⟩ := Option.map_eq_some_iff.mp (Option.mem_toList.mp mem)
          rw [keyed key row found]
          exact within.2 prev
        · cases mem
      · intro w mem
        rw [List.mem_singleton.mp mem]
        exact within.1
  | deleteRange key rangeEnd prevKv =>
    obtain ⟨rfl, rfl⟩ := Prod.mk.inj (Except.ok.inj ran)
    constructor
    · intro r mem
      simp only at mem
      split at mem
      · next prev =>
        obtain ⟨⟨k, row⟩, gone, rfl⟩ := List.mem_map.mp mem
        obtain ⟨found, reached⟩ := Table.mem_scan.mp gone
        rw [getElem?_liveRows] at found
        rw [keyed k row found]
        exact (within k reached).2 prev
      · cases mem
    · intro w mem
      obtain ⟨⟨k, row⟩, gone, rfl⟩ := List.mem_map.mp mem
      exact (within k (Table.mem_scan.mp gone).2).1

mutual

/-- The records an op's result holds. -/
def opRecords : TxnOpResult → List KvRecord
  | .range r => r.kvs
  | .mutation r => r.prevKvs
  | .txn _ results => opsRecords results

def opsRecords : List TxnOpResult → List KvRecord
  | [] => []
  | result :: results => opRecords result ++ opsRecords results

end

/-- Where a txn within permissions is: its cells are keyed, and all it wrote is writable. -/
structure ExecWithin (may : RequiredPerm → Bytes → Prop) (exec : Exec) : Prop where
  keyed : KeyedCells exec.cells
  written : ∀ w ∈ exec.writes, may .write w.event.kv.key

mutual

/-- An op within permissions returns readable records only. -/
theorem txnOp_within (past : ∀ main, Keyed (env.past main)) (op : TxnOp) {exec exec' : Exec}
    {result : TxnOpResult} (ran : txnOp env op exec = .ok (result, exec'))
    (within : opWithin may op) (here : ExecWithin may exec) :
    ExecWithin may exec' ∧ ∀ r ∈ opRecords result, may .read r.key := by
  match op with
  | .range r =>
    simp only [txnOp, Reference.range, bind, Except.bind, pure, Except.pure] at ran
    split at ran
    · cases ran
    · next res answered =>
      obtain ⟨rfl, rfl⟩ := Prod.mk.inj (Except.ok.inj ran)
      refine ⟨here, fun kv mem => within kv.key ?_⟩
      split at answered
      · cases answered
      · cases answered
        refine inRange_of_mem_answer ?_ mem
        split
        · exact here.keyed.records
        · exact past _
  | .mutation m =>
    simp only [txnOp, bind, Except.bind] at ran
    split at ran
    · cases ran
    · next out mutated =>
      obtain ⟨res, ws⟩ := out
      obtain ⟨rfl, rfl⟩ := Prod.mk.inj (Except.ok.inj ran)
      obtain ⟨returned, written⟩ := mutate_within mutated within here.keyed
      refine ⟨⟨here.keyed.writes ws, fun w mem => ?_⟩, returned⟩
      obtain before | now := List.mem_append.mp mem
      · exact here.written w before
      · exact written w now
  | .txn compares success failure =>
    simp only [txnOp, bind, Except.bind] at ran
    cases succeeded : compares.all (holds env.before) with
    | true =>
      simp only [succeeded, if_true] at ran
      split at ran
      · cases ran
      · next out chosen =>
        obtain ⟨rfl, rfl⟩ := Prod.mk.inj (Except.ok.inj ran)
        exact txnOps_within past success chosen within.2.1 here
    | false =>
      simp only [succeeded, Bool.false_eq_true, if_false] at ran
      split at ran
      · cases ran
      · next out chosen =>
        obtain ⟨rfl, rfl⟩ := Prod.mk.inj (Except.ok.inj ran)
        exact txnOps_within past failure chosen within.2.2 here

theorem txnOps_within (past : ∀ main, Keyed (env.past main)) (ops : List TxnOp)
    {exec exec' : Exec} {results : List TxnOpResult}
    (ran : txnOps env ops exec = .ok (results, exec')) (within : opsWithin may ops)
    (here : ExecWithin may exec) :
    ExecWithin may exec' ∧ ∀ r ∈ opsRecords results, may .read r.key := by
  match ops with
  | [] =>
    obtain ⟨rfl, rfl⟩ := Prod.mk.inj (Except.ok.inj ran)
    exact ⟨here, fun r mem => nomatch mem⟩
  | op :: ops =>
    simp only [txnOps, bind, Except.bind] at ran
    split at ran
    · cases ran
    · next out first =>
      obtain ⟨result, next⟩ := out
      simp only at ran
      split at ran
      · cases ran
      · next out rest =>
        obtain ⟨results', last⟩ := out
        obtain ⟨rfl, rfl⟩ := Prod.mk.inj (Except.ok.inj ran)
        obtain ⟨there, returned⟩ := txnOp_within past op first within.1 here
        obtain ⟨after, rest⟩ := txnOps_within past ops rest within.2 there
        refine ⟨after, fun r mem => ?_⟩
        obtain now | later := List.mem_append.mp mem
        · exact returned r now
        · exact rest r later

end

end Interpreter

/-! ## Responses -/

mutual

/-- The records a response holds. -/
def Response.records : Response → List KvRecord
  | .range kvs _ _ => kvs
  | .put prevKv => prevKv.toList
  | .deleteRange _ prevKvs => prevKvs
  | .txn _ responses => responsesRecords responses

def responsesRecords : List Response → List KvRecord
  | [] => []
  | response :: responses => response.records ++ responsesRecords responses

end

@[simp]
theorem mem_sorted {req : RangeRequest} {kvs : List KvRecord} {kv : KvRecord} :
    kv ∈ sorted req kvs ↔ kv ∈ kvs := by
  unfold sorted
  split
  · rfl
  · exact List.mem_insertionSort _
  · exact List.mem_insertionSort _

/-- The options add no record. -/
theorem mem_of_mem_rangeResponse {req : RangeRequest} {result : RangeResult} {kv : KvRecord}
    (mem : kv ∈ (rangeResponse req result).records) : kv ∈ result.kvs := by
  simp only [rangeResponse, Response.records] at mem
  split at mem
  · cases mem
  · unfold applyOptions at mem
    split at mem
    · exact mem
    · simp only at mem
      have mem : kv ∈ sorted req (result.kvs.filter (keep req)) := by
        split at mem
        · exact List.mem_of_mem_take mem
        · exact mem
      exact List.mem_of_mem_filter (mem_sorted.mp mem)

theorem mem_of_mem_head? {m : MutationResult} {kv : KvRecord}
    (mem : kv ∈ (Response.put m.prevKvs.head?).records) : kv ∈ m.prevKvs :=
  List.mem_of_mem_head? (Option.mem_toList.mp mem)

mutual

/-- A response holds records of its result only. -/
theorem mem_opRecords {op : RequestOp} {result : TxnOpResult} {response : Response}
    (built : opResponse op result = some response) {kv : KvRecord} (mem : kv ∈ response.records) :
    kv ∈ opRecords result := by
  match op, result, built with
  | .range r, .range res, built =>
    cases built
    exact mem_of_mem_rangeResponse mem
  | .put _, .mutation m, built =>
    cases built
    exact mem_of_mem_head? mem
  | .deleteRange _, .mutation m, built =>
    cases built
    exact mem
  | .txn _ success failure, .txn succeeded results, built =>
    simp only [opResponse, Option.bind_eq_bind] at built
    split at built
    · obtain ⟨responses, branch, ⟨⟩⟩ := Option.bind_eq_some_iff.mp built
      exact mem_opsRecords branch mem
    · obtain ⟨responses, branch, ⟨⟩⟩ := Option.bind_eq_some_iff.mp built
      exact mem_opsRecords branch mem

theorem mem_opsRecords {ops : List RequestOp} {results : List TxnOpResult}
    {responses : List Response} (built : txnResponses ops results = some responses) {kv : KvRecord}
    (mem : kv ∈ responsesRecords responses) : kv ∈ opsRecords results := by
  match ops, results, built with
  | [], [], built =>
    cases built
    cases mem
  | op :: ops, result :: results, built =>
    simp only [txnResponses, Option.bind_eq_bind, Option.bind_eq_some_iff] at built
    obtain ⟨response, first, responses, rest, ⟨⟩⟩ := built
    obtain now | later := List.mem_append.mp mem
    · exact List.mem_append_left _ (mem_opRecords first now)
    · exact List.mem_append_right _ (mem_opsRecords rest later)

end

/-! ## On the store -/

section OnTheStore

open Reference Content Std

variable {may : RequiredPerm → Bytes → Prop} {s : Store} {engineOk : Bool}

/-- The two stores hold the same of a key: its generations and its records. -/
def SameAt (s t : Store) (k : Bytes) : Prop :=
  t.index[k]? = s.index[k]? ∧ ∀ rev, t.engine.kv[KvKey.mk k rev]? = s.engine.kv[KvKey.mk k rev]?

theorem keyed_readAt (inv : s.Inv) (t : Revision) : Keyed (s.content.readAt t) := by
  intro k r found
  rw [getElem?_readAt] at found
  obtain ⟨rev, -, stored⟩ := Option.bind_eq_some_iff.mp found
  exact (inv.content.record stored).1

theorem keyedCells_before (inv : s.Inv) : KeyedCells s.env.before := fun _ _ found =>
  (inv.content.key_of_liveRow found).1

/-- Writes of other keys leave a key as it was. -/
theorem writes_elsewhere {C : Content} {ws : List Write} {k : Bytes}
    (elsewhere : ∀ w ∈ ws, w.event.kv.key ≠ k) :
    (C.writes ws).index[k]? = C.index[k]? ∧
      ∀ rev, (C.writes ws).kv[KvKey.mk k rev]? = C.kv[KvKey.mk k rev]? := by
  induction ws generalizing C with
  | nil => exact ⟨rfl, fun _ => rfl⟩
  | cons w ws ih =>
    have here := elsewhere w List.mem_cons_self
    obtain ⟨index, kv⟩ := ih (C := C.write w) fun w mem => elsewhere w (List.mem_cons_of_mem _ mem)
    rw [writes_cons]
    refine ⟨index.trans ?_, fun rev => (kv rev).trans ?_⟩
    · simp [Content.write, ExtTreeMap.getElem?_insert, here]
    · rw [getElem?_kv_write, if_neg fun same => here same.1]

/-- A request whose writes are all writable leaves the other keys as they were. -/
theorem sameAt_of_served {α : Type} {reference : Except MvccError (α × List Write)}
    {served : Except MvccError α × Store} (h : Served s engineOk reference served) (inv : s.Inv)
    (written : ∀ a ws, reference = .ok (a, ws) → ∀ w ∈ ws, may .write w.event.kv.key) {k : Bytes}
    (no : ¬ may .write k) : SameAt s served.2 k := by
  cases h with
  | refused | idle | failed => exact ⟨rfl, fun _ => rfl⟩
  | @wrote a ws ctx ok some recorded revs =>
    have content := (committed_recorded inv some recorded).1
    have elsewhere : ∀ w ∈ ws, w.event.kv.key ≠ k := by
      rintro w mem rfl
      exact no (written a ws rfl w mem)
    obtain ⟨index, kv⟩ := writes_elsewhere (C := s.content) elsewhere
    rw [← content] at index kv
    exact ⟨index, kv⟩

/-- An answer is the interpreter's. -/
theorem answer_of_served {α : Type} {reference : Except MvccError (α × List Write)}
    {served : Except MvccError α × Store} (h : Served s engineOk reference served) (a : α)
    (ok : served.1 = .ok a) : ∃ ws, reference = .ok (a, ws) := by
  cases h with
  | refused | failed => cases ok
  | idle => cases ok; exact ⟨_, rfl⟩
  | wrote => cases ok; exact ⟨_, rfl⟩

/-- A request served within permissions. -/
structure ServedWithin (may : RequiredPerm → Bytes → Prop) (s : Store)
    (served : Except Status (Int × Response) × Store) : Prop where
  returned : ∀ revision response, served.1 = .ok (revision, response) →
    ∀ r ∈ response.records, may .read r.key
  kept : ∀ k, ¬ may .write k → SameAt s served.2 k

theorem apply_one {env : Env} {m : Mutation} {answer : Int × List MutationResult} {ws : List Write}
    (ran : Reference.apply env [m] = .ok (answer, ws)) :
    ∃ result, answer.2 = [result] ∧
      mutate env.before ⟨env.main, (0 : Nat)⟩ m = .ok (result, ws) := by
  simp only [Reference.apply, List.isEmpty_cons, Bool.false_eq_true, if_false, mutations, bind,
    Except.bind, pure, Except.pure, List.append_nil] at ran
  cases mutated : mutate env.before ⟨env.main, (0 : Nat)⟩ m with
  | error e =>
    rw [mutated] at ran
    cases ran
  | ok out =>
    rw [mutated] at ran
    cases ran
    exact ⟨out.1, rfl, rfl⟩

theorem serveMutation_within (inv : s.Inv) {m : Mutation} (within : mutationWithin may m)
    {response : MutationResult → Response}
    (held : ∀ result, ∀ kv ∈ (response result).records, kv ∈ result.prevKvs) :
    ServedWithin may s (serveMutation s engineOk m response) := by
  have served := apply_served inv [m] engineOk
  have kept : ∀ k, ¬ may .write k → SameAt s (s.apply [m] engineOk).2 k := fun k no =>
    sameAt_of_served served inv (fun a ws ran => by
      obtain ⟨result, -, mutated⟩ := apply_one ran
      exact (mutate_within mutated within (keyedCells_before inv)).2) no
  have answered := answer_of_served served
  unfold serveMutation
  generalize s.apply [m] engineOk = out at kept answered
  obtain ⟨e | ⟨rev, results⟩, t⟩ := out
  · exact ⟨fun _ _ ok => (nomatch ok), kept⟩
  · obtain ⟨ws, ran⟩ := answered _ rfl
    obtain ⟨result, rfl, mutated⟩ := apply_one ran
    refine ⟨?_, kept⟩
    rintro _ _ ⟨⟩ kv mem
    exact (mutate_within mutated within (keyedCells_before inv)).1 kv (held result kv mem)

theorem serve_range_within (inv : s.Inv) {r : RangeRequest}
    (within : ∀ k, inRange k r.key r.rangeEnd = true → may .read k) :
    ServedWithin may s ((Request.range r).serve s engineOk) := by
  simp only [Request.serve]
  obtain ⟨e, -, refused⟩ | ⟨main, values, -, answered, -⟩ :=
    rangeWithRevision_spec inv (rangeRequestToOp r)
  · rw [refused]
    exact ⟨fun _ _ ok => (nomatch ok), fun _ _ => ⟨rfl, fun _ => rfl⟩⟩
  · rw [answered]
    refine ⟨?_, fun _ _ => ⟨rfl, fun _ => rfl⟩⟩
    rintro _ _ ⟨⟩ kv mem
    exact within kv.key
      (inRange_of_mem_answer (keyed_readAt inv _) (mem_of_mem_rangeResponse mem))

theorem txn_within (inv : s.Inv) {compares : List Compare} {success failure : List TxnOp}
    (successWithin : opsWithin may success) (failureWithin : opsWithin may failure)
    {result : TxnResult} {ws : List Write}
    (ran : Reference.txn s.env compares success failure = .ok (result, ws)) :
    (∀ r ∈ opsRecords result.opResults, may .read r.key) ∧
      ∀ w ∈ ws, may .write w.event.kv.key := by
  simp only [Reference.txn, bind, Except.bind, pure, Except.pure] at ran
  split at ran
  · cases ran
  · next out chosen =>
    obtain ⟨results, exec⟩ := out
    cases ran
    have within : opsWithin may
        (if compares.all (holds s.env.before) then success else failure) := by
      split
      · exact successWithin
      · exact failureWithin
    have start : ExecWithin may (Exec.start s.env.before) :=
      ⟨keyedCells_before inv, fun w mem => absurd mem List.not_mem_nil⟩
    obtain ⟨there, returned⟩ := txnOps_within (fun main => keyed_readAt inv _) _ chosen within start
    exact ⟨returned, there.written⟩

theorem serve_txn_within (inv : s.Inv) {t : TxnRequest} (within : Within may (txnAccesses t)) :
    ServedWithin may s ((Request.txn t).serve s engineOk) := by
  simp only [Request.serve]
  split
  · exact ⟨fun _ _ ok => (nomatch ok), fun _ _ => ⟨rfl, fun _ => rfl⟩⟩
  · next compares success failure parts =>
    simp only [txnRequestParts, Option.bind_eq_bind, Option.bind_eq_some_iff] at parts
    obtain ⟨compares', -, success', success_eq, failure', failure_eq, ⟨⟩⟩ := parts
    obtain ⟨within, failureWithin⟩ := Within.append.mp within
    obtain ⟨-, successWithin⟩ := Within.append.mp within
    have successWithin := opsWithin_fromProto success_eq successWithin
    have failureWithin := opsWithin_fromProto failure_eq failureWithin
    have served := txn_served inv compares success failure engineOk
    have kept : ∀ k, ¬ may .write k → SameAt s (s.txn compares success failure engineOk).2 k :=
      fun k no => sameAt_of_served served inv
        (fun _ _ ran => (txn_within inv successWithin failureWithin ran).2) no
    have answered := answer_of_served served
    generalize s.txn compares success failure engineOk = out at kept answered
    obtain ⟨e | result, after⟩ := out
    · exact ⟨fun _ _ ok => (nomatch ok), kept⟩
    · obtain ⟨ws, ran⟩ := answered _ rfl
      refine ⟨fun _ response ok kv mem => ?_, kept⟩
      simp only [txnResponse] at ok
      split at ok
      · cases ok
      · next responses built =>
        cases ok
        exact (txn_within inv successWithin failureWithin ran).1 kv (mem_opsRecords built mem)

/-- A request whose accesses are within permissions is served within them. -/
theorem serve_within (inv : s.Inv) {req : Request} (within : Within may req.accesses)
    (engineOk : Bool) : ServedWithin may s (req.serve s engineOk) := by
  cases req with
  | range r => exact serve_range_within inv (within _ List.mem_cons_self)
  | put p => exact serveMutation_within inv (mutationWithin_put within) fun _ _ => mem_of_mem_head?
  | deleteRange d =>
    exact serveMutation_within inv (mutationWithin_delete within) fun _ _ mem => mem
  | txn t => exact serve_txn_within inv within

end OnTheStore

/-! ## Compares -/

mutual

/-- The compares of an op, in whichever branch. -/
def opTests : RequestOp → List CompareRequest
  | .txn compare success failure => compare ++ opsTests success ++ opsTests failure
  | .missing | .range _ | .put _ | .deleteRange _ => []

def opsTests : List RequestOp → List CompareRequest
  | [] => []
  | op :: ops => opTests op ++ opsTests ops

end

/-- Everything a request can test. -/
def Request.tests : Request → List CompareRequest
  | .txn t => t.compare ++ opsTests t.success ++ opsTests t.failure
  | .range _ | .put _ | .deleteRange _ => []

section Compares

open Reference Content Std

variable {may : RequiredPerm → Bytes → Prop}

/-- A compare's keys are readable. -/
def TestWithin (may : RequiredPerm → Bytes → Prop) (c : CompareRequest) : Prop :=
  ∀ k, inRange k c.key c.rangeEnd = true → may .read k

theorem testWithin_of_compares {compare : List CompareRequest}
    (within : Within may (compareAccesses compare)) : ∀ c ∈ compare, TestWithin may c :=
  fun c mem => within ⟨.read, c.key, c.rangeEnd⟩ (List.mem_map_of_mem mem)

mutual

theorem testWithin_of_op {op : RequestOp} (within : Within may (opAccesses op)) :
    ∀ c ∈ opTests op, TestWithin may c := by
  intro c mem
  cases op with
  | missing | range | put | deleteRange => cases mem
  | txn compare success failure =>
    obtain ⟨within, failureWithin⟩ := Within.append.mp within
    obtain ⟨compareWithin, successWithin⟩ := Within.append.mp within
    simp only [opTests, List.mem_append] at mem
    obtain (mem | mem) | mem := mem
    · exact testWithin_of_compares compareWithin c mem
    · exact testWithin_of_ops successWithin c mem
    · exact testWithin_of_ops failureWithin c mem

theorem testWithin_of_ops {ops : List RequestOp} (within : Within may (opsAccesses ops)) :
    ∀ c ∈ opsTests ops, TestWithin may c := by
  intro c mem
  cases ops with
  | nil => cases mem
  | cons op ops =>
    obtain ⟨opWithin, opsWithin⟩ := Within.append.mp within
    obtain mem | mem := List.mem_append.mp mem
    · exact testWithin_of_op opWithin c mem
    · exact testWithin_of_ops opsWithin c mem

end

theorem testWithin_of_request {req : Request} (within : Within may req.accesses) :
    ∀ c ∈ req.tests, TestWithin may c := by
  intro c mem
  cases req with
  | range | put | deleteRange => cases mem
  | txn t =>
    have nested : ∀ c ∈ opTests (.txn t.compare t.success t.failure), TestWithin may c :=
      testWithin_of_op within
    exact nested c mem

/-- A compare looks at the cells of its range. -/
theorem holds_congr {cells cells' : Cells} {cmp : Compare}
    (same : ∀ k, inRange k cmp.key cmp.rangeEnd = true → cells'[k]? = cells[k]?) :
    holds cells' cmp = holds cells cmp := by
  unfold holds
  split
  · next single =>
    have single : cmp.rangeEnd = [] := List.isEmpty_iff.mp single
    have here := same cmp.key (by rw [single]; exact inRange_self _)
    simp only [liveRow, here]
  · have scans : cells'.scan (inRange · cmp.key cmp.rangeEnd) =
        cells.scan (inRange · cmp.key cmp.rangeEnd) := by
      refine Table.eq_scan_of_ascending (Table.scan_ascending _ _) fun k v => ?_
      rw [Table.mem_scan]
      constructor
      · rintro ⟨found, reached⟩
        exact ⟨same k reached ▸ found, reached⟩
      · rintro ⟨found, reached⟩
        exact ⟨(same k reached).trans found, reached⟩
    rw [scans]

theorem SameAt.cell {s t : Store} {k : Bytes} (same : SameAt s t k) :
    t.content.cells[k]? = s.content.cells[k]? := by
  obtain ⟨index, kv⟩ := same
  have index : t.content.index[k]? = s.content.index[k]? := index
  have kv : ∀ rev, t.content.kv[KvKey.mk k rev]? = s.content.kv[KvKey.mk k rev]? := kv
  have cell : t.content.cell k = s.content.cell k := by
    funext gens
    simp only [Content.cell, kv]
  rw [cells, cells, ExtTreeMap.getElem?_map, ExtTreeMap.getElem?_map, index, cell]

theorem evaluateCompares_one {s : Store} (inv : s.Inv) (cmp : Compare) :
    s.evaluateCompares s.engine {} [cmp] = .ok (holds s.content.cells cmp) := by
  have start := inv.txnStart
  rw [evaluateCompares_eq start.coherent start.inv start.cache, overlay_empty]
  simp

/-- A compare of readable keys has one verdict on stores that agree on the readable keys. -/
theorem compare_within {s t : Store} (inv : s.Inv) (invT : t.Inv)
    (same : ∀ k, may .read k → SameAt s t k) {c : CompareRequest} (within : TestWithin may c)
    {cmp : Compare} (converted : compareFromProto c = some cmp) :
    t.evaluateCompares t.engine {} [cmp] = s.evaluateCompares s.engine {} [cmp] := by
  obtain ⟨key, rangeEnd⟩ := compare_of_fromProto converted
  rw [evaluateCompares_one inv, evaluateCompares_one invT, holds_congr]
  intro k reached
  rw [key, rangeEnd] at reached
  exact (same k (within k reached)).cell

end Compares

/-! ## Authorized requests -/

theorem within_of_authorize {t : Tables} {user : String} {req : Request}
    (accepted : req.authorize t true (some user) = .ok ()) (notRoot : NotRoot t user) :
    Within (Permitted t user) req.accesses := by
  simp only [Request.authorize, if_true, bind, Except.bind] at accepted
  split at accepted
  · cases accepted
  · exact (Within.append.mp (permitted_of_authorizeAll accepted notRoot)).1

/-- A request that passes the check on some tables, on whichever store it is then served: every
record it returns is of a key the user may read, a key the user may not write is left as it was, and
stores that hold the same of the readable keys give every compare in it the same verdict. -/
theorem authorized_within {t : Tables} {user : String} {req : Request}
    (accepted : req.authorize t true (some user) = .ok ()) (notRoot : NotRoot t user) {s : Store}
    (reachable : Reachable s) (engineOk : Bool) :
    (∀ revision response, (req.serve s engineOk).1 = .ok (revision, response) →
      ∀ r ∈ response.records, Permitted t user .read r.key) ∧
    (∀ k, ¬ Permitted t user .write k → SameAt s (req.serve s engineOk).2 k) ∧
    ∀ s', Reachable s' → (∀ k, Permitted t user .read k → SameAt s s' k) →
      ∀ c ∈ req.tests, ∀ cmp, compareFromProto c = some cmp →
        s'.evaluateCompares s'.engine {} [cmp] = s.evaluateCompares s.engine {} [cmp] := by
  have within := within_of_authorize accepted notRoot
  have served := serve_within reachable.inv within engineOk
  refine ⟨served.returned, served.kept, fun s' reached same c mem cmp converted => ?_⟩
  exact compare_within reachable.inv reached.inv same (testWithin_of_request within c mem) converted

/-- One user, whose role reads and writes the keys from `a` up to `b`. -/
def aliceTables : Tables :=
  Tables.empty.commit [putUser ⟨"alice", "h", ["editor"], false⟩,
    putRole ⟨"editor", [⟨.readWrite, [97], [98]⟩]⟩]

/-- A txn that puts `a` if it is new, and reads it otherwise. -/
def createOrRead : Request :=
  .txn ⟨[⟨0, 0, [97], [], some (.version 0)⟩], [.put { key := [97], value := [1], prevKv := true }],
    [.range { key := [97], rangeEnd := [] }]⟩

theorem authorized_within_alice :
    (∀ revision response,
      (createOrRead.serve (Store.open Tables.empty) true).1 = .ok (revision, response) →
        ∀ r ∈ response.records, Permitted aliceTables "alice" .read r.key) ∧
    (∀ k, ¬ Permitted aliceTables "alice" .write k →
      SameAt (Store.open Tables.empty) (createOrRead.serve (Store.open Tables.empty) true).2 k) ∧
    ∀ s', Reachable s' →
      (∀ k, Permitted aliceTables "alice" .read k → SameAt (Store.open Tables.empty) s' k) →
      ∀ c ∈ createOrRead.tests, ∀ cmp, compareFromProto c = some cmp →
        s'.evaluateCompares s'.engine {} [cmp] =
          (Store.open Tables.empty).evaluateCompares (Store.open Tables.empty).engine {} [cmp] := by
  have found : getUser aliceTables "alice" = .ok (some ⟨"alice", "h", ["editor"], false⟩) := by
    decide +kernel
  refine authorized_within (by decide +kernel) ⟨by decide, fun u got => ?_⟩ ⟨_, _, .start⟩ true
  rw [found] at got
  cases got
  decide

end Fastetcd.Server
