import Fastetcd.Raft.Precheck
import Fastetcd.Laws.Mvcc.Guarantees

/-!
# A refused proposal would be refused

What the precheck refuses, the state machine refuses, for the same reason and with nothing changed.
The precheck keeps a set of the keys that are put so far instead of the overlay of the txn; a key
that is missing before the txn and not in the set is missing at its place in the txn, too
(`Lacks`), so a put that keeps its value is refused there, or the txn stopped before it.

Where it stopped before, it was at another such put, or at a Range whose revision cannot be read.
The precheck does not look at the Ranges of a txn, and then the reason is another one.
-/

namespace Fastetcd.Raft

open Mvcc Reference

/-! ## The check, over the cells -/

/-- `keepsMissingKey` as a function of the keys that are live before. -/
def keepsMissing (before : Cells) (put : List Bytes) : List Mutation → Bool
  | [] => false
  | m :: ms =>
    match m with
    | .put key _ _ _ _ _ =>
      (ignoresPrev m && !put.contains key && (liveRow before key).isNone) ||
        keepsMissing before (key :: put) ms
    | .deleteRange _ _ _ => keepsMissing before put ms

/-- A key that is missing before and is not in `put` is missing in the cells now. -/
def Lacks (before : Cells) (put : List Bytes) (cells : Cells) : Prop :=
  ∀ key, put.contains key = false → liveRow before key = none → liveRow cells key = none

theorem Lacks.refl (cells : Cells) : Lacks cells [] cells := fun _ _ missing => missing

/-- The keys a mutation may create. -/
def putKeys : Mutation → List Bytes
  | .put key _ _ _ _ _ => [key]
  | .deleteRange _ _ _ => []

/-- One mutation of the list: it is refused as the check says, or the check goes on after it. -/
theorem mutate_keepsMissing {before cells : Cells} {put : List Bytes}
    (lacks : Lacks before put cells) (rev : Revision) (m : Mutation) (ms : List Mutation) :
    mutate cells rev m = .error (.refused .keyNotFound) ∨
      ∃ result ws, mutate cells rev m = .ok (result, ws) ∧
        Lacks before (putKeys m ++ put) (ws.foldl write cells) ∧
        keepsMissing before put (m :: ms) = keepsMissing before (putKeys m ++ put) ms := by
  cases m with
  | put key value lease ignoreValue ignoreLease prevKv =>
    simp only [mutate]
    split
    · exact .inl rfl
    next allowed =>
    refine .inr ⟨_, _, rfl, ?_, ?_⟩
    · intro k fresh missing
      simp only [putKeys, List.cons_append, List.nil_append, List.contains_cons,
        Bool.or_eq_false_iff, beq_eq_false_iff_ne] at fresh
      have other : (putWrite (liveRow cells key) rev key value lease ignoreValue
        ignoreLease).event.kv.key ≠ k := Ne.symm fresh.1
      rw [List.foldl_cons, List.foldl_nil, Reference.liveRow_write, if_neg other]
      exact lacks k fresh.2 missing
    · simp only [keepsMissing, putKeys, List.cons_append, List.nil_append, ignoresPrev]
      -- A put that passed and is the one the check looks for would have found its key missing.
      have passed : (((ignoreValue || ignoreLease) && !put.contains key) &&
          (liveRow before key).isNone) = false := by
        by_contra offends
        simp only [Bool.not_eq_false, Bool.and_eq_true, Bool.not_eq_true', Option.isNone_iff_eq_none]
          at offends
        have gone := lacks key offends.1.2 offends.2
        exact allowed (by simp [offends.1.1, gone])
      rw [passed, Bool.false_or]
  | deleteRange key rangeEnd prevKv =>
    have mutated : mutate cells rev (.deleteRange key rangeEnd prevKv) = .ok (_, _) := rfl
    refine .inr ⟨_, _, mutated, ?_, rfl⟩
    intro k fresh missing
    rw [liveRow_deleteRange mutated]
    split
    · rfl
    · exact lacks k fresh missing

/-! ## The ops a txn runs -/

/-- An op that is no txn. -/
abbrev Leaf := RangeOp ⊕ Mutation

def Leaf.op : Leaf → TxnOp
  | .inl r => .range r
  | .inr m => .mutation m

/-- The mutations among the ops. -/
def mutationsOf (leaves : List Leaf) : List Mutation := leaves.filterMap Sum.getRight?

section Chosen

variable (env : Env)

mutual

/-- The ops that an op of a txn runs, those of a nested txn in its place. -/
def chosenLeaves1 : TxnOp → List Leaf
  | .range r => [.inl r]
  | .mutation m => [.inr m]
  | .txn compares success failure =>
    if compares.all (holds env.before) then chosenLeaves success else chosenLeaves failure

def chosenLeaves : List TxnOp → List Leaf
  | [] => []
  | op :: ops => chosenLeaves1 op ++ chosenLeaves ops

end

/-- Where ops leave a txn. -/
def after (ops : List TxnOp) (exec : Exec) : Except MvccError Exec :=
  (txnOps env ops exec).map Prod.snd

theorem after_cons (op : TxnOp) (ops : List TxnOp) (exec : Exec) :
    after env (op :: ops) exec =
      ((txnOp env op exec).map Prod.snd).bind fun exec => after env ops exec := by
  simp only [after, txnOps]
  rcases txnOp env op exec with e | ⟨result, exec'⟩
  · rfl
  · simp only [bind, Except.bind, Except.map]
    rcases txnOps env ops exec' with e | ⟨results, last⟩ <;> rfl

theorem after_append (front back : List TxnOp) (exec : Exec) :
    after env (front ++ back) exec =
      (after env front exec).bind fun exec => after env back exec := by
  induction front generalizing exec with
  | nil => rfl
  | cons op front ih =>
    rw [List.cons_append, after_cons, after_cons]
    cases (txnOp env op exec).map Prod.snd with
    | error e => rfl
    | ok exec' => exact ih exec'

theorem after_singleton (op : TxnOp) (exec : Exec) :
    after env [op] exec = (txnOp env op exec).map Prod.snd := by
  rw [after_cons]
  cases (txnOp env op exec).map Prod.snd <;> rfl

mutual

theorem after_chosenLeaves1 (op : TxnOp) (exec : Exec) :
    after env ((chosenLeaves1 env op).map Leaf.op) exec = (txnOp env op exec).map Prod.snd := by
  match op with
  | .range r => exact after_singleton env _ exec
  | .mutation m => exact after_singleton env _ exec
  | .txn compares success failure =>
    simp only [chosenLeaves1, txnOp]
    split
    · rw [after_chosenLeaves success exec, after]
      rcases txnOps env success exec with e | ⟨results, last⟩ <;> rfl
    · rw [after_chosenLeaves failure exec, after]
      rcases txnOps env failure exec with e | ⟨results, last⟩ <;> rfl

/-- Nested txns run as if the ops they choose stood in their places. -/
theorem after_chosenLeaves (ops : List TxnOp) (exec : Exec) :
    after env ((chosenLeaves env ops).map Leaf.op) exec = after env ops exec := by
  match ops with
  | [] => rfl
  | op :: ops =>
    rw [chosenLeaves, List.map_append, after_append, after_chosenLeaves1 op exec, after_cons]
    congr 1
    funext exec'
    exact after_chosenLeaves ops exec'

end

/-- The revision can be read: it is not above the current one and not compacted. -/
def Readable (revs : Revs) (revision : Int) : Prop :=
  revision ≤ 0 ∨ (revs.compact ≤ revision ∧ revision ≤ revs.current)

/-- Every Range that is reached before a mutation is refused names a revision that can be read
there. The txn's own revision is the current one once it has written. -/
def RangesReadable : List Leaf → Exec → Prop
  | [], _ => True
  | .inl r :: leaves, exec =>
    Readable ⟨exec.current env, env.revs.compact⟩ r.revision ∧ RangesReadable leaves exec
  | .inr m :: leaves, exec => ∀ result ws,
    mutate exec.cells ⟨env.main, exec.sub⟩ m = .ok (result, ws) →
      RangesReadable leaves ⟨ws.foldl write exec.cells, exec.sub + 1, exec.writes ++ ws⟩

theorem checkReadRev_cases (revs : Revs) (revision : Int) :
    (Readable revs revision ∧ ∃ rev, checkReadRev revs revision = .ok rev) ∨
      (¬Readable revs revision ∧ ∃ e, checkReadRev revs revision = .error e ∧
        e ≠ .refused .keyNotFound) := by
  unfold checkReadRev Readable
  split
  · exact .inr ⟨by omega, _, rfl, nofun⟩
  · split
    · exact .inr ⟨by omega, _, rfl, nofun⟩
    · exact .inl ⟨by omega, _, rfl⟩

theorem after_range (r : RangeOp) (leaves : List Leaf) (exec : Exec) :
    after env ((Sum.inl r :: leaves).map Leaf.op) exec =
      (checkReadRev ⟨exec.current env, env.revs.compact⟩ r.revision).bind fun _ =>
        after env (leaves.map Leaf.op) exec := by
  rw [List.map_cons, Leaf.op, after_cons]
  simp only [txnOp, Reference.range]
  cases checkReadRev ⟨exec.current env, env.revs.compact⟩ r.revision <;> rfl

theorem after_mutation (m : Mutation) (leaves : List Leaf) (exec : Exec) :
    after env ((Sum.inr m :: leaves).map Leaf.op) exec =
      (mutate exec.cells ⟨env.main, exec.sub⟩ m).bind fun out =>
        after env (leaves.map Leaf.op)
          ⟨out.2.foldl write exec.cells, exec.sub + 1, exec.writes ++ out.2⟩ := by
  rw [List.map_cons, Leaf.op, after_cons]
  simp only [txnOp]
  rcases mutate exec.cells ⟨env.main, exec.sub⟩ m with e | ⟨result, ws⟩ <;> rfl

/-- A txn the check refuses stops at a put of a missing key, exactly if it does not stop at a Range
before. -/
theorem after_keyNotFound_iff (leaves : List Leaf) {put : List Bytes} {exec : Exec}
    (lacks : Lacks env.before put exec.cells)
    (keeps : keepsMissing env.before put (mutationsOf leaves) = true) :
    after env (leaves.map Leaf.op) exec = .error (.refused .keyNotFound) ↔
      RangesReadable env leaves exec := by
  induction leaves generalizing put exec with
  | nil => cases keeps
  | cons leaf leaves ih =>
    cases leaf with
    | inl r =>
      rw [after_range, RangesReadable]
      rcases checkReadRev_cases ⟨exec.current env, env.revs.compact⟩ r.revision with
        ⟨readable, rev, checked⟩ | ⟨unreadable, e, checked, other⟩
      · rw [checked, and_iff_right readable]
        exact ih lacks keeps
      · rw [checked]
        refine iff_of_false ?_ fun readable => unreadable readable.1
        intro refused
        exact other (Except.error.inj refused)
    | inr m =>
      rw [after_mutation, RangesReadable]
      have step := mutate_keepsMissing lacks ⟨env.main, exec.sub⟩ m (mutationsOf leaves)
      rcases step with refused | ⟨result, ws, mutated, lacks, same⟩
      · rw [refused]
        exact iff_of_true rfl fun _ _ mutated => nomatch mutated
      · rw [mutated]
        have keeps : keepsMissing env.before (putKeys m ++ put) (mutationsOf leaves) = true :=
          same ▸ keeps
        refine (ih lacks keeps).trans ?_
        constructor
        · rintro readable _ _ ⟨⟩
          exact readable
        · intro readable
          exact readable result ws rfl

end Chosen

/-- A list of mutations the check refuses is refused. -/
theorem mutations_keyNotFound {before cells : Cells} {put : List Bytes} (main : Int)
    (lacks : Lacks before put cells) {ms : List Mutation}
    (keeps : keepsMissing before put ms = true) (sub : Nat) :
    mutations main sub ms cells = .error (.refused .keyNotFound) := by
  induction ms generalizing put cells sub with
  | nil => cases keeps
  | cons m ms ih =>
    rcases mutate_keepsMissing lacks ⟨main, sub⟩ m ms with refused | ⟨result, ws, mutated, lacks, same⟩
    · simp only [mutations, refused]
      rfl
    · simp only [mutations, mutated, bind, Except.bind, ih lacks (same ▸ keeps) (sub + 1)]

/-! ## The check on a store -/

section Check

variable {s : Store} (inv : s.Inv)
include inv

theorem keyExists_eq (key : Bytes) :
    keyExists s key = .ok (liveRow s.env.before key).isSome := by
  have single : answer (s.content.readAt (.endOf s.writeState.currentRev))
      ⟨key, [], 1, 0, true, false⟩ =
      ⟨(s.content.readAt (.endOf s.writeState.currentRev))[key]?.toList.map (trim · true), false,
        (s.content.readAt (.endOf s.writeState.currentRev))[key]?.toList.length⟩ := by
    cases found : (s.content.readAt (.endOf s.writeState.currentRev))[key]? <;>
      simp [answer, scan_single, found]
  rcases rangeWithRevision_spec inv ⟨key, [], 1, 0, true, false⟩ with
    ⟨e, refused, -⟩ | ⟨main, values, checked, read, -⟩
  · cases checkReadRev_now.symm.trans refused
  · have same : Revision.endOf s.writeState.currentRev = .endOf main :=
      Except.ok.inj (checkReadRev_now.symm.trans checked)
    simp only [keyExists, read, ← same, single, getElem?_readAt_now inv, bind, Except.bind, pure,
      Except.pure]
    have before : s.env.before = s.content.cells := rfl
    rw [before]
    cases liveRow s.content.cells key <;> rfl

theorem keepsMissingKey_eq (put : List Bytes) (ms : List Mutation) :
    keepsMissingKey s put ms = .ok (keepsMissing s.env.before put ms) := by
  induction ms generalizing put with
  | nil => rfl
  | cons m ms ih =>
    cases m with
    | put key value lease ignoreValue ignoreLease prevKv =>
      simp only [keepsMissingKey, keepsMissing, keyExists_eq inv, ih]
      cases ignoresPrev (.put key value lease ignoreValue ignoreLease prevKv) && !put.contains key with
      | false => simp [bind, Except.bind]
      | true =>
        cases liveRow s.env.before key <;>
          simp [bind, Except.bind, pure, Except.pure]
    | deleteRange key rangeEnd prevKv => exact ih put

end Check

mutual

theorem chosenOf_eq {s : Store} (inv : s.Inv) (op : TxnOp) :
    chosenOf s op = .ok (mutationsOf (chosenLeaves1 s.env op)) := by
  match op with
  | .range r => rfl
  | .mutation m => rfl
  | .txn compares success failure =>
    simp only [chosenOf, txnWouldSucceed, evaluateCompares_before inv, chosenLeaves1, bind,
      Except.bind]
    split
    · exact chosenOfAll_eq inv success
    · exact chosenOfAll_eq inv failure

theorem chosenOfAll_eq {s : Store} (inv : s.Inv) (ops : List TxnOp) :
    chosenOfAll s ops = .ok (mutationsOf (chosenLeaves s.env ops)) := by
  match ops with
  | [] => rfl
  | op :: ops =>
    simp only [chosenOfAll, chosenOf_eq inv op, chosenOfAll_eq inv ops, chosenLeaves, mutationsOf,
      List.filterMap_append, bind, Except.bind, pure, Except.pure]

end

theorem chosenMutations_eq {s : Store} (inv : s.Inv) (compares : List Compare)
    (success failure : List TxnOp) :
    chosenMutations s compares success failure =
      .ok (mutationsOf (chosenLeaves1 s.env (.txn compares success failure))) :=
  chosenOf_eq inv (.txn compares success failure)

/-! ## Refused before, refused at apply -/

/-- The Ranges of a txn that come before a refused put name revisions that can be read at their
places. -/
def RangesAnswerable (s : Store) : FastetcdLogEntry → Prop
  | .txn compares success failure =>
    RangesReadable s.env (chosenLeaves1 s.env (.txn compares success failure)) (.start s.env.before)
  | _ => True

variable {s : Store}

/-- A refused request is answered with its reason. -/
theorem applyData_refused {entry : FastetcdLogEntry} {logIndex : Nat} {engineOk : Bool}
    {e : MvccError} {why : Refusal} (refused : applyRequest s logIndex engineOk entry =
      (.error (.mvcc e), s)) (reason : e.refusal = some why) :
    applyData s logIndex engineOk entry = (.ok (.refused s.view.current why), s) := by
  simp only [applyData, refused, reason]

theorem txn_error_iff (env : Env) (compares : List Compare) (success failure : List TxnOp)
    (e : MvccError) : Reference.txn env compares success failure = .error e ↔
      after env ((chosenLeaves1 env (.txn compares success failure)).map Leaf.op)
        (.start env.before) = .error e := by
  rw [after_chosenLeaves1]
  rcases txn_eq_txnOp env compares success failure with
    ⟨e', stopped, refused⟩ | ⟨succeeded, results, exec, ran, answered⟩
  · rw [stopped, refused]
    simp [Except.map]
  · rw [ran, answered]
    simp [Except.map]

theorem refusal_keyNotFound {e : MvccError} (reason : e.refusal = some .keyNotFound) :
    e = .refused .keyNotFound := by
  cases e <;> simp_all [MvccError.refusal]

/-- A txn is answered `Refused` for a missing key exactly if the reference interpreter stops there. -/
theorem applyData_txn_iff (inv : s.Inv) (compares : List Compare) (success failure : List TxnOp) :
    (∀ logIndex engineOk, applyData s logIndex engineOk (.txn compares success failure) =
      (.ok (.refused s.view.current .keyNotFound), s)) ↔
      Reference.txn s.env compares success failure = .error (.refused .keyNotFound) := by
  constructor
  · intro refused
    have refused := refused 0 true
    have served := txn_served inv compares success failure true
    simp only [applyData, applyRequest] at refused
    generalize s.txn compares success failure true = answered at served refused
    generalize Reference.txn s.env compares success failure = reference at served
    cases served with
    | refused e =>
      simp only [responding] at refused
      cases reason : e.refusal with
      | none => simp [reason] at refused
      | some why =>
        obtain rfl : why = .keyNotFound := by simpa [reason] using refused
        rw [refusal_keyNotFound reason]
    | idle | wrote => simp [responding] at refused
    | failed engine => cases engine
  · intro stopped logIndex engineOk
    have served := txn_served inv compares success failure engineOk
    rw [stopped] at served
    have refused : s.txn compares success failure engineOk = (.error (.refused .keyNotFound), s) := by
      generalize s.txn compares success failure engineOk = answered at served
      cases served
      rfl
    refine applyData_refused (e := .refused .keyNotFound) ?_ rfl
    simp only [applyRequest, refused, responding]

/-- What the precheck refuses is refused at apply for the same reason, with the store as it was,
exactly if no Range of a txn stops the txn first. -/
theorem precheck_refusal_iff (reachable : Reachable s) {entry : FastetcdLogEntry} {why : Refusal}
    (refuses : refusal s entry = .ok (some why)) :
    (∀ logIndex engineOk, applyData s logIndex engineOk entry =
      (.ok (.refused s.view.current why), s)) ↔ RangesAnswerable s entry := by
  have inv := reachable.inv
  have revs : s.view.revs = s.writeState.revs := inv.view
  have current : s.view.current = s.writeState.currentRev := congrArg Revs.current revs
  have compact : s.view.compact = s.writeState.compactRev := congrArg Revs.compact revs
  cases entry with
  | apply ms =>
    refine iff_of_true (fun logIndex engineOk => ?_) trivial
    obtain ⟨keeps, rfl⟩ : keepsMissing s.env.before [] ms = true ∧ why = .keyNotFound := by
      simp only [refusal, keepsMissingKey_eq inv, bind, Except.bind, pure, Except.pure] at refuses
      split at refuses
      · cases refuses
      · split at refuses
        · next keeps => exact ⟨keeps, by simpa using refuses.symm⟩
        · cases refuses
    have nonempty : ms.isEmpty = false := by
      cases ms with
      | nil => cases keeps
      | cons => rfl
    have stopped : Reference.apply s.env ms = .error (.refused .keyNotFound) := by
      simp only [Reference.apply, nonempty, Bool.false_eq_true, if_false,
        mutations_keyNotFound s.env.main (Lacks.refl s.env.before) keeps 0, bind, Except.bind]
    have served := apply_served inv ms engineOk
    rw [stopped] at served
    have refused : s.apply ms engineOk = (.error (.refused .keyNotFound), s) := by
      generalize s.apply ms engineOk = answered at served
      cases served
      rfl
    refine applyData_refused (e := .refused .keyNotFound) ?_ rfl
    simp only [applyRequest, refused, responding]
  | txn compares success failure =>
    obtain ⟨keeps, rfl⟩ : keepsMissing s.env.before []
        (mutationsOf (chosenLeaves1 s.env (.txn compares success failure))) = true ∧
        why = .keyNotFound := by
      simp only [refusal, chosenMutations_eq inv, keepsMissingKey_eq inv, bind, Except.bind, pure,
        Except.pure] at refuses
      split at refuses
      · cases refuses
      · split at refuses
        · next keeps => exact ⟨keeps, by simpa using refuses.symm⟩
        · cases refuses
    rw [applyData_txn_iff inv, txn_error_iff]
    exact after_keyNotFound_iff s.env _ (Lacks.refl s.env.before) keeps
  | compact rev =>
    refine iff_of_true (fun logIndex engineOk => ?_) trivial
    have refused : ∃ e, s.compact rev engineOk = (.error e, s) ∧ e.refusal = some why := by
      simp only [refusal, current, compact] at refuses
      unfold Store.compact
      split at refuses
      · next low => exact ⟨_, if_pos low, Except.ok.inj refuses⟩
      next low =>
      rw [if_neg low]
      split at refuses
      · next high => exact ⟨_, if_pos high, Except.ok.inj refuses⟩
      next high =>
      rw [if_neg high]
      split at refuses
      · next gone => exact ⟨_, if_pos gone, Except.ok.inj refuses⟩
      · cases refuses
    obtain ⟨e, refused, reason⟩ := refused
    refine applyData_refused ?_ reason
    simp only [applyRequest, refused, responding]
  | leaseGrant id ttlSecs nowUnix =>
    refine iff_of_true (fun logIndex engineOk => ?_) trivial
    have refused : ∃ e, s.applyLeaseGrant id ttlSecs nowUnix engineOk = (.error e, s) ∧
        e.refusal = some why := by
      simp only [refusal] at refuses
      split at refuses
      · next low => exact ⟨_, if_pos low, Except.ok.inj refuses⟩
      · cases refuses
    obtain ⟨e, refused, reason⟩ := refused
    refine applyData_refused ?_ reason
    simp only [applyRequest, refused, responding]
  | leaseKeepAlive id nowUnix =>
    refine iff_of_true (fun logIndex engineOk => ?_) trivial
    have missing : s.engine.lease[leaseIdKey id]? = none ∧ why = .leaseNotFound := by
      simp only [refusal, leaseExists] at refuses
      cases found : s.engine.lease[leaseIdKey id]? with
      | some rec => simp [found] at refuses
      | none => exact ⟨rfl, by simpa [found] using refuses.symm⟩
    obtain ⟨missing, rfl⟩ := missing
    have refused : s.applyLeaseKeepalive id nowUnix engineOk =
        (.error (.refused .leaseNotFound), s) := by
      simp only [Store.applyLeaseKeepalive, missing]
    refine applyData_refused (e := .refused .leaseNotFound) ?_ rfl
    simp only [applyRequest, refused, responding]
  | leaseRevoke | noop | auth | batch | clusterId => cases refuses

theorem precheck_refusal_nested :
    let s := Store.open Tables.empty
    let entry : FastetcdLogEntry := .txn []
      [.range ⟨[97], [], 0, 0, false, false⟩,
        .txn [] [.mutation (.put [97] [1] 0 true false false)] []] []
    refusal s entry = .ok (some .keyNotFound) ∧ ∀ logIndex engineOk,
      applyData s logIndex engineOk entry = (.ok (.refused s.view.current .keyNotFound), s) :=
  ⟨rfl, (precheck_refusal_iff ⟨_, _, .start⟩ rfl).mpr
    ⟨.inl (by decide), fun _ _ _ => trivial⟩⟩

theorem precheck_misses_range :
    let s := Store.open Tables.empty
    let entry : FastetcdLogEntry := .txn []
      [.range ⟨[97], [], 0, 5, false, false⟩, .mutation (.put [97] [1] 0 true false false)] []
    refusal s entry = .ok (some .keyNotFound) ∧
      applyData s 1 true entry = (.ok (.refused s.view.current .futureRevision), s) :=
  ⟨rfl, rfl⟩

end Fastetcd.Raft
