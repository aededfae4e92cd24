import Fastetcd.Laws.Mvcc.Reference
import Fastetcd.Mvcc.Replay

/-!
# The reference interpreter's writes are effects on the plain map

Forgetting versions and everything about dead keys, the cells of the reference interpreter are the
plain map (`plainOf`), and what a request writes is what its effect does to the map: a mutation, a
list of them, the branches a txn took, and the cascade of a revoke.
-/

namespace Fastetcd.Mvcc

open Reference Replay Std

/-- The plain map of the live rows. -/
def plainOf (cells : Cells) : Plain := (liveRows cells).map fun _ row => entryOf row.record

theorem getElem?_plainOf (cells : Cells) (key : Bytes) :
    (plainOf cells)[key]? = (liveRow cells key).map fun row => entryOf row.record := by
  rw [plainOf, ExtTreeMap.getElem?_map, getElem?_liveRows]

theorem plainOf_mutate {cells : Cells} {rev : Revision} {m : Mutation} {result : MutationResult}
    {ws : List Write} (ran : Reference.mutate cells rev m = .ok (result, ws)) :
    plainOf (ws.foldl write cells) = Replay.mutate rev.main (plainOf cells) m := by
  refine ExtTreeMap.ext_getElem? fun k => ?_
  cases m with
  | put key value lease ignoreValue ignoreLease prevKv =>
    simp only [Reference.mutate] at ran
    split at ran
    · cases ran
    · obtain ⟨-, rfl⟩ := Prod.mk.inj (Except.ok.inj ran)
      rw [getElem?_plainOf, List.foldl_cons, List.foldl_nil, Reference.liveRow_write]
      simp only [Replay.mutate, Replay.put, ExtTreeMap.getElem?_insert,
        LawfulEqCmp.compare_eq_iff_eq, getElem?_plainOf, Option.map_map]
      by_cases same : key = k
      · subst same
        simp only [putWrite, putRecord, if_true, Option.map_some, entryOf, Option.map_map,
          Function.comp_def]
      · have other : (putWrite (liveRow cells key) rev key value lease ignoreValue
            ignoreLease).event.kv.key ≠ k := same
        rw [if_neg same, if_neg other]
  | deleteRange key rangeEnd prevKv =>
    rw [getElem?_plainOf, liveRow_deleteRange ran, Replay.mutate, ExtTreeMap.getElem?_filter',
      getElem?_plainOf]
    cases inRange k key rangeEnd <;> cases liveRow cells k <;> simp [Option.filter]

theorem plainOf_mutations {main : Int} {ms : List Mutation} {sub : Nat} {cells : Cells}
    {results : List MutationResult} {ws : List Write}
    (ran : mutations main sub ms cells = .ok (results, ws)) :
    plainOf (ws.foldl write cells) = ms.foldl (Replay.mutate main) (plainOf cells) := by
  induction ms generalizing sub cells results ws with
  | nil =>
    obtain ⟨-, rfl⟩ := Prod.mk.inj (Except.ok.inj ran)
    rfl
  | cons m ms ih =>
    simp only [mutations, bind, Except.bind] at ran
    split at ran
    · cases ran
    · next out first =>
      split at ran
      · cases ran
      · next out' tail =>
        obtain ⟨-, rfl⟩ := Prod.mk.inj (Except.ok.inj ran)
        rw [List.foldl_append, ih tail, plainOf_mutate first, List.foldl_cons]

/-- A mutation that wrote nothing was a delete, which takes no revision. -/
theorem plainOf_mutate_idle {cells : Cells} {rev : Revision} {m : Mutation}
    {result : MutationResult} (ran : Reference.mutate cells rev m = .ok (result, [])) (r : Int) :
    plainOf cells = Replay.mutate r (plainOf cells) m := by
  cases m with
  | put =>
    simp only [Reference.mutate] at ran
    split at ran <;> cases ran
  | deleteRange => exact plainOf_mutate ran

/-- What ops do to the plain map: the mutations they ran at the txn's revision, or at any if they
wrote nothing. -/
def RanAs (env : Env) (exec exec' : Exec) (ms : List Mutation) : Prop :=
  (exec'.writes = [] → exec.writes = []) ∧
    ∀ r, r = env.main ∨ exec'.writes = [] →
      plainOf exec'.cells = ms.foldl (Replay.mutate r) (plainOf exec.cells)

mutual

theorem txnOp_ranAs {env : Env} (op : TxnOp) {exec exec' : Exec} {result : TxnOpResult}
    (ran : txnOp env op exec = .ok (result, exec')) :
    RanAs env exec exec' (executed op result) := by
  match op with
  | .range r =>
    simp only [txnOp, bind, Except.bind] at ran
    split at ran
    · cases ran
    · obtain ⟨rfl, rfl⟩ := Prod.mk.inj (Except.ok.inj ran)
      exact ⟨id, fun _ _ => by simp [executed]⟩
  | .mutation m =>
    simp only [txnOp, bind, Except.bind] at ran
    split at ran
    · cases ran
    · next out mutated =>
      obtain ⟨res, ws⟩ := out
      obtain ⟨rfl, rfl⟩ := Prod.mk.inj (Except.ok.inj ran)
      refine ⟨fun none => (List.append_eq_nil_iff.mp none).1, fun r at' => ?_⟩
      rcases at' with rfl | none
      · simp [executed, plainOf_mutate mutated]
      · obtain rfl := (List.append_eq_nil_iff.mp none).2
        simp only [executed, List.foldl_cons, List.foldl_nil]
        exact plainOf_mutate_idle mutated r
  | .txn compares success failure =>
    simp only [txnOp, bind, Except.bind] at ran
    cases succeeded : compares.all (holds env.before) with
    | true =>
      simp only [succeeded, if_true] at ran
      split at ran
      · cases ran
      · next out chosen =>
        obtain ⟨rfl, rfl⟩ := Prod.mk.inj (Except.ok.inj ran)
        simpa [executed] using txnOps_ranAs success chosen
    | false =>
      simp only [succeeded, Bool.false_eq_true, if_false] at ran
      split at ran
      · cases ran
      · next out chosen =>
        obtain ⟨rfl, rfl⟩ := Prod.mk.inj (Except.ok.inj ran)
        simpa [executed] using txnOps_ranAs failure chosen

theorem txnOps_ranAs {env : Env} (ops : List TxnOp) {exec exec' : Exec}
    {results : List TxnOpResult} (ran : txnOps env ops exec = .ok (results, exec')) :
    RanAs env exec exec' (executedAll ops results) := by
  match ops with
  | [] =>
    obtain ⟨rfl, rfl⟩ := Prod.mk.inj (Except.ok.inj ran)
    exact ⟨id, fun _ _ => by simp [executedAll]⟩
  | op :: ops =>
    simp only [txnOps, bind, Except.bind] at ran
    split at ran
    · cases ran
    · next out first =>
      split at ran
      · cases ran
      · next out' rest =>
        obtain ⟨rfl, rfl⟩ := Prod.mk.inj (Except.ok.inj ran)
        obtain ⟨beforeFirst, runFirst⟩ := txnOp_ranAs op first
        obtain ⟨beforeRest, runRest⟩ := txnOps_ranAs ops rest
        refine ⟨beforeFirst ∘ beforeRest, fun r at' => ?_⟩
        simp [executedAll, runRest r at', runFirst r (at'.imp_right beforeRest)]

end

/-- A txn does to the plain map what its effect does, and its writes are in order. -/
theorem plainOf_txn {env : Env} {compares : List Compare} {success failure : List TxnOp}
    {result : TxnResult} {ws : List Write}
    (ran : Reference.txn env compares success failure = .ok (result, ws)) :
    (Replay.ofTxn success failure (.ok result)).foldl Effect.run (plainOf env.before) =
        plainOf (ws.foldl write env.before) ∧
      Ordered ws ∧ result.revision = if ws.isEmpty then env.revs.current else env.main := by
  simp only [Reference.txn, bind, Except.bind] at ran
  split at ran
  · cases ran
  · next out ops =>
    obtain ⟨rfl, rfl⟩ := Prod.mk.inj (Except.ok.inj ran)
    have sound := txnOps_sound _ ops (.start env)
    refine ⟨?_, sound.ordered, rfl⟩
    rw [← sound.cells, (txnOps_ranAs _ ops).2 (out.2.current env)]
    · rfl
    · cases writes : out.2.writes with
      | nil => exact .inr rfl
      | cons => left; simp [Exec.current, writes]

/-- A revoke's cascade does to the plain map what the revoke does. -/
theorem plainOf_cascade {main : Int} (id : LeaseId) {keys : List Bytes} {sub : Nat} {cells : Cells}
    {results : List MutationResult} {ws : List Write}
    (ran : mutations main sub (cascade keys) cells = .ok (results, ws))
    (attached : ∀ key, key ∈ keys ↔ ∃ row, liveRow cells key = some row ∧
      revokes id row.record.lease = true) :
    plainOf (ws.foldl write cells) = Effect.run (plainOf cells) (.revoke main id) := by
  refine ExtTreeMap.ext_getElem? fun k => ?_
  rw [getElem?_plainOf, liveRow_cascade ran, Effect.run, ExtTreeMap.getElem?_filter',
    getElem?_plainOf]
  cases isLive : liveRow cells k with
  | none => simp
  | some row =>
    have reached : k ∈ keys ↔ revokes id row.record.lease = true := by
      simp [attached, isLive]
    by_cases mem : revokes id row.record.lease = true <;>
      simp [reached, mem, entryOf, Option.filter]

end Fastetcd.Mvcc
