import Fastetcd.Mvcc.Reference
import Fastetcd.Mvcc.History

/-!
# The reference interpreter on its own

Facts about the interpreter that need nothing of the store: what its writes leave live, which
requests it never refuses, and the order its writes come in.
-/

namespace Fastetcd.Mvcc

open Reference Std

/-! ## Live rows -/

theorem getElem?_liveRows (cells : Cells) (key : Bytes) :
    (liveRows cells)[key]? = liveRow cells key := by
  rw [liveRows, ExtTreeMap.getElem?_filterMap', liveRow]
  cases cells[key]? with
  | none => rfl
  | some cell => rfl

/-- A write decides its own key. -/
theorem Reference.liveRow_write (cells : Cells) (w : Write) (key : Bytes) :
    liveRow (write cells w) key =
      if w.event.kv.key = key then
        match w.event.kind with
        | .put => some ⟨w.event.kv, putsAfter (liveRow cells key)⟩
        | .delete => none
      else liveRow cells key := by
  simp only [liveRow, write, ExtTreeMap.getElem?_insert, LawfulEqCmp.compare_eq_iff_eq]
  split
  · next same => subst same; rfl
  · rfl

theorem liveRow_foldl_deleteWrite (rev : Revision) (gone : List (Bytes × Row)) (cells : Cells)
    (key : Bytes) :
    liveRow ((gone.map (deleteWrite rev)).foldl write cells) key =
      if key ∈ gone.map Prod.fst then none else liveRow cells key := by
  induction gone generalizing cells with
  | nil => simp
  | cons live gone ih =>
    rw [List.map_cons, List.foldl_cons, ih, Reference.liveRow_write]
    simp only [deleteWrite, tombstoneRecord, List.map_cons, List.mem_cons]
    by_cases later : key ∈ gone.map Prod.fst <;> by_cases now : key = live.1 <;>
      simp [later, now, Ne.symm]

/-- A range delete leaves no key of its range live, and the others as they were. -/
theorem liveRow_deleteRange {cells : Cells} {rev : Revision} {key rangeEnd : Bytes} {prevKv : Bool}
    {result : MutationResult} {ws : List Write}
    (mutated : mutate cells rev (.deleteRange key rangeEnd prevKv) = .ok (result, ws)) (k : Bytes) :
    liveRow (ws.foldl write cells) k =
      if inRange k key rangeEnd then none else liveRow cells k := by
  simp only [mutate, Except.ok.injEq, Prod.mk.injEq] at mutated
  obtain ⟨-, rfl⟩ := mutated
  rw [liveRow_foldl_deleteWrite]
  cases isLive : liveRow cells k with
  | none => simp
  | some row =>
    have found : k ∈ ((liveRows cells).scan (inRange · key rangeEnd)).map Prod.fst ↔
        inRange k key rangeEnd = true := by
      simp [getElem?_liveRows, isLive]
    simp only [found]

/-- A cascade leaves none of its keys live, and the others as they were. -/
theorem liveRow_cascade {main : Int} {keys : List Bytes} {sub : Nat} {cells : Cells}
    {results : List MutationResult} {ws : List Write}
    (ran : mutations main sub (cascade keys) cells = .ok (results, ws)) (k : Bytes) :
    liveRow (ws.foldl write cells) k = if k ∈ keys then none else liveRow cells k := by
  induction keys generalizing sub cells results ws with
  | nil =>
    obtain ⟨-, rfl⟩ := Prod.mk.inj (Except.ok.inj ran)
    simp
  | cons key keys ih =>
    simp only [cascade, List.map_cons, mutations, bind, Except.bind] at ran
    cases first : mutate cells ⟨main, sub⟩ (.deleteRange key [] false) with
    | error e => rw [first] at ran; cases ran
    | ok out =>
      obtain ⟨result, here⟩ := out
      simp only [first] at ran
      cases tail : mutations main (sub + 1) (keys.map (.deleteRange · [] false))
          (here.foldl write cells) with
      | error e => rw [tail] at ran; cases ran
      | ok out =>
        obtain ⟨results', rest⟩ := out
        simp only [tail, pure, Except.pure, Except.ok.injEq, Prod.mk.injEq] at ran
        obtain ⟨-, rfl⟩ := ran
        rw [List.foldl_append, ih tail, liveRow_deleteRange first]
        by_cases later : k ∈ keys <;> by_cases now : k = key <;> simp [later, now, inRange]

/-! ## What is never refused -/

/-- A mutation that keeps nothing of the record it replaces is never refused. -/
theorem mutate_ok (cells : Cells) (rev : Revision) {m : Mutation} (plain : ignoresPrev m = false) :
    ∃ result ws, mutate cells rev m = .ok (result, ws) := by
  cases m with
  | put key value lease ignoreValue ignoreLease prevKv =>
    have plain : (ignoreValue || ignoreLease) = false := plain
    simp [mutate, plain]
  | deleteRange key rangeEnd prevKv => exact ⟨_, _, rfl⟩

theorem mutations_ok (main : Int) {ms : List Mutation} (plain : ms.any ignoresPrev = false) :
    ∀ (sub : Nat) (cells : Cells), ∃ results ws, mutations main sub ms cells = .ok (results, ws) := by
  induction ms with
  | nil => exact fun _ _ => ⟨_, _, rfl⟩
  | cons m ms ih =>
    intro sub cells
    rw [List.any_cons, Bool.or_eq_false_iff] at plain
    obtain ⟨result, ws, first⟩ := mutate_ok cells ⟨main, sub⟩ plain.1
    obtain ⟨results, rest, tail⟩ := ih plain.2 (sub + 1) (ws.foldl write cells)
    simp [mutations, first, tail, bind, Except.bind, pure, Except.pure]

/-- A plain op is never refused. -/
theorem txnOp_ok (env : Env) {op : TxnOp} (plain : op.isPlain = true) (exec : Exec) :
    ∃ result exec', txnOp env op exec = .ok (result, exec') := by
  cases op with
  | range r =>
    have latest : r.revision = 0 := by simpa [TxnOp.isPlain] using plain
    simp [txnOp, Reference.range, checkReadRev, latest, bind, Except.bind, pure, Except.pure]
  | mutation m =>
    obtain ⟨result, ws, ok⟩ := mutate_ok exec.cells ⟨env.main, exec.sub⟩
      (by simpa [TxnOp.isPlain] using plain)
    simp [txnOp, ok, bind, Except.bind, pure, Except.pure]
  | txn => cases plain

theorem txnOps_ok (env : Env) {ops : List TxnOp} (plain : ops.all TxnOp.isPlain = true) :
    ∀ exec, ∃ results exec', txnOps env ops exec = .ok (results, exec') := by
  induction ops with
  | nil => exact fun exec => ⟨[], exec, rfl⟩
  | cons op ops ih =>
    intro exec
    rw [List.all_cons, Bool.and_eq_true] at plain
    obtain ⟨result, exec', first⟩ := txnOp_ok env plain.1 exec
    obtain ⟨results, last, rest⟩ := ih plain.2 exec'
    simp [txnOps, first, rest, bind, Except.bind, pure, Except.pure]

/-! ## The order of writes -/

/-- Where a write stands in the event history. -/
def Reference.Write.pair (w : Write) : Revision × Bytes := (w.rev, w.event.kv.key)

/-- Writes in the order of the event history. -/
def Ordered (ws : List Write) : Prop := ws.Pairwise fun v w => pairCmp v.pair w.pair = .lt

theorem Ordered.append {a b : List Write} (ordA : Ordered a) (ordB : Ordered b)
    (before : ∀ v ∈ a, ∀ w ∈ b, v.rev < w.rev) : Ordered (a ++ b) := by
  refine List.pairwise_append.mpr ⟨ordA, ordB, fun v hv w hw => ?_⟩
  have lt : compare v.rev w.rev = .lt := compare_lt_iff_lt.mpr (before v hv w hw)
  simp [pairCmp, Reference.Write.pair, lt]

/-- A mutation's writes take its revision, in key order. -/
theorem mutate_ordered {cells : Cells} {rev : Revision} {m : Mutation} {result : MutationResult}
    {ws : List Write} (ran : mutate cells rev m = .ok (result, ws)) :
    Ordered ws ∧ ∀ w ∈ ws, w.rev = rev := by
  cases m with
  | put key value lease ignoreValue ignoreLease prevKv =>
    simp only [mutate] at ran
    split at ran
    · cases ran
    · obtain ⟨-, rfl⟩ := Prod.mk.inj (Except.ok.inj ran)
      exact ⟨List.pairwise_singleton _ _, by simp [putWrite]⟩
  | deleteRange key rangeEnd prevKv =>
    obtain ⟨-, rfl⟩ := Prod.mk.inj (Except.ok.inj ran)
    refine ⟨List.pairwise_map.mpr ((Table.scan_ascending _ _).imp fun {a b} lt => ?_), ?_⟩
    · have same : compare rev rev = .eq := ReflCmp.compare_self
      simpa [pairCmp, Reference.Write.pair, deleteWrite, tombstoneRecord, same, keyCmp] using lt
    · intro w mem
      obtain ⟨live, -, rfl⟩ := List.mem_map.mp mem
      rfl

/-- Counted sub-revisions are ordered as their counts. -/
theorem rev_lt_rev {main : Int} {n m : Nat} : (⟨main, n⟩ : Revision) < ⟨main, m⟩ ↔ n < m := by
  simp [Revision.lt_iff]

theorem mutations_ordered {main : Int} {ms : List Mutation} {sub : Nat} {cells : Cells}
    {results : List MutationResult} {ws : List Write}
    (ran : mutations main sub ms cells = .ok (results, ws)) :
    Ordered ws ∧ ∀ w ∈ ws, ∃ n, sub ≤ n ∧ w.rev = ⟨main, (n : Nat)⟩ := by
  induction ms generalizing sub cells results ws with
  | nil =>
    obtain ⟨-, rfl⟩ := Prod.mk.inj (Except.ok.inj ran)
    exact ⟨List.Pairwise.nil, by simp⟩
  | cons m ms ih =>
    simp only [mutations, bind, Except.bind] at ran
    cases first : mutate cells ⟨main, sub⟩ m with
    | error e => rw [first] at ran; cases ran
    | ok out =>
      obtain ⟨result, here⟩ := out
      simp only [first] at ran
      cases tail : mutations main (sub + 1) ms (here.foldl write cells) with
      | error e => rw [tail] at ran; cases ran
      | ok out =>
        obtain ⟨results', rest⟩ := out
        simp only [tail, pure, Except.pure, Except.ok.injEq, Prod.mk.injEq] at ran
        obtain ⟨-, rfl⟩ := ran
        obtain ⟨ordered, revs⟩ := mutate_ordered first
        obtain ⟨orderedRest, revsRest⟩ := ih tail
        refine ⟨ordered.append orderedRest fun v hv w hw => ?_, fun w mem => ?_⟩
        · obtain ⟨n, le, rev⟩ := revsRest w hw
          rw [revs v hv, rev]
          exact rev_lt_rev.mpr le
        · rcases List.mem_append.mp mem with hv | hw
          · exact ⟨sub, le_rfl, revs w hv⟩
          · obtain ⟨n, le, rev⟩ := revsRest w hw
            exact ⟨n, Nat.le_of_succ_le le, rev⟩

/-- Where a txn's execution can be: its cells are the start with its writes made, which are in
order and below its next sub-revision. -/
structure Reference.Exec.Sound (env : Env) (exec : Exec) : Prop where
  cells : exec.cells = exec.writes.foldl write env.before
  ordered : Ordered exec.writes
  below : ∀ w ∈ exec.writes, ∃ n < exec.sub, w.rev = ⟨env.main, (n : Nat)⟩

theorem Reference.Exec.Sound.start (env : Env) : (Exec.start env.before).Sound env :=
  ⟨rfl, List.Pairwise.nil, by simp [Exec.start]⟩

mutual

theorem txnOp_sound {env : Env} (op : TxnOp) {exec exec' : Exec} {result : TxnOpResult}
    (ran : txnOp env op exec = .ok (result, exec')) (here : exec.Sound env) :
    exec'.Sound env := by
  match op with
  | .range r =>
    simp only [txnOp, bind, Except.bind] at ran
    split at ran
    · cases ran
    · obtain ⟨-, rfl⟩ := Prod.mk.inj (Except.ok.inj ran)
      exact here
  | .mutation m =>
    simp only [txnOp, bind, Except.bind] at ran
    split at ran
    · cases ran
    · next out mutated =>
      obtain ⟨res, ws⟩ := out
      obtain ⟨-, rfl⟩ := Prod.mk.inj (Except.ok.inj ran)
      obtain ⟨ordered, revs⟩ := mutate_ordered mutated
      refine ⟨?_, here.ordered.append ordered fun v hv w hw => ?_, fun w mem => ?_⟩
      · rw [List.foldl_append, ← here.cells]
      · obtain ⟨n, lt, rev⟩ := here.below v hv
        rw [rev, revs w hw]
        exact rev_lt_rev.mpr lt
      · rcases List.mem_append.mp mem with hv | hw
        · obtain ⟨n, lt, rev⟩ := here.below w hv
          exact ⟨n, Nat.lt_succ_of_lt lt, rev⟩
        · exact ⟨exec.sub, Nat.lt_succ_self _, revs w hw⟩
  | .txn compares success failure =>
    simp only [txnOp, bind, Except.bind] at ran
    cases succeeded : compares.all (holds env.before) with
    | true =>
      simp only [succeeded, if_true] at ran
      split at ran
      · cases ran
      · next out chosen =>
        obtain ⟨-, rfl⟩ := Prod.mk.inj (Except.ok.inj ran)
        exact txnOps_sound success chosen here
    | false =>
      simp only [succeeded, Bool.false_eq_true, if_false] at ran
      split at ran
      · cases ran
      · next out chosen =>
        obtain ⟨-, rfl⟩ := Prod.mk.inj (Except.ok.inj ran)
        exact txnOps_sound failure chosen here

theorem txnOps_sound {env : Env} (ops : List TxnOp) {exec exec' : Exec}
    {results : List TxnOpResult} (ran : txnOps env ops exec = .ok (results, exec'))
    (here : exec.Sound env) : exec'.Sound env := by
  match ops with
  | [] =>
    obtain ⟨-, rfl⟩ := Prod.mk.inj (Except.ok.inj ran)
    exact here
  | op :: ops =>
    simp only [txnOps, bind, Except.bind] at ran
    split at ran
    · cases ran
    · next out first =>
      obtain ⟨result, next⟩ := out
      simp only at ran
      split at ran
      · cases ran
      · next out rest =>
        obtain ⟨results', last⟩ := out
        obtain ⟨-, rfl⟩ := Prod.mk.inj (Except.ok.inj ran)
        exact txnOps_sound ops rest (txnOp_sound op first here)

end

/-! ## Whole txns -/

/-- A whole txn is the nested one from the start, with its result as the store gives it. -/
theorem txn_eq_txnOp (env : Env) (compares : List Compare) (success failure : List TxnOp) :
    (∃ e, txnOp env (.txn compares success failure) (.start env.before) = .error e ∧
      Reference.txn env compares success failure = .error e) ∨
    ∃ succeeded results exec,
      txnOp env (.txn compares success failure) (.start env.before) =
        .ok (.txn succeeded results, exec) ∧
      Reference.txn env compares success failure =
        .ok (⟨succeeded, exec.current env, results⟩, exec.writes) := by
  simp only [txnOp, Reference.txn]
  cases compares.all (holds env.before) with
  | true =>
    simp only [if_true]
    cases txnOps env success (.start env.before) with
    | error e => exact .inl ⟨e, rfl, rfl⟩
    | ok ran => exact .inr ⟨true, ran.1, ran.2, rfl, rfl⟩
  | false =>
    simp only [Bool.false_eq_true, if_false]
    cases txnOps env failure (.start env.before) with
    | error e => exact .inl ⟨e, rfl, rfl⟩
    | ok ran => exact .inr ⟨false, ran.1, ran.2, rfl, rfl⟩

end Fastetcd.Mvcc
