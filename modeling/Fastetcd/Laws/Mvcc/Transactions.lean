import Fastetcd.Laws.Mvcc.Mutations

/-!
# Transactions refine the reference interpreter

A txn runs its op tree into a context. `TxnAt` relates where the code is, a context and a
`TxnExec`, to where the reference interpreter is: the context is the start plus the writes made so
far. Each op keeps the relation and answers the same, and so does the tree, by induction over it.

The relation holds for a txn on its own and for one that shares a context with the requests before
it. Sharing needs the ops to be plain: a nested txn's compares and a Range at a given revision read
the store under the context.
-/

namespace Fastetcd.Mvcc

open Timeline Reference KeyIndex Content Std

/-- Where a txn starts: a context that agrees with the store and holds no write above the revision
the txn starts at. -/
structure TxnStart (s : Store) (state : WriteState) (ctx : ApplyContext) : Prop where
  coherent : Coherent s ctx
  inv : (overlay s ctx).Inv
  cache : CacheOk s
  nonneg : 0 ≤ state.currentRev
  fresh : s.writeState.currentRev ≤ state.currentRev
  settled : ∀ key, ∀ x ∈ (overlay s ctx).life key, x.1.main ≤ state.currentRev

/-- What the reference interpreter is run against on a content at `revs`. -/
def Content.env (C : Content) (revs : Revs) : Env where
  before := C.cells
  past main := C.readAt (Revision.endOf main)
  revs := revs

/-- What the reference interpreter is run against here. -/
def txnEnv (s : Store) (state : WriteState) (ctx : ApplyContext) : Env :=
  (overlay s ctx).env state.revs

/-- The code and the reference interpreter are at the same point of a txn. -/
structure TxnAt (s : Store) (state : WriteState) (start ctx : ApplyContext) (exec : TxnExec)
    (r : Exec) : Prop where
  recorded : Recorded s start r.writes ctx
  cells : r.cells = (overlay s ctx).cells
  main : exec.main = state.currentRev + 1
  sub : exec.sub = r.sub
  produced : exec.producedAny = !r.writes.isEmpty
  revs : ∀ w ∈ r.writes, ∃ n < r.sub, w.rev = ⟨state.currentRev + 1, n⟩

/-- What the two runs answer agrees, and so do the points they reach. -/
def TxnAgrees {α : Type} (s : Store) (state : WriteState) (start : ApplyContext)
    (code : Except MvccError (α × ApplyContext × TxnExec))
    (reference : Except MvccError (α × Exec)) : Prop :=
  (∃ e, reference = .error e ∧ code = .error e) ∨
    ∃ a r ctx exec, reference = .ok (a, r) ∧ code = .ok (a, ctx, exec) ∧
      TxnAt s state start ctx exec r

section Transactions

variable {s : Store} {state : WriteState} {start ctx : ApplyContext} {exec : TxnExec} {r : Exec}

theorem TxnStart.here (ready : TxnStart s state start) :
    TxnAt s state start start ⟨state.currentRev + 1, 0, false⟩ (.start (txnEnv s state start).before) where
  recorded := Recorded.refl ready.coherent
  cells := rfl
  main := rfl
  sub := rfl
  produced := rfl
  revs := by simp [Exec.start]

theorem TxnAt.inv (here : TxnAt s state start ctx exec r) (ready : TxnStart s state start) :
    (overlay s ctx).Inv :=
  here.recorded.inv ready.inv

/-- Every write of the context is below the txn's next revision. -/
theorem TxnAt.below (here : TxnAt s state start ctx exec r) (ready : TxnStart s state start) :
    ∀ key, ∀ x ∈ (overlay s ctx).life key, x.1 < ⟨exec.main, exec.sub⟩ := by
  have settled : ∀ key, ∀ x ∈ (overlay s start).life key, x.1 < ⟨state.currentRev + 1, (0 : Nat)⟩ :=
    fun key x mem => Revision.lt_iff.mpr (.inl (Int.lt_add_one_of_le (ready.settled key x mem)))
  have below := below_writes ready.inv here.recorded.fits settled (Nat.zero_le r.sub) here.revs
  rw [← here.recorded.overlay] at below
  rwa [here.main, here.sub]

/-- A reader at or before the start still sees what it saw there. -/
theorem TxnAt.readAt_past (here : TxnAt s state start ctx exec r) (ready : TxnStart s state start)
    {main : Int} (before : main ≤ state.currentRev) :
    (overlay s ctx).readAt (Revision.endOf main) = (txnEnv s state start).past main := by
  rw [here.recorded.overlay, readAt_writes ready.inv here.recorded.fits]
  · rfl
  · intro w mem
    obtain ⟨n, -, rev⟩ := here.revs w mem
    rw [rev, Revision.endOf_lt]
    exact Int.lt_add_one_of_le before

/-! ## Ranges -/

/-- The revision a successful check reads at. -/
theorem checkReadRev_ok {revs : Revs} {target : Int} {rev : Revision}
    (checked : checkReadRev revs target = .ok rev) :
    rev = Revision.endOf (if target = 0 then revs.current else target) ∧
      (target = 0 ∨ target ≤ revs.current ∨ target < 0) := by
  unfold checkReadRev at checked
  split at checked
  · cases checked
  · split at checked
    · cases checked
    · cases checked
      exact ⟨rfl, by omega⟩

/-- A Range inside a txn. -/
theorem range_agrees (ready : TxnStart s state start) (here : TxnAt s state start ctx exec r)
    (op : RangeOp) (plain : state = s.writeState ∨ op.revision = 0) :
    s.rangeInner s.engine ctx
        ⟨if exec.producedAny then exec.main else state.currentRev, state.compactRev⟩ op =
      Reference.range (txnEnv s state start) r op := by
  have current : (if exec.producedAny then exec.main else state.currentRev) =
      r.current (txnEnv s state start) := by
    rw [here.produced, Exec.current, here.main]
    cases r.writes <;> rfl
  rw [current]
  unfold Reference.range
  have compact : (txnEnv s state start).revs.compact = state.compactRev := rfl
  have started : (txnEnv s state start).revs.current = state.currentRev := rfl
  rw [compact, started]
  cases checked : checkReadRev ⟨r.current (txnEnv s state start), state.compactRev⟩ op.revision with
  | error e => simp [Store.rangeInner, checked, bind, Except.bind]
  | ok readRev =>
    obtain ⟨rfl, target⟩ := checkReadRev_ok checked
    simp only at target checked ⊢
    generalize reading : (if op.revision = 0 then r.current (txnEnv s state start)
      else op.revision) = main at checked ⊢
    have nonneg := ready.nonneg
    have bound : main ≤ state.currentRev + 1 ∧ (main = state.currentRev + 1 → r.writes ≠ []) := by
      have : r.current (txnEnv s state start) =
          if r.writes.isEmpty then state.currentRev else state.currentRev + 1 := rfl
      cases h : r.writes with
      | nil =>
        rw [h] at this
        simp only [List.isEmpty_nil, if_true] at this
        split at reading <;> omega
      | cons =>
        rw [h] at this
        simp only [List.isEmpty_cons, Bool.false_eq_true, if_false] at this
        refine ⟨?_, fun _ => by simp⟩
        split at reading <;> omega
    by_cases now : state.currentRev < main
    · -- The txn's own revision: every write it made, and none later.
      have top : main = state.currentRev + 1 := by omega
      have reach : ∀ key, ∀ x ∈ (overlay s ctx).life key, x.1.main ≤ main := by
        intro key x mem
        rw [top, ← here.main]
        exact Revision.main_le_of_lt (here.below ready key x mem)
      rw [rangeInner_eq here.recorded.coherent (here.inv ready) ready.cache checked (.inr reach),
        Inv.readAt_eq_live fun key x mem => Revision.le_endOf.mpr (reach key x mem)]
      simp [bind, Except.bind, pure, Except.pure, Revision.endOf, now, here.cells]
    · have before : main ≤ state.currentRev := Int.not_lt.mp now
      have reach : main ≤ s.writeState.currentRev ∨
          ∀ key, ∀ x ∈ (overlay s ctx).life key, x.1.main ≤ main := by
        rcases plain with own | latest
        · left
          rw [← own]
          exact before
        · -- The latest revision, with nothing written yet.
          right
          have none : r.writes = [] := by
            by_contra some
            rw [if_pos latest] at reading
            have : r.current (txnEnv s state start) = state.currentRev + 1 := by
              rw [Exec.current, if_neg (by simpa using some)]
              rfl
            omega
          have same : main = state.currentRev := by
            rw [if_pos latest] at reading
            rw [← reading, Exec.current, none]
            rfl
          have untouched : overlay s ctx = overlay s start := by
            rw [here.recorded.overlay, none, writes_nil]
          rw [untouched, same]
          exact ready.settled
      rw [rangeInner_eq here.recorded.coherent (here.inv ready) ready.cache checked reach,
        here.readAt_past ready before]
      simp [bind, Except.bind, pure, Except.pure, Revision.endOf, now]

/-- A mutation inside a txn. -/
theorem mutation_agrees (ready : TxnStart s state start) (here : TxnAt s state start ctx exec r)
    (m : Mutation) :
    TxnAgrees s state start (s.txnOp s.engine state (.mutation m) ctx exec)
      (Reference.txnOp (txnEnv s state start) (.mutation m) r) := by
  have fresh : s.writeState.currentRev < exec.main := by
    have := ready.fresh
    rw [here.main]
    omega
  have rev : (⟨(txnEnv s state start).main, r.sub⟩ : Revision) = ⟨exec.main, exec.sub⟩ := by
    rw [here.main, here.sub]
    rfl
  simp only [Store.txnOp, Reference.txnOp, rev, here.cells]
  rcases applyOne_spec here.recorded.coherent (here.inv ready) ready.cache fresh
      (here.below ready) m with
    ⟨e, refused, applied⟩ | ⟨result, ws, next, mutated, applied, recorded, revs⟩
  · exact .inl ⟨e, by simp only [refused, bind, Except.bind], by simp only [applied]⟩
  · refine .inr ⟨.mutation result, ⟨ws.foldl Reference.write (overlay s ctx).cells, r.sub + 1,
      r.writes ++ ws⟩, next, ⟨exec.main, exec.sub + 1, exec.producedAny || !ws.isEmpty⟩, ?_, ?_, ?_⟩
    · simp only [mutated, bind, Except.bind, pure, Except.pure]
    · simp only [applied]
    · refine ⟨here.recorded.trans recorded, (recorded.cells (here.inv ready)).symm, here.main, ?_, ?_, ?_⟩
      · rw [here.sub]
      · rw [here.produced]
        cases r.writes <;> simp
      · intro w mem
        rcases List.mem_append.mp mem with before | new
        · obtain ⟨n, lt, rev⟩ := here.revs w before
          exact ⟨n, Nat.lt_succ_of_lt lt, rev⟩
        · exact ⟨r.sub, Nat.lt_succ_self _, by rw [revs w new, here.main, here.sub]⟩

/-! ## The op tree -/

/-- What the ops may be: anything for a txn on its own, plain ops for one that shares a context. -/
def Admitted (s : Store) (state : WriteState) (start : ApplyContext) (ops : List TxnOp) : Prop :=
  (state = s.writeState ∧ start = {}) ∨ ops.all TxnOp.isPlain

mutual

theorem txnOp_agrees (ready : TxnStart s state start) (op : TxnOp)
    (admitted : Admitted s state start [op]) {ctx : ApplyContext} {exec : TxnExec} {r : Exec}
    (here : TxnAt s state start ctx exec r) :
    TxnAgrees s state start (s.txnOp s.engine state op ctx exec)
      (Reference.txnOp (txnEnv s state start) op r) := by
  match op with
  | .range op =>
    have plain : state = s.writeState ∨ op.revision = 0 :=
      admitted.imp And.left fun h => by simpa [TxnOp.isPlain] using h
    have same := range_agrees ready here op plain
    simp only [Store.txnOp, Reference.txnOp, same]
    cases Reference.range (txnEnv s state start) r op with
    | error e => exact .inl ⟨e, rfl, rfl⟩
    | ok result => exact .inr ⟨_, _, _, _, rfl, rfl, here⟩
  | .mutation m => exact mutation_agrees ready here m
  | .txn compares success failure =>
    -- Only a txn on its own has a nested one; its context is the store's.
    have own : state = s.writeState ∧ start = {} :=
      admitted.resolve_right (by simp [TxnOp.isPlain])
    have decided : s.evaluateCompares s.engine {} compares =
        .ok (compares.all (holds (txnEnv s state start).before)) := by
      rw [← own.2]
      exact evaluateCompares_eq ready.coherent ready.inv ready.cache compares
    simp only [Store.txnOp, Reference.txnOp, decided, bind, Except.bind]
    cases compares.all (holds (txnEnv s state start).before) with
    | true =>
      simp only [if_true]
      rcases txnOps_agrees ready success (.inl own) here with
        ⟨e, refused, stopped⟩ | ⟨results, r', ctx', exec', ran, applied, there⟩
      · exact .inl ⟨e, by rw [refused], by rw [stopped]⟩
      · exact .inr ⟨.txn true results, r', ctx', exec', by rw [ran]; rfl, by rw [applied]; rfl, there⟩
    | false =>
      simp only [Bool.false_eq_true, if_false]
      rcases txnOps_agrees ready failure (.inl own) here with
        ⟨e, refused, stopped⟩ | ⟨results, r', ctx', exec', ran, applied, there⟩
      · exact .inl ⟨e, by rw [refused], by rw [stopped]⟩
      · exact .inr ⟨.txn false results, r', ctx', exec', by rw [ran]; rfl, by rw [applied]; rfl, there⟩

theorem txnOps_agrees (ready : TxnStart s state start) (ops : List TxnOp)
    (admitted : Admitted s state start ops) {ctx : ApplyContext} {exec : TxnExec} {r : Exec}
    (here : TxnAt s state start ctx exec r) :
    TxnAgrees s state start (s.txnOps s.engine state ops ctx exec)
      (Reference.txnOps (txnEnv s state start) ops r) := by
  match ops with
  | [] => exact .inr ⟨[], r, ctx, exec, rfl, rfl, here⟩
  | op :: ops =>
    have first : Admitted s state start [op] := admitted.imp_right fun plain => by
      rw [List.all_cons, Bool.and_eq_true] at plain
      simp [plain.1]
    have rest : Admitted s state start ops := admitted.imp_right fun plain => by
      rw [List.all_cons, Bool.and_eq_true] at plain
      exact plain.2
    simp only [Store.txnOps, Reference.txnOps]
    rcases txnOp_agrees ready op first here with
      ⟨e, refused, stopped⟩ | ⟨result, r', ctx', exec', ran, applied, there⟩
    · exact .inl ⟨e, by rw [refused]; rfl, by rw [stopped]; rfl⟩
    · rcases txnOps_agrees ready ops rest there with
        ⟨e, refused, stopped⟩ | ⟨results, r'', ctx'', exec'', ran', applied', last⟩
      · exact .inl ⟨e, by simp only [ran, refused, bind, Except.bind],
          by simp only [applied, stopped, bind, Except.bind]⟩
      · exact .inr ⟨result :: results, r'', ctx'', exec'',
          by simp only [ran, ran', bind, Except.bind, pure, Except.pure],
          by simp only [applied, applied', bind, Except.bind, pure, Except.pure], last⟩

end

end Transactions

end Fastetcd.Mvcc
