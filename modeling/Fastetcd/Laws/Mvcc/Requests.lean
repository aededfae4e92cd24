import Fastetcd.Laws.Mvcc.Commit

/-!
# Whole requests

What a request does to the store is decided by the reference interpreter's answer (`Served`): a
refusal changes nothing, an answer with no writes changes nothing, and an answer with writes is one
commit of them at the next revision. `apply` and `txn` are served so, and a txn's responses and
final state are therefore the reference interpreter's.
-/

namespace Fastetcd.Mvcc

open Timeline Reference KeyIndex Content Std

/-- What the reference interpreter is run against for the store's next request. -/
def Store.env (s : Store) : Env := s.content.env s.writeState.revs

theorem Store.Inv.txnStart {s : Store} (inv : s.Inv) : TxnStart s s.writeState {} where
  coherent := Coherent.empty s
  inv := by simpa using inv.content
  cache := inv.cache
  nonneg := inv.compact.1.trans inv.compact.2
  fresh := le_rfl
  settled key x mem := (inv.settled key x (by simpa using mem)).2

theorem txnEnv_empty (s : Store) : txnEnv s s.writeState {} = s.env := by
  rw [txnEnv, overlay_empty, Store.env]

/-- What serving a request does, by the reference interpreter's answer to it. -/
inductive Served {α : Type} (s : Store) (engineOk : Bool) :
    Except MvccError (α × List Write) → Except MvccError α × Store → Prop
  | refused (e : MvccError) : Served s engineOk (.error e) (.error e, s)
  | idle (a : α) : Served s engineOk (.ok (a, [])) (.ok a, s)
  | wrote {a : α} {ws : List Write} {ctx : ApplyContext} (ok : engineOk = true) (some : ws ≠ [])
      (recorded : Recorded s {} ws ctx)
      (revs : ∀ w ∈ ws, ∃ n : Nat, w.rev = ⟨s.writeState.currentRev + 1, n⟩) :
      Served s engineOk (.ok (a, ws)) (.ok a, s.committed (s.writeState.currentRev + 1) ctx)
  | failed {a : α} {ws : List Write} (failed : engineOk = false) (some : ws ≠ []) :
      Served s engineOk (.ok (a, ws)) (.error .storage, { s with pendingRaftMeta := [] })

section Served

variable {s : Store} {α : Type} {engineOk : Bool} {ws : List Write} {ctx : ApplyContext}

/-- A context with writes is committed, or the engine fails. -/
theorem Served.commit (a : α) (some : ws ≠ []) (recorded : Recorded s {} ws ctx)
    (revs : ∀ w ∈ ws, ∃ n : Nat, w.rev = ⟨s.writeState.currentRev + 1, n⟩) :
    Served s engineOk (.ok (a, ws))
      (match s.commitCtx (s.writeState.currentRev + 1) ctx engineOk with
        | (.error e, s) => (.error e, s)
        | (.ok (), s) => (.ok a, s)) := by
  cases engineOk with
  | true =>
    rw [commitCtx_ok]
    exact .wrote rfl some recorded revs
  | false =>
    rw [commitCtx_failed]
    exact .failed rfl some

/-- The commit of a served request leaves its writes, its revision and one batch of events. -/
theorem committed_recorded (inv : s.Inv) (some : ws ≠ []) (recorded : Recorded s {} ws ctx) :
    let t := s.committed (s.writeState.currentRev + 1) ctx
    t.content = s.content.writes ws ∧
      t.broadcast = s.broadcast ++ [⟨s.writeState.currentRev + 1, ws.map Write.event⟩] := by
  refine ⟨recorded.staged.content_committed inv.content, ?_⟩
  have events : ctx.pendingEvents = ws.map Write.event := recorded.events
  have marks : ctx.eventMarks = [] := recorded.marks
  simp [Store.committed, ApplyContext.eventBatches, events, marks, some]

/-- What a request is answered: the reference interpreter's answer, unless there is something to
write and the engine fails. -/
theorem Served.answer {reference : Except MvccError (α × List Write)}
    {served : Except MvccError α × Store} (h : Served s engineOk reference served) :
    served.1 = reference.bind fun out =>
      if out.2.isEmpty || engineOk then .ok out.1 else .error .storage := by
  cases h with
  | refused | idle => rfl
  | wrote ok => simp [Except.bind, ok]
  | failed failed some => simp [Except.bind, failed, some]

/-- Serving a request keeps the invariant. -/
theorem Served.inv {reference : Except MvccError (α × List Write)}
    {served : Except MvccError α × Store} (h : Served s engineOk reference served) (inv : s.Inv) :
    served.2.Inv := by
  cases h with
  | refused | idle => exact inv
  | failed => exact ⟨inv.content, inv.idx, inv.settled, inv.view, inv.stored, inv.compact,
      inv.floor, inv.values⟩
  | wrote _ _ recorded revs =>
    refine inv.committed recorded.staged (fun w mem => ?_) (Int.le_add_one le_rfl)
    obtain ⟨n, rev⟩ := revs w mem
    simp [rev]

end Served

/-! ## Mutation lists -/

/-- A mutation list as the reference interpreter answers it. -/
def Reference.apply (env : Env) (ms : List Mutation) :
    Except MvccError ((Int × List MutationResult) × List Write) :=
  if ms.isEmpty then .ok ((env.revs.current, []), [])
  else do
    let (results, ws) ← mutations env.main 0 ms env.before
    return ((env.main, results), ws)

theorem apply_served {s : Store} (inv : s.Inv) (ms : List Mutation) (engineOk : Bool) :
    Served s engineOk (Reference.apply s.env ms) (s.apply ms engineOk) := by
  have current : s.view.current = s.writeState.currentRev := congrArg Revs.current inv.view
  have start := inv.txnStart
  simp only [Store.apply, Reference.apply]
  split
  · rw [current]
    exact .idle _
  · have below : ∀ key, ∀ x ∈ (overlay s {}).life key,
        x.1 < ⟨s.writeState.currentRev + 1, (0 : Nat)⟩ := fun key x mem =>
      Revision.lt_iff.mpr (.inl (Int.lt_add_one_of_le (start.settled key x mem)))
    have before : s.env.before = (overlay s {}).cells := by rw [overlay_empty]; rfl
    have main : s.env.main = s.writeState.currentRev + 1 := rfl
    simp only [Store.applyInner, before, main]
    rcases applyMutations_spec inv.cache (Int.lt_add_one_of_le le_rfl) ms start.coherent start.inv
        below with
      ⟨e, ctx, refused, stopped, -⟩ | ⟨results, ws, ctx, mutated, applied, recorded, revs⟩
    · simp only [refused, stopped, bind, Except.bind]
      exact .refused e
    · simp only [mutated, applied, bind, Except.bind, pure, Except.pure]
      have revs : ∀ w ∈ ws, ∃ n : Nat, w.rev = ⟨s.writeState.currentRev + 1, n⟩ := fun w mem =>
        (revs w mem).imp fun _ => And.right
      by_cases none : ws = []
      · subst none
        exact .idle _
      · rw [if_pos (by simpa using none)]
        exact Served.commit _ none recorded revs

/-! ## Transactions -/

/-- The branch a txn takes is that of the reference interpreter. -/
theorem evaluateCompares_before {s : Store} (inv : s.Inv) (compares : List Compare) :
    s.evaluateCompares s.engine {} compares = .ok (compares.all (holds s.env.before)) := by
  have start := inv.txnStart
  rw [evaluateCompares_eq start.coherent start.inv start.cache, overlay_empty]
  rfl

theorem txn_served {s : Store} (inv : s.Inv) (compares : List Compare)
    (success failure : List TxnOp) (engineOk : Bool) :
    Served s engineOk (Reference.txn s.env compares success failure)
      (s.txn compares success failure engineOk) := by
  have start := inv.txnStart
  have decided := evaluateCompares_before inv compares
  have run := txnOps_agrees start
    (if compares.all (holds s.env.before) then success else failure) (.inl ⟨rfl, rfl⟩) start.here
  rw [txnEnv_empty] at run
  simp only [Store.txn, Reference.txn, decided, bind, Except.bind]
  rcases run with ⟨e, refused, stopped⟩ | ⟨results, r, ctx, exec, ran, applied, there⟩
  · rw [refused, stopped]
    exact .refused e
  · rw [ran, applied]
    have revs : ∀ w ∈ r.writes, ∃ n : Nat, w.rev = ⟨s.writeState.currentRev + 1, n⟩ :=
      fun w mem => (there.revs w mem).imp fun _ => And.right
    have main : s.env.main = s.writeState.currentRev + 1 := rfl
    simp only [there.produced, there.main, pure, Except.pure, Exec.current, main]
    have recorded := there.recorded
    cases writes : r.writes with
    | nil => exact .idle _
    | cons w ws =>
      rw [writes] at recorded revs
      simp only [List.isEmpty_cons, Bool.not_false, if_true, Bool.false_eq_true, if_false]
      exact Served.commit _ (List.cons_ne_nil w ws) recorded revs

end Fastetcd.Mvcc
