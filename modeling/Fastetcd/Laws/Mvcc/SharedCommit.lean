import Fastetcd.Laws.Mvcc.Requests
import Fastetcd.Mvcc.Run

/-!
# Requests that share a commit

`applyMany` runs its requests over one context and commits once. `Sharing` relates where it is to
the store that has applied the same requests one by one: the context holds every write that store
has committed, at the same revisions, and its marks cut the pending events into the batches that
store has broadcast. One request keeps the relation and is answered the same, so a list of them
does.

A refused put must leave the context as it was, and a txn must read nothing below the context:
that is what the admission of a request is for.
-/

namespace Fastetcd.Mvcc

open Timeline Reference KeyIndex Content Std

/-! ## Events and marks -/

/-- The marks of a context whose pending events are those of `batches`. -/
def marksOf : Nat → List EventBatch → List (Int × Nat)
  | _, [] => []
  | start, b :: batches =>
    (b.revision, start + b.events.length) :: marksOf (start + b.events.length) batches

theorem marksOf_append (batches : List EventBatch) (b : EventBatch) (start : Nat) :
    marksOf start (batches ++ [b]) = marksOf start batches ++
      [(b.revision, start + (batches.flatMap EventBatch.events).length + b.events.length)] := by
  induction batches generalizing start with
  | nil => simp [marksOf]
  | cons first batches ih => simp [marksOf, ih, Nat.add_assoc]

/-- Cutting the events at the marks gives the batches back. -/
theorem splitMarks_marksOf {batches : List EventBatch} (told : ∀ b ∈ batches, b.events ≠ [])
    (start : Nat) :
    splitMarks (batches.flatMap EventBatch.events) start (marksOf start batches) = batches := by
  induction batches generalizing start with
  | nil => rfl
  | cons b batches ih =>
    have first : b.events ≠ [] := told b (by simp)
    simp [marksOf, splitMarks, first, ih fun b mem => told b (by simp [mem])]

/-! ## The shared context -/

/-- `applyMany` on `s` is at `ctx` and `state` where the store that serves its requests one by one
is at `t`, which has committed `ws` and broadcast `batches` since `s`. -/
structure Sharing (s : Store) (ctx : ApplyContext) (state : WriteState) (t : Store)
    (ws : List Write) (batches : List EventBatch) : Prop where
  staged : Staged s ws ctx
  revs : ∀ w ∈ ws, s.writeState.currentRev < w.rev.main ∧ w.rev.main ≤ state.currentRev
  moved : state.currentRev = s.writeState.currentRev + batches.length
  numbered : OnePerRevision s.writeState.currentRev batches
  counters : state = { s.writeState with currentRev := state.currentRev }
  writes : batches.flatMap EventBatch.events = ws.map Write.event
  events : ctx.pendingEvents = ws.map Write.event
  marks : ctx.eventMarks = marksOf 0 batches
  told : ∀ b ∈ batches, b.events ≠ []
  inv : t.Inv
  content : t.content = s.content.writes ws
  state : t.writeState = state
  broadcast : t.broadcast = s.broadcast ++ batches

section Sharing

variable {s t : Store} {ctx : ApplyContext} {state : WriteState} {ws : List Write}
  {batches : List EventBatch}

theorem Sharing.start (inv : s.Inv) : Sharing s {} s.writeState s [] [] :=
  ⟨Staged.empty s, by simp, by simp, rfl, rfl, rfl, rfl, rfl, by simp, inv, rfl, rfl, by simp⟩

theorem Sharing.advance (here : Sharing s ctx state t ws batches) :
    s.writeState.currentRev ≤ state.currentRev := by
  rw [here.moved]
  omega

/-- A txn over the shared context starts where one on `t` does. -/
theorem Sharing.txnStart (here : Sharing s ctx state t ws batches) (inv : s.Inv) :
    TxnStart s state ctx where
  coherent := here.staged.coherent
  inv := here.staged.inv inv.content
  cache := inv.cache
  nonneg := here.state ▸ here.inv.txnStart.nonneg
  fresh := here.advance
  settled key x mem := by
    rw [here.staged.overlay, ← here.content] at mem
    exact here.state ▸ (here.inv.settled key x mem).2

theorem Sharing.env (here : Sharing s ctx state t ws batches) : txnEnv s state ctx = t.env := by
  rw [txnEnv, here.staged.overlay, ← here.content, ← here.state, Store.env]

/-- A request that wrote: its writes join the context, and `t` commits them. -/
theorem Sharing.wrote (here : Sharing s ctx state t ws batches) {new : List Write}
    {ctx' own : ApplyContext} (some : new ≠ []) (recorded : Recorded s ctx new ctx')
    (ownRecorded : Recorded t {} new own)
    (revs : ∀ w ∈ new, ∃ n : Nat, w.rev = ⟨state.currentRev + 1, n⟩) :
    Sharing s (ctx'.mark (state.currentRev + 1))
      { state with currentRev := state.currentRev + 1 } (t.committed (state.currentRev + 1) own)
      (ws ++ new) (batches ++ [⟨state.currentRev + 1, new.map Write.event⟩]) := by
  have advance := here.advance
  obtain rfl := here.state
  have after := committed_recorded here.inv some ownRecorded
  have events : ctx'.pendingEvents = (ws ++ new).map Write.event := by
    rw [recorded.events, here.events, List.map_append]
  have newer : ∀ w ∈ new, w.rev.main = t.writeState.currentRev + 1 := fun w mem => by
    obtain ⟨n, rev⟩ := revs w mem
    rw [rev]
  refine ⟨(here.staged.trans recorded).mark _, fun w mem => ?_, ?_, ?_, by rw [here.counters], ?_,
    events, ?_, fun b mem => ?_, ?_, ?_, rfl, ?_⟩
  · rcases List.mem_append.mp mem with old | new
    · exact ⟨(here.revs w old).1, Int.le_add_one (here.revs w old).2⟩
    · rw [newer w new]
      exact ⟨Int.lt_add_one_of_le advance, le_rfl⟩
  · simp [here.moved, Int.add_assoc]
  · have numbered := here.numbered
    rw [OnePerRevision] at numbered ⊢
    simp [numbered, here.moved, List.range_succ, Int.add_right_comm]
  · simp [here.writes]
  · change ctx'.eventMarks ++ [(t.writeState.currentRev + 1, ctx'.pendingEvents.length)] = _
    rw [recorded.marks, here.marks, events, marksOf_append, here.writes]
    simp
  · rcases List.mem_append.mp mem with old | new
    · exact here.told b old
    · rw [List.mem_singleton.mp new]
      simpa using some
  · exact here.inv.committed ownRecorded.staged
      (fun w mem => by rw [newer w mem]; exact ⟨Int.lt_add_one_of_le le_rfl, le_rfl⟩)
      (Int.le_add_one le_rfl)
  · rw [after.1, here.content, writes_append]
  · rw [after.2, here.broadcast, List.append_assoc]

/-- Where `applyMany` is after a request with these writes. -/
def afterRequest (ctx : ApplyContext) (state : WriteState) (new : List Write) :
    ApplyContext × WriteState :=
  if new.isEmpty then (ctx, state)
  else (ctx.mark (state.currentRev + 1), { state with currentRev := state.currentRev + 1 })

/-- A request that both sides answer with the writes `new` keeps them related. -/
theorem Sharing.served (here : Sharing s ctx state t ws batches) {α : Type} {a : α}
    {new : List Write} {ctx' : ApplyContext} {result : Except MvccError α × Store}
    (recorded : Recorded s ctx new ctx')
    (revs : ∀ w ∈ new, ∃ n : Nat, w.rev = ⟨state.currentRev + 1, n⟩)
    (served : Served t true (.ok (a, new)) result) :
    ∃ t' ws' batches', result = (.ok a, t') ∧
      Sharing s (afterRequest ctx' state new).1 (afterRequest ctx' state new).2 t' ws' batches' := by
  cases served with
  | failed ok => cases ok
  | idle =>
    refine ⟨t, ws ++ [], batches, rfl, here.staged.trans recorded, ?_, here.moved, here.numbered,
      here.counters, ?_, ?_, recorded.marks.trans here.marks, here.told, here.inv, ?_, here.state, here.broadcast⟩
    · simpa [afterRequest] using here.revs
    · simpa using here.writes
    · simpa [afterRequest, recorded.events] using here.events
    · simpa using here.content
  | wrote _ some own =>
    rw [afterRequest, if_neg (by simpa using some), here.state]
    exact ⟨_, _, _, rfl, here.wrote some recorded own revs⟩

/-! ## What admission is for -/

/-- Only a lone put that keeps something of its key's record is refused. -/
theorem mutations_refused {main : Int} {ms : List Mutation} {cells : Cells} {e : MvccError}
    (admitted : (ApplyItem.mutations ms).admitted = true)
    (refused : mutations main 0 ms cells = .error e) :
    ms.length = 1 ∧ e = .refused .keyNotFound := by
  simp only [ApplyItem.admitted, ApplyItem.ofMutations, Option.isSome_ite] at admitted
  have lone : ms.length = 1 := by
    by_contra many
    have plain : ms.any ignoresPrev = false := by simpa [many] using admitted
    obtain ⟨results, new, ok⟩ := mutations_ok main plain 0 cells
    rw [ok] at refused
    cases refused
  refine ⟨lone, ?_⟩
  obtain ⟨m, rfl⟩ := List.length_eq_one_iff.mp lone
  cases m with
  | deleteRange => cases refused
  | put key value lease ignoreValue ignoreLease prevKv =>
    by_cases absent : ((ignoreValue || ignoreLease) && (liveRow cells key).isNone) = true
    · simpa [mutations, mutate, absent, bind, Except.bind, eq_comm] using refused
    · simp [mutations, mutate, absent, bind, Except.bind, pure, Except.pure] at refused

/-! ## One request, then a list -/

/-- A mutation list over the shared context is answered as `t` answers it. -/
theorem applyItem_mutations (inv : s.Inv) (here : Sharing s ctx state t ws batches)
    {ms : List Mutation} (admitted : (ApplyItem.mutations ms).admitted = true) :
    ∃ outcome ctx' state' t' ws' batches',
      s.applyItem s.engine ctx state (.mutations ms) = .ok (outcome, ctx', state') ∧
        t.serve (.mutations ms) = (.ok outcome, t') ∧ Sharing s ctx' state' t' ws' batches' := by
  have start := here.txnStart inv
  have current : t.view.current = state.currentRev :=
    (congrArg Revs.current here.inv.view).trans (by rw [here.state]; rfl)
  by_cases empty : ms = []
  · subst empty
    exact ⟨_, _, _, _, _, _, rfl, by simp [Store.serve, Store.apply, answered, current], here⟩
  have nonempty : ms.isEmpty = false := by simpa using empty
  have below : ∀ key, ∀ x ∈ (overlay s ctx).life key,
      x.1 < ⟨state.currentRev + 1, (0 : Nat)⟩ := fun key x mem =>
    Revision.lt_iff.mpr (.inl (Int.lt_add_one_of_le (start.settled key x mem)))
  have served := apply_served here.inv ms true
  have reference : Reference.apply t.env ms =
      (mutations (state.currentRev + 1) 0 ms (overlay s ctx).cells).bind fun a =>
        .ok ((state.currentRev + 1, a.1), a.2) := by
    rw [Reference.apply, if_neg (by simpa using empty), ← here.env]
    rfl
  simp only [Store.applyItem, Store.serve, nonempty, Bool.false_eq_true, if_false,
    Store.applyInner]
  rcases applyMutations_spec start.cache (Int.lt_add_one_of_le here.advance) ms start.coherent
      start.inv below with
    ⟨e, ctx', refused, stopped, kept⟩ | ⟨results, new, ctx', mutated, applied, recorded, revs⟩
  · -- A lone put leaves the context as it was.
    obtain ⟨one, rfl⟩ := mutations_refused admitted refused
    obtain rfl := kept one
    rw [reference, refused] at served
    rw [stopped]
    generalize t.apply ms true = result at served
    cases served
    exact ⟨_, _, _, _, _, _, rfl, by simp [answered, MvccError.refusal, current], here⟩
  · rw [reference, mutated] at served
    obtain ⟨t', ws', batches', result, next⟩ := here.served recorded
      (fun w mem => (revs w mem).imp fun _ => And.right) served
    refine ⟨_, _, _, t', ws', batches', ?_, by rw [result]; rfl, next⟩
    rw [applied]
    cases new <;> rfl

/-- A txn over the shared context is answered as `t` answers it. -/
theorem applyItem_txn (inv : s.Inv) (here : Sharing s ctx state t ws batches)
    {compares : List Compare} {success failure : List TxnOp}
    (admitted : (ApplyItem.txn compares success failure).admitted = true) :
    ∃ outcome ctx' state' t' ws' batches',
      s.applyItem s.engine ctx state (.txn compares success failure) =
          .ok (outcome, ctx', state') ∧
        t.serve (.txn compares success failure) = (.ok outcome, t') ∧
          Sharing s ctx' state' t' ws' batches' := by
  have start := here.txnStart inv
  simp only [ApplyItem.admitted, ApplyItem.ofTxn, Option.isSome_ite, Bool.and_eq_true] at admitted
  have decided := evaluateCompares_eq start.coherent start.inv start.cache compares
  have before : (overlay s ctx).cells = t.env.before := by rw [← here.env]; rfl
  rw [before] at decided
  have served := txn_served here.inv compares success failure true
  simp only [Store.applyItem, Store.serve, decided, bind, Except.bind]
  have plain : (if compares.all (holds t.env.before) then success else failure).all
      TxnOp.isPlain = true := by
    split
    · exact admitted.1
    · exact admitted.2
  have run := txnOps_agrees start (if compares.all (holds t.env.before) then success else failure)
    (.inr plain) start.here
  obtain ⟨results, exec, ok⟩ := txnOps_ok t.env plain (.start t.env.before)
  rw [here.env, ok] at run
  obtain ⟨e, refused, -⟩ | ⟨results', r, ctx', exec', ran, applied, there⟩ := run
  · cases refused
  obtain ⟨rfl, rfl⟩ := Prod.mk.inj (Except.ok.inj ran)
  simp only [Reference.txn, bind, Except.bind, ok, pure, Except.pure] at served
  obtain ⟨t', ws', batches', result, next⟩ := here.served there.recorded
    (fun w mem => (there.revs w mem).imp fun _ => And.right) served
  refine ⟨.txn ⟨compares.all (holds t.env.before), exec.current t.env, results⟩, _, _, t', ws',
    batches', ?_, by rw [result]; rfl, next⟩
  have main : t.env.main = state.currentRev + 1 := by rw [← here.env]; rfl
  have current : t.env.revs.current = state.currentRev := by rw [← here.env]; rfl
  rw [applied]
  simp only [there.produced, there.main, Exec.current, main, current, afterRequest]
  cases exec.writes <;> rfl

theorem applyItem_shares (inv : s.Inv) (here : Sharing s ctx state t ws batches)
    {item : ApplyItem} (admitted : item.admitted = true) :
    ∃ outcome ctx' state' t' ws' batches',
      s.applyItem s.engine ctx state item = .ok (outcome, ctx', state') ∧
        t.serve item = (.ok outcome, t') ∧ Sharing s ctx' state' t' ws' batches' := by
  cases item with
  | mutations => exact applyItem_mutations inv here admitted
  | txn => exact applyItem_txn inv here admitted

theorem applyItems_shares (inv : s.Inv) {items : List ApplyItem}
    (admitted : ∀ item ∈ items, item.admitted = true) :
    ∀ {ctx state t ws batches}, Sharing s ctx state t ws batches →
      ∃ outcomes ctx' state' t' ws' batches',
        s.applyItems s.engine items ctx state = .ok (outcomes, ctx', state') ∧
          t.serveAll items = (.ok outcomes, t') ∧ Sharing s ctx' state' t' ws' batches' := by
  induction items with
  | nil => exact fun here => ⟨[], _, _, _, _, _, rfl, rfl, here⟩
  | cons item items ih =>
    intro ctx state t ws batches here
    obtain ⟨outcome, ctx', state', t', ws', batches', applied, served, next⟩ :=
      applyItem_shares inv here (admitted item (by simp))
    obtain ⟨outcomes, ctx'', state'', t'', ws'', batches'', appliedRest, servedRest, last⟩ :=
      ih (fun item mem => admitted item (by simp [mem])) next
    refine ⟨outcome :: outcomes, ctx'', state'', t'', ws'', batches'', ?_, ?_, last⟩
    · simp only [Store.applyItems, applied, appliedRest, bind, Except.bind, pure, Except.pure]
    · simp only [Store.serveAll, served, servedRest]

/-! ## The shared commit -/

/-- What `applyMany` commits is what the requests commit one by one. -/
theorem Sharing.committed (here : Sharing s ctx state t ws batches) (inv : s.Inv) :
    let m := if state.currentRev != s.writeState.currentRev then s.committed state.currentRev ctx
      else s
    m.Inv ∧ m.content = t.content ∧ m.writeState = t.writeState ∧ m.broadcast = t.broadcast := by
  simp only [bne_iff_ne, ne_eq, ite_not, here.content, here.broadcast, here.state]
  split
  · next same =>
    -- No revision was taken, so nothing was written and nothing was told.
    have none : ws = [] := List.eq_nil_iff_forall_not_mem.mpr fun w mem => by
      have := here.revs w mem
      omega
    have silent : batches = [] := by
      have writes := here.writes
      cases batches with
      | nil => rfl
      | cons b batches =>
        have := here.told b (by simp)
        simp [none, this] at writes
    subst none silent
    exact ⟨inv, rfl, by rw [here.counters, same], by simp⟩
  · next moved =>
    refine ⟨inv.committed here.staged here.revs here.advance,
      here.staged.content_committed inv.content, here.counters.symm, ?_⟩
    have pending : ctx.pendingEvents = batches.flatMap EventBatch.events :=
      here.events.trans here.writes.symm
    have cut := splitMarks_marksOf here.told 0
    rw [← pending, ← here.marks] at cut
    have marks := here.marks
    cases batches with
    | nil => simp [Store.committed, ApplyContext.eventBatches, marks, marksOf, pending]
    | cons b batches =>
      have marked : ctx.eventMarks.isEmpty = false := by simp [marks, marksOf]
      simp [Store.committed, ApplyContext.eventBatches, marked, cut]

end Sharing

/-- A shared commit answers and leaves what the requests one by one do. -/
theorem applyMany_serveAll {s : Store} (inv : s.Inv) {items : List ApplyItem}
    (admitted : ∀ item ∈ items, item.admitted = true) :
    ∃ outcomes m t, s.applyMany items true = (.ok outcomes, m) ∧
      s.serveAll items = (.ok outcomes, t) ∧ m.Inv ∧ t.Inv ∧ m.content = t.content ∧
        m.writeState = t.writeState ∧ m.broadcast = t.broadcast ∧
        ∃ batches, m.broadcast = s.broadcast ++ batches ∧
          OnePerRevision s.writeState.currentRev batches ∧
          m.writeState.currentRev = s.writeState.currentRev + batches.length := by
  obtain ⟨outcomes, ctx, state, t, ws, batches, applied, served, here⟩ :=
    applyItems_shares inv admitted (Sharing.start inv)
  obtain ⟨invM, content, counters, broadcast⟩ := here.committed inv
  refine ⟨outcomes, _, t, ?_, served, invM, here.inv, content, counters, broadcast, batches,
    broadcast.trans here.broadcast, here.numbered, by rw [counters, here.state, here.moved]⟩
  simp only [Store.applyMany, applied, commitCtx_ok]
  split <;> rfl

end Fastetcd.Mvcc
