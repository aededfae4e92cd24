import Fastetcd.Laws.Mvcc.OverlayReads

/-!
# Mutations and transactions refine the reference interpreter

Running a mutation into a context answers what the reference interpreter answers on the overlay's
cells, and records exactly the writes it makes (`Recorded`). A refused put leaves the context as it
was. The same holds of a list of mutations and of the op tree of a txn, by induction over the list
and over the tree.
-/

namespace Fastetcd.Mvcc

open Timeline Reference KeyIndex Content Std

/-- `ctx'` is `ctx` after the writes `ws`. -/
structure Recorded (s : Store) (ctx : ApplyContext) (ws : List Write) (ctx' : ApplyContext) :
    Prop where
  overlay : overlay s ctx' = (overlay s ctx).writes ws
  fits : (Mvcc.overlay s ctx).FitsAll ws
  coherent : Coherent s ctx'
  events : ctx'.pendingEvents = ctx.pendingEvents ++ ws.map Write.event
  marks : ctx'.eventMarks = ctx.eventMarks

section Mutations

variable {s : Store} {ctx ctx' ctx'' : ApplyContext}

theorem Recorded.refl (coherent : Coherent s ctx) : Recorded s ctx [] ctx :=
  ⟨rfl, trivial, coherent, by simp, rfl⟩

theorem Recorded.trans {ws ws' : List Write} (first : Recorded s ctx ws ctx')
    (second : Recorded s ctx' ws' ctx'') : Recorded s ctx (ws ++ ws') ctx'' where
  overlay := by rw [second.overlay, first.overlay, writes_append]
  fits := fitsAll_append.mpr ⟨first.fits, first.overlay ▸ second.fits⟩
  coherent := second.coherent
  events := by rw [second.events, first.events]; simp
  marks := second.marks.trans first.marks

theorem Recorded.inv {ws : List Write} (recorded : Recorded s ctx ws ctx')
    (inv : (Mvcc.overlay s ctx).Inv) : (Mvcc.overlay s ctx').Inv :=
  recorded.overlay ▸ inv.writes recorded.fits

theorem Recorded.cells {ws : List Write} (recorded : Recorded s ctx ws ctx')
    (inv : (Mvcc.overlay s ctx).Inv) :
    (Mvcc.overlay s ctx').cells = ws.foldl Reference.write (Mvcc.overlay s ctx).cells := by
  rw [recorded.overlay, cells_writes inv recorded.fits]

theorem Recorded.single (coherent : Coherent s ctx) (inv : (Mvcc.overlay s ctx).Inv) {w : Write}
    (fits : (Mvcc.overlay s ctx).Fits w) (later : s.writeState.currentRev < w.rev.main) :
    Recorded s ctx [w] (ctx.record
      (writeGens ((Mvcc.overlay s ctx).gens w.event.kv.key) w.rev w.event.kind) w) where
  overlay := overlay_record
  fits := ⟨fits, trivial⟩
  coherent := coherent.record inv fits later
  events := rfl
  marks := rfl

theorem fits_putWrite {C : Content} {rev : Revision} {key : Bytes}
    (later : ∀ w ∈ C.life key, w.1 < rev) (value : Bytes) (lease : LeaseId)
    (ignoreValue ignoreLease : Bool) :
    C.Fits (putWrite (liveRow C.cells key) rev key value lease ignoreValue ignoreLease) where
  later := later
  modRevision := rfl
  deleted := rfl
  prev := rfl
  create _ := rfl
  version _ := rfl
  live h := nomatch h

theorem fits_deleteWrite {C : Content} {rev : Revision} {live : Bytes × Row}
    (later : ∀ w ∈ C.life live.1, w.1 < rev) (row : liveRow C.cells live.1 = some live.2) :
    C.Fits (deleteWrite rev live) where
  later := later
  modRevision := rfl
  deleted := rfl
  prev := by
    change some live.2.record = (liveRow C.cells live.1).map Row.record
    rw [row]
    rfl
  create h := nomatch h
  version h := nomatch h
  live _ := ⟨Option.isSome_iff_exists.mpr ⟨live.2, row⟩, rfl⟩

/-! ## One mutation -/

/-- A put answers the reference's result; refused, it leaves the context as it was. -/
theorem applyPut_eq (coherent : Coherent s ctx) (inv : (overlay s ctx).Inv) (cache : CacheOk s)
    (rev : Revision) (key value : Bytes) (lease : LeaseId)
    (ignoreValue ignoreLease prevKv : Bool) :
    s.applyPut s.engine ctx rev key value lease ignoreValue ignoreLease prevKv =
      let prev := liveRow (overlay s ctx).cells key
      if (ignoreValue || ignoreLease) && prev.isNone then (.error (.refused .keyNotFound), ctx)
      else
        (.ok (⟨1, if prevKv then (prev.map Row.record).toList else []⟩, true),
          ctx.record (writeGens ((overlay s ctx).gens key) rev .put)
            (putWrite prev rev key value lease ignoreValue ignoreLease)) := by
  obtain ⟨fromCtx, held, taken, inserted, restored⟩ := takeIndex_spec coherent key
  have prev : (if KeyIndex.isLive ⟨key, (overlay s ctx).gens key⟩ then
      s.latestRecordIn s.engine { ctx with idxCache := held } key
        ⟨key, (overlay s ctx).gens key⟩ else none) = _ :=
    latestRecordIn_spec coherent inv cache key
  have version := inv.putsAfter_liveRow key
  have created := inv.openCreated_liveRow key rev
  simp only [Store.applyPut, taken, prev, restored, recordPut_eq, inserted, Option.isNone_map,
    ApplyContext.record, putWrite, putRecord, oldLease, Option.map_map]
  split
  · rfl
  · simp only [created, version, Nat.cast_add, Nat.cast_one, Function.comp_def]

/-- Deleting one live key records the reference's write. -/
theorem deleteKey_eq (coherent : Coherent s ctx) (inv : (overlay s ctx).Inv) (cache : CacheOk s)
    (rev : Revision) (prevKv : Bool) (result : MutationResult) {live : Bytes × Row}
    (row : liveRow (overlay s ctx).cells live.1 = some live.2) :
    s.deleteKey s.engine rev prevKv (result, ctx) live.1 =
      (⟨result.n + 1, result.prevKvs ++ if prevKv then [live.2.record] else []⟩,
        ctx.record (writeGens ((overlay s ctx).gens live.1) rev .delete) (deleteWrite rev live)) := by
  obtain ⟨key, live⟩ := live
  obtain ⟨fromCtx, held, taken, inserted, restored⟩ := takeIndex_spec coherent key
  have prev : (if KeyIndex.isLive ⟨key, (overlay s ctx).gens key⟩ then
      s.latestRecordIn s.engine { ctx with idxCache := held } key
        ⟨key, (overlay s ctx).gens key⟩ else none) = _ :=
    latestRecordIn_spec coherent inv cache key
  have isLive : KeyIndex.isLive ⟨key, (overlay s ctx).gens key⟩ = true := by
    rw [isLive_overlay inv, row]
    rfl
  have detach : (if live.record.lease != 0 then
      [BatchOp.deleteLeaseKey (leaseKeyIndex live.record.lease key)] else []) =
        leaseMoves key live.record.lease 0 := by
    by_cases zero : live.record.lease = 0 <;> simp [leaseMoves, zero]
  rw [row, if_pos isLive] at prev
  simp only [Store.deleteKey, taken, isLive, if_true, prev, recordDelete_eq, inserted,
    Option.map_some, detach, ApplyContext.record, deleteWrite, oldLease, Option.getD_some,
    tombstoneRecord, Option.toList_some]

/-- The loop of a range delete records one write per key. -/
theorem foldl_deleteKey (cache : CacheOk s) {rev : Revision}
    (fresh : s.writeState.currentRev < rev.main) (prevKv : Bool) (gone : List (Bytes × Row)) :
    ∀ {ctx : ApplyContext} (result : MutationResult), Coherent s ctx → (overlay s ctx).Inv →
      (gone.map Prod.fst).Nodup →
      (∀ live ∈ gone, liveRow (overlay s ctx).cells live.1 = some live.2 ∧
        ∀ w ∈ (overlay s ctx).life live.1, w.1 < rev) →
      ∃ ctx', (gone.map Prod.fst).foldl (s.deleteKey s.engine rev prevKv) (result, ctx) =
          (⟨result.n + gone.length,
            result.prevKvs ++ if prevKv then gone.map (·.2.record) else []⟩, ctx') ∧
        Recorded s ctx (gone.map (deleteWrite rev)) ctx' := by
  induction gone with
  | nil =>
    intro ctx result coherent _ _ _
    exact ⟨ctx, by cases prevKv <;> simp, Recorded.refl coherent⟩
  | cons live gone ih =>
    intro ctx result coherent inv distinct rows
    obtain ⟨row, later⟩ := rows live (by simp)
    obtain ⟨other, distinct⟩ := List.nodup_cons.mp distinct
    have fits := fits_deleteWrite later row
    obtain ⟨next, step, first⟩ : ∃ next, s.deleteKey s.engine rev prevKv (result, ctx) live.1 =
        (⟨result.n + 1, result.prevKvs ++ if prevKv then [live.2.record] else []⟩, next) ∧
          Recorded s ctx [deleteWrite rev live] next :=
      ⟨_, deleteKey_eq coherent inv cache rev prevKv result row,
        Recorded.single coherent inv fits fresh⟩
    -- The keys still to delete are others, so this delete leaves their rows and writes.
    have rest : ∀ live' ∈ gone, liveRow (overlay s next).cells live'.1 = some live'.2 ∧
        ∀ w ∈ (overlay s next).life live'.1, w.1 < rev := by
      intro live' mem
      have ne : (deleteWrite rev live).event.kv.key ≠ live'.1 := fun same =>
        other (List.mem_map.mpr ⟨live', mem, same.symm⟩)
      have after : overlay s next = (overlay s ctx).write (deleteWrite rev live) := first.overlay
      rw [after, liveRow_write inv fits, if_neg ne, life_write inv fits, if_neg ne]
      exact rows live' (by simp [mem])
    obtain ⟨ctx', folded, recorded⟩ := ih
      ⟨result.n + 1, result.prevKvs ++ if prevKv then [live.2.record] else []⟩ first.coherent
      (first.inv inv) distinct rest
    refine ⟨ctx', ?_, first.trans recorded⟩
    rw [List.map_cons, List.foldl_cons, step, folded]
    cases prevKv <;> simp <;> omega

/-- One mutation: the reference's answer and its writes, or its refusal with nothing changed. -/
theorem applyOne_spec (coherent : Coherent s ctx) (inv : (overlay s ctx).Inv) (cache : CacheOk s)
    {rev : Revision} (fresh : s.writeState.currentRev < rev.main)
    (later : ∀ key, ∀ w ∈ (overlay s ctx).life key, w.1 < rev) (m : Mutation) :
    (∃ e, mutate (overlay s ctx).cells rev m = .error e ∧
      s.applyOne s.engine ctx rev m = (.error e, ctx)) ∨
    ∃ result ws ctx', mutate (overlay s ctx).cells rev m = .ok (result, ws) ∧
      s.applyOne s.engine ctx rev m = (.ok (result, !ws.isEmpty), ctx') ∧
      Recorded s ctx ws ctx' ∧ ∀ w ∈ ws, w.rev = rev := by
  cases m with
  | put key value lease ignoreValue ignoreLease prevKv =>
    simp only [Store.applyOne, mutate, applyPut_eq coherent inv cache]
    split
    · exact .inl ⟨_, rfl, rfl⟩
    · exact .inr ⟨_, _, _, rfl, rfl, Recorded.single coherent inv
        (fits_putWrite (later key) value lease ignoreValue ignoreLease) fresh, by simp [putWrite]⟩
  | deleteRange key rangeEnd prevKv =>
    right
    have sorted := (liveRows (overlay s ctx).cells).scan_ascending (inRange · key rangeEnd)
    obtain ⟨ctx', folded, recorded⟩ := foldl_deleteKey cache fresh prevKv
      ((liveRows (overlay s ctx).cells).scan (inRange · key rangeEnd)) ⟨0, []⟩ coherent inv
      sorted.nodup_keys fun live mem =>
        ⟨getElem?_liveRows _ _ ▸ (Table.mem_scan.mp mem).1, later live.1⟩
    refine ⟨_, _, ctx', rfl, ?_, recorded, fun w mem => ?_⟩
    swap
    · obtain ⟨live, -, rfl⟩ := List.mem_map.mp mem
      rfl
    simp only [Store.applyOne, liveKeysInRange_eq inv, folded]
    cases (liveRows (overlay s ctx).cells).scan (inRange · key rangeEnd) <;> simp

/-! ## Several mutations -/

/-- The writes of a run so far are below its next revision. -/
theorem below_writes {C : Content} (inv : C.Inv) {ws : List Write} (fits : C.FitsAll ws)
    {main : Int} {sub : Nat} (settled : ∀ key, ∀ x ∈ C.life key, x.1 < ⟨main, sub⟩) {next : Nat}
    (advance : sub ≤ next) (revs : ∀ w ∈ ws, ∃ n < next, w.rev = ⟨main, n⟩) :
    ∀ key, ∀ x ∈ (C.writes ws).life key, x.1 < ⟨main, next⟩ := by
  intro key x mem
  rcases (mem_life_writes inv fits).mp mem with old | ⟨w, new, -, rfl⟩
  · rcases advance.eq_or_lt with rfl | lt
    · exact settled key x old
    · exact (settled key x old).trans (rev_lt_rev.mpr lt)
  · obtain ⟨n, lt, rev⟩ := revs w new
    rw [rev]
    exact rev_lt_rev.mpr lt

/-- A list of mutations: the reference's results and writes, or its refusal. Only the first
mutation's refusal leaves the context as it was. -/
theorem applyMutations_spec (cache : CacheOk s) {main : Int}
    (fresh : s.writeState.currentRev < main) (ms : List Mutation) :
    ∀ {ctx : ApplyContext} {sub : Nat}, Coherent s ctx → (overlay s ctx).Inv →
      (∀ key, ∀ x ∈ (overlay s ctx).life key, x.1 < ⟨main, sub⟩) →
      (∃ e ctx', mutations main sub ms (overlay s ctx).cells = .error e ∧
        s.applyMutations s.engine main sub ms ctx = (.error e, ctx') ∧
        (ms.length = 1 → ctx' = ctx)) ∨
      ∃ results ws ctx', mutations main sub ms (overlay s ctx).cells = .ok (results, ws) ∧
        s.applyMutations s.engine main sub ms ctx = (.ok (results, !ws.isEmpty), ctx') ∧
        Recorded s ctx ws ctx' ∧ ∀ w ∈ ws, ∃ n < sub + ms.length, w.rev = ⟨main, n⟩ := by
  induction ms with
  | nil =>
    intro ctx sub coherent _ _
    exact .inr ⟨[], [], ctx, rfl, rfl, Recorded.refl coherent, by simp⟩
  | cons m ms ih =>
    intro ctx sub coherent inv below
    rcases applyOne_spec coherent inv cache fresh below m with
      ⟨e, refused, applied⟩ | ⟨result, ws, next, mutated, applied, recorded, revs⟩
    · exact .inl ⟨e, ctx, by simp only [mutations, refused, bind, Except.bind],
        by simp only [Store.applyMutations, applied], fun _ => rfl⟩
    · have below' := below_writes inv recorded.fits below (Nat.le_succ sub) fun w mem =>
        ⟨sub, Nat.lt_succ_self sub, revs w mem⟩
      rw [← recorded.overlay] at below'
      rcases ih recorded.coherent (recorded.inv inv) below' with
        ⟨e, last, refused, stopped, -⟩ | ⟨results, rest, last, mutatedRest, appliedRest, more, revs'⟩
      · rw [recorded.cells inv] at refused
        refine .inl ⟨e, last, by simp only [mutations, mutated, refused, bind, Except.bind],
          by simp only [Store.applyMutations, applied, stopped], fun one => ?_⟩
        -- A second mutation was reached, so there was more than one.
        have none : ms = [] := by simpa using one
        subst none
        cases refused
      · rw [recorded.cells inv] at mutatedRest
        refine .inr ⟨result :: results, ws ++ rest, last, ?_, ?_, recorded.trans more, ?_⟩
        · simp only [mutations, mutated, mutatedRest, bind, Except.bind, pure, Except.pure]
        · simp only [Store.applyMutations, applied, appliedRest]
          cases ws <;> simp
        · intro w mem
          rcases List.mem_append.mp mem with first | later
          · exact ⟨sub, by simp, revs w first⟩
          · obtain ⟨n, lt, rev⟩ := revs' w later
            exact ⟨n, by rw [List.length_cons]; omega, rev⟩

end Mutations

end Fastetcd.Mvcc
