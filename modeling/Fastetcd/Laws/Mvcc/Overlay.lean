import Fastetcd.Laws.Mvcc.Content

/-!
# An apply context is an overlay

A store and the context of an apply in progress stand for the content that a commit of the context
would leave (`overlay`). `Coherent` says how the context's caches hold it: an index the context
holds is the overlay's, the record it holds of such a key is the newest one, and what it has not
touched is the engine's. Recording a write in the context is writing it to the overlay
(`overlay_record`), and reading through the context is reading the overlay.
-/

namespace Fastetcd.Mvcc

open Timeline Reference KeyIndex Content Std

/-- What the store's own tables and index hold. -/
def Store.content (s : Store) : Content := ⟨s.engine.kv, s.index, s.engine.leaseKeys⟩

/-- What a commit of `ctx` would leave. -/
def overlay (s : Store) (ctx : ApplyContext) : Content where
  kv := (s.engine.commit ctx.batch).kv
  index := s.index.overwrite ctx.idxCache KeyIndex.generations
  leaseKeys := (s.engine.commit ctx.batch).leaseKeys

/-- A value-cache entry is the record its revision has in the engine, if it has one. -/
def CacheOk (s : Store) : Prop :=
  ∀ {key rev rec}, s.values[key]? = some (rev, rec) →
    ∀ {rec'}, s.engine.kv[KvKey.mk key rev]? = some rec' → rec' = rec

structure Coherent (s : Store) (ctx : ApplyContext) : Prop where
  footprint : s.engine.commit ctx.batch =
    { s.engine with kv := (overlay s ctx).kv, leaseKeys := (overlay s ctx).leaseKeys }
  idxKey : ∀ {key : Bytes} {idx : KeyIndex}, ctx.idxCache[key]? = some idx → idx.key = key
  cached : ∀ key : Bytes, ctx.latestRecordCache[key]? = none ↔ ctx.idxCache[key]? = none
  newest : ∀ {key : Bytes} {rec : KvRecord}, ctx.latestRecordCache[key]? = some rec →
    ∃ rev, ((overlay s ctx).life key).getLast? = some (rev, rec.deleted) ∧
      (overlay s ctx).kv[KvKey.mk key rev]? = some rec
  untouched : ∀ {key : Bytes} {rev : Revision}, ctx.idxCache[key]? = none ∨ rev.main ≤ s.writeState.currentRev →
    (overlay s ctx).kv[KvKey.mk key rev]? = s.engine.kv[KvKey.mk key rev]?

@[simp]
theorem overlay_empty (s : Store) : overlay s {} = s.content := by
  have index : s.index.overwrite (∅ : Table Bytes KeyIndex) KeyIndex.generations = s.index :=
    ExtTreeMap.ext_getElem? fun key => by simp
  simp [overlay, Store.content, index]

theorem Coherent.empty (s : Store) : Coherent s {} where
  footprint := by simp [Store.content]
  idxKey h := by simp at h
  cached := by simp
  newest h := by simp at h
  untouched _ := by simp [Store.content]

theorem gens_overlay (s : Store) (ctx : ApplyContext) (key : Bytes) :
    (overlay s ctx).gens key =
      match ctx.idxCache[key]? with
      | some idx => idx.generations
      | none => s.index[key]?.getD [] := by
  simp only [gens, overlay, Table.getElem?_overwrite]
  cases ctx.idxCache[key]? <;> rfl

/-! ## Recording a write -/

/-- The context after a write: what `applyPut` and `deleteKey` leave. -/
def ApplyContext.record (ctx : ApplyContext) (gens : List Generation) (w : Write) : ApplyContext :=
  { ctx with
    batch := ctx.batch ++ .putKv ⟨w.event.kv.key, w.rev⟩ w.event.kv ::
      leaseMoves w.event.kv.key (oldLease w.event) w.event.kv.lease
    idxCache := ctx.idxCache.insert w.event.kv.key ⟨w.event.kv.key, gens⟩
    latestRecordCache := ctx.latestRecordCache.insert w.event.kv.key w.event.kv
    pendingEvents := ctx.pendingEvents ++ [w.event] }

theorem commit_leaseMoves (t : Tables) (key : Bytes) (old new : LeaseId) :
    t.commit (leaseMoves key old new) =
      { t with leaseKeys := moveLease t.leaseKeys key old new } := by
  unfold leaseMoves moveLease
  by_cases same : old = new
  · simp [same]
  · have moves : (old != new) = true := by simpa using same
    rw [if_pos moves, if_neg same]
    by_cases detach : old = 0 <;> by_cases attach : new = 0 <;>
      simp [detach, attach, Tables.apply]

section Record

variable {s : Store} {ctx : ApplyContext} {w : Write}

theorem commit_record (gens : List Generation) :
    s.engine.commit (ctx.record gens w).batch =
      let t := s.engine.commit ctx.batch
      { t with
        kv := t.kv.insert ⟨w.event.kv.key, w.rev⟩ w.event.kv
        leaseKeys := moveLease t.leaseKeys w.event.kv.key (oldLease w.event) w.event.kv.lease } := by
  simp only [ApplyContext.record, Tables.commit_append, Tables.commit_cons, Tables.apply,
    commit_leaseMoves]

/-- Recording a write in the context is writing it to the overlay. -/
theorem overlay_record :
    overlay s (ctx.record
        (writeGens ((overlay s ctx).gens w.event.kv.key) w.rev w.event.kind) w) =
      (overlay s ctx).write w := by
  have index : (overlay s (ctx.record
      (writeGens ((overlay s ctx).gens w.event.kv.key) w.rev w.event.kind) w)).index =
        ((overlay s ctx).write w).index := by
    refine ExtTreeMap.ext_getElem? fun key => ?_
    simp only [overlay, ApplyContext.record, Content.write, Table.getElem?_overwrite,
      ExtTreeMap.getElem?_insert, LawfulEqCmp.compare_eq_iff_eq]
    split <;> rfl
  rw [overlay, Content.mk.injEq]
  refine ⟨?_, index, ?_⟩
  · rw [commit_record]; rfl
  · rw [commit_record]; rfl

theorem Coherent.record (coherent : Coherent s ctx) (inv : (overlay s ctx).Inv)
    (fits : (overlay s ctx).Fits w) (later : s.writeState.currentRev < w.rev.main) :
    Coherent s (ctx.record
      (writeGens ((overlay s ctx).gens w.event.kv.key) w.rev w.event.kind) w) where
  footprint := by
    rw [overlay_record, commit_record, coherent.footprint]
    rfl
  idxKey {key idx} found := by
    simp only [ApplyContext.record, ExtTreeMap.getElem?_insert, LawfulEqCmp.compare_eq_iff_eq]
      at found
    split at found
    · next same => rw [← Option.some.inj found, same]
    · exact coherent.idxKey found
  cached key := by
    simp only [ApplyContext.record, ExtTreeMap.getElem?_insert, LawfulEqCmp.compare_eq_iff_eq]
    split
    · simp
    · exact coherent.cached key
  newest {key rec} found := by
    rw [overlay_record, life_write inv fits]
    simp only [getElem?_kv_write]
    simp only [ApplyContext.record, ExtTreeMap.getElem?_insert, LawfulEqCmp.compare_eq_iff_eq]
      at found
    by_cases same : w.event.kv.key = key
    · rw [if_pos same] at found ⊢
      obtain rfl := Option.some.inj found
      exact ⟨w.rev, by simp, by simp [same]⟩
    · rw [if_neg same] at found ⊢
      obtain ⟨rev, last, stored⟩ := coherent.newest found
      exact ⟨rev, last, by simp [same, stored]⟩
  untouched {key rev} h := by
    rw [overlay_record, getElem?_kv_write, if_neg]
    · refine coherent.untouched (h.imp_left fun h => ?_)
      simp only [ApplyContext.record, ExtTreeMap.getElem?_insert, LawfulEqCmp.compare_eq_iff_eq]
        at h
      split at h
      · cases h
      · exact h
    · rintro ⟨rfl, rfl⟩
      rcases h with h | h
      · simp [ApplyContext.record] at h
      · omega

end Record

/-! ## Reading through the context -/

section Read

variable {s : Store} {ctx : ApplyContext}

/-- Taking an index out gives the overlay's; putting it back unchanged restores the context, and
putting any other in its place is as if it had never been taken. -/
theorem takeIndex_spec (coherent : Coherent s ctx) (key : Bytes) :
    ∃ fromCtx cache, s.takeIndex ctx key =
        (⟨key, (overlay s ctx).gens key⟩, fromCtx, { ctx with idxCache := cache }) ∧
      (∀ idx, cache.insert key idx = ctx.idxCache.insert key idx) ∧
      restoreIndex { ctx with idxCache := cache } ⟨key, (overlay s ctx).gens key⟩ fromCtx = ctx := by
  rw [gens_overlay]
  unfold Store.takeIndex
  cases held : ctx.idxCache[key]? with
  | none =>
    refine ⟨false, ctx.idxCache, ?_, fun _ => rfl, rfl⟩
    cases resident : s.index[key]? <;> simp [indexGet, KeyIndex.new, resident]
  | some idx =>
    have own : idx = ⟨key, idx.generations⟩ := by rw [← coherent.idxKey held]
    refine ⟨true, ctx.idxCache.erase key, ?_, fun idx' => ?_, ?_⟩
    · simp only [← own]
    · refine ExtTreeMap.ext_getElem? fun k => ?_
      simp only [ExtTreeMap.getElem?_insert, ExtTreeMap.getElem?_erase]
      split <;> rfl
    · have back : (ctx.idxCache.erase key).insert key ⟨key, idx.generations⟩ = ctx.idxCache := by
        rw [← own]
        refine ExtTreeMap.ext_getElem? fun k => ?_
        simp only [ExtTreeMap.getElem?_insert, ExtTreeMap.getElem?_erase,
          LawfulEqCmp.compare_eq_iff_eq]
        split
        · next same => rw [← same, held]
        · rfl
      simp [restoreIndex, back]

theorem slot_of_valueGet {values : ValueCache} {key : Bytes} {rev : Revision} {rec : KvRecord}
    (hit : valueGet values key rev = some rec) : values[key]? = some (rev, rec) := by
  unfold valueGet at hit
  split at hit
  · next held =>
    obtain ⟨rfl, same⟩ := Option.ite_none_right_eq_some.mp hit
    rw [held, Option.some.inj same]
  · cases hit

theorem valueGet_eq {key : Bytes} {rev : Revision} {rec : KvRecord} (cache : CacheOk s)
    (stored : s.engine.kv[KvKey.mk key rev]? = some rec) :
    valueGet s.values key rev = none ∨ valueGet s.values key rev = some rec := by
  cases hit : valueGet s.values key rev with
  | none => exact .inl rfl
  | some found =>
    have same := cache (slot_of_valueGet hit) stored
    exact .inr (by rw [same])

/-- The record a mutation replaces is the live row of its key. -/
theorem latestRecordIn_spec (coherent : Coherent s ctx) (inv : (overlay s ctx).Inv)
    (cache : CacheOk s) (key : Bytes) :
    (if KeyIndex.isLive ⟨key, (overlay s ctx).gens key⟩ then
        s.latestRecordIn s.engine ctx key ⟨key, (overlay s ctx).gens key⟩ else none) =
      (liveRow (overlay s ctx).cells key).map Row.record := by
  have nonempty := (inv.wellFormed_gens key).nonempty
  have current : (KeyIndex.current ⟨key, (overlay s ctx).gens key⟩).map Prod.fst =
      live ((overlay s ctx).life key) := by
    rw [current_map_fst, currentOf_eq_live nonempty, life]
  rw [isLive_eq nonempty, currentOf_eq_live nonempty, ← life]
  cases isLive : live ((overlay s ctx).life key) with
  | none => simp [inv.liveRow_eq_none.mpr isLive]
  | some rev =>
    obtain ⟨rec, found, flag, row⟩ := inv.liveRow_of_live isLive
    rw [isLive] at current
    obtain ⟨⟨rev', puts⟩, named, same⟩ := Option.map_eq_some_iff.mp current
    obtain rfl : rev' = rev := same
    simp only [Option.isSome_some, if_true, row, Option.map_some, Store.latestRecordIn]
    cases held : ctx.latestRecordCache[key]? with
    | some rec' =>
      -- The context holds the newest record, which is the one at the live revision.
      obtain ⟨newest, last, stored⟩ := coherent.newest held
      have same : newest = rev' ∧ rec'.deleted = false := by
        rw [put?_eq_some.mp isLive] at last
        simpa using (Prod.mk.inj (Option.some.inj last)).imp Eq.symm Eq.symm
      obtain ⟨rfl, undeleted⟩ := same
      rw [stored] at found
      obtain rfl := Option.some.inj found
      simp [KvRecord.isTombstone, undeleted]
    | none =>
      rw [coherent.untouched (.inl ((coherent.cached key).mp held))] at found
      simp only [Store.latestRecord, named]
      rcases valueGet_eq cache found with miss | hit
      · simp [miss, found, KvRecord.isTombstone, flag]
      · simp [hit]

end Read

end Fastetcd.Mvcc
