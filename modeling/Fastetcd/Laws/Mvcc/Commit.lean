import Fastetcd.Laws.Mvcc.Transactions
import Fastetcd.Mvcc.Maintenance

/-!
# Commits keep the store's invariant

`Store.Inv` is what holds of a store between operations: the tables agree with each other
(`Content.Inv`), the resident index is `mvcc_idx` decoded, the revisions in memory are those in
`mvcc_meta`, no record is above the current revision, what is left below the compaction floor is
what a reader at the floor sees, and a value-cache entry is the record of its revision.

A commit of a context leaves the overlay's content, and with it the invariant.
-/

namespace Fastetcd.Mvcc

open Timeline Reference KeyIndex Content Std

/-- What holds of a store between operations. -/
structure Store.Inv (s : Store) : Prop where
  content : s.content.Inv
  idx : ∀ key : Bytes, s.engine.idx[key]? = s.index[key]?.map (KeyIndex.mk key)
  settled : ∀ key, ∀ x ∈ s.content.life key,
    1 ≤ x.1.main ∧ x.1.main ≤ s.writeState.currentRev
  view : s.view.revs = s.writeState.revs
  stored : s.engine.metaRows.currentRev.getD 0 = s.writeState.currentRev ∧
    s.engine.metaRows.compactRev.getD 0 = s.writeState.compactRev
  compact : 0 ≤ s.writeState.compactRev ∧ s.writeState.compactRev ≤ s.writeState.currentRev
  floor : ∀ key, ∀ x ∈ s.content.life key, x.1.main ≤ s.writeState.compactRev →
    liveAt (s.content.life key) (Revision.endOf s.writeState.compactRev) = some x.1
  values : ∀ {key : Bytes} {rev rec}, s.values[key]? = some (rev, rec) →
    rev.main ≤ s.writeState.currentRev ∧
      ∀ {rec'}, s.engine.kv[KvKey.mk key rev]? = some rec' → rec' = rec

theorem Store.Inv.cache {s : Store} (inv : s.Inv) : CacheOk s :=
  fun held _ stored => (inv.values held).2 stored

/-! ## What a commit writes -/

theorem commit_putIdx (t : Tables) (rows : List (Bytes × KeyIndex)) :
    t.commit (rows.map fun row => .putIdx row.1 row.2) =
      { t with idx := rows.foldl (fun idx row => idx.insert row.1 row.2) t.idx } := by
  induction rows generalizing t with
  | nil => rfl
  | cons row rows ih => simp [Tables.apply, ih]

/-- The staged raft rows go to their own part of `mvcc_meta`. -/
theorem commit_raftRows (t : Tables) (rows : List RaftRow) :
    t.commit (rows.map (.putMeta ∘ .raft)) =
      { t with metaRows := { t.metaRows with raft := rows.foldl RaftTable.put t.metaRows.raft } } := by
  induction rows generalizing t with
  | nil => rfl
  | cons row rows ih => simp [Tables.apply, MetaTable.put, ih]

/-- The tables a commit of `ctx` leaves. -/
def committedTables (s : Store) (newRev : Int) (ctx : ApplyContext) : Tables :=
  let t := s.engine.commit ctx.batch
  { t with
    idx := t.idx.overwrite ctx.idxCache id
    metaRows := { t.metaRows with
      currentRev := some newRev
      raft := s.pendingRaftMeta.foldl RaftTable.put t.metaRows.raft } }

theorem commit_commitBatch (s : Store) (newRev : Int) (ctx : ApplyContext) :
    s.engine.commit (ctx.commitBatch newRev ++ s.pendingRaftMeta.map (.putMeta ∘ .raft)) =
      committedTables s newRev ctx := by
  simp only [ApplyContext.commitBatch, Tables.commit_append, commit_putIdx, commit_raftRows]
  rfl

/-- The store a commit of `ctx` leaves. -/
def Store.committed (s : Store) (newRev : Int) (ctx : ApplyContext) : Store :=
  { s with
    engine := committedTables s newRev ctx
    commits := s.commits ++ [committedTables s newRev ctx]
    values := ctx.cacheValues s.values
    index := ctx.setIndex s.index
    view := ⟨newRev, s.writeState.compactRev, s.view.engineCommits + 1, s.view.published + 1⟩
    writeState := { s.writeState with currentRev := newRev }
    pendingRaftMeta := []
    broadcast := s.broadcast ++ ctx.eventBatches newRev }

theorem commitCtx_ok (s : Store) (newRev : Int) (ctx : ApplyContext) :
    s.commitCtx newRev ctx true = (.ok (), s.committed newRev ctx) := by
  simp only [Store.commitCtx, Store.foldRaftMeta, Store.tryCommit, if_true, Store.engineCommit,
    commit_commitBatch]
  rfl

theorem commitCtx_failed (s : Store) (newRev : Int) (ctx : ApplyContext) :
    s.commitCtx newRev ctx false = (.error .storage, { s with pendingRaftMeta := [] }) :=
  rfl

theorem getElem?_indexSet (index : ResidentIndex) (key : Bytes) (gens : List Generation)
    (k : Bytes) :
    (indexSet index key gens)[k]? =
      if key = k then (if gens.isEmpty then none else some gens) else index[k]? := by
  unfold indexSet
  split <;> simp [ExtTreeMap.getElem?_insert, ExtTreeMap.getElem?_erase]

theorem setIndex_eq {ctx : ApplyContext} (index : ResidentIndex)
    (nonempty : ∀ {key : Bytes} {idx}, ctx.idxCache[key]? = some idx → idx.generations ≠ []) :
    ctx.setIndex index = index.overwrite ctx.idxCache KeyIndex.generations := by
  refine ExtTreeMap.ext_getElem? fun key => ?_
  rw [ApplyContext.setIndex,
    Table.getElem?_foldl fun t row => getElem?_indexSet t row.1 row.2.generations,
    Table.getElem?_overwrite]
  cases held : ctx.idxCache[key]? with
  | none => rfl
  | some idx => simp [nonempty held]

theorem getElem?_cacheValue (ctx : ApplyContext) (values : ValueCache) (row : Bytes × KvRecord)
    (key : Bytes) :
    (ctx.cacheValue values row)[key]? =
      if row.1 = key then
        (ctx.idxCache[row.1]?.bind KeyIndex.current).bind fun current =>
          if row.2.isTombstone then none else some (current.1, row.2)
      else values[key]? := by
  unfold ApplyContext.cacheValue
  cases ctx.idxCache[row.1]?.bind KeyIndex.current with
  | none => simp [ExtTreeMap.getElem?_erase]
  | some current =>
    cases row.2.isTombstone with
    | true => simp [ExtTreeMap.getElem?_erase]
    | false =>
      simp only [Bool.not_false, if_true, valueInsert, Bool.false_and, Bool.false_eq_true, if_false,
        Option.bind_some]
      cases values[row.1]? <;> simp [ExtTreeMap.getElem?_insert]

theorem getElem?_cacheValues (ctx : ApplyContext) (values : ValueCache) (key : Bytes) :
    (ctx.cacheValues values)[key]? =
      match ctx.latestRecordCache[key]? with
      | none => values[key]?
      | some record =>
        (ctx.idxCache[key]?.bind KeyIndex.current).bind fun current =>
          if record.isTombstone then none else some (current.1, record) := by
  rw [ApplyContext.cacheValues, Table.getElem?_foldl (getElem?_cacheValue ctx)]
  cases ctx.latestRecordCache[key]? <;> rfl

/-- A slot of the cache after an insert was there or is the inserted one. -/
theorem slot_of_valueInsert {values : ValueCache} {key k : Bytes} {rev : Revision} {rec : KvRecord}
    {onlyIfNewer : Bool} {slot : Revision × KvRecord}
    (held : (valueInsert values key rev rec onlyIfNewer)[k]? = some slot) :
    values[k]? = some slot ∨ key = k ∧ (rev, rec) = slot := by
  have inserted : values[k]? = some slot ∨ (values.insert key (rev, rec))[k]? = some slot := by
    unfold valueInsert at held
    split at held
    · split at held
      · exact .inl held
      · exact .inr held
    · exact .inr held
  rcases inserted with old | new
  · exact .inl old
  · rw [ExtTreeMap.getElem?_insert] at new
    split at new
    · next same => exact .inr ⟨LawfulEqCmp.compare_eq_iff_eq.mp same, Option.some.inj new⟩
    · exact .inl new

/-! ## What a context has staged -/

/-- `ctx` holds the writes `ws` on top of the store. -/
structure Staged (s : Store) (ws : List Write) (ctx : ApplyContext) : Prop where
  overlay : overlay s ctx = s.content.writes ws
  fits : s.content.FitsAll ws
  coherent : Coherent s ctx

section Committed

variable {s : Store} {ctx : ApplyContext} {ws : List Write} {newRev : Int}

theorem Staged.empty (s : Store) : Staged s [] {} :=
  ⟨overlay_empty s, trivial, Coherent.empty s⟩

theorem Staged.trans (staged : Staged s ws ctx) {ctx' : ApplyContext} {ws' : List Write}
    (recorded : Recorded s ctx ws' ctx') : Staged s (ws ++ ws') ctx' where
  overlay := by rw [recorded.overlay, staged.overlay, writes_append]
  fits := fitsAll_append.mpr ⟨staged.fits, staged.overlay ▸ recorded.fits⟩
  coherent := recorded.coherent

theorem Recorded.staged (recorded : Recorded s {} ws ctx) : Staged s ws ctx :=
  (Staged.empty s).trans recorded

/-- Marking where a request's events end changes nothing else. -/
theorem Staged.mark (staged : Staged s ws ctx) (revision : Int) : Staged s ws (ctx.mark revision) :=
  ⟨staged.overlay, staged.fits, ⟨staged.coherent.footprint, staged.coherent.idxKey,
    staged.coherent.cached, staged.coherent.newest, staged.coherent.untouched⟩⟩

theorem Staged.inv (staged : Staged s ws ctx) (inv : s.content.Inv) : (Mvcc.overlay s ctx).Inv :=
  staged.overlay ▸ inv.writes staged.fits

/-- An index the context holds has generations. -/
theorem nonempty_of_held (inv : (overlay s ctx).Inv) {key : Bytes} {idx : KeyIndex}
    (held : ctx.idxCache[key]? = some idx) : idx.generations ≠ [] := by
  have known : (overlay s ctx).index[key]? = some idx.generations := by
    rw [index_overlay, held]
    rfl
  exact (inv.wellFormed known).1

/-- The record the context caches for a key is the one its live index names. -/
theorem Staged.live_of_cached (staged : Staged s ws ctx) (inv : s.content.Inv) {key : Bytes}
    {idx : KeyIndex} {rec : KvRecord} {rev : Revision} {version : Int}
    (heldIdx : ctx.idxCache[key]? = some idx) (named : idx.current = some (rev, version))
    (heldRec : ctx.latestRecordCache[key]? = some rec) :
    live ((Mvcc.overlay s ctx).life key) = some rev ∧
      (Mvcc.overlay s ctx).kv[KvKey.mk key rev]? = some rec := by
  have own : (Mvcc.overlay s ctx).gens key = idx.generations := by rw [gens_overlay, heldIdx]
  have isLive : live ((Mvcc.overlay s ctx).life key) = some rev := by
    rw [life, ← currentOf_eq_live ((staged.inv inv).wellFormed_gens key).nonempty, own,
      ← current_map_fst, named]
    rfl
  obtain ⟨last, isLast, stored⟩ := staged.coherent.newest heldRec
  rw [put?_eq_some.mp isLive] at isLast
  obtain ⟨rfl, -⟩ := Prod.mk.inj (Option.some.inj isLast)
  exact ⟨isLive, stored⟩

/-! ## The invariant after a commit -/

/-- A commit leaves what the context overlaid. -/
theorem Staged.content_committed (staged : Staged s ws ctx) (inv : s.content.Inv) :
    (s.committed newRev ctx).content = s.content.writes ws := by
  rw [← staged.overlay]
  simp only [Store.content, Store.committed, Mvcc.overlay, committedTables]
  rw [setIndex_eq s.index fun held => nonempty_of_held (staged.inv inv) held]

/-- A commit of writes that are all new keeps the invariant. -/
theorem Store.Inv.committed (inv : s.Inv) (staged : Staged s ws ctx)
    (revs : ∀ w ∈ ws, s.writeState.currentRev < w.rev.main ∧ w.rev.main ≤ newRev)
    (advance : s.writeState.currentRev ≤ newRev) : (s.committed newRev ctx).Inv := by
  have after : (s.committed newRev ctx).content = s.content.writes ws :=
    staged.content_committed inv.content
  have overlaid := staged.inv inv.content
  have bounds := inv.compact
  have grown : ∀ key, ∀ x ∈ (s.content.writes ws).life key, 1 ≤ x.1.main ∧ x.1.main ≤ newRev := by
    intro key x mem
    rcases (mem_life_writes inv.content staged.fits).mp mem with old | ⟨w, new, -, rfl⟩
    · have := inv.settled key x old
      exact ⟨this.1, this.2.trans advance⟩
    · have := revs w new
      exact ⟨by dsimp only; omega, this.2⟩
  refine ⟨after ▸ inv.content.writes staged.fits, fun key => ?_, fun key x mem => ?_, rfl, ⟨rfl, ?_⟩,
    ⟨bounds.1, bounds.2.trans advance⟩, fun key x mem low => ?_, fun {key rev rec} held => ?_⟩
  · have index : (s.committed newRev ctx).index = (overlay s ctx).index :=
      congrArg Content.index (after.trans staged.overlay.symm)
    rw [index, index_overlay]
    simp only [Store.committed, committedTables, staged.coherent.footprint,
      Table.getElem?_overwrite]
    cases cached : ctx.idxCache[key]? with
    | none => simpa using inv.idx key
    | some idx => simp [← staged.coherent.idxKey cached]
  · rw [after] at mem
    exact grown key x mem
  · simp only [Store.committed, committedTables, staged.coherent.footprint]
    exact inv.stored.2
  · -- The new writes are above the floor, so its reader sees what it saw.
    rw [after, life_writes inv.content staged.fits] at mem ⊢
    change x.1.main ≤ s.writeState.compactRev at low
    change liveAt _ (Revision.endOf s.writeState.compactRev) = _
    have later : ∀ y ∈ (ws.filter fun w => w.event.kv.key = key).map
        fun w => (w.rev, w.event.kv.deleted), Revision.endOf s.writeState.compactRev < y.1 := by
      intro y new
      obtain ⟨w, written, rfl⟩ := List.mem_map.mp new
      exact Revision.endOf_lt.mpr (bounds.2.trans_lt (revs w (List.mem_of_mem_filter written)).1)
    rw [liveAt_append later]
    rcases List.mem_append.mp mem with old | new
    · exact inv.floor key x old low
    · exact absurd low (Int.not_le.mpr (Revision.endOf_lt.mp (later x new)))
  · change rev.main ≤ newRev ∧ ∀ {rec'}, (overlay s ctx).kv[KvKey.mk key rev]? = some rec' → _
    change (ctx.cacheValues s.values)[key]? = some (rev, rec) at held
    rw [getElem?_cacheValues] at held
    cases cached : ctx.latestRecordCache[key]? with
    | none =>
      rw [cached] at held
      obtain ⟨low, same⟩ := inv.values held
      refine ⟨low.trans advance, fun stored => same ?_⟩
      rwa [staged.coherent.untouched (.inr low)] at stored
    | some newest =>
      rw [cached] at held
      obtain ⟨⟨current, version⟩, named, held⟩ := Option.bind_eq_some_iff.mp held
      obtain ⟨idx, heldIdx, named⟩ := Option.bind_eq_some_iff.mp named
      obtain ⟨-, same⟩ := Option.ite_none_left_eq_some.mp held
      obtain ⟨rfl, rfl⟩ := Prod.mk.inj (Option.some.inj same)
      obtain ⟨isLive, stored⟩ := staged.live_of_cached inv.content heldIdx named cached
      have mem := mem_of_live isLive
      rw [staged.overlay] at mem
      exact ⟨(grown key _ mem).2, fun found => Option.some.inj (found.symm.trans stored)⟩

end Committed

end Fastetcd.Mvcc
