import Fastetcd.Laws.Mvcc.Runs
import Fastetcd.Mvcc.CachedReads

/-!
# The value cache agrees with the engine

A key and a revision name one record for good: a commit writes at new revisions only, and a
compaction drops records without changing any (`Work.publishes`). So whatever a reader or a writer
puts into the cache, however late, is the record written at the revision it is put under, and a hit
is asked for by that revision (`Step.coherent`). Nothing depends on which of two entries of a key the
cache keeps.
-/

namespace Fastetcd.Mvcc.Cached

open Timeline Reference KeyIndex Content Std

/-! ## What a writer publishes -/

/-- The record the writer would cache for the row is in the engine, at the revision its index
names. -/
def Stored (ctx : ApplyContext) (t : Tables) (row : Bytes × KvRecord) : Prop :=
  ∀ {idx rev version}, ctx.idxCache[row.1]? = some idx → idx.current = some (rev, version) →
    t.kv[KvKey.mk row.1 rev]? = some row.2

/-- What a writer does to the store: no record changes, and none that a reader at the floor or above
sees is dropped. -/
structure Publishes (s : Store) (ctx : ApplyContext) (t : Store) : Prop where
  inv : t.Inv
  current : s.writeState.currentRev ≤ t.writeState.currentRev
  floor : t.writeState.compactRev ≤ s.writeState.currentRev
  once : ∀ {key rev rec}, rev.main ≤ s.writeState.currentRev →
    t.engine.kv[KvKey.mk key rev]? = some rec → s.engine.kv[KvKey.mk key rev]? = some rec
  kept : ∀ {key rev main}, t.writeState.compactRev ≤ main → main ≤ s.writeState.currentRev →
    liveAt (s.content.life key) (Revision.endOf main) = some rev →
      t.engine.kv[KvKey.mk key rev]? = s.engine.kv[KvKey.mk key rev]?
  rows : ∀ row ∈ ctx.latestRecordCache.toList, Stored ctx t.engine row

section Publishes

variable {s t : Store} {ctx : ApplyContext} {ws : List Write} {newRev : Int}

theorem stored_none (u : Tables) :
    ∀ row ∈ ({} : ApplyContext).latestRecordCache.toList, Stored {} u row := by
  intro row mem
  have held := ExtTreeMap.mem_toList_iff_getElem?_eq_some.mp mem
  simp at held

theorem Publishes.quiet (inv : s.Inv) (same : Quiet s t) : Publishes s {} t where
  inv := same.inv inv
  current := (congrArg Revs.current same.revs).ge
  floor := (congrArg Revs.compact same.revs).trans_le inv.compact.2
  once _ found := by
    have kv : t.engine.kv = s.engine.kv := congrArg Content.kv same.content
    rwa [kv] at found
  kept _ _ _ := by
    have kv : t.engine.kv = s.engine.kv := congrArg Content.kv same.content
    rw [kv]
  rows := stored_none _

/-- A store whose records are those the context overlays. -/
theorem Publishes.staged (inv : s.Inv) (staged : Staged s ws ctx) (after : t.Inv)
    (current : s.writeState.currentRev ≤ t.writeState.currentRev)
    (compact : t.writeState.compactRev = s.writeState.compactRev)
    (kv : t.engine.kv = (overlay s ctx).kv) : Publishes s ctx t where
  inv := after
  current := current
  floor := compact.trans_le inv.compact.2
  once low found := by
    rw [kv] at found
    rwa [staged.coherent.untouched (.inr low)] at found
  kept {key rev main} _ reach seen := by
    have low : rev.main ≤ s.writeState.currentRev := (inv.settled key _ (mem_of_liveAt seen).1).2
    rw [kv, staged.coherent.untouched (.inr low)]
  rows row mem idx rev version heldIdx named := by
    rw [kv]
    exact (staged.live_of_cached inv.content heldIdx named
      (ExtTreeMap.mem_toList_iff_getElem?_eq_some.mp mem)).2

theorem Publishes.committed (inv : s.Inv) (staged : Staged s ws ctx)
    (revs : ∀ w ∈ ws, s.writeState.currentRev < w.rev.main ∧ w.rev.main ≤ newRev)
    (advance : s.writeState.currentRev ≤ newRev) :
    Publishes s ctx (s.commitCtx newRev ctx true).2 := by
  rw [commitCtx_ok]
  exact .staged inv staged (inv.committed staged revs advance) advance rfl rfl

theorem Publishes.compacted (inv : s.Inv) {rev : Int} (positive : 0 < rev)
    (reached : rev ≤ s.writeState.currentRev) : Publishes s {} (s.compactedAt rev) := by
  have content := content_compactedAt inv rev
  have kv : (s.compactedAt rev).engine.kv = (s.content.compacted (Revision.endOf rev)).kv :=
    congrArg Content.kv content
  refine ⟨inv.compactedAt positive reached, le_rfl, reached, fun _ found => ?_,
    fun {key _ main} above _ seen => ?_, stored_none _⟩
  · rw [kv] at found
    exact kv_of_compacted found
  · have floor : Revision.endOf rev ≤ Revision.endOf main :=
      Std.not_lt.mp fun lower => Int.not_le.mpr (Revision.endOf_lt.mp lower) above
    rw [← liveAt_trim (inv.content.ascending key) floor] at seen
    rw [kv]
    exact kv_compacted_of_mem inv.content (mem_of_liveAt seen).1

theorem applyInner_staged (inv : s.Inv) {ms : List Mutation} {revision : Int}
    {results : List MutationResult}
    (ran : s.applyInner s.engine {} s.writeState ms = (.ok (revision, results, true), ctx)) :
    revision = s.writeState.currentRev + 1 ∧ ∃ ws, Recorded s {} ws ctx ∧
      ∀ w ∈ ws, ∃ n : Nat, w.rev = ⟨s.writeState.currentRev + 1, n⟩ := by
  have start := inv.txnStart
  have below : ∀ key, ∀ x ∈ (overlay s {}).life key,
      x.1 < ⟨s.writeState.currentRev + 1, (0 : Nat)⟩ := fun key x mem =>
    Revision.lt_iff.mpr (.inl (Int.lt_add_one_of_le (start.settled key x mem)))
  unfold Store.applyInner at ran
  rcases applyMutations_spec inv.cache (Int.lt_add_one_of_le le_rfl) ms start.coherent start.inv
      below with
    ⟨e, ctx', -, stopped, -⟩ | ⟨results', ws, ctx', -, applied, recorded, revs⟩
  · simp only [stopped] at ran
    cases ran
  · simp only [applied] at ran
    obtain ⟨answer, rfl⟩ := Prod.mk.inj ran
    obtain ⟨rfl, -⟩ := Prod.mk.inj (Except.ok.inj answer)
    exact ⟨rfl, ws, recorded, fun w mem => (revs w mem).imp fun _ => And.right⟩

/-- A revoke that deletes keys is the commit of its context. -/
theorem leaseRevoke_commits {id : LeaseId} {attached : List Bytes} {revision : Int}
    {results : List MutationResult}
    (parsed : parseAttached (attachedRows s.engine id) = .ok attached)
    (ran : s.applyInner s.engine {} s.writeState (cascade attached) =
      (.ok (revision, results, true), ctx)) :
    (s.applyLeaseRevoke id true).2 = (s.commitCtx revision
      { ctx with batch := ctx.batch ++ dropLease id (attachedRows s.engine id) } true).2 := by
  have some : (cascade attached).isEmpty = false := by
    cases attached with
    | nil => cases ran
    | cons => rfl
  simp only [Store.applyLeaseRevoke, parsed, some, Bool.false_eq_true, if_false, ran, if_true,
    commitCtx_ok]

/-- What a request wrote, in a context about to be committed. -/
theorem Writes.publishes (inv : s.Inv) (writes : Writes s newRev ctx) :
    Publishes s ctx (s.commitCtx newRev ctx true).2 := by
  have single {ws : List Write} (recorded : Recorded s {} ws ctx)
      (revs : ∀ w ∈ ws, ∃ n : Nat, w.rev = ⟨s.writeState.currentRev + 1, n⟩) :
      Publishes s ctx (s.commitCtx (s.writeState.currentRev + 1) ctx true).2 := by
    refine .committed inv recorded.staged (fun w mem => ?_) (by omega)
    obtain ⟨n, rev⟩ := revs w mem
    rw [rev]
    exact ⟨Int.lt_add_one_of_le le_rfl, le_rfl⟩
  cases writes with
  | apply ran =>
    obtain ⟨rfl, ws, recorded, revs⟩ := applyInner_staged inv ran
    exact single recorded revs
  | txn decided ran produced =>
    have start := inv.txnStart
    rcases txnOps_agrees start _ (.inl ⟨rfl, rfl⟩) start.here with
      ⟨e, -, stopped⟩ | ⟨_, r, ctx', exec', -, applied, there⟩
    · rw [stopped] at ran
      cases ran
    · rw [applied] at ran
      cases ran
      rw [there.main]
      exact single there.recorded fun w mem => (there.revs w mem).imp fun _ => And.right
  | applyMany admitted ran moved =>
    obtain ⟨_, ctx', state', _, ws, _, applied, -, here⟩ :=
      applyItems_shares inv admitted (Sharing.start inv)
    rw [applied] at ran
    cases ran
    exact .committed inv here.staged here.revs here.advance
  | leaseRevoke parsed ran =>
    obtain ⟨rfl, ws, recorded, -⟩ := applyInner_staged inv ran
    obtain ⟨_, -, move⟩ := leaseRevoke_move inv _ true
    rw [leaseRevoke_commits parsed ran] at move
    have after := Publishes.staged inv recorded.staged (move.inv inv) (t := (s.commitCtx _ _ true).2)
      (by rw [commitCtx_ok]; exact Int.le_add_one le_rfl) (by rw [commitCtx_ok]; rfl) (by
        rw [commitCtx_ok]
        simp only [Store.committed, committedTables, Tables.commit_append, commit_dropLease]
        rfl)
    -- The lease's own rows are no part of what is cached.
    exact ⟨after.inv, after.current, after.floor, after.once, after.kept, after.rows⟩

theorem Work.publishes (inv : s.Inv) (work : Work s ctx t) : Publishes s ctx t := by
  cases work with
  | commit writes => exact writes.publishes inv
  | failed => exact .quiet inv (quiet_failed inv)
  | compact rev engineOk =>
    rcases compact_cases inv rev engineOk with
      ⟨e, refused⟩ | ⟨-, -, repeated⟩ | ⟨positive, -, reached, result⟩
    · rw [refused]
      exact .quiet inv (.refl inv)
    · rw [repeated]
      exact .quiet inv (.refl inv)
    · rw [result]
      cases engineOk with
      | true => exact .compacted inv positive reached
      | false => exact .quiet inv (quiet_failed inv)
  | leaseRevoke free engineOk =>
    obtain ⟨results, ws, mutated, -, cases⟩ := leaseRevoke_cases inv _ engineOk
    rcases cases with ⟨-, result⟩ | ⟨-, -, -, result⟩ | ⟨-, wrote, -⟩
    · rw [result]
      exact .quiet inv (quiet_failed inv)
    · rw [result]
      exact .quiet inv ⟨rfl, rfl, ⟨rfl, rfl⟩, rfl, rfl, inv.values, rfl⟩
    · rw [attachedKeys, free] at mutated
      cases mutated
      exact absurd rfl wrote
  | leaseGrant id ttlSecs nowUnix engineOk =>
    exact .quiet inv (quiet_leaseGrant inv id ttlSecs nowUnix engineOk)
  | leaseKeepalive id nowUnix engineOk =>
    exact .quiet inv (quiet_leaseKeepalive inv id nowUnix engineOk)
  | clusterId id engineOk => exact .quiet inv (quiet_clusterId inv id engineOk)
  | auth op engineOk => exact .quiet inv (quiet_auth inv op engineOk)
  | stageRaftMeta | stageBatchProgress => exact .quiet inv (.same inv rfl rfl rfl rfl rfl rfl)
  | stageBatchedMarker =>
    unfold Store.stageBatchedMarker
    split
    · exact .quiet inv (.refl inv)
    · exact .quiet inv (.same inv rfl rfl rfl rfl rfl rfl)
  | flushRaftMeta engineOk => exact .quiet inv (quiet_flushRaftMeta inv engineOk)

end Publishes

/-! ## What holds of every configuration -/

/-- What holds of a reader: its snapshot is one the engine held and has the records of its plan, and
what it has fetched so far is what the snapshot says. -/
structure Reader.Faithful (history : List Tables) (r : Reader) : Prop where
  snap : r.snap ∈ history
  held : ∀ hit ∈ r.hits, ∃ rec, r.snap.kv[KvKey.mk hit.1 hit.2]? = some rec
  fetched : ∃ done, r.planned = done ++ r.hits ∧ r.fetched = engineRecords r.snap done
  filling : ∀ {key rev rec}, r.filling = some (key, rev, rec) →
    r.snap.kv[KvKey.mk key rev]? = some rec

/-- What holds of every configuration. The store's own invariant is stated without the cache, which
may hold what is not published yet. -/
structure Config.Coherent (c : Config) : Prop where
  inv : { c.store with values := ∅ }.Inv
  published : c.store.engine ∈ c.history
  newest : c.newest.engine ∈ c.history
  recent : ∀ t ∈ c.history, ∀ {key rev rec}, t.kv[KvKey.mk key rev]? = some rec →
    rev.main ≤ c.newest.writeState.currentRev
  once : ∀ {key rev rec rec'}, c.Wrote key rev rec → c.Wrote key rev rec' → rec = rec'
  values : ∀ {key : Bytes} {rev rec}, c.store.values[key]? = some (rev, rec) → c.Wrote key rev rec
  writer : ∀ {w}, c.writer = some w →
    Publishes { c.store with values := ∅ } w.ctx { w.after with values := ∅ } ∧
      ∀ row ∈ w.rows, Stored w.ctx w.after.engine row
  readers : ∀ r ∈ c.readers, r.Faithful c.history

/-- The store's invariant with another cache. -/
theorem inv_recached {s : Store} (inv : s.Inv) (values : ValueCache)
    (agree : ∀ {key : Bytes} {rev rec}, values[key]? = some (rev, rec) →
      rev.main ≤ s.writeState.currentRev ∧
        ∀ {rec'}, s.engine.kv[KvKey.mk key rev]? = some rec' → rec' = rec) :
    { s with values }.Inv :=
  ⟨inv.content, inv.idx, inv.settled, inv.view, inv.stored, inv.compact, inv.floor, agree⟩

theorem Publishes.uncached {s t : Store} {ctx : ApplyContext} (h : Publishes s ctx t) :
    Publishes { s with values := ∅ } ctx { t with values := ∅ } :=
  ⟨inv_recached h.inv ∅ (by simp), h.current, h.floor, h.once, h.kept, h.rows⟩

theorem engineRecords_append {snap : Tables} {key : Bytes} {rev : Revision} {rec : KvRecord}
    (held : snap.kv[KvKey.mk key rev]? = some rec) (done : List (Bytes × Revision)) :
    engineRecords snap (done ++ [(key, rev)]) = (engineRecords snap done).map (· ++ [rec]) := by
  have read : readRecord snap key rev = .ok rec := by rw [readRecord, held]
  rw [engineRecords, engineRecords, List.mapM_append, List.mapM_cons, List.mapM_nil, read]
  cases done.mapM fun hit => readRecord snap hit.1 hit.2 <;> rfl

section Coherent

variable {c d : Config}

theorem newest_of_free (free : c.writer = none) : c.newest = c.store := by
  rw [Config.newest, free]
  rfl

theorem newest_of_writing {w : Writer} (writing : c.writer = some w) : c.newest = w.after := by
  rw [Config.newest, writing]
  rfl

/-- No record is above its store's revision. -/
theorem recent_of_inv {s : Store} (inv : s.Inv) {key : Bytes} {rev : Revision} {rec : KvRecord}
    (found : s.engine.kv[KvKey.mk key rev]? = some rec) : rev.main ≤ s.writeState.currentRev :=
  (inv.settled key _ ((inv.content.rows key rev rec.deleted).mpr
    (congrArg (Option.map KvRecord.deleted) found))).2

theorem Config.Coherent.start {s : Store} (reached : Reachable s) :
    Coherent ⟨Store.open s.engine, none, [], [(Store.open s.engine).engine]⟩ := by
  have inv : (Store.open s.engine).Inv := reached.inv.reopened
  refine ⟨inv_recached inv ∅ (by simp), List.mem_singleton_self _, List.mem_singleton_self _,
    fun t mem key rev rec found => ?_, fun {key rev rec rec'} wrote wrote' => ?_, fun held => ?_,
    nofun, by simp⟩
  · rw [List.mem_singleton.mp mem] at found
    exact recent_of_inv inv found
  · obtain ⟨t, mem, found⟩ := wrote
    obtain ⟨t', mem', found'⟩ := wrote'
    rw [List.mem_singleton.mp mem] at found
    rw [List.mem_singleton.mp mem', found] at found'
    exact Option.some.inj found'
  · simp [Store.open] at held

/-- Between commits the store, with the cache as it is, has its invariant. -/
theorem Config.Coherent.settled (coherent : c.Coherent) (free : c.writer = none) : c.store.Inv := by
  have same := newest_of_free free
  refine inv_recached coherent.inv c.store.values fun held => ?_
  have wrote := coherent.values held
  obtain ⟨t, mem, found⟩ := wrote
  refine ⟨same ▸ coherent.recent t mem found, fun stored => ?_⟩
  exact coherent.once ⟨_, coherent.published, stored⟩ ⟨t, mem, found⟩

/-- What a reader's snapshot has over the published store. -/
theorem Config.Coherent.ahead (coherent : c.Coherent) :
    ∃ ctx, Publishes { c.store with values := ∅ } ctx { c.newest with values := ∅ } := by
  cases writing : c.writer with
  | none =>
    rw [newest_of_free writing]
    exact ⟨{}, .quiet coherent.inv (.refl coherent.inv)⟩
  | some w =>
    rw [newest_of_writing writing]
    exact ⟨w.ctx, (coherent.writer writing).1⟩

theorem Reader.Faithful.mono {history more : List Tables} {r : Reader}
    (faithful : r.Faithful history) : r.Faithful (history ++ more) :=
  ⟨List.mem_append_left _ faithful.snap, faithful.held, faithful.fetched, faithful.filling⟩

/-- The engine commit of a writer: what is new is new, and what was there is the same. -/
theorem Config.Coherent.engineCommit (coherent : c.Coherent) (free : c.writer = none)
    {ctx : ApplyContext} {t : Store} (work : Work c.store ctx t) :
    Coherent { c with
      writer := some ⟨ctx, ctx.latestRecordCache.toList, t⟩
      history := c.history ++ [t.engine] } := by
  have publishes := work.publishes (coherent.settled free)
  have recent := coherent.recent
  rw [newest_of_free free] at recent
  have old {key rev rec rec'} (wrote : c.Wrote key rev rec)
      (found : t.engine.kv[KvKey.mk key rev]? = some rec') : rec = rec' := by
    obtain ⟨u, mem, held⟩ := wrote
    exact coherent.once ⟨u, mem, held⟩
      ⟨_, coherent.published, publishes.once (recent u mem held) found⟩
  refine ⟨coherent.inv, List.mem_append_left _ coherent.published, by simp [Config.newest],
    fun u mem key rev rec found => ?_, fun {key rev rec rec'} wrote wrote' => ?_, fun held => ?_,
    fun writing => ?_, fun r mem => (coherent.readers r mem).mono⟩
  · change rev.main ≤ t.writeState.currentRev
    rcases List.mem_append.mp mem with before | new
    · exact (recent u before found).trans publishes.current
    · rw [List.mem_singleton.mp new] at found
      exact recent_of_inv publishes.inv found
  · obtain ⟨u, mem, found⟩ := wrote
    obtain ⟨u', mem', found'⟩ := wrote'
    rcases List.mem_append.mp mem with before | new <;>
      rcases List.mem_append.mp mem' with before' | new'
    · exact coherent.once ⟨u, before, found⟩ ⟨u', before', found'⟩
    · rw [List.mem_singleton.mp new'] at found'
      exact old ⟨u, before, found⟩ found'
    · rw [List.mem_singleton.mp new] at found
      exact (old ⟨u', before', found'⟩ found).symm
    · rw [List.mem_singleton.mp new] at found
      rw [List.mem_singleton.mp new', found] at found'
      exact Option.some.inj found'
  · obtain ⟨u, mem, found⟩ := coherent.values held
    exact ⟨u, List.mem_append_left _ mem, found⟩
  · cases writing
    exact ⟨publishes.uncached, publishes.rows⟩

/-- Another cache of records that were written. -/
theorem Config.Coherent.cached (coherent : c.Coherent) {values : ValueCache}
    (wrote : ∀ {key : Bytes} {rev rec}, values[key]? = some (rev, rec) → c.Wrote key rev rec) :
    (c.cached values).Coherent := by
  have engine : (c.cached values).newest.engine = c.newest.engine := by
    cases writing : c.writer <;> simp [Config.newest, Config.cached, writing]
  have state : (c.cached values).newest.writeState = c.newest.writeState := by
    cases writing : c.writer <;> simp [Config.newest, Config.cached, writing]
  refine ⟨coherent.inv, coherent.published, ?_, fun t mem => ?_, coherent.once, wrote,
    coherent.writer, coherent.readers⟩
  · rw [engine]
    exact coherent.newest
  · rw [state]
    exact coherent.recent t mem

theorem Config.Coherent.cache (coherent : c.Coherent) {w : Writer}
    (writing : c.writer = some w) {row : Bytes × KvRecord} (mem : row ∈ w.rows) :
    (c.cached (w.ctx.cacheValue c.store.values row)).Coherent := by
  refine coherent.cached fun {key rev rec} held => ?_
  rw [getElem?_cacheValue] at held
  split at held
  · next own =>
    subst own
    obtain ⟨⟨current, version⟩, named, held⟩ := Option.bind_eq_some_iff.mp held
    obtain ⟨idx, heldIdx, named⟩ := Option.bind_eq_some_iff.mp named
    obtain ⟨-, same⟩ := Option.ite_none_left_eq_some.mp held
    obtain ⟨rfl, rfl⟩ := Prod.mk.inj (Option.some.inj same)
    have engine := coherent.newest
    rw [newest_of_writing writing] at engine
    exact ⟨_, engine, (coherent.writer writing).2 row mem heldIdx named⟩
  · exact coherent.values held

theorem Config.Coherent.publish (coherent : c.Coherent) {w : Writer}
    (writing : c.writer = some w) :
    Coherent { c with store := { w.after with values := c.store.values }, writer := none } := by
  have engine := coherent.newest
  have recent := coherent.recent
  rw [newest_of_writing writing] at engine recent
  exact ⟨(coherent.writer writing).1.inv, engine, engine, recent, coherent.once, coherent.values,
    nofun, coherent.readers⟩

theorem checkReadRev_bounds {revs : Revs} {target : Int} {rev : Revision}
    (checked : checkReadRev revs target = .ok rev) :
    ∃ main, rev = Revision.endOf main ∧
      (main < 0 ∨ main = revs.current ∨ revs.compact ≤ main ∧ main ≤ revs.current) := by
  unfold checkReadRev at checked
  split at checked
  · cases checked
  · split at checked
    · cases checked
    · cases checked
      exact ⟨_, rfl, by split <;> omega⟩

/-- A plan names records that the reader's snapshot has. -/
theorem Config.Coherent.reader (coherent : c.Coherent) {r : RangeOp} {readRev : Revision}
    (checked : checkReadRev c.revs r.revision = .ok readRev) :
    (c.reader r readRev).Faithful c.history := by
  refine ⟨coherent.newest, fun hit mem => ?_, ⟨[], rfl, rfl⟩, nofun⟩
  have inv := coherent.inv
  have seen : liveAt (c.store.content.life hit.1) readRev = some hit.2 := by
    have start : (overlay c.store {}).Inv := by
      rw [overlay_empty]
      exact inv.content
    rw [← overlay_empty]
    exact liveAt_of_planned start mem
  obtain ⟨rec, stored, -⟩ := Option.map_eq_some_iff.mp
    ((inv.content.rows hit.1 hit.2 false).mp (mem_of_liveAt seen).1)
  obtain ⟨ctx, publishes⟩ := coherent.ahead
  obtain ⟨main, rfl, bounds⟩ := checkReadRev_bounds checked
  have current : c.revs.current = c.store.writeState.currentRev := congrArg Revs.current inv.view
  have compact : c.revs.compact = c.newest.writeState.compactRev :=
    congrArg Revs.compact publishes.inv.view
  have low : hit.2.main ≤ main :=
    Int.not_lt.mp fun above => Std.not_lt.mpr (mem_of_liveAt seen).2 (Revision.endOf_lt.mpr above)
  have positive : 1 ≤ hit.2.main := (inv.settled hit.1 _ (mem_of_liveAt seen).1).1
  have floor : c.newest.writeState.compactRev ≤ c.store.writeState.currentRev := publishes.floor
  rw [current, compact] at bounds
  have above : c.newest.writeState.compactRev ≤ main := by omega
  have reach : main ≤ c.store.writeState.currentRev := by omega
  exact ⟨rec, (publishes.kept above reach seen).trans stored⟩

/-- A record that the snapshot has is fetched as the snapshot has it, from wherever. -/
theorem Config.Coherent.recordAt (coherent : c.Coherent) {snap : Tables} (mem : snap ∈ c.history)
    {key : Bytes} {rev : Revision} {rec : KvRecord}
    (stored : snap.kv[KvKey.mk key rev]? = some rec) :
    ∃ read, c.store.recordAt snap {} key rev = .ok (rec, read) := by
  have plain : c.store.recordAt snap {} key rev = c.store.storedRecord snap key rev := by
    simp [Store.recordAt]
  rw [plain, Store.storedRecord]
  cases hit : valueGet c.store.values key rev with
  | none =>
    refine ⟨true, ?_⟩
    simp only [readRecord, stored]
    rfl
  | some found =>
    have wrote := coherent.values (slot_of_valueGet hit)
    exact ⟨false, by rw [coherent.once wrote ⟨snap, mem, stored⟩]⟩

theorem Config.Coherent.fetch (coherent : c.Coherent) {r : Reader}
    (faithful : r.Faithful c.history) :
    (r.fetch c.store).Faithful c.history := by
  obtain ⟨done, planned, fetched⟩ := faithful.fetched
  have held := faithful.held
  unfold Reader.fetch
  split
  · exact faithful
  · next key rev hits next =>
    rw [next] at held planned
    obtain ⟨rec, stored⟩ := held (key, rev) List.mem_cons_self
    obtain ⟨read, answer⟩ := coherent.recordAt faithful.snap stored
    simp only [answer]
    refine ⟨faithful.snap, fun hit mem => held hit (List.mem_cons_of_mem _ mem),
      ⟨done ++ [(key, rev)], by simpa using planned, ?_⟩, fun filling => ?_⟩
    · rw [engineRecords_append stored, fetched]
    · obtain ⟨-, same⟩ := Option.ite_none_right_eq_some.mp filling
      cases same
      exact stored

theorem forall_mem_replace {α : Type} {P : α → Prop} {before after : List α} {a b : α}
    (all : ∀ x ∈ before ++ a :: after, P x) (new : P b) : ∀ x ∈ before ++ b :: after, P x := by
  simp only [List.forall_mem_append, List.forall_mem_cons] at all ⊢
  exact ⟨all.1, new, all.2.2⟩

/-- One step keeps it all. -/
theorem Step.coherent (coherent : c.Coherent) (step : Step c d) : d.Coherent := by
  cases step with
  | engineCommit free work => exact coherent.engineCommit free work
  | @cache w before after row writing left =>
    have mem : row ∈ w.rows := by simp [left]
    have next := coherent.cache writing mem
    obtain ⟨publishes, rows⟩ := coherent.writer writing
    have same : (c.cached (w.ctx.cacheValue c.store.values row)).newest = w.after :=
      newest_of_writing writing
    have engine := next.newest
    have recent := next.recent
    rw [same] at engine recent
    refine ⟨next.inv, next.published, engine, recent, next.once, next.values, fun writing => ?_,
      next.readers⟩
    cases writing
    exact ⟨publishes, fun row mem => rows row (by rw [left]; grind)⟩
  | publish writing _ => exact coherent.publish writing
  | read r checked =>
    refine ⟨coherent.inv, coherent.published, coherent.newest, coherent.recent, coherent.once,
      coherent.values, coherent.writer, ?_⟩
    exact List.forall_mem_cons.mpr ⟨coherent.reader checked, coherent.readers⟩
  | fetch reading _ =>
    have readers := coherent.readers
    rw [reading] at readers
    refine ⟨coherent.inv, coherent.published, coherent.newest, coherent.recent, coherent.once,
      coherent.values, coherent.writer, forall_mem_replace readers ?_⟩
    exact coherent.fetch (readers _ (by simp))
  | @fill before after r key rev rec reading filling =>
    have readers := coherent.readers
    rw [reading] at readers
    have own := readers r (by simp)
    have next : (c.cached (valueInsert c.store.values key rev rec true)).Coherent := by
      refine coherent.cached fun held => ?_
      rcases slot_of_valueInsert held with old | ⟨rfl, same⟩
      · exact coherent.values old
      · cases same
        exact ⟨r.snap, own.snap, own.filling filling⟩
    refine ⟨next.inv, next.published, next.newest, next.recent, next.once, next.values, next.writer,
      forall_mem_replace readers ?_⟩
    exact ⟨own.snap, own.held, own.fetched, nofun⟩
  | evict kept =>
    refine coherent.cached fun held => coherent.values ?_
    simp only [ExtTreeMap.getElem?_filter'] at held
    exact (Option.filter_eq_some_iff.mp held).1

theorem Run.coherent (run : Run c) : c.Coherent := by
  induction run with
  | start reached => exact .start reached
  | step _ step ih => exact step.coherent ih

end Coherent

/-- Whatever readers fill, writers commit, compactions drop and evictions forget, and in whatever
order: a hit is the record the store wrote for the key at that revision, the store wrote one record
for it, and a reader that is done has what its snapshot alone would have given it. -/
theorem hit_is_written {c : Config} (run : Run c) :
    (∀ key rev rec, valueGet c.store.values key rev = some rec → c.Wrote key rev rec) ∧
      (∀ key rev rec rec', c.Wrote key rev rec → c.Wrote key rev rec' → rec = rec') ∧
      ∀ r ∈ c.readers, r.hits = [] → r.fetched = engineRecords r.snap r.planned := by
  have coherent := run.coherent
  refine ⟨fun key rev rec hit => coherent.values (slot_of_valueGet hit),
    fun key rev rec rec' => coherent.once, fun r mem done => ?_⟩
  obtain ⟨fetched, planned, same⟩ := (coherent.readers r mem).fetched
  rw [done, List.append_nil] at planned
  rw [same, planned]

/-- A put is committed, cached and published; its entry is evicted; a reader misses, reads the record
from its snapshot and fills the cache. -/
theorem hit_is_written_filled : ∃ c, Run c ∧
    valueGet c.store.values [107] ⟨1, 0⟩ = some ⟨[107], [1], 1, 1, 1, 0, false⟩ ∧
    c.Wrote [107] ⟨1, 0⟩ ⟨[107], [1], 1, 1, 1, 0, false⟩ ∧
    ∀ r ∈ c.readers, r.hits = [] → r.fetched = engineRecords r.snap r.planned := by
  let s := Store.open (Store.open Tables.empty).engine
  let applied := s.applyInner s.engine {} s.writeState [.put [107] [1] 0 false false false]
  have ran : applied = (.ok (1, [⟨1, []⟩], true), applied.2) := Prod.ext (by decide +kernel) rfl
  have cached : applied.2.latestRecordCache.toList =
      [] ++ ([107], ⟨[107], [1], 1, 1, 1, 0, false⟩) :: [] := by decide +kernel
  have start : Run ⟨s, none, [], [s.engine]⟩ := .start ⟨[], [], Mvcc.Run.start⟩
  have published := ((start.step (.engineCommit rfl (.commit (.apply ran)))).step
    (.cache rfl cached)).step (.publish rfl rfl)
  have evicted := published.step (.evict fun _ => false)
  have read := evicted.step (.read ⟨[107], [], 0, 0, false, false⟩ rfl)
  have fetched := read.step (@Step.fetch _ [] [] _ rfl rfl)
  have filled := fetched.step (@Step.fill _ [] [] _ [107] ⟨1, 0⟩
    ⟨[107], [1], 1, 1, 1, 0, false⟩ rfl (by decide +kernel))
  have hit := hit_is_written filled
  refine ⟨_, filled, ?_, ?_, hit.2.2⟩
  · decide +kernel
  · exact hit.1 _ _ _ (by decide +kernel)

end Fastetcd.Mvcc.Cached
