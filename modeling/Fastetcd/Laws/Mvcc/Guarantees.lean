import Fastetcd.Laws.Mvcc.Runs
import Fastetcd.Mvcc.History

/-!
# What every reachable store guarantees

The store's invariant read back in the terms of its tables and its answers: requests that share a
commit are the requests one by one, a txn is the reference interpreter's, the index names exactly
the records there are, and the attachments of a lease are exactly the live keys that carry it.
-/

namespace Fastetcd.Mvcc

open Timeline Reference KeyIndex Content Replay Std

section Guarantees

variable {s : Store}

/-! ## Shared commits -/

/-- Two stores alike in every table of the keys, the resident index, the revisions and the events
broadcast. -/
structure Store.Alike (m t : Store) : Prop where
  kv : m.engine.kv = t.engine.kv
  idx : m.engine.idx = t.engine.idx
  leaseKeys : m.engine.leaseKeys = t.engine.leaseKeys
  index : m.index = t.index
  revs : m.writeState.revs = t.writeState.revs
  view : m.view.revs = t.view.revs
  broadcast : m.broadcast = t.broadcast

theorem Quiet.storeAlike {t m : Store} (same : Quiet t m) : m.Alike t :=
  ⟨congrArg Content.kv same.content, same.idx, congrArg Content.leaseKeys same.content,
    congrArg Content.index same.content, same.revs, same.view, same.broadcast⟩

/-- Requests that share a commit are answered as one by one, and leave what they leave one by one,
with one batch of events for each revision they took. -/
theorem applyMany_is_oneByOne (reachable : Reachable s) {items : List ApplyItem}
    (admitted : ∀ item ∈ items, item.admitted = true) :
    ∃ outcomes m t, s.applyMany items true = (.ok outcomes, m) ∧
      s.serveAll items = (.ok outcomes, t) ∧ m.Alike t ∧
      ∃ batches, m.broadcast = s.broadcast ++ batches ∧
        OnePerRevision s.writeState.currentRev batches ∧
        m.writeState.currentRev = s.writeState.currentRev + batches.length := by
  obtain ⟨outcomes, m, t, many, served, invM, invT, content, state, broadcast, told⟩ :=
    applyMany_serveAll reachable.inv admitted
  have same := Quiet.alike invM invT content state broadcast
  exact ⟨outcomes, m, t, many, served, same.storeAlike, told⟩

theorem applyMany_is_oneByOne_refused :
    ∃ outcomes m t,
      (Store.open Tables.empty).applyMany [.mutations [.put [97] [1] 0 false false false],
          .mutations [.put [98] [] 0 true false false],
          .txn [] [.mutation (.put [97] [2] 0 false false true)] []] true = (.ok outcomes, m) ∧
      (Store.open Tables.empty).serveAll [.mutations [.put [97] [1] 0 false false false],
          .mutations [.put [98] [] 0 true false false],
          .txn [] [.mutation (.put [97] [2] 0 false false true)] []] = (.ok outcomes, t) ∧
      m.Alike t ∧
      ∃ batches, m.broadcast = (Store.open Tables.empty).broadcast ++ batches ∧
        OnePerRevision (Store.open Tables.empty).writeState.currentRev batches ∧
        m.writeState.currentRev =
          (Store.open Tables.empty).writeState.currentRev + batches.length :=
  applyMany_is_oneByOne ⟨_, _, .start⟩ (by decide)

/-! ## Transactions -/

/-- `t` is `s` after one request made the writes `ws`: a reader of the past sees what it saw, a
reader of now sees the reference interpreter's cells, one new revision if anything was written, and
one batch of events. -/
structure Store.Took (s : Store) (ws : List Write) (t : Store) : Prop where
  cells : t.content.cells = ws.foldl Reference.write s.content.cells
  past : ∀ main ≤ s.writeState.currentRev,
    t.content.readAt (.endOf main) = s.content.readAt (.endOf main)
  now : t.content.readAt (.endOf t.writeState.currentRev) =
    (liveRows (ws.foldl Reference.write s.content.cells)).map fun _ row => row.record
  kv : t.engine.kv = ws.foldl (fun kv w => kv.insert ⟨w.event.kv.key, w.rev⟩ w.event.kv) s.engine.kv
  main : ∀ w ∈ ws, w.rev.main = s.writeState.currentRev + 1
  ordered : Ordered ws
  current : t.writeState.currentRev =
    if ws.isEmpty then s.writeState.currentRev else s.writeState.currentRev + 1
  compact : t.writeState.compactRev = s.writeState.compactRev
  view : t.view.revs = t.writeState.revs
  broadcast : t.broadcast = s.broadcast ++ toldOf s.writeState.currentRev ws

theorem kv_writes (C : Content) (ws : List Write) :
    (C.writes ws).kv = ws.foldl (fun kv w => kv.insert ⟨w.event.kv.key, w.rev⟩ w.event.kv) C.kv := by
  induction ws generalizing C with
  | nil => rfl
  | cons w ws ih => rw [writes_cons, ih, List.foldl_cons]; rfl

theorem Wrote.took {ws : List Write} {t : Store} (wrote : Wrote s ws t) (inv : s.Inv) :
    s.Took ws t := by
  have cells : t.content.cells = ws.foldl Reference.write s.content.cells := by
    rw [wrote.content, cells_writes inv.content wrote.fits]
  refine ⟨cells, fun main le => ?_, ?_, ?_, wrote.revs, wrote.ordered, wrote.current, wrote.compact,
    wrote.inv.view, wrote.broadcast⟩
  · rw [wrote.content]
    refine readAt_writes inv.content wrote.fits fun w mem => ?_
    rw [Revision.endOf_lt, wrote.revs w mem]
    omega
  · rw [← cells]
    exact Content.Inv.readAt_eq_live fun key x mem =>
      Revision.le_endOf.mpr (wrote.inv.settled key x mem).2
  · have kv : t.engine.kv = (s.content.writes ws).kv := congrArg Content.kv wrote.content
    rw [kv, kv_writes]
    rfl

/-- A txn is the reference interpreter's: its answer, its writes at one new revision, or its
refusal, which leaves the store as it was. -/
theorem txn_is_reference (reachable : Reachable s) (compares : List Compare)
    (success failure : List TxnOp) :
    (∀ e engineOk, Reference.txn s.env compares success failure = .error e →
      s.txn compares success failure engineOk = (.error e, s)) ∧
    ∀ result ws, Reference.txn s.env compares success failure = .ok (result, ws) →
      ∃ t, s.txn compares success failure true = (.ok result, t) ∧ s.Took ws t := by
  have inv := reachable.inv
  refine ⟨fun e engineOk refused => ?_, fun result ws ran => ?_⟩
  · have served := txn_served inv compares success failure engineOk
    rw [refused] at served
    generalize s.txn compares success failure engineOk = answer at served ⊢
    cases served
    rfl
  · have served := txn_served inv compares success failure true
    rw [ran] at served
    obtain ⟨-, ordered, -⟩ := plainOf_txn ran
    generalize s.txn compares success failure true = answer at served ⊢
    obtain ⟨answered | ok, t⟩ := answer
    · cases served
      contradiction
    · obtain ⟨rfl, wrote⟩ := served.wrote_of_ok inv ordered
      exact ⟨t, rfl, wrote.took inv⟩

theorem txn_is_reference_nested :
    ∃ t, (Store.open Tables.empty).txn [⟨[97], [], .equal, .version 0⟩]
        [.mutation (.put [97] [1] 7 false false false),
          .txn [⟨[97], [], .equal, .version 0⟩] [.mutation (.put [97] [2] 0 false true true)] []]
        [] true =
      (.ok ⟨true, 1, [.mutation ⟨1, []⟩,
        .txn true [.mutation ⟨1, [⟨[97], [1], 1, 1, 1, 7, false⟩]⟩]]⟩, t) ∧
      (Store.open Tables.empty).Took
        [⟨⟨1, (0 : Nat)⟩, .put, ⟨[97], [1], 1, 1, 1, 7, false⟩, none⟩,
          ⟨⟨1, (1 : Nat)⟩, .put, ⟨[97], [2], 1, 1, 2, 7, false⟩,
            some ⟨[97], [1], 1, 1, 1, 7, false⟩⟩] t :=
  (txn_is_reference ⟨_, _, .start⟩ _ _ _).2 _ _ rfl

/-! ## The index and the records -/

/-- The revisions that generations name are those of the key's timeline. -/
theorem generationRevs_eq (gens : List Generation) :
    generationRevs gens = (lifeOf gens).map Prod.fst := by
  rw [generationRevs, lifeOf, List.map_flatMap]
  congr 1
  funext g
  cases tombstone : g.tombstone <;> simp [Generation.life, tombstone, Function.comp_def]

theorem mem_kv_iff (inv : s.Inv) {key : Bytes} {rev : Revision} :
    KvKey.mk key rev ∈ s.engine.kv ↔ rev ∈ (s.content.life key).map Prod.fst := by
  rw [ExtTreeMap.mem_iff_isSome_getElem?, Option.isSome_iff_exists, List.mem_map]
  constructor
  · rintro ⟨rec, found⟩
    exact ⟨_, (inv.content.rows key rev rec.deleted).mpr (congrArg _ found), rfl⟩
  · rintro ⟨⟨_, deleted⟩, mem, rfl⟩
    obtain ⟨rec, found, -⟩ := Option.map_eq_some_iff.mp ((inv.content.rows key _ deleted).mp mem)
    exact ⟨rec, found⟩

/-- The resident index is `mvcc_idx` decoded, `mvcc_kv` holds the records its generations name and
no others, and a read fails for no other reason than its revision. -/
theorem index_names_records (reachable : Reachable s) :
    (∀ key : Bytes, s.engine.idx[key]? = s.index[key]?.map (KeyIndex.mk key)) ∧
    (∀ key rev, KvKey.mk key rev ∈ s.engine.kv ↔
      ∃ gens, s.index[key]? = some gens ∧ rev ∈ generationRevs gens) ∧
    ∀ r e, (s.rangeWithRevision r).1 = .error e →
      checkReadRev s.view.revs r.revision = .error e := by
  have inv := reachable.inv
  refine ⟨inv.idx, fun key rev => ?_, fun r e failed => ?_⟩
  · rw [mem_kv_iff inv, Content.life, Content.gens]
    change _ ∈ List.map _ (lifeOf (s.index[key]?.getD [])) ↔ _
    cases s.index[key]? with
    | none => simp
    | some gens => simp [generationRevs_eq]
  · rw [inv.view]
    rcases rangeWithRevision_spec inv r with ⟨e', checked, refused⟩ | ⟨main, values, -, served, -⟩
    · rw [refused] at failed
      cases failed
      exact checked
    · rw [served] at failed
      cases failed

theorem index_names_records_deleted :
    let s := (((Store.open Tables.empty).apply [.put [97] [1] 0 false false false] true).2.apply
      [.deleteRange [97] [] false] false).2
    (∀ key : Bytes, s.engine.idx[key]? = s.index[key]?.map (KeyIndex.mk key)) ∧
    (∀ key rev, KvKey.mk key rev ∈ s.engine.kv ↔
      ∃ gens, s.index[key]? = some gens ∧ rev ∈ generationRevs gens) ∧
    ∀ r e, (s.rangeWithRevision r).1 = .error e →
      checkReadRev s.view.revs r.revision = .error e :=
  index_names_records ⟨_, _, .step (.step .start (.apply _ true)) (.apply _ false)⟩

/-! ## One key -/

/-- A Range of one key, at the current revision for `0`. -/
def RangeOp.single (key : Bytes) (revision : Int) : RangeOp := ⟨key, [], 0, revision, false, false⟩

theorem scan_single (records : Table Bytes KvRecord) (key : Bytes) :
    records.scan (inRange · key []) = records[key]?.toList.map (key, ·) := by
  refine (Table.eq_scan_of_ascending ?_ fun k rec => ?_).symm
  · cases records[key]? <;> simp [SortedRows]
  · simp only [List.mem_map, Option.mem_toList, Prod.mk.injEq, inRange, if_true,
      decide_eq_true_eq]
    constructor
    · rintro ⟨rec, found, rfl, rfl⟩
      exact ⟨found, rfl⟩
    · rintro ⟨found, rfl⟩
      exact ⟨rec, found, rfl, rfl⟩

theorem answer_single (records : Table Bytes KvRecord) (key : Bytes) (revision : Int) :
    answer records (.single key revision) =
      ⟨records[key]?.toList, false, records[key]?.toList.length⟩ := by
  simp [answer, RangeOp.single, scan_single, trim]

/-- A Range of one key answers the record that is live at its revision. -/
theorem range_single (inv : s.Inv) {revision main : Int}
    (checked : checkReadRev s.writeState.revs revision = .ok (.endOf main)) (key : Bytes) :
    (s.rangeWithRevision (.single key revision)).1 =
      .ok (⟨(s.content.readAt (.endOf main))[key]?.toList, false,
        (s.content.readAt (.endOf main))[key]?.toList.length⟩, s.writeState.currentRev) := by
  rcases rangeWithRevision_spec inv (.single key revision) with
    ⟨e, refused, -⟩ | ⟨main', values, ok, served, -⟩
  · cases checked.symm.trans refused
  · have same : Revision.endOf main' = .endOf main := Except.ok.inj (ok.symm.trans checked)
    rw [served, same, answer_single]

theorem checkReadRev_now :
    checkReadRev s.writeState.revs 0 = .ok (.endOf s.writeState.currentRev) := by
  simp [checkReadRev, WriteState.revs]

theorem checkReadRev_of_le {main : Int} (positive : 0 < main)
    (above : s.writeState.compactRev ≤ main) (reached : main ≤ s.writeState.currentRev) :
    checkReadRev s.writeState.revs main = .ok (.endOf main) := by
  have future : ¬ (main > 0 ∧ main > s.writeState.revs.current) := fun h => h.2.not_ge reached
  have gone : ¬ (main > 0 ∧ main < s.writeState.revs.compact) := fun h => h.2.not_ge above
  rw [checkReadRev, if_neg future, if_neg gone, if_neg positive.ne']

/-! ## Leases -/

/-- The current revision shows the live rows. -/
theorem getElem?_readAt_now (inv : s.Inv) (key : Bytes) :
    (s.content.readAt (.endOf s.writeState.currentRev))[key]? =
      (liveRow s.content.cells key).map Row.record := by
  rw [Content.Inv.readAt_eq_live fun key x mem => Revision.le_endOf.mpr (inv.settled key x mem).2,
    ExtTreeMap.getElem?_map, getElem?_liveRows]

/-- `lease_keys` has a row for a lease and a key exactly when the key is live and its newest record
carries the lease. -/
theorem leaseKeys_are_live_keys (reachable : Reachable s) {id : LeaseId} (nonzero : id ≠ 0)
    (key : Bytes) :
    leaseKeyIndex id key ∈ s.engine.leaseKeys ↔
      ∃ rec, (s.rangeWithRevision (.single key 0)).1 =
        .ok (⟨[rec], false, 1⟩, s.writeState.currentRev) ∧ rec.lease = id := by
  have inv := reachable.inv
  rw [range_single inv (checkReadRev_now), getElem?_readAt_now inv]
  refine (inv.content.attached (leaseKeyIndex id key)).trans ⟨?_, ?_⟩
  · rintro ⟨key', row, isLive, -, same⟩
    obtain ⟨rfl, rfl⟩ := leaseKeyIndex_inj.mp same
    exact ⟨row.record, by simp [isLive], rfl⟩
  · rintro ⟨rec, read, rfl⟩
    cases isLive : liveRow s.content.cells key with
    | none => simp [isLive] at read
    | some row =>
      obtain rfl : row.record = rec := by simpa [isLive] using read
      exact ⟨key, row, isLive, nonzero, rfl⟩

theorem leaseKeys_are_live_keys_put :
    let s := ((Store.open Tables.empty).apply [.put [97] [1] 7 false false false,
      .put [98] [1] 7 false false false, .put [97] [] 0 true false false] true).2
    leaseKeyIndex 7 [98] ∈ s.engine.leaseKeys ↔
      ∃ rec, (s.rangeWithRevision (.single [98] 0)).1 =
        .ok (⟨[rec], false, 1⟩, s.writeState.currentRev) ∧ rec.lease = 7 :=
  leaseKeys_are_live_keys ⟨_, _, .step .start (.apply _ true)⟩ (by decide) [98]

/-! ## Compaction -/

/-- An accepted compaction leaves a store whose floor is `c` and whose reads from there on are what
they were. -/
theorem compact_accepted (inv : s.Inv) {c answer : Int} {t : Store}
    (accepted : s.compact c true = (.ok answer, t)) :
    (0 < c ∧ s.writeState.compactRev ≤ c ∧ c ≤ s.writeState.currentRev) ∧ t.Inv ∧
      t.writeState.revs = ⟨s.writeState.currentRev, c⟩ ∧
      ∀ main, c ≤ main → t.content.readAt (.endOf main) = s.content.readAt (.endOf main) ∧
        ∀ key, liveAt (t.content.life key) (.endOf main) =
          liveAt (s.content.life key) (.endOf main) := by
  rcases compact_cases inv c true with ⟨e, refused⟩ | ⟨positive, rfl, repeated⟩ |
    ⟨positive, later, reached, result⟩
  · cases refused.symm.trans accepted
  · cases repeated.symm.trans accepted
    exact ⟨⟨positive, le_rfl, inv.compact.2⟩, inv, rfl, fun _ _ => ⟨rfl, fun _ => rfl⟩⟩
  · cases result.symm.trans accepted
    refine ⟨⟨positive, later.le, reached⟩, inv.compactedAt positive reached, rfl, fun main le => ?_⟩
    have above : Revision.endOf c ≤ .endOf main := Revision.le_endOf.mpr le
    rw [content_compactedAt inv]
    refine ⟨readAt_compacted inv.content above, fun key => ?_⟩
    rw [life_compacted inv.content, liveAt_trim (inv.content.ascending key) above]

/-- A plan returns a record only if it is live at the plan's revision. -/
theorem mem_plan_hits (inv : s.Inv) {r : RangeOp} {t : Revision} {hit : Bytes × Revision}
    (mem : hit ∈ (planRange s.index {} r.key r.rangeEnd t r.limit r.countOnly).hits) :
    liveAt (s.content.life hit.1) t = some hit.2 := by
  rw [planRange_eq inv.txnStart.inv, overlay_empty] at mem
  have found : hit ∈ (s.content.hits t).scan (inRange · r.key r.rangeEnd) := by
    dsimp only at mem
    split at mem
    · cases mem
    · split at mem
      · exact List.mem_of_mem_take mem
      · exact mem
  rw [← getElem?_hits]
  exact (Table.mem_scan.mp found).1

/-- Two stores at the same revision that see the same at a revision answer a Range of it alike. -/
theorem range_congr {t : Store} (inv : s.Inv) (invT : t.Inv) {r : RangeOp}
    (checked : checkReadRev t.writeState.revs r.revision = checkReadRev s.writeState.revs r.revision)
    (current : t.writeState.currentRev = s.writeState.currentRev)
    (reads : ∀ main, checkReadRev s.writeState.revs r.revision = .ok (.endOf main) →
      t.content.readAt (.endOf main) = s.content.readAt (.endOf main)) :
    (t.rangeWithRevision r).1 = (s.rangeWithRevision r).1 := by
  rcases rangeWithRevision_spec inv r with ⟨e, refused, result⟩ | ⟨main, values, ok, result, -⟩ <;>
  rcases rangeWithRevision_spec invT r with
    ⟨e', refused', result'⟩ | ⟨main', values', ok', result', -⟩ <;>
  rw [result, result']
  · have same := refused'.symm.trans (checked.trans refused)
    rw [Except.error.inj same]
  · cases ok'.symm.trans (checked.trans refused)
  · cases refused'.symm.trans (checked.trans ok)
  · have same : Revision.endOf main' = .endOf main :=
      Except.ok.inj (ok'.symm.trans (checked.trans ok))
    rw [same, reads main ok, current]

/-- What a compaction of `s` at `c` that leaves `t` owes its callers. -/
structure Store.CompactsTo (s : Store) (c : Int) (t : Store) : Prop where
  /-- No read from `c` on is answered otherwise. -/
  reads : ∀ r : RangeOp, r.revision = 0 ∨ c ≤ r.revision →
    (t.rangeWithRevision r).1 = (s.rangeWithRevision r).1
  /-- No such read returns a record that was removed. -/
  removed : ∀ key rev, KvKey.mk key rev ∈ s.engine.kv → KvKey.mk key rev ∉ t.engine.kv →
    ∀ (r : RangeOp) (main : Int), c ≤ main → main ≤ s.writeState.currentRev → (key, rev) ∉
      (planRange s.index {} r.key r.rangeEnd (.endOf main) r.limit r.countOnly).hits
  /-- A record up to `c` is left only if a read at `c` returns it. -/
  remaining : ∀ key rev rec, t.engine.kv[KvKey.mk key rev]? = some rec → rev.main ≤ c →
    (t.rangeWithRevision (.single key c)).1 = .ok (⟨[rec], false, 1⟩, s.writeState.currentRev)
  /-- The same compaction again does nothing. -/
  repeated : ∀ engineOk, t.compact c engineOk = (.ok c, t)

/-- A compaction that is accepted does what it owes, `compactionChanges` finds the keys whose
generations it changes, and one that is refused changes nothing. -/
theorem compact_keeps_reads (reachable : Reachable s) (c : Int) :
    (∀ answer t, s.compact c true = (.ok answer, t) → s.CompactsTo c t) ∧
    (∀ (key : Bytes) gens, s.index[key]? = some gens →
      (compactionChanges gens (.endOf c) = true ↔
        ((KeyIndex.mk key gens).compact (.endOf c)).1.generations ≠ gens)) ∧
    ∀ engineOk e, (s.compact c engineOk).1 = .error e → e ≠ .storage →
      (s.compact c engineOk).2 = s := by
  have inv := reachable.inv
  refine ⟨fun answer t accepted => ?_, fun key gens known => ?_, fun engineOk e failed refused => ?_⟩
  · obtain ⟨⟨positive, later, reached⟩, invT, revs, reads⟩ := compact_accepted inv accepted
    have compact : t.writeState.compactRev = c := congrArg Revs.compact revs
    have current : t.writeState.currentRev = s.writeState.currentRev := congrArg Revs.current revs
    refine ⟨fun r above => ?_, fun key rev stored removed r main low _ hit => ?_,
      fun key rev rec kept low => ?_, fun engineOk => ?_⟩
    · refine range_congr inv invT ?_ current fun main checked => (reads main ?_).1
      · rw [revs]
        simp only [checkReadRev, WriteState.revs]
        grind
      · have same := congrArg Revision.main (checkReadRev_ok checked).1
        simp only [Revision.endOf, WriteState.revs] at same
        grind
    · have seen := (reads main low).2 key
      rw [mem_plan_hits inv hit] at seen
      exact removed ((mem_kv_iff invT).mpr (List.mem_map.mpr ⟨_, (mem_of_liveAt seen).1, rfl⟩))
    · have named := (invT.content.rows key rev rec.deleted).mpr (congrArg _ kept)
      have seen := invT.floor key _ named (by rw [compact]; exact low)
      rw [compact] at seen
      have read : (t.content.readAt (.endOf c))[key]? = some rec := by
        rw [getElem?_readAt, seen]
        exact kept
      rw [range_single invT (checkReadRev_of_le positive compact.le (current ▸ reached)), read,
        current]
      rfl
    · rw [Store.compact, if_neg positive.not_ge, if_neg (by rw [current]; exact reached.not_gt),
        if_neg (by rw [compact]; exact lt_irrefl c), if_pos compact.symm]
  · rw [compact_eq]
    exact compactionChanges_iff _ (inv.content.wellFormed known).2
  · rcases compact_cases inv c engineOk with ⟨_, result⟩ | ⟨-, -, result⟩ | ⟨-, -, -, result⟩ <;>
      rw [result] at failed ⊢
    cases engineOk with
    | true => cases failed
    | false => exact absurd (Except.error.inj failed).symm refused

theorem compact_keeps_reads_overwritten :
    let s := (((Store.open Tables.empty).apply [.put [97] [1] 0 false false false] true).2.apply
      [.put [97] [2] 0 false false false] true).2
    (s.compact 2 true).1 = .ok 2 ∧ s.CompactsTo 2 (s.compact 2 true).2 :=
  ⟨rfl, (compact_keeps_reads ⟨_, _, .step (.step .start (.apply _ true)) (.apply _ true)⟩ 2).1 2 _
    rfl⟩

end Guarantees

end Fastetcd.Mvcc
