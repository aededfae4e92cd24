import Fastetcd.Laws.Mvcc.Trimming
import Fastetcd.Laws.Mvcc.Commit

/-!
# Compaction

Compacting a content trims every key's timeline at the floor, forgets the keys nothing is left of
and drops the records no timeline names any more (`Content.compacted`). It keeps the agreement of
the tables and every read at or above the floor. A compaction of the store that is accepted leaves
its content compacted, in the tables and in the resident index alike; one that is refused, repeated
or fails leaves everything as it was.
-/

namespace Fastetcd.Mvcc

open Timeline Reference KeyIndex Content Std

/-! ## Contents -/

namespace Content

/-- What a compaction at `c` leaves. -/
def compacted (C : Content) (c : Revision) : Content where
  kv := C.kv.filter fun k _ => !(droppedRevs c (C.gens k.key)).contains k.rev
  index := C.index.filterMap fun _ gens =>
    if (compactGens c gens).isEmpty then none else some (compactGens c gens)
  leaseKeys := C.leaseKeys

section Compacted

variable {C : Content} {c : Revision}

theorem gens_compacted (key : Bytes) :
    (C.compacted c).gens key = compactGens c (C.gens key) := by
  simp only [gens, compacted, ExtTreeMap.getElem?_filterMap']
  cases C.index[key]? with
  | none => rfl
  | some gens =>
    simp only [Option.bind_some, Option.getD_some]
    split
    · next none => exact (List.isEmpty_iff.mp none).symm
    · rfl

theorem getElem?_kv_compacted (key : Bytes) (rev : Revision) :
    (C.compacted c).kv[KvKey.mk key rev]? =
      if rev ∈ droppedRevs c (C.gens key) then none else C.kv[KvKey.mk key rev]? := by
  simp only [compacted, ExtTreeMap.getElem?_filter']
  by_cases dropped : rev ∈ droppedRevs c (C.gens key) <;>
    cases C.kv[KvKey.mk key rev]? <;> simp [dropped]

theorem life_compacted (inv : C.Inv) (key : Bytes) :
    (C.compacted c).life key = Timeline.trim (C.life key) c := by
  rw [life, gens_compacted, lifeOf_compactGens c (inv.wellFormed_gens key), life]

/-- A record that a trimmed timeline still names is kept. -/
theorem kv_compacted_of_mem (inv : C.Inv) {key : Bytes} {rev : Revision} {deleted : Bool}
    (kept : (rev, deleted) ∈ Timeline.trim (C.life key) c) :
    (C.compacted c).kv[KvKey.mk key rev]? = C.kv[KvKey.mk key rev]? := by
  rw [getElem?_kv_compacted, if_neg]
  intro dropped
  exact ((mem_droppedRevs c (inv.wellFormed_gens key)).mp dropped).2 deleted kept

theorem kv_of_compacted {key : Bytes} {rev : Revision} {rec : KvRecord}
    (found : (C.compacted c).kv[KvKey.mk key rev]? = some rec) :
    C.kv[KvKey.mk key rev]? = some rec := by
  rw [getElem?_kv_compacted] at found
  split at found
  · cases found
  · exact found

/-- Compaction changes no read at or above its floor. -/
theorem readAt_compacted (inv : C.Inv) {t : Revision} (above : c ≤ t) :
    (C.compacted c).readAt t = C.readAt t := by
  refine ExtTreeMap.ext_getElem? fun key => ?_
  have same : liveAt ((C.compacted c).life key) t = liveAt (C.life key) t := by
    rw [life_compacted inv, liveAt_trim (inv.ascending key) above]
  rw [getElem?_readAt, getElem?_readAt, same]
  cases seen : liveAt (C.life key) t with
  | none => rfl
  | some rev =>
    rw [← same, life_compacted inv] at seen
    exact kv_compacted_of_mem inv (mem_of_liveAt seen).1

theorem live_compacted (inv : C.Inv) (key : Bytes) :
    live ((C.compacted c).life key) = live (C.life key) := by
  rw [life_compacted inv, live_trim (inv.ascending key)]

/-- Compaction keeps the newest record of every live key. -/
theorem record_compacted (inv : C.Inv) (key : Bytes) :
    (liveRow (C.compacted c).cells key).map Row.record =
      (liveRow C.cells key).map Row.record := by
  have same := live_compacted (c := c) inv key
  rw [map_record_liveRow, map_record_liveRow, same]
  cases isLive : live (C.life key) with
  | none => rfl
  | some rev =>
    rw [← same, life_compacted inv] at isLive
    exact kv_compacted_of_mem inv (mem_of_live isLive)

theorem Inv.compacted (inv : C.Inv) (c : Revision) : (C.compacted c).Inv where
  wellFormed {key gens} found := by
    simp only [Content.compacted, ExtTreeMap.getElem?_filterMap', Option.bind_eq_some_iff,
      Option.ite_none_left_eq_some, Option.some.injEq] at found
    obtain ⟨old, known, some, rfl⟩ := found
    exact ⟨by simpa using some, wellFormed_compactGens c (inv.wellFormed known).2⟩
  rows key rev deleted := by
    rw [life_compacted inv]
    constructor
    · intro kept
      rw [kv_compacted_of_mem inv kept]
      exact (inv.rows key rev deleted).mp ((mem_trim (inv.ascending key)).mp kept).1
    · intro found
      rw [getElem?_kv_compacted] at found
      split at found
      · cases found
      · next undropped =>
        have named := (inv.rows key rev deleted).mpr found
        rw [mem_droppedRevs c (inv.wellFormed_gens key)] at undropped
        obtain ⟨other, kept⟩ : ∃ other, (rev, other) ∈ Timeline.trim (C.life key) c := by
          by_contra none
          exact undropped ⟨⟨deleted, named⟩, fun other kept => none ⟨other, kept⟩⟩
        rwa [(inv.ascending key).flag_unique named ((mem_trim (inv.ascending key)).mp kept).1]
  record found := inv.record (kv_of_compacted found)
  created {key rev rec} isLive found r := by
    rw [live_compacted inv] at isLive
    rw [gens_compacted, openCreated_compactGens c (inv.wellFormed_gens key) isLive]
    exact inv.created isLive (kv_of_compacted found) r
  attached row := by
    have lift {C D : Content} (same : ∀ key, (liveRow C.cells key).map Row.record =
        (liveRow D.cells key).map Row.record) {key : Bytes} {r : Row}
        (isLive : liveRow C.cells key = some r) :
        ∃ r', liveRow D.cells key = some r' ∧ r'.record = r.record := by
      have := same key
      rw [isLive] at this
      exact Option.map_eq_some_iff.mp this.symm
    rw [Content.compacted, inv.attached]
    constructor
    · rintro ⟨key, r, isLive, nonzero, rfl⟩
      obtain ⟨r', isLive', record⟩ := lift (fun key => (record_compacted inv key).symm) isLive
      exact ⟨key, r', isLive', record ▸ nonzero, by rw [record]⟩
    · rintro ⟨key, r, isLive, nonzero, rfl⟩
      obtain ⟨r', isLive', record⟩ := lift (record_compacted inv) isLive
      exact ⟨key, r', isLive', record ▸ nonzero, by rw [record]⟩

end Compacted

end Content

/-! ## The store -/

/-- The records a compaction of these keys deletes. -/
def droppedKeys (c : Revision) (changed : List KeyIndex) : List KvKey :=
  changed.flatMap fun idx => (droppedRevs c idx.generations).map (KvKey.mk idx.key)

/-- The index rows after one key is compacted. -/
def compactRow (c : Revision) (t : Table Bytes KeyIndex) (idx : KeyIndex) : Table Bytes KeyIndex :=
  if (compactGens c idx.generations).isEmpty then t.erase idx.key
  else t.insert idx.key ⟨idx.key, compactGens c idx.generations⟩

theorem commit_compactOps (c : Revision) (idx : KeyIndex) (t : Tables) :
    t.commit (compactOps c idx).1 =
      { t with
        kv := (droppedKeys c [idx]).foldl ExtTreeMap.erase t.kv
        idx := compactRow c t.idx idx } := by
  have deletes (key : Bytes) (revs : List Revision) (t : Tables) :
      t.commit (revs.map fun r => .deleteKv ⟨key, r⟩) =
        { t with kv := (revs.map (KvKey.mk key)).foldl ExtTreeMap.erase t.kv } := by
    induction revs generalizing t with
    | nil => rfl
    | cons r revs ih => simp [Tables.apply, ih]
  simp only [compactOps, compact_eq, Tables.commit_append, deletes, Tables.commit_cons,
    Tables.commit_nil, droppedKeys, List.flatMap_cons, List.flatMap_nil, List.append_nil,
    compactRow]
  split <;> rfl

theorem commit_compactAll (c : Revision) (changed : List KeyIndex) (t : Tables) :
    t.commit (changed.flatMap fun idx => (compactOps c idx).1) =
      { t with
        kv := (droppedKeys c changed).foldl ExtTreeMap.erase t.kv
        idx := changed.foldl (compactRow c) t.idx } := by
  induction changed generalizing t with
  | nil => rfl
  | cons idx changed ih =>
    simp only [List.flatMap_cons, Tables.commit_append, commit_compactOps, ih]
    simp [droppedKeys]

/-- The tables a compaction at `rev` leaves. -/
def compactedTables (s : Store) (rev : Int) : Tables :=
  let changed := compactChanged s.index (Revision.endOf rev)
  { s.engine with
    kv := (droppedKeys (Revision.endOf rev) changed).foldl ExtTreeMap.erase s.engine.kv
    idx := changed.foldl (compactRow (Revision.endOf rev)) s.engine.idx
    metaRows := { s.engine.metaRows with
      compactRev := some rev
      raft := s.pendingRaftMeta.foldl RaftTable.put s.engine.metaRows.raft } }

/-- The store a compaction at `rev` leaves. -/
def Store.compactedAt (s : Store) (rev : Int) : Store :=
  { s with
    engine := compactedTables s rev
    commits := s.commits ++ [compactedTables s rev]
    index := compactIndex (compactChanged s.index (Revision.endOf rev)) rev s.index
    view := ⟨s.writeState.currentRev, rev, s.view.engineCommits + 1, s.view.published + 1⟩
    writeState := { s.writeState with compactRev := rev }
    pendingRaftMeta := [] }

theorem commit_compactBatch (s : Store) (rev : Int) :
    s.engine.commit (compactBatch (compactChanged s.index (Revision.endOf rev)) rev ++
      s.pendingRaftMeta.map (.putMeta ∘ .raft)) = compactedTables s rev := by
  simp only [compactBatch, Tables.commit_append, commit_compactAll, commit_raftRows]
  rfl

/-- What a compaction does: refused, nothing; repeated, nothing; else the compacted store, or
nothing but the loss of the staged metadata if the engine fails. -/
theorem compact_cases {s : Store} (inv : s.Inv) (rev : Int) (engineOk : Bool) :
    (∃ e, s.compact rev engineOk = (.error e, s)) ∨
      (0 < rev ∧ rev = s.writeState.compactRev ∧ s.compact rev engineOk = (.ok rev, s)) ∨
      (0 < rev ∧ s.writeState.compactRev < rev ∧ rev ≤ s.writeState.currentRev ∧
        s.compact rev engineOk = if engineOk then (.ok rev, s.compactedAt rev)
          else (.error .storage, { s with pendingRaftMeta := [] })) := by
  unfold Store.compact
  split
  · exact .inl ⟨_, rfl⟩
  split
  · exact .inl ⟨_, rfl⟩
  split
  · exact .inl ⟨_, rfl⟩
  split
  · next same => exact .inr (.inl ⟨by omega, same, rfl⟩)
  refine .inr (.inr ⟨by omega, by omega, by omega, ?_⟩)
  cases engineOk with
  | true =>
    simp only [Store.foldRaftMeta, Store.raiseFloor, Store.tryCommit, if_true, Store.engineCommit,
      commit_compactBatch]
    rfl
  | false =>
    have view : (s.view.store ⟨s.writeState.currentRev, rev⟩).store s.writeState.revs = s.view := by
      rw [← inv.view]
      rfl
    simp [Store.foldRaftMeta, Store.raiseFloor, Store.tryCommit, view]

section CompactedAt

variable {s : Store}

/-- The test spares only keys that a compaction drops nothing of. -/
theorem mem_droppedKeys (inv : s.Inv) (c : Revision) {k : KvKey} :
    k ∈ droppedKeys c (compactChanged s.index c) ↔ k.rev ∈ droppedRevs c (s.content.gens k.key) := by
  obtain ⟨key, r⟩ := k
  have own : s.content.gens key = s.index[key]?.getD [] := rfl
  simp only [droppedKeys, compactChanged, List.mem_flatMap, List.mem_map, List.mem_filter,
    ExtTreeMap.mem_toList_iff_getElem?_eq_some, Prod.exists, KvKey.mk.injEq, own]
  constructor
  · rintro ⟨idx, ⟨key', gens, ⟨known, -⟩, rfl⟩, r', dropped, rfl, rfl⟩
    rwa [known]
  · intro dropped
    cases known : s.index[key]? with
    | none =>
      rw [known] at dropped
      cases dropped
    | some gens =>
      rw [known, Option.getD_some] at dropped
      have wf := (inv.content.wellFormed known).2
      refine ⟨_, ⟨key, gens, ⟨known, ?_⟩, rfl⟩, r, dropped, rfl, rfl⟩
      refine (compactionChanges_iff c wf).mpr fun same => ?_
      obtain ⟨⟨deleted, named⟩, gone⟩ := (mem_droppedRevs c wf).mp dropped
      rw [← lifeOf_compactGens c wf, same] at gone
      exact gone deleted named

/-- Folding the changed keys over a table, each compacted under its own key, compacts every key:
the others are as a compaction leaves them. -/
theorem getElem?_foldl_changed (inv : s.Inv) {V : Type} {c : Revision}
    {step : Table Bytes V → KeyIndex → Table Bytes V} (row : Bytes → List Generation → V)
    (steps : ∀ t idx k, (step t idx)[k]? = if idx.key = k then
      (if (compactGens c idx.generations).isEmpty then none
        else some (row idx.key (compactGens c idx.generations))) else t[k]?)
    {t : Table Bytes V} (rows : ∀ k : Bytes, t[k]? = s.index[k]?.map (row k)) (k : Bytes) :
    ((compactChanged s.index c).foldl step t)[k]? =
      (s.content.compacted c).index[k]?.map (row k) := by
  have index : (s.content.compacted c).index[k]? = s.index[k]?.bind fun gens =>
      if (compactGens c gens).isEmpty then none else some (compactGens c gens) := by
    rw [Content.compacted, ExtTreeMap.getElem?_filterMap']
    rfl
  rw [compactChanged, List.foldl_map,
    Table.getElem?_foldl_filter (fun t row k => steps t ⟨row.1, row.2⟩ k), index]
  cases known : s.index[k]? with
  | none => rw [rows, known]; rfl
  | some gens =>
    obtain ⟨some, wf⟩ := inv.content.wellFormed known
    simp only [Option.bind_some]
    split
    · split <;> simp [*]
    · next same =>
      have same : compactGens c gens = gens := by
        by_contra changes
        exact same ((compactionChanges_iff c wf).mpr changes)
      simp [rows, known, same, some]

theorem content_compactedAt (inv : s.Inv) (rev : Int) :
    (s.compactedAt rev).content = s.content.compacted (Revision.endOf rev) := by
  have kv : (s.compactedAt rev).engine.kv = (s.content.compacted (Revision.endOf rev)).kv := by
    refine ExtTreeMap.ext_getElem? fun ⟨key, r⟩ => ?_
    rw [getElem?_kv_compacted]
    simp only [Store.compactedAt, compactedTables, Table.getElem?_foldl_erase,
      mem_droppedKeys inv (Revision.endOf rev)]
    rfl
  have index : (s.compactedAt rev).index = (s.content.compacted (Revision.endOf rev)).index := by
    refine ExtTreeMap.ext_getElem? fun key => ?_
    have steps (t : ResidentIndex) (idx : KeyIndex) (k : Bytes) :
        (indexSet t (compactOps (Revision.endOf rev) idx).2.key
          (compactOps (Revision.endOf rev) idx).2.generations)[k]? =
          if idx.key = k then
            (if (compactGens (Revision.endOf rev) idx.generations).isEmpty then none
              else some (compactGens (Revision.endOf rev) idx.generations)) else t[k]? := by
      simp only [compactOps, compact_eq, getElem?_indexSet]
    have folded := getElem?_foldl_changed inv (fun _ gens => gens) steps
      (fun k => Option.map_id'.symm) key
    rw [Option.map_id'] at folded
    exact folded
  simp only [Store.content] at kv index ⊢
  rw [kv, index]
  rfl

theorem idx_compactedAt (inv : s.Inv) (rev : Int) (key : Bytes) :
    (s.compactedAt rev).engine.idx[key]? =
      (s.compactedAt rev).index[key]?.map (KeyIndex.mk key) := by
  have index : (s.compactedAt rev).index = (s.content.compacted (Revision.endOf rev)).index :=
    congrArg Content.index (content_compactedAt inv rev)
  rw [index]
  refine getElem?_foldl_changed inv KeyIndex.mk (fun t idx k => ?_) inv.idx key
  unfold compactRow
  split <;> simp [ExtTreeMap.getElem?_insert, ExtTreeMap.getElem?_erase, *]

/-- A compaction that is accepted keeps the invariant. -/
theorem Store.Inv.compactedAt (inv : s.Inv) {rev : Int} (positive : 0 < rev)
    (reached : rev ≤ s.writeState.currentRev) : (s.compactedAt rev).Inv := by
  have after := content_compactedAt inv rev
  have kept {key : Bytes} {x : Revision × Bool}
      (mem : x ∈ (s.compactedAt rev).content.life key) :
      x ∈ Timeline.trim (s.content.life key) (Revision.endOf rev) := by
    rwa [after, life_compacted inv.content] at mem
  refine ⟨after ▸ inv.content.compacted _, idx_compactedAt inv rev, fun key x mem => ?_, rfl,
    ⟨inv.stored.1, rfl⟩, ⟨positive.le, reached⟩, fun key x mem low => ?_, fun held => ?_⟩
  · exact inv.settled key x ((mem_trim (inv.content.ascending key)).mp (kept mem)).1
  · have asc := inv.content.ascending key
    rw [after, life_compacted inv.content]
    change liveAt _ (Revision.endOf rev) = _
    rw [liveAt_trim asc le_rfl]
    rcases ((mem_trim asc).mp (kept mem)).2 with above | seen
    · exact absurd low (Int.not_le.mpr (Revision.endOf_lt.mp above))
    · exact seen
  · obtain ⟨low, same⟩ := inv.values held
    refine ⟨low, fun stored => same ?_⟩
    refine kv_of_compacted (C := s.content) (c := Revision.endOf rev) ?_
    rw [← after]
    exact stored

end CompactedAt

end Fastetcd.Mvcc
