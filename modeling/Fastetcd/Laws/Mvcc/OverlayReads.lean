import Fastetcd.Laws.Mvcc.Overlay

/-!
# Reads through an apply context

A Range, a compare and the key search of a range delete walk the resident index, patch it with the
context's indexes and add the keys only the context has. Each of them reads the overlay: the live
keys, the answer of a Range at a revision, and the verdict of a compare are those of the content
that a commit of the context would leave.
-/

namespace Fastetcd.Mvcc

open Timeline Reference KeyIndex Content Std

section Reads

variable {s : Store} {ctx : ApplyContext}

theorem index_overlay (s : Store) (ctx : ApplyContext) (key : Bytes) :
    (overlay s ctx).index[key]? =
      (ctx.idxCache[key]?.map KeyIndex.generations).or s.index[key]? :=
  Table.getElem?_overwrite

/-- The keys of a table's rows are distinct. -/
theorem nodup_filterMap_keys {V W : Type} (t : Table Bytes V) (f : Bytes × V → Option W)
    (key : ∀ {row row' w}, f row = some w → f row' = some w → row.1 = row'.1) :
    (t.toList.filterMap f).Nodup := by
  have sorted : SortedRows t.toList := t.ordered_keys_toList
  refine List.pairwise_filterMap.mpr (sorted.imp fun {a b} lt w hw w' hw' eq => ?_)
  subst eq
  rw [keyCmp, key hw hw', ReflOrd.compare_self] at lt
  cases lt

/-! ## Live keys -/

theorem isLive_overlay (inv : (overlay s ctx).Inv) (key own : Bytes) :
    KeyIndex.isLive ⟨own, (overlay s ctx).gens key⟩ = (liveRow (overlay s ctx).cells key).isSome := by
  have nonempty := (inv.wellFormed_gens key).nonempty
  rw [isLive_eq nonempty, currentOf_eq_live nonempty]
  cases isLive : live ((overlay s ctx).life key) with
  | none =>
    rw [inv.liveRow_eq_none.mpr isLive]
    rw [life] at isLive
    rw [isLive]
    rfl
  | some rev =>
    obtain ⟨rec, -, -, row⟩ := inv.liveRow_of_live isLive
    rw [row]
    rw [life] at isLive
    rw [isLive]
    rfl

/-- A live key of the overlay is in the index or in the context. -/
theorem known_of_liveRow {key : Bytes} {row : Row}
    (h : liveRow (overlay s ctx).cells key = some row) :
    (∃ gens, s.index[key]? = some gens) ∨ ∃ idx, ctx.idxCache[key]? = some idx := by
  rw [liveRow, cells, ExtTreeMap.getElem?_map, index_overlay] at h
  cases held : ctx.idxCache[key]? with
  | some idx => exact .inr ⟨idx, rfl⟩
  | none =>
    cases resident : s.index[key]? with
    | some gens => exact .inl ⟨gens, rfl⟩
    | none => simp [held, resident] at h

theorem sees_eq (inv : (overlay s ctx).Inv) {key : Bytes} {gens : List Generation}
    (resident : s.index[key]? = some gens) :
    ctx.sees (key, gens) = (liveRow (overlay s ctx).cells key).isSome := by
  rw [← isLive_overlay inv key key, gens_overlay, resident, ApplyContext.sees]
  cases ctx.idxCache[key]? <;> rfl

theorem mem_residentLiveKeys (inv : (overlay s ctx).Inv) {key rangeEnd k : Bytes} :
    k ∈ s.residentLiveKeys ctx key rangeEnd ↔ (∃ gens, s.index[k]? = some gens) ∧
      inRange k key rangeEnd = true ∧ (liveRow (overlay s ctx).cells k).isSome = true := by
  simp only [Store.residentLiveKeys, indexRange_eq_scan, List.mem_filterMap, Prod.exists,
    Table.mem_scan, Option.ite_none_right_eq_some, Option.some.injEq]
  constructor
  · rintro ⟨k', gens, ⟨resident, inside⟩, isLive, rfl⟩
    exact ⟨⟨gens, resident⟩, inside, sees_eq inv resident ▸ isLive⟩
  · rintro ⟨⟨gens, resident⟩, inside, isLive⟩
    exact ⟨k, gens, ⟨resident, inside⟩, (sees_eq inv resident).trans isLive, rfl⟩

theorem mem_createdLiveKeys (inv : (overlay s ctx).Inv) {key rangeEnd k : Bytes}
    {found : List Bytes} :
    k ∈ ctx.createdLiveKeys key rangeEnd found ↔ (∃ idx, ctx.idxCache[k]? = some idx) ∧
      inRange k key rangeEnd = true ∧ (liveRow (overlay s ctx).cells k).isSome = true ∧
        k ∉ found := by
  have liveness {idx : KeyIndex} (held : ctx.idxCache[k]? = some idx) :
      idx.isLive = (liveRow (overlay s ctx).cells k).isSome := by
    rw [← isLive_overlay inv k idx.key, gens_overlay, held]
  simp only [ApplyContext.createdLiveKeys, List.mem_filterMap, Prod.exists,
    ExtTreeMap.mem_toList_iff_getElem?_eq_some, Option.ite_none_right_eq_some, Option.some.injEq,
    Bool.and_eq_true, Bool.not_eq_true', List.contains_eq_mem, decide_eq_false_iff_not]
  constructor
  · rintro ⟨k', idx, held, ⟨⟨inside, isLive⟩, fresh⟩, rfl⟩
    exact ⟨⟨idx, held⟩, inside, liveness held ▸ isLive, fresh⟩
  · rintro ⟨⟨idx, held⟩, inside, isLive, fresh⟩
    exact ⟨k, idx, held, ⟨⟨inside, (liveness held).trans isLive⟩, fresh⟩, rfl⟩

/-- The keys a range delete finds are the overlay's live keys in the range, in order. -/
theorem liveKeysInRange_eq (inv : (overlay s ctx).Inv) (key rangeEnd : Bytes) :
    s.liveKeysInRange ctx key rangeEnd =
      ((liveRows (overlay s ctx).cells).scan (inRange · key rangeEnd)).map Prod.fst := by
  refine merge_eq_of_ascending ?_ ?_ ?_ ?_ ?_
  · rw [Store.residentLiveKeys, indexRange_eq_scan]
    refine List.pairwise_filterMap.mpr ((s.index.scan_ascending _).imp ?_)
    intro a b lt x hx y hy
    rw [← Option.some.inj (Option.ite_none_right_eq_some.mp hx).2,
      ← Option.some.inj (Option.ite_none_right_eq_some.mp hy).2]
    exact lt
  · refine nodup_filterMap_keys _ _ fun {row row' k} h h' => ?_
    exact Option.some.inj ((Option.ite_none_right_eq_some.mp h).2.trans
      (Option.ite_none_right_eq_some.mp h').2.symm)
  · exact fun k hk => ((mem_createdLiveKeys inv).mp hk).2.2.2
  · exact List.pairwise_map.mpr ((liveRows (overlay s ctx).cells).scan_ascending _)
  · intro k
    rw [mem_createdLiveKeys inv, mem_residentLiveKeys inv]
    simp only [List.mem_map, Prod.exists, Table.mem_scan, getElem?_liveRows, exists_and_right,
      exists_eq_right]
    constructor
    · rintro ⟨⟨row, isLive⟩, inside⟩
      have isSome : (liveRow (overlay s ctx).cells k).isSome = true := by simp [isLive]
      by_cases resident : ∃ gens, s.index[k]? = some gens
      · exact .inl ⟨resident, inside, isSome⟩
      · exact .inr ⟨(known_of_liveRow isLive).resolve_left resident, inside, isSome,
          fun h => resident h.1⟩
    · rintro (⟨-, inside, isLive⟩ | ⟨-, inside, isLive, -⟩) <;>
        exact ⟨Option.isSome_iff_exists.mp isLive, inside⟩

/-! ## Ranges -/

/-- Each key live at `t`, with the revision of the record to return. -/
def Content.hits (C : Content) (t : Revision) : Table Bytes Revision :=
  C.index.filterMap fun _ gens => liveAt (lifeOf gens) t

theorem getElem?_hits (C : Content) (t : Revision) (key : Bytes) :
    (C.hits t)[key]? = liveAt (C.life key) t := by
  rw [Content.hits, ExtTreeMap.getElem?_filterMap', life, gens]
  cases C.index[key]? <;> rfl

theorem revisionAt_patch (inv : (overlay s ctx).Inv) {key : Bytes} {gens : List Generation}
    (resident : s.index[key]? = some gens) (t : Revision) :
    revisionAt (ctx.patch (key, gens)) t = liveAt ((overlay s ctx).life key) t := by
  have patched : ctx.patch (key, gens) = (overlay s ctx).gens key := by
    rw [gens_overlay, resident, ApplyContext.patch]
    rfl
  rw [patched, revisionAt_eq_liveAt (inv.wellFormed_gens key), life]

theorem mem_walkIndex (inv : (overlay s ctx).Inv) {key rangeEnd : Bytes} {t : Revision}
    {hit : Bytes × Revision} :
    hit ∈ walkIndex s.index ctx key rangeEnd t ↔ (∃ gens, s.index[hit.1]? = some gens) ∧
      inRange hit.1 key rangeEnd = true ∧ liveAt ((overlay s ctx).life hit.1) t = some hit.2 := by
  obtain ⟨k, rev⟩ := hit
  simp only [walkIndex, indexRange_eq_scan, List.mem_filterMap, Prod.exists, Table.mem_scan,
    Option.map_eq_some_iff, Prod.mk.injEq]
  constructor
  · rintro ⟨k, gens, ⟨resident, inside⟩, rev, seen, rfl, rfl⟩
    exact ⟨⟨gens, resident⟩, inside, revisionAt_patch inv resident t ▸ seen⟩
  · rintro ⟨⟨gens, resident⟩, inside, seen⟩
    exact ⟨k, gens, ⟨resident, inside⟩, rev, (revisionAt_patch inv resident t).trans seen, rfl, rfl⟩

theorem mem_pendingHits (inv : (overlay s ctx).Inv) {key rangeEnd : Bytes} {t : Revision}
    {hit : Bytes × Revision} :
    hit ∈ pendingHits s.index ctx key rangeEnd t ↔ s.index[hit.1]? = none ∧
      (∃ idx, ctx.idxCache[hit.1]? = some idx) ∧ inRange hit.1 key rangeEnd = true ∧
        liveAt ((overlay s ctx).life hit.1) t = some hit.2 := by
  obtain ⟨k, rev⟩ := hit
  have lookup {idx : KeyIndex} (held : ctx.idxCache[k]? = some idx) :
      idx.revisionAt t = liveAt ((overlay s ctx).life k) t := by
    have own : (overlay s ctx).gens k = idx.generations := by rw [gens_overlay, held]
    rw [KeyIndex.revisionAt, ← own, revisionAt_eq_liveAt (inv.wellFormed_gens k), life]
  simp only [pendingHits, List.mem_filterMap, Prod.exists,
    ExtTreeMap.mem_toList_iff_getElem?_eq_some, Option.ite_none_left_eq_some,
    Option.map_eq_some_iff, Prod.mk.injEq, Bool.or_eq_true, Bool.not_eq_true', not_or,
    Bool.not_eq_false, Bool.not_eq_true, ExtTreeMap.contains_eq_isSome_getElem?,
    Option.isSome_eq_false_iff, Option.isNone_iff_eq_none]
  constructor
  · rintro ⟨k, idx, held, ⟨inside, absent⟩, rev, seen, rfl, rfl⟩
    exact ⟨absent, ⟨idx, held⟩, inside, lookup held ▸ seen⟩
  · rintro ⟨absent, ⟨idx, held⟩, inside, seen⟩
    exact ⟨k, idx, held, ⟨inside, absent⟩, rev, (lookup held).trans seen, rfl, rfl⟩

/-- A key the overlay finds at `t` is in the index or in the context. -/
theorem known_of_liveAt {key : Bytes} {t rev : Revision}
    (seen : liveAt ((overlay s ctx).life key) t = some rev) :
    (∃ gens, s.index[key]? = some gens) ∨ ∃ idx, ctx.idxCache[key]? = some idx := by
  rw [life, gens_overlay] at seen
  cases held : ctx.idxCache[key]? with
  | some idx => exact .inr ⟨idx, rfl⟩
  | none =>
    cases resident : s.index[key]? with
    | some gens => exact .inl ⟨gens, rfl⟩
    | none => simp [held, resident, liveAt, lastAt, put?] at seen

/-- The walk and the keys only the context has, merged, are the overlay's matches. -/
theorem merged_hits (inv : (overlay s ctx).Inv) (key rangeEnd : Bytes) (t : Revision) :
    (if (pendingHits s.index ctx key rangeEnd t).isEmpty then walkIndex s.index ctx key rangeEnd t
      else (walkIndex s.index ctx key rangeEnd t ++
        pendingHits s.index ctx key rangeEnd t).mergeSort fun a b => (keyCmp a b).isLE) =
      ((overlay s ctx).hits t).scan (inRange · key rangeEnd) := by
  refine merge_eq_of_ascending ?_ ?_ ?_ (Table.scan_ascending _ _) ?_
  · rw [walkIndex, indexRange_eq_scan]
    refine List.pairwise_filterMap.mpr ((s.index.scan_ascending _).imp ?_)
    intro a b lt x hx y hy
    obtain ⟨_, -, rfl⟩ := Option.map_eq_some_iff.mp hx
    obtain ⟨_, -, rfl⟩ := Option.map_eq_some_iff.mp hy
    exact lt
  · refine nodup_filterMap_keys _ _ fun {row row' hit} h h' => ?_
    obtain ⟨_, -, rfl⟩ := Option.map_eq_some_iff.mp (Option.ite_none_left_eq_some.mp h).2
    obtain ⟨_, -, same⟩ := Option.map_eq_some_iff.mp (Option.ite_none_left_eq_some.mp h').2
    exact (Prod.mk.inj same).1.symm
  · intro hit pending walked
    obtain ⟨gens, resident⟩ := ((mem_walkIndex inv).mp walked).1
    rw [((mem_pendingHits inv).mp pending).1] at resident
    cases resident
  · intro hit
    rw [Table.mem_scan, getElem?_hits, mem_walkIndex inv, mem_pendingHits inv]
    constructor
    · rintro ⟨seen, inside⟩
      cases resident : s.index[hit.1]? with
      | some gens => exact .inl ⟨⟨gens, rfl⟩, inside, seen⟩
      | none =>
        refine .inr ⟨rfl, (known_of_liveAt seen).resolve_left ?_, inside, seen⟩
        simp [resident]
    · rintro (⟨-, inside, seen⟩ | ⟨-, -, inside, seen⟩) <;> exact ⟨seen, inside⟩

theorem planRange_eq (inv : (overlay s ctx).Inv) (key rangeEnd : Bytes) (t : Revision)
    (limit : Nat) (countOnly : Bool) :
    let found := ((overlay s ctx).hits t).scan (inRange · key rangeEnd)
    planRange s.index ctx key rangeEnd t limit countOnly =
      { hits := if countOnly then [] else if limit > 0 then found.take limit else found
        total := found.length
        more := !countOnly && decide (limit > 0) && decide (found.length > limit) } := by
  have merged := merged_hits inv key rangeEnd t
  have pending : (if (!ctx.idxCache.isEmpty) = true then pendingHits s.index ctx key rangeEnd t
      else []) = pendingHits s.index ctx key rangeEnd t := by
    split
    · rfl
    · next none =>
      have none : ctx.idxCache = ∅ := ExtTreeMap.isEmpty_iff.mp (by simpa using none)
      simp [pendingHits, none]
  have count : (walkIndex s.index ctx key rangeEnd t).length +
      (pendingHits s.index ctx key rangeEnd t).length =
        (((overlay s ctx).hits t).scan (inRange · key rangeEnd)).length := by
    rw [← merged]
    split
    · next none => simp [List.isEmpty_iff.mp none]
    · simp
  simp only [planRange, pending, count, RangePlan.mk.injEq, and_true]
  cases countOnly with
  | true => simp
  | false =>
    simp only [Bool.false_or, Bool.false_eq_true, if_false]
    by_cases quiet : ctx.idxCache.isEmpty = true
    · -- Nothing is pending, so the walk alone is the match list and may be cut early.
      have none : pendingHits s.index ctx key rangeEnd t = [] := by
        rw [← pending]
        simp [quiet]
      rw [none, List.isEmpty_nil, if_pos rfl] at merged
      by_cases bounded : limit > 0 <;> simp [none, merged, quiet, bounded]
    · simp only [quiet, Bool.not_false, Bool.not_true, Bool.and_false, Bool.false_eq_true, if_false,
        merged]

/-- The record of a match: the context holds it only as the newest one, so a match at an older
revision is read from the engine. -/
theorem recordAt_spec (coherent : Coherent s ctx) (inv : (overlay s ctx).Inv) (cache : CacheOk s)
    {key : Bytes} {main : Int} {rev : Revision}
    (seen : liveAt ((overlay s ctx).life key) (Revision.endOf main) = some rev)
    (reach : main ≤ s.writeState.currentRev ∨ ∀ w ∈ (overlay s ctx).life key, w.1.main ≤ main) :
    ∃ rec disk, (overlay s ctx).kv[KvKey.mk key rev]? = some rec ∧
      s.recordAt s.engine ctx key rev = .ok (rec, disk) := by
  obtain ⟨named, reached⟩ := mem_of_liveAt seen
  obtain ⟨rec, found, -⟩ := inv.exists_record named
  have below : rev.main ≤ main := Revision.le_endOf.mp reached
  have stored (same : (overlay s ctx).kv[KvKey.mk key rev]? = s.engine.kv[KvKey.mk key rev]?) :
      ∃ disk, s.storedRecord s.engine key rev = .ok (rec, disk) := by
    rw [same] at found
    rcases valueGet_eq cache found with miss | hit
    · exact ⟨true, by simp [Store.storedRecord, miss, readRecord, found, Except.map]⟩
    · exact ⟨false, by simp [Store.storedRecord, hit]⟩
  refine ⟨rec, ?_⟩
  unfold Store.recordAt
  cases held : ctx.latestRecordCache[key]? with
  | none =>
    obtain ⟨disk, read⟩ := stored (coherent.untouched (.inl ((coherent.cached key).mp held)))
    exact ⟨disk, found, read⟩
  | some rec' =>
    obtain ⟨newest, last, newestStored⟩ := coherent.newest held
    have newestNamed := List.mem_of_getLast? last
    have newestMain : rec'.modRevision = newest.main := (inv.record newestStored).2
    by_cases isNewest : newest = rev
    · -- The match is the newest write, which is a put.
      subst isNewest
      have flag : rec'.deleted = false := (inv.ascending key).flag_unique newestNamed named
      rw [newestStored] at found
      obtain rfl := Option.some.inj found
      exact ⟨false, newestStored, by simp [KvRecord.isTombstone, flag, newestMain]⟩
    · have unreached : ¬ newest ≤ Revision.endOf main := by
        -- Otherwise the reader would see the newest write.
        intro reachedNewest
        have lastSeen : lastAt ((overlay s ctx).life key) (Revision.endOf main) =
            some (newest, rec'.deleted) := by
          obtain ⟨early, split⟩ := List.getLast?_eq_some_iff.mp last
          rw [split, lastAt_append, lastAt_eq_getLast? (by simpa using reachedNewest)]
          rfl
        rw [liveAt, lastSeen, put?_eq_some] at seen
        exact isNewest (Prod.mk.inj (Option.some.inj seen)).1
      have older : rev.main ≤ s.writeState.currentRev :=
        reach.elim below.trans fun all =>
          absurd (Revision.le_endOf.mpr (all _ newestNamed)) unreached
      have otherMain : rec'.modRevision ≠ rev.main := by
        rw [newestMain]
        rw [Revision.le_endOf] at unreached
        omega
      obtain ⟨disk, read⟩ := stored (coherent.untouched (.inr older))
      exact ⟨disk, found, by simpa [otherMain] using read⟩

/-- Fetching the matches of a plan gives their records, in order. -/
theorem fetchRecords_spec (coherent : Coherent s ctx) (inv : (overlay s ctx).Inv)
    (cache : CacheOk s) {main : Int}
    (reach : main ≤ s.writeState.currentRev ∨
      ∀ key, ∀ w ∈ (overlay s ctx).life key, w.1.main ≤ main) (hits : List (Bytes × Revision))
    (seen : ∀ hit ∈ hits,
      liveAt ((overlay s ctx).life hit.1) (Revision.endOf main) = some hit.2) :
    ∃ recs, s.fetchRecords s.engine ctx hits = .ok recs ∧
      recs.map (some ·.1) = hits.map fun hit => (overlay s ctx).kv[KvKey.mk hit.1 hit.2]? := by
  induction hits with
  | nil => exact ⟨[], rfl, rfl⟩
  | cons hit hits ih =>
    obtain ⟨rec, disk, found, read⟩ := recordAt_spec coherent inv cache (seen hit (by simp))
      (reach.imp_right fun all => all hit.1)
    obtain ⟨recs, fetched, same⟩ := ih fun h mem => seen h (by simp [mem])
    refine ⟨(rec, disk) :: recs, ?_, by simp [found, same]⟩
    obtain ⟨key, rev⟩ := hit
    simp only [Store.fetchRecords, read, fetched]
    rfl

/-- The records of the overlay's matches are those live at the revision. -/
theorem scan_readAt (C : Content) (inv : C.Inv) (t : Revision) (p : Bytes → Bool) :
    ((C.readAt t).scan p).map (fun row => some row.2) =
      ((C.hits t).scan p).map fun hit => C.kv[KvKey.mk hit.1 hit.2]? := by
  have same : (C.readAt t).map (fun _ rec => some rec) =
      (C.hits t).map fun key rev => C.kv[KvKey.mk key rev]? := by
    refine ExtTreeMap.ext_getElem? fun key => ?_
    rw [ExtTreeMap.getElem?_map, ExtTreeMap.getElem?_map, getElem?_readAt, getElem?_hits]
    cases seen : liveAt (C.life key) t with
    | none => rfl
    | some rev =>
      obtain ⟨rec, found, -⟩ := inv.exists_record (mem_of_liveAt seen).1
      simp [found]
  have scans := congrArg (fun u => (Table.scan u p).map Prod.snd) same
  simpa only [Table.scan_map, List.map_map, Function.comp_def] using scans

/-- A plan and its records make the answer over the records live at the revision. -/
theorem answer_of_plan {C : Content} (inv : C.Inv) {t : Revision} {r : RangeOp}
    {plan : RangePlan} {recs : List (KvRecord × Bool)}
    (planned : plan =
      let found := (C.hits t).scan (inRange · r.key r.rangeEnd)
      { hits := if r.countOnly then [] else if r.limit > 0 then found.take r.limit else found
        total := found.length
        more := !r.countOnly && decide (r.limit > 0) && decide (found.length > r.limit) })
    (fetched : recs.map (some ·.1) =
      plan.hits.map fun hit => C.kv[KvKey.mk hit.1 hit.2]?) :
    plan.intoResult (recs.map fun rec => trim rec.1 r.keysOnly) r.countOnly =
      answer (C.readAt t) r := by
  have scans := scan_readAt C inv t (inRange · r.key r.rangeEnd)
  have count := congrArg List.length scans
  simp only [List.length_map] at count
  subst planned
  simp only [RangePlan.intoResult, answer, RangeResult.mk.injEq, count, and_true]
  cases counting : r.countOnly with
  | true => rfl
  | false =>
    simp only [counting, Bool.false_eq_true, if_false] at fetched ⊢
    have cut : recs.map (some ·.1) =
        (if r.limit > 0 then ((C.readAt t).scan (inRange · r.key r.rangeEnd)).take r.limit
          else (C.readAt t).scan (inRange · r.key r.rangeEnd)).map fun row => some row.2 := by
      rw [fetched]
      split
      · rw [List.map_take, List.map_take, scans]
      · rw [scans]
    have same := List.map_injective_iff.mpr (Option.some_injective KvRecord)
      ((List.map_map (f := Prod.fst) (g := some)).trans
        (cut.trans (List.map_map (f := Prod.snd) (g := some)).symm))
    have trimmed := congrArg (List.map (trim · r.keysOnly)) same
    rwa [List.map_map, List.map_map] at trimmed

/-- Each hit of a plan is its key's live revision at the revision read. -/
theorem liveAt_of_planned (inv : (overlay s ctx).Inv) {key rangeEnd : Bytes} {t : Revision}
    {limit : Nat} {countOnly : Bool} {hit : Bytes × Revision}
    (mem : hit ∈ (planRange s.index ctx key rangeEnd t limit countOnly).hits) :
    liveAt ((overlay s ctx).life hit.1) t = some hit.2 := by
  have mem : hit ∈ ((overlay s ctx).hits t).scan (inRange · key rangeEnd) := by
    simp only [planRange_eq inv] at mem
    split at mem
    · cases mem
    · split at mem
      · exact List.mem_of_mem_take mem
      · exact mem
  rw [← getElem?_hits]
  exact (Table.mem_scan.mp mem).1

/-- Planning a Range and fetching its records gives the answer over the overlay's records at its
revision. -/
theorem fetchRecords_plan (coherent : Coherent s ctx) (inv : (overlay s ctx).Inv)
    (cache : CacheOk s) (r : RangeOp) {main : Int}
    (reach : main ≤ s.writeState.currentRev ∨
      ∀ key, ∀ w ∈ (overlay s ctx).life key, w.1.main ≤ main) :
    let plan := planRange s.index ctx r.key r.rangeEnd (Revision.endOf main) r.limit r.countOnly
    ∃ recs, s.fetchRecords s.engine ctx plan.hits = .ok recs ∧
      recs.map (some ·.1) = plan.hits.map (fun hit => (overlay s ctx).kv[KvKey.mk hit.1 hit.2]?) ∧
      plan.intoResult (recs.map fun rec => trim rec.1 r.keysOnly) r.countOnly =
        answer ((overlay s ctx).readAt (Revision.endOf main)) r := by
  intro plan
  have planned := planRange_eq inv r.key r.rangeEnd (Revision.endOf main) r.limit r.countOnly
  obtain ⟨recs, fetched, same⟩ :=
    fetchRecords_spec coherent inv cache reach plan.hits fun _ => liveAt_of_planned inv
  exact ⟨recs, fetched, same, answer_of_plan inv planned same⟩

/-- A Range inside a txn answers over the overlay's records at its revision. -/
theorem rangeInner_eq (coherent : Coherent s ctx) (inv : (overlay s ctx).Inv) (cache : CacheOk s)
    {revs : Revs} {r : RangeOp} {main : Int}
    (checked : checkReadRev revs r.revision = .ok (Revision.endOf main))
    (reach : main ≤ s.writeState.currentRev ∨
      ∀ key, ∀ w ∈ (overlay s ctx).life key, w.1.main ≤ main) :
    s.rangeInner s.engine ctx revs r =
      .ok (answer ((overlay s ctx).readAt (Revision.endOf main)) r) := by
  obtain ⟨recs, fetched, -, result⟩ := fetchRecords_plan coherent inv cache r reach
  simp only [Store.rangeInner, checked, fetched, bind, Except.bind, pure, Except.pure, result]

/-! ## Compares -/

/-- The record at a key's live revision. -/
theorem recordAt_live (coherent : Coherent s ctx) (inv : (overlay s ctx).Inv) (cache : CacheOk s)
    {key : Bytes} {rev : Revision} (isLive : live ((overlay s ctx).life key) = some rev) :
    ∃ disk, s.recordAt s.engine ctx key rev =
      .ok (cellRecord key (liveRow (overlay s ctx).cells key), disk) := by
  have main : ∀ w ∈ (overlay s ctx).life key, w.1.main ≤ rev.main := fun w mem =>
    Revision.main_le_of_le ((inv.ascending key).le_of_live isLive w mem)
  have seen : liveAt ((overlay s ctx).life key) (Revision.endOf rev.main) = some rev := by
    rw [liveAt_eq_live fun w mem => Revision.le_endOf.mpr (main w mem), isLive]
  obtain ⟨rec, disk, found, read⟩ := recordAt_spec coherent inv cache seen (.inr main)
  obtain ⟨rec', found', -, row⟩ := inv.liveRow_of_live isLive
  rw [found] at found'
  obtain rfl := Option.some.inj found'
  exact ⟨disk, by rw [read, row]; rfl⟩

theorem comparedRecord_eq (coherent : Coherent s ctx) (inv : (overlay s ctx).Inv)
    (cache : CacheOk s) (key : Bytes) :
    s.comparedRecord s.engine ctx key (live ((overlay s ctx).life key)) =
      .ok (cellRecord key (liveRow (overlay s ctx).cells key)) := by
  cases isLive : live ((overlay s ctx).life key) with
  | none => simp [Store.comparedRecord, inv.liveRow_eq_none.mpr isLive, cellRecord]
  | some rev =>
    obtain ⟨disk, read⟩ := recordAt_live coherent inv cache isLive
    simp [Store.comparedRecord, read, Except.map]

theorem compareAll_eq (coherent : Coherent s ctx) (inv : (overlay s ctx).Inv) (cache : CacheOk s)
    (cmp : Compare) (targets : List (Bytes × Option Revision))
    (current : ∀ target ∈ targets, target.2 = live ((overlay s ctx).life target.1)) :
    s.compareAll s.engine ctx cmp targets = .ok (targets.all fun target =>
      evalCompare (cellRecord target.1 (liveRow (overlay s ctx).cells target.1)) cmp.op
        cmp.target) := by
  induction targets with
  | nil => rfl
  | cons target targets ih =>
    obtain ⟨key, rev⟩ := target
    obtain rfl : rev = live ((overlay s ctx).life key) := current (key, rev) (by simp)
    simp only [Store.compareAll, comparedRecord_eq coherent inv cache,
      ih fun t mem => current t (by simp [mem]), bind, Except.bind, pure, Except.pure, List.all_cons]
    cases evalCompare (cellRecord key (liveRow (overlay s ctx).cells key)) cmp.op cmp.target <;> rfl

theorem currentIn_eq (inv : (overlay s ctx).Inv) (key : Bytes) :
    ctx.currentIn key s.index[key]? = live ((overlay s ctx).life key) := by
  rw [life, ← currentOf_eq_live (inv.wellFormed_gens key).nonempty, gens_overlay,
    ApplyContext.currentIn]
  cases ctx.idxCache[key]? with
  | some idx => exact current_map_fst idx
  | none => cases s.index[key]? <;> rfl

theorem getElem?_cells (C : Content) (key : Bytes) :
    C.cells[key]? = C.index[key]?.map fun _ => liveRow C.cells key := by
  rw [liveRow_cells, gens, cells, ExtTreeMap.getElem?_map]
  cases C.index[key]? <;> rfl

/-- A range compare covers the keys of the overlay's cells. -/
theorem mem_compareTargetsIn (inv : (overlay s ctx).Inv) {cmp : Compare}
    (ranged : cmp.rangeEnd.isEmpty = false) {key : Bytes} {rev : Option Revision} :
    (key, rev) ∈ compareTargetsIn s.index ctx cmp ↔
      rev = live ((overlay s ctx).life key) ∧ inRange key cmp.key cmp.rangeEnd = true ∧
        ((overlay s ctx).index[key]?).isSome = true := by
  have own {idx : KeyIndex} (held : ctx.idxCache[key]? = some idx) :
      idx.current.map Prod.fst = live ((overlay s ctx).life key) := by
    rw [← currentIn_eq inv key, ApplyContext.currentIn, held]
  simp only [compareTargetsIn, ranged, Bool.false_eq_true, if_false, indexRange_eq_scan,
    List.mem_append, List.mem_map, List.mem_filterMap, Prod.exists, Table.mem_scan,
    Prod.mk.injEq, ExtTreeMap.mem_toList_iff_getElem?_eq_some, Option.ite_none_right_eq_some,
    Option.some.injEq, Bool.and_eq_true, Bool.not_eq_true', ExtTreeMap.contains_eq_isSome_getElem?,
    Option.isSome_eq_false_iff, Option.isNone_iff_eq_none, index_overlay]
  constructor
  · rintro (⟨k, gens, ⟨resident, inside⟩, rfl, rfl⟩ | ⟨k, idx, held, ⟨inside, absent⟩, rfl, rfl⟩)
    · exact ⟨by rw [← resident, currentIn_eq inv], inside, by simp [resident]⟩
    · exact ⟨own held, inside, by simp [held]⟩
  · rintro ⟨rfl, inside, known⟩
    cases resident : s.index[key]? with
    | some gens =>
      exact .inl ⟨key, gens, ⟨resident, inside⟩, rfl, by rw [← resident, currentIn_eq inv]⟩
    | none =>
      cases held : ctx.idxCache[key]? with
      | some idx => exact .inr ⟨key, idx, held, ⟨inside, resident⟩, rfl, own held⟩
      | none => simp [resident, held] at known

/-- A single-key compare sees the key's cell. -/
theorem evaluateCompare_single (coherent : Coherent s ctx) (inv : (overlay s ctx).Inv)
    (cache : CacheOk s) {cmp : Compare} (single : cmp.rangeEnd.isEmpty = true) :
    s.evaluateCompare s.engine ctx cmp = .ok (holds (overlay s ctx).cells cmp) := by
  by_cases unknown : (s.index[cmp.key]?.isNone && !ctx.idxCache.contains cmp.key) = true
  · have absent : (overlay s ctx).index[cmp.key]? = none := by
      simp only [Bool.and_eq_true, Option.isNone_iff_eq_none, Bool.not_eq_true',
        ExtTreeMap.contains_eq_isSome_getElem?, Option.isSome_eq_false_iff] at unknown
      simp [index_overlay, unknown.1, unknown.2]
    have dead : liveRow (overlay s ctx).cells cmp.key = none := by
      rw [liveRow, getElem?_cells, absent]
      rfl
    simp [Store.evaluateCompare, compareTargetsIn, single, unknown, holds, dead, cellRecord]
  · have targets : compareTargetsIn s.index ctx cmp =
        [(cmp.key, live ((overlay s ctx).life cmp.key))] := by
      rw [← currentIn_eq inv]
      simp only [compareTargetsIn, single, if_true, unknown, Bool.false_eq_true, if_false]
    simp only [Store.evaluateCompare, targets, List.isEmpty_cons, Bool.and_false,
      Bool.false_eq_true, if_false, holds, single, if_true]
    rw [compareAll_eq coherent inv cache cmp _ (by simp)]
    simp

/-- A range compare sees the cell of every known key in the range. -/
theorem evaluateCompare_range (coherent : Coherent s ctx) (inv : (overlay s ctx).Inv)
    (cache : CacheOk s) {cmp : Compare} (ranged : cmp.rangeEnd.isEmpty = false) :
    s.evaluateCompare s.engine ctx cmp = .ok (holds (overlay s ctx).cells cmp) := by
  simp only [Store.evaluateCompare, holds, ranged, Bool.false_and, Bool.false_eq_true, if_false]
  rw [compareAll_eq coherent inv cache cmp _
    fun target mem => ((mem_compareTargetsIn inv ranged).mp mem).1]
  refine congrArg Except.ok (Bool.eq_iff_iff.mpr ?_)
  rw [List.all_eq_true, List.all_eq_true]
  constructor
  · rintro all ⟨key, cell⟩ mem
    obtain ⟨found, inside⟩ := Table.mem_scan.mp mem
    rw [getElem?_cells] at found
    obtain ⟨gens, known, rfl⟩ := Option.map_eq_some_iff.mp found
    exact all (key, _) ((mem_compareTargetsIn inv ranged).mpr
      ⟨rfl, inside, Option.isSome_iff_exists.mpr ⟨gens, known⟩⟩)
  · rintro all ⟨key, rev⟩ mem
    obtain ⟨-, inside, known⟩ := (mem_compareTargetsIn inv ranged).mp mem
    obtain ⟨gens, known⟩ := Option.isSome_iff_exists.mp known
    exact all (key, liveRow (overlay s ctx).cells key)
      (Table.mem_scan.mpr ⟨by rw [getElem?_cells, known]; rfl, inside⟩)

/-- The compares of a txn are decided on the overlay's cells. -/
theorem evaluateCompares_eq (coherent : Coherent s ctx) (inv : (overlay s ctx).Inv)
    (cache : CacheOk s) (compares : List Compare) :
    s.evaluateCompares s.engine ctx compares =
      .ok (compares.all (holds (overlay s ctx).cells)) := by
  induction compares with
  | nil => rfl
  | cons cmp compares ih =>
    have verdict : s.evaluateCompare s.engine ctx cmp = .ok (holds (overlay s ctx).cells cmp) := by
      cases ranged : cmp.rangeEnd.isEmpty with
      | true => exact evaluateCompare_single coherent inv cache ranged
      | false => exact evaluateCompare_range coherent inv cache ranged
    simp only [Store.evaluateCompares, verdict, ih, bind, Except.bind, pure, Except.pure,
      List.all_cons]
    cases holds (overlay s ctx).cells cmp <;> rfl

end Reads

end Fastetcd.Mvcc
