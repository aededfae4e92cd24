import Fastetcd.Laws.Mvcc.Guarantees

/-!
# History equals the live stream

A watcher that starts in the past is caught up from the tables, one that is live is told each commit
as it happens. The two agree: the ledger of a run, every write it told in the order it told them,
is what the tables hold above the compaction floor (`Ledger`). A commit appends to both, a
compaction takes from the tables only what is at or below its floor.

The order of the catch-up, by revision and then by key, is the order of the ledger because one
range delete removes its keys in key order and every other mutation has a sub-revision of its own.
-/

namespace Fastetcd.Mvcc

open Timeline Reference KeyIndex Content Replay Std

/-- `log` is every write that was told, and what the tables hold above the floor. -/
structure Ledger (told : List EventBatch) (log : List Write) (s : Store) : Prop where
  told : toldEvents told = log.map fun w => (w.rev.main, w.event)
  ordered : Ordered log
  kinds : ∀ w ∈ log, w.event.kv.deleted = decide (w.event.kind = .delete)
  reached : ∀ w ∈ log, w.rev.main ≤ s.writeState.currentRev
  rows : ∀ key rev rec, s.writeState.compactRev < rev.main →
    (s.engine.kv[KvKey.mk key rev]? = some rec ↔
      ∃ w ∈ log, w.pair = (rev, key) ∧ w.event.kv = rec)

/-! ## What the writes of a request add -/

theorem deleted_of_fitsAll {C : Content} {ws : List Write} (fits : C.FitsAll ws) :
    ∀ w ∈ ws, w.event.kv.deleted = decide (w.event.kind = .delete) := by
  induction ws generalizing C with
  | nil => simp
  | cons v ws ih =>
    intro w mem
    rcases List.mem_cons.mp mem with rfl | mem
    · exact fits.1.deleted
    · exact ih fits.2 w mem

/-- The records after `ws` are those before and those of `ws`. -/
theorem getElem?_kv_writes {C : Content} {ws : List Write} (inv : C.Inv) (fits : C.FitsAll ws)
    (key : Bytes) (rev : Revision) (rec : KvRecord) :
    (C.writes ws).kv[KvKey.mk key rev]? = some rec ↔ C.kv[KvKey.mk key rev]? = some rec ∨
      ∃ w ∈ ws, w.pair = (rev, key) ∧ w.event.kv = rec := by
  induction ws generalizing C with
  | nil => simp
  | cons w ws ih =>
    have first : (C.write w).kv[KvKey.mk key rev]? = some rec ↔
        C.kv[KvKey.mk key rev]? = some rec ∨ w.pair = (rev, key) ∧ w.event.kv = rec := by
      rw [getElem?_kv_write]
      split
      · next same =>
        -- The key has no record at the revision of a write that fits.
        obtain ⟨rfl, rfl⟩ := same
        have fresh : C.kv[KvKey.mk w.event.kv.key w.rev]? ≠ some rec := fun held =>
          lt_irrefl _ (fits.1.later _ ((inv.rows _ _ rec.deleted).mpr (congrArg _ held)))
        simp [fresh, Reference.Write.pair]
      · next other =>
        have unlike : w.pair ≠ (rev, key) := fun same =>
          other ⟨(Prod.mk.inj same).2, (Prod.mk.inj same).1⟩
        simp [unlike]
    rw [writes_cons, ih (inv.write fits.1) fits.2, first, or_assoc, List.exists_mem_cons_iff]

theorem toldEvents_append (a b : List EventBatch) :
    toldEvents (a ++ b) = toldEvents a ++ toldEvents b :=
  List.flatMap_append

theorem toldEvents_toldOf {current : Int} {ws : List Write}
    (revs : ∀ w ∈ ws, w.rev.main = current + 1) :
    toldEvents (toldOf current ws) = ws.map fun w => (w.rev.main, w.event) := by
  unfold toldOf
  split
  · next none =>
    rw [List.isEmpty_iff] at none
    subst none
    rfl
  · simp only [toldEvents, List.flatMap_cons, List.flatMap_nil, List.append_nil, List.map_map]
    refine List.map_congr_left fun w mem => ?_
    rw [Function.comp_apply, revs w mem]

/-! ## The ledger of a run -/

section Ledger

variable {s t : Store} {told : List EventBatch} {log : List Write}

theorem Ledger.start : Ledger [] [] (Store.open Tables.empty) := by
  have kv : (Store.open Tables.empty).engine.kv = ∅ := rfl
  refine ⟨rfl, List.Pairwise.nil, by simp, by simp, fun key rev rec _ => ?_⟩
  simp [kv]

/-- A move that keeps the records above its floor and its revision. -/
theorem Ledger.kept (here : Ledger told log s)
    (current : t.writeState.currentRev = s.writeState.currentRev)
    (compact : s.writeState.compactRev ≤ t.writeState.compactRev)
    (rows : ∀ key rev, t.writeState.compactRev < rev.main →
      t.engine.kv[KvKey.mk key rev]? = s.engine.kv[KvKey.mk key rev]?) : Ledger told log t where
  told := here.told
  ordered := here.ordered
  kinds := here.kinds
  reached w mem := current ▸ here.reached w mem
  rows key rev rec above := by
    rw [rows key rev above]
    exact here.rows key rev rec (compact.trans_lt above)

theorem Ledger.wrote (here : Ledger told log s) (inv : s.Inv) {ws : List Write}
    (wrote : Wrote s ws t) : Ledger (told ++ toldOf s.writeState.currentRev ws) (log ++ ws) t := by
  have advance : s.writeState.currentRev ≤ t.writeState.currentRev := by
    rw [wrote.current]
    split <;> omega
  refine ⟨?_, here.ordered.append wrote.ordered fun v hv w hw => ?_, fun w mem => ?_,
    fun w mem => ?_, fun key rev rec above => ?_⟩
  · rw [toldEvents_append, here.told, toldEvents_toldOf wrote.revs, List.map_append]
  · have before := here.reached v hv
    have after := wrote.revs w hw
    exact Revision.lt_iff.mpr (.inl (by omega))
  · rcases List.mem_append.mp mem with old | new
    · exact here.kinds w old
    · exact deleted_of_fitsAll wrote.fits w new
  · rcases List.mem_append.mp mem with old | new
    · exact (here.reached w old).trans advance
    · have some : ws.isEmpty = false := List.isEmpty_eq_false_iff_exists_mem.mpr ⟨w, new⟩
      rw [wrote.revs w new, wrote.current, some]
      exact le_rfl
  · have kv : t.engine.kv = (s.content.writes ws).kv := congrArg Content.kv wrote.content
    have before := here.rows key rev rec (wrote.compact ▸ above)
    have held : s.content.kv = s.engine.kv := rfl
    rw [kv, getElem?_kv_writes inv.content wrote.fits, held, before]
    simp only [List.mem_append, or_and_right, exists_or]

theorem Ledger.compacted (here : Ledger told log s) (inv : s.Inv) {c : Int}
    (later : s.writeState.compactRev < c) : Ledger told log (s.compactedAt c) := by
  refine here.kept rfl later.le fun key rev above => ?_
  have floor : (s.compactedAt c).writeState.compactRev = c := rfl
  rw [floor] at above
  have kv : (s.compactedAt c).engine.kv = (s.content.compacted (.endOf c)).kv :=
    congrArg Content.kv (content_compactedAt inv c)
  have held : s.content.kv = s.engine.kv := rfl
  rw [kv, ← held]
  cases found : s.content.kv[KvKey.mk key rev]? with
  | none =>
    cases left : (s.content.compacted (.endOf c)).kv[KvKey.mk key rev]? with
    | none => rfl
    | some rec => cases found.symm.trans (kv_of_compacted left)
  | some rec =>
    have named := (inv.content.rows key rev rec.deleted).mpr (congrArg _ found)
    have stays : (rev, rec.deleted) ∈ Timeline.trim (s.content.life key) (.endOf c) :=
      (mem_trim (inv.content.ascending key)).mpr ⟨named, .inl (Revision.endOf_lt.mpr above)⟩
    rw [kv_compacted_of_mem inv.content stays, found]

theorem Ledger.move (here : Ledger told log s) (inv : s.Inv) {new : List Effect}
    {more : List EventBatch} (move : Move s new more t) :
    ∃ log, Ledger (told ++ more) log t := by
  cases move with
  | wrote wrote _ => exact ⟨_, here.wrote inv wrote⟩
  | compacted _ later _ =>
    rw [List.append_nil]
    exact ⟨log, here.compacted inv later⟩
  | quiet same =>
    rw [List.append_nil]
    have kv : t.engine.kv = s.engine.kv := congrArg Content.kv same.content
    exact ⟨log, here.kept (congrArg Revs.current same.revs) (congrArg Revs.compact same.revs).ge
      fun key rev _ => by rw [kv]⟩
  | reopened =>
    rw [List.append_nil]
    have revs : (Store.open s.engine).writeState.revs = s.writeState.revs :=
      readWriteState_engine inv
    have kv : (Store.open s.engine).engine.kv = s.engine.kv :=
      congrArg Content.kv (content_open inv)
    exact ⟨log, here.kept (congrArg Revs.current revs) (congrArg Revs.compact revs).ge
      fun key rev _ => by rw [kv]⟩

/-- Every run has a ledger. -/
theorem Run.ledger {effects : List Effect} (run : Run effects told s) : ∃ log, Ledger told log s := by
  refine (Run.invariant (P := fun _ told s => ∃ log, Ledger told log s) ⟨[], .start⟩ ?_ run).2
  rintro effects told s new more t inv ⟨log, here⟩ move
  exact here.move inv move

/-- One batch was told for every revision. -/
structure Numbered (told : List EventBatch) (s : Store) : Prop where
  revisions : told.map EventBatch.revision = (List.range told.length).map fun i : Nat => (i : Int) + 1
  length : (told.length : Int) = s.writeState.currentRev

theorem Run.numbered {effects : List Effect} (run : Run effects told s) : Numbered told s := by
  refine (Run.invariant (P := fun _ told s => Numbered told s) ⟨rfl, rfl⟩ ?_ run).2
  intro effects told s new more t inv here move
  cases move with
  | quiet same =>
    rw [List.append_nil]
    exact ⟨here.revisions, here.length.trans (congrArg Revs.current same.revs).symm⟩
  | compacted =>
    rw [List.append_nil]
    exact ⟨here.revisions, here.length⟩
  | reopened =>
    rw [List.append_nil]
    exact ⟨here.revisions, here.length.trans (congrArg Revs.current (readWriteState_engine inv)).symm⟩
  | @wrote _ ws _ wrote _ =>
    have current := wrote.current
    have revisions := here.revisions
    have length := here.length
    unfold toldOf
    split
    · next none =>
      rw [if_pos none] at current
      rw [List.append_nil]
      exact ⟨revisions, length.trans current.symm⟩
    · next some =>
      rw [if_neg some] at current
      refine ⟨?_, by simp; omega⟩
      simp only [List.map_append, revisions, List.length_append, List.length_singleton,
        List.range_succ, List.map_cons, List.map_nil]
      rw [← length]

theorem Numbered.bounds (here : Numbered told s) {b : EventBatch} (mem : b ∈ told) :
    1 ≤ b.revision ∧ b.revision ≤ s.writeState.currentRev := by
  have length := here.length
  have named := List.mem_map_of_mem (f := EventBatch.revision) mem
  rw [here.revisions] at named
  obtain ⟨i, inside, same⟩ := List.mem_map.mp named
  have := List.mem_range.mp inside
  omega

/-- A write of the ledger was told at a positive revision. -/
theorem Ledger.positive (here : Ledger told log s) (numbered : Numbered told s) {w : Write}
    (mem : w ∈ log) : 1 ≤ w.rev.main := by
  have told : (w.rev.main, w.event) ∈ toldEvents told := by
    rw [here.told]
    exact List.mem_map_of_mem mem
  obtain ⟨b, inTold, inside⟩ := List.mem_flatMap.mp told
  obtain ⟨e, -, same⟩ := List.mem_map.mp inside
  have rev : b.revision = w.rev.main := congrArg Prod.fst same
  exact rev ▸ (numbered.bounds inTold).1

end Ledger

/-- A write that was told above the floor is stored at its revision. -/
theorem Ledger.stored {told : List EventBatch} {log : List Write} {s : Store}
    (here : Ledger told log s) {w : Write} (mem : w ∈ log)
    (above : s.writeState.compactRev < w.rev.main) :
    s.engine.kv[KvKey.mk w.event.kv.key w.rev]? = some w.event.kv :=
  (here.rows _ _ _ above).mpr ⟨w, mem, rfl, rfl⟩

/-! ## The window -/

instance : TransCmp pairCmp :=
  inferInstanceAs (TransCmp (compareLex (compareOn Prod.fst) (compareOn Prod.snd)))

theorem mem_windowPairs {rows : List (Bytes × KeyIndex)} {start stop : Int} {rev : Revision}
    {key : Bytes} :
    (rev, key) ∈ windowPairs rows start stop ↔
      ∃ idx, (key, idx) ∈ rows ∧ rev ∈ generationRevs idx.generations ∧
        start < rev.main ∧ rev.main ≤ stop := by
  simp only [windowPairs, List.mem_flatMap, List.mem_map, List.mem_filter, decide_eq_true_eq,
    Prod.mk.injEq, Prod.exists]
  constructor
  · rintro ⟨k, idx, mem, r, ⟨named, inside⟩, rfl, rfl⟩
    exact ⟨idx, mem, named, inside⟩
  · rintro ⟨idx, mem, named, inside⟩
    exact ⟨key, idx, mem, rev, ⟨named, inside⟩, rfl, rfl⟩

theorem nodup_windowPairs {rows : List (Bytes × KeyIndex)} (sorted : SortedRows rows)
    (distinct : ∀ row ∈ rows, (generationRevs row.2.generations).Nodup) (start stop : Int) :
    (windowPairs rows start stop).Nodup := by
  refine List.nodup_flatMap.mpr ⟨fun row mem => ?_, ?_⟩
  · exact ((distinct row mem).filter _).map fun a b same => (Prod.mk.inj same).1
  · refine (List.pairwise_map.mp sorted.nodup_keys).imp fun {a b} other => ?_
    intro pair inA inB
    obtain ⟨_, -, rfl⟩ := List.mem_map.mp inA
    obtain ⟨_, -, same⟩ := List.mem_map.mp inB
    exact other (Prod.mk.inj same).2.symm

section Window

variable {s : Store} {told : List EventBatch} {log : List Write}

/-- The writes of the ledger in a key range and a window. -/
def windowOf (key rangeEnd : Bytes) (start stop : Int) (log : List Write) : List Write :=
  log.filter fun w => start < w.rev.main ∧ w.rev.main ≤ stop ∧ inRange w.event.kv.key key rangeEnd

theorem Ledger.eventsWithin (here : Ledger told log s) (key rangeEnd : Bytes) (start stop : Int) :
    Mvcc.eventsWithin key rangeEnd start stop (toldEvents told) =
      (windowOf key rangeEnd start stop log).map Write.event := by
  rw [Mvcc.eventsWithin, here.told, windowOf, List.filter_map, List.map_map]
  rfl

/-- The rows of the window are the pairs of the ledger, sorted. -/
theorem Ledger.sorted (here : Ledger told log s) (inv : s.Inv) (key rangeEnd : Bytes)
    {start : Int} (floor : s.writeState.compactRev ≤ max start 0)
    (above : ∀ w ∈ log, start < w.rev.main → s.writeState.compactRev < w.rev.main) (stop : Int) :
    (windowPairs (s.engine.idx.scan (inBounds (rangeBounds key rangeEnd).1
        (rangeBounds key rangeEnd).2)) start stop).mergeSort (fun a b => (pairCmp a b).isLE) =
      (windowOf key rangeEnd start stop log).map Write.pair := by
  have ascending : ((windowOf key rangeEnd start stop log).map Write.pair).Pairwise
      (pairCmp · · = .lt) := List.pairwise_map.mpr (here.ordered.filter _)
  have known (k : Bytes) (idx : KeyIndex) (row : s.engine.idx[k]? = some idx) :
      generationRevs idx.generations = (s.content.life k).map Prod.fst := by
    rw [inv.idx k] at row
    obtain ⟨gens, resident, rfl⟩ := Option.map_eq_some_iff.mp row
    have gens : s.content.gens k = gens := by
      rw [Content.gens, Store.content]
      simp [resident]
    rw [generationRevs_eq, Content.life, gens]
  refine mergeSort_eq_of_perm ((List.perm_ext_iff_of_nodup ?_
    (nodup_of_ascending ascending)).mpr fun pair => ?_) ascending
  · refine nodup_windowPairs (Table.scan_ascending _ _) (fun row mem => ?_) start stop
    rw [known row.1 row.2 (Table.mem_scan.mp mem).1]
    exact (List.pairwise_map.mpr (inv.content.ascending row.1)).imp fun less => less.ne
  · obtain ⟨rev, k⟩ := pair
    rw [mem_windowPairs, List.mem_map]
    simp only [Table.mem_scan, inBounds_rangeBounds]
    constructor
    · rintro ⟨idx, ⟨row, inside⟩, named, window⟩
      rw [known k idx row] at named
      obtain ⟨x, inLife, same⟩ := List.mem_map.mp named
      have positive : 1 ≤ rev.main := same ▸ (inv.settled k x inLife).1
      rw [← mem_kv_iff inv, ExtTreeMap.mem_iff_isSome_getElem?, Option.isSome_iff_exists] at named
      obtain ⟨rec, found⟩ := named
      obtain ⟨w, mem, pair, -⟩ := (here.rows k rev rec (by omega)).mp found
      obtain ⟨rfl, rfl⟩ := Prod.mk.inj pair
      exact ⟨w, List.mem_filter.mpr ⟨mem, by simpa using ⟨window.1, window.2, inside⟩⟩, rfl⟩
    · rintro ⟨w, mem, pair⟩
      obtain ⟨mem, window⟩ := List.mem_filter.mp mem
      obtain ⟨rfl, rfl⟩ := Prod.mk.inj pair
      obtain ⟨low, high, inside⟩ : start < w.rev.main ∧ w.rev.main ≤ stop ∧
          inRange w.event.kv.key key rangeEnd = true := by simpa using window
      have found := here.stored mem (above w mem low)
      have named := (mem_kv_iff inv).mp
        (ExtTreeMap.mem_iff_isSome_getElem?.mpr (by rw [found]; rfl))
      -- A key with a timeline is resident, and so has its row.
      cases row : s.engine.idx[w.event.kv.key]? with
      | some idx => exact ⟨idx, ⟨rfl, inside⟩, by rwa [known _ idx row], low, high⟩
      | none =>
        rw [inv.idx, Option.map_eq_none_iff] at row
        simp [Content.life, Content.gens, Store.content, row] at named

/-- The event of a write of the ledger is read back from its record. -/
theorem Ledger.backfill (here : Ledger told log s) {w : Write} (mem : w ∈ log)
    (above : s.writeState.compactRev < w.rev.main) :
    backfillEvent s.engine w.pair =
      .ok ⟨w.event.kind, w.event.kv, previousLiveRecord s.engine w.event.kv.key w.rev⟩ := by
  have found := here.stored mem above
  have read : readRecord s.engine w.pair.2 w.pair.1 = .ok w.event.kv := by
    rw [readRecord, Reference.Write.pair, found]
  have kind : (if w.event.kv.isTombstone then EventKind.delete else .put) = w.event.kind := by
    rw [KvRecord.isTombstone, here.kinds w mem]
    cases w.event.kind <;> rfl
  rw [backfillEvent, read]
  simp only [bind, Except.bind, pure, Except.pure, kind]
  rfl

/-- What the catch-up from the tables returns to a reader whose check passed: the writes of the
window, each with the record the tables find before it. -/
theorem Ledger.rangeEvents_behind (here : Ledger told log s) (inv : s.Inv) (key rangeEnd : Bytes)
    {start : Int} (floor : s.writeState.compactRev ≤ max start 0)
    (above : ∀ w ∈ log, start < w.rev.main → s.writeState.compactRev < w.rev.main) (stop : Int)
    {view : ReadView} (passed : ¬(start < view.compact ∧ view.compact > 0)) :
    (s.behind view).rangeEventsUntil key rangeEnd start stop =
      .ok ((windowOf key rangeEnd start (min stop view.current) log).map fun w =>
        ⟨w.event.kind, w.event.kv, previousLiveRecord s.engine w.event.kv.key w.rev⟩) := by
  unfold Store.rangeEventsUntil Store.behind
  simp only [min_comm stop]
  rw [if_neg passed]
  split
  · next past =>
    -- The window is empty.
    have none : windowOf key rangeEnd start (min view.current stop) log = [] :=
      List.filter_eq_nil_iff.mpr fun w _ inside => by
        have := of_decide_eq_true inside
        omega
    rw [none]
    rfl
  · rw [here.sorted inv key rangeEnd floor above]
    have ok (w : Write) (mem : w ∈ windowOf key rangeEnd start (min view.current stop) log) :
        backfillEvent s.engine w.pair =
          .ok ⟨w.event.kind, w.event.kv, previousLiveRecord s.engine w.event.kv.key w.rev⟩ := by
      obtain ⟨mem, inside⟩ := List.mem_filter.mp mem
      exact here.backfill mem (above w mem (of_decide_eq_true inside).1)
    exact (List.mapM_map ..).trans (mapM_eq_pure ok)

theorem Ledger.rangeEvents (here : Ledger told log s) (inv : s.Inv) (key rangeEnd : Bytes)
    {start : Int} (floor : s.writeState.compactRev ≤ start) (stop : Int) :
    s.rangeEventsUntil key rangeEnd start stop =
      .ok ((windowOf key rangeEnd start (min stop s.writeState.currentRev) log).map fun w =>
        ⟨w.event.kind, w.event.kv, previousLiveRecord s.engine w.event.kv.key w.rev⟩) := by
  have current : s.view.current = s.writeState.currentRev := congrArg Revs.current inv.view
  have compact : s.view.compact = s.writeState.compactRev := congrArg Revs.compact inv.view
  rw [← current]
  refine here.rangeEvents_behind inv key rangeEnd (floor.trans (le_max_left _ _))
    (fun w _ late => floor.trans_lt late) stop fun refused => ?_
  exact refused.1.not_ge (compact ▸ floor)

end Window

/-- The history of a key range from a revision at or above the compaction floor is the events that
were broadcast live, in the order they were told. -/
theorem rangeEvents_are_told {effects : List Effect} {told : List EventBatch} {s : Store}
    (run : Run effects told s) (key rangeEnd : Bytes) {start : Int}
    (floor : s.writeState.compactRev ≤ start) (stop : Int) :
    ∃ events, s.rangeEventsUntil key rangeEnd start stop = .ok events ∧
      events.map MvccEvent.bare =
        (eventsWithin key rangeEnd start (min stop s.writeState.currentRev)
          (toldEvents told)).map MvccEvent.bare := by
  have inv : s.Inv := Reachable.inv ⟨effects, told, run⟩
  obtain ⟨log, here⟩ := run.ledger
  refine ⟨_, here.rangeEvents inv key rangeEnd floor stop, ?_⟩
  rw [here.eventsWithin, List.map_map, List.map_map]
  rfl

theorem rangeEvents_are_told_deleted :
    let s := (((Store.open Tables.empty).apply [.put [97] [1] 0 false false false,
      .put [98] [2] 0 false false false] true).2.apply [.deleteRange [97] [0] false] true).2
    ∃ events, s.rangeEventsUntil [97] [0] 1 9 = .ok events ∧
      events.map MvccEvent.bare =
        (eventsWithin [97] [0] 1 (min 9 s.writeState.currentRev)
          (toldEvents s.broadcast)).map MvccEvent.bare := by
  have run := Run.step (.step .start (.apply [.put [97] [1] 0 false false false,
    .put [98] [2] 0 false false false] true)) (.apply [.deleteRange [97] [0] false] true)
  exact rangeEvents_are_told run [97] [0] (by decide) 9

end Fastetcd.Mvcc
