import Fastetcd.Laws.Mvcc.Told

/-!
# The record before a replayed event

A live event carries the record its write replaced. A replayed one carries what a search of the
index finds: the newest put of the key before the event, whatever lies between the two. Above the
compaction floor the index has a key's whole past since the floor, and below it what a reader at the
floor sees (`Chronicle`), so the search finds the replaced record of every write to a live key. A put
that creates its key has replaced nothing, but the search goes on into the generation before it, and
finds that generation's last put unless a compaction has dropped it.
-/

namespace Fastetcd.Mvcc

open Timeline Reference KeyIndex Content Replay
open Std (ExtTreeMap)

/-! ## The search -/

theorem find?_reverse {α : Type} (p : α → Bool) (items : List α) :
    items.reverse.find? p = (items.filter p).getLast? := by
  rw [← List.head?_filter, List.filter_reverse, List.head?_reverse]

/-- The search finds the newest put before the revision. -/
theorem previousPut_eq (gens : List Generation) (rev : Revision) :
    previousPut gens rev = putBefore (lifeOf gens) rev := by
  induction gens using List.reverseRecOn with
  | nil => rfl
  | append_singleton older g ih =>
    have own : putBefore g.life rev = g.revs.reverse.find? (· < rev) := by
      rw [find?_reverse, Generation.life, putBefore_append]
      have tomb : putBefore (g.tombstone.map (·, true)).toList rev = none :=
        putBefore_eq_none.mpr (by cases g.tombstone <;> simp)
      rw [tomb, Option.none_or, putBefore, List.filter_map, List.getLast?_map, Option.map_map]
      simp [Function.comp_def]
    have last : previousPut (older ++ [g]) rev =
        (g.revs.reverse.find? (· < rev)).or (previousPut older rev) := by
      simp [previousPut, List.findSome?_cons]
      cases g.revs.reverse.find? (· < rev) <;> rfl
    rw [last, ih, ← own, lifeOf_append, putBefore_append]
    simp

/-! ## A key's past -/

/-- The timeline that the writes of a log give a key. -/
def lifeIn (key : Bytes) (log : List Write) : Timeline Revision :=
  (log.filter fun w => w.event.kv.key = key).map fun w => (w.rev, w.event.kv.deleted)

theorem lifeIn_append (key : Bytes) (a b : List Write) :
    lifeIn key (a ++ b) = lifeIn key a ++ lifeIn key b := by
  rw [lifeIn, List.filter_append, List.map_append, lifeIn, lifeIn]

theorem mem_lifeIn {key : Bytes} {log : List Write} {x : Revision × Bool} :
    x ∈ lifeIn key log ↔
      ∃ w ∈ log, w.event.kv.key = key ∧ (w.rev, w.event.kv.deleted) = x := by
  simp [lifeIn, and_assoc]

theorem ascending_lifeIn {log : List Write} (ordered : Ordered log) (key : Bytes) :
    Timeline.Ascending (lifeIn key log) := by
  refine List.pairwise_map.mpr ?_
  refine (List.Pairwise.filter _ ordered).imp_of_mem fun {v w} hv hw before => ?_
  have ownV : v.event.kv.key = key := by simpa using (List.mem_filter.mp hv).2
  have ownW : w.event.kv.key = key := by simpa using (List.mem_filter.mp hw).2
  simp only [pairCmp, Reference.Write.pair, ownV, ownW, Std.ReflCmp.compare_self,
    Ordering.then_eq] at before
  exact compare_lt_iff_lt.mp before

/-- The ledger of a run together with what the tables still hold of it: of each key the past trimmed
at the compaction floor, and no record that was not told. -/
structure Chronicle (told : List EventBatch) (log : List Write) (s : Store) : Prop where
  ledger : Ledger told log s
  life : ∀ key, s.content.life key =
    Timeline.trim (lifeIn key log) (.endOf s.writeState.compactRev)
  known : ∀ key rev rec, s.engine.kv[KvKey.mk key rev]? = some rec →
    ∃ w ∈ log, w.pair = (rev, key) ∧ w.event.kv = rec

section Chronicle

variable {s t : Store} {told more : List EventBatch} {log : List Write} {new : List Effect}

theorem Chronicle.start : Chronicle [] [] (Store.open Tables.empty) := by
  refine ⟨.start, fun key => rfl, fun key rev rec found => ?_⟩
  have none : (Store.open Tables.empty).engine.kv = ∅ := rfl
  simp [none] at found

theorem Chronicle.move (here : Chronicle told log s) (inv : s.Inv) (move : Move s new more t) :
    ∃ log, Chronicle (told ++ more) log t := by
  -- A store with the same keys and the same floor.
  have kept (content : t.content = s.content)
      (compact : t.writeState.compactRev = s.writeState.compactRev) (ledger : Ledger told log t) :
      Chronicle told log t := by
    refine ⟨ledger, fun key => ?_, fun key rev rec found => ?_⟩
    · rw [content, compact]
      exact here.life key
    · have kv : t.engine.kv = s.engine.kv := congrArg Content.kv content
      rw [kv] at found
      exact here.known key rev rec found
  cases move with
  | wrote wrote _ =>
    refine ⟨_, here.ledger.wrote inv wrote, fun key => ?_, fun key rev rec found => ?_⟩
    · rw [wrote.content, life_writes inv.content wrote.fits, wrote.compact, here.life, lifeIn_append,
        trim_append_late]
      · rfl
      · intro x mem
        obtain ⟨w, written, -, rfl⟩ := mem_lifeIn.mp mem
        have main := wrote.revs w written
        have floor := inv.compact.2
        refine Revision.endOf_lt.mpr ?_
        change s.writeState.compactRev < w.rev.main
        omega
    · have kv : t.engine.kv = (s.content.writes _).kv := congrArg Content.kv wrote.content
      rw [kv, getElem?_kv_writes inv.content wrote.fits] at found
      obtain before | ⟨w, mem, same⟩ := found
      · obtain ⟨w, mem, same⟩ := here.known key rev rec before
        exact ⟨w, List.mem_append_left _ mem, same⟩
      · exact ⟨w, List.mem_append_right _ mem, same⟩
  | @compacted c _ later _ =>
    rw [List.append_nil]
    refine ⟨log, here.ledger.compacted inv later, fun key => ?_, fun key rev rec found => ?_⟩
    · rw [content_compactedAt inv, life_compacted inv.content, here.life]
      exact trim_trim (ascending_lifeIn here.ledger.ordered key) (Revision.le_endOf.mpr later.le)
    · have kv : (s.compactedAt c).engine.kv = (s.content.compacted (.endOf c)).kv :=
        congrArg Content.kv (content_compactedAt inv c)
      rw [kv] at found
      exact here.known key rev rec (kv_of_compacted found)
  | quiet same =>
    rw [List.append_nil]
    have kv : t.engine.kv = s.engine.kv := congrArg Content.kv same.content
    have compact : t.writeState.compactRev = s.writeState.compactRev :=
      congrArg Revs.compact same.revs
    exact ⟨log, kept same.content compact (here.ledger.kept (congrArg Revs.current same.revs)
      compact.ge fun key rev _ => by rw [kv])⟩
  | reopened =>
    rw [List.append_nil]
    have revs : (Store.open s.engine).writeState.revs = s.writeState.revs :=
      readWriteState_engine inv
    have kv : (Store.open s.engine).engine.kv = s.engine.kv :=
      congrArg Content.kv (content_open inv)
    have compact : (Store.open s.engine).writeState.compactRev = s.writeState.compactRev :=
      congrArg Revs.compact revs
    exact ⟨log, kept (content_open inv) compact (here.ledger.kept (congrArg Revs.current revs)
      compact.ge fun key rev _ => by rw [kv])⟩

theorem Run.chronicle {effects : List Effect} (run : Run effects told s) :
    ∃ log, Chronicle told log s := by
  refine (Run.invariant (P := fun _ told s => ∃ log, Chronicle told log s) ⟨[], .start⟩ ?_ run).2
  intro effects told s new more t inv here move
  obtain ⟨log, here⟩ := here
  exact here.move inv move

/-! ## What the search finds -/

theorem previousLiveRecord_eq (inv : s.Inv) (key : Bytes) (rev : Revision) :
    previousLiveRecord s.engine key rev =
      (putBefore (s.content.life key) rev).bind fun r => s.engine.kv[KvKey.mk key r]? := by
  have life : s.content.life key = lifeOf (s.index[key]?.getD []) := rfl
  rw [previousLiveRecord, inv.idx key]
  cases known : s.index[key]? with
  | none =>
    rw [life, known]
    rfl
  | some gens =>
    rw [known, Option.getD_some] at life
    simp only [Option.map_some, previousPut_eq, ← life]
    cases found : putBefore (s.content.life key) rev with
    | none => rfl
    | some r =>
      obtain ⟨rec, stored, put⟩ := inv.content.exists_record (mem_of_putBefore found).1
      have stored : s.engine.kv[KvKey.mk key r]? = some rec := stored
      simp [stored, KvRecord.isTombstone, put]

/-- Two writes of a log at one revision of one key are one. -/
theorem eq_of_pair {log : List Write} (ordered : Ordered log) {v w : Write} (hv : v ∈ log)
    (hw : w ∈ log) (same : v.pair = w.pair) : v = w := by
  have distinct : (log.map Write.pair).Nodup := nodup_of_ascending (List.pairwise_map.mpr ordered)
  exact List.inj_on_of_nodup_map distinct hv hw same

section Before

variable {pre post : List Write} {w : Write}

/-- What the tables have of a key before one of its writes above the floor: its past until then,
trimmed. -/
theorem Chronicle.putBefore_eq (here : Chronicle told (pre ++ w :: post) s)
    (above : s.writeState.compactRev < w.rev.main) :
    putBefore (s.content.life w.event.kv.key) w.rev =
      putBefore (Timeline.trim (lifeIn w.event.kv.key pre) (.endOf s.writeState.compactRev)) w.rev := by
  have ascending := ascending_lifeIn here.ledger.ordered w.event.kv.key
  have own : lifeIn w.event.kv.key (w :: post) =
      (w.rev, w.event.kv.deleted) :: lifeIn w.event.kv.key post := by
    simp [lifeIn]
  rw [lifeIn_append, own] at ascending
  obtain ⟨-, rest, -⟩ := List.pairwise_append.mp ascending
  have later : ∀ x ∈ lifeIn w.event.kv.key (w :: post), w.rev ≤ x.1 := by
    rw [own]
    intro x mem
    obtain rfl | mem := List.mem_cons.mp mem
    · exact le_rfl
    · exact ((List.pairwise_cons.mp rest).1 x mem).le
  have high : Revision.endOf s.writeState.compactRev < w.rev := Revision.endOf_lt.mpr above
  have none : putBefore (lifeIn w.event.kv.key (w :: post)) w.rev = none :=
    putBefore_eq_none.mpr fun x mem _ => later x mem
  rw [here.life, lifeIn_append, trim_append_late fun x mem => high.trans_le (later x mem),
    putBefore_append, none, Option.none_or]

/-- The writes before `w` come before it. -/
theorem Chronicle.early (here : Chronicle told (pre ++ w :: post) s) :
    ∀ x ∈ lifeIn w.event.kv.key pre, x.1 < w.rev := by
  have ascending := ascending_lifeIn here.ledger.ordered w.event.kv.key
  rw [lifeIn_append] at ascending
  intro x mem
  exact (List.pairwise_append.mp ascending).2.2 x mem (w.rev, w.event.kv.deleted)
    (mem_lifeIn.mpr ⟨w, List.mem_cons_self, rfl, rfl⟩)

/-- The last write to a key, if the key is live after it. -/
theorem liveAfter_eq (here : Chronicle told log s) (sub : ∀ v ∈ pre, v ∈ log) (key : Bytes) :
    liveAfter key (pre.map Write.event) = none ∧ live (lifeIn key pre) = none ∨
      ∃ v ∈ pre, v.event.kv.key = key ∧ liveAfter key (pre.map Write.event) = some v.event.kv ∧
        live (lifeIn key pre) = some v.rev := by
  have events : ofKey key (pre.map Write.event) =
      (pre.filter fun w => w.event.kv.key = key).map Write.event := by
    rw [ofKey, List.filter_map]
    rfl
  rw [liveAfter, events, lifeIn, live, List.getLast?_map, List.getLast?_map]
  cases last : (pre.filter fun w => w.event.kv.key = key).getLast? with
  | none => exact .inl ⟨rfl, rfl⟩
  | some v =>
    obtain ⟨mem, own⟩ := List.mem_filter.mp (List.mem_of_getLast? last)
    have flag := here.ledger.kinds v (sub v mem)
    cases kind : v.event.kind with
    | delete => exact .inl ⟨by simp [kind], by simp [flag, kind, put?]⟩
    | put =>
      exact .inr ⟨v, mem, by simpa using own, by simp [kind], by simp [flag, kind, put?]⟩

/-- A delete that the tables still have comes after a put that they still have. -/
theorem put_of_delete (inv : s.Inv) {key : Bytes} {d : Revision}
    (deleted : (d, true) ∈ s.content.life key) : ∃ p < d, (p, false) ∈ s.content.life key := by
  have wf := inv.content.wellFormed_gens key
  obtain ⟨g, mem, own⟩ := List.mem_flatMap.mp deleted
  have tomb : g.tombstone = some d := by simpa using Generation.mem_life.mp own
  obtain ⟨p, put⟩ := List.exists_mem_of_ne_nil _ (wf.nonempty g mem)
  have first : (p, false) ∈ g.life := Generation.mem_life.mpr (by simpa using put)
  have order := (List.pairwise_append.mp (wf.ascending_life mem)).2.2 (p, false) (by simpa using put)
    (d, true) (by simp [tomb])
  exact ⟨p, order, List.mem_flatMap.mpr ⟨g, mem, first⟩⟩

/-- With the key deleted, the search finds nothing exactly if no delete is above the floor. -/
theorem Chronicle.search_deleted (here : Chronicle told (pre ++ w :: post) s) (inv : s.Inv)
    (above : s.writeState.compactRev < w.rev.main)
    (ended : live (lifeIn w.event.kv.key pre) = none) :
    putBefore (s.content.life w.event.kv.key) w.rev = none ↔
      ∀ d ∈ pre, d.event.kind = .delete → d.event.kv.key = w.event.kv.key →
        d.rev.main ≤ s.writeState.compactRev := by
  have all := ascending_lifeIn here.ledger.ordered w.event.kv.key
  have flags : ∀ d ∈ pre, d.event.kv.deleted = decide (d.event.kind = .delete) := fun d mem =>
    here.ledger.kinds d (List.mem_append_left _ mem)
  have whole := all
  rw [lifeIn_append] at whole
  have ascending : Timeline.Ascending (lifeIn w.event.kv.key pre) :=
    (List.pairwise_append.mp whole).1
  constructor
  · intro nothing d mem kind own
    by_contra high
    have early := here.early _ (mem_lifeIn.mpr ⟨d, mem, own, rfl⟩)
    have named : (d.rev, true) ∈ s.content.life w.event.kv.key := by
      rw [here.life, mem_trim all]
      refine ⟨mem_lifeIn.mpr ⟨d, List.mem_append_left _ mem, own, ?_⟩,
        .inl (Revision.endOf_lt.mpr (Int.not_le.mp high))⟩
      rw [flags d mem, kind]
      rfl
    obtain ⟨p, before, put⟩ := put_of_delete inv named
    exact absurd (putBefore_eq_none.mp nothing _ put rfl) (not_le.mpr (before.trans early))
  · intro low
    rw [here.putBefore_eq above, putBefore_eq_none]
    intro x mem _
    exfalso
    -- What is left ends in a deletion, and that deletion is above the floor.
    obtain ⟨⟨l, flag⟩, last⟩ := Option.ne_none_iff_exists'.mp
      (mt List.getLast?_eq_none_iff.mp (List.ne_nil_of_mem mem))
    have still := live_trim ascending (.endOf s.writeState.compactRev)
    rw [ended, live, last] at still
    cases flag with
    | false => cases still
    | true =>
      obtain ⟨named, high | seen⟩ := (mem_trim ascending).mp (List.mem_of_getLast? last)
      · obtain ⟨d, mem, own, same⟩ := mem_lifeIn.mp named
        obtain ⟨rfl, flag⟩ := Prod.mk.inj same
        have kind : d.event.kind = .delete := by
          rw [flags d mem] at flag
          exact of_decide_eq_true flag
        exact absurd (low d mem kind own) (Int.not_le.mpr (Revision.endOf_lt.mp high))
      · cases ascending.flag_unique named (mem_of_liveAt seen).1

/-- The search finds what the events before leave live exactly if that is some record, or no delete
of the key is above the floor. -/
theorem Chronicle.search (here : Chronicle told (pre ++ w :: post) s) (inv : s.Inv)
    (above : s.writeState.compactRev < w.rev.main) :
    previousLiveRecord s.engine w.event.kv.key w.rev =
        liveAfter w.event.kv.key (pre.map Write.event) ↔
      (liveAfter w.event.kv.key (pre.map Write.event) = none →
        ∀ d ∈ pre, d.event.kind = .delete → d.event.kv.key = w.event.kv.key →
          d.rev.main ≤ s.writeState.compactRev) := by
  -- What the search comes to is stored.
  have stored (r : Revision) (found : putBefore (s.content.life w.event.kv.key) w.rev = some r) :
      ∃ v ∈ pre ++ w :: post, v.pair = (r, w.event.kv.key) ∧
        s.engine.kv[KvKey.mk w.event.kv.key r]? = some v.event.kv := by
    obtain ⟨rec, held, -⟩ := inv.content.exists_record (mem_of_putBefore found).1
    obtain ⟨v, mem, pair, rfl⟩ := here.known _ _ rec held
    exact ⟨v, mem, pair, held⟩
  rw [previousLiveRecord_eq inv]
  obtain ⟨dead, ended⟩ | ⟨v, mem, own, alive, isLive⟩ :=
    liveAfter_eq here (fun v mem => List.mem_append_left _ mem) w.event.kv.key
  · rw [dead, ← here.search_deleted inv above ended]
    simp only [true_imp_iff]
    cases found : putBefore (s.content.life w.event.kv.key) w.rev with
    | none => simp
    | some r =>
      obtain ⟨v, -, -, held⟩ := stored r found
      simp [held]
  · rw [alive]
    refine iff_of_true ?_ fun dead => nomatch dead
    have found : putBefore (s.content.life w.event.kv.key) w.rev = some v.rev := by
      have whole := ascending_lifeIn here.ledger.ordered w.event.kv.key
      rw [lifeIn_append] at whole
      have still := live_trim (List.pairwise_append.mp whole).1 (.endOf s.writeState.compactRev)
      rw [isLive] at still
      rw [here.putBefore_eq above]
      exact putBefore_of_live still (here.early _ (mem_of_live isLive))
    obtain ⟨v', mem', pair, held⟩ := stored v.rev found
    have same : v' = v := eq_of_pair here.ledger.ordered mem' (List.mem_append_left _ mem)
      (pair.trans (Prod.ext rfl own.symm))
    rw [found, Option.bind_some, held, same]

end Before

end Chronicle

/-- A replayed event is the event that was told, and has the same previous record exactly if the key
was live before it or no delete of the key that came before is above the compaction floor. The record
it was told with is the one live just before. -/
theorem rangeEvents_prevKv_iff {effects : List Effect} {told : List EventBatch} {s : Store}
    (run : Run effects told s) (key rangeEnd : Bytes) {start : Int}
    (floor : s.writeState.compactRev ≤ start) (stop : Int)
    {before after : List (Int × MvccEvent)} {rev : Int} {e : MvccEvent}
    (here : toldEvents told = before ++ (rev, e) :: after) (low : start < rev)
    (high : rev ≤ min stop s.writeState.currentRev) (inside : inRange e.kv.key key rangeEnd = true) :
    e.prevKv = liveAfter e.kv.key (before.map Prod.snd) ∧
    ∃ events replayed, s.rangeEventsUntil key rangeEnd start stop = .ok events ∧
      events[(eventsWithin key rangeEnd start (min stop s.writeState.currentRev)
        before).length]? = some replayed ∧
      replayed.bare = e.bare ∧
      (replayed.prevKv = e.prevKv ↔
        (e.prevKv = none → ∀ d ∈ before, d.2.kind = .delete → d.2.kv.key = e.kv.key →
          d.1 ≤ s.writeState.compactRev)) := by
  have inv : s.Inv := Reachable.inv ⟨effects, told, run⟩
  obtain ⟨log, chronicle⟩ := run.chronicle
  have split := chronicle.ledger.told
  rw [here] at split
  obtain ⟨pre, rest, rfl, rfl, tail⟩ := List.append_eq_map_iff.mp split
  obtain ⟨w, post, rfl, same, rfl⟩ := List.map_eq_cons_iff.mp tail
  obtain ⟨rfl, rfl⟩ := Prod.mk.inj same
  have events : (pre.map fun w => (w.rev.main, w.event)).map Prod.snd = pre.map Write.event := by
    rw [List.map_map]
    rfl
  have prev : w.event.prevKv = liveAfter w.event.kv.key (pre.map Write.event) := by
    have told := run.heard.prev pre.length w.event
    rw [eventsOf_eq, here] at told
    simpa [Function.comp_def] using told
  rw [events]
  refine ⟨prev, _, ⟨w.event.kind, w.event.kv, previousLiveRecord s.engine w.event.kv.key w.rev⟩,
    chronicle.ledger.rangeEvents inv key rangeEnd floor stop, ?_, rfl, ?_⟩
  · -- The event stands after those of the window that were told before it.
    have window : windowOf key rangeEnd start (min stop s.writeState.currentRev) (pre ++ w :: post) =
        windowOf key rangeEnd start (min stop s.writeState.currentRev) pre ++
          w :: windowOf key rangeEnd start (min stop s.writeState.currentRev) post := by
      have here : decide (start < w.rev.main ∧ w.rev.main ≤ min stop s.writeState.currentRev ∧
          inRange w.event.kv.key key rangeEnd = true) = true := decide_eq_true ⟨low, high, inside⟩
      rw [windowOf, List.filter_append, List.filter_cons, if_pos here, windowOf, windowOf]
    have count : (Mvcc.eventsWithin key rangeEnd start (min stop s.writeState.currentRev)
        (pre.map fun w => (w.rev.main, w.event))).length =
          (windowOf key rangeEnd start (min stop s.writeState.currentRev) pre).length := by
      rw [Mvcc.eventsWithin, List.length_map, List.filter_map, List.length_map, windowOf]
      rfl
    rw [window, count]
    simp
  · have search := chronicle.search inv (floor.trans_lt low)
    rw [prev]
    refine search.trans (imp_congr_right fun _ => ?_)
    constructor
    · intro compacted _ mem
      obtain ⟨d, early, rfl⟩ := List.mem_map.mp mem
      exact compacted d early
    · intro compacted d early
      exact compacted (d.rev.main, d.event) (List.mem_map.mpr ⟨d, early, rfl⟩)

/-- An overwritten key: the replay of its second put has the first one's record. -/
theorem rangeEvents_prevKv_overwritten :
    let put (v : UInt8) : Mutation := .put [97] [v] 0 false false false
    let s := (((Store.open Tables.empty).apply [put 1] true).2.apply [put 2] true).2
    let first : KvRecord := ⟨[97], [1], 1, 1, 1, 0, false⟩
    ∃ events replayed, s.rangeEventsUntil [97] [] 1 9 = .ok events ∧ events[0]? = some replayed ∧
      replayed.prevKv = some first := by
  intro put s first
  have run := Run.step (.step .start (.apply [put 1] true)) (.apply [put 2] true)
  have here : toldEvents s.broadcast = [(1, ⟨.put, first, none⟩)] ++
      (2, ⟨.put, ⟨[97], [2], 1, 2, 2, 0, false⟩, some first⟩) :: [] := by decide +kernel
  have floor : s.writeState.compactRev ≤ 1 := by decide
  obtain ⟨-, events, replayed, ok, found, -, same⟩ := rangeEvents_prevKv_iff run [97] [] floor 9 here
    (by decide) (by decide) (by decide)
  exact ⟨events, replayed, ok, found, same.mpr fun none => nomatch none⟩

/-- The replay of a put that creates its key again has the record of the key that was deleted. -/
theorem replayed_creation_has_deleted_record :
    ∃ effects told s, Run effects told s ∧
      let first : KvRecord := ⟨[97], [1], 1, 1, 1, 0, false⟩
      let again : KvRecord := ⟨[97], [2], 3, 3, 1, 0, false⟩
      toldEvents told = [(1, ⟨.put, first, none⟩),
        (2, ⟨.delete, ⟨[97], [], 0, 2, 0, 0, true⟩, some first⟩), (3, ⟨.put, again, none⟩)] ∧
      s.rangeEventsUntil [97] [] 2 9 = .ok [⟨.put, again, some first⟩] := by
  have run := Run.step (.step (.step .start (.apply [.put [97] [1] 0 false false false] true))
    (.apply [.deleteRange [97] [] false] true)) (.apply [.put [97] [2] 0 false false false] true)
  refine ⟨_, _, _, run, ?_, ?_⟩
  · decide +kernel
  · decide +kernel

end Fastetcd.Mvcc
