import Fastetcd.Laws.Mvcc.CachedReads
import Fastetcd.Mvcc.ReadViews

/-!
# A read view is one published commit

A reader that finds no more published than it had loaded took its snapshot after the engine commit
of all that is published, and at most the one commit under way came before it too (`Seen`). That
commit adds records at later revisions, or drops records below a floor that the reader sees. So the
snapshot has the records of the reader's plan as the published store has them.
-/

namespace Fastetcd.Mvcc.Views

open Timeline Content Std Cached

/-! ## What a reader has seen -/

/-- What a snapshot holds for a reader that loaded `n` before it. -/
structure Seen (c : Config) (n : Nat) (snap : Tables) : Prop where
  near : c.store.view.published ≤ n → snap.kv = c.store.engine.kv ∨ snap.kv = c.engine.kv
  ahead : ∀ {w}, c.writer = some w → w.after.view.published ≤ n → snap.kv = w.after.engine.kv

def Place.Sound (c : Config) : Place → Prop
  | .load => True
  | .snapshot n => n ≤ c.engineCommits
  | .guard n snap => n ≤ c.engineCommits ∧ Seen c n snap

structure Reader.Sound (c : Config) (r : Reader) : Prop where
  began : r.began ≤ c.store.view.current
  place : r.place.Sound c

/-- What a writer is about to publish over `s`. -/
structure Next (s t : Store) : Prop where
  publishes : ∃ ctx, Publishes s ctx t
  compact : s.view.compact ≤ t.view.compact
  engineCommits : t.view.engineCommits = s.view.engineCommits + 1
  published : t.view.published = s.view.published + 1

/-- What `read_view` promises: the revisions and the plan are those of one published store, and the
snapshot is its own or that of the next. -/
structure Viewed.Sound (v : Viewed) : Prop where
  inv : v.point.Inv
  began : v.began ≤ v.revs.current
  current : v.revs.current = v.point.view.current
  compact : v.revs.compact = (v.ahead.getD v.point).view.compact
  plan : v.plan = (checkReadRev v.revs v.range.revision).map fun readRev =>
    planRange v.point.index {} v.range.key v.range.rangeEnd readRev v.range.limit v.range.countOnly
  ahead : ∀ {t}, v.ahead = some t → Next v.point t
  near : v.snap.kv = v.point.engine.kv ∨ ∃ t, v.ahead = some t ∧ v.snap.kv = t.engine.kv

structure Config.Sound (c : Config) : Prop where
  inv : c.store.Inv
  counts : c.store.view.published = c.store.view.engineCommits
  writer : ∀ {w}, c.writer = some w → Next c.store w.after
  readers : ∀ r ∈ c.readers, r.Sound c
  viewed : ∀ v ∈ c.viewed, v.Sound

section

variable {c d : Config}

/-! ## Writers -/

theorem next_commit {s : Store} (inv : s.Inv) {newRev : Int} {ctx : ApplyContext}
    (writes : Writes s newRev ctx) : Next s (s.commitCtx newRev ctx true).2 := by
  refine ⟨⟨ctx, writes.publishes inv⟩, ?_, ?_, ?_⟩
  · rw [commitCtx_ok]
    exact (congrArg Revs.compact inv.view).le
  · rw [commitCtx_ok]
    rfl
  · rw [commitCtx_ok]
    rfl

theorem next_compact {s : Store} (inv : s.Inv) {rev : Int}
    (accepted : (s.compact rev true).1 = .ok rev) (later : s.writeState.compactRev < rev) :
    Next s (s.compact rev true).2 := by
  rcases compact_cases inv rev true with
    ⟨e, refused⟩ | ⟨-, same, -⟩ | ⟨positive, -, reached, result⟩
  · rw [refused] at accepted
    exact nomatch accepted
  · exact absurd same later.ne'
  · rw [result]
    exact ⟨⟨{}, .compacted inv positive reached⟩,
      (congrArg Revs.compact inv.view).trans_le later.le, rfl, rfl⟩

/-- A reader is as sound as before after a step that changes nothing it has seen. -/
theorem Reader.Sound.mono {r : Reader} (sound : r.Sound c)
    (current : c.store.view.current ≤ d.store.view.current)
    (counts : c.engineCommits ≤ d.engineCommits)
    (seen : ∀ {n snap}, n ≤ c.engineCommits → Seen c n snap → Seen d n snap) : r.Sound d := by
  refine ⟨sound.began.trans current, ?_⟩
  have place := sound.place
  cases here : r.place with
  | load => trivial
  | snapshot n =>
    rw [here] at place
    exact Nat.le_trans place counts
  | guard n snap =>
    rw [here] at place
    exact ⟨Nat.le_trans place.1 counts, seen place.1 place.2⟩

theorem Reader.Sound.same {r : Reader} (sound : r.Sound c) (readers : List Reader)
    (viewed : List Viewed) : r.Sound { c with readers, viewed } :=
  sound.mono le_rfl (Nat.le_refl _) fun _ seen => ⟨seen.near, seen.ahead⟩

/-- A writer starts: what it will publish is counted above all that readers have loaded. -/
theorem Config.Sound.writes (sound : c.Sound) (free : c.writer = none) {w : Writer}
    (next : Next c.store w.after) (early : w.phase ≠ .counted) :
    Config.Sound { c with writer := some w } := by
  have counts : Config.engineCommits { c with writer := some w } = c.engineCommits := by
    obtain ⟨after, phase⟩ := w
    rw [Config.engineCommits, Config.engineCommits, free]
    cases phase with
    | counted => exact absurd rfl early
    | _ => rfl
  have loaded : c.engineCommits = c.store.view.engineCommits := by
    rw [Config.engineCommits, free]
  have engine : c.engine = c.store.engine := by
    rw [Config.engine, free]
  refine ⟨sound.inv, sound.counts, fun writing => ?_, fun r mem => ?_, sound.viewed⟩
  · cases writing
    exact next
  · refine (sound.readers r mem).mono le_rfl counts.ge fun {n snap} low seen => ⟨fun most => ?_, ?_⟩
    · rcases seen.near most with same | same
      · exact .inl same
      · exact .inl (engine ▸ same)
    · intro w' writing most
      cases writing
      have more := next.published
      have now := sound.counts
      omega

theorem Config.Sound.publish (sound : c.Sound) {t : Store}
    (counted : c.writer = some ⟨t, .counted⟩) :
    Config.Sound { c with store := t, writer := none } := by
  have next := sound.writer counted
  obtain ⟨ctx, publishes⟩ := next.publishes
  refine ⟨publishes.inv, ?_, nofun, fun r mem => ?_, sound.viewed⟩
  · show t.view.published = t.view.engineCommits
    rw [next.published, next.engineCommits, sound.counts]
  · refine (sound.readers r mem).mono ?_ ?_ fun {n snap} low seen => ⟨fun most => ?_, nofun⟩
    · show c.store.view.current ≤ t.view.current
      have before : c.store.view.current = c.store.writeState.currentRev :=
        congrArg Revs.current sound.inv.view
      have after : t.view.current = t.writeState.currentRev :=
        congrArg Revs.current publishes.inv.view
      rw [before, after]
      exact publishes.current
    · rw [Config.engineCommits, counted]
      exact le_rfl
    · exact .inl (seen.ahead counted most)

/-- A writer goes on, or gives up: the tables that readers may have seen stay. -/
theorem Config.Sound.phase (sound : c.Sound) {t : Store} {phase phase' : Phase}
    (writing : c.writer = some ⟨t, phase⟩)
    (counts : c.engineCommits ≤ Config.engineCommits { c with writer := some ⟨t, phase'⟩ })
    (engine : c.engine = c.store.engine ∨
      c.engine = Config.engine { c with writer := some ⟨t, phase'⟩ }) :
    Config.Sound { c with writer := some ⟨t, phase'⟩ } := by
  have next : Next c.store t := sound.writer writing
  refine ⟨sound.inv, sound.counts, fun same => ?_, fun r mem => ?_, sound.viewed⟩
  · cases same
    exact next
  · refine (sound.readers r mem).mono le_rfl counts fun {n snap} low seen => ⟨fun most => ?_, ?_⟩
    · rcases seen.near most with same | same
      · exact .inl same
      · rcases engine with stays | goes
        · exact .inl (stays ▸ same)
        · exact .inr (goes ▸ same)
    · intro w' same most
      cases same
      have held : snap.kv = t.engine.kv := seen.ahead writing most
      exact held

/-! ## Readers -/

theorem Config.Sound.viewing (sound : c.Sound) {r : Reader} (reader : r.Sound c) {snap : Tables}
    (near : snap.kv = c.store.engine.kv ∨ snap.kv = c.engine.kv) :
    (c.viewing r snap c.revs).Sound := by
  refine ⟨sound.inv, reader.began, rfl, ?_, rfl, fun ahead => ?_, ?_⟩
  · show (c.writer.elim c.store Writer.after).view.compact =
      ((c.writer.map Writer.after).getD c.store).view.compact
    cases c.writer <;> rfl
  · obtain ⟨w, writing, rfl⟩ := Option.map_eq_some_iff.mp ahead
    exact sound.writer writing
  · rcases near with same | same
    · exact .inl same
    · rw [Config.engine] at same
      split at same
      · exact .inl same
      · exact .inl same
      · rename_i w _ writing
        exact .inr ⟨w.after, congrArg (Option.map Writer.after) writing, same⟩

theorem Config.Sound.locked (sound : c.Sound) {r : Reader} (reader : r.Sound c)
    (free : c.writer = none) :
    (c.viewing r c.store.engine c.store.writeState.revs).Sound := by
  have revs : c.revs = c.store.writeState.revs := by
    rw [← sound.inv.view, Config.revs, free]
    rfl
  rw [← revs]
  exact sound.viewing reader (.inl rfl)

/-- What is counted is in the engine. -/
theorem Config.Sound.counted (sound : c.Sound) {w : Writer} (writing : c.writer = some w) {n : Nat}
    (loaded : n ≤ c.engineCommits) (most : w.after.view.published ≤ n) :
    c.engine.kv = w.after.engine.kv := by
  have next := sound.writer writing
  obtain ⟨after, phase⟩ := w
  cases phase with
  | counted =>
    rw [Config.engine, writing]
  | _ =>
    have early : c.engineCommits = c.store.view.engineCommits := by
      rw [Config.engineCommits, writing]
    have more := next.published
    have now := sound.counts
    omega

theorem Config.Sound.read (sound : c.Sound) {r : Reader} (reader : r.Sound c)
    {out : Reader ⊕ Viewed} (read : c.read r = some out) :
    out.elim (fun r' => r'.Sound c) fun v => v.Sound := by
  have place := reader.place
  rw [Config.read] at read
  split at read
  · split at read
    · cases read
      exact ⟨reader.began, Nat.le_refl _⟩
    · split at read
      · rename_i free
        cases read
        exact sound.locked reader (Option.isNone_iff_eq_none.mp free)
      · cases read
  · rename_i n here
    cases read
    rw [here] at place
    exact ⟨reader.began, place, fun _ => .inr rfl, fun writing => sound.counted writing place⟩
  · rename_i n snap here
    rw [here] at place
    split at read
    · rename_i most
      cases read
      exact sound.viewing reader (place.2.near most)
    · cases read
      exact ⟨reader.began, trivial⟩

theorem Step.sound (sound : c.Sound) (step : Step c d) : d.Sound := by
  have replaced {before after : List Reader} {r : Reader}
      (reading : c.readers = before ++ r :: after) {q : Reader} (mem : q ∈ before ++ after) :
      q.Sound c := by
    refine sound.readers q ?_
    rw [reading]
    rcases List.mem_append.mp mem with first | last
    · exact List.mem_append_left _ first
    · exact List.mem_append_right _ (List.mem_cons_of_mem _ last)
  cases step with
  | commit free writes => exact sound.writes free (next_commit sound.inv writes) (by rintro ⟨⟩)
  | raise free accepted later =>
    exact sound.writes free (next_compact sound.inv accepted later) (by rintro ⟨⟩)
  | compact raised =>
    refine sound.phase raised ?_ (.inl ?_)
    · rw [Config.engineCommits, raised]
      exact le_rfl
    · rw [Config.engine, raised]
  | @compactFailed t raised =>
    refine ⟨(quiet_failed sound.inv).inv sound.inv, sound.counts, by rintro _ ⟨⟩, fun r mem => ?_,
      sound.viewed⟩
    refine (sound.readers r mem).mono le_rfl ?_ fun {n snap} low seen =>
      ⟨fun most => ?_, by rintro _ ⟨⟩⟩
    · rw [Config.engineCommits, raised]
      exact le_rfl
    · have near := seen.near most
      rw [Config.engine, raised] at near
      exact near
  | count committed =>
    have next := sound.writer committed
    refine sound.phase committed ?_ (.inr ?_)
    · rw [Config.engineCommits, committed]
      exact next.engineCommits.ge.trans' (Nat.le_succ _)
    · rw [Config.engine, committed]
      rfl
  | publish counted => exact sound.publish counted
  | @other t free same =>
    have quiet : Quiet c.store { c.store with engine := t } := by
      refine ⟨?_, same.idx, ⟨?_, ?_⟩, rfl, rfl, sound.inv.values, rfl⟩
      · rw [Store.content, Store.content, same.kv, same.leaseKeys]
      · rw [same.currentRev]
      · rw [same.compactRev]
    refine ⟨quiet.inv sound.inv, sound.counts, fun writing => ?_, fun r mem => ?_, sound.viewed⟩
    · rw [free] at writing
      cases writing
    · refine (sound.readers r mem).mono le_rfl ?_ fun {n snap} low seen => ⟨fun most => ?_, ?_⟩
      · rw [Config.engineCommits, Config.engineCommits, free]
      · have near := seen.near most
        rw [Config.engine, free, ← same.kv] at near
        exact .inl (near.elim id id)
      · intro w writing
        rw [free] at writing
        cases writing
  | begin r =>
    refine ⟨sound.inv, sound.counts, sound.writer, fun q mem => ?_, sound.viewed⟩
    rcases List.mem_cons.mp mem with rfl | mem
    · exact ⟨le_rfl, trivial⟩
    · exact (sound.readers q mem).same _ _
  | @goOn before after r r' reading read =>
    have reader := sound.readers r (reading ▸ List.mem_append_right _ List.mem_cons_self)
    refine ⟨sound.inv, sound.counts, sound.writer, fun q mem => ?_, sound.viewed⟩
    have here : q.Sound c := by
      rcases List.mem_append.mp mem with first | last
      · exact replaced reading (List.mem_append_left _ first)
      · rcases List.mem_cons.mp last with rfl | last
        · exact sound.read reader read
        · exact replaced reading (List.mem_append_right _ last)
    exact here.same _ _
  | @view before after r v reading read =>
    have reader := sound.readers r (reading ▸ List.mem_append_right _ List.mem_cons_self)
    refine ⟨sound.inv, sound.counts, sound.writer, fun q mem => ?_, fun v' mem => ?_⟩
    · exact (replaced reading mem).same _ _
    · rcases List.mem_cons.mp mem with rfl | mem
      · exact sound.read reader read
      · exact sound.viewed v' mem

theorem Run.sound (run : Run c) : c.Sound := by
  induction run with
  | start reached =>
    exact ⟨reached.inv.reopened, rfl, fun writing => (nomatch writing),
      fun r mem => absurd mem List.not_mem_nil, fun v mem => absurd mem List.not_mem_nil⟩
  | step _ step ih => exact step.sound ih

end

/-! ## What a view answers -/

section

variable {v : Viewed}

theorem engineRecords_of_lookup {snap : Tables} {hits : List (Bytes × Revision)}
    {recs : List KvRecord}
    (found : hits.map (fun hit => snap.kv[KvKey.mk hit.1 hit.2]?) = recs.map some) :
    engineRecords snap hits = .ok recs := by
  induction hits generalizing recs with
  | nil =>
    obtain rfl := List.map_eq_nil_iff.mp found.symm
    rfl
  | cons hit hits ih =>
    cases recs with
    | nil => exact nomatch found
    | cons rec recs =>
      obtain ⟨here, rest⟩ := List.cons.inj found
      dsimp only at here
      have others : hits.mapM (fun hit => readRecord snap hit.1 hit.2) = .ok recs := ih rest
      rw [engineRecords, List.mapM_cons, readRecord, here, others]
      rfl

/-- A raised floor admits fewer reads, at the same revisions. -/
theorem checkReadRev_of_raised {revs revs' : Revs} {target : Int} {readRev : Revision}
    (current : revs'.current = revs.current) (lower : revs.compact ≤ revs'.compact)
    (checked : checkReadRev revs' target = .ok readRev) :
    checkReadRev revs target = .ok readRev := by
  unfold checkReadRev at checked ⊢
  rw [current] at checked
  split at checked
  · cases checked
  · rename_i future
    rw [if_neg future]
    split at checked
    · cases checked
    · rw [if_neg (by omega)]
      exact checked

/-- The snapshot has the records of the plan as the published store has them. -/
theorem Viewed.Sound.held (sound : v.Sound) {readRev : Revision}
    (checked : checkReadRev v.revs v.range.revision = .ok readRev) {hit : Bytes × Revision}
    (seen : liveAt (v.point.content.life hit.1) readRev = some hit.2) :
    v.snap.kv[KvKey.mk hit.1 hit.2]? = v.point.engine.kv[KvKey.mk hit.1 hit.2]? := by
  rcases sound.near with same | ⟨t, ahead, same⟩
  · rw [same]
  · obtain ⟨ctx, publishes⟩ := (sound.ahead ahead).publishes
    obtain ⟨main, rfl, bounds⟩ := checkReadRev_bounds checked
    have current : v.revs.current = v.point.writeState.currentRev :=
      sound.current.trans (congrArg Revs.current sound.inv.view)
    have compact : v.revs.compact = t.writeState.compactRev := by
      rw [sound.compact, ahead]
      exact congrArg Revs.compact publishes.inv.view
    have low : hit.2.main ≤ main :=
      Int.not_lt.mp fun above => Std.not_lt.mpr (mem_of_liveAt seen).2 (Revision.endOf_lt.mpr above)
    have positive : 1 ≤ hit.2.main := (sound.inv.settled hit.1 _ (mem_of_liveAt seen).1).1
    have floor := publishes.floor
    rw [current, compact] at bounds
    rw [same]
    exact publishes.kept (by omega) (by omega) seen

/-- A planned read finds every record, and answers as the published store does. -/
theorem Viewed.Sound.answers (sound : v.Sound) {plan : RangePlan} (planned : v.plan = .ok plan) :
    (∀ hit ∈ plan.hits, ∃ rec, v.snap.kv[KvKey.mk hit.1 hit.2]? = some rec) ∧
      v.answer = (v.point.rangeWithRevision v.range).1 := by
  have inv := sound.inv
  have start := inv.txnStart
  rw [sound.plan] at planned
  cases checked : checkReadRev v.revs v.range.revision with
  | error e =>
    rw [checked] at planned
    exact nomatch planned
  | ok readRev =>
    rw [checked] at planned
    have whole := Except.ok.inj planned
    obtain ⟨main, rfl, bounds⟩ := checkReadRev_bounds checked
    dsimp only at whole
    have current : v.point.view.current = v.point.writeState.currentRev :=
      congrArg Revs.current inv.view
    have reach : main ≤ v.point.writeState.currentRev := by
      have nonneg := start.nonneg
      have same := sound.current
      omega
    obtain ⟨recs, fetched, records, -⟩ := fetchRecords_plan start.coherent start.inv start.cache
      v.range (.inl reach)
    rw [overlay_empty, whole] at records
    rw [whole] at fetched
    have held : ∀ hit ∈ plan.hits, v.snap.kv[KvKey.mk hit.1 hit.2]? =
        v.point.engine.kv[KvKey.mk hit.1 hit.2]? := by
      intro hit mem
      refine sound.held checked ?_
      rw [← overlay_empty]
      exact liveAt_of_planned start.inv (whole ▸ mem)
    have found : plan.hits.map (fun hit => v.snap.kv[KvKey.mk hit.1 hit.2]?) =
        (recs.map Prod.fst).map some := by
      rw [List.map_congr_left held, List.map_map]
      exact records.symm
    refine ⟨fun hit mem => ?_, ?_⟩
    · have some := List.mem_map_of_mem (f := fun hit => v.snap.kv[KvKey.mk hit.1 hit.2]?) mem
      rw [found] at some
      obtain ⟨rec, -, same⟩ := List.mem_map.mp some
      exact ⟨rec, same.symm⟩
    · have same : checkReadRev v.point.view.revs v.range.revision = .ok (.endOf main) := by
        refine checkReadRev_of_raised sound.current ?_ checked
        rw [sound.compact]
        cases ahead : v.ahead with
        | none => exact le_rfl
        | some t => exact (sound.ahead ahead).compact
      rw [Viewed.answer, sound.plan, checked, Store.rangeWithRevision, same]
      dsimp only [Except.map, bind, Except.bind]
      rw [whole, engineRecords_of_lookup found, fetched, sound.current]
      dsimp only
      rw [List.map_map]
      rfl

/-- In every interleaving, the revisions and the plan of a read are those of one published commit,
no older than when the read began, and its snapshot is that of this commit or of the one after it.
The snapshot has every record of the plan, and the answer is that of the published store. -/
theorem read_view_linearizes {c : Config} (run : Run c) {v : Viewed} (viewed : v ∈ c.viewed) :
    v.began ≤ v.revs.current ∧ v.revs.current = v.point.view.current ∧
    (v.snap.kv = v.point.engine.kv ∨ ∃ t, v.ahead = some t ∧ v.snap.kv = t.engine.kv) ∧
    ∀ plan, v.plan = .ok plan →
      (∀ hit ∈ plan.hits, ∃ rec, v.snap.kv[KvKey.mk hit.1 hit.2]? = some rec) ∧
      v.answer = (v.point.rangeWithRevision v.range).1 := by
  have sound := run.sound.viewed v viewed
  exact ⟨sound.began, sound.current, sound.near, fun plan planned => sound.answers planned⟩

end

/-- A put has reached the engine, and a reader looks at the key before it is published. -/
theorem view_during_commit : ∃ c v, Run c ∧ v ∈ c.viewed ∧ v.plan = .ok ⟨[], 0, false⟩ ∧
    v.revs.current = 0 ∧ v.point.engine.kv[KvKey.mk [107] ⟨1, 0⟩]? = none ∧
    v.snap.kv[KvKey.mk [107] ⟨1, 0⟩]? = some ⟨[107], [1], 1, 1, 1, 0, false⟩ := by
  let s := Store.open (Store.open Tables.empty).engine
  let applied := s.applyInner s.engine {} s.writeState [.put [107] [1] 0 false false false]
  have ran : applied = (.ok (1, [⟨1, []⟩], true), applied.2) := Prod.ext (by decide +kernel) rfl
  have start : Run ⟨s, none, [], []⟩ := .start ⟨[], [], Mvcc.Run.start⟩
  have committed := start.step (.commit rfl (.apply ran))
  have loaded := (committed.step (.begin ⟨[107], [], 0, 0, false, false⟩)).step
    (@Step.goOn _ [] [] _ _ rfl rfl)
  have snapped := loaded.step (@Step.goOn _ [] [] _ _ rfl rfl)
  have viewed := snapped.step (@Step.view _ [] [] _ _ rfl rfl)
  exact ⟨_, _, viewed, List.mem_cons_self, by decide +kernel, by decide +kernel, by decide +kernel,
    by decide +kernel⟩

/-- The read finds nothing, as at the revision it reports. -/
theorem read_view_linearizes_early : ∃ c v, Run c ∧ v ∈ c.viewed ∧ v.plan = .ok ⟨[], 0, false⟩ ∧
    v.answer = (v.point.rangeWithRevision v.range).1 := by
  obtain ⟨c, v, run, viewed, planned, -⟩ := view_during_commit
  exact ⟨c, v, run, viewed, planned, ((read_view_linearizes run viewed).2.2.2 _ planned).2⟩

/-- Its snapshot is not that of the revision it reports. -/
theorem read_view_ahead : ∃ c v, Run c ∧ v ∈ c.viewed ∧ v.revs.current = 0 ∧
    v.point.view.current = 0 ∧ v.snap.kv ≠ v.point.engine.kv := by
  obtain ⟨c, v, run, viewed, -, current, absent, held⟩ := view_during_commit
  refine ⟨c, v, run, viewed, current, (run.sound.viewed v viewed).current.symm.trans current, ?_⟩
  intro same
  rw [same, absent] at held
  exact nomatch held

end Fastetcd.Mvcc.Views
