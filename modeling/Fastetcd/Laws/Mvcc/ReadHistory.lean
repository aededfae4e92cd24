import Fastetcd.Laws.Mvcc.Guarantees

/-!
# Reads see the history replayed

A read at a revision between the compaction floor and now answers from the plain map that the
requests up to that revision leave, replayed one after the other (`Replay.replay`). The invariant
`Replays` says so of every revision in the window at once: a write adds one revision at its end and
touches none before, a compaction only moves its start.

A revoke of `-1` or of the largest id does not delete the keys of that lease
(`inBounds_leaseKeysBounds` has no say on them), so the law is over the runs without one.
-/

namespace Fastetcd.Mvcc

open Timeline Reference KeyIndex Content Replay Std

/-- The entries that a reader at `main` sees. -/
def Content.entriesAt (C : Content) (main : Int) : Plain :=
  (C.readAt (.endOf main)).map fun _ rec => entryOf rec

/-- Every read in the window sees the history replayed. -/
structure Replays (effects : List Effect) (s : Store) : Prop where
  window : ∀ main, s.writeState.compactRev ≤ main → main ≤ s.writeState.currentRev →
    s.content.entriesAt main = replay effects main
  now : effects.foldl Effect.run ∅ = plainOf s.content.cells
  answered : ∀ e ∈ effects, e.rev ≤ s.writeState.currentRev + 1

section Replays

variable {s t : Store} {effects new : List Effect}

theorem entriesAt_now (inv : s.Inv) :
    s.content.entriesAt s.writeState.currentRev = plainOf s.content.cells := by
  refine ExtTreeMap.ext_getElem? fun key => ?_
  rw [entriesAt, Content.Inv.readAt_eq_live fun key x mem =>
      Revision.le_endOf.mpr (inv.settled key x mem).2,
    ExtTreeMap.getElem?_map, ExtTreeMap.getElem?_map, getElem?_liveRows, getElem?_plainOf,
    Option.map_map]
  rfl

theorem replay_append (effects new : List Effect) (main : Int) :
    replay (effects ++ new) main =
      (new.filter fun e => e.rev ≤ main).foldl Effect.run (replay effects main) := by
  rw [replay, List.filter_append, List.foldl_append, replay]

/-- A window that sees the same content and no later revision. -/
theorem Replays.same (here : Replays effects s)
    (current : t.writeState.currentRev = s.writeState.currentRev)
    (compact : s.writeState.compactRev ≤ t.writeState.compactRev)
    (entries : ∀ main, t.writeState.compactRev ≤ main →
      t.content.entriesAt main = s.content.entriesAt main)
    (cells : plainOf t.content.cells = plainOf s.content.cells) : Replays effects t where
  window main floor reached := by
    rw [entries main floor, here.window main (compact.trans floor) (current ▸ reached)]
  now := here.now.trans cells.symm
  answered e mem := current ▸ here.answered e mem

/-- The effects of a request that wrote nothing leave the map as it was, those among them that were
answered by `main` as well as all of them. -/
theorem Effected.foldl_filter {ws : List Write} (effected : Effected s new ws)
    (scanned : ∀ e ∈ new, e.isScanned = true) (none : ws = []) (main : Int) :
    (new.filter fun e => e.rev ≤ main).foldl Effect.run (plainOf s.content.cells) =
      plainOf s.content.cells := by
  have all := effected.replays scanned
  subst none
  match new, effected.single with
  | [], _ => rfl
  | [e], _ =>
    cases answered : decide (e.rev ≤ main) with
    | true => simpa [answered] using all
    | false => simp [answered]

/-- A write adds a revision at the end of the window and changes none before it. -/
theorem Replays.wrote (here : Replays effects s) (inv : s.Inv) {ws : List Write}
    (wrote : Wrote s ws t) (effected : Effected s new ws)
    (scanned : ∀ e ∈ new, e.isScanned = true) : Replays (effects ++ new) t := by
  have now : (effects ++ new).foldl Effect.run ∅ = plainOf t.content.cells := by
    rw [List.foldl_append, here.now, effected.replays scanned, wrote.content,
      cells_writes inv.content wrote.fits]
  have answered : ∀ e ∈ effects ++ new, e.rev ≤ s.writeState.currentRev + 1 := fun e mem => by
    rcases List.mem_append.mp mem with old | new
    · exact here.answered e old
    · have := effected.answered e new
      omega
  have advance : s.writeState.currentRev ≤ t.writeState.currentRev := by
    rw [wrote.current]
    split <;> omega
  refine ⟨fun main floor reached => ?_, now, fun e mem => (answered e mem).trans (by omega)⟩
  by_cases past : main ≤ s.writeState.currentRev
  · have kept : t.content.entriesAt main = s.content.entriesAt main := by
      rw [entriesAt, wrote.content, readAt_writes inv.content wrote.fits fun w mem => by
        rw [Revision.endOf_lt, wrote.revs w mem]; omega]
      rfl
    have before := here.window main (wrote.compact ▸ floor) past
    rw [kept, before, replay_append]
    by_cases idle : ws = [] ∧ main = s.writeState.currentRev
    · obtain ⟨none, rfl⟩ := idle
      rw [← before, entriesAt_now inv, effected.foldl_filter scanned none]
    · -- Every new effect was answered after `main`.
      have later : (new.filter fun e => e.rev ≤ main) = [] :=
        List.filter_eq_nil_iff.mpr fun e mem => by
          have := effected.answered e mem
          rw [decide_eq_true_eq]
          grind
      rw [later, List.foldl_nil]
  · -- The new revision: every effect is part of it.
    obtain rfl : main = t.writeState.currentRev := by
      have current := wrote.current
      split at current <;> omega
    have all : (effects ++ new).filter (fun e => e.rev ≤ t.writeState.currentRev) =
        effects ++ new :=
      List.filter_eq_self.mpr fun e mem => by
        have := answered e mem
        rw [decide_eq_true_eq]
        omega
    rw [entriesAt_now wrote.inv, ← now, replay, all]

theorem Replays.move (inv : s.Inv) (here : Replays effects s) {more : List EventBatch}
    (move : Move s new more t) (scanned : ∀ e ∈ new, e.isScanned = true) :
    Replays (effects ++ new) t := by
  cases move with
  | wrote wrote effected => exact here.wrote inv wrote effected scanned
  | quiet same =>
    rw [List.append_nil]
    exact here.same (congrArg Revs.current same.revs) (congrArg Revs.compact same.revs).ge
      (fun main _ => by rw [same.content]) (by rw [same.content])
  | @compacted rev _ later _ =>
    rw [List.append_nil]
    refine here.same rfl later.le (fun main floor => ?_) ?_
    · rw [entriesAt, content_compactedAt inv,
        readAt_compacted inv.content (Revision.le_endOf.mpr floor)]
      rfl
    · refine ExtTreeMap.ext_getElem? fun key => ?_
      have record := record_compacted (c := .endOf rev) inv.content key
      rw [getElem?_plainOf, getElem?_plainOf, content_compactedAt inv]
      simpa [Option.map_map, Function.comp_def] using congrArg (Option.map entryOf) record
  | reopened =>
    rw [List.append_nil]
    have revs : (Store.open s.engine).writeState.revs = s.writeState.revs :=
      readWriteState_engine inv
    exact here.same (congrArg Revs.current revs) (congrArg Revs.compact revs).ge
      (fun main _ => by rw [content_open inv]) (by rw [content_open inv])

theorem Replays.start : Replays [] (Store.open Tables.empty) := by
  have content : (Store.open Tables.empty).content = ⟨∅, ∅, ∅⟩ := rfl
  refine ⟨fun main _ _ => ExtTreeMap.ext_getElem? fun key => ?_,
    ExtTreeMap.ext_getElem? fun key => ?_, by simp⟩
  · simp [entriesAt, content, readAt, replay]
  · simp [getElem?_plainOf, content, liveRow, cells]

/-- Every run replays. -/
theorem Run.replays {told : List EventBatch} (run : Run effects told s)
    (scanned : ∀ e ∈ effects, e.isScanned = true) : Replays effects s := by
  refine (Run.invariant (P := fun effects _ s =>
    (∀ e ∈ effects, e.isScanned = true) → Replays effects s) (fun _ => .start) ?_ run).2 scanned
  intro effects told s new more t inv here move scanned
  exact (here fun e mem => scanned e (by simp [mem])).move inv move
    fun e mem => scanned e (by simp [mem])

end Replays

/-! ## Answers -/

/-- A Range over records that carry their keys answers from their entries. -/
theorem answers_answer {records : Table Bytes KvRecord}
    (keyed : ∀ {key : Bytes} {rec}, records[key]? = some rec → rec.key = key) (r : RangeOp) :
    Answers (records.map fun _ rec => entryOf rec) r (answer records r) := by
  have covers : covered (records.map fun _ rec => entryOf rec) r =
      (records.scan (inRange · r.key r.rangeEnd)).map fun row => (row.1, entryOf row.2) :=
    Table.scan_map records _ _
  have sorted := records.scan_ascending (inRange · r.key r.rangeEnd)
  have carried : ∀ row ∈ records.scan (inRange · r.key r.rangeEnd), row.2.key = row.1 :=
    fun row mem => keyed (Table.mem_scan.mp mem).1
  rw [answer]
  generalize records.scan (inRange · r.key r.rangeEnd) = found at *
  have kept : (if r.limit > 0 then found.take r.limit else found).Sublist found := by
    split
    · exact List.take_sublist _ _
    · exact List.Sublist.refl _
  have trimmed (rec : KvRecord) : (trim rec r.keysOnly).key = rec.key := by
    unfold trim
    split <;> rfl
  refine ⟨?_, ?_, by simp [covers], by simp [covers, and_assoc]⟩
  · rw [returned, covers]
    cases r.countOnly with
    | true => rfl
    | false =>
      have entry (rec : KvRecord) : entryOf (trim rec r.keysOnly) =
          if r.keysOnly then { entryOf rec with value := [] } else entryOf rec := by
        unfold trim
        split <;> rfl
      rw [← List.map_take, ← apply_ite (List.map _)]
      simp only [Bool.false_eq_true, if_false, List.map_map]
      refine List.map_congr_left fun row mem => ?_
      simp only [Function.comp_apply, trimmed, entry, carried row (kept.subset mem)]
  · cases r.countOnly with
    | true => exact List.Pairwise.nil
    | false =>
      simp only [Bool.false_eq_true, if_false, List.map_map]
      rw [List.pairwise_map]
      refine (sorted.sublist kept).imp_of_mem fun {a b} memA memB less => ?_
      simp only [Function.comp_apply, trimmed, carried a (kept.subset memA),
        carried b (kept.subset memB)]
      exact Bytes.compare_eq_lt.mp less

section Reads

variable {s : Store} {effects : List Effect} {told : List EventBatch}

theorem key_of_readAt (inv : s.Inv) {t : Revision} {key : Bytes} {rec : KvRecord}
    (read : (s.content.readAt t)[key]? = some rec) : rec.key = key := by
  rw [getElem?_readAt] at read
  obtain ⟨rev, -, found⟩ := Option.bind_eq_some_iff.mp read
  exact (inv.content.record found).1

/-- A Range at a revision between the compaction floor and now answers from the history replayed up
to that revision. -/
theorem range_replays_history (run : Run effects told s)
    (scanned : ∀ e ∈ effects, e.isScanned = true) (r : RangeOp) {main : Int}
    (reading : main = if r.revision = 0 then s.writeState.currentRev else r.revision)
    (floor : s.writeState.compactRev ≤ main) (reached : main ≤ s.writeState.currentRev) :
    ∃ result, (s.rangeWithRevision r).1 = .ok (result, s.writeState.currentRev) ∧
      Answers (replay effects main) r result := by
  have inv : s.Inv := Reachable.inv ⟨effects, told, run⟩
  have checked : checkReadRev s.writeState.revs r.revision = .ok (.endOf main) := by
    have future : ¬ (r.revision > 0 ∧ r.revision > s.writeState.revs.current) := by
      simp only [WriteState.revs]
      split at reading <;> omega
    have gone : ¬ (r.revision > 0 ∧ r.revision < s.writeState.revs.compact) := by
      simp only [WriteState.revs]
      split at reading <;> omega
    rw [checkReadRev, if_neg future, if_neg gone, reading]
    rfl
  rcases rangeWithRevision_spec inv r with ⟨e, refused, -⟩ | ⟨main', values, ok, served, -⟩
  · cases checked.symm.trans refused
  · have same : Revision.endOf main' = .endOf main := Except.ok.inj (ok.symm.trans checked)
    refine ⟨_, by rw [served, same], ?_⟩
    rw [← (run.replays scanned).window main floor reached]
    exact answers_answer (key_of_readAt inv) r

theorem range_replays_history_deleted :
    let s := (((Store.open Tables.empty).apply [.put [97] [1] 7 false false false,
      .put [98] [2] 0 false false false] true).2.applyLeaseRevoke 7 true).2
    ∃ effects, effects = [.mutations 1 [.put [97] [1] 7 false false false,
        .put [98] [2] 0 false false false], .revoke 2 7] ∧
      ∃ result, (s.rangeWithRevision ⟨[97], [0], 1, 1, false, false⟩).1 =
          .ok (result, s.writeState.currentRev) ∧
        Answers (replay effects 1) ⟨[97], [0], 1, 1, false, false⟩ result := by
  have run := Run.step (.step .start (.apply [.put [97] [1] 7 false false false,
    .put [98] [2] 0 false false false] true)) (.leaseRevoke 7 true)
  exact ⟨_, by decide +kernel,
    range_replays_history run (by decide) _ (by decide) (by decide) (by decide)⟩

/-- The scan of lease `-1` is empty, so its revoke leaves the key that carries it. -/
theorem revoke_minus_one_keeps_key :
    ∃ effects told s, Run effects told s ∧
      (s.rangeWithRevision (.single [97] 0)).1 =
        .ok (⟨[⟨[97], [1], 1, 1, 1, -1, false⟩], false, 1⟩, 1) ∧
      covered (replay effects 1) (.single [97] 0) = [] := by
  have run := Run.step (.step .start (.apply [.put [97] [1] (-1) false false false] true))
    (.leaseRevoke (-1) true)
  exact ⟨_, _, _, run, by decide +kernel, by decide +kernel⟩

end Reads

end Fastetcd.Mvcc
