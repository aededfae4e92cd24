import Fastetcd.Laws.Mvcc.PrevKv
import Fastetcd.Laws.Mvcc.ReadHistory

/-!
# Lists and watches

A client keeps a copy of a key range by listing it once and following the events after the
revision of its list. That works because what a reader at a revision sees is the events up to it,
followed one by one from nothing (`Chronicle.readAt_eq`), and because the list of a revision stays
what it was for as long as the revision is not compacted (`Moves.readAt_eq`).
-/

namespace Fastetcd.Mvcc

open Timeline Reference KeyIndex Content Replay
open Std (ExtTreeMap)

/-- A copy of some keys after one more event. -/
def follow (copy : Table Bytes KvRecord) (e : MvccEvent) : Table Bytes KvRecord :=
  if e.kind = .put then copy.insert e.kv.key e.kv else copy.erase e.kv.key

/-- The copy that listed records make. -/
def listed (kvs : List KvRecord) : Table Bytes KvRecord :=
  kvs.foldl (fun copy rec => copy.insert rec.key rec) ∅

/-! ## Following events -/

theorem getElem?_follow (copy : Table Bytes KvRecord) (events : List MvccEvent) (key : Bytes) :
    (events.foldl follow copy)[key]? =
      if ofKey key events = [] then copy[key]? else liveAfter key events := by
  induction events using List.reverseRecOn with
  | nil => rfl
  | append_singleton events e ih =>
    rw [List.foldl_append, List.foldl_cons, List.foldl_nil, ofKey_concat, liveAfter_concat, follow]
    by_cases own : e.kv.key = key
    · subst own
      cases e.kind <;> simp
    · cases e.kind <;> simp [own, ih, ExtTreeMap.getElem?_insert, ExtTreeMap.getElem?_erase]

theorem liveAfter_append (key : Bytes) (a b : List MvccEvent) :
    liveAfter key (a ++ b) = if ofKey key b = [] then liveAfter key a else liveAfter key b := by
  have own : ofKey key (a ++ b) = ofKey key a ++ ofKey key b := List.filter_append ..
  rw [liveAfter, own]
  split
  · next none => rw [none, List.append_nil, liveAfter]
  · next some => rw [List.getLast?_append_of_ne_nil _ some, liveAfter]

/-- Following goes by the keys and the records of the events alone. -/
theorem foldl_follow_bare {ws : List Write} {prev : Write → Option KvRecord}
    (copy : Table Bytes KvRecord) :
    (ws.map fun w => (⟨w.event.kind, w.event.kv, prev w⟩ : MvccEvent)).foldl follow copy =
      (ws.map Write.event).foldl follow copy := by
  rw [List.foldl_map, List.foldl_map]
  rfl

theorem getElem?_listed_answer {records : Table Bytes KvRecord}
    (keyed : ∀ {key : Bytes} {rec}, records[key]? = some rec → rec.key = key)
    (key rangeEnd : Bytes) (revision : Int) (k : Bytes) :
    (listed (answer records ⟨key, rangeEnd, 0, revision, false, false⟩).kvs)[k]? =
      if inRange k key rangeEnd then records[k]? else none := by
  have rows : listed (answer records ⟨key, rangeEnd, 0, revision, false, false⟩).kvs =
      (records.scan (inRange · key rangeEnd)).foldl
        (fun copy row => copy.insert row.1 row.2) ∅ := by
    rw [listed, answer]
    simp only [Nat.lt_irrefl, gt_iff_lt, if_false, Bool.false_eq_true, List.foldl_map]
    refine List.foldl_ext _ _ _ fun copy row mem => ?_
    have own := keyed (Table.mem_scan.mp mem).1
    rw [trim, if_neg Bool.false_ne_true, own]
  have inserts (copy : Table Bytes KvRecord) (row : Bytes × KvRecord) (k : Bytes) :
      (copy.insert row.1 row.2)[k]? = if row.1 = k then some row.2 else copy[k]? := by
    simp [ExtTreeMap.getElem?_insert]
  rw [rows, Table.scan, Table.getElem?_foldl_filter inserts]
  cases records[k]? <;> simp

/-! ## What a reader sees is what was told -/

/-- The log up to a revision goes on from the log up to an earlier one. -/
theorem Ordered.split {log : List Write} (ordered : Ordered log) {first last : Int}
    (later : first ≤ last) :
    log.filter (fun w => w.rev.main ≤ last) = log.filter (fun w => w.rev.main ≤ first) ++
      log.filter fun w => first < w.rev.main ∧ w.rev.main ≤ last := by
  induction log with
  | nil => rfl
  | cons w log ih =>
    obtain ⟨before, rest⟩ := List.pairwise_cons.mp ordered
    by_cases low : w.rev.main ≤ first
    · simp only [List.filter_cons, low, low.trans later, ih rest, not_lt.mpr low, decide_true,
        if_true, false_and, decide_false, Bool.false_eq_true, if_false, List.cons_append]
    · -- Every later write is after `first` too.
      have high : ∀ v ∈ w :: log, first < v.rev.main := by
        intro v mem
        rcases List.mem_cons.mp mem with rfl | mem
        · exact not_le.mp low
        · have order := Ordering.then_eq_lt.mp (before v mem)
          have le : w.rev ≤ v.rev := order.elim (fun less => (compare_lt_iff_lt.mp less).le)
            fun same => (compare_eq_iff_eq.mp same.1).le
          exact (not_le.mp low).trans_le (Revision.main_le_of_le le)
      have none : (w :: log).filter (fun w => w.rev.main ≤ first) = [] :=
        List.filter_eq_nil_iff.mpr fun v mem => by simpa using high v mem
      rw [none, List.nil_append]
      exact List.filter_congr fun v mem => by simp [high v mem]

section

variable {s t : Store} {effects : List Effect} {told : List EventBatch} {log : List Write}

theorem lifeIn_filter (key : Bytes) (log : List Write) (main : Int) :
    lifeIn key (log.filter fun w => w.rev.main ≤ main) =
      (lifeIn key log).filter fun x => x.1 ≤ Revision.endOf main := by
  rw [lifeIn, lifeIn, List.filter_map, List.filter_filter, List.filter_filter]
  simp [Revision.le_endOf, Bool.and_comm]

variable {main : Int} {batches : List EventBatch}

/-- A reader at a revision that is not compacted sees what the events up to it leave. -/
theorem Chronicle.readAt_eq (here : Chronicle told log s) (inv : s.Inv)
    (floor : s.writeState.compactRev ≤ main) (key : Bytes) :
    (s.content.readAt (.endOf main))[key]? =
      liveAfter key ((log.filter fun w => w.rev.main ≤ main).map Write.event) := by
  have ascending := ascending_lifeIn here.ledger.ordered key
  have seen : liveAt (s.content.life key) (.endOf main) =
      live (lifeIn key (log.filter fun w => w.rev.main ≤ main)) := by
    rw [here.life, liveAt_trim ascending (Revision.le_endOf.mpr floor), lifeIn_filter]
    rfl
  rw [getElem?_readAt, seen]
  rcases liveAfter_eq here (fun v mem => (List.mem_filter.mp mem).1) key with
    ⟨none, dead⟩ | ⟨v, mem, own, some, alive⟩
  · rw [none, dead]
    rfl
  · rw [some, alive, Option.bind_some]
    rw [alive] at seen
    obtain ⟨rec, stored, -⟩ := inv.content.exists_record (mem_of_liveAt seen).1
    obtain ⟨w, logged, pair, rfl⟩ := here.known key v.rev rec stored
    have same : w = v := eq_of_pair here.ledger.ordered logged (List.mem_filter.mp mem).1
      (pair.trans (by rw [Reference.Write.pair, own]))
    rw [stored, same]

/-- A Range without a limit at a revision between the compaction floor and now. -/
theorem range_at (inv : s.Inv) {revision : Int} (positive : 0 < revision)
    (floor : s.writeState.compactRev ≤ revision) (reached : revision ≤ s.writeState.currentRev)
    (r : RangeOp) (reading : r.revision = revision) :
    (s.rangeWithRevision r).1 =
      .ok (answer (s.content.readAt (.endOf revision)) r, s.writeState.currentRev) := by
  have checked := checkReadRev_of_le positive floor reached
  rw [← reading] at checked
  rcases rangeWithRevision_spec inv r with ⟨e, refused, -⟩ | ⟨main, values, ok, served, -⟩
  · cases checked.symm.trans refused
  · rw [served, Except.ok.inj (ok.symm.trans checked), reading]

/-- A list at one revision, followed by the events after it up to a later revision, is the list at
the later revision. -/
theorem list_then_watch (run : Run effects told s) (key rangeEnd : Bytes) {first last : Int}
    (positive : 0 < first) (floor : s.writeState.compactRev ≤ first) (later : first ≤ last)
    (reached : last ≤ s.writeState.currentRev) :
    ∃ before events after,
      (s.rangeWithRevision ⟨key, rangeEnd, 0, first, false, false⟩).1 =
        .ok (before, s.writeState.currentRev) ∧
      s.rangeEventsUntil key rangeEnd first last = .ok events ∧
      (s.rangeWithRevision ⟨key, rangeEnd, 0, last, false, false⟩).1 =
        .ok (after, s.writeState.currentRev) ∧
      events.foldl follow (listed before.kvs) = listed after.kvs := by
  have inv : s.Inv := Reachable.inv ⟨effects, told, run⟩
  obtain ⟨log, here⟩ := run.chronicle
  refine ⟨_, _, _, range_at inv positive floor (later.trans reached) _ rfl,
    here.ledger.rangeEvents inv key rangeEnd floor last,
    range_at inv (positive.trans_le later) (floor.trans later) reached _ rfl, ?_⟩
  rw [foldl_follow_bare, min_eq_left reached]
  refine ExtTreeMap.ext_getElem? fun k => ?_
  rw [getElem?_follow, getElem?_listed_answer (key_of_readAt inv),
    getElem?_listed_answer (key_of_readAt inv)]
  by_cases inside : inRange k key rangeEnd = true
  · -- The events of the key up to `last` are those up to `first` and then those of the window.
    have window : ofKey k ((windowOf key rangeEnd first last log).map Write.event) =
        ofKey k ((log.filter fun w => first < w.rev.main ∧ w.rev.main ≤ last).map Write.event) := by
      rw [ofKey, ofKey, List.filter_map, List.filter_map, windowOf, List.filter_filter,
        List.filter_filter]
      refine congrArg _ (List.filter_congr fun w _ => ?_)
      by_cases own : w.event.kv.key = k
      · simp [own, inside]
      · simp [own]
    have after : liveAfter k ((windowOf key rangeEnd first last log).map Write.event) =
        liveAfter k ((log.filter fun w =>
          first < w.rev.main ∧ w.rev.main ≤ last).map Write.event) := by
      rw [liveAfter, window, liveAfter]
    rw [if_pos inside, if_pos inside, here.readAt_eq inv floor,
      here.readAt_eq inv (floor.trans later), here.ledger.ordered.split later, List.map_append,
      liveAfter_append, window, after]
  · have none : ofKey k ((windowOf key rangeEnd first last log).map Write.event) = [] := by
      refine List.filter_eq_nil_iff.mpr fun e mem => ?_
      obtain ⟨w, windowed, rfl⟩ := List.mem_map.mp mem
      have covered := (of_decide_eq_true (List.mem_filter.mp windowed).2).2.2
      rw [decide_eq_true_eq]
      rintro rfl
      exact inside covered
    rw [if_pos none, if_neg inside, if_neg inside]

theorem list_then_watch_deleted :
    let s := (((Store.open Tables.empty).apply [.put [97] [1] 0 false false false,
      .put [98] [2] 0 false false false] true).2.apply [.deleteRange [97] [] false] true).2
    ∃ before events after,
      (s.rangeWithRevision ⟨[97], [0], 0, 1, false, false⟩).1 = .ok (before, 2) ∧
      s.rangeEventsUntil [97] [0] 1 2 = .ok events ∧
      (s.rangeWithRevision ⟨[97], [0], 0, 2, false, false⟩).1 = .ok (after, 2) ∧
      events.foldl follow (listed before.kvs) = listed after.kvs := by
  have run := Run.step (.step .start (.apply [.put [97] [1] 0 false false false,
    .put [98] [2] 0 false false false] true)) (.apply [.deleteRange [97] [] false] true)
  exact list_then_watch run [97] [0] (by decide) (by decide) (by decide) (by decide)

theorem Move.currentRev_le (inv : s.Inv) (move : Move s effects batches t) :
    s.writeState.currentRev ≤ t.writeState.currentRev := by
  cases move with
  | quiet same => exact (congrArg Revs.current same.revs).ge
  | wrote wrote _ =>
    rw [wrote.current]
    split <;> omega
  | compacted => exact le_rfl
  | reopened => exact (congrArg Revs.current (readWriteState_engine inv)).ge

theorem Moves.currentRev_le (inv : s.Inv) (moves : Moves s effects batches t) :
    s.writeState.currentRev ≤ t.writeState.currentRev := by
  induction moves with
  | none => exact le_rfl
  | tail moves move ih => exact ih.trans (move.currentRev_le (moves.inv inv))

theorem Move.readAt_eq (inv : s.Inv) (move : Move s effects batches t)
    (floor : t.writeState.compactRev ≤ main) (reached : main ≤ s.writeState.currentRev) :
    t.content.readAt (.endOf main) = s.content.readAt (.endOf main) := by
  cases move with
  | quiet same => rw [same.content]
  | wrote wrote _ =>
    rw [wrote.content, readAt_writes inv.content wrote.fits]
    intro w mem
    rw [Revision.endOf_lt, wrote.revs w mem]
    omega
  | compacted _ later _ =>
    rw [content_compactedAt inv, readAt_compacted inv.content (Revision.le_endOf.mpr floor)]
  | reopened => rw [content_open inv]

theorem Moves.readAt_eq (inv : s.Inv) (moves : Moves s effects batches t)
    (floor : t.writeState.compactRev ≤ main) (reached : main ≤ s.writeState.currentRev) :
    t.content.readAt (.endOf main) = s.content.readAt (.endOf main) := by
  induction moves with
  | none => rfl
  | tail moves move ih =>
    have invs := moves.inv inv
    rw [move.readAt_eq invs floor (reached.trans (moves.currentRev_le inv)),
      ih ((move.compactRev_le invs).trans floor)]

theorem Steps.moves_all (inv : s.Inv) (steps : Steps s effects told t) :
    ∃ batches, Moves s effects batches t := by
  induction steps with
  | none => exact ⟨[], .none⟩
  | step steps step ih =>
    obtain ⟨batches, moves⟩ := ih
    exact ⟨_, moves.trans (step.moves (moves.inv inv))⟩

end

end Fastetcd.Mvcc
