import Fastetcd.Laws.Raft.Turns

/-!
# Replaying the log after a crash

Every commit leaves what the entries done by its own rows leave one by one (`Settled`), because an
entry stages where it will be before it commits. So it does not matter which commit a crash keeps.
-/

namespace Fastetcd.Raft

open Mvcc Std

/-! ## Commits and what is done by them -/

/-- How the whole log ends, one by one from a new store. -/
def CommittedLog.ending (log : CommittedLog) : Except ApplyError Unit × Replica :=
  ends (Store.open Tables.empty) log.work

section

variable (log : CommittedLog)

/-- The store holds what is done of the log at a position. -/
def Holds (s : Store) (p : Position) : Prop :=
  ∃ responses v, applyAll (Store.open Tables.empty) (log.done p) = (.ok responses, v) ∧
    s.replica = v.replica

/-- The tables hold what is done of the log by their rows. -/
structure Settled (t : Tables) : Prop where
  inv : (Store.open t).Inv
  next : log.Next (position t.metaRows.raft)
  holds : Holds log (Store.open t) (position t.metaRows.raft)

/-- Whatever a crash keeps of a store is settled. -/
structure Kept (s : Store) : Prop where
  inv : s.Inv
  stored : s.Stored
  commits : ∀ t ∈ s.commits, Settled log t

/-- The store holds what is done by the rows that are staged. -/
structure At (s : Store) : Prop extends Kept log s where
  next : log.Next (position s.rows)
  holds : Holds log s (position s.rows)

end

section

variable {log : CommittedLog} {s t u v : Store} {p q : Position}

theorem Holds.of_replica (holds : Holds log s p) (same : t.replica = s.replica) :
    Holds log t p := by
  obtain ⟨responses, v, worked, replica⟩ := holds
  exact ⟨responses, v, worked, same.trans replica⟩

theorem start_keeps (work : List (Nat × FastetcdLogEntry)) :
    (applyAll (Store.open Tables.empty) work).2.Inv ∧
      (applyAll (Store.open Tables.empty) work).2.Stored :=
  applyAll_keeps .start (stored_open _) work

/-- Work takes a store to a later position. -/
theorem Holds.works (holds : Holds log s p) (inv : s.Inv) (stored : s.Stored)
    {work : List (Nat × FastetcdLogEntry)} {responses : List FastetcdLogResponse}
    (worked : applyAll s work = (.ok responses, v)) (same : t.replica = v.replica)
    (done : log.done q = log.done p ++ work) : Holds log t q := by
  obtain ⟨first, w, before, replica⟩ := holds
  obtain ⟨invW, storedW⟩ := start_keeps (log.done p)
  rw [before] at invW storedW
  obtain ⟨answers, replicas⟩ := applyAll_agree inv invW stored storedW replica work
  rw [worked] at answers replicas
  generalize result : applyAll w work = b at answers replicas
  obtain ⟨answer, u⟩ := b
  obtain rfl : Except.ok responses = answer := answers
  refine ⟨first ++ responses, u, ?_, same.trans replicas⟩
  rw [done, applyAll_append, before]
  dsimp only
  rw [result]
  rfl

/-- Work that fails ends the log. -/
theorem Holds.fails (holds : Holds log s p) (inv : s.Inv) (stored : s.Stored) {i : Nat}
    {entry : FastetcdLogEntry} {e : ApplyError} (failed : applyData s i true entry = (.error e, t))
    (done : log.done q = log.done p ++ [(i, entry)]) : log.ending = (.error e, t.replica) := by
  obtain ⟨first, w, before, replica⟩ := holds
  obtain ⟨invW, storedW⟩ := start_keeps (log.done p)
  rw [before] at invW storedW
  obtain ⟨rest, whole⟩ := log.done_prefix q
  rw [CommittedLog.ending, ← whole, done, List.append_assoc, ends_append before, List.singleton_append,
    ← ends_error failed rest, ends_agree invW inv storedW stored replica.symm]

theorem settled_engine (inv : s.Inv) (stored : s.Stored)
    (next : log.Next (position s.engine.metaRows.raft))
    (holds : Holds log s (position s.engine.metaRows.raft)) : Settled log s.engine :=
  ⟨inv.reopened, next, holds.of_replica (replica_open inv stored)⟩

theorem Kept.restaged (kept : Kept log s) (restaged : Restaged s t) : Kept log t := by
  refine ⟨restaged.inv kept.inv, restaged.stored kept.stored, ?_⟩
  rw [restaged.commits]
  exact kept.commits

/-- A commit of a store whose staged rows say what is done by it. -/
theorem Kept.commit (kept : Kept log s) (acts : Acts s t) (next : log.Next (position s.rows))
    (holds : Holds log t (position s.rows)) : At log t := by
  have rows := acts.commits.rows_eq
  refine ⟨⟨acts.inv, acts.stored, ?_⟩, rows ▸ next, rows ▸ holds⟩
  cases acts.commits with
  | none _ commits _ =>
    rw [commits]
    exact kept.commits
  | one commits _ raft =>
    intro tables mem
    rw [commits, List.mem_append, List.mem_singleton] at mem
    rcases mem with old | rfl
    · exact kept.commits tables old
    · exact settled_engine acts.inv acts.stored (raft ▸ next) (raft ▸ holds)

/-- A store can stage a later position, when there is nothing between them. -/
theorem At.restaged (here : At log s) (restaged : Restaged s t) (next : log.Next (position t.rows))
    (done : log.done (position t.rows) = log.done (position s.rows)) : At log t := by
  refine ⟨here.toKept.restaged restaged, next, ?_⟩
  rw [Holds, done]
  exact here.holds.of_replica restaged.replica

/-- A store does the work that is staged. -/
theorem At.worked (here : At log s) (restaged : Restaged s u)
    {work : List (Nat × FastetcdLogEntry)} (acts : Acts u t)
    {responses : List FastetcdLogResponse} (worked : applyAll u work = (.ok responses, v))
    (same : t.replica = v.replica) (next : log.Next (position u.rows))
    (done : log.done (position u.rows) = log.done (position s.rows) ++ work) :
    At log t ∧ position t.rows = position u.rows := by
  have kept := here.toKept.restaged restaged
  have before := here.holds.of_replica restaged.replica
  exact ⟨kept.commit acts next (before.works kept.inv kept.stored worked same done),
    congrArg position acts.commits.rows_eq⟩

/-- A store fails in the work that is staged. -/
theorem At.failed (here : At log s) (restaged : Restaged s u) {i : Nat}
    {entry : FastetcdLogEntry} (done : log.done q = log.done (position s.rows) ++ [(i, entry)])
    {e : ApplyError} (failed : applyData u i true entry = (.error e, t)) :
    Kept log t ∧ log.ending = (.error e, t.replica) := by
  have kept := here.toKept.restaged restaged
  obtain rfl := applyData_error kept.inv failed
  exact ⟨kept, (here.holds.of_replica restaged.replica).fails kept.inv kept.stored failed done⟩

/-! ## A batch -/

section

variable {e : Entry} {rest : List Entry}

theorem work_batch (batch : e.payload = .normal (.batch e.subs)) :
    e.work = e.subs.map (e.index, ·) := by
  rw [Entry.work, batch]

/-- Sub-entries are done after those before them. -/
theorem done_stageDone (batch : e.payload = .normal (.batch e.subs))
    (now : log.after (position s.rows).applied = e :: rest) {j n : Nat}
    (progress : skipOf (position s.rows).batch e.index = j) :
    log.done (position (stageDone e.logId e.subs.length s (j + n)).rows) =
      log.done (position s.rows) ++ ((e.subs.drop j).take n).map (e.index, ·) := by
  have parts : e.part (j + n) = e.part j ++ ((e.subs.drop j).take n).map (e.index, ·) := by
    rw [Entry.part, List.take_add, List.map_append]
    rfl
  rw [CommittedLog.done_eq now, progress, List.append_assoc, ← parts, position_stageDone]
  split
  · rename_i all
    rw [CommittedLog.done_next now, work_batch batch, all, Entry.part, List.take_length]
    intro i done same
    cases same
    exact le_rfl
  · have within := CommittedLog.done_eq (p := ⟨(position s.rows).applied, some (e.index, j + n)⟩) now
    rw [skipOf_self] at within
    exact within

theorem next_stageDone (now : log.after (position s.rows).applied = e :: rest)
    (next : log.Next (position s.rows)) {j n : Nat}
    (progress : skipOf (position s.rows).batch e.index = j)
    (flat : ∀ sub ∈ (e.subs.drop j).take n, sub.isBatch = false) :
    log.Next (position (stageDone e.logId e.subs.length s (j + n)).rows) := by
  have mem : e ∈ log.after (position s.rows).applied := now ▸ List.mem_cons_self
  rw [position_stageDone]
  split
  · refine CommittedLog.next_next now fun i done same => ?_
    cases same
    exact le_rfl
  · refine CommittedLog.next_within now fun sub mem' => ?_
    rw [List.take_add, List.mem_append] at mem'
    rcases mem' with before | now
    · exact next.flat e mem sub (progress ▸ before)
    · exact flat sub now

/-- How a batch ends that started with `from_` sub-entries done: with an error, with nothing left of
it, or with all of it done. -/
def BatchEnds (log : CommittedLog) (e : Entry) (done : Nat)
    (s t : Store) : Except ApplyError (List FastetcdLogResponse) → Prop
  | .error err => Kept log t ∧ log.ending = (.error err, t.replica)
  | .ok _ => At log t ∧ ((e.subs.length ≤ done ∧ t = s) ∨
      (done < e.subs.length ∧ position t.rows = ⟨some e.logId, some (e.index, e.subs.length)⟩))

theorem BatchEnds.prepend {done : Nat} {answer : Except ApplyError (List FastetcdLogResponse)}
    (ends : BatchEnds log e done s t answer) (responses : List FastetcdLogResponse) :
    BatchEnds log e done s t (Raft.prepend responses (answer, t)).1 := by
  cases answer with
  | error err => exact ends
  | ok more => exact ends

theorem Turns.ends (batch : e.payload = .normal (.batch e.subs)) {skip j : Nat}
    {subs : List FastetcdLogEntry} {answer : Except ApplyError (List FastetcdLogResponse)}
    (turns : Turns e.logId e.subs.length skip j subs s answer t) (from_ : subs = e.subs.drop j)
    (here : At log s) (now : log.after (position s.rows).applied = e :: rest)
    (progress : skipOf (position s.rows).batch e.index = max j skip) :
    BatchEnds log e (max j skip) s t answer := by
  have mem {s : Store} (now : log.after (position s.rows).applied = e :: rest) :
      e ∈ log.after (position s.rows).applied := now ▸ List.mem_cons_self
  induction turns with
  | nil j s =>
    refine ⟨here, .inl ⟨?_, rfl⟩⟩
    exact (List.drop_eq_nil_iff.mp from_.symm).trans (le_max_left _ _)
  | @nested j sub subs s nested =>
    have first := mem now
    rcases Nat.lt_or_ge j skip with less | due
    · -- a sub-entry that was done is no batch
      have done : sub ∈ e.subs.take skip := by
        obtain ⟨k, rfl⟩ := Nat.exists_eq_add_of_lt less
        rw [Nat.add_assoc, List.take_add, ← from_, List.take_succ_cons]
        exact List.mem_append_right _ List.mem_cons_self
      have flat := here.next.flat e first sub
      rw [progress, Nat.max_eq_right less.le] at flat
      rw [flat done] at nested
      exact nomatch nested
    · rw [Nat.max_eq_left due] at progress
      have done := done_stageDone (n := 1) batch now progress
      rw [← from_, List.take_succ_cons, List.take_zero] at done
      refine here.failed (u := s) ⟨rfl⟩ done ?_
      cases sub with
      | batch subs => rfl
      | _ => exact nomatch nested
  | @skipped j sub subs s t answer flat skipped rest ih =>
    have same : max (j + 1) skip = max j skip := by omega
    rw [← same] at progress ⊢
    refine (ih ?_ here now progress).prepend _
    rw [← List.drop_drop, ← from_, List.drop_one, List.tail_cons]
  | @failed j sub subs s t err due flat failed =>
    rw [Nat.max_eq_left due] at progress
    have done := done_stageDone (n := 1) batch now progress
    rw [← from_, List.take_succ_cons, List.take_zero] at done
    exact here.failed (restaged_stageDone _ _ s _) done failed
  | @worked j subs n s t v u responses answer due some within flat acts worked same rest ih =>
    subst from_
    rw [Nat.max_eq_left due] at progress ⊢
    rw [List.length_drop] at within
    have bound : j + n ≤ e.subs.length := by omega
    obtain ⟨there, position⟩ := here.worked (restaged_stageDone _ _ s _) acts worked same
      (next_stageDone now here.next progress flat) (done_stageDone batch now progress)
    rw [position_stageDone] at position
    refine BatchEnds.prepend ?_ responses
    by_cases all : j + n = e.subs.length
    · rw [if_pos all] at position
      rw [List.drop_drop, List.drop_of_length_le all.ge] at rest
      obtain ⟨rfl, rfl⟩ := rest.of_nil
      refine ⟨there, .inr ⟨by omega, ?_⟩⟩
      rw [position, all]
      rfl
    · rw [if_neg all] at position
      have later := ih (List.drop_drop ..) there (by rw [position]; exact now) (by
        rw [position, Nat.max_eq_left (by omega)]
        exact skipOf_self _ _)
      rw [Nat.max_eq_left (by omega)] at later
      cases answer with
      | error err => exact later
      | ok more =>
        obtain ⟨last, ⟨few, -⟩ | ⟨-, done⟩⟩ := later
        · omega
        · exact ⟨last, .inr ⟨by omega, done⟩⟩

end

/-! ## Entries -/

/-- A state machine that is to apply `rest`, and knows what of the first entry is done. -/
structure Ready (log : CommittedLog) (sm : StateMachine) (rest : List Entry) : Prop where
  stays : At log sm.mvcc
  last : sm.lastAppliedLogId = (position sm.mvcc.rows).applied
  now : log.after (position sm.mvcc.rows).applied = rest
  progress : ∀ e ∈ rest,
    skipOf sm.batchProgress e.index = skipOf (position sm.mvcc.rows).batch e.index

/-- How an apply goes: on to `rest`, or to an error that ends the log. -/
def Goes {α : Type} (log : CommittedLog) (rest : List Entry) : Except ApplyError α × StateMachine → Prop
  | (.error err, sm) => Kept log sm.mvcc ∧ log.ending = (.error err, sm.mvcc.replica)
  | (.ok _, sm) => Ready log sm rest

section

variable {sm : StateMachine} {e : Entry} {rest : List Entry}

/-- The batch in progress is not past the first entry. -/
theorem Ready.batch_le (ready : Ready log sm (e :: rest)) (i done : Nat)
    (same : (position sm.mvcc.rows).batch = some (i, done)) : i ≤ e.index := by
  refine ready.stays.next.first i done same e ?_
  rw [ready.now]
  exact List.mem_cons_self

/-- The state machine has applied an entry. -/
theorem Ready.applied (ready : Ready log sm (e :: rest)) (there : At log t)
    {batch : Option (Nat × Nat)} (moved : position t.rows = ⟨some e.logId, batch⟩)
    (first : ∀ i done, batch = some (i, done) → i ≤ e.index) (membership : StoredMembership) :
    Ready log { sm.applied e.logId t with lastMembership := membership } rest := by
  refine ⟨there, ?_, ?_, fun e' mem => ?_⟩
  · show some e.logId = (position t.rows).applied
    rw [moved]
  · show log.after (position t.rows).applied = rest
    rw [moved]
    exact (CommittedLog.step ready.now).1
  · -- nothing of a later entry was done before, and nothing is now
    show skipOf sm.batchProgress e'.index = skipOf (position t.rows).batch e'.index
    have later := CommittedLog.lt_of_after ready.now mem
    rw [moved, skipOf_of_lt fun i done same => Nat.lt_of_le_of_lt (first i done same) later,
      ready.progress e' (List.mem_cons_of_mem _ mem),
      skipOf_of_lt fun i done same => Nat.lt_of_le_of_lt (ready.batch_le i done same) later]

/-- An entry that has nothing more to apply is staged. -/
theorem At.idle (here : At log s) (now : log.after (position s.rows).applied = e :: rest)
    (first : ∀ i done, (position s.rows).batch = some (i, done) → i ≤ e.index)
    (all : e.work = e.part (skipOf (position s.rows).batch e.index))
    (membership : Option StoredMembership) :
    At log (s.stageRaftMeta (some e.logId) membership) := by
  refine here.restaged (restaged_stageRaftMeta s _ _) ?_ ?_
  · rw [position_stageRaftMeta]
    exact CommittedLog.next_next now first
  · rw [position_stageRaftMeta, CommittedLog.done_next now first, CommittedLog.done_eq now, all]

/-- An entry that is one unit of work. -/
theorem Ready.data (ready : Ready log sm (e :: rest)) {data : FastetcdLogEntry}
    (single : e.subs = []) (work : e.work = [(e.index, data)]) :
    Goes log rest
      (match applyData (sm.mvcc.stageRaftMeta (some e.logId) none) e.index true data with
      | (.error err, s) => (.error err, { sm with mvcc := s })
      | (.ok response, s) => (.ok (Response.one response), sm.applied e.logId s)) := by
  have kept := ready.stays.toKept.restaged (restaged_stageRaftMeta sm.mvcc (some e.logId) none)
  have acts := applyData_acts kept.inv kept.stored e.index data
  have done : log.done (position (sm.mvcc.stageRaftMeta (some e.logId) none).rows) =
      log.done (position sm.mvcc.rows) ++ [(e.index, data)] := by
    rw [position_stageRaftMeta, CommittedLog.done_eq ready.now, CommittedLog.done_next ready.now ready.batch_le, work,
      Entry.part, single, List.take_nil, List.map_nil, List.append_nil]
  have next : log.Next (position (sm.mvcc.stageRaftMeta (some e.logId) none).rows) := by
    rw [position_stageRaftMeta]
    exact CommittedLog.next_next ready.now ready.batch_le
  cases result : applyData (sm.mvcc.stageRaftMeta (some e.logId) none) e.index true data with
  | mk answer t =>
    rw [result] at acts
    cases answer with
    | error err => exact ready.stays.failed (restaged_stageRaftMeta _ _ _) done result
    | ok response =>
      obtain ⟨there, moved⟩ := ready.stays.worked (restaged_stageRaftMeta _ _ _) acts
        (applyAll_one result) rfl next done
      rw [position_stageRaftMeta] at moved
      exact ready.applied there moved ready.batch_le sm.lastMembership

/-- A batched entry. -/
theorem Ready.batch (ready : Ready log sm (e :: rest))
    (batch : e.payload = .normal (.batch e.subs)) :
    Goes log rest
      (match applyBatch e.logId (skipOf sm.batchProgress e.index) e.subs sm.mvcc with
      | (.error err, s) => (.error err, { sm with mvcc := s })
      | (.ok responses, s) => (.ok (Response.batch responses), sm.applied e.logId s)) := by
  have same := position_stageBatchedMarker sm.mvcc
  have here : At log sm.mvcc.stageBatchedMarker :=
    ready.stays.restaged (restaged_stageBatchedMarker _) (same ▸ ready.stays.next) (by rw [same])
  have now : log.after (position sm.mvcc.stageBatchedMarker.rows).applied = e :: rest :=
    same ▸ ready.now
  have progress : skipOf (position sm.mvcc.stageBatchedMarker.rows).batch e.index =
      max 0 (skipOf sm.batchProgress e.index) := by
    rw [same, ← ready.progress e List.mem_cons_self, Nat.zero_max]
  have turns := applySubs_turns e.logId e.subs.length (skipOf sm.batchProgress e.index) (j := 0)
    (Nat.le_refl e.subs.length) here.inv here.stored
  have ends := turns.ends batch rfl here now progress
  rw [applyBatch]
  rw [Nat.zero_max] at ends progress
  generalize applySubs e.logId e.subs.length (skipOf sm.batchProgress e.index) e.subs.length 0
    e.subs sm.mvcc.stageBatchedMarker = result at ends
  obtain ⟨answer, t⟩ := result
  cases answer with
  | error err => exact ends
  | ok responses =>
    obtain ⟨there, ⟨few, same'⟩ | ⟨some, moved⟩⟩ := ends
    · dsimp only at same'
      subst same'
      dsimp only
      rw [if_pos few]
      have first := fun i done held => ready.batch_le i done (same ▸ held)
      have all : e.work =
          e.part (skipOf (position sm.mvcc.stageBatchedMarker.rows).batch e.index) := by
        rw [progress, work_batch batch, Entry.part, List.take_of_length_le few]
      exact ready.applied (here.idle now first all _) (position_stageRaftMeta _ _ _) first
        sm.lastMembership
    · dsimp only
      rw [if_neg (Nat.not_le_of_lt some)]
      refine ready.applied there moved (fun i done held => ?_) sm.lastMembership
      cases held
      exact le_rfl

theorem Ready.entry (ready : Ready log sm (e :: rest)) : Goes log rest (sm.applyEntry e) := by
  have idle (none : e.work = []) (single : e.subs = [])
      (membership : Option StoredMembership) (last : StoredMembership) :
      Ready log { sm.applied e.logId (sm.mvcc.stageRaftMeta (some e.logId) membership) with
        lastMembership := last } rest := by
    refine ready.applied (ready.stays.idle ready.now ready.batch_le ?_ membership)
      (position_stageRaftMeta _ _ _) ready.batch_le last
    rw [none, Entry.part, single, List.take_nil]
    rfl
  rw [StateMachine.applyEntry]
  cases payload : e.payload with
  | membership configs => exact idle (by rw [Entry.work, payload]) (by rw [Entry.subs, payload]) _ _
  | blank =>
    exact idle (by rw [Entry.work, payload]) (by rw [Entry.subs, payload]) none sm.lastMembership
  | normal data =>
    cases data with
    | batch subs =>
      have same : e.subs = subs := by rw [Entry.subs, payload]
      subst same
      exact ready.batch payload
    | _ => exact ready.data (by rw [Entry.subs, payload]) (by rw [Entry.work, payload])

theorem Ready.entries {entries : List Entry} (ready : Ready log sm (entries ++ rest)) :
    Goes log rest (sm.applyEntries entries) := by
  induction entries generalizing sm with
  | nil => exact ready
  | cons e entries ih =>
    have first := ready.entry
    rw [StateMachine.applyEntries]
    generalize sm.applyEntry e = result at first
    obtain ⟨answer, sm'⟩ := result
    cases answer with
    | error err => exact first
    | ok response =>
      have others := ih first
      dsimp only
      generalize sm'.applyEntries entries = result at others
      obtain ⟨answer, sm''⟩ := result
      cases answer <;> exact others

/-- The flush commits the rows that are staged. -/
theorem flushRaftMeta_acts (inv : s.Inv) (stored : s.Stored) :
    Acts s (s.flushRaftMeta true).2 ∧ (s.flushRaftMeta true).2.replica = s.replica := by
  have after := (quiet_flushRaftMeta inv true).inv inv
  rw [flushRaftMeta_eq] at after ⊢
  split at after
  · rename_i none
    rw [if_pos none]
    exact ⟨.refl inv stored, rfl⟩
  · rename_i some
    rw [if_neg some]
    exact ⟨acts_sideCommitted after rfl stored, replica_sideCommitted s []⟩

theorem At.flush (here : At log s) :
    At log (s.flushRaftMeta true).2 ∧
      position (s.flushRaftMeta true).2.rows = position s.rows := by
  obtain ⟨acts, same⟩ := flushRaftMeta_acts here.inv here.stored
  exact ⟨here.toKept.commit acts here.next (here.holds.of_replica same),
    congrArg position acts.commits.rows_eq⟩

theorem Ready.apply {entries : List Entry} (ready : Ready log sm (entries ++ rest)) :
    Goes log rest (sm.apply entries) := by
  have applied := ready.entries
  rw [StateMachine.apply]
  generalize sm.applyEntries entries = result at applied
  obtain ⟨answer, sm'⟩ := result
  cases answer with
  | error err => exact applied
  | ok responses =>
    obtain ⟨there, moved⟩ := applied.stays.flush
    refine ⟨there, ?_, ?_, ?_⟩
    · rw [moved]
      exact applied.last
    · rw [moved]
      exact applied.now
    · rw [moved]
      exact applied.progress

theorem Ready.run {chunks : List (List Entry)} (ready : Ready log sm (chunks.flatten ++ rest)) :
    Goes log rest (sm.run chunks) := by
  induction chunks generalizing sm with
  | nil => exact ready
  | cons entries chunks ih =>
    rw [List.flatten_cons, List.append_assoc] at ready
    have first := ready.apply
    rw [StateMachine.run]
    generalize sm.apply entries = result at first
    obtain ⟨answer, sm'⟩ := result
    cases answer with
    | error err => exact first
    | ok responses =>
      have others := ih first
      dsimp only
      generalize sm'.run chunks = result at others
      obtain ⟨answer, sm''⟩ := result
      cases answer <;> exact others

theorem Goes.kept {α : Type} {result : Except ApplyError α × StateMachine}
    (goes : Goes log rest result) : Kept log result.2.mvcc := by
  obtain ⟨answer, sm⟩ := result
  cases answer with
  | error err => exact goes.1
  | ok a => exact goes.stays.toKept

/-- When nothing is left, the log has ended. -/
theorem Goes.ended {α : Type} {result : Except ApplyError α × StateMachine}
    (goes : Goes log [] result) :
    log.ending = (result.1.map fun _ => (), result.2.mvcc.replica) := by
  obtain ⟨answer, sm⟩ := result
  cases answer with
  | error err => exact goes.2
  | ok a =>
    obtain ⟨responses, v, worked, replica⟩ := goes.stays.holds
    have all := log.before_append_after (position sm.mvcc.rows).applied
    rw [goes.now, List.append_nil] at all
    rw [CommittedLog.done, goes.now, all, List.append_nil] at worked
    rw [CommittedLog.ending, ends, CommittedLog.work, worked, replica]
    rfl

/-! ## Crashes -/

theorem Settled.open_ {t : Tables} (settled : Settled log t) :
    Ready log (StateMachine.open_ t) (log.after (position t.metaRows.raft).applied) := by
  have rows : (Store.open t).rows = t.metaRows.raft := raft_initTables t
  have stored := stored_open t
  refine ⟨⟨⟨settled.inv, stored, fun tables mem => ?_⟩, ?_, ?_⟩, ?_, ?_, fun e mem => ?_⟩
  · -- the first open of an engine commits
    obtain rfl : tables = (Store.open t).engine := by
      by_cases fresh : readWriteState t = ⟨0, 0, 0⟩
      · simpa [StateMachine.open_, Store.open, fresh] using mem
      · simp [StateMachine.open_, Store.open, fresh] at mem
    have raft : (Store.open t).engine.metaRows.raft = t.metaRows.raft := raft_initTables t
    exact settled_engine settled.inv stored (raft ▸ settled.next) (raft ▸ settled.holds)
  · exact rows ▸ settled.next
  · exact rows ▸ settled.holds
  · exact congrArg (fun rows => (position rows).applied) rows.symm
  · exact congrArg (fun rows => log.after (position rows).applied) rows
  · show skipOf t.metaRows.raft.batch e.index = skipOf (position (Store.open t).rows).batch e.index
    rw [rows]
    rfl

/-- The tables that a process may find: those of a new engine, and those that any commit left while
a process that found tables before it applied what openraft handed over. -/
inductive Disk (log : CommittedLog) : Tables → Prop
  | new : Disk log Tables.empty
  | crash {t : Tables} {chunks : List (List Entry)} (before : Disk log t)
      (handed : chunks.flatten <+: log.after (position t.metaRows.raft).applied) {t' : Tables}
      (kept : t' ∈ ((StateMachine.open_ t).run chunks).2.mvcc.commits) : Disk log t'

theorem CommittedLog.after_none (log : CommittedLog) : log.after none = log.entries :=
  List.filter_eq_self.mpr fun _ _ => rfl

/-- Nothing is done in a new engine. -/
theorem settled_empty (log : CommittedLog) : Settled log Tables.empty := by
  refine ⟨.start, ⟨nofun, fun e mem sub done => nomatch done⟩, [], _, ?_, rfl⟩
  have none : log.done (position Tables.empty.metaRows.raft) = [] := by
    have before : log.before none = [] := List.filter_eq_nil_iff.mpr fun _ _ => nofun
    show (log.before none).flatMap Entry.work ++ _ = []
    rw [before]
    split <;> rfl
  rw [none]
  rfl

theorem Disk.settled {t : Tables} (disk : Disk log t) : Settled log t := by
  induction disk with
  | new => exact settled_empty log
  | crash before handed kept ih =>
    obtain ⟨rest, whole⟩ := handed
    have ready := ih.open_
    rw [← whole] at ready
    exact ready.run.kept.commits _ kept

/-- Whatever was on disk, what is left ends the log. -/
theorem Disk.goes {t : Tables} (disk : Disk log t) {chunks : List (List Entry)}
    (rest : chunks.flatten = log.after (position t.metaRows.raft).applied) :
    Goes log [] ((StateMachine.open_ t).run chunks) := by
  have ready := disk.settled.open_
  rw [← rest, ← List.append_nil chunks.flatten] at ready
  exact ready.run

end

end

/-- A log is replayed exactly once: after any number of crashes, applying what is left ends as a run
without a crash does, with the same tables and the same revisions. -/
theorem replay_exactly_once (log : CommittedLog) {t : Tables} (disk : Disk log t)
    {chunks whole : List (List Entry)}
    (rest : chunks.flatten = log.after (position t.metaRows.raft).applied)
    (all : whole.flatten = log.entries) :
    let crashed := (StateMachine.open_ t).run chunks
    let steady := (StateMachine.open_ Tables.empty).run whole
    (crashed.1.map fun _ => ()) = (steady.1.map fun _ => ()) ∧
      crashed.2.mvcc.engine.data = steady.2.mvcc.engine.data ∧
      crashed.2.mvcc.view.revs = steady.2.mvcc.view.revs := by
  intro crashed steady
  have fresh : whole.flatten = log.after (position Tables.empty.metaRows.raft).applied := by
    rw [all]
    exact log.after_none.symm
  have first := disk.goes rest
  have second := Disk.new.goes fresh
  have same := first.ended.symm.trans second.ended
  have replica : crashed.2.mvcc.replica = steady.2.mvcc.replica := congrArg Prod.snd same
  refine ⟨congrArg Prod.fst same, congrArg Replica.data replica, ?_⟩
  calc crashed.2.mvcc.view.revs
      = crashed.2.mvcc.writeState.revs := first.kept.inv.view
    _ = steady.2.mvcc.writeState.revs := congrArg WriteState.revs (state_of_replica replica)
    _ = steady.2.mvcc.view.revs := second.kept.inv.view.symm

/-- A batch whose sub-entries commit one by one: a lease, and a put under it. -/
def leasedBatch : Entry where
  logId := ⟨1, 1, 1⟩
  payload := .normal (.batch [.leaseGrant 7 60 0, .apply [.put [1] [2] 7 false false false]])

def leasedLog : CommittedLog := ⟨[leasedBatch], List.pairwise_singleton _ _⟩

/-- The commits of its first run. -/
def leasedCommits : List Tables := ((StateMachine.open_ .empty).run [[leasedBatch]]).2.mvcc.commits

/-- A crash between the lease and the put. -/
theorem replay_exactly_once_leased : ∃ t, Disk leasedLog t ∧
    position t.metaRows.raft = ⟨none, some (1, 1)⟩ ∧
    ((StateMachine.open_ t).run [[leasedBatch]]).2.mvcc.engine.data =
      ((StateMachine.open_ .empty).run [[leasedBatch]]).2.mvcc.engine.data := by
  have middle : (leasedCommits[1]?).map (position ·.metaRows.raft) = some ⟨none, some (1, 1)⟩ := by
    decide +kernel
  obtain ⟨t, found, moved⟩ := Option.map_eq_some_iff.mp middle
  have disk : Disk leasedLog t := .crash .new List.prefix_rfl (List.mem_of_getElem? found)
  have rest : [[leasedBatch]].flatten = leasedLog.after (position t.metaRows.raft).applied := by
    rw [moved]
    rfl
  exact ⟨t, disk, moved, (replay_exactly_once leasedLog disk rest rfl).2.1⟩

end Fastetcd.Raft
