import Fastetcd.Laws.Raft.Replica
import Fastetcd.Raft.Cluster

/-!
# Where a member is in the log

The rows of the state machine say what is done of the log: the entries up to the applied one, and
of a batched entry after it the first sub-entries (`CommittedLog.done`). Staging rows changes nothing else of
a store (`Restaged`), and opening what a store has committed gives its replica (`replica_open`).
-/

namespace Fastetcd.Raft

open Mvcc Std

/-! ## The log -/

/-- What an entry applies, with its index. -/
def Entry.work (e : Entry) : List (Nat × FastetcdLogEntry) :=
  match e.payload with
  | .normal (.batch subs) => subs.map (e.index, ·)
  | .normal data => [(e.index, data)]
  | .blank | .membership _ => []

/-- The sub-entries of a batched entry. -/
def Entry.subs (e : Entry) : List FastetcdLogEntry :=
  match e.payload with
  | .normal (.batch subs) => subs
  | _ => []

/-- The work of the first sub-entries of a batched entry. -/
def Entry.part (e : Entry) (done : Nat) : List (Nat × FastetcdLogEntry) :=
  (e.subs.take done).map (e.index, ·)

/-- Where a member is in the log: the applied entry, and the progress in a batched one. -/
structure Position where
  applied : Option Mvcc.LogId
  batch : Option (Nat × Nat)
deriving DecidableEq

/-- The position that the rows of the state machine hold. -/
def position (rows : RaftTable) : Position := ⟨rows.applied.getD none, rows.batch⟩

namespace CommittedLog

/-- The entries up to the applied one. -/
def before (log : CommittedLog) (applied : Option Mvcc.LogId) : List Entry :=
  log.entries.filter fun e => !applied.all (·.index < e.index)

def work (log : CommittedLog) : List (Nat × FastetcdLogEntry) := log.entries.flatMap Entry.work

/-- What is done of the log. -/
def done (log : CommittedLog) (p : Position) : List (Nat × FastetcdLogEntry) :=
  (log.before p.applied).flatMap Entry.work ++
    match log.after p.applied with
    | [] => []
    | e :: _ => e.part (skipOf p.batch e.index)

/-- A position where the batch in progress, if one is, is not past an entry that is left, and no
sub-entry that is done is a batch itself. -/
structure Next (log : CommittedLog) (p : Position) : Prop where
  first : ∀ i done, p.batch = some (i, done) → ∀ e ∈ log.after p.applied, i ≤ e.index
  flat : ∀ e ∈ log.after p.applied, ∀ sub ∈ e.subs.take (skipOf p.batch e.index),
    sub.isBatch = false

end CommittedLog

section

variable {log : CommittedLog} {p : Position} {e : Entry} {rest : List Entry}

theorem filter_append_filter {α : Type} {p : α → Bool} {l : List α}
    (later : l.Pairwise fun a b => p a = true → p b = true) :
    l.filter (fun a => !p a) ++ l.filter p = l := by
  induction l with
  | nil => rfl
  | cons a l ih =>
    rw [List.pairwise_cons] at later
    cases holds : p a with
    | false =>
      rw [List.filter_cons_of_pos (by rw [holds]; rfl),
        List.filter_cons_of_neg (by rw [holds]; exact Bool.false_ne_true), List.cons_append,
        ih later.2]
    | true =>
      have all := fun b mem => later.1 b mem holds
      rw [List.filter_cons_of_neg (by rw [holds]; exact Bool.false_ne_true),
        List.filter_eq_self.mpr (List.forall_mem_cons.mpr ⟨holds, all⟩), List.filter_eq_nil_iff.mpr]
      · rfl
      · intro b mem
        rw [all b mem]
        exact Bool.false_ne_true

theorem CommittedLog.before_append_after (log : CommittedLog) (applied : Option Mvcc.LogId) :
    log.before applied ++ log.after applied = log.entries := by
  refine filter_append_filter (log.ascending.imp fun {a b} less past => ?_)
  cases applied with
  | none => rfl
  | some id =>
    rw [Option.all_some, decide_eq_true_eq] at past ⊢
    exact past.trans less

theorem CommittedLog.lt_of_after {applied : Option Mvcc.LogId} (now : log.after applied = e :: rest)
    {e' : Entry} (mem : e' ∈ rest) : e.index < e'.index := by
  have ascending := log.ascending.filter fun e => applied.all (·.index < e.index)
  rw [← CommittedLog.after, now, List.pairwise_cons] at ascending
  exact ascending.1 e' mem

theorem CommittedLog.lt_of_before {applied : Option Mvcc.LogId} (now : log.after applied = e :: rest)
    {e' : Entry} (mem : e' ∈ log.before applied) : e'.index < e.index := by
  have ascending := log.ascending
  rw [← log.before_append_after applied, List.pairwise_append] at ascending
  refine ascending.2.2 e' mem e ?_
  rw [now]
  exact List.mem_cons_self

/-- After the first entry that is left come the others. -/
theorem CommittedLog.step {applied : Option Mvcc.LogId} (now : log.after applied = e :: rest) :
    log.after (some e.logId) = rest ∧ log.before (some e.logId) = log.before applied ++ [e] := by
  have all := log.before_append_after applied
  rw [now] at all
  have past : ∀ e' ∈ rest, decide (e.index < e'.index) = true := fun e' mem =>
    decide_eq_true (CommittedLog.lt_of_after now mem)
  have done : ∀ e' ∈ log.before applied ++ [e], decide (e.index < e'.index) = false := by
    intro e' mem
    refine decide_eq_false (Nat.not_lt_of_le ?_)
    rcases List.mem_append.mp mem with mem | mem
    · exact (CommittedLog.lt_of_before now mem).le
    · exact (List.mem_singleton.mp mem ▸ Nat.le_refl _)
  have split : log.entries = (log.before applied ++ [e]) ++ rest := by
    rw [← all, List.append_assoc, List.singleton_append]
  have after : log.after (some e.logId) = log.entries.filter fun e' => e.index < e'.index := rfl
  have before : log.before (some e.logId) =
      log.entries.filter fun e' => !(e.index < e'.index) := rfl
  rw [after, before, split]
  generalize log.before applied ++ [e] = front at done
  rw [List.filter_append, List.filter_append]
  constructor
  · rw [List.filter_eq_nil_iff.mpr fun e' mem => by rw [done e' mem]; exact Bool.false_ne_true,
      List.filter_eq_self.mpr past, List.nil_append]
  · rw [List.filter_eq_self.mpr fun e' mem => by rw [done e' mem]; rfl,
      List.filter_eq_nil_iff.mpr fun e' mem => by rw [past e' mem]; exact Bool.false_ne_true,
      List.append_nil]

theorem skipOf_of_lt {progress : Option (Nat × Nat)} {index : Nat}
    (past : ∀ i done, progress = some (i, done) → i < index) : skipOf progress index = 0 := by
  rw [skipOf.eq_def]
  split
  · rename_i i done
    exact if_neg (Nat.ne_of_lt (past i done rfl))
  · rfl

theorem skipOf_self (index done : Nat) : skipOf (some (index, done)) index = done := if_pos rfl

/-- What is done is the entries applied, and a part of the next. -/
theorem CommittedLog.done_eq (now : log.after p.applied = e :: rest) :
    log.done p = (log.before p.applied).flatMap Entry.work ++ e.part (skipOf p.batch e.index) := by
  rw [CommittedLog.done, now]

/-- After a whole entry nothing of the others is done. -/
theorem CommittedLog.done_next (now : log.after p.applied = e :: rest) {batch : Option (Nat × Nat)}
    (first : ∀ i done, batch = some (i, done) → i ≤ e.index) :
    log.done ⟨some e.logId, batch⟩ = (log.before p.applied).flatMap Entry.work ++ e.work := by
  obtain ⟨after, before⟩ := CommittedLog.step now
  rw [CommittedLog.done, after, before, List.flatMap_append, List.flatMap_singleton]
  cases rest with
  | nil => exact List.append_nil _
  | cons e' rest =>
    have past := CommittedLog.lt_of_after now List.mem_cons_self
    dsimp only
    rw [skipOf_of_lt fun i done same => Nat.lt_of_le_of_lt (first i done same) past]
    exact List.append_nil _

/-- What is done is what the log starts with. -/
theorem CommittedLog.done_prefix (log : CommittedLog) (p : Position) : log.done p <+: log.work := by
  rw [CommittedLog.work, ← log.before_append_after p.applied, List.flatMap_append, CommittedLog.done,
    List.prefix_append_right_inj]
  split
  · exact List.nil_prefix
  · rename_i e rest now
    rw [now, List.flatMap_cons]
    refine List.IsPrefix.trans ?_ (List.prefix_append _ _)
    rw [Entry.part, Entry.subs]
    split
    · rename_i subs batch
      rw [Entry.work, batch]
      exact (List.take_prefix _ _).map _
    · rw [List.take_nil]
      exact List.nil_prefix

theorem CommittedLog.next_next (now : log.after p.applied = e :: rest) {batch : Option (Nat × Nat)}
    (first : ∀ i done, batch = some (i, done) → i ≤ e.index) :
    log.Next ⟨some e.logId, batch⟩ := by
  have later {e' : Entry} (mem : e' ∈ log.after (some e.logId)) : e.index < e'.index := by
    rw [(CommittedLog.step now).1] at mem
    exact CommittedLog.lt_of_after now mem
  refine ⟨fun i done same e' mem => (first i done same).trans (later mem).le,
    fun e' mem sub done => ?_⟩
  rw [skipOf_of_lt fun i done same => Nat.lt_of_le_of_lt (first i done same) (later mem)] at done
  exact nomatch done

/-- Further into the first entry. -/
theorem CommittedLog.next_within (now : log.after p.applied = e :: rest) {done : Nat}
    (flat : ∀ sub ∈ e.subs.take done, sub.isBatch = false) :
    log.Next ⟨p.applied, some (e.index, done)⟩ := by
  have cases {e' : Entry} (mem : e' ∈ log.after p.applied) : e' = e ∨ e.index < e'.index := by
    rw [now, List.mem_cons] at mem
    exact mem.imp_right (CommittedLog.lt_of_after now)
  refine ⟨fun i done same e' mem => ?_, fun e' mem sub within => ?_⟩
  · cases same
    rcases cases mem with rfl | later
    · exact le_rfl
    · exact later.le
  · rcases cases mem with rfl | later
    · rw [skipOf_self] at within
      exact flat sub within
    · rw [skipOf_of_lt fun i done same => by cases same; exact later] at within
      exact nomatch within

end

/-! ## How a log ends -/

section

variable {s t u : Store}

/-- How the entries end, one by one: without an error or with one, and the replica they leave. -/
def ends (s : Store) (work : List (Nat × FastetcdLogEntry)) : Except ApplyError Unit × Replica :=
  ((applyAll s work).1.map fun _ => (), (applyAll s work).2.replica)

theorem ends_agree (inv : s.Inv) (invU : u.Inv) (stored : s.Stored) (storedU : u.Stored)
    (same : s.replica = u.replica) (work : List (Nat × FastetcdLogEntry)) :
    ends s work = ends u work := by
  obtain ⟨answers, replicas⟩ := applyAll_agree inv invU stored storedU same work
  rw [ends, ends, answers, replicas]

theorem ends_append {first rest : List (Nat × FastetcdLogEntry)}
    {responses : List FastetcdLogResponse} (ok : applyAll s first = (.ok responses, t)) :
    ends s (first ++ rest) = ends t rest := by
  rw [ends, ends, applyAll_append, ok]
  dsimp only
  rw [prepend_snd]
  refine Prod.ext ?_ rfl
  obtain ⟨answer, v⟩ := applyAll t rest
  cases answer <;> rfl

theorem ends_error {i : Nat} {entry : FastetcdLogEntry} {e : ApplyError}
    (failed : applyData s i true entry = (.error e, t)) (work : List (Nat × FastetcdLogEntry)) :
    ends s ((i, entry) :: work) = (.error e, t.replica) := by
  rw [ends, applyAll, failed]
  rfl

theorem applyAll_one {i : Nat} {entry : FastetcdLogEntry} {response : FastetcdLogResponse}
    (ok : applyData s i true entry = (.ok response, t)) :
    applyAll s [(i, entry)] = (.ok [response], t) := by
  rw [applyAll, ok]
  rfl

/-! ## Opening -/

theorem stored_open (t : Tables) : (Store.open t).Stored := by
  have kept : readWriteState (initTables t) = readWriteState t := (initTables_eq t).2
  exact congrArg WriteState.nextLeaseId kept

theorem raft_initTables (t : Tables) : (initTables t).metaRows.raft = t.metaRows.raft := by
  rw [initTables]
  split <;> rfl

theorem data_initTables (t : Tables) : (initTables t).data = t.data := by
  rw [(initTables_eq t).1]
  rfl

/-- Opening what a store has committed gives its replica. -/
theorem replica_open (inv : s.Inv) (stored : s.Stored) :
    (Store.open s.engine).replica = s.replica := by
  have index : (Store.open s.engine).index = s.index := congrArg Content.index (content_open inv)
  have state : (Store.open s.engine).writeState = s.writeState := by
    show readWriteState s.engine = s.writeState
    rw [readWriteState, inv.stored.1, inv.stored.2, stored]
  rw [Store.replica, Store.replica, index, state]
  exact congrArg (Replica.mk · _ _) (data_initTables s.engine)

/-! ## Staged rows -/

/-- `t` is `s` with other rows staged. -/
structure Restaged (s t : Store) : Prop where
  same : t = { s with pendingRaftMeta := t.pendingRaftMeta, batched := t.batched }

theorem Restaged.trans (first : Restaged s t) (second : Restaged t u) : Restaged s u := by
  refine ⟨?_⟩
  rw [second.same, first.same]

theorem Restaged.inv (restaged : Restaged s t) (inv : s.Inv) : t.Inv := by
  rw [restaged.same]
  exact ⟨inv.content, inv.idx, inv.settled, inv.view, inv.stored, inv.compact, inv.floor,
    inv.values⟩

theorem Restaged.stored (restaged : Restaged s t) (stored : s.Stored) : t.Stored := by
  rw [restaged.same]
  exact stored

theorem Restaged.replica (restaged : Restaged s t) : t.replica = s.replica := by
  rw [restaged.same]
  rfl

theorem Restaged.commits (restaged : Restaged s t) : t.commits = s.commits := by
  rw [restaged.same]

theorem restaged_stageRaftMeta (s : Store) (applied : Option Mvcc.LogId)
    (membership : Option StoredMembership) :
    Restaged s (s.stageRaftMeta applied membership) := ⟨rfl⟩

theorem restaged_stageBatchProgress (s : Store) (index done : Nat) :
    Restaged s (s.stageBatchProgress index done) := ⟨rfl⟩

theorem restaged_stageBatchedMarker (s : Store) : Restaged s s.stageBatchedMarker := by
  rw [Store.stageBatchedMarker]
  split
  · exact ⟨rfl⟩
  · exact ⟨rfl⟩

theorem restaged_stageDone (logId : Mvcc.LogId) (total : Nat) (s : Store) (done : Nat) :
    Restaged s (stageDone logId total s done) := by
  rw [stageDone]
  split
  · exact (restaged_stageBatchProgress s _ _).trans (restaged_stageRaftMeta _ _ _)
  · exact restaged_stageBatchProgress s _ _

/-- Dropping rows that a field does not read leaves the field. -/
theorem foldl_put_filter {α : Type} {field : RaftTable → α} {kept : RaftRow → Bool}
    (congr : ∀ {r r'}, field r = field r' → ∀ row, field (r.put row) = field (r'.put row))
    (dropped : ∀ r row, kept row = false → field (r.put row) = field r) (rows : List RaftRow)
    (r : RaftTable) :
    field ((rows.filter kept).foldl RaftTable.put r) = field (rows.foldl RaftTable.put r) := by
  have steps : ∀ {r r'}, field r = field r' →
      field ((rows.filter kept).foldl RaftTable.put r) = field (rows.foldl RaftTable.put r') := by
    induction rows with
    | nil => exact fun same => same
    | cons row rows ih =>
      intro r r' same
      cases keeps : kept row with
      | true =>
        rw [List.filter_cons_of_pos keeps]
        exact ih (congr same row)
      | false =>
        rw [List.filter_cons_of_neg (by rw [keeps]; exact Bool.false_ne_true)]
        exact ih (same.trans (dropped r' row keeps).symm)
  exact steps rfl

theorem position_stageBatchProgress (s : Store) (index done : Nat) :
    position (s.stageBatchProgress index done).rows =
      ⟨(position s.rows).applied, some (index, done)⟩ := by
  have applied := @foldl_put_filter _ RaftTable.applied (fun row => !row.isBatch)
    (fun {r r'} same row => ?_) (fun r row dropped => ?_) s.pendingRaftMeta s.engine.metaRows.raft
  · show position (List.foldl RaftTable.put s.engine.metaRows.raft (_ ++ [_])) = _
    rw [List.foldl_concat, position, RaftTable.put]
    dsimp only
    rw [applied]
    rfl
  · cases row with
    | applied => rfl
    | membership | batch | batched => exact same
  · cases row with
    | batch => rfl
    | applied | membership | batched => exact nomatch dropped

theorem position_stageRaftMeta (s : Store) (applied : Option Mvcc.LogId)
    (membership : Option StoredMembership) :
    position (s.stageRaftMeta applied membership).rows =
      ⟨applied, (position s.rows).batch⟩ := by
  have batch := @foldl_put_filter _ RaftTable.batch
    (fun row => !row.isApplied && (membership.isNone || !row.isMembership))
    (fun {r r'} same row => ?_) (fun r row dropped => ?_) s.pendingRaftMeta s.engine.metaRows.raft
  · show position (List.foldl RaftTable.put s.engine.metaRows.raft (_ ++ _ :: _)) = _
    rw [List.foldl_append]
    cases membership with
    | none => exact congrArg (Position.mk applied) batch
    | some membership => exact congrArg (Position.mk applied) batch
  · cases row with
    | batch => rfl
    | membership | applied | batched => exact same
  · cases row with
    | applied | membership => rfl
    | batch | batched =>
      simp [RaftRow.isApplied, RaftRow.isMembership] at dropped

theorem position_stageBatchedMarker (s : Store) :
    position s.stageBatchedMarker.rows = position s.rows := by
  rw [Store.stageBatchedMarker]
  split
  · rfl
  · show position (List.foldl RaftTable.put s.engine.metaRows.raft (_ ++ [_])) = _
    rw [List.foldl_concat]
    rfl

theorem position_stageDone (logId : Mvcc.LogId) (total : Nat) (s : Store) (done : Nat) :
    position (stageDone logId total s done).rows =
      ⟨if done = total then some logId else (position s.rows).applied,
        some (logId.index, done)⟩ := by
  rw [stageDone]
  split
  · rw [position_stageRaftMeta, position_stageBatchProgress]
  · exact position_stageBatchProgress s _ _

end

end Fastetcd.Raft
