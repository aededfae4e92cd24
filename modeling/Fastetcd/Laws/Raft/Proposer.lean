import Fastetcd.Laws.Raft.Replaying
import Fastetcd.Raft.Proposer

/-!
# Group commit answers every proposal

What was proposed is, in order, in the writes made, in the task's hand or in the queue (`Inv`), and
the task's hand is written within a bounded number of its steps. The responses of a batch are those
of its sub-entries as entries of their own (`Turns.oneByOne`).
-/

namespace Fastetcd.Raft

open Mvcc Std

/-! ## A batch is answered as its sub-entries are -/

theorem prepend_ok {first responses : List FastetcdLogResponse} {s : Store}
    {answer : Except ApplyError (List FastetcdLogResponse)}
    (ok : (prepend first (answer, s)).1 = .ok responses) :
    ∃ more, answer = .ok more ∧ responses = first ++ more := by
  cases answer with
  | error e => exact nomatch ok
  | ok more => exact ⟨more, rfl, (Except.ok.inj ok).symm⟩

/-- One by one, first those of one turn, then the others. -/
theorem applyAll_twice {s t : Store} {first rest : List (Nat × FastetcdLogEntry)}
    {responses more : List FastetcdLogResponse} (inv : s.Inv) (stored : s.Stored) (invT : t.Inv)
    (storedT : t.Stored) (ok : (applyAll s first).1 = .ok responses)
    (same : (applyAll s first).2.replica = t.replica) (others : (applyAll t rest).1 = .ok more) :
    (applyAll s (first ++ rest)).1 = .ok (responses ++ more) := by
  have keeps := applyAll_keeps inv stored first
  rw [applyAll_append]
  generalize applyAll s first = result at ok same keeps
  obtain ⟨answer, u⟩ := result
  cases ok
  have agree := (applyAll_agree keeps.1 invT keeps.2 storedT same rest).1
  rw [others] at agree
  dsimp only
  generalize applyAll u rest = result at agree
  obtain ⟨answer, v⟩ := result
  cases agree
  rfl

/-- A batch that is applied whole holds no batch, and answers as its sub-entries do one by one. -/
theorem Turns.oneByOne {logId : Mvcc.LogId} {total j : Nat} {subs : List FastetcdLogEntry}
    {s t : Store} {answer : Except ApplyError (List FastetcdLogResponse)}
    (turns : Turns logId total 0 j subs s answer t) (inv : s.Inv) (stored : s.Stored)
    {responses : List FastetcdLogResponse} (ok : answer = .ok responses) :
    (∀ sub ∈ subs, sub.isBatch = false) ∧
      (applyAll s (subs.map (logId.index, ·))).1 = .ok responses := by
  induction turns generalizing responses with
  | nil =>
    cases ok
    exact ⟨nofun, rfl⟩
  | nested | failed => exact nomatch ok
  | skipped _ skipped => exact absurd skipped (Nat.not_lt_zero _)
  | @worked j subs n s t v u first answer due some within flat acts worked same rest ih =>
    obtain ⟨more, rfl, rfl⟩ := prepend_ok ok
    obtain ⟨others, later⟩ := ih acts.inv acts.stored rfl
    have restaged := restaged_stageDone logId total s (j + n)
    have agree := applyAll_agree inv (restaged.inv inv) stored (restaged.stored stored)
      restaged.replica.symm ((subs.take n).map (logId.index, ·))
    rw [worked] at agree
    have whole := List.take_append_drop n subs
    constructor
    · intro sub mem
      rw [← whole, List.mem_append] at mem
      exact mem.elim (flat sub) (others sub)
    · rw [← whole, List.map_append]
      exact applyAll_twice inv stored acts.inv acts.stored agree.1 (agree.2.trans same.symm) later

theorem applyEntry_plain (sm : StateMachine) (logId : Mvcc.LogId) {data : FastetcdLogEntry}
    (flat : data.isBatch = false) : sm.applyEntry ⟨logId, .normal data⟩ =
      match applyData (sm.mvcc.stageRaftMeta (some logId) none) logId.index true data with
      | (.error err, s) => (.error err, { sm with mvcc := s })
      | (.ok response, s) => (.ok (.one response), sm.applied logId s) := by
  cases data with
  | batch => exact nomatch flat
  | _ => rfl

/-- Entries of their own are answered one by one. -/
theorem applyEntries_plain {logId : Mvcc.LogId} {subs : List FastetcdLogEntry}
    (flat : ∀ sub ∈ subs, sub.isBatch = false) {sm : StateMachine} {u : Store} (inv : sm.mvcc.Inv)
    (stored : sm.mvcc.Stored) (invU : u.Inv) (storedU : u.Stored)
    (same : sm.mvcc.replica = u.replica) {responses : List FastetcdLogResponse}
    (ok : (applyAll u (subs.map (logId.index, ·))).1 = .ok responses) :
    (sm.applyEntries (subs.map fun sub => ⟨logId, .normal sub⟩)).1 =
      .ok (responses.map Response.one) := by
  induction subs generalizing sm u responses with
  | nil =>
    cases ok
    rfl
  | cons sub subs ih =>
    have restaged := restaged_stageRaftMeta sm.mvcc (some logId) none
    have agree := applyData_agree (restaged.inv inv) invU (restaged.stored stored) storedU
      (restaged.replica.trans same) logId.index sub
    have acts := applyData_acts (restaged.inv inv) (restaged.stored stored) logId.index sub
    have actsU := applyData_acts invU storedU logId.index sub
    rw [List.map_cons, applyAll] at ok
    rw [List.map_cons, StateMachine.applyEntries,
      applyEntry_plain sm logId (flat sub List.mem_cons_self)]
    generalize applyData (sm.mvcc.stageRaftMeta (some logId) none) logId.index true sub = a
      at agree acts
    generalize applyData u logId.index true sub = b at agree actsU ok
    obtain ⟨answer, t⟩ := a
    obtain ⟨answer', v⟩ := b
    obtain ⟨rfl, replicas⟩ := agree
    cases answer with
    | error e => cases ok
    | ok response =>
      dsimp only at ok ⊢
      obtain ⟨more, others, rfl⟩ := prepend_ok (s := (applyAll v _).2) ok
      have later := @ih (fun sub mem => flat sub (List.mem_cons_of_mem _ mem))
        (sm.applied logId t) v acts.inv acts.stored actsU.inv actsU.stored replicas more others
      generalize StateMachine.applyEntries _ _ = result at later
      obtain ⟨answer, sm'⟩ := result
      cases later
      rfl

/-- A batched entry, none of which was done before, is answered as its sub-entries are. -/
theorem applyEntry_batch {sm : StateMachine} {logId : Mvcc.LogId} {subs : List FastetcdLogEntry}
    {response : Response} (inv : sm.mvcc.Inv) (stored : sm.mvcc.Stored)
    (new : skipOf sm.batchProgress logId.index = 0)
    (ok : (sm.applyEntry ⟨logId, .normal (.batch subs)⟩).1 = .ok response) :
    ∃ responses, response = .batch responses ∧
      (sm.applyEntries (subs.map fun sub => ⟨logId, .normal sub⟩)).1 =
        .ok (responses.map Response.one) := by
  have restaged := restaged_stageBatchedMarker sm.mvcc
  have turns := applySubs_turns logId subs.length 0 (j := 0) (Nat.le_refl subs.length)
    (restaged.inv inv) (restaged.stored stored)
  dsimp only [StateMachine.applyEntry, Entry.index, applyBatch] at ok
  rw [new] at ok
  generalize applySubs logId subs.length 0 subs.length 0 subs sm.mvcc.stageBatchedMarker = result
    at turns ok
  obtain ⟨answer, t⟩ := result
  cases answer with
  | error e => exact nomatch ok
  | ok responses =>
    obtain ⟨flat, oneByOne⟩ := turns.oneByOne (restaged.inv inv) (restaged.stored stored) rfl
    exact ⟨responses, (Except.ok.inj ok).symm, applyEntries_plain flat inv stored
      (restaged.inv inv) (restaged.stored stored) restaged.replica.symm oneByOne⟩

/-- A state machine at the turn of an entry that was not in the log when it was opened. -/
inductive AtTurn (log : CommittedLog) (e : Entry) : StateMachine → Prop
  | intro {t : Tables} (disk : Disk log t) {chunks : List (List Entry)} {entries : List Entry}
      (handed : chunks.flatten ++ entries ++ [e] <+: log.after (position t.metaRows.raft).applied)
      {before now : List Response} {sm sm' : StateMachine}
      (ran : (StateMachine.open_ t).run chunks = (.ok before, sm))
      (applied : sm.applyEntries entries = (.ok now, sm'))
      (new : ∀ i done, sm'.batchProgress = some (i, done) → i < e.index) : AtTurn log e sm'

theorem AtTurn.inv {log : CommittedLog} {e : Entry} {sm : StateMachine} (here : AtTurn log e sm) :
    sm.mvcc.Inv ∧ sm.mvcc.Stored := by
  cases here with
  | @intro t disk chunks entries handed _ _ opened _ ran applied new =>
    obtain ⟨rest, whole⟩ := handed
    have ready := disk.settled.open_
    rw [← whole, List.append_assoc, List.append_assoc] at ready
    have first := ready.run
    rw [ran] at first
    have second := Ready.entries (show Ready log opened (entries ++ ([e] ++ rest)) from first)
    rw [applied] at second
    have ready : Ready log sm ([e] ++ rest) := second
    exact ⟨ready.stays.inv, ready.stays.stored⟩

theorem AtTurn.new {log : CommittedLog} {e : Entry} {sm : StateMachine} (here : AtTurn log e sm) :
    skipOf sm.batchProgress e.index = 0 := by
  cases here with
  | intro disk handed ran applied new => exact skipOf_of_lt new

namespace Proposer

/-- `client_write` fails, or answers what the state machine did at the entry's turn. -/
def Answers (log : CommittedLog) (data : FastetcdLogEntry) :
    Except ProposeError Response → Prop
  | .error _ => True
  | .ok response => ∃ logId sm, AtTurn log ⟨logId, .normal data⟩ sm ∧
      (sm.applyEntry ⟨logId, .normal data⟩).1 = .ok response

theorem length_applyEntries {sm : StateMachine} {entries : List Entry} {responses : List Response}
    (ok : (sm.applyEntries entries).1 = .ok responses) : responses.length = entries.length := by
  induction entries generalizing sm responses with
  | nil =>
    cases ok
    rfl
  | cons e entries ih =>
    rw [StateMachine.applyEntries] at ok
    split at ok
    · cases ok
    · split at ok
      · cases ok
      · rename_i more _ others
        cases ok
        exact congrArg (· + 1) (ih (congrArg Prod.fst others))

theorem submit_several {batch : List Pending} (several : batch.length ≠ 1) :
    entryOf batch = .batch (batch.map Pending.entry) ∧
      ∀ rs : List FastetcdLogResponse, rs.length = batch.length →
        submit batch (.ok (.batch rs)) =
          List.zipWith (fun p r => (p.reply, .ok (.one r))) batch rs := by
  match batch with
  | [] => exact ⟨rfl, fun rs length => if_pos length⟩
  | [p] => exact absurd rfl several
  | p :: q :: batch => exact ⟨rfl, fun rs length => if_pos length⟩

/-- Every caller is sent the response to its own entry. -/
theorem submit_each {log : CommittedLog} {batch : List Pending} {response : Response}
    (answers : Answers log (entryOf batch) (.ok response)) :
    ∃ logId sm, ∃ responses : List Response, AtTurn log ⟨logId, .normal (entryOf batch)⟩ sm ∧
      (sm.applyEntries (batch.map fun p => ⟨logId, .normal p.entry⟩)).1 = .ok responses ∧
      responses.length = batch.length ∧
      submit batch (.ok response) = List.zipWith (fun p r => (p.reply, .ok r)) batch responses := by
  obtain ⟨logId, sm, here, ok⟩ := answers
  by_cases alone : batch.length = 1
  · obtain ⟨p, rfl⟩ := List.length_eq_one_iff.mp alone
    refine ⟨logId, sm, [response], here, ?_, rfl, rfl⟩
    have ok : (sm.applyEntry ⟨logId, .normal p.entry⟩).1 = .ok response := ok
    rw [List.map_singleton, StateMachine.applyEntries]
    generalize sm.applyEntry ⟨logId, .normal p.entry⟩ = result at ok
    obtain ⟨answer, sm'⟩ := result
    cases ok
    rfl
  · obtain ⟨entry, sent⟩ := submit_several alone
    rw [entry] at ok
    obtain ⟨responses, rfl, each⟩ := applyEntry_batch here.inv.1 here.inv.2 here.new ok
    rw [List.map_map] at each
    have length := length_applyEntries each
    rw [List.length_map, List.length_map] at length
    refine ⟨logId, sm, _, here, each, ?_, ?_⟩
    · rw [List.length_map, length]
    · rw [sent responses length, List.zipWith_map_right]

/-! ## Every proposal is in one write -/

/-- A write may be of one proposal of any size. -/
structure Bounded (batch : List Pending) : Prop where
  some : batch ≠ []
  count : batch.length ≤ maxBatch
  bytes : (batch.map Pending.bytes).sum ≤ maxBatchBytes ∨ batch.length = 1

/-- The proposals of the batch that the task is at. -/
def Task.held : Task → List Pending
  | .next => []
  | .first p | .waits p => [p]
  | .forms batch _ => batch

/-- A batch that is formed holds a permit. -/
def Task.permit : Task → Nat
  | .forms _ _ => 1
  | _ => 0

/-- The steps within which the task is at the top of its loop again. -/
def Task.left : Task → Nat
  | .next => maxBatch + 3
  | .first _ => maxBatch + 2
  | .waits _ => maxBatch + 1
  | .forms batch _ => maxBatch + 1 - batch.length

/-- What the task has taken from the queue and not written. -/
def State.hand (σ : State) : List Pending := σ.task.held ++ σ.carry.toList

structure Inv (answers : FastetcdLogEntry → Except ProposeError Response → Prop) (σ : State) :
    Prop where
  order : σ.proposed = σ.writes.flatten ++ (σ.hand ++ σ.queue)
  bounded : ∀ w ∈ σ.writes, Bounded w
  forms : ∀ batch bytes, σ.task = .forms batch bytes →
    Bounded batch ∧ bytes = (batch.map Pending.bytes).sum
  carry : σ.carry = none ∨ σ.task = .next
  permits : σ.permits + (σ.flying.countP (·.permit) + σ.task.permit) = inFlight
  once : σ.writes.Perm (σ.answered.map Prod.fst ++ σ.flying.map Write.batch)
  answers : ∀ a ∈ σ.answered, answers (entryOf a.1) a.2

section

variable {answers : FastetcdLogEntry → Except ProposeError Response → Prop} {σ τ : State}

theorem bounded_alone (p : Pending) : Bounded [p] :=
  ⟨List.cons_ne_nil _ _, (by decide : 1 ≤ maxBatch), .inr rfl⟩

/-- A proposal joins a batch that stays within the bounds. -/
theorem Bounded.join {batch : List Pending} (few : batch.length < maxBatch) {p : Pending}
    (fits : saturatingAdd (batch.map Pending.bytes).sum p.bytes ≤ maxBatchBytes) :
    Bounded (batch ++ [p]) := by
  refine ⟨List.concat_ne_nil _ _, ?_, .inl ?_⟩
  · rw [List.length_append]
    exact few
  · rw [saturatingAdd, min_le_iff] at fits
    rw [List.map_append, List.sum_append, List.map_singleton, List.sum_singleton]
    exact fits.resolve_right (by decide)

theorem inv_start : Inv answers State.start :=
  ⟨rfl, nofun, nofun, .inl rfl, rfl, .nil, nofun⟩

/-- What a step of the task does: it goes on with a batch, to which a proposal may have been added,
or writes it. -/
inductive Turned (σ : State) : State → Prop
  | moves {task : Task} {queue : List Pending} {permits : Nat}
      (rest : σ.hand ++ σ.queue = task.held ++ queue) (grows : σ.hand <+: task.held)
      (less : task.left < σ.task.left)
      (same : permits + task.permit = σ.permits + σ.task.permit)
      (forms : ∀ batch bytes, task = .forms batch bytes →
        Bounded batch ∧ bytes = (batch.map Pending.bytes).sum) :
      Turned σ { σ with task, carry := none, queue, permits }
  | writes {batch : List Pending} {permit : Bool} {carry : Option Pending} {queue : List Pending}
      (hand : σ.hand = batch) (bounded : Bounded batch)
      (rest : σ.queue = carry.toList ++ queue) (same : σ.task.permit = permit.toNat) :
      Turned σ ({ σ with carry, queue }.spawn batch permit)

theorem Inv.turned (inv : Inv answers σ) {isOpen : Bool} (turn : σ.turn isOpen = some τ) :
    Turned σ τ := by
  obtain ⟨queue, carry, task, permits, flying, proposed, writes, answered⟩ := σ
  cases task with
  | next =>
    cases carry with
    | some p =>
      cases turn
      exact .moves rfl List.prefix_rfl (Nat.lt_succ_self _) rfl nofun
    | none =>
      cases queue with
      | nil => exact nomatch turn
      | cons p queue =>
        cases turn
        exact .moves rfl List.nil_prefix (Nat.lt_succ_self _) rfl nofun
  | first p =>
    obtain rfl : carry = none := inv.carry.resolve_right nofun
    cases isOpen with
    | true =>
      cases turn
      exact .moves rfl List.prefix_rfl (Nat.lt_succ_self _) rfl nofun
    | false =>
      cases turn
      exact .writes rfl (bounded_alone p) rfl rfl
  | waits p =>
    obtain rfl : carry = none := inv.carry.resolve_right nofun
    cases permits with
    | zero => exact nomatch turn
    | succ permits =>
      cases turn
      refine .moves rfl List.prefix_rfl (Nat.lt_succ_self _) rfl fun batch bytes same => ?_
      cases same
      exact ⟨bounded_alone p, List.sum_singleton.symm⟩
  | forms batch bytes =>
    obtain rfl : carry = none := inv.carry.resolve_right nofun
    obtain ⟨bounded, rfl⟩ := inv.forms batch bytes rfl
    have hand : batch ++ [] = batch := List.append_nil batch
    dsimp only [State.turn] at turn
    split at turn
    · rename_i few
      cases queue with
      | nil =>
        cases turn
        exact .writes hand bounded rfl rfl
      | cons p queue =>
        dsimp only at turn
        split at turn
        · rename_i fits
          cases turn
          refine .moves ?_ ?_ ?_ rfl fun batch' bytes' same => ?_
          · show (batch ++ []) ++ p :: queue = (batch ++ [p]) ++ queue
            rw [hand, List.append_assoc, List.singleton_append]
          · exact ⟨[p], congrArg (· ++ [p]) hand⟩
          · rw [Task.left, Task.left, List.length_append, List.length_singleton]
            omega
          · cases same
            refine ⟨Bounded.join few fits, ?_⟩
            rw [List.map_append, List.sum_append, List.map_singleton, List.sum_singleton]
        · cases turn
          exact .writes hand bounded rfl rfl
    · cases turn
      exact .writes hand bounded rfl rfl

theorem Inv.turn (inv : Inv answers σ) (turned : Turned σ τ) : Inv answers τ := by
  have permits := inv.permits
  cases turned with
  | @moves task queue permits' rest grows less same forms =>
    refine ⟨?_, inv.bounded, forms, .inl rfl, ?_, inv.once, inv.answers⟩
    · show σ.proposed = σ.writes.flatten ++ ((task.held ++ []) ++ queue)
      rw [inv.order, rest, List.append_nil]
    · show permits' + (σ.flying.countP (·.permit) + task.permit) = inFlight
      omega
  | @writes batch permit carry queue hand bounded rest same =>
    refine ⟨?_, ?_, nofun, .inr rfl, ?_, ?_, inv.answers⟩
    · show σ.proposed = (σ.writes ++ [batch]).flatten ++ (carry.toList ++ queue)
      rw [inv.order, hand, rest, List.flatten_append, List.flatten_singleton, List.append_assoc]
    · intro w mem
      rcases List.mem_append.mp mem with old | new
      · exact inv.bounded w old
      · exact List.mem_singleton.mp new ▸ bounded
    · show σ.permits + (List.countP (·.permit) (σ.flying ++ [⟨batch, permit⟩]) + 0) = inFlight
      rw [← permits, same, List.countP_append]
      cases permit <;> rfl
    · show (σ.writes ++ [batch]).Perm (_ ++ List.map Write.batch (σ.flying ++ [⟨batch, permit⟩]))
      rw [List.map_append, ← List.append_assoc]
      exact inv.once.append_right _

theorem Inv.around (inv : Inv answers σ) (around : Around answers σ τ) : Inv answers τ := by
  cases around with
  | propose p =>
    refine ⟨?_, inv.bounded, inv.forms, inv.carry, inv.permits, inv.once, inv.answers⟩
    show σ.proposed ++ [p] = σ.writes.flatten ++ (σ.hand ++ (σ.queue ++ [p]))
    rw [inv.order, List.append_assoc, List.append_assoc]
  | @answer before after w answer flying may =>
    refine ⟨inv.order, inv.bounded, inv.forms, inv.carry, ?_, ?_, fun a mem => ?_⟩
    · have permits := inv.permits
      rw [flying, List.countP_append, List.countP_cons] at permits
      show σ.permits + w.permit.toNat + ((before ++ after).countP (·.permit) + _) = inFlight
      rw [← permits, List.countP_append]
      cases w.permit with
      | true =>
        simp
        omega
      | false => simp
    · have once := inv.once
      rw [flying, List.map_append, List.map_cons] at once
      show σ.writes.Perm ((σ.answered ++ [(w.batch, answer)]).map Prod.fst ++
        (before ++ after).map Write.batch)
      rw [List.map_append, List.map_append, List.append_assoc]
      exact once.trans (List.perm_middle.append_left _)
    · rcases List.mem_append.mp mem with old | new
      · exact inv.answers a old
      · exact List.mem_singleton.mp new ▸ may

theorem Path.inv {n : Nat} (path : Path answers σ n τ) (inv : Inv answers σ) : Inv answers τ := by
  induction path with
  | none => exact inv
  | turn _ _ turn ih => exact ih.turn (ih.turned turn)
  | around _ around ih => exact ih.around around

/-! ## What the task holds is written soon -/

/-- What is in hand at `σ` is written at `τ`, or still in hand after `n` steps of the task. -/
def Soon (σ : State) (n : Nat) (τ : State) : Prop :=
  (∃ later, τ.writes.flatten = σ.writes.flatten ++ σ.hand ++ later) ∨
    (τ.writes = σ.writes ∧ σ.hand <+: τ.hand ∧ τ.task.left + n ≤ σ.task.left)

theorem Inv.left_pos (inv : Inv answers σ) : 0 < σ.task.left := by
  cases here : σ.task with
  | forms batch bytes =>
    have count := (inv.forms batch bytes here).1.count
    rw [Task.left]
    omega
  | _ => exact Nat.succ_pos _

theorem Soon.turn {υ : State} {n : Nat} (soon : Soon σ n τ) (turned : Turned τ υ) :
    Soon σ (n + 1) υ := by
  rcases soon with ⟨later, written⟩ | ⟨written, held, left⟩
  · cases turned with
    | moves => exact .inl ⟨later, written⟩
    | @writes batch =>
      refine .inl ⟨later ++ batch, ?_⟩
      show (τ.writes ++ [batch]).flatten = _
      rw [List.flatten_append, List.flatten_singleton, written, List.append_assoc]
  · cases turned with
    | @moves task queue permits rest grows less =>
      refine .inr ⟨written, ?_, ?_⟩
      · show σ.hand <+: task.held ++ []
        rw [List.append_nil]
        exact held.trans grows
      · show task.left + (n + 1) ≤ σ.task.left
        omega
    | @writes batch permit carry queue hand =>
      obtain ⟨later, whole⟩ := held
      refine .inl ⟨later, ?_⟩
      show (τ.writes ++ [batch]).flatten = _
      rw [List.flatten_append, List.flatten_singleton, written, ← hand, ← whole, List.append_assoc]

theorem Path.soon {n : Nat} (path : Path answers σ n τ) (inv : Inv answers σ) : Soon σ n τ := by
  induction path with
  | none => exact .inr ⟨rfl, List.prefix_rfl, Nat.le_refl _⟩
  | turn before _ turn ih => exact ih.turn ((before.inv inv).turned turn)
  | around _ around ih =>
    cases around with
    | propose => exact ih
    | answer => exact ih

/-- The task is never stuck with proposals: it can make a step, or waits for a permit that a write
will give back. -/
theorem Inv.not_stuck (inv : Inv answers σ) (held : σ.hand ≠ []) :
    (∃ isOpen τ, σ.turn isOpen = some τ) ∨ ∃ w ∈ σ.flying, w.permit = true := by
  obtain ⟨queue, carry, task, permits, flying, proposed, writes, answered⟩ := σ
  cases task with
  | next =>
    cases carry with
    | none => exact absurd rfl held
    | some p => exact .inl ⟨true, _, rfl⟩
  | first p => exact .inl ⟨true, _, rfl⟩
  | waits p =>
    cases permits with
    | succ permits => exact .inl ⟨true, _, rfl⟩
    | zero =>
      have permits : 0 + (flying.countP (·.permit) + 0) = 1 := inv.permits
      have one : 0 < flying.countP (·.permit) := by omega
      exact .inr (List.countP_pos_iff.mp one)
  | forms batch bytes =>
    refine .inl ⟨true, ?_⟩
    dsimp only [State.turn]
    split
    · cases queue with
      | nil => exact ⟨_, rfl⟩
      | cons p queue =>
        dsimp only
        split
        · exact ⟨_, rfl⟩
        · exact ⟨_, rfl⟩
    · exact ⟨_, rfl⟩

end

/-- Every proposal taken from the queue is in one write, in order and within the bounds, or in the
task's hand, from where it is written in a bounded number of steps. Every write is answered once,
and when it is applied each caller is sent the response that its own entry gives alone. -/
theorem group_commit (log : CommittedLog) {n : Nat} {σ : State}
    (reached : Path (Answers log) State.start n σ) :
    σ.proposed = σ.writes.flatten ++ (σ.hand ++ σ.queue) ∧
    (∀ w ∈ σ.writes, w.length ≤ maxBatch ∧
      ((w.map Pending.bytes).sum ≤ maxBatchBytes ∨ w.length = 1)) ∧
    (∀ τ turns, Path (Answers log) σ turns τ → maxBatch + 3 ≤ turns →
      ∃ later, τ.writes.flatten = σ.writes.flatten ++ σ.hand ++ later) ∧
    (σ.hand ≠ [] → (∃ isOpen τ, σ.turn isOpen = some τ) ∨ ∃ w ∈ σ.flying, w.permit = true) ∧
    σ.writes.Perm (σ.answered.map Prod.fst ++ σ.flying.map Write.batch) ∧
    ∀ w response, (w, .ok response) ∈ σ.answered →
      ∃ logId sm, ∃ responses : List Response, AtTurn log ⟨logId, .normal (entryOf w)⟩ sm ∧
        (sm.applyEntries (w.map fun p => ⟨logId, .normal p.entry⟩)).1 = .ok responses ∧
        responses.length = w.length ∧
        submit w (.ok response) = List.zipWith (fun p r => (p.reply, .ok r)) w responses := by
  have inv := reached.inv inv_start
  refine ⟨inv.order, fun w mem => ⟨(inv.bounded w mem).count, (inv.bounded w mem).bytes⟩,
    fun τ turns path enough => ?_, inv.not_stuck, inv.once,
    fun w response mem => submit_each (inv.answers _ mem)⟩
  rcases path.soon inv with written | ⟨-, -, left⟩
  · exact written
  · have pos := (path.inv inv).left_pos
    have most : σ.task.left ≤ maxBatch + 3 := by
      cases σ.task <;> simp only [Task.left] <;> omega
    omega

/-- The lease and the put of `leasedBatch`, from two callers. -/
def leasedPair : List Pending :=
  [⟨.leaseGrant 7 60 0, 40, 0⟩, ⟨.apply [.put [1] [2] 7 false false false], 60, 1⟩]

/-- Both callers are answered after one write. -/
theorem group_commit_leased : ∃ σ response, Path (Answers leasedLog) State.start 5 σ ∧
    σ.answered = [(leasedPair, .ok response)] ∧
    ∃ logId, ∃ sm : StateMachine, ∃ responses : List Response,
      (sm.applyEntries (leasedPair.map fun p => ⟨logId, .normal p.entry⟩)).1 = .ok responses ∧
      submit leasedPair (.ok response) =
        List.zipWith (fun p r => (p.reply, .ok r)) leasedPair responses := by
  have handed : [].flatten ++ [] ++ [leasedBatch] <+: leasedLog.after none := List.prefix_rfl
  have here : AtTurn leasedLog leasedBatch (.open_ .empty) := .intro .new handed rfl rfl nofun
  have fine : ((StateMachine.open_ .empty).applyEntry leasedBatch).1.isOk = true := by
    decide +kernel
  obtain ⟨response, ok⟩ : ∃ response,
      ((StateMachine.open_ .empty).applyEntry leasedBatch).1 = .ok response := by
    generalize ((StateMachine.open_ .empty).applyEntry leasedBatch).1 = answer at fine
    cases answer with
    | error e => exact nomatch fine
    | ok response => exact ⟨response, rfl⟩
  have start : Path (Answers leasedLog) State.start 0 State.start := .none
  have proposed := (start.around (.propose leasedPair[0])).around (.propose leasedPair[1])
  have formed := (((proposed.turn true rfl).turn true rfl).turn true rfl).turn true rfl
  have may : Answers leasedLog (entryOf leasedPair) (.ok response) := ⟨⟨1, 1, 1⟩, _, here, ok⟩
  have run := (formed.turn true rfl).around (@Around.answer _ _ [] [] ⟨leasedPair, true⟩ _ rfl may)
  refine ⟨_, response, run, rfl, ?_⟩
  obtain ⟨-, -, -, -, -, each⟩ := group_commit leasedLog run
  obtain ⟨logId, sm, responses, -, alone, -, sent⟩ := each leasedPair response List.mem_cons_self
  exact ⟨logId, sm, responses, alone, sent⟩

end Proposer

end Fastetcd.Raft
