import Fastetcd.Laws.Raft.Replaying
import Fastetcd.Laws.Raft.Snapshot

/-!
# Members converge

Every member holds what is done of the log at its position, whether it got there by applying
entries, by opening what a crash left, or by a snapshot (`Sound`). An installed snapshot brings the
progress in a batched entry to disk, but not to memory, and the next apply goes by memory; so the
two must agree about the entries that are left (`Fits`).
-/

namespace Fastetcd.Raft.Cluster

open Mvcc Std

/-! ## Installing a snapshot -/

section

variable {s t : Store}

/-- The invariants are of the replica, for a store that has just loaded it. -/
theorem inv_of_replica (inv : s.Inv) (same : t.replica = s.replica)
    (view : t.view.revs = t.writeState.revs)
    (stored : t.engine.metaRows.currentRev.getD 0 = t.writeState.currentRev ∧
      t.engine.metaRows.compactRev.getD 0 = t.writeState.compactRev) (values : t.values = ∅) :
    t.Inv := by
  have content : t.content = s.content := content_of_replica same
  have state : t.writeState = s.writeState := state_of_replica same
  have idx : t.engine.idx = s.engine.idx := congrArg (fun r : Replica => r.data.idx) same
  have index : t.index = s.index := congrArg Replica.index same
  refine ⟨content ▸ inv.content, fun key => ?_, fun key => ?_, view, stored, state ▸ inv.compact,
    fun key => ?_, fun held => ?_⟩
  · rw [idx, index]
    exact inv.idx key
  · rw [content, state]
    exact inv.settled key
  · rw [content, state]
    exact inv.floor key
  · rw [values, ExtTreeMap.getElem?_empty] at held
    exact nomatch held

/-- What a store is after an install. -/
structure Installed (s : Store) (b : Built) (t : Store) : Prop where
  engine : t.engine = replaced b.tables s.engine b.lastAppliedLogId b.lastMembership
  commits : t.commits = s.commits ++ [t.engine]
  index : t.index = loadIndex t.engine
  state : t.writeState = readWriteState t.engine
  view : t.view.revs = t.writeState.revs
  values : t.values = ∅
  pending : t.pendingRaftMeta = s.pendingRaftMeta

theorem installSnapshot_body (s : Store) (b : Built) :
    (installSnapshot s b.body true).1 = .ok () ∧
      Installed s b (installSnapshot s b.body true).2 := by
  obtain ⟨batch, body, commit⟩ :=
    commit_streamBody b.tables s.engine b.lastAppliedLogId b.lastMembership
  rw [installSnapshot, Built.body, body]
  exact ⟨rfl, commit, rfl, rfl, rfl, rfl, rfl, rfl⟩

/-- A snapshot is loaded whole, if the rows that the clearing leaves are its own. -/
theorem Installed.replica {b : Built} (installed : Installed s b t)
    (reached : Reached b.tables s.engine) : t.replica = (Store.open b.tables).replica := by
  have idx : t.engine.idx = b.tables.idx := by
    rw [installed.engine]
    exact uncleared_overwrite_eq_iff.mpr reached.idx
  have data : t.engine.data = b.tables.data := by
    rw [Tables.data, idx, installed.engine]
    have kv := unclearedKv_overwrite_eq_iff.mpr reached.kv
    have auth : (fun table =>
        (uncleared (s.engine.auth table)).overwrite (b.tables.auth table) id) = b.tables.auth :=
      funext fun table => uncleared_overwrite_eq_iff.mpr (reached.auth table)
    simp only [replaced, kv, auth]
    rfl
  have index : t.index = (Store.open b.tables).index := by
    show t.index = loadIndex (initTables b.tables)
    rw [installed.index, loadIndex, loadIndex, idx, (initTables_eq b.tables).1]
  have state : t.writeState = (Store.open b.tables).writeState := by
    rw [installed.state, installed.engine]
    rfl
  rw [Store.replica, Store.replica, data, index, state]
  exact congrArg (Replica.mk · _ _) (data_initTables b.tables).symm

end

/-! ## Sound members -/

/-- A snapshot of what is done of the log. -/
structure Built.Sound (log : CommittedLog) (b : Built) : Prop where
  settled : Settled log b.tables
  last : b.lastAppliedLogId = (position b.tables.metaRows.raft).applied

/-- A process that holds what is done of the log, and so does whatever a crash leaves of it. -/
structure Process.Sound (log : CommittedLog) (p : Process) : Prop where
  found : Settled log p.found
  ready : Ready log p.sm (log.after p.sm.lastAppliedLogId)
  flushed : p.sm.mvcc.pendingRaftMeta = []

/-- The snapshot fits a process: the rows that the clearing leaves are its own, and the progress
that the process has in memory is the snapshot's, for the entries after it. -/
structure Fits (log : CommittedLog) (b : Built) (p : Process) : Prop where
  reached : Reached b.tables p.sm.mvcc.engine
  progress : ∀ e ∈ log.after b.lastAppliedLogId,
    skipOf p.sm.batchProgress e.index = skipOf b.tables.metaRows.raft.batch e.index

section

variable {log : CommittedLog} {p : Process} {b : Built} {sm : StateMachine}

theorem sound_start {t : Tables} (settled : Settled log t) : (Process.start t).Sound log :=
  ⟨settled, settled.open_, rfl⟩

theorem flushRaftMeta_pending (s : Store) : (s.flushRaftMeta true).2.pendingRaftMeta = [] := by
  rw [flushRaftMeta_eq]
  split
  · rename_i none
    exact List.isEmpty_iff.mp none
  · rfl

/-- What a process hands over is the first of what is left. -/
theorem Process.Sound.goes (sound : p.Sound log) {entries : List Entry}
    (handed : entries <+: log.after p.sm.lastAppliedLogId) :
    ∃ rest, Goes log rest (p.sm.apply entries) := by
  obtain ⟨rest, whole⟩ := handed
  have ready := sound.ready
  rw [← whole] at ready
  exact ⟨rest, ready.apply⟩

theorem Process.Sound.apply (sound : p.Sound log) {entries : List Entry}
    (handed : entries <+: log.after p.sm.lastAppliedLogId) {responses : List Response}
    (ok : p.sm.apply entries = (.ok responses, sm)) : ({ p with sm } : Process).Sound log := by
  obtain ⟨rest, goes⟩ := sound.goes handed
  rw [ok] at goes
  have ready : Ready log sm rest := goes
  refine ⟨sound.found, ?_, ?_⟩
  · show Ready log sm (log.after sm.lastAppliedLogId)
    rw [ready.last, ready.now]
    exact ready
  · rw [StateMachine.apply] at ok
    split at ok
    · cases ok
    · cases ok
      exact flushRaftMeta_pending _

theorem Process.Sound.left (sound : p.Sound log) {entries : List Entry}
    (handed : entries <+: log.after p.sm.lastAppliedLogId) {t : Tables}
    (kept : t ∈ p.left entries) : Settled log t := by
  obtain ⟨rest, goes⟩ := sound.goes handed
  rcases List.mem_cons.mp kept with rfl | kept
  · exact sound.found
  · exact goes.kept.commits t kept

/-- Between applies nothing is staged. -/
theorem Process.Sound.rows (sound : p.Sound log) :
    p.sm.mvcc.rows = p.sm.mvcc.engine.metaRows.raft := by
  rw [Store.rows, sound.flushed]
  rfl

theorem Process.Sound.build (sound : p.Sound log) : p.build.Sound log := by
  have stays := sound.ready.stays
  have rows := sound.rows
  refine ⟨settled_engine stays.inv stays.stored (rows ▸ stays.next) (rows ▸ stays.holds), ?_⟩
  exact sound.ready.last.trans (congrArg (fun rows => (position rows).applied) rows)

theorem Process.Sound.install (sound : p.Sound log) (built : b.Sound log) (fits : Fits log b p)
    (ok : p.sm.install b.body = (.ok (), sm)) : ({ p with sm } : Process).Sound log := by
  obtain ⟨answer, installed⟩ := installSnapshot_body p.sm.mvcc b
  rw [StateMachine.install] at ok
  generalize installSnapshot p.sm.mvcc b.body true = result at answer installed ok
  obtain ⟨_, t⟩ := result
  cases answer
  cases ok
  have replica := installed.replica fits.reached
  have state : t.writeState = readWriteState t.engine := installed.state
  have inv : t.Inv := by
    refine inv_of_replica built.settled.inv replica installed.view ?_ installed.values
    rw [state]
    exact ⟨rfl, rfl⟩
  have stored : t.Stored := by
    rw [Store.Stored, state]
    rfl
  have raft : position t.engine.metaRows.raft = position b.tables.metaRows.raft := by
    rw [installed.engine, position, position, replaced, built.last]
    rfl
  have rows : position t.rows = position b.tables.metaRows.raft := by
    rw [← raft, Store.rows, installed.pending, sound.flushed]
    rfl
  have next : log.Next (position t.engine.metaRows.raft) := raft ▸ built.settled.next
  have holds : Holds log t (position t.engine.metaRows.raft) :=
    raft ▸ built.settled.holds.of_replica replica
  refine ⟨sound.found, ⟨⟨⟨inv, stored, fun tables mem => ?_⟩, ?_, ?_⟩, ?_, ?_, ?_⟩, ?_⟩
  · rw [installed.commits, List.mem_append, List.mem_singleton] at mem
    rcases mem with old | rfl
    · exact sound.ready.stays.commits tables old
    · exact settled_engine inv stored next holds
  · rw [rows, ← raft]
    exact next
  · rw [rows, ← raft]
    exact holds
  · rw [rows]
    exact built.last
  · show log.after (position t.rows).applied = log.after b.lastAppliedLogId
    rw [rows, built.last]
  · intro e mem
    show skipOf p.sm.batchProgress e.index = skipOf (position t.rows).batch e.index
    rw [rows]
    exact fits.progress e mem
  · exact installed.pending.trans sound.flushed

/-- What is done by a process that is through is the entries up to the last. -/
theorem Process.Sound.done (sound : p.Sound log) {last : Option Mvcc.LogId}
    (through : p.Through last) :
    log.done (position p.sm.mvcc.rows) = (log.before last).flatMap Entry.work := by
  have applied : (position p.sm.mvcc.rows).applied = last := by
    rw [← sound.ready.last, through.applied]
  rw [CommittedLog.done, applied]
  split
  · exact List.append_nil _
  · rename_i e rest now
    have none : skipOf (position p.sm.mvcc.rows).batch e.index = 0 := by
      refine skipOf_of_lt fun i done held => ?_
      obtain ⟨id, rfl, reached⟩ := through.whole i done (sound.rows ▸ held)
      have mem : e ∈ log.after (some id) := now ▸ List.mem_cons_self
      have later := (List.mem_filter.mp mem).2
      rw [Option.all_some, decide_eq_true_eq] at later
      exact Nat.lt_of_le_of_lt reached later
    rw [none]
    exact List.append_nil _

end

/-! ## Runs -/

section

variable {M : Type} [DecidableEq M] {log : CommittedLog}

theorem forall_set {P : Process → Prop} {c : State M} (each : ∀ m, P (c.members m)) {m : M}
    {p : Process} (here : P p) (n : M) : P ((c.set m p).members n) := by
  show P (Function.update c.members m p n)
  rw [Function.update_apply]
  split
  · exact here
  · exact each n

theorem Step.sound {c d : State M} (step : Step log (Fits log) c d)
    (members : ∀ m, (c.members m).Sound log) (built : ∀ b ∈ c.built, b.Sound log) :
    (∀ m, (d.members m).Sound log) ∧ ∀ b ∈ d.built, b.Sound log := by
  cases step with
  | apply m handed ok => exact ⟨forall_set members ((members m).apply handed ok), built⟩
  | crash m handed kept =>
    exact ⟨forall_set members (sound_start ((members m).left handed kept)), built⟩
  | build m =>
    refine ⟨members, fun b mem => ?_⟩
    rcases List.mem_append.mp mem with old | new
    · exact built b old
    · rw [List.mem_singleton.mp new]
      exact (members m).build
  | install m mem may ok =>
    exact ⟨forall_set members ((members m).install (built _ mem) may ok), built⟩

theorem Reaches.sound {c : State M} (reaches : Reaches log (Fits log) c) :
    (∀ m, (c.members m).Sound log) ∧ ∀ b ∈ c.built, b.Sound log := by
  induction reaches with
  | start =>
    refine ⟨fun _ => sound_start (settled_empty log), fun b mem => ?_⟩
    exact absurd mem List.not_mem_nil
  | step _ step ih => exact step.sound ih.1 ih.2

end

/-! ## A batch that commits twice -/

/-- A put, and a lease: two commits. -/
def splitBatch : Entry where
  logId := ⟨1, 1, 1⟩
  payload := .normal (.batch [.apply [.put [1] [2] 0 false false false], .leaseGrant 7 60 0])

def splitLog : CommittedLog := ⟨[splitBatch], List.pairwise_singleton _ _⟩

/-- The state machine after the batch. -/
def afterSplit (sm : StateMachine) : StateMachine := (sm.apply [splitBatch]).2

/-- Two new members, of which one applies the batch. -/
def applied : State Bool :=
  State.set ⟨fun _ => .start .empty, []⟩ true ⟨.empty, afterSplit (.open_ .empty)⟩

/-- The other has installed its snapshot. -/
def caughtUp : State Bool :=
  let b := (applied.members true).build
  State.set { applied with built := [b] } false
    ⟨.empty, ((StateMachine.open_ .empty).install b.body).2⟩

theorem eq_of_isOk {ε α β : Type} {result : Except ε α × β} (ok : result.1.isOk = true) :
    ∃ a, result = (.ok a, result.2) := by
  obtain ⟨answer, b⟩ := result
  cases answer with
  | error e => exact nomatch ok
  | ok a => exact ⟨a, rfl⟩

theorem install_ok (sm : StateMachine) (b : Built) :
    sm.install b.body = (.ok (), (sm.install b.body).2) := by
  obtain ⟨answer, -⟩ := installSnapshot_body sm.mvcc b
  rw [StateMachine.install]
  generalize installSnapshot sm.mvcc b.body true = result at answer
  obtain ⟨_, t⟩ := result
  cases answer
  rfl

/-- A member is through the batch when its rows say so. -/
theorem through_split {p : Process} (applied : p.sm.lastAppliedLogId = some ⟨1, 1, 1⟩)
    (batch : p.sm.mvcc.engine.metaRows.raft.batch = some (1, 2)) : p.Through (some ⟨1, 1, 1⟩) := by
  refine ⟨applied, fun i done held => ⟨_, rfl, ?_⟩⟩
  rw [batch] at held
  cases held
  exact le_rfl

theorem reaches_caughtUp : Reaches splitLog (Fits splitLog) caughtUp := by
  have runs : ((StateMachine.open_ .empty).apply [splitBatch]).1.isOk = true := by decide +kernel
  obtain ⟨responses, ok⟩ := eq_of_isOk runs
  have first : Reaches splitLog (Fits splitLog) applied :=
    .step .start (.apply true (List.prefix_rfl) ok)
  have last : (applied.members true).build.lastAppliedLogId = some ⟨1, 1, 1⟩ := by decide +kernel
  refine .step (.step first (.build true))
    (.install false List.mem_cons_self ⟨?_, ?_⟩ (install_ok _ _))
  · exact ⟨fun k mem => absurd mem ExtTreeMap.not_mem_empty,
      fun k mem => absurd mem ExtTreeMap.not_mem_empty,
      fun table k mem => absurd mem ExtTreeMap.not_mem_empty⟩
  · intro e mem
    rw [last] at mem
    exact nomatch mem

/-- What a crash leaves after the put. -/
def half : Tables := ((Process.start .empty).left [splitBatch]).getD 2 .empty

/-- The snapshot of a member that opened it. -/
def halfBuilt : Built := (Process.start half).build

/-- What another member is after it installed that. -/
def halfInstalled : StateMachine := ((StateMachine.open_ .empty).install halfBuilt.body).2

/-- Then both have applied the batch. -/
def diverged : State Bool :=
  let crashed : State Bool := State.set ⟨fun _ => .start .empty, []⟩ true (.start half)
  let installed := State.set { crashed with built := [halfBuilt] } false ⟨.empty, halfInstalled⟩
  (installed.set false ⟨.empty, afterSplit halfInstalled⟩).set true
    ⟨half, afterSplit (.open_ half)⟩

end Fastetcd.Raft.Cluster
