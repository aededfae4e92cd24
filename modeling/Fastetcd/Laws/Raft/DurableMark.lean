import Fastetcd.Laws.Storage.RaftLog
import Fastetcd.Raft.Durability

/-!
# The durable mark

An entry below the durable mark is in every state of the WAL that a loss of power can leave
(`Marks.durable`): the mark rises to what a sync has covered, the log is truncated before it is
written again, and `truncate` lowers the mark before RaftCore goes on. What is kept once stays so
until it is truncated or purged (`Kept.step`).
-/

namespace Fastetcd.Raft

open Storage

/-! ## What a record removes -/

/-- The record removes what is at the index. -/
def Removes (r : Record) (k : Nat) : Prop :=
  match r.kind with
  | .entry => r.index ≤ k
  | .truncate => r.index ≤ k
  | .purge => k ≤ r.index
  | .vote => False
  | .committed => False

theorem entries_kept {log : Log} {row : Loc × Record} {k : Nat} (kept : ¬Removes row.2 k) :
    (log.apply row).entries k = log.entries k := by
  rw [Removes] at kept
  rw [Log.apply]
  cases kind : row.2.kind with
  | entry =>
    simp only [kind] at kept
    exact if_pos (Nat.not_le.mp kept)
  | truncate =>
    simp only [kind] at kept
    exact if_pos (Nat.not_le.mp kept)
  | purge =>
    simp only [kind] at kept
    exact if_pos (Nat.not_le.mp kept)
  | vote => rfl
  | committed => rfl

/-- An entry after a record is the record, or was there before and is not removed. -/
theorem entries_after {log : Log} {row x : Loc × Record} {k : Nat}
    (held : (log.apply row).entries k = some x) :
    (x = row ∧ row.2.kind = .entry ∧ row.2.index = k) ∨
      (log.entries k = some x ∧ ¬Removes row.2 k) := by
  rw [Removes]
  rw [Log.apply] at held
  cases kind : row.2.kind with
  | entry =>
    simp only [kind] at held
    split at held
    · next less => exact Or.inr ⟨held, Nat.not_le.mpr less⟩
    · split at held
      · next here => exact Or.inl ⟨(Option.some.inj held).symm, rfl, here.1.symm⟩
      · cases held
  | truncate =>
    simp only [kind] at held
    split at held
    · next less => exact Or.inr ⟨held, Nat.not_le.mpr less⟩
    · cases held
  | purge =>
    simp only [kind] at held
    split at held
    · next past => exact Or.inr ⟨held, Nat.not_le.mpr past⟩
    · cases held
  | vote => exact Or.inr ⟨by simpa only [kind] using held, id⟩
  | committed => exact Or.inr ⟨by simpa only [kind] using held, id⟩

/-! ## The mark an open starts from -/

theorem mem_replay {rows : List (Loc × Record)} {k : Nat} :
    k ∈ (Replay.run {} rows).entries ↔ ∃ row, (Log.run {} rows).entries k = some row := by
  rw [Std.ExtTreeMap.mem_iff_isSome_getElem?, (agrees_run rows).entries, Option.isSome_map,
    Option.isSome_iff_exists]

theorem openMark_cases (rows : List (Loc × Record)) :
    (∃ k row, (Log.run {} rows).entries k = some row ∧ openMark (Replay.run {} rows) = k + 1 ∧
      ∀ k' row', (Log.run {} rows).entries k' = some row' → k' ≤ k) ∨
    ((∀ k, (Log.run {} rows).entries k = none) ∧
      openMark (Replay.run {} rows) = purgeMark (Log.run {} rows).sticky) := by
  rw [openMark]
  cases top : (Replay.run {} rows).entries.maxKey? with
  | some k =>
    obtain ⟨mem, most⟩ := Std.ExtTreeMap.maxKey?_eq_some_iff_mem_and_forall.mp top
    obtain ⟨row, held⟩ := mem_replay.mp mem
    refine Or.inl ⟨k, row, held, rfl, fun k' row' held' => ?_⟩
    exact Nat.isLE_compare.mp (most k' (mem_replay.mpr ⟨row', held'⟩))
  | none =>
    refine Or.inr ⟨fun k => ?_, by rw [(agrees_run rows).sticky]; rfl⟩
    rw [Std.ExtTreeMap.maxKey?_eq_none_iff] at top
    have same := (agrees_run rows).entries k
    rw [top, Std.ExtTreeMap.getElem?_empty] at same
    exact Option.map_eq_none_iff.mp same.symm

theorem lt_openMark {rows : List (Loc × Record)} {k : Nat} {row : Loc × Record}
    (held : (Log.run {} rows).entries k = some row) : k < openMark (Replay.run {} rows) := by
  rcases openMark_cases rows with ⟨top, -, -, mark, most⟩ | ⟨none, -⟩
  · have := most k row held
    omega
  · cases (none k).symm.trans held

/-! ## What every crash leaves -/

/-- The row is in the log of the first `i` records, for every `i` from `j` on. -/
def KeptFrom (sent : List (Loc × Record)) (j k : Nat) (row : Loc × Record) : Prop :=
  ∀ i, j ≤ i → i ≤ sent.length → (Log.run {} (sent.take i)).entries k = some row

theorem KeptFrom.held {sent : List (Loc × Record)} {j k : Nat} {row : Loc × Record}
    (kept : KeptFrom sent j k row) (within : j ≤ sent.length) :
    (Log.run {} sent).entries k = some row := by
  have whole := kept sent.length within (Nat.le_refl _)
  rwa [List.take_length] at whole

theorem KeptFrom.mono {sent : List (Loc × Record)} {i j k : Nat} {row : Loc × Record}
    (kept : KeptFrom sent i k row) (le : i ≤ j) : KeptFrom sent j k row :=
  fun _ later within => kept _ (le.trans later) within

theorem KeptFrom.send {sent : List (Loc × Record)} {j k : Nat} {row : Loc × Record}
    (kept : KeptFrom sent j k row) (within : j ≤ sent.length) {new : Loc × Record}
    (keeps : ¬Removes new.2 k) : KeptFrom (sent ++ [new]) j k row := by
  intro i later short
  rcases Nat.lt_or_ge sent.length i with whole | part
  · rw [List.length_append, List.length_singleton] at short
    rw [List.take_of_length_le (by rw [List.length_append, List.length_singleton]; omega),
      Log.run_concat, entries_kept keeps]
    exact kept.held within
  · rw [List.take_append_of_le_length part]
    exact kept i later part

theorem KeptFrom.take {sent : List (Loc × Record)} {j k : Nat} {row : Loc × Record}
    (kept : KeptFrom sent j k row) (n : Nat) : KeptFrom (sent.take n) j k row := by
  intro i later within
  rw [List.length_take] at within
  rw [List.take_take, Nat.min_eq_left (by omega)]
  exact kept i later (by omega)

/-- The entries below `mark` are kept from the `j`-th record on. -/
def KeptBelow (sent : List (Loc × Record)) (j mark : Nat) : Prop :=
  ∀ k row, k < mark → (Log.run {} sent).entries k = some row → KeptFrom sent j k row

theorem KeptBelow.all (sent : List (Loc × Record)) (mark : Nat) :
    KeptBelow sent sent.length mark := by
  intro k row _ held i later within
  rw [List.take_of_length_le later]
  exact held

theorem KeptBelow.mono {sent : List (Loc × Record)} {i j mark : Nat} (kept : KeptBelow sent i mark)
    (le : i ≤ j) : KeptBelow sent j mark :=
  fun k row below held => (kept k row below held).mono le

/-- A record that is no entry below the mark. -/
theorem KeptBelow.send {sent : List (Loc × Record)} {j mark : Nat} (kept : KeptBelow sent j mark)
    (within : j ≤ sent.length) {new : Loc × Record}
    (past : new.2.kind = .entry → mark ≤ new.2.index) : KeptBelow (sent ++ [new]) j mark := by
  intro k row below held
  rw [Log.run_concat] at held
  rcases entries_after held with ⟨rfl, kind, index⟩ | ⟨held, keeps⟩
  · have := past kind
    omega
  · exact (kept k row below held).send within keeps

theorem KeptBelow.lower {sent : List (Loc × Record)} {j m n : Nat} (kept : KeptBelow sent j m)
    (le : n ≤ m) : KeptBelow sent j n :=
  fun k row below held => kept k row (Nat.lt_of_lt_of_le below le) held

/-! ## The invariant -/

/-- The commands are the checkpointer's. -/
def NoLog (calls : List Call) : Prop := ∀ c ∈ calls, ∃ index, c.done = .purge index false

/-- The commands are those of appends up to `next`, and the checkpointer's. -/
def Appends (next : Nat) (calls : List Call) : Prop :=
  ∀ c ∈ calls, (∃ mark, c.done = .append mark ∧ mark ≤ next) ∨ ∃ index, c.done = .purge index false

/-- `truncate`'s command is there, after those of the appends before it. -/
def Waits (index next : Nat) : List Call → Prop
  | [] => False
  | c :: calls =>
    match c.done with
    | .append mark => min mark index ≤ next ∧ Waits index next calls
    | .truncate i => i = index ∧ NoLog calls
    | .purge _ hole => hole = false ∧ Waits index next calls

/-- RaftCore's purge is there, after the appends before it. -/
def Purges (next : Nat) : List Call → Prop
  | [] => False
  | c :: calls =>
    match c.done with
    | .append mark => mark ≤ next ∧ Purges next calls
    | .truncate _ => False
    | .purge _ true => NoLog calls
    | .purge _ false => Purges next calls

namespace Node

/-- What the marks are at, by where RaftCore is. -/
def Order (core : Core) (durable next : Nat) (calls : List Call) : Prop :=
  match core with
  | .truncating index => min durable index ≤ next ∧ Waits index next calls
  | .truncated index => min durable index ≤ next ∧ NoLog calls
  | .free => durable ≤ next ∧ Appends next calls
  | .holeSync _ _ => durable ≤ next ∧ Appends next calls
  | .holeSynced _ => durable ≤ next ∧ Appends next calls
  | .holePurging _ => durable ≤ next ∧ Purges next calls

/-- The records sent and the commands not answered. -/
structure Pipe (s : Node) : Prop where
  synced : s.synced ≤ s.written
  written : s.written ≤ s.sent.length
  upto : ∀ c ∈ s.calls, c.upto ≤ s.sent.length
  durable : KeptBelow s.sent s.synced s.durable
  marks : ∀ c ∈ s.calls, ∀ mark, c.done = .append mark → KeptBelow s.sent c.upto mark

structure Marks (s : Node) : Prop extends s.Pipe where
  next : ∀ k row, s.log.entries k = some row → k < s.next
  order : Order s.core s.durable s.next s.calls

end Node

/-! ## Commands -/

section Calls

variable {index next : Nat} {calls : List Call} {upto : Nat}

theorem NoLog.purge (none : NoLog calls) (p : Nat) :
    NoLog (calls ++ [⟨upto, .purge p false⟩]) :=
  List.forall_mem_append.mpr ⟨none, List.forall_mem_singleton.mpr ⟨p, rfl⟩⟩

theorem NoLog.appends (none : NoLog calls) (next : Nat) : Appends next calls :=
  fun c mem => Or.inr (none c mem)

theorem Appends.append (appends : Appends next calls) :
    Appends next (calls ++ [⟨upto, .append next⟩]) :=
  List.forall_mem_append.mpr
    ⟨appends, List.forall_mem_singleton.mpr (Or.inl ⟨next, rfl, Nat.le_refl _⟩)⟩

theorem Appends.purge (appends : Appends next calls) (p : Nat) :
    Appends next (calls ++ [⟨upto, .purge p false⟩]) :=
  List.forall_mem_append.mpr ⟨appends, List.forall_mem_singleton.mpr (Or.inr ⟨p, rfl⟩)⟩

theorem Appends.mono {next' : Nat} (appends : Appends next calls) (le : next ≤ next') :
    Appends next' calls :=
  fun c mem => (appends c mem).imp_left fun ⟨mark, done, short⟩ => ⟨mark, done, short.trans le⟩

theorem Appends.truncate {next' : Nat} (appends : Appends next calls)
    (le : min next index ≤ next') : Waits index next' (calls ++ [⟨upto, .truncate index⟩]) := by
  induction calls with
  | nil => exact ⟨rfl, nofun⟩
  | cons c calls ih =>
    obtain ⟨first, rest⟩ := List.forall_mem_cons.mp appends
    rw [List.cons_append, Waits]
    rcases first with ⟨mark, done, short⟩ | ⟨p, done⟩
    · simp only [done]
      exact ⟨by omega, ih rest⟩
    · simp only [done]
      exact ⟨trivial, ih rest⟩

theorem Appends.hole (appends : Appends next calls) (p : Nat) :
    Purges next (calls ++ [⟨upto, .purge p true⟩]) := by
  induction calls with
  | nil => exact nofun
  | cons c calls ih =>
    obtain ⟨first, rest⟩ := List.forall_mem_cons.mp appends
    rw [List.cons_append, Purges]
    rcases first with ⟨mark, done, short⟩ | ⟨p, done⟩
    · simp only [done]
      exact ⟨short, ih rest⟩
    · simp only [done]
      exact ih rest

theorem Waits.purge (waits : Waits index next calls) (p : Nat) :
    Waits index next (calls ++ [⟨upto, .purge p false⟩]) := by
  induction calls with
  | nil => exact waits.elim
  | cons c calls ih =>
    rw [List.cons_append]
    rw [Waits] at waits ⊢
    cases done : c.done with
    | append mark =>
      simp only [done] at waits ⊢
      exact ⟨waits.1, ih waits.2⟩
    | truncate i =>
      simp only [done] at waits ⊢
      exact ⟨waits.1, waits.2.purge p⟩
    | purge i h =>
      simp only [done] at waits ⊢
      exact ⟨waits.1, ih waits.2⟩

theorem Purges.purge (purges : Purges next calls) (p : Nat) :
    Purges next (calls ++ [⟨upto, .purge p false⟩]) := by
  induction calls with
  | nil => exact purges.elim
  | cons c calls ih =>
    rw [List.cons_append]
    rw [Purges] at purges ⊢
    cases done : c.done with
    | append mark =>
      simp only [done] at purges ⊢
      exact ⟨purges.1, ih purges.2⟩
    | truncate i =>
      simp only [done] at purges
    | purge i hole =>
      cases hole with
      | true =>
        simp only [done] at purges ⊢
        exact NoLog.purge purges p
      | false =>
        simp only [done] at purges ⊢
        exact ih purges

end Calls

namespace Node

variable {s : Node}

/-! ## Sending -/

theorem Pipe.send (pipe : s.Pipe) (loc : Loc) (r : Record)
    (past : r.kind = .entry → s.durable ≤ r.index ∧ Appends r.index s.calls) :
    (s.send loc r).Pipe := by
  have more : s.sent.length ≤ (s.send loc r).sent.length := by
    show s.sent.length ≤ (s.sent ++ [(loc, r)]).length
    rw [List.length_append]
    exact Nat.le_add_right ..
  exact
    { synced := pipe.synced
      written := pipe.written.trans more
      upto := fun c mem => (pipe.upto c mem).trans more
      durable := pipe.durable.send (pipe.synced.trans pipe.written) fun kind => (past kind).1
      marks := fun c mem mark done => by
        refine (pipe.marks c mem mark done).send (pipe.upto c mem) fun kind => ?_
        rcases (past kind).2 c mem with ⟨m, same, short⟩ | ⟨p, other⟩
        · cases done.symm.trans same
          exact short
        · cases done.symm.trans other }

theorem Pipe.call (pipe : s.Pipe) (done : Done) : (s.call done).Pipe :=
  { pipe with
    upto := List.forall_mem_append.mpr
      ⟨pipe.upto, List.forall_mem_singleton.mpr (Nat.le_refl _)⟩
    marks := List.forall_mem_append.mpr
      ⟨pipe.marks, List.forall_mem_singleton.mpr fun mark _ => .all s.sent mark⟩ }

theorem Pipe.answer (pipe : s.Pipe) {c : Call} {calls : List Call} (first : s.calls = c :: calls) :
    (∀ c ∈ calls, c.upto ≤ s.sent.length) ∧
      ∀ c ∈ calls, ∀ mark, c.done = .append mark → KeptBelow s.sent c.upto mark := by
  have sub : ∀ c' ∈ calls, c' ∈ s.calls := fun c' mem => first ▸ List.mem_cons_of_mem _ mem
  exact ⟨fun c' mem => pipe.upto c' (sub c' mem), fun c' mem => pipe.marks c' (sub c' mem)⟩

/-- What is in the log after a record other than an entry was there before. -/
theorem held_of_send {loc : Loc} {r : Record} (other : r.kind ≠ .entry) {k : Nat}
    {row : Loc × Record} (held : (s.send loc r).log.entries k = some row) :
    s.log.entries k = some row ∧ ¬Removes r k := by
  rw [log, Node.send, Log.run_concat] at held
  rcases entries_after held with ⟨-, kind, -⟩ | old
  · exact absurd kind other
  · exact old

section Order

variable {core : Core} {durable next upto : Nat} {calls : List Call}

theorem Order.purge (order : Order core durable next calls) (p : Nat) :
    Order core durable next (calls ++ [⟨upto, .purge p false⟩]) := by
  cases core with
  | truncating index => exact ⟨order.1, order.2.purge p⟩
  | truncated index => exact ⟨order.1, order.2.purge p⟩
  | free => exact ⟨order.1, order.2.purge p⟩
  | holeSync index saved => exact ⟨order.1, order.2.purge p⟩
  | holeSynced index => exact ⟨order.1, order.2.purge p⟩
  | holePurging index => exact ⟨order.1, order.2.purge p⟩

/-- An append answered. -/
theorem Order.answerAppend {mark : Nat}
    (order : Order core durable next (⟨upto, .append mark⟩ :: calls)) :
    Order core (max durable mark) next calls := by
  have plain (appends : durable ≤ next ∧ Appends next (⟨upto, .append mark⟩ :: calls)) :
      max durable mark ≤ next ∧ Appends next calls := by
    obtain ⟨first, rest⟩ := List.forall_mem_cons.mp appends.2
    rcases first with ⟨_, same, short⟩ | ⟨_, other⟩
    · cases same
      exact ⟨Nat.max_le.mpr ⟨appends.1, short⟩, rest⟩
    · cases other
  cases core with
  | truncating index =>
    obtain ⟨below, short, waits⟩ := order
    exact ⟨by omega, waits⟩
  | truncated index =>
    obtain ⟨_, other⟩ := order.2 _ List.mem_cons_self
    cases other
  | free => exact plain order
  | holeSync index saved => exact plain order
  | holeSynced index => exact plain order
  | holePurging index =>
    obtain ⟨below, short, purges⟩ := order
    exact ⟨Nat.max_le.mpr ⟨below, short⟩, purges⟩

/-- A truncate answered. -/
theorem Order.answerTruncate {index : Nat}
    (order : Order core durable next (⟨upto, .truncate index⟩ :: calls)) :
    min durable index ≤ next ∧ NoLog calls := by
  have plain (appends : durable ≤ next ∧ Appends next (⟨upto, .truncate index⟩ :: calls)) :
      min durable index ≤ next ∧ NoLog calls := by
    rcases appends.2 _ List.mem_cons_self with ⟨_, other, -⟩ | ⟨_, other⟩ <;> cases other
  cases core with
  | truncating index =>
    obtain ⟨below, rfl, rest⟩ := order
    exact ⟨below, rest⟩
  | truncated index =>
    obtain ⟨_, other⟩ := order.2 _ List.mem_cons_self
    cases other
  | free => exact plain order
  | holeSync index saved => exact plain order
  | holeSynced index => exact plain order
  | holePurging index => exact order.2.elim

/-- RaftCore's purge answered. -/
theorem Order.answerHole {p : Nat}
    (order : Order core durable next (⟨upto, .purge p true⟩ :: calls)) :
    durable ≤ next ∧ Appends next calls := by
  have plain (appends : durable ≤ next ∧ Appends next (⟨upto, .purge p true⟩ :: calls)) :
      durable ≤ next ∧ Appends next calls := by
    rcases appends.2 _ List.mem_cons_self with ⟨_, other, -⟩ | ⟨_, other⟩ <;> cases other
  cases core with
  | truncating index => cases order.2.1
  | truncated index =>
    obtain ⟨_, other⟩ := order.2 _ List.mem_cons_self
    cases other
  | free => exact plain order
  | holeSync index saved => exact plain order
  | holeSynced index => exact plain order
  | holePurging index => exact ⟨order.1, NoLog.appends order.2 next⟩

/-- The checkpointer's purge answered. -/
theorem Order.answerPurge {p : Nat}
    (order : Order core durable next (⟨upto, .purge p false⟩ :: calls)) :
    Order core durable next calls := by
  cases core with
  | truncating index => exact ⟨order.1, order.2.2⟩
  | truncated index => exact ⟨order.1, (List.forall_mem_cons.mp order.2).2⟩
  | free => exact ⟨order.1, (List.forall_mem_cons.mp order.2).2⟩
  | holeSync index saved => exact ⟨order.1, (List.forall_mem_cons.mp order.2).2⟩
  | holeSynced index => exact ⟨order.1, (List.forall_mem_cons.mp order.2).2⟩
  | holePurging index => exact order

end Order

theorem Marks.free (marks : s.Marks) (free : s.core = .free) :
    s.durable ≤ s.next ∧ Appends s.next s.calls := by
  have order := marks.order
  rw [free] at order
  exact order

theorem Marks.entry (marks : s.Marks) (loc : Loc) {r : Record} (free : s.core = .free)
    (index : r.index = s.next) : (s.entry loc r).Marks := by
  obtain ⟨durable, appends⟩ := marks.free free
  have pipe : (s.send loc r).Pipe := marks.toPipe.send loc r fun _ => index ▸ ⟨durable, appends⟩
  refine { pipe with next := fun k row held => ?_, order := ?_ }
  · have held : (s.send loc r).log.entries k = some row := held
    rw [log, Node.send, Log.run_concat] at held
    show k < r.index + 1
    rcases entries_after held with ⟨-, -, same⟩ | ⟨held, -⟩
    · exact Nat.lt_succ_of_le (Nat.le_of_eq same.symm)
    · exact Nat.lt_succ_of_lt (index ▸ marks.next k row held)
  · show Order s.core s.durable (r.index + 1) s.calls
    rw [free, index]
    exact ⟨durable.trans (Nat.le_succ _), appends.mono (Nat.le_succ _)⟩

/-- A record other than an entry, and nothing else. -/
theorem Marks.send (marks : s.Marks) (loc : Loc) {r : Record} (other : r.kind ≠ .entry) :
    (s.send loc r).Marks :=
  { marks.toPipe.send loc r fun kind => absurd kind other with
    next := fun k row held => marks.next k row (held_of_send other held).1
    order := marks.order }

theorem Marks.truncate (marks : s.Marks) (loc : Loc) {r : Record} (free : s.core = .free)
    (kind : r.kind = .truncate) : (s.truncate loc r).Marks := by
  obtain ⟨durable, appends⟩ := marks.free free
  have other : r.kind ≠ .entry := by simp [kind]
  have pipe := (marks.toPipe.send loc r fun kind => absurd kind other).call (.truncate r.index)
  refine { pipe with next := fun k row held => ?_, order := ?_ }
  · obtain ⟨held, kept⟩ := held_of_send other held
    have less : k < r.index := by
      rw [Removes, kind] at kept
      exact Nat.not_le.mp kept
    exact Nat.lt_of_lt_of_le (Nat.lt_min.mpr ⟨marks.next k row held, less⟩) (Nat.le_max_right ..)
  · show min s.durable r.index ≤ max s.purged (min s.next r.index) ∧ Waits _ _ _
    exact ⟨by omega, appends.truncate (Nat.le_max_right ..)⟩

theorem Marks.completePurge (marks : s.Marks) (loc : Loc) {r : Record} (kind : r.kind = .purge) :
    (s.completePurge loc r false).Marks := by
  have sent := marks.send loc (by simp [kind] : r.kind ≠ .entry)
  exact { sent.toPipe.call (.purge r.index false) with
    next := sent.next
    order := sent.order.purge r.index }

/-! ## A new process -/

theorem Marks.reopen (s : Node) {rows : List (Loc × Record)} (saved onDisk : Nat) :
    (s.reopen rows rows.length saved onDisk).Marks where
  synced := Nat.le_refl _
  written := Nat.le_refl _
  upto := nofun
  durable := .all rows _
  marks := nofun
  next _ _ held := lt_openMark held
  order := ⟨Nat.le_refl _, nofun⟩

/-! ## Every step -/

theorem Marks.step (marks : s.Marks) {s' : Node} (step : Step AllSynced s s') : s'.Marks := by
  cases step with
  | entry loc r free _ index => exact marks.entry loc free index
  | append free =>
    obtain ⟨durable, appends⟩ := marks.free free
    refine { marks.toPipe.call _ with next := marks.next, order := ?_ }
    show Order s.core _ _ _
    rw [free]
    exact ⟨durable, appends.append⟩
  | note loc r kind => exact marks.send loc (by rcases kind with kind | kind <;> simp [kind])
  | truncate loc r free kind _ => exact marks.truncate loc free kind
  | lower at_ =>
    have order := marks.order
    rw [at_] at order
    exact { marks with
      durable := marks.durable.lower (Nat.min_le_left ..)
      order := ⟨order.1, order.2.appends _⟩ }
  | purge index free _ _ =>
    obtain ⟨durable, appends⟩ := marks.free free
    have le : s.next ≤ max s.next (index + 1) := Nat.le_max_left ..
    refine { marks with
      next := fun k row held => Nat.lt_of_lt_of_le (marks.next k row held) le
      order := ?_ }
    show Order (if s.next ≤ index then .holeSync index s.saved else .free) _ _ _
    split
    · exact ⟨durable.trans le, appends.mono le⟩
    · exact ⟨durable.trans le, appends.mono le⟩
  | holeSynced onDisk at_ _ _ =>
    have order := marks.order
    rw [at_] at order
    exact { marks with order := order }
  | holePurge loc r kind at_ =>
    have sent := marks.send loc (by simp [kind] : r.kind ≠ .entry)
    have order := marks.order
    rw [at_] at order
    exact { sent.toPipe.call (.purge r.index true) with
      next := sent.next
      order := ⟨order.1, order.2.hole r.index⟩ }
  | commit _ _ _ => exact { marks with }
  | write more => exact { marks with
      synced := Nat.le_succ_of_le marks.synced
      written := more }
  | sync => exact { marks with
      synced := Nat.le_refl _
      durable := marks.durable.mono marks.synced }
  | @answerAppend upto mark calls first covered =>
    obtain ⟨rest, kept⟩ := marks.toPipe.answer first
    have here : KeptBelow s.sent s.synced mark :=
      (marks.marks ⟨upto, .append mark⟩ (first ▸ List.mem_cons_self) mark rfl).mono covered
    refine { marks with
      upto := rest
      marks := kept
      durable := fun k row below held => ?_
      order := (first ▸ marks.order).answerAppend }
    rcases Nat.lt_or_ge k s.durable with low | high
    · exact marks.durable k row low held
    · exact here k row (by have : k < max s.durable mark := below; omega) held
  | answerTruncate first covered =>
    obtain ⟨rest, kept⟩ := marks.toPipe.answer first
    exact { marks with
      upto := rest
      marks := kept
      order := (first ▸ marks.order).answerTruncate }
  | answerHolePurge first covered =>
    obtain ⟨rest, kept⟩ := marks.toPipe.answer first
    exact { marks with
      upto := rest
      marks := kept
      order := (first ▸ marks.order).answerHole }
  | answerPurge first covered =>
    obtain ⟨rest, kept⟩ := marks.toPipe.answer first
    exact { marks with
      upto := rest
      marks := kept
      order := (first ▸ marks.order).answerPurge }
  | apply _ _ _ _ _ _ => exact { marks with }
  | flush => exact { marks with }
  | build _ => exact { marks with }
  | install _ _ => exact { marks with }
  | persist _ _ _ => exact { marks with }
  | target _ => exact { marks with }
  | checkpoint _ => exact { marks with }
  | failed _ => exact { marks with }
  | synced _ _ _ _ => exact { marks with }
  | noPurge _ _ => exact { marks with }
  | completePurge loc r kind _ _ => exact { marks.completePurge loc kind with }
  | crash saved all _ =>
    have whole : s.synced = (s.sent.take s.written).length := by
      rw [List.length_take, Nat.min_eq_left marks.written]
      exact all
    rw [whole]
    exact .reopen s saved s.onDisk
  | powerLoss saved log _ => exact .reopen s saved saved

theorem Marks.of_reachable (reachable : Reachable AllSynced s) : s.Marks := by
  induction reachable with
  | refl => exact ⟨⟨Nat.le_refl 0, Nat.le_refl 0, nofun, .all [] 0, nofun⟩, nofun, Nat.le_refl 0, nofun⟩
  | tail _ step ih => exact ih.step step

/-! ## What is kept stays so -/

/-- Truncated or purged by one of the records. -/
def RemovedBy (records : List Record) (k : Nat) : Prop :=
  ∃ r ∈ records, (r.kind = .truncate ∧ r.index ≤ k) ∨ (r.kind = .purge ∧ k ≤ r.index)

/-- One step keeps an entry, or sends a record that removes it. -/
theorem kept_step (marks : s.Marks) {s' : Node} (step : Step AllSynced s s') (k : Nat)
    (row : Loc × Record) :
    ∃ more, s'.history = s.history ++ more ∧
      (KeptFrom s.sent s.synced k row → RemovedBy more k ∨ KeptFrom s'.sent s'.synced k row) := by
  have within : s.synced ≤ s.sent.length := marks.synced.trans marks.written
  -- a step that sends nothing
  have same (keeps : KeptFrom s.sent s.synced k row → KeptFrom s'.sent s'.synced k row)
      (history : s'.history = s.history) :
      ∃ more, s'.history = s.history ++ more ∧
        (KeptFrom s.sent s.synced k row → RemovedBy more k ∨ KeptFrom s'.sent s'.synced k row) :=
    ⟨[], by rw [history, List.append_nil], fun kept => Or.inr (keeps kept)⟩
  -- a step that sends a record
  have sends {loc : Loc} {r : Record}
      (past : r.kind = .entry → KeptFrom s.sent s.synced k row → k < r.index)
      (sent : s'.sent = s.sent ++ [(loc, r)]) (synced : s'.synced = s.synced)
      (history : s'.history = s.history ++ [r]) :
      ∃ more, s'.history = s.history ++ more ∧
        (KeptFrom s.sent s.synced k row → RemovedBy more k ∨ KeptFrom s'.sent s'.synced k row) := by
    refine ⟨[r], history, fun kept => ?_⟩
    rw [sent, synced]
    by_cases removes : Removes r k
    · refine Or.inl ⟨r, List.mem_singleton.mpr rfl, ?_⟩
      rw [Removes] at removes
      cases kind : r.kind with
      | entry =>
        simp only [kind] at removes
        exact absurd (past kind kept) (Nat.not_lt.mpr removes)
      | truncate => exact Or.inl ⟨rfl, by simpa only [kind] using removes⟩
      | purge => exact Or.inr ⟨rfl, by simpa only [kind] using removes⟩
      | vote => simp only [kind] at removes
      | committed => simp only [kind] at removes
    · exact Or.inr (kept.send within removes)
  cases step with
  | entry loc r free _ index =>
    refine sends (fun _ kept => ?_) rfl rfl rfl
    rw [index]
    exact marks.next k row (kept.held within)
  | append _ => exact same id rfl
  | note loc r kind => exact sends (fun entry => by simp [entry] at kind) rfl rfl rfl
  | truncate loc r _ kind _ => exact sends (fun entry => by simp [entry] at kind) rfl rfl rfl
  | lower _ => exact same id rfl
  | purge _ _ _ _ => exact same id rfl
  | holeSynced _ _ _ _ => exact same id rfl
  | holePurge loc r kind _ => exact sends (fun entry => by simp [entry] at kind) rfl rfl rfl
  | commit _ _ _ => exact same id rfl
  | write _ => exact same id rfl
  | sync => exact same (·.mono marks.synced) rfl
  | answerAppend _ _ => exact same id rfl
  | answerTruncate _ _ => exact same id rfl
  | answerHolePurge _ _ => exact same id rfl
  | answerPurge _ _ => exact same id rfl
  | apply _ _ _ _ _ _ => exact same id rfl
  | flush => exact same id rfl
  | build _ => exact same id rfl
  | install _ _ => exact same id rfl
  | persist _ _ _ => exact same id rfl
  | target _ => exact same id rfl
  | checkpoint _ => exact same id rfl
  | failed _ => exact same id rfl
  | synced _ _ _ _ => exact same id rfl
  | noPurge _ _ => exact same id rfl
  | completePurge loc r kind _ _ => exact sends (fun entry => by simp [entry] at kind) rfl rfl rfl
  | crash _ _ _ => exact same (·.take _) rfl
  | powerLoss _ left _ =>
    obtain ⟨j, synced, written, rfl⟩ := left
    refine same (fun kept => ?_) rfl
    show KeptFrom (s.sent.take j) (s.sent.take j).length k row
    rw [List.length_take, Nat.min_eq_left (written.trans marks.written)]
    exact (kept.mono synced).take j

theorem kept_steps (reachable : Reachable AllSynced s) {s' : Node}
    (later : Relation.ReflTransGen (Step AllSynced) s s') {k : Nat} {row : Loc × Record}
    (kept : KeptFrom s.sent s.synced k row) :
    ∃ more, s'.history = s.history ++ more ∧
      (RemovedBy more k ∨ KeptFrom s'.sent s'.synced k row) := by
  induction later with
  | refl => exact ⟨[], (List.append_nil _).symm, Or.inr kept⟩
  | @tail b c before step ih =>
    obtain ⟨more, history, out⟩ := ih
    have marks : b.Marks := .of_reachable (reachable.trans before)
    obtain ⟨last, history', next⟩ := kept_step marks step k row
    have sub : ∀ {records}, records ⊆ more ++ last → RemovedBy records k →
        RemovedBy (more ++ last) k := fun sub ⟨r, mem, removes⟩ => ⟨r, sub mem, removes⟩
    refine ⟨more ++ last, by rw [history', history, List.append_assoc], ?_⟩
    rcases out with removed | kept
    · exact Or.inl (sub (List.subset_append_left ..) removed)
    · exact (next kept).imp_left (sub (List.subset_append_right ..))

/-- An entry below the durable mark is there after any later crash, where it was, unless a record
sent since then has truncated or purged it. -/
theorem durable_mark_kept (reachable : Reachable AllSynced s) {s' : Node}
    (later : Relation.ReflTransGen (Step AllSynced) s s') {k : Nat} {row : Loc × Record}
    (below : k < s.durable) (held : s.log.entries k = some row) {rows : List (Loc × Record)}
    (left : s'.Leaves rows) :
    (Replay.run {} rows).entries[k]? = some row.1 ∨
      RemovedBy (s'.history.drop s.history.length) k := by
  have marks : s.Marks := .of_reachable reachable
  have marks' : s'.Marks := .of_reachable (reachable.trans later)
  obtain ⟨more, history, removed | kept⟩ :=
    kept_steps reachable later (marks.durable k row below held)
  · rw [history, List.drop_left]
    exact Or.inr removed
  · obtain ⟨j, synced, written, rfl⟩ := left
    rw [(agrees_run _).entries, kept j synced (written.trans marks'.written)]
    exact Or.inl rfl

/-! ## A crash of the process before the sync

The first entry is written and not synced when the process crashes. The page cache keeps it, and the
open raises the durable mark past it. -/

def firstEntry : Loc × Record := (⟨0, 0, 0⟩, Wal.bare .entry 0)

/-- The entry is sent and written. -/
def oneWritten : Node :=
  { ({} : Node).entry firstEntry.1 firstEntry.2 with written := 1 }

theorem steps_oneWritten (reopens : Node → Prop) :
    Relation.ReflTransGen (Step reopens) {} oneWritten :=
  .tail (.single (.entry firstEntry.1 firstEntry.2 rfl rfl rfl)) (.write (by decide))

/-- It is synced, and `append` is answered. -/
def oneDurable : Node := { oneWritten with synced := 1, durable := 1 }

theorem steps_oneDurable (reopens : Node → Prop) :
    Relation.ReflTransGen (Step reopens) {} oneDurable := by
  have called : Relation.ReflTransGen (Step reopens) {} (oneWritten.call (.append 1)) :=
    (steps_oneWritten reopens).tail (.append rfl)
  exact (called.tail .sync).tail (.answerAppend rfl (Nat.le_refl 1))

/-- Synced and answered, the entry is there after a loss of power. -/
theorem durable_mark_kept_one :
    Reachable AllSynced oneDurable ∧ 0 < oneDurable.durable ∧
      oneDurable.log.entries 0 = some firstEntry ∧ oneDurable.Leaves [firstEntry] ∧
      ((Replay.run {} [firstEntry]).entries[0]? = some firstEntry.1 ∨
        RemovedBy (oneDurable.history.drop oneDurable.history.length) 0) := by
  have reachable : Reachable AllSynced oneDurable := steps_oneDurable AllSynced
  have left : oneDurable.Leaves [firstEntry] := ⟨1, Nat.le_refl 1, Nat.le_refl 1, rfl⟩
  exact ⟨reachable, Nat.one_pos, rfl, left,
    durable_mark_kept reachable .refl Nat.one_pos rfl left⟩

/-- Not synced, it is below the mark after the open, and a loss of power takes it. -/
theorem crash_then_power_loss_loses_entry :
    ∃ s, Reachable (fun _ => True) s ∧ 0 < s.durable ∧ s.log.entries 0 = some firstEntry ∧
      s.Leaves [] ∧ (Replay.run {} []).entries[0]? = none := by
  have reopened := (steps_oneWritten fun _ => True).tail
    (.crash 0 trivial ⟨Nat.le_refl 0, Nat.le_refl 0⟩)
  refine ⟨_, reopened, ?_, rfl, ⟨0, Nat.le_refl 0, Nat.zero_le _, rfl⟩, rfl⟩
  exact @lt_openMark [firstEntry] 0 firstEntry rfl

end Node

end Fastetcd.Raft
