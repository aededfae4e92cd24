import Fastetcd.Laws.Storage.Snapshot
import Fastetcd.Storage.Flushing

/-!
# What the write-behind engine keeps

The engine holds a prefix of the commits, and the layers hold the commits after a shorter prefix. So
the layers over the engine are all of the commits, whatever of them the engine has already
(`contents_window`). The invariant says that of every state, with what the task that holds the flush
lock has copied or written, what each snapshot being taken has read, and which prefixes a crash may
leave.
-/

namespace Fastetcd.Storage

open Mvcc (Bytes Bound)
open Patch (stacked stacked_append)

/-! ## Batches committed again -/

namespace Db

theorem commitAll_append (db : Db) (a b : List WriteBatch) :
    db.commitAll (a ++ b) = (db.commitAll a).commitAll b :=
  List.foldl_append

theorem commitAll_concat (db : Db) (batches : List WriteBatch) (batch : WriteBatch) :
    db.commitAll (batches ++ [batch]) = (db.commitAll batches).commit batch :=
  List.foldl_concat ..

theorem map_commitAll (db : Db) (batches : List WriteBatch) (table : String) :
    (db.commitAll batches).map table =
      (stacked (batches.map (batchPatch table))).apply (db.map table) := by
  induction batches generalizing db with
  | nil => rfl
  | cons batch batches ih =>
    rw [commitAll, List.foldl_cons, ← commitAll, ih, map_commit, List.map_cons, stacked,
      Patch.apply_atop]

/-- Committing the same batches again changes nothing. -/
theorem commitAll_again (db : Db) (batches : List WriteBatch) :
    (db.commitAll batches).commitAll batches = db.commitAll batches := by
  refine ext_map fun table => ?_
  rw [map_commitAll, map_commitAll, Patch.apply_apply]

end Db

theorem contents_fromBatch (base : Db) (batches : List WriteBatch) :
    OverlaySnapshot.contents ⟨base, batches.map Layer.fromBatch⟩ = base.commitAll batches := by
  refine Db.ext_map fun table => ?_
  rw [OverlaySnapshot.map_contents, Db.map_commitAll, layersPatch, List.map_map]
  congr 2
  exact List.map_congr_left fun batch _ => Layer.patch_fromBatch batch table

/-- Layers over an engine that has some of them already are what the layers end with. -/
theorem contents_window (first : Db) (log : List WriteBatch) {d m e : Nat} (dm : d ≤ m)
    (me : m ≤ e) :
    OverlaySnapshot.contents
        ⟨first.commitAll (log.take m), ((log.drop d).take (e - d)).map Layer.fromBatch⟩ =
      first.commitAll (log.take e) := by
  have before : log.take m = log.take d ++ (log.drop d).take (m - d) := by
    rw [← List.take_add, Nat.add_sub_cancel' dm]
  have window : (log.drop d).take (e - d) =
      (log.drop d).take (m - d) ++ (log.drop m).take (e - m) := by
    have lengths : e - d = (m - d) + (e - m) := by omega
    rw [lengths, List.take_add, List.drop_drop, Nat.add_sub_cancel' dm]
  have whole : log.take e = log.take d ++ (log.drop d).take (e - d) := by
    rw [← List.take_add, Nat.add_sub_cancel' (dm.trans me)]
  rw [contents_fromBatch, before, whole, window, Db.commitAll_append, Db.commitAll_append,
    Db.commitAll_append, Db.commitAll_append, Db.commitAll_again]

/-! ## The invariant -/

namespace WriteBehind

/-- How many commits have left the layers. -/
def dropped (s : WriteBehind) : Nat := s.log.length - s.layers.length

/-- The commits that must be in the engine once the task has flushed. -/
def need (s : WriteBehind) : Task → Nat
  | .syncSecond began => began
  | .call => s.log.length
  | _ => 0

/-- What holds of a task waiting for the flush lock. -/
def Waits (returned : Nat) : Task → Prop
  | .call => False
  | .syncFirst began => began ≤ returned
  | .syncSecond began => began ≤ returned
  | _ => True

/-- What holds of the task with the flush lock. -/
def Holds (returned : Nat) (call : Option Call) : Task → Prop
  | .call => call.isSome
  | task => Waits returned task

/-- What the holder of the flush lock has done, the engine holding the first `m` commits. -/
def At (s : WriteBehind) (m : Nat) : Option (Task × Phase) → Prop
  | none => True
  | some (_, .locked) => True
  | some (task, .writing list) =>
    list <+: s.layers ∧ m ≤ s.dropped + list.length ∧ s.need task ≤ s.dropped + list.length
  | some (task, .written list) =>
    list <+: s.layers ∧ m = s.dropped + list.length ∧ s.need task ≤ m
  | some (task, .flushed) => s.need task ≤ s.dropped
  | some (task, .committed) => task = .call ∧ m = s.log.length

/-- The engine holds the first `m` commits. -/
structure Current (first : Db) (s : WriteBehind) (m : Nat) : Prop where
  kept_le : s.kept ≤ m
  dropped_le : s.dropped ≤ m
  le_log : m ≤ s.log.length
  base_eq : s.base first = first.commitAll (s.log.take m)
  holder : s.At m s.holder

/-- A snapshot being taken or taken reads as a prefix of the commits, with all that had returned. -/
def Reads (first : Db) (log : List WriteBatch) (layers : List Layer) : Reader → Prop
  | .idle => True
  | .asked n => n ≤ log.length
  | .reading n => n ≤ log.length
  | .based n base => ∃ m, n ≤ m ∧ m ≤ log.length ∧
      OverlaySnapshot.contents ⟨base, layers⟩ = first.commitAll (log.take m)
  | .got n snapshot => ∃ m, n ≤ m ∧ m ≤ log.length ∧
      snapshot.contents = first.commitAll (log.take m)

structure Inv (first : Db) (s : WriteBehind) : Prop where
  fewer : s.layers.length ≤ s.log.length
  layered : s.layers = (s.log.drop s.dropped).map Layer.fromBatch
  counted : s.bytes = (s.layers.map Layer.bytes).sum
  returned_le : s.returned ≤ s.log.length
  waits : ∀ task ∈ s.waiting, Waits s.returned task
  presyncs : ∀ began ∈ s.presyncing, began ≤ s.returned
  holds : ∀ task phase, s.holder = some (task, phase) → Holds s.returned s.call task
  current : ∃ m, Current first s m
  crash : ∀ n, s.durable ≤ n → n ≤ s.engine.length →
    ∃ m, s.kept ≤ m ∧ m ≤ s.log.length ∧
      first.commitAll (s.engine.take n) = first.commitAll (s.log.take m)
  reads : ∀ id, Reads first s.log s.layers (s.readers id)

variable {first : Db} {s : WriteBehind} {log : List WriteBatch} {layers : List Layer}

theorem Reads.append {reader : Reader} (reads : Reads first log layers reader)
    (more : List WriteBatch) : Reads first (log ++ more) layers reader := by
  have longer : log.length ≤ (log ++ more).length := by simp
  cases reader with
  | idle => trivial
  | asked n => exact Nat.le_trans reads longer
  | reading n => exact Nat.le_trans reads longer
  | based n base =>
    obtain ⟨m, nm, ml, same⟩ := reads
    exact ⟨m, nm, ml.trans longer, by rw [same, List.take_append_of_le_length ml]⟩
  | got n snapshot =>
    obtain ⟨m, nm, ml, same⟩ := reads
    exact ⟨m, nm, ml.trans longer, by rw [same, List.take_append_of_le_length ml]⟩

/-- Whoever does not hold the layers' lock does not see the layers change. -/
theorem Reads.free {reader : Reader} (reads : Reads first log layers reader)
    (free : reader.holds = false) (layers' : List Layer) : Reads first log layers' reader := by
  cases reader with
  | reading n => cases free
  | based n base => cases free
  | idle | asked n | got n snapshot => exact reads

theorem Waits.mono {a b : Nat} (le : a ≤ b) {task : Task} (waits : Waits a task) : Waits b task := by
  cases task with
  | call => exact waits
  | syncFirst began => exact Nat.le_trans waits le
  | syncSecond began => exact Nat.le_trans waits le
  | flush | defragment => trivial

theorem Waits.holds {returned : Nat} {task : Task} (waits : Waits returned task)
    (call : Option Call) : Holds returned call task := by
  cases task with
  | call => exact waits.elim
  | flush | syncFirst _ | syncSecond _ | defragment => exact waits

theorem Inv.new (first : Db) : Inv first new where
  fewer := Nat.le_refl 0
  layered := rfl
  counted := rfl
  returned_le := Nat.le_refl 0
  waits := nofun
  presyncs := nofun
  holds := nofun
  current := ⟨0, Nat.le_refl 0, Nat.le_refl 0, Nat.le_refl 0, rfl, trivial⟩
  crash := fun n _ le => ⟨0, Nat.le_refl 0, Nat.le_refl 0, by rw [Nat.le_zero.mp le]; rfl⟩
  reads := fun _ => trivial

/-- The layers over the engine are all of the commits. -/
theorem Inv.contents_eq (inv : Inv first s) :
    OverlaySnapshot.contents ⟨s.base first, s.layers⟩ = first.commitAll s.log := by
  obtain ⟨m, current⟩ := inv.current
  have whole : s.log.drop s.dropped = (s.log.drop s.dropped).take (s.log.length - s.dropped) := by
    rw [List.take_of_length_le (by rw [List.length_drop])]
  rw [current.base_eq, inv.layered, whole,
    contents_window first _ current.dropped_le current.le_log, List.take_length]

/-- A state whose engine has one more commit, and holds more of the commits than before. -/
theorem Inv.crash_concat (inv : Inv first s) {batch : WriteBatch} {log : List WriteBatch} {m : Nat}
    (grown : s.log <+: log) (kept : s.kept ≤ m) (le : m ≤ log.length)
    (base : first.commitAll (s.engine ++ [batch]) = first.commitAll (log.take m)) (n : Nat)
    (durable : s.durable ≤ n) :
    ∃ m, s.kept ≤ m ∧ m ≤ log.length ∧
      first.commitAll ((s.engine ++ [batch]).take n) = first.commitAll (log.take m) := by
  obtain ⟨more, rfl⟩ := grown
  rcases Nat.lt_or_ge s.engine.length n with new | old
  · refine ⟨m, kept, le, ?_⟩
    rw [List.take_of_length_le (by simp; omega), base]
  · obtain ⟨m', kept', le', same⟩ := inv.crash n durable old
    refine ⟨m', kept', by simp; omega, ?_⟩
    rw [List.take_append_of_le_length old, same, List.take_append_of_le_length le']

/-! ## Steps -/

/-- A batch pushed as a layer, whether its commit returns or goes on to flush. -/
theorem Inv.pushed (inv : Inv first s) (batch : WriteBatch) (idle : s.call = none)
    (free : ∀ id, (s.readers id).holds = false) (call : Option Call) {returned : Nat}
    (later : s.returned ≤ returned) (le : returned ≤ s.log.length + 1) :
    Inv first { s with
      layers := s.layers ++ [Layer.fromBatch batch]
      bytes := s.bytes + (Layer.fromBatch batch).bytes
      log := s.log ++ [batch]
      call := call
      returned := returned } := by
  have same : (s.log ++ [batch]).length - (s.layers ++ [Layer.fromBatch batch]).length =
      s.log.length - s.layers.length := by simp
  have apart (phase : Phase) : s.holder ≠ some (.call, phase) := fun held => by
    simpa [idle, Holds] using inv.holds .call phase held
  obtain ⟨m, current⟩ := inv.current
  refine
    { fewer := by simpa using inv.fewer
      layered := ?_
      counted := by simp [inv.counted]
      returned_le := by simpa using le
      waits := fun task mem => (inv.waits task mem).mono later
      presyncs := fun began mem => (inv.presyncs began mem).trans later
      holds := fun task phase held => ?_
      current := ⟨m, current.kept_le, ?_, ?_, ?_, ?_⟩
      crash := fun n durable bound => ?_
      reads := fun id => ((inv.reads id).free (free id) _).append [batch] }
  · simp only [dropped, same]
    rw [List.drop_append_of_le_length (Nat.sub_le ..), List.map_append, List.map_singleton]
    exact congrArg (· ++ _) inv.layered
  · have holds := inv.holds task phase held
    cases task with
    | call => exact absurd held (apart phase)
    | syncFirst began => exact Nat.le_trans holds later
    | syncSecond began => exact Nat.le_trans holds later
    | flush | defragment => trivial
  · simpa only [dropped, same] using current.dropped_le
  · exact current.le_log.trans (by simp)
  · rw [List.take_append_of_le_length current.le_log]
    exact current.base_eq
  · -- The holder is not a commit, so it needs no more than before.
    have held := current.holder
    have need {task : Task} {phase : Phase} (h : s.holder = some (task, phase)) (t : WriteBehind) :
        t.need task = s.need task := by
      cases task with
      | call => exact absurd h (apart phase)
      | _ => rfl
    revert held
    show s.At m s.holder → At _ m s.holder
    rcases h : s.holder with _ | ⟨task, phase⟩
    · exact id
    · have needs := need h
      cases phase with
      | locked => exact id
      | writing list =>
        simp only [At, needs, dropped, same]
        exact fun ⟨copied, rest⟩ => ⟨copied.trans (List.prefix_append ..), rest⟩
      | written list =>
        simp only [At, needs, dropped, same]
        exact fun ⟨copied, rest⟩ => ⟨copied.trans (List.prefix_append ..), rest⟩
      | flushed => simp only [At, needs, dropped, same]; exact id
      | committed => exact fun ⟨called, _⟩ => absurd (called ▸ h) (apart _)
  · obtain ⟨m, kept, le, same⟩ := inv.crash n durable bound
    exact ⟨m, kept, le.trans (by simp), by rw [same, List.take_append_of_le_length le]⟩

theorem Inv.push {maxBytes : Nat} (inv : Inv first s) (batch : WriteBatch) (idle : s.call = none)
    (free : ∀ id, (s.readers id).holds = false) : Inv first (s.push maxBytes batch) := by
  rw [WriteBehind.push]
  split
  · exact inv.pushed batch idle free _ (Nat.le_refl _) (inv.returned_le.trans (Nat.le_succ _))
  · refine inv.pushed batch idle free _ ?_ ?_
    · simpa using inv.returned_le.trans (Nat.le_succ _)
    · simp

/-- A commit in progress returns, the flush lock being free. -/
theorem Inv.returns (inv : Inv first s) (free : s.holder = none) : Inv first s.returns := by
  have later := inv.returned_le
  obtain ⟨m, current⟩ := inv.current
  exact { inv with
    returned_le := Nat.le_refl _
    waits := fun task mem => (inv.waits task mem).mono later
    presyncs := fun began mem => (inv.presyncs began mem).trans later
    holds := fun task phase held => by
      rw [WriteBehind.returns, free] at held
      cases held
    current := ⟨m, { current with
      holder := by
        rw [WriteBehind.returns, free]
        trivial }⟩ }

/-- The flush lock is released. -/
theorem Inv.release (inv : Inv first s) : Inv first { s with holder := none } := by
  obtain ⟨m, current⟩ := inv.current
  exact { inv with
    holds := nofun
    current := ⟨m, { current with holder := trivial }⟩ }

theorem Inv.fails (inv : Inv first s) (task : Task) : Inv first (s.fails task) := by
  cases task with
  | call => exact inv.release.returns rfl
  | flush | syncFirst _ | syncSecond _ | defragment => exact inv.release

/-- What is left of a list without one of its elements. -/
theorem mem_of_mem_without {α : Type} {all before after : List α} {x y : α}
    (split : all = before ++ x :: after) (mem : y ∈ before ++ after) : y ∈ all := by
  rw [split]
  rcases List.mem_append.mp mem with mem | mem
  · exact List.mem_append_left _ mem
  · exact List.mem_append_right _ (List.mem_cons_of_mem _ mem)

theorem Inv.lock (inv : Inv first s) {task : Task} {before after : List Task}
    (waits : s.waiting = before ++ task :: after) :
    Inv first { s with waiting := before ++ after, holder := some (task, .locked) } := by
  obtain ⟨m, current⟩ := inv.current
  exact { inv with
    waits := fun other mem => inv.waits other (mem_of_mem_without waits mem)
    holds := fun other phase held => by
      cases held
      exact (inv.waits task (by simp [waits])).holds _
    current := ⟨m, { current with holder := trivial }⟩ }

theorem Inv.lockCall (inv : Inv first s) (called : s.call.isSome) :
    Inv first { s with holder := some (.call, .locked) } := by
  obtain ⟨m, current⟩ := inv.current
  exact { inv with
    holds := fun other phase held => by
      cases held
      exact called
    current := ⟨m, { current with holder := trivial }⟩ }

theorem Inv.need_le (inv : Inv first s) {task : Task} {phase : Phase}
    (held : s.holder = some (task, phase)) : s.need task ≤ s.log.length := by
  have holds := inv.holds task phase held
  cases task with
  | call => exact Nat.le_refl _
  | syncSecond began => exact Nat.le_trans holds inv.returned_le
  | flush | syncFirst _ | defragment => exact Nat.zero_le _

theorem Inv.copyLayers (inv : Inv first s) {task : Task} (at_ : s.holder = some (task, .locked)) :
    Inv first (s.copyLayers task) := by
  obtain ⟨m, current⟩ := inv.current
  have needs := inv.need_le at_
  have all : s.dropped + s.layers.length = s.log.length := by
    have fewer := inv.fewer
    rw [dropped]
    omega
  refine { inv with
    holds := fun other phase held => ?_
    current := ⟨m, { current with holder := ?_ }⟩ }
  · cases held
    exact inv.holds task .locked at_
  · show s.At m (some (task, if s.layers.isEmpty then .flushed else .writing s.layers))
    split
    · next none =>
      show s.need task ≤ s.dropped
      rw [List.isEmpty_iff.mp none, List.length_nil, Nat.add_zero] at all
      omega
    · exact ⟨List.prefix_rfl, by have le := current.le_log; omega, by omega⟩

/-- The engine's commit of copied layers takes it to where the copy ends. -/
theorem Inv.base_written (inv : Inv first s) {list : List Layer} {m : Nat}
    (current : Current first s m) (copied : list <+: s.layers) (ahead : m ≤ s.dropped + list.length) :
    first.commitAll (s.engine ++ [list.flatMap Layer.toOps]) =
      first.commitAll (s.log.take (s.dropped + list.length)) := by
  have copy : list = ((s.log.drop s.dropped).take list.length).map Layer.fromBatch := by
    rw [List.map_take, ← inv.layered]
    exact List.prefix_iff_eq_take.mp copied
  have window := contents_window first s.log current.dropped_le ahead
  rw [Nat.add_sub_cancel_left, ← copy, ← current.base_eq] at window
  rw [Db.commitAll_concat]
  exact window

theorem Inv.writeLayers (inv : Inv first s) {task : Task} {list : List Layer}
    (at_ : s.holder = some (task, .writing list)) : Inv first (s.writeLayers task list) := by
  obtain ⟨m, current⟩ := inv.current
  obtain ⟨copied, ahead, needs⟩ : list <+: s.layers ∧ m ≤ s.dropped + list.length ∧
      s.need task ≤ s.dropped + list.length := by
    have held := current.holder
    rwa [at_] at held
  have le : s.dropped + list.length ≤ s.log.length := by
    have fewer := inv.fewer
    have shorter := copied.length_le
    rw [dropped]
    omega
  have base := inv.base_written current copied ahead
  refine { inv with
    holds := fun other phase held => ?_
    current := ⟨s.dropped + list.length, ?_⟩
    crash := fun n durable _ =>
      inv.crash_concat List.prefix_rfl (current.kept_le.trans ahead) le base n durable }
  · cases held
    exact inv.holds task _ at_
  · exact ⟨current.kept_le.trans ahead, Nat.le_add_right .., le, base, copied, rfl, needs⟩

theorem Inv.dropLayers (inv : Inv first s) {task : Task} {list : List Layer}
    (at_ : s.holder = some (task, .written list)) (free : ∀ id, (s.readers id).holds = false) :
    Inv first (s.dropLayers task list) := by
  obtain ⟨m, current⟩ := inv.current
  obtain ⟨copied, there, needs⟩ : list <+: s.layers ∧ m = s.dropped + list.length ∧
      s.need task ≤ m := by
    have held := current.holder
    rwa [at_] at held
  have shorter := copied.length_le
  have fewer := inv.fewer
  have moved : s.log.length - (s.layers.drop list.length).length = s.dropped + list.length := by
    rw [List.length_drop, dropped]
    omega
  refine { inv with
    fewer := ?_
    layered := ?_
    counted := ?_
    holds := fun other phase held => ?_
    current := ⟨m, current.kept_le, ?_, current.le_log, current.base_eq, ?_⟩
    reads := fun id => (inv.reads id).free (free id) _ }
  · show (s.layers.drop list.length).length ≤ s.log.length
    rw [List.length_drop]
    omega
  · show s.layers.drop list.length =
      (s.log.drop (s.log.length - (s.layers.drop list.length).length)).map Layer.fromBatch
    rw [moved, ← List.drop_drop, List.map_drop, ← inv.layered]
  · show s.bytes - (list.map Layer.bytes).sum = ((s.layers.drop list.length).map Layer.bytes).sum
    obtain ⟨rest, whole⟩ := copied
    rw [inv.counted, ← whole, List.drop_left, List.map_append, List.sum_append]
    omega
  · cases held
    exact inv.holds task _ at_
  · exact le_of_eq (moved.trans there.symm)
  · show s.need task ≤ s.log.length - (s.layers.drop list.length).length
    rw [moved, ← there]
    exact needs

/-- Every engine commit becomes durable, and with them what the engine holds. -/
theorem Inv.synced (inv : Inv first s) {m kept : Nat} (current : Current first s m)
    (enough : kept ≤ m) :
    Inv first { s with holder := none, durable := s.engine.length, kept := kept } := by
  refine { inv.release with
    current := ⟨m, { current with kept_le := enough, holder := trivial }⟩
    crash := fun n durable bound => ⟨m, enough, current.le_log, ?_⟩ }
  show first.commitAll (s.engine.take n) = first.commitAll (s.log.take m)
  rw [List.take_of_length_le durable]
  exact current.base_eq

theorem Inv.finish (inv : Inv first s) {task : Task} (at_ : s.holder = some (task, .flushed)) :
    Inv first (s.finish task) := by
  obtain ⟨m, current⟩ := inv.current
  have needs : s.need task ≤ s.dropped := by
    have held := current.holder
    rwa [at_] at held
  cases task with
  | call => exact inv.release.returns rfl
  | flush => exact inv.release
  | defragment => exact inv.release
  | syncFirst began =>
    refine { inv.release with
      current := ⟨m, { current with holder := trivial }⟩
      presyncs := fun other mem => ?_ }
    rcases List.mem_cons.mp mem with rfl | mem
    · exact inv.holds (.syncFirst other) .flushed at_
    · exact inv.presyncs other mem
  | syncSecond began =>
    exact inv.synced current (max_le current.kept_le (Nat.le_trans needs current.dropped_le))

theorem Inv.applyBatch (inv : Inv first s) {batch : WriteBatch}
    (at_ : s.holder = some (.call, .flushed)) : Inv first (s.applyBatch batch) := by
  obtain ⟨m, current⟩ := inv.current
  have needs : s.log.length ≤ s.dropped := by
    have held := current.holder
    rwa [at_] at held
  -- Nothing is layered, so the batch goes on top of all commits.
  have there : m = s.log.length := Nat.le_antisymm current.le_log (needs.trans current.dropped_le)
  have empty : s.layers = [] := by
    rw [inv.layered, List.drop_eq_nil_of_le needs, List.map_nil]
  have base : first.commitAll (s.engine ++ [batch]) =
      first.commitAll ((s.log ++ [batch]).take (s.log.length + 1)) := by
    rw [List.take_of_length_le (by simp), Db.commitAll_concat, Db.commitAll_concat]
    have same := current.base_eq
    rw [there, List.take_length] at same
    exact congrArg (Db.commit · batch) same
  have kept : s.kept ≤ s.log.length + 1 := current.kept_le.trans (there ▸ Nat.le_succ _)
  refine { inv with
    fewer := ?_
    layered := ?_
    returned_le := ?_
    holds := fun other phase held => ?_
    current := ⟨s.log.length + 1, kept, ?_, ?_, base, rfl, ?_⟩
    crash := fun n durable _ => inv.crash_concat (List.prefix_append ..) kept ?_ base n durable
    reads := fun id => (inv.reads id).append [batch] }
  · show s.layers.length ≤ (s.log ++ [batch]).length
    simp [empty]
  · show s.layers =
      ((s.log ++ [batch]).drop ((s.log ++ [batch]).length - s.layers.length)).map Layer.fromBatch
    rw [empty, List.length_nil, Nat.sub_zero, List.drop_length, List.map_nil]
  · show s.returned ≤ (s.log ++ [batch]).length
    have le := inv.returned_le
    simp
    omega
  · cases held
    exact inv.holds .call .flushed at_
  · show (s.log ++ [batch]).length - s.layers.length ≤ s.log.length + 1
    simp
  · show s.log.length + 1 ≤ (s.log ++ [batch]).length
    simp
  · show s.log.length + 1 = (s.log ++ [batch]).length
    simp
  · simp

theorem Inv.finishDurable (inv : Inv first s) (at_ : s.holder = some (.call, .committed)) :
    Inv first s.finishDurable := by
  obtain ⟨m, current⟩ := inv.current
  have there : m = s.log.length := by
    have held := current.holder
    rw [at_] at held
    exact held.2
  exact (inv.synced current (there ▸ Nat.le_refl _)).returns rfl

theorem Inv.setReader (inv : Inv first s) (id : Nat) {reader : Reader}
    (reads : Reads first s.log s.layers reader) : Inv first (s.setReader id reader) := by
  obtain ⟨m, current⟩ := inv.current
  refine { inv with current := ⟨m, { current with }⟩, reads := fun other => ?_ }
  show Reads first s.log s.layers (Function.update s.readers id reader other)
  by_cases same : other = id
  · rw [same, Function.update_self]
    exact reads
  · rw [Function.update_of_ne same]
    exact inv.reads other

theorem Inv.wait (inv : Inv first s) {task : Task} (waits : Waits s.returned task) :
    Inv first { s with waiting := task :: s.waiting } := by
  obtain ⟨m, current⟩ := inv.current
  exact { inv with
    current := ⟨m, { current with }⟩
    waits := fun other mem => by
      rcases List.mem_cons.mp mem with rfl | mem
      · exact waits
      · exact inv.waits other mem }

theorem Inv.unsync (inv : Inv first s) {began : Nat} {before after : List Nat}
    (runs : s.presyncing = before ++ began :: after) :
    Inv first { s with presyncing := before ++ after } := by
  obtain ⟨m, current⟩ := inv.current
  exact { inv with
    current := ⟨m, { current with }⟩
    presyncs := fun other mem => inv.presyncs other (mem_of_mem_without runs mem) }

theorem Inv.step {maxBytes : Nat} {t : WriteBehind} (inv : Inv first s)
    (step : Step first maxBytes s t) : Inv first t := by
  obtain ⟨m, current⟩ := inv.current
  cases step with
  | push batch idle free => exact inv.push batch idle free
  | begin batch idle =>
    refine { inv with current := ⟨m, { current with }⟩, holds := fun task phase held => ?_ }
    have holds := inv.holds task phase held
    cases task with
    | call => rfl
    | flush | syncFirst _ | syncSecond _ | defragment => exact holds
  | flush => exact inv.wait trivial
  | defragment => exact inv.wait trivial
  | sync => exact inv.wait (Nat.le_refl s.returned)
  | lock free waits => exact inv.lock waits
  | lockCall free called => exact inv.lockCall called
  | copyLayers at_ => exact inv.copyLayers at_
  | writeLayers at_ => exact inv.writeLayers at_
  | dropLayers at_ free => exact inv.dropLayers at_ free
  | fails at_ => exact inv.fails _
  | finish at_ other => exact inv.finish at_
  | applyBatch at_ called => exact inv.applyBatch at_
  | finishDurable at_ => exact inv.finishDurable at_
  | presynced runs => exact (inv.unsync runs).wait (inv.presyncs _ (by simp [runs]))
  | presyncFails runs => exact inv.unsync runs
  | ask at_ => exact inv.setReader _ inv.returned_le
  | @readLock id n at_ =>
    have reads := inv.reads id
    rw [at_] at reads
    exact inv.setReader _ reads
  | @readBase id n at_ =>
    have reads := inv.reads id
    rw [at_] at reads
    refine inv.setReader _ ⟨s.log.length, reads, Nat.le_refl _, ?_⟩
    rw [inv.contents_eq, List.take_length]
  | readFails at_ => exact inv.setReader _ trivial
  | @readLayers id n base at_ =>
    have reads := inv.reads id
    rw [at_] at reads
    exact inv.setReader _ reads

theorem Reachable.inv {maxBytes : Nat} (run : Reachable first maxBytes s) : Inv first s := by
  induction run with
  | new => exact Inv.new first
  | step _ step ih => exact ih.step step

/-! ## Guarantees -/

/-- One put, returned. -/
def onePut : WriteBehind := new.push 1024 [.put "t" [1] [2]]

theorem onePut_reachable : Reachable (fun _ => ∅) 1024 onePut :=
  .step .new (.push _ rfl fun _ => rfl)

end WriteBehind

end Fastetcd.Storage
