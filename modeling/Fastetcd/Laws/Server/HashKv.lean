import Fastetcd.Laws.Raft.Replaying
import Fastetcd.Server.HashKv

/-!
# When hashes of members can be compared

Until the next compaction a store only adds records, all of later revisions (`Grows`). So two
snapshots of one log hold the same records up to a revision that both have reached, if they have
the same compactions.
-/

namespace Fastetcd.Mvcc

open Reference Replay Std

/-! ## A store keeps its records until it compacts -/

section

variable {s t u : Store}

/-- From `s` to `t` no record is lost and none is added at a revision of `s`, unless records were
compacted. -/
structure Grows (s t : Store) : Prop where
  compact : s.writeState.compactRev ≤ t.writeState.compactRev
  current : t.writeState.compactRev = s.writeState.compactRev →
    s.writeState.currentRev ≤ t.writeState.currentRev
  kept : t.writeState.compactRev = s.writeState.compactRev → ∀ {key rev},
    rev.main ≤ s.writeState.currentRev →
      t.engine.kv[KvKey.mk key rev]? = s.engine.kv[KvKey.mk key rev]?

theorem Grows.refl (s : Store) : Grows s s :=
  ⟨le_rfl, fun _ => le_rfl, fun _ _ _ _ => rfl⟩

theorem Grows.trans (first : Grows s t) (second : Grows t u) : Grows s u := by
  have both (same : u.writeState.compactRev = s.writeState.compactRev) :
      t.writeState.compactRev = s.writeState.compactRev ∧
        u.writeState.compactRev = t.writeState.compactRev := by
    have := first.compact
    have := second.compact
    omega
  refine ⟨first.compact.trans second.compact, fun same => ?_, fun same key rev old => ?_⟩
  · exact (first.current (both same).1).trans (second.current (both same).2)
  · rw [second.kept (both same).2 (old.trans (first.current (both same).1)),
      first.kept (both same).1 old]

theorem getElem?_kv_writes_of_ne {C : Content} {ws : List Write} {key : Bytes} {rev : Revision}
    (other : ∀ w ∈ ws, w.rev ≠ rev) :
    (C.writes ws).kv[KvKey.mk key rev]? = C.kv[KvKey.mk key rev]? := by
  induction ws generalizing C with
  | nil => rfl
  | cons w ws ih =>
    rw [List.forall_mem_cons] at other
    rw [Content.writes_cons, ih other.2, Content.getElem?_kv_write,
      if_neg fun same => other.1 same.2]

theorem Grows.same (content : t.content = s.content)
    (revs : t.writeState.revs = s.writeState.revs) : Grows s t := by
  have compact : t.writeState.compactRev = s.writeState.compactRev := congrArg Revs.compact revs
  have current : t.writeState.currentRev = s.writeState.currentRev := congrArg Revs.current revs
  have kv : t.engine.kv = s.engine.kv := congrArg Content.kv content
  exact ⟨compact.ge, fun _ => current.ge, fun _ _ _ _ => by rw [kv]⟩

theorem Move.grows {effects : List Effect} {batches : List EventBatch} (inv : s.Inv)
    (move : Move s effects batches t) : Grows s t := by
  cases move with
  | quiet same => exact .same same.content same.revs
  | @wrote effects ws t wrote effected =>
    refine ⟨wrote.compact.ge, fun _ => ?_, fun _ key rev old => ?_⟩
    · rw [wrote.current]
      split <;> omega
    · have kv : t.engine.kv = (s.content.writes ws).kv := congrArg Content.kv wrote.content
      rw [kv]
      refine getElem?_kv_writes_of_ne fun w mem same => ?_
      have later := wrote.revs w mem
      rw [same] at later
      omega
  | compacted positive later reached =>
    exact ⟨later.le, fun same => absurd same later.ne', fun same => absurd same later.ne'⟩
  | reopened => exact .same (content_open inv) (readWriteState_engine inv)

theorem Moves.grows {effects : List Effect} {batches : List EventBatch} (inv : s.Inv)
    (moves : Moves s effects batches t) : Grows s t := by
  induction moves with
  | none => exact .refl s
  | tail moves move ih => exact ih.trans (move.grows (moves.inv inv))

theorem Step.grows {effects : List Effect} (inv : s.Inv) (step : Step s effects t) : Grows s t :=
  (step.moves inv).grows inv

end

end Fastetcd.Mvcc

namespace Fastetcd.Raft

open Mvcc Std

section

variable {s : Store}

theorem applyRequest_grows (inv : s.Inv) (i : Nat) (entry : FastetcdLogEntry) :
    Grows s (applyRequest s i true entry).2 := by
  cases entry with
  | apply ms =>
    rw [applyRequest, responding_snd]
    exact (Mvcc.Step.apply ms true).grows inv
  | txn compares success failure =>
    rw [applyRequest, responding_snd]
    exact (Mvcc.Step.txn compares success failure true).grows inv
  | compact rev =>
    rw [applyRequest, responding_snd]
    exact (Mvcc.Step.compact rev true).grows inv
  | leaseGrant id ttlSecs nowUnix =>
    rw [applyRequest, responding_snd]
    exact (Mvcc.Step.leaseGrant id ttlSecs nowUnix true).grows inv
  | leaseRevoke id =>
    rw [applyRequest, responding_snd]
    exact (Mvcc.Step.leaseRevoke id true).grows inv
  | leaseKeepAlive id nowUnix =>
    rw [applyRequest, responding_snd]
    exact (Mvcc.Step.leaseKeepalive id nowUnix true).grows inv
  | auth op =>
    rw [applyRequest, responding_snd]
    exact (Mvcc.Step.auth op true).grows inv
  | clusterId id =>
    have grows := (Mvcc.Step.clusterId id true).grows inv
    rw [applyRequest]
    split
    · rename_i result
      rw [result] at grows
      exact grows
    · rename_i result
      rw [result] at grows
      exact grows
  | noop | batch => exact .refl s

theorem applyData_grows (inv : s.Inv) (i : Nat) (entry : FastetcdLogEntry) :
    Grows s (applyData s i true entry).2 := by
  have grows := applyRequest_grows inv i entry
  rw [applyData]
  generalize applyRequest s i true entry = a at grows
  obtain ⟨answer, t⟩ := a
  rcases answer with (e | message) | response
  · dsimp only
    split <;> exact grows
  · exact grows
  · exact grows

theorem applyAll_grows (inv : s.Inv) (stored : s.Stored) (work : List (Nat × FastetcdLogEntry)) :
    Grows s (applyAll s work).2 := by
  induction work generalizing s with
  | nil => exact .refl s
  | cons unit work ih =>
    obtain ⟨i, entry⟩ := unit
    have acts := applyData_acts inv stored i entry
    have grows := applyData_grows inv i entry
    rw [applyAll]
    split
    · rename_i result
      rw [result] at grows
      exact grows
    · rename_i result
      rw [result] at grows acts
      rw [prepend_snd]
      exact grows.trans (ih acts.inv acts.stored)

/-- A member that has done more of the log has grown. -/
theorem Holds.grows {log : CommittedLog} {s u : Store} {p q : Position} (mine : Holds log s p)
    (theirs : Holds log u q) (earlier : log.done p <+: log.done q) : Grows s u := by
  obtain ⟨responses, v, worked, same⟩ := mine
  obtain ⟨_, w, worked', same'⟩ := theirs
  obtain ⟨rest, whole⟩ := earlier
  obtain ⟨inv, stored⟩ := start_keeps (log.done p)
  rw [worked] at inv stored
  have grows := applyAll_grows inv stored rest
  have later : (applyAll v rest).2 = w := by
    rw [← whole, applyAll_append, worked] at worked'
    rw [← prepend_snd responses]
    exact congrArg Prod.snd worked'
  rw [later] at grows
  have kv : s.engine.kv = v.engine.kv := congrArg (fun r : Replica => r.data.kv) same
  have kv' : u.engine.kv = w.engine.kv := congrArg (fun r : Replica => r.data.kv) same'
  have state := state_of_replica same
  have state' := state_of_replica same'
  refine ⟨?_, ?_, ?_⟩
  · rw [state, state']
    exact grows.compact
  · rw [state, state']
    exact grows.current
  · rw [state, state', kv, kv']
    exact grows.kept

end

end Fastetcd.Raft

namespace Fastetcd.Server

open Mvcc Raft Std

/-! ## Hashes of one log -/

/-- Up to which revision a call hashes the records of a snapshot at `current`. -/
def hashedUpTo (revision current : Int) : Int :=
  if revision > 0 then min revision current else current

/-- The records hashed are those up to the revision in the answer. -/
def Covered (snap : Tables) (current revision : Int) : Prop :=
  hashedUpTo revision (snap.metaRows.currentRev.getD 0) = hashedUpTo revision current

section

variable {s t : Store} {revision : Int}

def upTo (rev : Int) (kv : Table KvKey KvRecord) : Table KvKey KvRecord :=
  kv.filter fun k _ => decide (k.rev.main ≤ rev)

/-- The records of a store say their own revision, which it has reached. -/
theorem hashedRows_eq (inv : s.Inv) : hashedRows s.engine revision =
    (upTo (hashedUpTo revision s.writeState.currentRev) s.engine.kv).toList := by
  have tables : upTo (hashedUpTo revision s.writeState.currentRev) s.engine.kv =
      s.engine.kv.filter fun _ rec => !(revision > 0 && rec.modRevision > revision) := by
    refine ExtTreeMap.ext_getElem? fun ⟨key, rev⟩ => ?_
    rw [upTo, ExtTreeMap.getElem?_filter', ExtTreeMap.getElem?_filter']
    cases held : s.engine.kv[KvKey.mk key rev]? with
    | none => rfl
    | some rec =>
      have named := (inv.content.rows key rev rec.deleted).mpr (congrArg (Option.map _) held)
      have reached := (inv.settled key _ named).2
      have own := (inv.content.record held).2
      refine congrArg (fun b => if b = true then some rec else none) ?_
      dsimp only at reached ⊢
      rw [own, hashedUpTo, Bool.eq_iff_iff]
      split <;> simp <;> omega
  rw [tables, ExtTreeMap.toList_filter]
  rfl

/-- Up to a revision of the first, both hold the same records. -/
theorem upTo_grows (grows : Grows s t)
    (same : t.writeState.compactRev = s.writeState.compactRev) {rev : Int}
    (reached : rev ≤ s.writeState.currentRev) :
    upTo rev t.engine.kv = upTo rev s.engine.kv := by
  refine ExtTreeMap.ext_getElem? fun ⟨key, r⟩ => ?_
  rw [upTo, upTo, ExtTreeMap.getElem?_filter', ExtTreeMap.getElem?_filter']
  by_cases old : r.main ≤ rev
  · rw [grows.kept same (old.trans reached)]
  · have off : (fun _ : KvRecord => decide (r.main ≤ rev)) = fun _ => false :=
      funext fun _ => decide_eq_false old
    rw [off]
    simp

end

/-- Two snapshots of one log have the same records up to a revision that both have reached, if they
have the same compactions. -/
theorem hashedRows_agree {log : CommittedLog} {t u : Tables} (mine : Settled log t)
    (theirs : Settled log u)
    (compacted : t.metaRows.compactRev.getD 0 = u.metaRows.compactRev.getD 0) {revision : Int}
    (bound : hashedUpTo revision (t.metaRows.currentRev.getD 0) =
      hashedUpTo revision (u.metaRows.currentRev.getD 0)) :
    hashedRows t revision = hashedRows u revision := by
  have opened (t : Tables) : hashedRows t revision = hashedRows (Store.open t).engine revision := by
    have kv : (Store.open t).engine.kv = t.kv := congrArg Data.kv (data_initTables t)
    rw [hashedRows, hashedRows, kv]
  have within (current : Int) : hashedUpTo revision current ≤ current := by
    rw [hashedUpTo]
    split <;> omega
  rw [opened t, opened u, hashedRows_eq mine.inv, hashedRows_eq theirs.inv]
  have bound : hashedUpTo revision (Store.open t).writeState.currentRev =
    hashedUpTo revision (Store.open u).writeState.currentRev := bound
  have compacted : (Store.open t).writeState.compactRev = (Store.open u).writeState.compactRev :=
    compacted
  rcases List.prefix_or_prefix_of_prefix (log.done_prefix (position t.metaRows.raft))
    (log.done_prefix (position u.metaRows.raft)) with earlier | later
  · rw [← bound, upTo_grows (mine.holds.grows theirs.holds earlier) compacted.symm (within _)]
  · rw [bound, upTo_grows (theirs.holds.grows mine.holds later) compacted (within _)]

/-- Members that have applied prefixes of one log answer `HashKV` for a revision with the same hash,
when they report the same revision, if both snapshots have the same compactions and the records
hashed are those up to the revision reported. -/
theorem hashKv_comparable (log : CommittedLog) {t u : Tables} (mine : Disk log t)
    (theirs : Disk log u) (serialize : KvRecord → Bytes) (digest : Bytes → UInt32)
    {revision current current' : Int} (covered : Covered t current revision)
    (covered' : Covered u current' revision)
    (compacted : t.metaRows.compactRev.getD 0 = u.metaRows.compactRev.getD 0)
    (same : (hashKv serialize digest t current revision).hashRevision =
      (hashKv serialize digest u current' revision).hashRevision) :
    (hashKv serialize digest t current revision).hash =
      (hashKv serialize digest u current' revision).hash := by
  obtain rfl : current = current' := same
  have rows := hashedRows_agree mine.settled theirs.settled compacted (covered.trans covered'.symm)
  show digest (List.flatMap _ (hashedRows t revision)) = digest _
  rw [rows]

/-- Two puts of a key. -/
def putEntry (n : Nat) : Entry where
  logId := ⟨1, 1, n⟩
  payload := .normal (.apply [.put [1] [2] 0 false false false])

def putLog : CommittedLog := ⟨[putEntry 1, putEntry 2], by simp [putEntry, Entry.index]⟩

/-- The commits of a member: of its first open, and of the puts. -/
def putCommits : List Tables :=
  ((StateMachine.open_ .empty).run [[putEntry 1], [putEntry 2]]).2.mvcc.commits

theorem disk_putCommits {n : Nat} {t : Tables} (made : putCommits[n]? = some t) : Disk putLog t :=
  .crash .new List.prefix_rfl (List.mem_of_getElem? made)

/-- Asked for revision 1 of a member at it and one past it. Both have applied the second put when
they answer. -/
theorem hashKv_comparable_puts : ∃ t u, Disk putLog t ∧ Disk putLog u ∧
    t.metaRows.currentRev = some 1 ∧ u.metaRows.currentRev = some 2 ∧
    ∀ serialize digest, (hashKv serialize digest t 2 1).hash =
      (hashKv serialize digest u 2 1).hash := by
  have first : (putCommits[1]?).map (fun t => (t.metaRows.currentRev, t.metaRows.compactRev)) =
      some (some 1, some 0) := by
    decide +kernel
  have second : (putCommits[2]?).map (fun t => (t.metaRows.currentRev, t.metaRows.compactRev)) =
      some (some 2, some 0) := by
    decide +kernel
  obtain ⟨t, made, revs⟩ := Option.map_eq_some_iff.mp first
  obtain ⟨u, made', revs'⟩ := Option.map_eq_some_iff.mp second
  rw [Prod.mk.injEq] at revs revs'
  refine ⟨t, u, disk_putCommits made, disk_putCommits made', revs.1, revs'.1,
    fun serialize digest => ?_⟩
  refine hashKv_comparable putLog (disk_putCommits made) (disk_putCommits made') serialize digest
    ?_ ?_ ?_ rfl
  · rw [Covered, revs.1]
    rfl
  · rw [Covered, revs'.1]
    rfl
  · rw [revs.2, revs'.2]

/-- The record of the first put. -/
def putRow : KvKey × KvRecord := (⟨[1], ⟨1, some 0⟩⟩, ⟨[1], [2], 1, 1, 1, 0, false⟩)

/-- A member that takes its snapshot before the first put and reads its revision after it reports a
hash of no records, for the revision of a member that hashes the put. -/
theorem hashKv_races : ∃ t u, Disk putLog t ∧ Disk putLog u ∧
    ((StateMachine.open_ .empty).run [[putEntry 1]]).2.mvcc.view.current = 1 ∧
    ∀ serialize digest, digest [] ≠ digest (hashedRow serialize putRow) →
      (hashKv serialize digest t 1 0).hashRevision = (hashKv serialize digest u 1 0).hashRevision ∧
      (hashKv serialize digest t 1 0).compactRevision =
        (hashKv serialize digest u 1 0).compactRevision ∧
      (hashKv serialize digest t 1 0).hash ≠ (hashKv serialize digest u 1 0).hash := by
  have before : (putCommits[0]?).map (hashedRows · 0) = some [] := by decide +kernel
  have after : (putCommits[1]?).map (hashedRows · 0) = some [putRow] := by decide +kernel
  obtain ⟨t, made, rows⟩ := Option.map_eq_some_iff.mp before
  obtain ⟨u, made', rows'⟩ := Option.map_eq_some_iff.mp after
  refine ⟨t, u, disk_putCommits made, disk_putCommits made', by decide +kernel,
    fun serialize digest differ => ⟨rfl, rfl, ?_⟩⟩
  show digest (List.flatMap _ (hashedRows t 0)) ≠ digest (List.flatMap _ (hashedRows u 0))
  rw [rows, rows', List.flatMap_nil, List.flatMap_singleton]
  exact differ

end Fastetcd.Server
