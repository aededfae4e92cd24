import Fastetcd.Laws.Mvcc.Runs
import Fastetcd.Raft.StateMachine

/-!
# Entries act alike on replicas

A member's replica is what the log decides: the tables, and what the store keeps in memory to apply
the next entry. The value cache, the staged rows, tokens and counters may differ between members,
and no entry's answer or effect depends on them (`applyData_agree`). Each entry commits at most
once, and a commit takes the staged rows along (`applyData_acts`).
-/

namespace Fastetcd.Mvcc

open Timeline Reference KeyIndex Content Std

/-! ## Replicas -/

/-- The tables that every member holds alike. -/
structure Data where
  kv : Table KvKey KvRecord
  idx : Table Bytes KeyIndex
  lease : Table Bytes LeaseRecord
  leaseKeys : Table Bytes Unit
  auth : AuthTable → Table Bytes Bytes

def Tables.data (t : Tables) : Data := ⟨t.kv, t.idx, t.lease, t.leaseKeys, t.auth⟩

/-- What a member holds of the log. -/
structure Replica where
  data : Data
  index : ResidentIndex
  state : WriteState

def Store.replica (s : Store) : Replica := ⟨s.engine.data, s.index, s.writeState⟩

def Replica.content (r : Replica) : Content := ⟨r.data.kv, r.index, r.data.leaseKeys⟩

/-- The index table of a resident index. -/
def idxTable (index : ResidentIndex) : Table Bytes KeyIndex := index.map KeyIndex.mk

/-- The replica with other keys and counters. -/
def Replica.put (r : Replica) (content : Content) (state : WriteState) : Replica where
  data := { r.data with
    kv := content.kv
    idx := idxTable content.index
    leaseKeys := content.leaseKeys }
  index := content.index
  state := state

theorem idx_eq {s : Store} (inv : s.Inv) : s.engine.idx = idxTable s.index := by
  refine ExtTreeMap.ext_getElem? fun key => ?_
  rw [inv.idx key, idxTable, ExtTreeMap.getElem?_map]

section

variable {s t u : Store}

theorem replica_eq (inv : t.Inv) (lease : t.engine.lease = s.engine.lease)
    (auth : t.engine.auth = s.engine.auth) :
    t.replica = s.replica.put t.content t.writeState := by
  rw [Store.replica, Tables.data, idx_eq inv, lease, auth]
  rfl

theorem content_of_replica (same : s.replica = u.replica) : s.content = u.content :=
  congrArg Replica.content same

theorem state_of_replica (same : s.replica = u.replica) : s.writeState = u.writeState :=
  congrArg Replica.state same

theorem env_of_replica (same : s.replica = u.replica) : s.env = u.env := by
  rw [Store.env, Store.env, content_of_replica same, state_of_replica same]

theorem current_of_replica (inv : s.Inv) (invU : u.Inv) (same : s.replica = u.replica) :
    s.view.current = u.view.current := by
  have mine : s.view.current = s.writeState.currentRev := congrArg Revs.current inv.view
  have other : u.view.current = u.writeState.currentRev := congrArg Revs.current invU.view
  rw [mine, other, state_of_replica same]

theorem data_apply {t u : Tables} (same : t.data = u.data) (op : BatchOp) :
    (t.apply op).data = (u.apply op).data := by
  obtain ⟨kv, idx, rows, lease, leaseKeys, auth⟩ := t
  obtain ⟨kv', idx', rows', lease', leaseKeys', auth'⟩ := u
  cases same
  cases op <;> rfl

theorem data_commit {t u : Tables} (same : t.data = u.data) (batch : WriteBatch) :
    (t.commit batch).data = (u.commit batch).data := by
  induction batch generalizing t u with
  | nil => exact same
  | cons op batch ih => exact ih (data_apply same op)

/-- Staged rows are none of the data. -/
theorem data_folded (s : Store) (batch : WriteBatch) :
    (s.engine.commit (s.folded batch)).data = (s.engine.commit batch).data := by
  rw [Store.folded, Tables.commit_append, commit_raftRows]
  rfl

/-- The replica with other tables. -/
def Replica.commit (r : Replica) (t : Tables) (batch : WriteBatch) : Replica :=
  { r with data := (t.commit batch).data }

theorem replica_sideCommitted (s : Store) (batch : WriteBatch) :
    (s.sideCommitted batch).replica = s.replica.commit s.engine batch := by
  show Replica.mk (s.engine.commit (s.folded batch)).data _ _ = _
  rw [data_folded]
  rfl

theorem replica_commit (same : s.replica = u.replica) (batch : WriteBatch) :
    s.replica.commit s.engine batch = u.replica.commit u.engine batch := by
  rw [Replica.commit, Replica.commit, same, data_commit (congrArg Replica.data same) batch]

/-! ## Commits -/

/-- The rows of the state machine that the next commit leaves. -/
def Store.rows (s : Store) : RaftTable :=
  s.pendingRaftMeta.foldl RaftTable.put s.engine.metaRows.raft

/-- `t` is `s` after an operation that commits once or not at all. -/
inductive Commits (s t : Store) : Prop
  | none (engine : t.engine = s.engine) (commits : t.commits = s.commits)
      (pending : t.pendingRaftMeta = s.pendingRaftMeta)
  | one (commits : t.commits = s.commits ++ [t.engine]) (pending : t.pendingRaftMeta = [])
      (rows : t.engine.metaRows.raft = s.rows)

theorem Commits.of_eq (commits : Commits s t) (engine : u.engine = t.engine)
    (list : u.commits = t.commits) (pending : u.pendingRaftMeta = t.pendingRaftMeta) :
    Commits s u := by
  cases commits with
  | none engine' list' pending' =>
    exact .none (engine.trans engine') (list.trans list') (pending.trans pending')
  | one list' pending' rows =>
    exact .one (by rw [list, list', engine]) (pending.trans pending') (by rw [engine, rows])

theorem Commits.rows_eq (commits : Commits s t) : t.rows = s.rows := by
  cases commits with
  | none engine _ pending => rw [Store.rows, engine, pending]; rfl
  | one _ pending rows => rw [Store.rows, pending, List.foldl_nil, rows]

/-- The counter of leases that is read at open is stored. -/
def Store.Stored (s : Store) : Prop :=
  s.engine.metaRows.nextLeaseId.getD 0 = s.writeState.nextLeaseId

/-- What an entry does to a store. -/
structure Acts (s t : Store) : Prop where
  inv : t.Inv
  stored : t.Stored
  commits : Commits s t

theorem Acts.refl (inv : s.Inv) (stored : s.Stored) : Acts s s := ⟨inv, stored, .none rfl rfl rfl⟩

theorem commits_sideCommitted (batch : WriteBatch)
    (quiet : (s.engine.commit batch).metaRows.raft = s.engine.metaRows.raft) :
    Commits s (s.sideCommitted batch) := by
  refine .one rfl rfl ?_
  show (s.engine.commit (s.folded batch)).metaRows.raft = _
  rw [Store.folded, Tables.commit_append, commit_raftRows, Store.rows, quiet]

/-- A store commits what a context overlaid. -/
theorem acts_committed {ws : List Write} {ctx : ApplyContext} {newRev : Int}
    (staged : Staged s ws ctx) (stored : s.Stored) (inv : (s.committed newRev ctx).Inv) :
    Acts s (s.committed newRev ctx) := by
  have footprint := staged.coherent.footprint
  refine ⟨inv, ?_, .one rfl rfl ?_⟩
  · simp only [Store.Stored, Store.committed, committedTables, footprint]
    exact stored
  · simp only [Store.committed, committedTables, footprint]
    rfl

theorem replica_committed {ws : List Write} {ctx : ApplyContext} {newRev : Int} (inv : s.Inv)
    (staged : Staged s ws ctx) (after : (s.committed newRev ctx).Inv) :
    (s.committed newRev ctx).replica =
      s.replica.put (s.content.writes ws) { s.writeState with currentRev := newRev } := by
  have footprint := staged.coherent.footprint
  rw [replica_eq (s := s) after ?_ ?_, staged.content_committed inv.content]
  · rfl
  · simp only [Store.committed, committedTables, footprint]
  · simp only [Store.committed, committedTables, footprint]

/-! ## Requests -/

theorem Served.acts {α : Type} {reference : Except MvccError (α × List Write)}
    {served : Except MvccError α × Store} (h : Served s true reference served) (inv : s.Inv)
    (stored : s.Stored) : Acts s served.2 := by
  have after := h.inv inv
  cases h with
  | refused | idle => exact .refl inv stored
  | failed failed => exact nomatch failed
  | wrote ok some recorded revs => exact acts_committed recorded.staged stored after

theorem Served.agree {α : Type} {reference : Except MvccError (α × List Write)}
    {a b : Except MvccError α × Store} (first : Served s true reference a)
    (second : Served u true reference b) (inv : s.Inv) (invU : u.Inv)
    (same : s.replica = u.replica) : a.1 = b.1 ∧ a.2.replica = b.2.replica := by
  have afterA := first.inv inv
  have afterB := second.inv invU
  cases first with
  | refused e =>
    cases second
    exact ⟨rfl, same⟩
  | idle a =>
    cases second with
    | idle => exact ⟨rfl, same⟩
    | wrote _ some => exact absurd rfl some
    | failed failed => exact nomatch failed
  | failed failed => exact nomatch failed
  | wrote ok some recorded revs =>
    cases second with
    | idle => exact absurd rfl some
    | failed failed => exact nomatch failed
    | wrote ok' some' recorded' revs' =>
      refine ⟨rfl, ?_⟩
      rw [replica_committed inv recorded.staged afterA,
        replica_committed invU recorded'.staged afterB, same, content_of_replica same,
        state_of_replica same]

/-- `t` differs from `s` in the keys alone. -/
structure KeysOnly (s t : Store) : Prop where
  lease : t.engine.lease = s.engine.lease
  auth : t.engine.auth = s.engine.auth

theorem KeysOnly.trans {v : Store} (first : KeysOnly s t) (second : KeysOnly t v) : KeysOnly s v :=
  ⟨second.lease.trans first.lease, second.auth.trans first.auth⟩

theorem keysOnly_committed {ws : List Write} {ctx : ApplyContext} {newRev : Int}
    (staged : Staged s ws ctx) : KeysOnly s (s.committed newRev ctx) := by
  have footprint := staged.coherent.footprint
  refine ⟨?_, ?_⟩
  · simp only [Store.committed, committedTables, footprint]
  · simp only [Store.committed, committedTables, footprint]

theorem Served.keysOnly {α : Type} {reference : Except MvccError (α × List Write)}
    {served : Except MvccError α × Store} (h : Served s true reference served) :
    KeysOnly s served.2 := by
  cases h with
  | refused | idle => exact ⟨rfl, rfl⟩
  | failed failed => exact nomatch failed
  | wrote ok some recorded revs => exact keysOnly_committed recorded.staged

theorem serve_keysOnly (inv : s.Inv) (item : ApplyItem) : KeysOnly s (s.serve item).2 := by
  cases item with
  | mutations ms =>
    rw [Store.serve, answered_snd]
    exact (apply_served inv ms true).keysOnly
  | txn compares success failure =>
    rw [Store.serve, answered_snd]
    exact (txn_served inv compares success failure true).keysOnly

theorem serveAll_keysOnly {items : List ApplyItem} (inv : s.Inv) {outcomes : List ApplyOutcome}
    (served : s.serveAll items = (.ok outcomes, t)) : KeysOnly s t := by
  induction items generalizing s outcomes with
  | nil =>
    cases served
    exact ⟨rfl, rfl⟩
  | cons item items ih =>
    have first := serve_keysOnly inv item
    rw [Store.serveAll] at served
    split at served
    · cases served
    · rename_i outcome next here
      obtain ⟨batches, -, move⟩ := serve_move inv here
      rw [here] at first
      split at served
      · cases served
      · rename_i outcomes' last rest
        cases served
        exact first.trans (ih (move.inv inv) rest)

/-- Requests that share a commit leave the replica that they leave one by one. -/
theorem applyMany_agree (inv : s.Inv) (stored : s.Stored) {items : List ApplyItem}
    (admitted : ∀ item ∈ items, item.admitted = true) :
    ∃ outcomes m t, s.applyMany items true = (.ok outcomes, m) ∧
      s.serveAll items = (.ok outcomes, t) ∧ m.replica = t.replica ∧ Acts s m := by
  obtain ⟨outcomes, ctx, state, t, ws, batches, applied, served, here⟩ :=
    applyItems_shares inv admitted (Sharing.start inv)
  obtain ⟨invM, content, counters, -⟩ := here.committed inv
  have one := serveAll_keysOnly inv served
  have acts : Acts s (if state.currentRev != s.writeState.currentRev then
      s.committed state.currentRev ctx else s) ∧ KeysOnly s
      (if state.currentRev != s.writeState.currentRev then
        s.committed state.currentRev ctx else s) := by
    split
    · rename_i moved
      rw [if_pos moved] at invM
      exact ⟨acts_committed here.staged stored invM, keysOnly_committed here.staged⟩
    · exact ⟨.refl inv stored, ⟨rfl, rfl⟩⟩
  refine ⟨outcomes, _, t, ?_, served, ?_, acts.1⟩
  · simp only [Store.applyMany, applied, commitCtx_ok]
    split <;> rfl
  · rw [replica_eq (s := s) invM acts.2.lease acts.2.auth,
      replica_eq (s := s) here.inv one.lease one.auth, content, counters]

/-! ## Compaction and leases -/

theorem compact_true (s : Store) (rev : Int) : s.compact rev true =
    if rev ≤ 0 then
      (.error (.refused (.invalidArgument s!"compact rev must be > 0, got {rev}")), s)
    else if rev > s.writeState.currentRev then
      (.error (.futureRevision rev s.writeState.currentRev), s)
    else if rev < s.writeState.compactRev then
      (.error (.compacted rev s.writeState.compactRev), s)
    else if rev = s.writeState.compactRev then (.ok rev, s)
    else (.ok rev, s.compactedAt rev) := by
  unfold Store.compact
  split
  · rfl
  split
  · rfl
  split
  · rfl
  split
  · rfl
  simp only [Store.foldRaftMeta, Store.raiseFloor, Store.tryCommit, if_true, Store.engineCommit,
    commit_compactBatch]
  rfl

theorem compact_acts (inv : s.Inv) (stored : s.Stored) (rev : Int) :
    Acts s (s.compact rev true).2 := by
  rw [compact_true]
  split
  · exact .refl inv stored
  split
  · exact .refl inv stored
  split
  · exact .refl inv stored
  split
  · exact .refl inv stored
  · exact ⟨inv.compactedAt (by omega) (by omega), stored, .one rfl rfl rfl⟩

theorem replica_compactedAt (inv : s.Inv) {rev : Int} (positive : 0 < rev)
    (reached : rev ≤ s.writeState.currentRev) : (s.compactedAt rev).replica =
      s.replica.put (s.content.compacted (Revision.endOf rev))
        { s.writeState with compactRev := rev } := by
  rw [replica_eq (s := s) (inv.compactedAt positive reached) rfl rfl, content_compactedAt inv]
  rfl

theorem compact_agree (inv : s.Inv) (invU : u.Inv) (same : s.replica = u.replica) (rev : Int) :
    (s.compact rev true).1 = (u.compact rev true).1 ∧
      (s.compact rev true).2.replica = (u.compact rev true).2.replica := by
  rw [compact_true, compact_true, state_of_replica same]
  split
  · exact ⟨rfl, same⟩
  split
  · exact ⟨rfl, same⟩
  split
  · exact ⟨rfl, same⟩
  split
  · exact ⟨rfl, same⟩
  · have reached : rev ≤ u.writeState.currentRev := by omega
    refine ⟨rfl, ?_⟩
    rw [replica_compactedAt inv (by omega) (state_of_replica same ▸ reached),
      replica_compactedAt invU (by omega) reached, same, content_of_replica same,
      state_of_replica same]

/-- A commit beside the keys that leaves the counters as memory has them. -/
theorem acts_sideCommitted {batch : WriteBatch} (inv : (s.sideCommitted batch).Inv)
    (quiet : (s.engine.commit batch).metaRows = s.engine.metaRows) (stored : s.Stored) :
    Acts s (s.sideCommitted batch) := by
  refine ⟨inv, ?_, commits_sideCommitted batch (by rw [quiet])⟩
  show (s.engine.commit (s.folded batch)).metaRows.nextLeaseId.getD 0 = _
  rw [Store.folded, Tables.commit_append, commit_raftRows]
  show (s.engine.commit batch).metaRows.nextLeaseId.getD 0 = _
  rw [quiet]
  exact stored

/-- What a grant stages. -/
def grantBatch (id next : LeaseId) (ttlSecs nowUnix : Int) : WriteBatch :=
  (if id = 0 ∨ id > next then [.putMeta (.nextLeaseId (grantId id next).2)] else []) ++
    [.putLease (leaseIdKey (grantId id next).1)
      ⟨(grantId id next).1, ttlSecs, saturatingAdd nowUnix ttlSecs⟩]

theorem leaseGrant_true (s : Store) (id : LeaseId) (ttlSecs nowUnix : Int) :
    s.applyLeaseGrant id ttlSecs nowUnix true =
      if ttlSecs ≤ 0 then
        (.error (.refused (.invalidArgument s!"lease TTL must be positive, got {ttlSecs}")), s)
      else (.ok ⟨(grantId id s.writeState.nextLeaseId).1, ttlSecs, s.writeState.currentRev⟩,
        { s.sideCommitted (grantBatch id s.writeState.nextLeaseId ttlSecs nowUnix) with
          writeState := { s.writeState with
            nextLeaseId := (grantId id s.writeState.nextLeaseId).2 } }) :=
  applyLeaseGrant_eq id ttlSecs nowUnix true

theorem leaseGrant_acts (inv : s.Inv) (stored : s.Stored) (id : LeaseId) (ttlSecs nowUnix : Int) :
    Acts s (s.applyLeaseGrant id ttlSecs nowUnix true).2 := by
  have after := (quiet_leaseGrant inv id ttlSecs nowUnix true).inv inv
  rw [leaseGrant_true] at after ⊢
  split
  · exact .refl inv stored
  rename_i positive
  rw [if_neg positive] at after
  have rows : ((s.engine.commit (s.folded
        (grantBatch id s.writeState.nextLeaseId ttlSecs nowUnix))).metaRows.nextLeaseId.getD 0 =
        (grantId id s.writeState.nextLeaseId).2) ∧
      (s.engine.commit (grantBatch id s.writeState.nextLeaseId ttlSecs nowUnix)).metaRows.raft =
        s.engine.metaRows.raft := by
    rw [Store.folded, Tables.commit_append, commit_raftRows, grantBatch]
    by_cases moved : id = 0 ∨ id > s.writeState.nextLeaseId
    · rw [if_pos moved]
      exact ⟨rfl, rfl⟩
    · rw [if_neg moved]
      obtain ⟨zero, later⟩ := not_or.mp moved
      refine ⟨?_, rfl⟩
      show s.engine.metaRows.nextLeaseId.getD 0 = _
      rw [stored, grantId, if_neg zero, if_neg later]
  exact ⟨after, rows.1, (commits_sideCommitted _ rows.2).of_eq rfl rfl rfl⟩

theorem leaseGrant_agree (same : s.replica = u.replica) (id : LeaseId) (ttlSecs nowUnix : Int) :
    (s.applyLeaseGrant id ttlSecs nowUnix true).1 = (u.applyLeaseGrant id ttlSecs nowUnix true).1 ∧
      (s.applyLeaseGrant id ttlSecs nowUnix true).2.replica =
        (u.applyLeaseGrant id ttlSecs nowUnix true).2.replica := by
  rw [leaseGrant_true, leaseGrant_true, state_of_replica same]
  split
  · exact ⟨rfl, same⟩
  · refine ⟨rfl, ?_⟩
    have side := (replica_sideCommitted s
      (grantBatch id u.writeState.nextLeaseId ttlSecs nowUnix)).trans
      ((replica_commit same _).trans (replica_sideCommitted u _).symm)
    exact congrArg (fun r : Replica => { r with state := { u.writeState with
      nextLeaseId := (grantId id u.writeState.nextLeaseId).2 } }) side

theorem leaseKeepalive_acts (inv : s.Inv) (stored : s.Stored) (id : LeaseId) (nowUnix : Int) :
    Acts s (s.applyLeaseKeepalive id nowUnix true).2 := by
  have after := (quiet_leaseKeepalive inv id nowUnix true).inv inv
  rw [applyLeaseKeepalive_eq] at after ⊢
  cases found : s.engine.lease[leaseIdKey id]? with
  | none => exact .refl inv stored
  | some lease =>
    rw [found] at after
    exact acts_sideCommitted after rfl stored

theorem leaseKeepalive_agree (same : s.replica = u.replica) (id : LeaseId) (nowUnix : Int) :
    (s.applyLeaseKeepalive id nowUnix true).1 = (u.applyLeaseKeepalive id nowUnix true).1 ∧
      (s.applyLeaseKeepalive id nowUnix true).2.replica =
        (u.applyLeaseKeepalive id nowUnix true).2.replica := by
  have lease : s.engine.lease = u.engine.lease :=
    congrArg (fun r : Replica => r.data.lease) same
  rw [applyLeaseKeepalive_eq, applyLeaseKeepalive_eq, lease]
  cases u.engine.lease[leaseIdKey id]? with
  | none => exact ⟨rfl, same⟩
  | some lease =>
    exact ⟨rfl, (replica_sideCommitted s _).trans
      ((replica_commit same _).trans (replica_sideCommitted u _).symm)⟩

theorem attachedKeys_agree (same : s.replica = u.replica) (id : LeaseId) :
    attachedKeys s.engine id = attachedKeys u.engine id := by
  have leaseKeys : s.engine.leaseKeys = u.engine.leaseKeys :=
    congrArg (fun r : Replica => r.data.leaseKeys) same
  rw [attachedKeys, attachedKeys, attachedRows, attachedRows, leaseKeys]

theorem leaseRevoke_acts (inv : s.Inv) (stored : s.Stored) (id : LeaseId) :
    Acts s (s.applyLeaseRevoke id true).2 := by
  obtain ⟨batches, -, move⟩ := leaseRevoke_move inv id true
  have after := move.inv inv
  obtain ⟨results, ws, -, -, cases⟩ := leaseRevoke_cases inv id true
  rcases cases with ⟨failed, -⟩ | ⟨-, -, -, result⟩ | ⟨-, -, ctx, recorded, -, result⟩
  · exact nomatch failed
  · rw [result] at after ⊢
    exact ⟨after, stored, .one rfl rfl rfl⟩
  · rw [result] at after ⊢
    have footprint := recorded.coherent.footprint
    refine ⟨after, ?_, .one rfl rfl ?_⟩
    · simp only [Store.Stored, Store.revoked, revokedTables, committedTables, footprint]
      exact stored
    · simp only [Store.revoked, revokedTables, committedTables, footprint]
      rfl

/-- The replica without a lease. -/
def Replica.dropLease (r : Replica) (id : LeaseId) : Replica :=
  { r with data := { r.data with lease := r.data.lease.erase (leaseIdKey id) } }

theorem replica_revoked (inv : s.Inv) {ws : List Write} {ctx : ApplyContext}
    (recorded : Recorded s {} ws ctx) (after : (s.committed (s.writeState.currentRev + 1) ctx).Inv)
    (id : LeaseId) : (s.revoked id ctx).replica =
      (s.replica.put (s.content.writes ws)
        { s.writeState with currentRev := s.writeState.currentRev + 1 }).dropLease id := by
  rw [← replica_committed inv recorded.staged after]
  simp only [Store.revoked, revokedTables, Store.replica, Tables.data, Replica.dropLease,
    Store.committed, committedTables, recorded.coherent.footprint]

theorem leaseRevoke_agree (inv : s.Inv) (invU : u.Inv) (same : s.replica = u.replica)
    (id : LeaseId) :
    (s.applyLeaseRevoke id true).1 = (u.applyLeaseRevoke id true).1 ∧
      (s.applyLeaseRevoke id true).2.replica = (u.applyLeaseRevoke id true).2.replica := by
  obtain ⟨results, ws, mutated, -, cases⟩ := leaseRevoke_cases inv id true
  obtain ⟨results', ws', mutated', -, cases'⟩ := leaseRevoke_cases invU id true
  rw [attachedKeys_agree same, state_of_replica same, content_of_replica same, mutated'] at mutated
  cases mutated
  rcases cases with ⟨failed, -⟩ | ⟨-, none, -, result⟩ | ⟨-, some, ctx, recorded, revs, result⟩
  · exact nomatch failed
  · rcases cases' with ⟨failed, -⟩ | ⟨-, -, -, result'⟩ | ⟨-, some, -⟩
    · exact nomatch failed
    · rw [result, result', state_of_replica same]
      exact ⟨rfl, congrArg (Replica.dropLease · id) same⟩
    · exact absurd none some
  · rcases cases' with ⟨failed, -⟩ | ⟨-, none, -⟩ |
      ⟨-, -, ctx', recorded', revs', result'⟩
    · exact nomatch failed
    · exact absurd none some
    · have ordered := (mutations_ordered mutated').1
      have after := (Wrote.committed inv some recorded revs ordered).inv
      have afterU := (Wrote.committed invU some recorded' revs' ordered).inv
      rw [result, result', replica_revoked inv recorded after,
        replica_revoked invU recorded' afterU, same, content_of_replica same, state_of_replica same]
      exact ⟨rfl, rfl⟩

/-! ## The cluster id and auth -/

theorem clusterId_acts (inv : s.Inv) (stored : s.Stored) (id : UInt64) :
    Acts s (s.applyClusterId id true).2 := by
  have after := (quiet_clusterId inv id true).inv inv
  rw [applyClusterId_eq] at after ⊢
  by_cases first : s.clusterId = 0
  · rw [if_pos first] at after ⊢
    have rows : (s.engine.commit (s.folded [.putMeta (.clusterId id)])).metaRows =
        { s.engine.metaRows with clusterId := some id, raft := s.rows } := by
      rw [Store.folded, Tables.commit_append, commit_raftRows]
      rfl
    refine ⟨after, ?_, (commits_sideCommitted _ rfl).of_eq rfl rfl rfl⟩
    show (s.engine.commit (s.folded _)).metaRows.nextLeaseId.getD 0 = _
    rw [rows]
    exact stored
  rw [if_neg first] at after ⊢
  split at after
  · rename_i none
    rw [if_pos none]
    exact .refl inv stored
  · rename_i some
    rw [if_neg some]
    exact acts_sideCommitted after rfl stored

/-- The cluster id is no part of a replica, and no answer. -/
theorem replica_clusterId (s : Store) (id : UInt64) :
    (∃ c, (s.applyClusterId id true).1 = .ok c) ∧
      (s.applyClusterId id true).2.replica = s.replica := by
  rw [applyClusterId_eq]
  split
  · exact ⟨⟨_, rfl⟩, replica_sideCommitted s [.putMeta (.clusterId id)]⟩
  split
  · exact ⟨⟨_, rfl⟩, rfl⟩
  · exact ⟨⟨_, rfl⟩, replica_sideCommitted s []⟩

theorem plan_congr {t u : Tables} (same : t.auth = u.auth) (op : AuthOp) :
    plan t op = plan u op := by
  cases op <;> simp only [plan, withUser, withRole, getUser, getRole, dropRole, same]

theorem metaRows_commit {batch : WriteBatch}
    (each : ∀ op ∈ batch, ∀ t : Tables, (t.apply op).metaRows = t.metaRows) (t : Tables) :
    (t.commit batch).metaRows = t.metaRows := by
  induction batch generalizing t with
  | nil => rfl
  | cons op batch ih =>
    rw [Tables.commit_cons, ih fun op mem => each op (List.mem_cons_of_mem _ mem)]
    exact each op List.mem_cons_self t

/-- An auth change stages nothing of `mvcc_meta`. -/
theorem metaRows_plan {t : Tables} {op : AuthOp} {effects : AuthEffects} {batch : WriteBatch}
    (planned : plan t op = .ok (.ok (effects, batch))) (u : Tables) :
    (u.commit batch).metaRows = u.metaRows := by
  cases stages_of_plan planned with
  | roleDelete found =>
    rw [Tables.commit_cons]
    refine metaRows_commit (fun op mem t => ?_) _
    obtain ⟨row, -, staged⟩ := List.mem_filterMap.mp mem
    split at staged
    · cases staged
    · obtain ⟨-, staged⟩ := Option.ite_none_right_eq_some.mp staged
      rw [← Option.some.inj staged]
      rfl
  | adopt tables =>
    refine metaRows_commit (fun op mem t => ?_) _
    simp only [AuthTables.replaceInto, List.mem_append, List.mem_map] at mem
    rcases mem with ((⟨_, -, rfl⟩ | ⟨_, -, rfl⟩) | ⟨_, -, rfl⟩) | ⟨_, -, rfl⟩ <;> rfl
  | _ => rfl

theorem auth_acts (inv : s.Inv) (stored : s.Stored) (op : AuthOp) :
    Acts s (s.applyAuth op true).2 := by
  have after := (quiet_auth inv op true).inv inv
  rw [applyAuth_eq] at after ⊢
  cases planned : plan s.engine op with
  | error e => exact .refl inv stored
  | ok answer =>
    cases answer with
    | error refused => exact .refl inv stored
    | ok staged =>
      obtain ⟨effects, batch⟩ := staged
      rw [planned] at after
      dsimp only at after ⊢
      split at after
      · rename_i none
        rw [if_pos none]
        exact ⟨after, stored, .none rfl rfl rfl⟩
      · rename_i some
        rw [if_neg some, if_pos rfl]
        have same : Quiet s (s.sideCommitted batch) :=
          .side inv (side_folded _ (side_plan planned)) rfl rfl rfl rfl rfl rfl
        obtain ⟨-, stored', commits⟩ :=
          acts_sideCommitted (same.inv inv) (metaRows_plan planned s.engine) stored
        exact ⟨after, stored', commits.of_eq rfl rfl rfl⟩

theorem applyAuth_planned {op : AuthOp} {effects : AuthEffects} {batch : WriteBatch}
    (planned : plan s.engine op = .ok (.ok (effects, batch))) :
    (s.applyAuth op true).1 = .ok (s.view.current, .ok ()) ∧
      (s.applyAuth op true).2.replica = s.replica.commit s.engine batch := by
  rw [applyAuth_eq, planned]
  dsimp only
  split
  · rename_i none
    rw [Store.folded, List.isEmpty_iff, List.append_eq_nil_iff] at none
    rw [none.1]
    exact ⟨rfl, rfl⟩
  · exact ⟨rfl, replica_sideCommitted s batch⟩

theorem auth_agree (inv : s.Inv) (invU : u.Inv) (same : s.replica = u.replica) (op : AuthOp) :
    (s.applyAuth op true).1 = (u.applyAuth op true).1 ∧
      (s.applyAuth op true).2.replica = (u.applyAuth op true).2.replica := by
  have auth : s.engine.auth = u.engine.auth := congrArg (fun r : Replica => r.data.auth) same
  have current := current_of_replica inv invU same
  cases planned : plan u.engine op with
  | error e =>
    rw [applyAuth_eq, applyAuth_eq, plan_congr auth, planned]
    exact ⟨rfl, same⟩
  | ok answer =>
    cases answer with
    | error refused =>
      rw [applyAuth_eq, applyAuth_eq, plan_congr auth, planned, current]
      exact ⟨rfl, same⟩
    | ok staged =>
      obtain ⟨effects, batch⟩ := staged
      obtain ⟨answer, replica⟩ := applyAuth_planned ((plan_congr auth op).trans planned)
      obtain ⟨answer', replica'⟩ := applyAuth_planned planned
      rw [answer, answer', replica, replica', current, replica_commit same batch]
      exact ⟨rfl, rfl⟩

end

end Fastetcd.Mvcc

namespace Fastetcd.Raft

open Mvcc

/-! ## Entries -/

section

variable {s u : Store}

theorem responding_snd {α : Type} (response : α → FastetcdLogResponse)
    (a : Except MvccError α × Store) : (responding response a).2 = a.2 := by
  obtain ⟨answer, s⟩ := a
  cases answer <;> rfl

theorem responding_agree {α : Type} (response : α → FastetcdLogResponse)
    {a b : Except MvccError α × Store} (agree : a.1 = b.1 ∧ a.2.replica = b.2.replica) :
    (responding response a).1 = (responding response b).1 ∧
      (responding response a).2.replica = (responding response b).2.replica := by
  obtain ⟨answer, s⟩ := a
  obtain ⟨answer', u⟩ := b
  obtain ⟨rfl, same⟩ := agree
  rw [responding_snd, responding_snd]
  refine ⟨?_, same⟩
  cases answer <;> rfl

theorem applyRequest_acts (inv : s.Inv) (stored : s.Stored) (i : Nat) (entry : FastetcdLogEntry) :
    Acts s (applyRequest s i true entry).2 := by
  cases entry with
  | apply ms =>
    rw [applyRequest, responding_snd]
    exact (apply_served inv ms true).acts inv stored
  | txn compares success failure =>
    rw [applyRequest, responding_snd]
    exact (txn_served inv compares success failure true).acts inv stored
  | compact rev =>
    rw [applyRequest, responding_snd]
    exact compact_acts inv stored rev
  | leaseGrant id ttlSecs nowUnix =>
    rw [applyRequest, responding_snd]
    exact leaseGrant_acts inv stored id ttlSecs nowUnix
  | leaseRevoke id =>
    rw [applyRequest, responding_snd]
    exact leaseRevoke_acts inv stored id
  | leaseKeepAlive id nowUnix =>
    rw [applyRequest, responding_snd]
    exact leaseKeepalive_acts inv stored id nowUnix
  | noop => exact .refl inv stored
  | batch entries => exact .refl inv stored
  | clusterId id =>
    have acts := clusterId_acts inv stored id
    rw [applyRequest]
    split
    · rename_i result
      rw [result] at acts
      exact acts
    · rename_i result
      rw [result] at acts
      exact acts
  | auth op =>
    rw [applyRequest, responding_snd]
    exact auth_acts inv stored op

theorem applyRequest_agree (inv : s.Inv) (invU : u.Inv) (stored : s.Stored) (storedU : u.Stored)
    (same : s.replica = u.replica) (i : Nat) (entry : FastetcdLogEntry) :
    (applyRequest s i true entry).1 = (applyRequest u i true entry).1 ∧
      (applyRequest s i true entry).2.replica = (applyRequest u i true entry).2.replica := by
  have env := env_of_replica same
  cases entry with
  | apply ms =>
    refine responding_agree _ ((apply_served inv ms true).agree ?_ inv invU same)
    rw [env]
    exact apply_served invU ms true
  | txn compares success failure =>
    refine responding_agree _
      ((txn_served inv compares success failure true).agree ?_ inv invU same)
    rw [env]
    exact txn_served invU compares success failure true
  | compact rev => exact responding_agree _ (compact_agree inv invU same rev)
  | leaseGrant id ttlSecs nowUnix =>
    exact responding_agree _ (leaseGrant_agree same id ttlSecs nowUnix)
  | leaseRevoke id => exact responding_agree _ (leaseRevoke_agree inv invU same id)
  | leaseKeepAlive id nowUnix => exact responding_agree _ (leaseKeepalive_agree same id nowUnix)
  | noop =>
    refine ⟨?_, same⟩
    show Except.ok (FastetcdLogResponse.noop s.view.current) = _
    rw [current_of_replica inv invU same]
    rfl
  | batch entries => exact ⟨rfl, same⟩
  | clusterId id =>
    have acts := clusterId_acts inv stored id
    have actsU := clusterId_acts invU storedU id
    obtain ⟨⟨c, answer⟩, replica⟩ := replica_clusterId s id
    obtain ⟨⟨c', answer'⟩, replica'⟩ := replica_clusterId u id
    rw [applyRequest, applyRequest]
    generalize s.applyClusterId id true = a at answer replica acts
    generalize u.applyClusterId id true = b at answer' replica' actsU
    obtain ⟨_, t⟩ := a
    obtain ⟨_, v⟩ := b
    cases answer
    cases answer'
    have replicas : t.replica = v.replica := replica.trans (same.trans replica'.symm)
    refine ⟨?_, replicas⟩
    show Except.ok (FastetcdLogResponse.noop t.view.current) = _
    rw [current_of_replica acts.inv actsU.inv replicas]
  | auth op => exact responding_agree _ (auth_agree inv invU same op)

theorem applyData_acts (inv : s.Inv) (stored : s.Stored) (i : Nat) (entry : FastetcdLogEntry) :
    Acts s (applyData s i true entry).2 := by
  have acts := applyRequest_acts inv stored i entry
  rw [applyData]
  generalize applyRequest s i true entry = a at acts
  obtain ⟨answer, t⟩ := a
  rcases answer with (e | message) | response
  · dsimp only
    split <;> exact acts
  · exact acts
  · exact acts

/-- An entry that fails leaves the store as it was. -/
theorem applyRequest_error (inv : s.Inv) {i : Nat} {entry : FastetcdLogEntry} {e : ApplyError}
    {t : Store} (failed : applyRequest s i true entry = (.error e, t)) : t = s := by
  have of {α : Type} {response : α → FastetcdLogResponse} {a : Except MvccError α × Store}
      (same : ∀ {e t}, a = (.error e, t) → t = s) (failed : responding response a = (.error e, t)) :
      t = s := by
    obtain ⟨answer, v⟩ := a
    cases answer with
    | ok x => exact nomatch failed
    | error e =>
      cases failed
      exact same rfl
  have served {α : Type} {reference : Except MvccError (α × List Reference.Write)}
      {a : Except MvccError α × Store} (h : Served s true reference a) {e : MvccError} {t : Store}
      (failed : a = (.error e, t)) : t = s := by
    cases h with
    | refused =>
      cases failed
      rfl
    | failed no => exact nomatch no
    | idle | wrote => exact nomatch failed
  cases entry with
  | apply ms => exact of (served (apply_served inv ms true)) failed
  | txn compares success failure =>
    exact of (served (txn_served inv compares success failure true)) failed
  | compact rev =>
    refine of (fun {e t} result => ?_) failed
    rw [compact_true] at result
    split at result
    · cases result
      rfl
    split at result
    · cases result
      rfl
    split at result
    · cases result
      rfl
    split at result
    · cases result
    · cases result
  | leaseGrant id ttlSecs nowUnix =>
    refine of (fun {e t} result => ?_) failed
    rw [leaseGrant_true] at result
    split at result
    · cases result
      rfl
    · cases result
  | leaseRevoke id =>
    refine of (fun {e t} result => ?_) failed
    obtain ⟨results, ws, -, -, cases⟩ := leaseRevoke_cases inv id true
    rcases cases with ⟨no, -⟩ | ⟨-, -, -, answer⟩ | ⟨-, -, ctx, -, -, answer⟩
    · exact nomatch no
    · rw [answer] at result
      cases result
    · rw [answer] at result
      cases result
  | leaseKeepAlive id nowUnix =>
    refine of (fun {e t} result => ?_) failed
    rw [applyLeaseKeepalive_eq] at result
    split at result
    · cases result
      rfl
    · cases result
  | noop => exact nomatch failed
  | batch entries =>
    cases failed
    rfl
  | clusterId id =>
    obtain ⟨⟨c, answer⟩, -⟩ := replica_clusterId s id
    rw [applyRequest] at failed
    split at failed
    · cases failed
    · rename_i result
      rw [result] at answer
      cases answer
  | auth op =>
    refine of (fun {e t} result => ?_) failed
    cases planned : plan s.engine op with
    | error e =>
      rw [applyAuth_eq, planned] at result
      cases result
      rfl
    | ok answer =>
      cases answer with
      | error refused =>
        rw [applyAuth_eq, planned] at result
        cases result
      | ok staged =>
        have answer := (applyAuth_planned planned).1
        rw [result] at answer
        cases answer

theorem applyData_error (inv : s.Inv) {i : Nat} {entry : FastetcdLogEntry} {e : ApplyError}
    {t : Store} (failed : applyData s i true entry = (.error e, t)) : t = s := by
  rw [applyData] at failed
  split at failed
  · cases failed
  · rename_i result
    split at failed
    · cases failed
    · cases failed
      exact applyRequest_error inv result
  · rename_i result
    cases failed
    exact applyRequest_error inv result

/-- Members that agree answer an entry alike, and agree after it. -/
theorem applyData_agree (inv : s.Inv) (invU : u.Inv) (stored : s.Stored) (storedU : u.Stored)
    (same : s.replica = u.replica) (i : Nat) (entry : FastetcdLogEntry) :
    (applyData s i true entry).1 = (applyData u i true entry).1 ∧
      (applyData s i true entry).2.replica = (applyData u i true entry).2.replica := by
  have acts := applyRequest_acts inv stored i entry
  have actsU := applyRequest_acts invU storedU i entry
  have agree := applyRequest_agree inv invU stored storedU same i entry
  rw [applyData, applyData]
  generalize applyRequest s i true entry = a at acts agree
  generalize applyRequest u i true entry = b at actsU agree
  obtain ⟨answer, t⟩ := a
  obtain ⟨answer', v⟩ := b
  obtain ⟨rfl, replicas⟩ := agree
  rcases answer with (e | message) | response
  · dsimp only
    cases e.refusal with
    | none => exact ⟨rfl, replicas⟩
    | some refusal =>
      refine ⟨?_, replicas⟩
      show Except.ok (FastetcdLogResponse.refused t.view.current refusal) = _
      rw [current_of_replica acts.inv actsU.inv replicas]
  · exact ⟨rfl, replicas⟩
  · exact ⟨rfl, replicas⟩

/-! ## Entries one by one -/

/-- Entries with their log indexes, applied one after the other up to the first that fails. -/
def applyAll (s : Store) : List (Nat × FastetcdLogEntry) →
    Except ApplyError (List FastetcdLogResponse) × Store
  | [] => (.ok [], s)
  | (i, entry) :: work =>
    match applyData s i true entry with
    | (.error e, s) => (.error e, s)
    | (.ok response, s) => prepend [response] (applyAll s work)

theorem prepend_snd {α : Type} (first : List FastetcdLogResponse)
    (rest : Except ApplyError (List FastetcdLogResponse) × α) :
    (prepend first rest).2 = rest.2 := by
  obtain ⟨answer, a⟩ := rest
  cases answer <;> rfl

theorem prepend_prepend {α : Type} (first second : List FastetcdLogResponse)
    (rest : Except ApplyError (List FastetcdLogResponse) × α) :
    prepend first (prepend second rest) = prepend (first ++ second) rest := by
  obtain ⟨answer, a⟩ := rest
  cases answer with
  | error e => rfl
  | ok responses => exact congrArg (fun l => (Except.ok l, a)) (List.append_assoc ..).symm

theorem applyAll_keeps (inv : s.Inv) (stored : s.Stored) (work : List (Nat × FastetcdLogEntry)) :
    (applyAll s work).2.Inv ∧ (applyAll s work).2.Stored := by
  induction work generalizing s with
  | nil => exact ⟨inv, stored⟩
  | cons unit work ih =>
    obtain ⟨i, entry⟩ := unit
    have acts := applyData_acts inv stored i entry
    rw [applyAll]
    split
    · rename_i result
      rw [result] at acts
      exact ⟨acts.inv, acts.stored⟩
    · rename_i result
      rw [result] at acts
      rw [prepend_snd]
      exact ih acts.inv acts.stored

theorem applyAll_agree (inv : s.Inv) (invU : u.Inv) (stored : s.Stored) (storedU : u.Stored)
    (same : s.replica = u.replica) (work : List (Nat × FastetcdLogEntry)) :
    (applyAll s work).1 = (applyAll u work).1 ∧
      (applyAll s work).2.replica = (applyAll u work).2.replica := by
  induction work generalizing s u with
  | nil => exact ⟨rfl, same⟩
  | cons unit work ih =>
    obtain ⟨i, entry⟩ := unit
    have acts := applyData_acts inv stored i entry
    have actsU := applyData_acts invU storedU i entry
    have agree := applyData_agree inv invU stored storedU same i entry
    rw [applyAll, applyAll]
    generalize applyData s i true entry = a at acts agree
    generalize applyData u i true entry = b at actsU agree
    obtain ⟨answer, t⟩ := a
    obtain ⟨answer', v⟩ := b
    obtain ⟨rfl, replicas⟩ := agree
    cases answer with
    | error e => exact ⟨rfl, replicas⟩
    | ok response =>
      obtain ⟨answers, replicas⟩ := ih acts.inv actsU.inv acts.stored actsU.stored replicas
      dsimp only
      rw [prepend_snd, prepend_snd]
      refine ⟨?_, replicas⟩
      generalize applyAll t work = a at answers
      generalize applyAll v work = b at answers
      obtain ⟨answer, t⟩ := a
      obtain ⟨answer', v⟩ := b
      obtain rfl : answer = answer' := answers
      cases answer <;> rfl

theorem applyAll_append (s : Store) (first rest : List (Nat × FastetcdLogEntry)) :
    applyAll s (first ++ rest) =
      match applyAll s first with
      | (.error e, t) => (.error e, t)
      | (.ok responses, t) => prepend responses (applyAll t rest) := by
  induction first generalizing s with
  | nil =>
    show applyAll s rest = prepend [] (applyAll s rest)
    obtain ⟨answer, t⟩ := applyAll s rest
    cases answer <;> rfl
  | cons unit first ih =>
    obtain ⟨i, entry⟩ := unit
    rw [List.cons_append, applyAll, applyAll]
    split
    · rfl
    · rename_i response t _
      rw [ih]
      obtain ⟨answer, v⟩ := applyAll t first
      cases answer with
      | error e => rfl
      | ok responses => exact prepend_prepend [response] responses _

/-- A request that may share a commit is served alone as its entry. -/
theorem applyData_serve {entry : FastetcdLogEntry} {item : ApplyItem}
    (grouped : groupable entry = some item) (s : Store) (i : Nat) : applyData s i true entry =
      match s.serve item with
      | (.ok outcome, t) => (.ok (responseOf outcome), t)
      | (.error e, t) => (.error (.mvcc e), t) := by
  cases entry with
  | apply ms =>
    obtain ⟨-, same⟩ := Option.ite_none_right_eq_some.mp grouped
    cases same
    rw [applyData, applyRequest, Store.serve]
    obtain ⟨answer, t⟩ := s.apply ms true
    cases answer with
    | ok a => rfl
    | error e =>
      simp only [responding, answered]
      cases e.refusal <;> rfl
  | txn compares success failure =>
    obtain ⟨-, same⟩ := Option.ite_none_right_eq_some.mp grouped
    cases same
    rw [applyData, applyRequest, Store.serve]
    obtain ⟨answer, t⟩ := s.txn compares success failure true
    cases answer with
    | ok a => rfl
    | error e =>
      simp only [responding, answered]
      cases e.refusal <;> rfl
  | _ => cases grouped

theorem applyAll_serveAll {entries : List FastetcdLogEntry} {items : List ApplyItem}
    (grouped : List.Forall₂ (fun entry item => groupable entry = some item) entries items)
    {outcomes : List ApplyOutcome} {t : Store} (served : s.serveAll items = (.ok outcomes, t))
    (i : Nat) : applyAll s (entries.map (i, ·)) = (.ok (outcomes.map responseOf), t) := by
  induction grouped generalizing s outcomes with
  | nil =>
    cases served
    rfl
  | cons here rest ih =>
    rw [Store.serveAll] at served
    rw [List.map_cons, applyAll, applyData_serve here]
    split at served
    · cases served
    · rename_i outcome next first
      rw [first]
      split at served
      · cases served
      · rename_i outcomes' last more
        cases served
        dsimp only
        rw [ih more]
        rfl

end

end Fastetcd.Raft
