import Fastetcd.Raft.Snapshot
import Fastetcd.Laws.Mvcc.Runs

/-!
# What an installed snapshot leaves of the tables before it

The body of a store's snapshot holds all its rows (`bodyRows_eq`). Installing it clears a target's
tables by range deletes that end at 64 bytes of `0xFF`, so the target ends with the source's rows and
its own from there on. It is the source's state iff the source has those, too
(`installSnapshot_eq_iff`): the lease tables are replaced row by row, the others are not.
-/

namespace Fastetcd.Raft

open Mvcc Std

/-! ## Batches that change one part of the tables -/

/-- A batch of operations on one part of the tables is a fold over that part. -/
theorem commit_map {α β : Type} {op : α → BatchOp} {step : β → α → β} (get : Tables → β)
    (set : Tables → β → Tables) (apply : ∀ t a, t.apply (op a) = set t (step (get t) a))
    (get_set : ∀ t b, get (set t b) = b) (set_set : ∀ t b c, set (set t b) c = set t c)
    (set_get : ∀ t, set t (get t) = t) (t : Tables) (rows : List α) :
    t.commit (rows.map op) = set t (rows.foldl step (get t)) := by
  induction rows generalizing t with
  | nil => exact (set_get t).symm
  | cons row rows ih =>
    rw [List.map_cons, Tables.commit_cons, apply, ih, get_set, set_set, List.foldl_cons]

section Parts

variable (t : Tables)

theorem commit_putKv (rows : List (KvKey × KvRecord)) :
    t.commit (rows.map fun row => .putKv row.1 row.2) =
      { t with kv := rows.foldl (fun kv row => kv.insert row.1 row.2) t.kv } :=
  commit_map Tables.kv (fun t kv => { t with kv }) (fun _ _ => rfl) (fun _ _ => rfl)
    (fun _ _ _ => rfl) (fun _ => rfl) t rows

theorem commit_putMeta (rows : List MetaRow) :
    t.commit (rows.map .putMeta) = { t with metaRows := rows.foldl MetaTable.put t.metaRows } :=
  commit_map Tables.metaRows (fun t metaRows => { t with metaRows }) (fun _ _ => rfl)
    (fun _ _ => rfl) (fun _ _ _ => rfl) (fun _ => rfl) t rows

theorem commit_putLease (rows : List (Bytes × LeaseRecord)) :
    t.commit (rows.map fun row => .putLease row.1 row.2) =
      { t with lease := rows.foldl (fun lease row => lease.insert row.1 row.2) t.lease } :=
  commit_map Tables.lease (fun t lease => { t with lease }) (fun _ _ => rfl) (fun _ _ => rfl)
    (fun _ _ _ => rfl) (fun _ => rfl) t rows

theorem commit_deleteLease (rows : List (Bytes × LeaseRecord)) :
    t.commit (rows.map fun row => .deleteLease row.1) =
      { t with lease := rows.foldl (fun lease row => lease.erase row.1) t.lease } :=
  commit_map Tables.lease (fun t lease => { t with lease }) (fun _ _ => rfl) (fun _ _ => rfl)
    (fun _ _ _ => rfl) (fun _ => rfl) t rows

theorem commit_putLeaseKey (rows : List (Bytes × Unit)) :
    t.commit (rows.map fun row => .putLeaseKey row.1) =
      { t with leaseKeys := rows.foldl (fun keys row => keys.insert row.1 ()) t.leaseKeys } :=
  commit_map Tables.leaseKeys (fun t leaseKeys => { t with leaseKeys }) (fun _ _ => rfl)
    (fun _ _ => rfl) (fun _ _ _ => rfl) (fun _ => rfl) t rows

theorem commit_deleteLeaseKey (rows : List (Bytes × Unit)) :
    t.commit (rows.map fun row => .deleteLeaseKey row.1) =
      { t with leaseKeys := rows.foldl (fun keys row => keys.erase row.1) t.leaseKeys } :=
  commit_map Tables.leaseKeys (fun t leaseKeys => { t with leaseKeys }) (fun _ _ => rfl)
    (fun _ _ => rfl) (fun _ _ _ => rfl) (fun _ => rfl) t rows

theorem commit_putAuth (table : AuthTable) (rows : List (Bytes × Bytes)) :
    t.commit (rows.map fun row => .putAuth table row.1 row.2) =
      t.setAuth table (rows.foldl (fun auth row => auth.insert row.1 row.2) (t.auth table)) :=
  commit_map (fun t => t.auth table) (fun t rows => t.setAuth table rows) (fun _ _ => rfl)
    (fun _ _ => Function.update_self ..)
    (fun _ _ _ => by simp [Tables.setAuth]) (fun t => by simp [Tables.setAuth]) t rows

end Parts

/-! ## A body holds all the rows -/

theorem bodyRows_eq {K V : Type} [Ord K] [TransOrd K] [LawfulEqOrd K] (t : Table K V) :
    bodyRows t = t.toList := by
  have all : t.scan (Fastetcd.after none) = t.toList := by simp [Table.scan, Fastetcd.after]
  rw [bodyRows, Table.readChunks_eq t (by decide) (by rw [all, ExtTreeMap.length_toList]; omega), all]

theorem foldl_put_raftRows (r : RaftTable) : (raftRows r).foldl RaftTable.put {} = r := by
  obtain ⟨applied, membership, batch, batched⟩ := r
  cases applied <;> cases membership <;> cases batch <;> cases batched <;> rfl

theorem foldl_put_metaTableRows (m : MetaTable) : (metaTableRows m).foldl MetaTable.put {} = m := by
  obtain ⟨currentRev, compactRev, nextLeaseId, clusterId, raft⟩ := m
  have rows (m : MetaTable) (rows : List RaftRow) : (rows.map MetaRow.raft).foldl MetaTable.put m =
      { m with raft := rows.foldl RaftTable.put m.raft } := by
    induction rows generalizing m with
    | nil => rfl
    | cons row rows ih => exact ih _
  simp only [metaTableRows, List.foldl_append, rows]
  cases currentRev <;> cases compactRev <;> cases nextLeaseId <;> cases clusterId <;>
    simp [MetaTable.put, foldl_put_raftRows]

/-! ## Tables replaced -/

/-- What a range delete to `clearEnd` leaves. -/
def uncleared {V : Type} (t : Table Bytes V) : Table Bytes V :=
  t.filter fun k _ => !inDeleteRange [] clearEnd k

def unclearedKv (t : Table KvKey KvRecord) : Table KvKey KvRecord :=
  t.filter fun k _ => !inDeleteRange [] clearEnd (makeKvKey k)

/-- The tables a snapshot of `src` leaves of `t`. -/
def replaced (src t : Tables) (applied : Option LogId) (membership : StoredMembership) : Tables where
  kv := (unclearedKv t.kv).overwrite src.kv id
  idx := (uncleared t.idx).overwrite src.idx id
  metaRows := { src.metaRows with
    raft := { src.metaRows.raft with applied := some applied, membership := some membership } }
  lease := src.lease
  leaseKeys := src.leaseKeys
  auth table := (uncleared (t.auth table)).overwrite (src.auth table) id

theorem commit_replaceAuth (src t : Tables) :
    t.commit (AuthTables.read src).replaceInto =
      { t with auth := fun table => (uncleared (t.auth table)).overwrite (src.auth table) id } := by
  have cleared : t.commit ([AuthTable.users, .roles, .state].map
      (BatchOp.deleteRangeAuth · [] clearEnd)) =
      { t with auth := fun table => uncleared (t.auth table) } := by
    have auth : (t.commit ([AuthTable.users, .roles, .state].map
        (BatchOp.deleteRangeAuth · [] clearEnd))).auth = fun table => uncleared (t.auth table) := by
      funext table
      cases table <;> rfl
    rw [← auth]
    rfl
  simp only [AuthTables.replaceInto, AuthTables.read, Tables.commit_append, commit_putAuth, cleared]
  have auth (table : AuthTable) : ∀ rows : AuthTable → Table Bytes Bytes,
      Function.update (Function.update (Function.update (fun table => uncleared (t.auth table))
        .users (rows .users)) .roles (rows .roles)) .state (rows .state) = rows := by
    intro rows
    funext table
    cases table <;> rfl
  exact congrArg (fun auth => { t with auth })
    (auth .users fun table => (uncleared (t.auth table)).overwrite (src.auth table) id)

theorem foldl_erase_toList {K V : Type} [Ord K] [TransOrd K] [LawfulEqOrd K] [DecidableEq K]
    (t : Table K V) : t.toList.foldl (fun t row => t.erase row.1) t = ∅ := by
  refine ExtTreeMap.ext_getElem? fun k => ?_
  have steps (t : Table K V) (row : K × V) (k : K) :
      (t.erase row.1)[k]? = if row.1 = k then none else t[k]? := by
    simp [ExtTreeMap.getElem?_erase]
  rw [Table.getElem?_foldl steps t t]
  cases t[k]? <;> simp

theorem overwrite_empty {K V : Type} [Ord K] [TransOrd K] [LawfulEqOrd K] [DecidableEq K]
    (t : Table K V) : (∅ : Table K V).overwrite t id = t :=
  Table.overwrite_eq_iff.mpr fun _ mem => absurd mem ExtTreeMap.not_mem_empty

theorem commit_replaceLeases (src t : Tables) :
    t.commit ((LeaseTables.read src).replaceInto (LeaseTables.read t)) =
      { t with lease := src.lease, leaseKeys := src.leaseKeys } := by
  simp only [LeaseTables.replaceInto, LeaseTables.read, Tables.commit_append, commit_deleteLease,
    commit_deleteLeaseKey, commit_putLease, commit_putLeaseKey, foldl_erase_toList]
  have leases := overwrite_empty src.lease
  have keys := overwrite_empty src.leaseKeys
  unfold Table.overwrite at leases keys
  exact congrArg₂ (fun lease leaseKeys => { t with lease, leaseKeys }) leases keys

/-- The body of a snapshot replaces the tables. -/
theorem commit_streamBody (src t : Tables) (applied : Option LogId)
    (membership : StoredMembership) : ∃ batch,
    streamBody (writeBody (bodySource src applied membership)) (LeaseTables.read t) = some batch ∧
      t.commit batch = replaced src t applied membership := by
  refine ⟨_, rfl, ?_⟩
  have cleared : t.commit [.deleteRangeKv [] clearEnd, .deleteRangeIdx [] clearEnd, .clearMeta] =
      { t with kv := unclearedKv t.kv, idx := uncleared t.idx, metaRows := {} } := rfl
  simp only [Tables.commit_append, writeBody, bodySource, bodyRows_eq, cleared, commit_putKv,
    commit_putIdx, commit_putMeta, foldl_put_metaTableRows, Option.elim_some]
  rw [commit_replaceAuth]
  -- nothing before the last part touches the lease tables
  exact commit_replaceLeases src _

/-! ## The state after an install -/

/-- The rows of `t` that the range deletes of an install leave are the source's, too. -/
structure Reached (src t : Tables) : Prop where
  kv : ∀ k ∈ t.kv, clearEnd ≤ makeKvKey k → k ∈ src.kv
  idx : ∀ k ∈ t.idx, clearEnd ≤ k → k ∈ src.idx
  auth : ∀ table, ∀ k ∈ t.auth table, clearEnd ≤ k → k ∈ src.auth table

theorem not_inDeleteRange {k : Bytes} : (!inDeleteRange [] clearEnd k) = true ↔ clearEnd ≤ k := by
  simp [inDeleteRange]

theorem mem_filter_key {K V : Type} [Ord K] [TransOrd K] [LawfulEqOrd K] {t : Table K V}
    {p : K → Bool} {k : K} : k ∈ t.filter (fun k _ => p k) ↔ k ∈ t ∧ p k = true := by
  rw [← ExtTreeMap.isSome_getElem?_iff_mem, ← ExtTreeMap.isSome_getElem?_iff_mem,
    Table.getElem?_filter_key]
  cases p k <;> simp

theorem uncleared_overwrite_eq_iff {V : Type} {t src : Table Bytes V} :
    (uncleared t).overwrite src id = src ↔ ∀ k ∈ t, clearEnd ≤ k → k ∈ src := by
  simp only [Table.overwrite_eq_iff, uncleared, mem_filter_key, not_inDeleteRange, and_imp]

theorem unclearedKv_overwrite_eq_iff {t src : Table KvKey KvRecord} :
    (unclearedKv t).overwrite src id = src ↔ ∀ k ∈ t, clearEnd ≤ makeKvKey k → k ∈ src := by
  simp only [Table.overwrite_eq_iff, unclearedKv, mem_filter_key, not_inDeleteRange, and_imp]

/-- What a store keeps in memory is what its tables hold. -/
structure Loaded (s : Store) : Prop where
  index : loadIndex s.engine = s.index
  revs : (readWriteState s.engine).revs = s.view.revs

theorem loaded_of_reachable {s : Store} (reachable : Mvcc.Reachable s) : Loaded s :=
  ⟨loadIndex_eq reachable.inv, (readWriteState_engine reachable.inv).trans reachable.inv.view.symm⟩

/-- `t` holds the state of `s`, in its tables and in memory. -/
structure SameState (s t : Store) : Prop where
  kv : t.engine.kv = s.engine.kv
  idx : t.engine.idx = s.engine.idx
  lease : t.engine.lease = s.engine.lease
  leaseKeys : t.engine.leaseKeys = s.engine.leaseKeys
  auth : t.engine.auth = s.engine.auth
  index : t.index = s.index
  revs : t.view.revs = s.view.revs

/-- Installing a store's snapshot gives its state, iff the rows that the clearing leaves are its own. -/
theorem installSnapshot_eq_iff {s : Store} (loaded : Loaded s) (t : Store) (applied : Option LogId)
    (membership : StoredMembership) :
    let installed := installSnapshot t (writeBody (bodySource s.engine applied membership)) true
    installed.1 = .ok () ∧ (SameState s installed.2 ↔ Reached s.engine t.engine) := by
  obtain ⟨batch, body, commit⟩ := commit_streamBody s.engine t.engine applied membership
  intro installed
  have engine : installed.2.engine = replaced s.engine t.engine applied membership := by
    simp only [installed, installSnapshot, body]
    exact commit
  have answer : installed.1 = .ok () := by
    simp only [installed, installSnapshot, body]
    rfl
  have index : installed.2.index = loadIndex installed.2.engine := by
    simp only [installed, installSnapshot, body]
    rfl
  have revs : installed.2.view.revs = (readWriteState installed.2.engine).revs := by
    simp only [installed, installSnapshot, body]
    rfl
  refine ⟨answer, fun same => ?_, fun reached => ?_⟩
  · have kv := same.kv
    have idx := same.idx
    have auth := same.auth
    rw [engine] at kv idx auth
    exact ⟨unclearedKv_overwrite_eq_iff.mp kv, uncleared_overwrite_eq_iff.mp idx,
      fun table => uncleared_overwrite_eq_iff.mp (congrFun auth table)⟩
  · have idx : installed.2.engine.idx = s.engine.idx := by
      rw [engine]
      exact uncleared_overwrite_eq_iff.mpr reached.idx
    refine ⟨?_, idx, ?_, ?_, ?_, ?_, ?_⟩
    · rw [engine]
      exact unclearedKv_overwrite_eq_iff.mpr reached.kv
    · rw [engine]
      rfl
    · rw [engine]
      rfl
    · rw [engine]
      funext table
      exact uncleared_overwrite_eq_iff.mpr (reached.auth table)
    · rw [index, ← loaded.index, loadIndex, loadIndex, idx]
    · rw [revs, ← loaded.revs, engine]
      rfl

/-- A store in which one key was put. -/
def oneKey (key : Bytes) : Store :=
  ((Store.open Tables.empty).apply [.put key [1] 0 false false false] true).2

theorem reachable_oneKey (key : Bytes) : Mvcc.Reachable (oneKey key) :=
  ⟨_, _, .step .start (.apply _ true)⟩

/-- A store with one key becomes one with another. -/
theorem installSnapshot_eq_iff_one :
    SameState (oneKey [1])
      (installSnapshot (oneKey [2]) (writeBody (bodySource (oneKey [1]).engine none ⟨none, []⟩))
        true).2 := by
  have kv : ∀ row ∈ (oneKey [2]).engine.kv.toList, ¬ clearEnd ≤ makeKvKey row.1 := by decide +kernel
  have idx : ∀ row ∈ (oneKey [2]).engine.idx.toList, ¬ clearEnd ≤ row.1 := by decide +kernel
  refine ((installSnapshot_eq_iff (loaded_of_reachable (reachable_oneKey [1])) (oneKey [2]) none
    ⟨none, []⟩).2).mpr ⟨fun k mem late => ?_, fun k mem late => ?_, fun table k mem => ?_⟩
  · exact absurd late (kv (k, _) (ExtTreeMap.mem_toList_iff_getElem?_eq_some.mpr
      (ExtTreeMap.getElem?_eq_some_getElem mem)))
  · exact absurd late (idx (k, _) (ExtTreeMap.mem_toList_iff_getElem?_eq_some.mpr
      (ExtTreeMap.getElem?_eq_some_getElem mem)))
  · exact absurd mem ExtTreeMap.not_mem_empty

/-- The key of 64 bytes `0xFF` is in the index after a snapshot without it is installed. -/
theorem late_key_survives_install :
    let source := oneKey [1]
    let installed := (installSnapshot (oneKey clearEnd)
      (writeBody (bodySource source.engine none ⟨none, []⟩)) true).2
    source.index[clearEnd]? = none ∧ installed.index[clearEnd]?.isSome = true ∧
      ¬ SameState source installed := by
  intro source installed
  have absent : source.index[clearEnd]? = none := by decide +kernel
  have kept : installed.index[clearEnd]?.isSome = true := by decide +kernel
  refine ⟨absent, kept, fun same => ?_⟩
  rw [same.index, absent] at kept
  cases kept

end Fastetcd.Raft
