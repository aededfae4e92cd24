import Fastetcd.Laws.Mvcc.Requests

/-!
# Revoking a lease

A revoke scans `lease_keys` between its id and the next one, deletes every key it finds there, and
drops the lease. The rows it scans are attachments of live keys, so the deletes already detach every
row, and dropping the rows again changes nothing. What a revoke does to the content is therefore one
commit of the cascade's writes.
-/

namespace Fastetcd.Mvcc

open Timeline Reference KeyIndex Content Std

/-! ## The rows of a lease -/

/-- The keys a revoke of `id` finds attached. -/
def attachedKeys (t : Tables) (id : LeaseId) : List Bytes := (attachedRows t id).map (List.drop 8)

theorem drop_leaseKeyIndex (id : LeaseId) (key : Bytes) : (leaseKeyIndex id key).drop 8 = key :=
  List.drop_left' (length_toBeBytes id)

theorem parseAttached_eq {rows : List Bytes}
    (encoded : ∀ row ∈ rows, ∃ id key, row = leaseKeyIndex id key) :
    parseAttached rows = .ok (rows.map (List.drop 8)) := by
  induction rows with
  | nil => rfl
  | cons row rows ih =>
    obtain ⟨id, key, rfl⟩ := encoded row (by simp)
    simp only [parseAttached, parseLeaseKeysKey_leaseKeyIndex,
      ih fun row mem => encoded row (by simp [mem]), bind, Except.bind, pure, Except.pure,
      List.map_cons, drop_leaseKeyIndex]

section Revoke

variable {s : Store}

theorem mem_attachedRows {id : LeaseId} {row : Bytes} :
    row ∈ attachedRows s.engine id ↔ row ∈ s.engine.leaseKeys ∧
      inBounds (leaseKeysBounds id).1 (leaseKeysBounds id).2 row = true := by
  simp only [attachedRows, List.mem_map, ExtTreeMap.mem_iff_isSome_getElem?,
    Option.isSome_iff_exists]
  constructor
  · rintro ⟨⟨row, v⟩, mem, rfl⟩
    obtain ⟨found, inside⟩ := Table.mem_scan.mp mem
    exact ⟨⟨v, found⟩, inside⟩
  · rintro ⟨⟨v, found⟩, inside⟩
    exact ⟨(row, v), Table.mem_scan.mpr ⟨found, inside⟩, rfl⟩

/-- The keys a revoke finds are live with a lease its scan reaches. -/
theorem mem_attachedKeys (inv : s.Inv) {id : LeaseId} {key : Bytes} :
    key ∈ attachedKeys s.engine id ↔ ∃ r, liveRow s.content.cells key = some r ∧
      r.record.lease ≠ 0 ∧ inBounds (leaseKeysBounds id).1 (leaseKeysBounds id).2
        (leaseKeyIndex r.record.lease key) = true := by
  simp only [attachedKeys, List.mem_map, mem_attachedRows]
  have attached := inv.content.attached
  constructor
  · rintro ⟨row, ⟨mem, inside⟩, rfl⟩
    obtain ⟨key, r, isLive, nonzero, rfl⟩ := (attached row).mp mem
    rw [drop_leaseKeyIndex]
    exact ⟨r, isLive, nonzero, inside⟩
  · rintro ⟨r, isLive, nonzero, inside⟩
    exact ⟨_, ⟨(attached _).mpr ⟨key, r, isLive, nonzero, rfl⟩, inside⟩, drop_leaseKeyIndex _ _⟩

theorem commit_deleteLeaseKeys (rows : List Bytes) (t : Tables) :
    t.commit (rows.map .deleteLeaseKey) =
      { t with leaseKeys := rows.foldl ExtTreeMap.erase t.leaseKeys } := by
  induction rows generalizing t with
  | nil => rfl
  | cons row rows ih => simp [Tables.apply, ih]

/-- What a lease drop adds to a commit: the lease goes, and its rows if any are left. -/
theorem commit_dropLease (id : LeaseId) (rows : List Bytes) (t : Tables) :
    t.commit (dropLease id rows) =
      { t with
        lease := t.lease.erase (leaseIdKey id)
        leaseKeys := rows.foldl ExtTreeMap.erase t.leaseKeys } := by
  rw [dropLease, Tables.commit_cons, commit_deleteLeaseKeys]
  rfl

/-! ## The revoke -/

/-- The tables after a commit of `ctx` that also drops a lease. -/
def revokedTables (s : Store) (id : LeaseId) (ctx : ApplyContext) : Tables :=
  { committedTables s (s.writeState.currentRev + 1) ctx with
    lease := s.engine.lease.erase (leaseIdKey id) }

/-- The store after a revoke whose cascade wrote `ctx`. -/
def Store.revoked (s : Store) (id : LeaseId) (ctx : ApplyContext) : Store :=
  { s.committed (s.writeState.currentRev + 1) ctx with
    engine := revokedTables s id ctx
    commits := s.commits ++ [revokedTables s id ctx] }

/-- The tables after a lease with no keys is dropped. -/
def leaseDroppedTables (s : Store) (id : LeaseId) : Tables :=
  { s.engine with
    lease := s.engine.lease.erase (leaseIdKey id)
    metaRows := { s.engine.metaRows with
      raft := s.pendingRaftMeta.foldl RaftTable.put s.engine.metaRows.raft } }

/-- The store after a lease with no keys is dropped. -/
def Store.leaseDropped (s : Store) (id : LeaseId) : Store :=
  { s with
    engine := leaseDroppedTables s id
    commits := s.commits ++ [leaseDroppedTables s id]
    pendingRaftMeta := [] }

theorem foldl_erase_of_not_mem {t : Table Bytes Unit} {rows : List Bytes}
    (absent : ∀ row ∈ rows, row ∉ t) : rows.foldl ExtTreeMap.erase t = t := by
  refine ExtTreeMap.ext_getElem? fun row => ?_
  rw [Table.getElem?_foldl_erase]
  split
  · next mem => exact (ExtTreeMap.getElem?_eq_none (absent row mem)).symm
  · rfl

/-- After the cascade no row the revoke scanned is left. -/
theorem not_mem_of_cascade (inv : s.Inv) {id : LeaseId} {ws : List Write} {ctx : ApplyContext}
    (recorded : Recorded s {} ws ctx)
    (left : ∀ k, liveRow (ws.foldl Reference.write s.content.cells) k =
      if k ∈ attachedKeys s.engine id then none else liveRow s.content.cells k) :
    ∀ row ∈ attachedRows s.engine id, row ∉ (overlay s ctx).leaseKeys := by
  intro row scanned mem
  have start : (overlay s {}).Inv := by simpa using inv.content
  obtain ⟨key, r, isLive, -, rfl⟩ := ((recorded.inv start).attached row).mp mem
  rw [recorded.cells start, overlay_empty, left, if_pos] at isLive
  · cases isLive
  · exact List.mem_map.mpr ⟨_, scanned, drop_leaseKeyIndex _ _⟩

/-- What a revoke does: the cascade's writes in one commit with the lease dropped, or the lease
dropped alone, or nothing if the engine fails. -/
theorem leaseRevoke_cases (inv : s.Inv) (id : LeaseId) (engineOk : Bool) :
    ∃ results ws,
      mutations (s.writeState.currentRev + 1) 0 (cascade (attachedKeys s.engine id))
        s.content.cells = .ok (results, ws) ∧
      (∀ k, liveRow (ws.foldl Reference.write s.content.cells) k =
        if k ∈ attachedKeys s.engine id then none else liveRow s.content.cells k) ∧
      ((engineOk = false ∧ s.applyLeaseRevoke id engineOk =
          (.error .storage, { s with pendingRaftMeta := [] })) ∨
        (engineOk = true ∧ ws = [] ∧ attachedKeys s.engine id = [] ∧
          s.applyLeaseRevoke id engineOk =
            (.ok ⟨s.writeState.currentRev, 0⟩, s.leaseDropped id)) ∨
        (engineOk = true ∧ ws ≠ [] ∧ ∃ ctx, Recorded s {} ws ctx ∧
          (∀ w ∈ ws, ∃ n : Nat, w.rev = ⟨s.writeState.currentRev + 1, n⟩) ∧
          s.applyLeaseRevoke id engineOk =
            (.ok ⟨s.writeState.currentRev + 1, (results.map MutationResult.n).sum⟩,
              s.revoked id ctx))) := by
  have plain : (cascade (attachedKeys s.engine id)).any ignoresPrev = false := by
    simp [cascade, ignoresPrev]
  obtain ⟨results, ws, mutated⟩ := mutations_ok (s.writeState.currentRev + 1) plain 0 s.content.cells
  have left := liveRow_cascade mutated
  refine ⟨results, ws, mutated, left, ?_⟩
  have parsed : parseAttached (attachedRows s.engine id) = .ok (attachedKeys s.engine id) :=
    parseAttached_eq fun row mem => by
      obtain ⟨key, r, -, -, rfl⟩ := (inv.content.attached row).mp (mem_attachedRows.mp mem).1
      exact ⟨_, _, rfl⟩
  simp only [Store.applyLeaseRevoke, parsed]
  by_cases none : attachedKeys s.engine id = []
  · have noRows : attachedRows s.engine id = [] := by simpa [attachedKeys] using none
    simp only [none, noRows, cascade, List.map_nil, List.isEmpty_nil, if_true, Bool.false_eq_true,
      if_false, List.nil_append]
    rw [none] at mutated
    obtain ⟨rfl, rfl⟩ := Prod.mk.inj (Except.ok.inj mutated)
    cases engineOk with
    | false => exact .inl ⟨rfl, rfl⟩
    | true =>
      refine .inr (.inl ⟨rfl, rfl, trivial, ?_⟩)
      simp only [Store.foldRaftMeta, Store.tryCommit, if_true, Store.engineCommit,
        Tables.commit_append, commit_dropLease, commit_raftRows]
      rfl
  · -- Some key is attached, so the cascade writes.
    have wrote : ws ≠ [] := by
      rintro rfl
      obtain ⟨key, mem⟩ := List.exists_mem_of_ne_nil _ none
      obtain ⟨r, isLive, -⟩ := (mem_attachedKeys inv).mp mem
      have := left key
      rw [if_pos mem, List.foldl_nil, isLive] at this
      cases this
    have some : (cascade (attachedKeys s.engine id)).isEmpty = false := by simpa [cascade] using none
    have start := inv.txnStart
    have below : ∀ key, ∀ x ∈ (overlay s {}).life key,
        x.1 < ⟨s.writeState.currentRev + 1, (0 : Nat)⟩ := fun key x mem =>
      Revision.lt_iff.mpr (.inl (Int.lt_add_one_of_le (start.settled key x mem)))
    rcases applyMutations_spec inv.cache (Int.lt_add_one_of_le le_rfl)
        (cascade (attachedKeys s.engine id)) start.coherent start.inv below with
      ⟨e, ctx, refused, -⟩ | ⟨results', ws', ctx, mutated', applied, recorded, revs⟩
    · rw [overlay_empty, mutated] at refused
      cases refused
    rw [overlay_empty, mutated] at mutated'
    obtain ⟨rfl, rfl⟩ := Prod.mk.inj (Except.ok.inj mutated')
    have produced : (!ws.isEmpty) = true := by simpa using wrote
    simp only [some, Bool.false_eq_true, if_false, Store.applyInner, applied, produced, if_true]
    cases engineOk with
    | false => exact .inl ⟨rfl, rfl⟩
    | true =>
      refine .inr (.inr ⟨rfl, wrote, ctx, recorded,
        fun w mem => (revs w mem).imp fun _ => And.right, ?_⟩)
      have gone := not_mem_of_cascade inv recorded left
      have tables : committedTables s (s.writeState.currentRev + 1)
          { ctx with batch := ctx.batch ++ dropLease id (attachedRows s.engine id) } =
            revokedTables s id ctx := by
        have footprint := recorded.coherent.footprint
        simp only [committedTables, revokedTables, Tables.commit_append, commit_dropLease]
        rw [footprint, foldl_erase_of_not_mem gone]
      rw [commitCtx_ok]
      simp only [Store.committed, tables, Store.revoked]
      rfl

end Revoke

end Fastetcd.Mvcc
