import Fastetcd.Laws.Mvcc.Compaction
import Fastetcd.Laws.Mvcc.Leases
import Fastetcd.Laws.Mvcc.SideCommits
import Fastetcd.Laws.Mvcc.Replay
import Fastetcd.Laws.Mvcc.SharedCommit

/-!
# What an operation can do

Every operation of the store is a sequence of moves of four kinds: nothing that a reader of keys or
a watcher can tell (`Quiet`), one request's writes at one new revision (`Wrote`), a compaction, and
a reopen. An invariant that the four keep holds of every run (`Run.invariant`), and none of them
needs to look into an operation again.
-/

namespace Fastetcd.Mvcc

open Timeline Reference KeyIndex Content Replay Std

/-! ## Moves -/

/-- `t` differs from `s` in nothing that reads, writes or watchers of keys can tell. -/
structure Quiet (s t : Store) : Prop where
  content : t.content = s.content
  idx : t.engine.idx = s.engine.idx
  stored : t.engine.metaRows.currentRev.getD 0 = s.engine.metaRows.currentRev.getD 0 ∧
    t.engine.metaRows.compactRev.getD 0 = s.engine.metaRows.compactRev.getD 0
  revs : t.writeState.revs = s.writeState.revs
  view : t.view.revs = s.view.revs
  values : ∀ {key : Bytes} {rev rec}, t.values[key]? = some (rev, rec) →
    rev.main ≤ s.writeState.currentRev ∧
      ∀ {rec'}, s.engine.kv[KvKey.mk key rev]? = some rec' → rec' = rec
  broadcast : t.broadcast = s.broadcast

/-- What a store at revision `current` broadcasts for a request that wrote `ws`. -/
def toldOf (current : Int) (ws : List Write) : List EventBatch :=
  if ws.isEmpty then [] else [⟨current + 1, ws.map Write.event⟩]

/-- `t` is `s` after one request wrote `ws`. -/
structure Wrote (s : Store) (ws : List Write) (t : Store) : Prop where
  inv : t.Inv
  content : t.content = s.content.writes ws
  fits : s.content.FitsAll ws
  revs : ∀ w ∈ ws, w.rev.main = s.writeState.currentRev + 1
  current : t.writeState.currentRev =
    if ws.isEmpty then s.writeState.currentRev else s.writeState.currentRev + 1
  compact : t.writeState.compactRev = s.writeState.compactRev
  broadcast : t.broadcast = s.broadcast ++ toldOf s.writeState.currentRev ws
  ordered : Ordered ws

/-- The effects of a request that wrote `ws`: what they do to the plain map, and the revisions they
were answered with. -/
structure Effected (s : Store) (effects : List Effect) (ws : List Write) : Prop where
  single : effects.length ≤ 1
  replays : (∀ e ∈ effects, e.isScanned = true) →
    effects.foldl Effect.run (plainOf s.content.cells) =
      plainOf (ws.foldl Reference.write s.content.cells)
  answered : ∀ e ∈ effects, e.rev = s.writeState.currentRev + 1 ∨
    e.rev = s.writeState.currentRev ∧ ws = []

inductive Move (s : Store) : List Effect → List EventBatch → Store → Prop
  | quiet {t : Store} (same : Quiet s t) : Move s [] [] t
  | wrote {effects : List Effect} {ws : List Write} {t : Store} (wrote : Wrote s ws t)
      (effected : Effected s effects ws) : Move s effects (toldOf s.writeState.currentRev ws) t
  | compacted {rev : Int} (positive : 0 < rev) (later : s.writeState.compactRev < rev)
      (reached : rev ≤ s.writeState.currentRev) : Move s [] [] (s.compactedAt rev)
  | reopened : Move s [] [] (Store.open s.engine)

/-- Moves one after the other. -/
inductive Moves (s : Store) : List Effect → List EventBatch → Store → Prop
  | none : Moves s [] [] s
  | tail {effects : List Effect} {batches : List EventBatch} {t u : Store} {new : List Effect}
      {more : List EventBatch} (moves : Moves s effects batches t) (move : Move t new more u) :
      Moves s (effects ++ new) (batches ++ more) u

theorem Move.moves {s t : Store} {effects : List Effect} {batches : List EventBatch}
    (move : Move s effects batches t) : Moves s effects batches t := by
  simpa using Moves.tail .none move

theorem Moves.trans {s t u : Store} {effects new : List Effect} {batches more : List EventBatch}
    (first : Moves s effects batches t) (second : Moves t new more u) :
    Moves s (effects ++ new) (batches ++ more) u := by
  induction second with
  | none => simpa using first
  | tail _ move ih =>
    rw [← List.append_assoc, ← List.append_assoc]
    exact .tail ih move

/-! ## Quiet moves -/

section Quiet

variable {s t : Store}

theorem Quiet.inv (same : Quiet s t) (inv : s.Inv) : t.Inv := by
  have current : t.writeState.currentRev = s.writeState.currentRev :=
    congrArg Revs.current same.revs
  have compact : t.writeState.compactRev = s.writeState.compactRev :=
    congrArg Revs.compact same.revs
  have kv : t.engine.kv = s.engine.kv := congrArg Content.kv same.content
  have index : t.index = s.index := congrArg Content.index same.content
  refine ⟨same.content ▸ inv.content, fun key => ?_, fun key x mem => ?_, ?_, ⟨?_, ?_⟩, ?_,
    fun key x mem low => ?_, fun held => ?_⟩
  · rw [same.idx, index]
    exact inv.idx key
  · rw [current]
    rw [same.content] at mem
    exact inv.settled key x mem
  · rw [same.view, same.revs, inv.view]
  · rw [same.stored.1, current, inv.stored.1]
  · rw [same.stored.2, compact, inv.stored.2]
  · rw [current, compact]
    exact inv.compact
  · rw [same.content] at mem ⊢
    rw [compact] at low ⊢
    exact inv.floor key x mem low
  · rw [current, kv]
    exact same.values held

/-- Batch operations that touch nothing of the keys: leases, auth and the other meta rows. -/
def BatchOp.isSide : BatchOp → Bool
  | .putMeta (.currentRev _) => false
  | .putMeta (.compactRev _) => false
  | .putMeta _ => true
  | .putLease _ _ => true
  | .deleteLease _ => true
  | .putAuth _ _ _ => true
  | .deleteAuth _ _ => true
  | .deleteRangeAuth _ _ _ => true
  | _ => false

theorem commit_side {batch : WriteBatch} (side : batch.all BatchOp.isSide = true) (t : Tables) :
    (t.commit batch).kv = t.kv ∧ (t.commit batch).idx = t.idx ∧
      (t.commit batch).leaseKeys = t.leaseKeys ∧
      (t.commit batch).metaRows.currentRev = t.metaRows.currentRev ∧
      (t.commit batch).metaRows.compactRev = t.metaRows.compactRev := by
  induction batch generalizing t with
  | nil => exact ⟨rfl, rfl, rfl, rfl, rfl⟩
  | cons op batch ih =>
    rw [List.all_cons, Bool.and_eq_true] at side
    rw [Tables.commit_cons]
    obtain ⟨kv, idx, leaseKeys, current, compact⟩ := ih side.2 (t.apply op)
    rw [kv, idx, leaseKeys, current, compact]
    match op with
    | .putMeta (.nextLeaseId _) | .putMeta (.clusterId _) | .putMeta (.raft _) | .putLease _ _
    | .deleteLease _ | .putAuth _ _ _ | .deleteAuth _ _ | .deleteRangeAuth _ _ _ =>
      exact ⟨rfl, rfl, rfl, rfl, rfl⟩

theorem side_append {a b : WriteBatch} (sideA : a.all BatchOp.isSide = true)
    (sideB : b.all BatchOp.isSide = true) : (a ++ b).all BatchOp.isSide = true := by
  rw [List.all_append, sideA, sideB]
  rfl

theorem side_raftRows (rows : List RaftRow) :
    (rows.map (BatchOp.putMeta ∘ MetaRow.raft)).all BatchOp.isSide = true := by
  simp [BatchOp.isSide]

/-- A store whose engine took a side batch, with its memory of the keys as it was. -/
theorem Quiet.side (inv : s.Inv) {batch : WriteBatch} (side : batch.all BatchOp.isSide = true)
    (engine : t.engine = s.engine.commit batch) (index : t.index = s.index)
    (revs : t.writeState.revs = s.writeState.revs) (view : t.view = s.view)
    (values : t.values = s.values) (broadcast : t.broadcast = s.broadcast) : Quiet s t := by
  obtain ⟨kv, idx, leaseKeys, current, compact⟩ := commit_side side s.engine
  refine ⟨?_, by rw [engine, idx], ⟨by rw [engine, current], by rw [engine, compact]⟩, revs,
    by rw [view], fun held => inv.values (values ▸ held), broadcast⟩
  rw [Store.content, Store.content, engine, kv, index, leaseKeys]

/-- A store with the same tables and the same memory of the keys. -/
theorem Quiet.same (inv : s.Inv) (engine : t.engine = s.engine) (index : t.index = s.index)
    (revs : t.writeState.revs = s.writeState.revs) (view : t.view = s.view)
    (values : t.values = s.values) (broadcast : t.broadcast = s.broadcast) : Quiet s t :=
  Quiet.side inv (List.all_nil : [].all BatchOp.isSide = true) engine index revs view values broadcast

theorem Quiet.refl (inv : s.Inv) : Quiet s s := Quiet.same inv rfl rfl rfl rfl rfl rfl

/-! ### Leases, cluster id and raft metadata -/

theorem side_folded (batch : WriteBatch) (side : batch.all BatchOp.isSide = true) :
    (s.folded batch).all BatchOp.isSide = true :=
  side_append side (side_raftRows s.pendingRaftMeta)

theorem quiet_leaseGrant (inv : s.Inv) (id : LeaseId) (ttlSecs nowUnix : Int) (engineOk : Bool) :
    Quiet s (s.applyLeaseGrant id ttlSecs nowUnix engineOk).2 := by
  rw [applyLeaseGrant_eq]
  split
  · exact .refl inv
  · cases engineOk with
    | false => exact .same inv rfl rfl rfl rfl rfl rfl
    | true =>
      refine .side inv (side_folded _ (side_append ?_ rfl)) rfl rfl rfl rfl rfl rfl
      split <;> rfl

theorem quiet_leaseKeepalive (inv : s.Inv) (id : LeaseId) (nowUnix : Int) (engineOk : Bool) :
    Quiet s (s.applyLeaseKeepalive id nowUnix engineOk).2 := by
  rw [applyLeaseKeepalive_eq]
  cases s.engine.lease[leaseIdKey id]? with
  | none => exact .refl inv
  | some lease =>
    cases engineOk with
    | false => exact .same inv rfl rfl rfl rfl rfl rfl
    | true => exact .side inv (side_folded [_] rfl) rfl rfl rfl rfl rfl rfl

theorem quiet_clusterId (inv : s.Inv) (id : UInt64) (engineOk : Bool) :
    Quiet s (s.applyClusterId id engineOk).2 := by
  rw [applyClusterId_eq]
  split
  · cases engineOk with
    | false => exact .same inv rfl rfl rfl rfl rfl rfl
    | true => exact .side inv (side_folded [_] rfl) rfl rfl rfl rfl rfl rfl
  · split
    · exact .refl inv
    · cases engineOk with
      | false => exact .same inv rfl rfl rfl rfl rfl rfl
      | true => exact .side inv (side_folded [] rfl) rfl rfl rfl rfl rfl rfl

theorem quiet_flushRaftMeta (inv : s.Inv) (engineOk : Bool) :
    Quiet s (s.flushRaftMeta engineOk).2 := by
  rw [flushRaftMeta_eq]
  split
  · exact .refl inv
  · cases engineOk with
    | false => exact .same inv rfl rfl rfl rfl rfl rfl
    | true => exact .side inv (side_folded [] rfl) rfl rfl rfl rfl rfl rfl

/-! ### Auth -/

theorem side_replaceInto (tables : AuthTables) :
    tables.replaceInto.all BatchOp.isSide = true := by
  simp [AuthTables.replaceInto, BatchOp.isSide]

theorem side_dropRole (t : Tables) (role : String) : (dropRole t role).all BatchOp.isSide = true := by
  refine List.all_eq_true.mpr fun op mem => ?_
  obtain ⟨row, -, staged⟩ := List.mem_filterMap.mp mem
  split at staged
  · cases staged
  · obtain ⟨-, staged⟩ := Option.ite_none_right_eq_some.mp staged
    rw [← Option.some.inj staged]
    rfl

/-- Whatever a change stages is in the auth tables. -/
theorem side_plan {t : Tables} {op : AuthOp} {effects : AuthEffects} {batch : WriteBatch}
    (planned : plan t op = .ok (.ok (effects, batch))) : batch.all BatchOp.isSide = true := by
  cases stages_of_plan planned with
  | roleDelete found => exact side_append (a := [_]) rfl (side_dropRole t _)
  | adopt tables => exact side_replaceInto tables
  | _ => rfl

theorem quiet_auth (inv : s.Inv) (op : AuthOp) (engineOk : Bool) :
    Quiet s (s.applyAuth op engineOk).2 := by
  rw [applyAuth_eq]
  cases planned : plan s.engine op with
  | error e => exact .refl inv
  | ok answer =>
    cases answer with
    | error refused => exact .refl inv
    | ok staged =>
      have side := side_folded (s := s) _ (side_plan planned)
      dsimp only
      split
      · exact .same inv rfl rfl rfl rfl rfl rfl
      · cases engineOk with
        | false => exact .same inv rfl rfl rfl rfl rfl rfl
        | true => exact .side inv side rfl rfl rfl rfl rfl rfl

end Quiet

/-! ## Writes -/

section Wrote

variable {s t u : Store} {ws : List Write}

theorem Wrote.none (inv : s.Inv) : Wrote s [] s :=
  ⟨inv, rfl, trivial, by simp, rfl, rfl, by simp [toldOf], List.Pairwise.nil⟩

theorem Wrote.committed (inv : s.Inv) {ctx : ApplyContext} (some : ws ≠ [])
    (recorded : Recorded s {} ws ctx)
    (revs : ∀ w ∈ ws, ∃ n : Nat, w.rev = ⟨s.writeState.currentRev + 1, n⟩) (ordered : Ordered ws) :
    Wrote s ws (s.committed (s.writeState.currentRev + 1) ctx) := by
  have nonempty := List.isEmpty_eq_false_iff.mpr some
  obtain ⟨content, broadcast⟩ := committed_recorded inv some recorded
  refine ⟨?_, content, recorded.staged.fits, fun w mem => ?_, ?_, rfl, ?_, ordered⟩
  · have served : Served s true (.ok ((), ws)) (.ok (), _) := .wrote rfl some recorded revs
    exact served.inv inv
  · obtain ⟨n, rev⟩ := revs w mem
    rw [rev]
  · rw [nonempty]
    rfl
  · rw [broadcast, toldOf, nonempty]
    rfl

/-- What a reader of keys cannot tell may come with the writes. -/
theorem Wrote.quiet (wrote : Wrote s ws t) (same : Quiet t u) : Wrote s ws u where
  inv := same.inv wrote.inv
  content := same.content.trans wrote.content
  fits := wrote.fits
  revs := wrote.revs
  current := (congrArg Revs.current same.revs).trans wrote.current
  compact := (congrArg Revs.compact same.revs).trans wrote.compact
  broadcast := same.broadcast.trans wrote.broadcast
  ordered := wrote.ordered

/-- A request that was answered wrote what the reference interpreter writes. -/
theorem Served.wrote_of_ok {α : Type} {engineOk : Bool} {a b : α}
    (served : Served s engineOk (.ok (a, ws)) (.ok b, t)) (inv : s.Inv) (ordered : Ordered ws) :
    b = a ∧ Wrote s ws t := by
  cases served with
  | idle => exact ⟨rfl, .none inv⟩
  | wrote _ some recorded revs => exact ⟨rfl, .committed inv some recorded revs ordered⟩

end Wrote

end Fastetcd.Mvcc
