import Fastetcd.Laws.Mvcc.Answers

/-!
# Leases: exact revokes and fresh ids

A revoke finds the keys of its lease by a scan of `lease_keys` from the lease's id to the next one.
The ids are signed and their bytes are not: the scan of `-1` ends below its start and finds nothing,
and the scan of the largest id has no end and goes on through the negative ones. A revoke is exact
(`RevokedExactly`) for every other id, and for these two exactly if no live key is in the way.

Ids are allocated from a mark that a client's own ids raise. The mark in memory moves before the
commit that stores it. Every lease and every id that was given is at or below the stored mark
(`Marked`), which makes the next id new, as long as the mark has room and no client's id was taken
on the word of a mark that is not stored (`GrantsSafely`).
-/

namespace Fastetcd.Mvcc

open Timeline Reference KeyIndex Content
open Std (ExtTreeMap)

/-! ## Revokes -/

theorem lease_neg_iff (id : LeaseId) : id < 0 ↔ 2 ^ 63 ≤ id.toUInt64.toNat := by
  have bits : id.toInt = id.toUInt64.toBitVec.toInt := rfl
  have value : id.toUInt64.toBitVec.toNat = id.toUInt64.toNat := rfl
  have zero : (0 : LeaseId).toInt = 0 := rfl
  have bound := id.toUInt64.toNat_lt
  rw [Int64.lt_iff_toInt_lt, bits, BitVec.toInt_eq_toNat_cond, value, zero]
  split <;> omega

/-- The scan of a lease reaches the rows of its id; that of `-1` none, and that of the largest id the
rows of every negative id too. -/
theorem inBounds_leaseKeysBounds_iff (id lease : LeaseId) (key : Bytes) :
    inBounds (leaseKeysBounds id).1 (leaseKeysBounds id).2 (leaseKeyIndex lease key) = true ↔
      id ≠ -1 ∧ (lease = id ∨ id = Int64.maxValue ∧ lease < 0) := by
  have width (x y : Int64) : (toBeBytes x).length = (toBeBytes y).length :=
    (length_toBeBytes x).trans (length_toBeBytes y).symm
  by_cases low : id = -1
  · subst low
    have bounds : leaseKeysBounds (-1) = (.included (toBeBytes (-1)), .excluded (toBeBytes 0)) := by
      rw [leaseKeysBounds, leaseIdKey, fromBeBytes_toBeBytes]
      rfl
    have last : ¬leaseKeyIndex lease key < toBeBytes 0 := by
      rw [leaseKeyIndex, leaseIdKey, BigEndian.append_lt_iff (width _ _), value_toBeBytes,
        value_toBeBytes]
      exact Nat.not_lt_zero _
    simp [bounds, inBounds, last]
  · by_cases high : id = Int64.maxValue
    · subst high
      have bounds : leaseKeysBounds Int64.maxValue =
          (.included (toBeBytes Int64.maxValue), .unbounded) := by
        rw [leaseKeysBounds, leaseIdKey, fromBeBytes_toBeBytes, checkedSucc, if_pos rfl]
        rfl
      have first : toBeBytes Int64.maxValue ≤ leaseKeyIndex lease key ↔
          lease = Int64.maxValue ∨ lease < 0 := by
        have top : Int64.maxValue.toUInt64.toNat = 2 ^ 63 - 1 := by decide
        rw [leaseKeyIndex, leaseIdKey, BigEndian.le_append_iff (width _ _), value_toBeBytes,
          value_toBeBytes, lease_neg_iff, ← toNat_toUInt64_inj, top]
        omega
      simp [bounds, inBounds, first, low]
    · rw [inBounds_leaseKeysBounds low high]
      simp [low, high]

/-- `t` is `s` without lease `id`, its keys and its attachments, and nothing else of the leases and
the live keys differs. -/
structure RevokedExactly (s : Store) (id : LeaseId) (t : Store) : Prop where
  keys : ∀ key, t.liveRecord key = (s.liveRecord key).filter fun rec => !Replay.revokes id rec.lease
  lease : t.engine.lease = s.engine.lease.erase (leaseIdKey id)
  rows : ∀ row, row ∈ t.engine.leaseKeys ↔
    row ∈ s.engine.leaseKeys ∧ ∀ key, row ≠ leaseKeyIndex id key

section Revoke

variable {s t : Store} {id : LeaseId}

/-- What a revoke that is answered leaves. -/
theorem leaseRevoke_spec (inv : s.Inv) {engineOk : Bool} {result : LeaseRevokeResult}
    (served : s.applyLeaseRevoke id engineOk = (.ok result, t)) :
    t.Inv ∧ (∀ key, t.liveRecord key =
      if key ∈ attachedKeys s.engine id then none else s.liveRecord key) ∧
      t.engine.lease = s.engine.lease.erase (leaseIdKey id) ∧
      t.writeState.nextLeaseId = s.writeState.nextLeaseId ∧
      t.engine.metaRows.nextLeaseId = s.engine.metaRows.nextLeaseId := by
  obtain ⟨batches, -, move⟩ := leaseRevoke_move inv id engineOk
  have invT : t.Inv := by
    have := move.inv inv
    rwa [served] at this
  obtain ⟨results, ws, mutated, left, cases⟩ := leaseRevoke_cases inv id engineOk
  have live (cells : t.content.cells = ws.foldl Reference.write s.content.cells) (key : Bytes) :
      t.liveRecord key = if key ∈ attachedKeys s.engine id then none else s.liveRecord key := by
    rw [liveRecord_eq invT, liveRecord_eq inv, cells, left]
    split <;> rfl
  rcases cases with ⟨-, answer⟩ | ⟨-, rfl, -, answer⟩ | ⟨-, some, ctx, recorded, revs, answer⟩ <;>
    rw [served] at answer <;> cases answer
  · exact ⟨invT, live rfl, rfl, rfl, rfl⟩
  · refine ⟨invT, live ?_, rfl, rfl, ?_⟩
    · have wrote := Wrote.committed inv some recorded revs (mutations_ordered mutated).1
      have content : (s.revoked id ctx).content = s.content.writes ws := wrote.content
      rw [content, cells_writes inv.content recorded.staged.fits]
    · have footprint := recorded.coherent.footprint
      simp only [Store.revoked, revokedTables, committedTables, footprint]

/-- A revoke finds a live key exactly if the scan reaches its lease. -/
theorem mem_attachedKeys_iff (inv : s.Inv) {key : Bytes} :
    key ∈ attachedKeys s.engine id ↔ ∃ rec, s.liveRecord key = some rec ∧ rec.lease ≠ 0 ∧
      id ≠ -1 ∧ (rec.lease = id ∨ id = Int64.maxValue ∧ rec.lease < 0) := by
  simp only [mem_attachedKeys inv, inBounds_leaseKeysBounds_iff, liveRecord_eq inv,
    Option.map_eq_some_iff]
  constructor
  · rintro ⟨row, isLive, reached⟩
    exact ⟨row.record, ⟨row, isLive, rfl⟩, reached⟩
  · rintro ⟨rec, ⟨row, isLive, rfl⟩, reached⟩
    exact ⟨row, isLive, reached⟩

/-- The attachments of a store are those of its live keys. -/
theorem mem_leaseKeys_iff (inv : s.Inv) {row : Bytes} :
    row ∈ s.engine.leaseKeys ↔ ∃ key rec, s.liveRecord key = some rec ∧ rec.lease ≠ 0 ∧
      row = leaseKeyIndex rec.lease key := by
  have attached : row ∈ s.engine.leaseKeys ↔ _ := inv.content.attached row
  simp only [attached, liveRecord_eq inv, Option.map_eq_some_iff]
  constructor
  · rintro ⟨key, r, isLive, named⟩
    exact ⟨key, r.record, ⟨r, isLive, rfl⟩, named⟩
  · rintro ⟨key, rec, ⟨r, isLive, rfl⟩, named⟩
    exact ⟨key, r, isLive, named⟩

/-- A revoke is exact except that lease `-1` keeps its keys, and the largest lease takes those of
every negative one. -/
theorem leaseRevoke_exact_iff (reachable : Reachable s) {engineOk : Bool}
    {result : LeaseRevokeResult} (served : s.applyLeaseRevoke id engineOk = (.ok result, t)) :
    RevokedExactly s id t ↔
      (id = -1 → ∀ key rec, s.liveRecord key = some rec → rec.lease ≠ -1) ∧
      (id = Int64.maxValue → ∀ key rec, s.liveRecord key = some rec → ¬rec.lease < 0) := by
  have inv := reachable.inv
  obtain ⟨invT, live, lease, -⟩ := leaseRevoke_spec inv served
  constructor
  · rintro ⟨keys, -, -⟩
    refine ⟨?_, ?_⟩
    · rintro rfl key rec found carried
      have missed : key ∉ attachedKeys s.engine (-1) := by
        rw [mem_attachedKeys_iff inv]
        rintro ⟨-, -, -, other, -⟩
        exact other rfl
      have kept := (live key).symm.trans (keys key)
      rw [if_neg missed, found] at kept
      simp [Option.filter, Replay.revokes, carried] at kept
    · rintro rfl key rec found negative
      have reached : key ∈ attachedKeys s.engine Int64.maxValue := by
        rw [mem_attachedKeys_iff inv]
        refine ⟨rec, found, ?_, by decide, .inr ⟨rfl, negative⟩⟩
        rintro zero
        rw [zero] at negative
        exact absurd negative (by decide)
      have gone := (live key).symm.trans (keys key)
      have other : rec.lease ≠ Int64.maxValue := by
        rintro top
        rw [top] at negative
        exact absurd negative (by decide)
      rw [if_pos reached, found] at gone
      simp [Option.filter, Replay.revokes, other] at gone
  · rintro ⟨low, high⟩
    -- With no live key in the way, the scan finds exactly the keys of the lease.
    have scanned (key : Bytes) (rec : KvRecord) (found : s.liveRecord key = some rec) :
        key ∈ attachedKeys s.engine id ↔ Replay.revokes id rec.lease = true := by
      rw [mem_attachedKeys_iff inv]
      simp only [found, Option.some.injEq, exists_eq_left', Replay.revokes, Bool.and_eq_true,
        bne_iff_ne, beq_iff_eq]
      constructor
      · rintro ⟨nonzero, -, rfl | ⟨top, negative⟩⟩
        · exact ⟨nonzero, rfl⟩
        · exact absurd negative (high top key rec found)
      · rintro ⟨nonzero, rfl⟩
        exact ⟨nonzero, fun minusOne => low minusOne key rec found minusOne, .inl rfl⟩
    have keys (key : Bytes) : t.liveRecord key =
        (s.liveRecord key).filter fun rec => !Replay.revokes id rec.lease := by
      rw [live]
      cases found : s.liveRecord key with
      | none => simp
      | some rec => by_cases gone : Replay.revokes id rec.lease = true <;>
          simp [Option.filter, scanned key rec found, gone]
    refine ⟨keys, lease, fun row => ?_⟩
    simp only [mem_leaseKeys_iff inv, mem_leaseKeys_iff invT, keys, Option.filter_eq_some_iff,
      Replay.revokes, Bool.not_eq_true', Bool.and_eq_false_iff, bne_eq_false_iff_eq,
      beq_eq_false_iff_ne]
    constructor
    · rintro ⟨key, rec, ⟨found, kept⟩, nonzero, rfl⟩
      refine ⟨⟨key, rec, found, nonzero, rfl⟩, fun key' same => ?_⟩
      obtain ⟨own, -⟩ := leaseKeyIndex_inj.mp same
      rcases kept with zero | other
      · exact nonzero (own.trans zero)
      · exact other own
    · rintro ⟨⟨key, rec, found, nonzero, rfl⟩, other⟩
      exact ⟨key, rec, ⟨found, .inr fun own => other key (by rw [own])⟩, nonzero, rfl⟩

end Revoke

theorem leaseRevoke_exact_attached :
    let s := (((Store.open Tables.empty).applyLeaseGrant 5 60 0 true).2.apply
      [.put [97] [1] 5 false false false, .put [98] [2] (-7) false false false] true).2
    RevokedExactly s 5 (s.applyLeaseRevoke 5 true).2 := by
  intro s
  have run := Run.step (.step .start (.leaseGrant 5 60 0 true))
    (.apply [.put [97] [1] 5 false false false, .put [98] [2] (-7) false false false] true)
  have served : s.applyLeaseRevoke 5 true = (.ok ⟨2, 1⟩, (s.applyLeaseRevoke 5 true).2) :=
    Prod.ext (by decide +kernel) rfl
  exact (leaseRevoke_exact_iff ⟨_, _, run⟩ served).mpr
    ⟨fun same => absurd same (by decide), fun same => absurd same (by decide)⟩

/-- Revoking the largest lease deletes the key of a negative one. -/
theorem revoke_largest_takes_negative :
    ∃ s, Reachable s ∧ s.liveRecord [97] = some ⟨[97], [1], 1, 1, 1, -7, false⟩ ∧
      ∃ result t, s.applyLeaseRevoke Int64.maxValue true = (.ok result, t) ∧
        t.liveRecord [97] = none := by
  have run := Run.step .start (.apply [.put [97] [1] (-7) false false false] true)
  refine ⟨_, ⟨_, _, run⟩, ?_, ⟨2, 1⟩, _, Prod.ext ?_ rfl, ?_⟩
  · decide +kernel
  · decide +kernel
  · decide +kernel

/-! ## Ids -/

/-- The mark that the tables hold. -/
def Store.storedMark (s : Store) : LeaseId := s.engine.metaRows.nextLeaseId.getD 0

/-- The id a grant allocated, if it was asked to and is answered. -/
def allocated (id : LeaseId) : Except MvccError LeaseGrantResult → List LeaseId
  | .ok result => if id = 0 then [result.id] else []
  | .error _ => []

/-- Grants, revokes and reopens, each grant as `safe` allows, with every id that was allocated. Any
operation that leaves the leases and the marks may come between. -/
inductive LeaseRun (safe : Store → LeaseId → Prop) : List LeaseId → Store → Prop
  | start : LeaseRun safe [] (Store.open Tables.empty)
  | grant {ids : List LeaseId} {s : Store} (run : LeaseRun safe ids s) (id : LeaseId)
      (ttlSecs nowUnix : Int) (engineOk : Bool) (ok : safe s id) :
      LeaseRun safe (ids ++ allocated id (s.applyLeaseGrant id ttlSecs nowUnix engineOk).1)
        (s.applyLeaseGrant id ttlSecs nowUnix engineOk).2
  | revoke {ids : List LeaseId} {s : Store} (run : LeaseRun safe ids s) (id : LeaseId)
      (engineOk : Bool) : LeaseRun safe ids (s.applyLeaseRevoke id engineOk).2
  | reopen {ids : List LeaseId} {s : Store} (run : LeaseRun safe ids s) :
      LeaseRun safe ids (Store.open s.engine)
  | other {ids : List LeaseId} {s t : Store} {effects : List Replay.Effect}
      (run : LeaseRun safe ids s) (step : Step s effects t)
      (lease : t.engine.lease = s.engine.lease)
      (mark : t.writeState.nextLeaseId = s.writeState.nextLeaseId)
      (stored : t.storedMark = s.storedMark) : LeaseRun safe ids t

/-- The mark has room for an allocation, and a client's id that does not raise the mark is not above
the one that is stored. -/
def GrantsSafely (s : Store) (id : LeaseId) : Prop :=
  (id = 0 → s.writeState.nextLeaseId ≠ Int64.maxValue) ∧
    (id ≤ s.writeState.nextLeaseId → id ≤ s.storedMark)

/-- Every lease and every allocated id is at or below the stored mark, which the mark in memory is
not below. -/
structure Marked (ids : List LeaseId) (s : Store) : Prop where
  nonneg : 0 ≤ s.storedMark.toInt
  below : s.storedMark.toInt ≤ s.writeState.nextLeaseId.toInt
  leases : ∀ id, leaseIdKey id ∈ s.engine.lease → id.toInt ≤ s.storedMark.toInt
  given : ∀ id ∈ ids, 0 < id.toInt ∧ id.toInt ≤ s.storedMark.toInt

section Ids

variable {s t : Store} {ids : List LeaseId} {safe : Store → LeaseId → Prop}

theorem leaseIdKey_inj {a b : LeaseId} : leaseIdKey a = leaseIdKey b ↔ a = b := by
  refine ⟨fun same => ?_, fun same => by rw [same]⟩
  rw [← fromBeBytes_toBeBytes a, ← fromBeBytes_toBeBytes b]
  exact congrArg fromBeBytes same

theorem toInt_succ {mark : LeaseId} (room : mark ≠ Int64.maxValue) :
    (mark + 1).toInt = mark.toInt + 1 := by
  have top : mark.toInt ≠ 2 ^ 63 - 1 := fun same => room (Int64.toInt_inj.mp same)
  have low := mark.le_toInt
  have high := mark.toInt_lt
  have one : (1 : LeaseId).toInt = 1 := rfl
  rw [Int64.toInt_add, one]
  exact Int.bmod_eq_of_le (by omega) (by omega)

theorem LeaseRun.reachable (run : LeaseRun safe ids s) : Reachable s := by
  induction run with
  | start => exact ⟨_, _, .start⟩
  | grant _ id ttlSecs nowUnix engineOk _ ih =>
    obtain ⟨effects, told, run⟩ := ih
    exact ⟨_, _, run.step (.leaseGrant id ttlSecs nowUnix engineOk)⟩
  | revoke _ id engineOk ih =>
    obtain ⟨effects, told, run⟩ := ih
    exact ⟨_, _, run.step (.leaseRevoke id engineOk)⟩
  | reopen _ ih =>
    obtain ⟨effects, told, run⟩ := ih
    exact ⟨_, _, run.step .reopen⟩
  | other _ step _ _ _ ih =>
    obtain ⟨effects, told, run⟩ := ih
    exact ⟨_, _, run.step step⟩

/-- A stored mark that only rises, past the one lease that is new. -/
theorem Marked.raised (marked : Marked ids s) (finalId : LeaseId) (new : List LeaseId)
    (lease : ∀ key, key ∈ t.engine.lease → key = leaseIdKey finalId ∨ key ∈ s.engine.lease)
    (rises : s.storedMark.toInt ≤ t.storedMark.toInt)
    (below : t.storedMark.toInt ≤ t.writeState.nextLeaseId.toInt)
    (covers : finalId.toInt ≤ t.storedMark.toInt)
    (fresh : ∀ id ∈ new, id = finalId ∧ 0 < id.toInt) : Marked (ids ++ new) t where
  nonneg := marked.nonneg.trans rises
  below := below
  leases id mem := by
    obtain same | old := lease _ mem
    · rw [leaseIdKey_inj.mp same]
      exact covers
    · exact (marked.leases id old).trans rises
  given id mem := by
    obtain old | here := List.mem_append.mp mem
    · exact ⟨(marked.given id old).1, (marked.given id old).2.trans rises⟩
    · obtain ⟨rfl, positive⟩ := fresh id here
      exact ⟨positive, covers⟩

/-- What keeps the stored mark and adds no lease. -/
theorem Marked.kept (marked : Marked ids s)
    (lease : ∀ key, key ∈ t.engine.lease → key ∈ s.engine.lease)
    (stored : t.storedMark = s.storedMark)
    (mark : s.storedMark.toInt ≤ t.writeState.nextLeaseId.toInt) : Marked ids t := by
  have none := marked.raised s.storedMark []
    (fun key mem => .inr (lease key mem)) (by rw [stored]) (by rwa [stored]) (by rw [stored])
    (by simp)
  rwa [List.append_nil] at none

/-- What a grant does to the leases and the marks: nothing is stored if it fails, though the mark may
have moved. -/
theorem applyLeaseGrant_marks {answer : Except MvccError LeaseGrantResult} {id : LeaseId}
    {ttlSecs nowUnix : Int} {engineOk : Bool}
    (granted : s.applyLeaseGrant id ttlSecs nowUnix engineOk = (answer, t)) :
    (∃ e, answer = .error e ∧ t.engine = s.engine ∧
      (t.writeState.nextLeaseId = s.writeState.nextLeaseId ∨
        t.writeState.nextLeaseId = (grantId id s.writeState.nextLeaseId).2)) ∨
    (answer = .ok ⟨(grantId id s.writeState.nextLeaseId).1, ttlSecs, s.writeState.currentRev⟩ ∧
      (∀ key, key ∈ t.engine.lease ↔
        key = leaseIdKey (grantId id s.writeState.nextLeaseId).1 ∨ key ∈ s.engine.lease) ∧
      t.writeState.nextLeaseId = (grantId id s.writeState.nextLeaseId).2 ∧
      t.storedMark = if id = 0 ∨ id > s.writeState.nextLeaseId then
        (grantId id s.writeState.nextLeaseId).2 else s.storedMark) := by
  rw [applyLeaseGrant_eq] at granted
  by_cases refused : ttlSecs ≤ 0
  · rw [if_pos refused] at granted
    cases granted
    exact .inl ⟨_, rfl, rfl, .inl rfl⟩
  · rw [if_neg refused] at granted
    cases engineOk with
    | false =>
      cases granted
      exact .inl ⟨_, rfl, rfl, .inr rfl⟩
    | true =>
      generalize grantId id s.writeState.nextLeaseId = next at granted ⊢
      obtain ⟨finalId, mark⟩ := next
      cases granted
      refine .inr ⟨rfl, fun key => ?_, rfl, ?_⟩
      · simp only [Store.sideCommitted, Store.folded, Tables.commit_append, commit_raftRows]
        split <;> simp [Tables.apply, ExtTreeMap.mem_insert, @eq_comm _ key]
      · simp only [Store.storedMark, Store.sideCommitted, Store.folded, Tables.commit_append,
          commit_raftRows]
        split <;> simp [Tables.apply, MetaTable.put]

/-- The id and the mark of a grant as integers. -/
theorem toInt_grantId {id mark : LeaseId} (room : id = 0 → mark ≠ Int64.maxValue) :
    (id = 0 ∧ grantId id mark = (mark + 1, mark + 1) ∧ (mark + 1).toInt = mark.toInt + 1) ∨
      (id ≠ 0 ∧ mark.toInt < id.toInt ∧ id > mark ∧ grantId id mark = (id, id)) ∨
      (id ≠ 0 ∧ id.toInt ≤ mark.toInt ∧ ¬id > mark ∧ grantId id mark = (id, mark)) := by
  unfold grantId
  by_cases auto : id = 0
  · exact .inl ⟨auto, if_pos auto, toInt_succ (room auto)⟩
  · rw [if_neg auto]
    by_cases above : id > mark
    · exact .inr (.inl ⟨auto, Int64.lt_iff_toInt_lt.mp above, above, if_pos above⟩)
    · refine .inr (.inr ⟨auto, ?_, above, if_neg above⟩)
      by_contra past
      exact above (Int64.lt_iff_toInt_lt.mpr (Int.not_le.mp past))

theorem Marked.grant (marked : Marked ids s) {id : LeaseId} (ok : GrantsSafely s id)
    {answer : Except MvccError LeaseGrantResult} {ttlSecs nowUnix : Int} {engineOk : Bool}
    (granted : s.applyLeaseGrant id ttlSecs nowUnix engineOk = (answer, t)) :
    Marked (ids ++ allocated id answer) t := by
  obtain ⟨room, trusted⟩ := ok
  have nonneg := marked.nonneg
  have below := marked.below
  have known := toInt_grantId room
  obtain ⟨e, rfl, engine, mark⟩ | ⟨rfl, lease, mark, stored⟩ := applyLeaseGrant_marks granted
  · -- The mark in memory only rises.
    rw [allocated, List.append_nil]
    refine marked.kept (fun key mem => engine ▸ mem) (by rw [Store.storedMark, engine]; rfl) ?_
    rcases mark with mark | mark <;> rw [mark]
    · exact below
    · obtain ⟨-, eq, next⟩ | ⟨-, above, -, eq⟩ | ⟨-, -, -, eq⟩ := known <;> rw [eq] <;> dsimp only <;>
        omega
  · obtain ⟨rfl, eq, next⟩ | ⟨own, above, raises, eq⟩ | ⟨own, low, keeps, eq⟩ := known <;>
      rw [eq] at lease mark stored ⊢ <;> dsimp only at lease mark stored ⊢
    · rw [if_pos (.inl rfl)] at stored
      refine marked.raised _ _ (fun key => (lease key).mp) ?_ ?_ ?_ fun id mem => ?_
      · rw [stored]
        omega
      · rw [stored, mark]
      · rw [stored]
      · rw [allocated, if_pos rfl, List.mem_singleton] at mem
        refine ⟨mem, ?_⟩
        rw [mem]
        change 0 < (s.writeState.nextLeaseId + 1).toInt
        omega
    · rw [if_pos (.inr raises)] at stored
      refine marked.raised _ _ (fun key => (lease key).mp) ?_ ?_ ?_ (by simp [allocated, own])
      · rw [stored]
        omega
      · rw [stored, mark]
      · rw [stored]
    · rw [if_neg (by simp [own, keeps])] at stored
      have stays : id ≤ s.storedMark := trusted (Int64.le_iff_toInt_le.mpr low)
      refine marked.raised _ _ (fun key => (lease key).mp) ?_ ?_ ?_ (by simp [allocated, own])
      · rw [stored]
      · rw [stored, mark]
        exact below
      · rw [stored]
        exact Int64.le_iff_toInt_le.mp stays

theorem Marked.revoke (marked : Marked ids s) (inv : s.Inv) (id : LeaseId) (engineOk : Bool) :
    Marked ids (s.applyLeaseRevoke id engineOk).2 := by
  generalize revoked : s.applyLeaseRevoke id engineOk = served
  obtain ⟨answer, t⟩ := served
  cases answer with
  | ok result =>
    obtain ⟨-, -, lease, mark, stored⟩ := leaseRevoke_spec inv revoked
    refine marked.kept (fun key mem => ?_) (by rw [Store.storedMark, stored]; rfl) ?_
    · rw [lease, ExtTreeMap.mem_erase] at mem
      exact mem.2
    · rw [mark]
      exact marked.below
  | error e =>
    obtain ⟨results, ws, -, -, cases⟩ := leaseRevoke_cases inv id engineOk
    rcases cases with ⟨-, answer⟩ | ⟨-, -, -, answer⟩ | ⟨-, -, ctx, -, -, answer⟩ <;>
      rw [revoked] at answer <;> cases answer
    exact marked.kept (fun _ mem => mem) rfl marked.below

theorem Marked.reopen (marked : Marked ids s) : Marked ids (Store.open s.engine) := by
  obtain ⟨tables, state⟩ := initTables_eq s.engine
  have stored : (Store.open s.engine).storedMark = s.storedMark :=
    congrArg WriteState.nextLeaseId state
  have lease : (Store.open s.engine).engine.lease = s.engine.lease :=
    (congrArg Tables.lease tables).trans rfl
  refine marked.kept (fun key mem => lease ▸ mem) stored ?_
  exact le_rfl

theorem LeaseRun.marked (run : LeaseRun GrantsSafely ids s) : Marked ids s := by
  induction run with
  | start =>
    refine ⟨by decide, by decide, fun id mem => ?_, fun id mem => nomatch mem⟩
    have none : (Store.open Tables.empty).engine.lease = ∅ := rfl
    simp [none] at mem
  | grant _ id ttlSecs nowUnix engineOk ok ih => exact ih.grant ok rfl
  | revoke run id engineOk ih => exact ih.revoke run.reachable.inv id engineOk
  | reopen _ ih => exact ih.reopen
  | other _ _ lease mark stored ih =>
    exact ih.kept (fun key mem => lease ▸ mem) stored (mark ▸ ih.below)

end Ids

/-- An id that is allocated is one more than the mark, so it is positive, no lease has it and it was
never allocated before. -/
theorem LeaseRun.allocates_fresh {ids : List LeaseId} {s t : Store}
    (run : LeaseRun GrantsSafely ids s) (safe : GrantsSafely s 0) {ttlSecs nowUnix : Int}
    {engineOk : Bool} {result : LeaseGrantResult}
    (granted : s.applyLeaseGrant 0 ttlSecs nowUnix engineOk = (.ok result, t)) :
    result.id.toInt = s.writeState.nextLeaseId.toInt + 1 ∧ result.id ≠ 0 ∧
      s.engine.lease[leaseIdKey result.id]? = none ∧ result.id ∉ ids := by
  have marked := run.marked
  have nonneg := marked.nonneg
  have below := marked.below
  obtain ⟨e, failed, -⟩ | ⟨answered, -⟩ := applyLeaseGrant_marks granted
  · cases failed
  · obtain ⟨-, eq, next⟩ | ⟨own, -⟩ | ⟨own, -⟩ := toInt_grantId safe.1
    · have id : result.id = s.writeState.nextLeaseId + 1 := by
        rw [Except.ok.inj answered, eq]
      rw [← id] at next
      refine ⟨next, fun zero => ?_, ?_, fun given => ?_⟩
      · have : result.id.toInt = 0 := by rw [zero]; rfl
        omega
      · refine ExtTreeMap.getElem?_eq_none fun mem => ?_
        have := marked.leases _ mem
        omega
      · have := marked.given _ given
        omega
    · exact absurd rfl own
    · exact absurd rfl own

theorem LeaseRun.allocates_fresh_reopened :
    let s := Store.open ((Store.open Tables.empty).applyLeaseGrant 7 60 0 true).2.engine
    ∃ t, s.applyLeaseGrant 0 60 0 true = (.ok ⟨8, 60, 0⟩, t) ∧
      s.engine.lease[leaseIdKey 8]? = none := by
  intro s
  have run : LeaseRun GrantsSafely [] s :=
    .reopen (.grant .start 7 60 0 true ⟨by decide, by decide⟩)
  have granted : s.applyLeaseGrant 0 60 0 true =
      (.ok ⟨8, 60, 0⟩, (s.applyLeaseGrant 0 60 0 true).2) := Prod.ext (by decide +kernel) rfl
  have safe : GrantsSafely s 0 := ⟨by decide +kernel, by decide +kernel⟩
  exact ⟨_, granted, (LeaseRun.allocates_fresh run safe granted).2.2.1⟩

/-- A client that picks the largest id leaves no room, and the next allocation overflows. -/
theorem largest_id_overflows :
    ∃ s, LeaseRun (fun _ _ => True) [] s ∧ s.writeState.nextLeaseId = Int64.maxValue ∧
      ∃ t, s.applyLeaseGrant 0 60 0 true = (.ok ⟨Int64.minValue, 60, 0⟩, t) := by
  have run : LeaseRun (fun _ _ => True) _ _ := .grant .start Int64.maxValue 60 0 true trivial
  exact ⟨_, run, by decide +kernel, _, Prod.ext (by decide +kernel) rfl⟩

end Fastetcd.Mvcc
