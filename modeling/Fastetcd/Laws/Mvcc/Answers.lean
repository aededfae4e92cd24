import Fastetcd.Laws.Mvcc.Guarantees

/-!
# What requests are answered

The revision a request is answered with is the store's own after it, so that a read there is never
refused as being in the future, with one exception: a list of mutations that touched no key is
answered with the revision it would have taken (`Effective`).

The branch a txn takes is decided by the live keys, with one exception: a range compare also meets
each deleted key that the index still knows, as the zero record, until a compaction drops it
(`Settled`).
-/

namespace Fastetcd.Mvcc

open Timeline Reference KeyIndex Content
open Std (ExtTreeMap)

/-! ## Revisions -/

/-- The revision a request of a shared commit is answered with. -/
def ApplyOutcome.revision : ApplyOutcome → Int
  | .mutations revision _ => revision
  | .txn result => result.revision
  | .refused revision _ => revision

/-- There was no mutation, or some mutation touched a key. -/
def Effective (results : List MutationResult) : Prop := results = [] ∨ ∃ r ∈ results, 0 < r.n

def ApplyOutcome.Effective : ApplyOutcome → Prop
  | .mutations _ results => Mvcc.Effective results
  | .txn _ => True
  | .refused _ _ => True

/-- No Range at `rev` is answered that the revision is in the future. -/
def Store.Readable (t : Store) (rev : Int) : Prop :=
  ∀ r : RangeOp, r.revision = rev → ∀ requested current,
    (t.rangeWithRevision r).1 ≠ .error (.futureRevision requested current)

/-- `rev` is the revision of `t`, and can be read there, exactly if `effective`. -/
structure Store.Answers (t : Store) (rev : Int) (effective : Prop) : Prop where
  current : rev = t.view.current ↔ effective
  readable : t.Readable rev ↔ effective

section Revisions

variable {s t : Store}

theorem readable_iff (inv : t.Inv) (rev : Int) :
    t.Readable rev ↔ rev ≤ t.writeState.currentRev := by
  constructor
  · intro readable
    by_contra past
    have positive := inv.compact.1.trans inv.compact.2
    let r : RangeOp := ⟨[0], [], 0, rev, false, false⟩
    have refused : checkReadRev t.writeState.revs r.revision =
        .error (.futureRevision rev t.writeState.currentRev) := by
      have positive : rev > 0 ∧ rev > t.writeState.revs.current :=
        ⟨by omega, Int.not_le.mp past⟩
      rw [checkReadRev, if_pos positive]
      rfl
    rcases rangeWithRevision_spec inv r with ⟨e, error, answer⟩ | ⟨main, values, ok, -⟩
    · rw [refused] at error
      cases error
      exact readable r rfl _ _ (congrArg Prod.fst answer)
    · rw [refused] at ok
      cases ok
  · rintro reached r rfl requested current future
    rcases rangeWithRevision_spec inv r with ⟨e, error, answer⟩ | ⟨main, values, -, answer, -⟩
    · rw [answer] at future
      obtain rfl : e = .futureRevision requested current := Except.error.inj future
      unfold checkReadRev at error
      split at error
      · next past => exact absurd past.2 (not_lt.mpr reached)
      · split at error <;> cases error
    · rw [answer] at future
      cases future

/-- A store at its own revision. -/
theorem answers_of_eq (inv : t.Inv) {rev : Int} {effective : Prop}
    (current : rev = t.writeState.currentRev) (holds : effective) : t.Answers rev effective := by
  have view : t.view.current = t.writeState.currentRev := congrArg Revs.current inv.view
  exact ⟨iff_of_true (current.trans view.symm) holds,
    iff_of_true ((readable_iff inv rev).mpr current.le) holds⟩

/-- A store below the revision it answered. -/
theorem answers_of_lt (inv : t.Inv) {rev : Int} {effective : Prop}
    (past : t.writeState.currentRev < rev) (fails : ¬effective) : t.Answers rev effective := by
  have view : t.view.current = t.writeState.currentRev := congrArg Revs.current inv.view
  exact ⟨iff_of_false (by omega) fails,
    iff_of_false (fun readable => past.not_ge ((readable_iff inv rev).mp readable)) fails⟩

/-! ### Mutations -/

/-- A mutation counts its writes. -/
theorem n_of_mutate {cells : Cells} {rev : Revision} {m : Mutation} {result : MutationResult}
    {ws : List Write} (ran : mutate cells rev m = .ok (result, ws)) : result.n = ws.length := by
  cases m with
  | put key value lease ignoreValue ignoreLease prevKv =>
    simp only [mutate] at ran
    split at ran
    · cases ran
    · obtain ⟨rfl, rfl⟩ := Prod.mk.inj (Except.ok.inj ran)
      rfl
  | deleteRange key rangeEnd prevKv =>
    obtain ⟨rfl, rfl⟩ := Prod.mk.inj (Except.ok.inj ran)
    simp

/-- Mutations touched a key exactly if they wrote something. -/
theorem touched_iff {main : Int} {ms : List Mutation} {sub : Nat} {cells : Cells}
    {results : List MutationResult} {ws : List Write}
    (ran : mutations main sub ms cells = .ok (results, ws)) :
    (results = [] ↔ ms = []) ∧ ((∃ r ∈ results, 0 < r.n) ↔ ws ≠ []) := by
  induction ms generalizing sub cells results ws with
  | nil =>
    obtain ⟨rfl, rfl⟩ := Prod.mk.inj (Except.ok.inj ran)
    simp
  | cons m ms ih =>
    simp only [mutations, bind, Except.bind] at ran
    cases first : mutate cells ⟨main, sub⟩ m with
    | error e => rw [first] at ran; cases ran
    | ok out =>
      obtain ⟨result, here⟩ := out
      simp only [first] at ran
      cases tail : mutations main (sub + 1) ms (here.foldl write cells) with
      | error e => rw [tail] at ran; cases ran
      | ok out =>
        obtain ⟨results', rest⟩ := out
        simp only [tail, pure, Except.pure, Except.ok.injEq, Prod.mk.injEq] at ran
        obtain ⟨rfl, rfl⟩ := ran
        have count := n_of_mutate first
        have touched : 0 < result.n ↔ here ≠ [] := by
          rw [count, ← List.length_pos_iff_ne_nil]
          exact Int.natCast_pos
        rw [List.exists_mem_cons_iff, (ih tail).2, touched]
        simp [or_iff_not_imp_left]

theorem apply_answers (inv : s.Inv) {ms : List Mutation} {engineOk : Bool} {rev : Int}
    {results : List MutationResult} (served : s.apply ms engineOk = (.ok (rev, results), t)) :
    t.Answers rev (Effective results) := by
  have here := apply_served inv ms engineOk
  rw [served] at here
  have invT : t.Inv := here.inv inv
  generalize ran : Reference.apply s.env ms = reference at here
  cases reference with
  | error e => cases here
  | ok answer =>
    obtain ⟨⟨rev', results'⟩, ws⟩ := answer
    unfold Reference.apply at ran
    split at ran
    · cases ran
      obtain ⟨same, wrote⟩ := here.wrote_of_ok inv List.Pairwise.nil
      obtain ⟨rfl, rfl⟩ := Prod.mk.inj same
      exact answers_of_eq invT wrote.current.symm (.inl rfl)
    · next some =>
      simp only [bind, Except.bind] at ran
      split at ran
      · cases ran
      · next out mutated =>
        cases ran
        obtain ⟨none, touched⟩ := touched_iff mutated
        obtain ⟨same, wrote⟩ := here.wrote_of_ok inv (mutations_ordered mutated).1
        obtain ⟨rfl, rfl⟩ := Prod.mk.inj same
        have main : s.env.main = s.writeState.currentRev + 1 := rfl
        have current := wrote.current
        by_cases wrote : out.2 = []
        · refine answers_of_lt invT ?_ ?_
          · rw [current, wrote, main]
            simp
          · rintro (nothing | some)
            · simp [none.mp nothing] at some
            · exact touched.mp some wrote
        · refine answers_of_eq invT ?_ (.inr (touched.mpr wrote))
          rw [current, main, List.isEmpty_eq_false_iff.mpr wrote]
          rfl

/-! ### Transactions, revokes and shared commits -/

theorem txn_answers (inv : s.Inv) {compares : List Compare} {success failure : List TxnOp}
    {engineOk : Bool} {result : TxnResult}
    (served : s.txn compares success failure engineOk = (.ok result, t)) :
    t.Answers result.revision True := by
  have here := txn_served inv compares success failure engineOk
  rw [served] at here
  have invT : t.Inv := here.inv inv
  generalize ran : Reference.txn s.env compares success failure = reference at here
  cases reference with
  | error e => cases here
  | ok answer =>
    obtain ⟨result', ws⟩ := answer
    obtain ⟨-, ordered, revision⟩ := plainOf_txn ran
    obtain ⟨rfl, wrote⟩ := here.wrote_of_ok inv ordered
    exact answers_of_eq invT (revision.trans wrote.current.symm) trivial

theorem leaseRevoke_answers (inv : s.Inv) {id : LeaseId} {engineOk : Bool}
    {result : LeaseRevokeResult} (served : s.applyLeaseRevoke id engineOk = (.ok result, t)) :
    t.Answers result.revision True := by
  obtain ⟨batches, -, move⟩ := leaseRevoke_move inv id engineOk
  have invT : t.Inv := by
    have := move.inv inv
    rwa [served] at this
  obtain ⟨results, ws, -, -, cases⟩ := leaseRevoke_cases inv id engineOk
  rcases cases with ⟨-, answer⟩ | ⟨-, -, -, answer⟩ | ⟨-, -, ctx, -, -, answer⟩ <;>
    rw [served] at answer
  · cases answer
  · cases answer
    exact answers_of_eq invT rfl trivial
  · cases answer
    exact answers_of_eq invT rfl trivial

theorem serve_answers (inv : s.Inv) {item : ApplyItem} {outcome : ApplyOutcome}
    (served : s.serve item = (.ok outcome, t)) : t.Answers outcome.revision outcome.Effective := by
  obtain ⟨batches, -, move⟩ := serve_move inv served
  have invT : t.Inv := move.inv inv
  have refused (refusal : Refusal) : t.Answers (ApplyOutcome.refused t.view.current refusal).revision
      (ApplyOutcome.refused t.view.current refusal).Effective :=
    answers_of_eq invT (congrArg Revs.current invT.view) trivial
  cases item with
  | mutations ms =>
    simp only [Store.serve] at served
    cases applied : s.apply ms true with
    | mk answer t' =>
      rw [applied] at served
      cases answer with
      | ok a =>
        cases served
        exact apply_answers inv applied
      | error e =>
        simp only [answered] at served
        split at served <;> cases served
        exact refused _
  | txn compares success failure =>
    simp only [Store.serve] at served
    cases applied : s.txn compares success failure true with
    | mk answer t' =>
      rw [applied] at served
      cases answer with
      | ok a =>
        cases served
        exact txn_answers inv applied
      | error e =>
        simp only [answered] at served
        split at served <;> cases served
        exact refused _

/-- Requests one by one: each leaves a store, which the later ones start from. -/
theorem serveAll_take {items : List ApplyItem} :
    ∀ {s t : Store} {outcomes : List ApplyOutcome} {i : Nat} {outcome : ApplyOutcome}, s.Inv →
      s.serveAll items = (.ok outcomes, t) → outcomes[i]? = some outcome →
      ∃ u, s.serveAll (items.take (i + 1)) = (.ok (outcomes.take (i + 1)), u) ∧
        u.Answers outcome.revision outcome.Effective := by
  induction items with
  | nil =>
    intro s t outcomes i outcome _ served found
    cases served
    cases found
  | cons item items ih =>
    intro s t outcomes i outcome inv served found
    simp only [Store.serveAll] at served
    split at served
    · cases served
    · next first next here =>
      obtain ⟨_, -, move⟩ := serve_move inv here
      split at served
      · cases served
      · next later last rest =>
        cases served
        cases i with
        | zero =>
          obtain rfl : first = outcome := by simpa using found
          exact ⟨next, by simp [Store.serveAll, here], serve_answers inv here⟩
        | succ i =>
          obtain ⟨u, upto, answers⟩ := ih (move.inv inv) rest (by simpa using found)
          exact ⟨u, by simp [Store.serveAll, here, upto], answers⟩

end Revisions

/-- The newest record of a key, if it is live. -/
def Store.liveRecord (s : Store) (key : Bytes) : Option KvRecord :=
  (s.index[key]?.bind currentOf).bind fun rev => s.engine.kv[KvKey.mk key rev]?

/-- The same live keys, with the same values and metadata. -/
def SameLive (s t : Store) : Prop := ∀ key, s.liveRecord key = t.liveRecord key

/-- The index knows a deleted key in the range of a compare. -/
def Store.KnowsDeleted (s : Store) (cmp : Compare) : Prop :=
  ∃ key, key ∈ s.index ∧ inRange key cmp.key cmp.rangeEnd = true ∧ s.liveRecord key = none

/-- The deleted keys of a range do not decide a compare: it names one key, the stores know deleted
keys of the range alike, the zero record passes, or a live key fails. -/
def Settled (s t : Store) (cmp : Compare) : Prop :=
  cmp.rangeEnd = [] ∨ (s.KnowsDeleted cmp ↔ t.KnowsDeleted cmp) ∨
    evalCompare (implicitZeroRecord cmp.key) cmp.op cmp.target = true ∨
    ∃ key rec, inRange key cmp.key cmp.rangeEnd = true ∧ s.liveRecord key = some rec ∧
      evalCompare rec cmp.op cmp.target = false

section Branches

variable {s t : Store}

theorem liveRecord_eq (inv : s.Inv) (key : Bytes) :
    s.liveRecord key = (liveRow s.content.cells key).map Row.record := by
  have gens : s.content.gens key = s.index[key]?.getD [] := rfl
  have last := currentOf_eq_live (inv.content.wellFormed_gens key).nonempty
  rw [map_record_liveRow, Store.liveRecord, Content.life, ← last, gens]
  cases s.index[key]? with
  | none => rfl
  | some gens => rfl

/-- The zero record's verdict is the same for every key. -/
theorem evalCompare_zero (key other : Bytes) (op : CompareOp) (target : CompareTarget) :
    evalCompare (implicitZeroRecord key) op target =
      evalCompare (implicitZeroRecord other) op target := by
  cases target <;> rfl

theorem holds_single (inv : s.Inv) {cmp : Compare} (single : cmp.rangeEnd = []) :
    holds s.content.cells cmp =
      evalCompare ((s.liveRecord cmp.key).getD (implicitZeroRecord cmp.key)) cmp.op cmp.target := by
  rw [holds, single, List.isEmpty_nil, if_pos rfl, cellRecord, liveRecord_eq inv]

/-- A range compare asks every live key of the range, and the zero record if a deleted one is
known. -/
theorem holds_range (inv : s.Inv) {cmp : Compare} (ranged : cmp.rangeEnd ≠ []) :
    holds s.content.cells cmp = true ↔
      (∀ key rec, inRange key cmp.key cmp.rangeEnd = true → s.liveRecord key = some rec →
        evalCompare rec cmp.op cmp.target = true) ∧
      (s.KnowsDeleted cmp → evalCompare (implicitZeroRecord cmp.key) cmp.op cmp.target = true) := by
  have cell (key : Bytes) : s.content.cells[key]? =
      s.index[key]?.map fun _ => liveRow s.content.cells key := by
    have index : s.content.index = s.index := rfl
    rw [liveRow, Content.cells, ExtTreeMap.getElem?_map, index]
    cases s.index[key]? <;> rfl
  have live := liveRecord_eq inv
  rw [holds, if_neg (by simpa using ranged), List.all_eq_true]
  simp only [Prod.forall, Table.mem_scan, cell, Option.map_eq_some_iff, and_imp,
    forall_exists_index]
  constructor
  · intro all
    refine ⟨fun key rec inside found => ?_, fun forgotten => ?_⟩
    · cases known : s.index[key]? with
      | none => simp [Store.liveRecord, known] at found
      | some gens =>
        have passes := all key _ gens known rfl inside
        rwa [cellRecord, ← live, found] at passes
    · obtain ⟨key, known, inside, dead⟩ := forgotten
      obtain ⟨gens, known⟩ := Option.isSome_iff_exists.mp
        (ExtTreeMap.mem_iff_isSome_getElem?.mp known)
      have passes := all key _ gens known rfl inside
      rwa [cellRecord, ← live, dead, Option.getD_none, evalCompare_zero key cmp.key] at passes
  · rintro ⟨alive, zero⟩ key cell gens known rfl inside
    rw [cellRecord, ← live]
    cases found : s.liveRecord key with
    | some rec => exact alive key rec inside found
    | none =>
      rw [Option.getD_none, evalCompare_zero key cmp.key]
      exact zero ⟨key, ExtTreeMap.mem_iff_isSome_getElem?.mpr (by rw [known]; rfl), inside, found⟩

theorem holds_eq_iff (invS : s.Inv) (invT : t.Inv) (same : SameLive s t) (cmp : Compare) :
    holds s.content.cells cmp = holds t.content.cells cmp ↔ Settled s t cmp := by
  by_cases single : cmp.rangeEnd = []
  · rw [holds_single invS single, holds_single invT single, same]
    exact iff_of_true rfl (.inl single)
  · have verdictS := holds_range invS single
    have verdictT := holds_range invT single
    simp only [← same _] at verdictT
    rw [Bool.eq_iff_iff, verdictS, verdictT, Settled, or_iff_right single]
    -- Both stores ask the live keys alike, so only the zero record can tell them apart.
    by_cases alive : ∀ key rec, inRange key cmp.key cmp.rangeEnd = true →
        s.liveRecord key = some rec → evalCompare rec cmp.op cmp.target = true
    · have none : ¬∃ key rec, inRange key cmp.key cmp.rangeEnd = true ∧
          s.liveRecord key = some rec ∧ evalCompare rec cmp.op cmp.target = false := by
        rintro ⟨key, rec, inside, found, fails⟩
        rw [alive key rec inside found] at fails
        cases fails
      rw [and_iff_right alive, and_iff_right alive, or_iff_left none]
      by_cases zero : evalCompare (implicitZeroRecord cmp.key) cmp.op cmp.target = true
      · simp [zero]
      · simp [zero, not_iff_not]
    · have fails : ∃ key rec, inRange key cmp.key cmp.rangeEnd = true ∧
          s.liveRecord key = some rec ∧ evalCompare rec cmp.op cmp.target = false := by
        push Not at alive
        simpa using alive
      exact iff_of_true (by simp only [alive, false_and]) (.inr (.inr fails))

theorem evaluateCompares_holds (inv : s.Inv) (compares : List Compare) :
    s.evaluateCompares s.engine {} compares = .ok (compares.all (holds s.content.cells)) := by
  have start := inv.txnStart
  rw [evaluateCompares_eq start.coherent start.inv start.cache, overlay_empty]

/-- A compaction keeps every live key. -/
theorem sameLive_compact (inv : s.Inv) (rev : Int) (engineOk : Bool) :
    SameLive s (s.compact rev engineOk).2 := by
  intro key
  rcases compact_cases inv rev engineOk with
    ⟨e, refused⟩ | ⟨-, -, repeated⟩ | ⟨positive, -, reached, result⟩
  · rw [refused]
  · rw [repeated]
  · rw [result]
    cases engineOk with
    | false => rfl
    | true =>
      change s.liveRecord key = (s.compactedAt rev).liveRecord key
      rw [liveRecord_eq inv, liveRecord_eq (inv.compactedAt positive reached),
        content_compactedAt inv, record_compacted inv.content]

end Branches

end Fastetcd.Mvcc
