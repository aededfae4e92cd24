import Fastetcd.Laws.Raft.Position

/-!
# The turns of a batch

The loop of `apply_batch` skips sub-entries, or stages some and does them together (`Turns`). Those
that share a commit are done as one by one.
-/

namespace Fastetcd.Raft

open Mvcc Std

theorem mapWhile_forall₂ {α β : Type} (f : α → Option β) (as : List α) :
    List.Forall₂ (fun a b => f a = some b) (as.take (mapWhile f as).length) (mapWhile f as) := by
  induction as with
  | nil => exact .nil
  | cons a as ih =>
    rw [mapWhile]
    split
    · rename_i b here
      exact .cons here ih
    · exact .nil

theorem length_mapWhile_le {α β : Type} (f : α → Option β) (as : List α) :
    (mapWhile f as).length ≤ as.length := by
  induction as with
  | nil => exact le_rfl
  | cons a as ih =>
    rw [mapWhile]
    split
    · exact Nat.succ_le_succ ih
    · exact Nat.zero_le _

theorem groupable_admitted {entry : FastetcdLogEntry} {item : ApplyItem}
    (grouped : groupable entry = some item) : item.admitted = true := by
  cases entry with
  | apply ms =>
    obtain ⟨-, same⟩ := Option.ite_none_right_eq_some.mp grouped
    cases same
    exact Option.isSome_of_mem grouped
  | txn compares success failure =>
    obtain ⟨-, same⟩ := Option.ite_none_right_eq_some.mp grouped
    cases same
    exact Option.isSome_of_mem grouped
  | _ => exact nomatch grouped

/-- `items` are the requests of `entries`, which may share a commit. -/
abbrev Grouped (entries : List FastetcdLogEntry) (items : List ApplyItem) : Prop :=
  List.Forall₂ (fun entry item => groupable entry = some item) entries items

theorem Grouped.admitted {entries : List FastetcdLogEntry} {items : List ApplyItem}
    (grouped : Grouped entries items) : ∀ item ∈ items, item.admitted = true := by
  induction grouped with
  | nil => exact nofun
  | cons here _ ih =>
    intro item mem
    rcases List.mem_cons.mp mem with rfl | mem
    · exact groupable_admitted here
    · exact ih item mem

theorem Grouped.flat {entries : List FastetcdLogEntry} {items : List ApplyItem}
    (grouped : Grouped entries items) : ∀ entry ∈ entries, entry.isBatch = false := by
  induction grouped with
  | nil => exact nofun
  | @cons first _ _ _ here _ ih =>
    intro entry mem
    rcases List.mem_cons.mp mem with rfl | mem
    · cases entry with
      | batch => exact nomatch here
      | _ => rfl
    · exact ih entry mem

/-- The run of a batch is of its next sub-entries. -/
theorem grouped_run (subs : List FastetcdLogEntry) :
    Grouped (subs.take (mapWhile groupable (subs.take maxRun)).length)
      (mapWhile groupable (subs.take maxRun)) := by
  have grouped := mapWhile_forall₂ groupable (subs.take maxRun)
  rw [List.take_take, Nat.min_eq_left] at grouped
  · exact grouped
  · exact (length_mapWhile_le _ _).trans (List.length_take_le _ _)

section

variable (logId : Mvcc.LogId) (total skip : Nat)

/-- What the loop of a batch does from sub-entry `j` on: sub-entries are skipped, or done together
after they are staged, up to the end or one that fails. -/
inductive Turns : Nat → List FastetcdLogEntry → Store →
    Except ApplyError (List FastetcdLogResponse) → Store → Prop
  | nil (j : Nat) (s : Store) : Turns j [] s (.ok []) s
  | nested {j : Nat} {sub : FastetcdLogEntry} {subs : List FastetcdLogEntry} {s : Store}
      (nested : sub.isBatch = true) : Turns j (sub :: subs) s
        (.error (.other s!"nested batch in log entry {logId.index}")) s
  | skipped {j : Nat} {sub : FastetcdLogEntry} {subs : List FastetcdLogEntry} {s t : Store}
      {answer : Except ApplyError (List FastetcdLogResponse)} (flat : sub.isBatch = false)
      (skipped : j < skip) (rest : Turns (j + 1) subs s answer t) :
      Turns j (sub :: subs) s (prepend [.noop s.view.current] (answer, t)).1 t
  | failed {j : Nat} {sub : FastetcdLogEntry} {subs : List FastetcdLogEntry} {s t : Store}
      {e : ApplyError} (due : skip ≤ j) (flat : sub.isBatch = false)
      (failed : applyData (stageDone logId total s (j + 1)) logId.index true sub = (.error e, t)) :
      Turns j (sub :: subs) s (.error e) t
  | worked {j : Nat} {subs : List FastetcdLogEntry} {n : Nat} {s t v u : Store}
      {responses : List FastetcdLogResponse} {answer : Except ApplyError (List FastetcdLogResponse)}
      (due : skip ≤ j) (some : 0 < n) (within : n ≤ subs.length)
      (flat : ∀ sub ∈ subs.take n, sub.isBatch = false)
      (acts : Acts (stageDone logId total s (j + n)) t)
      (worked : applyAll (stageDone logId total s (j + n)) ((subs.take n).map (logId.index, ·)) =
        (.ok responses, v)) (same : t.replica = v.replica)
      (rest : Turns (j + n) (subs.drop n) t answer u) :
      Turns j subs s (prepend responses (answer, u)).1 u

theorem applySubs_turns {turns j : Nat} {subs : List FastetcdLogEntry} {s : Store}
    (enough : subs.length ≤ turns) (inv : s.Inv) (stored : s.Stored) :
    Turns logId total skip j subs s (applySubs logId total skip turns j subs s).1
      (applySubs logId total skip turns j subs s).2 := by
  induction turns generalizing j subs s with
  | zero =>
    obtain rfl : subs = [] := List.length_eq_zero_iff.mp (Nat.le_zero.mp enough)
    exact .nil j s
  | succ turns ih =>
    cases subs with
    | nil => exact .nil j s
    | cons sub subs =>
      rw [applySubs]
      split
      · rename_i nested
        exact .nested nested
      · rename_i flat
        rw [Bool.not_eq_true] at flat
        split
        · rename_i less
          rw [prepend_snd]
          exact .skipped flat less (ih (Nat.le_of_succ_le_succ enough) inv stored)
        · rename_i due
          have due := Nat.le_of_not_lt due
          have restaged (n : Nat) := restaged_stageDone logId total s (j + n)
          have grouped := grouped_run (sub :: subs)
          dsimp only
          generalize mapWhile groupable ((sub :: subs).take maxRun) = run at grouped
          by_cases several : run.length > 1
          · rw [if_pos several]
            obtain ⟨outcomes, t, v, many, served, same, acts⟩ := applyMany_agree
              ((restaged run.length).inv inv) ((restaged run.length).stored stored) grouped.admitted
            rw [many]
            dsimp only
            rw [prepend_snd]
            have within : run.length ≤ (sub :: subs).length := by
              rw [← grouped.length_eq]
              exact List.length_take_le' _ _
            have fewer : ((sub :: subs).drop run.length).length ≤ turns := by
              rw [List.length_drop]
              omega
            exact .worked due (Nat.zero_lt_of_lt several) within grouped.flat acts
              (applyAll_serveAll grouped served logId.index) same
              (ih fewer acts.inv acts.stored)
          · rw [if_neg several]
            have acts := applyData_acts ((restaged 1).inv inv) ((restaged 1).stored stored)
              logId.index sub
            split
            · rename_i failed
              exact .failed due flat failed
            · rename_i response t result
              rw [result] at acts
              rw [prepend_snd]
              refine .worked (n := 1) due Nat.one_pos (Nat.succ_le_succ (Nat.zero_le _)) ?_ acts
                (applyAll_one result) rfl
                (ih (Nat.le_of_succ_le_succ enough) acts.inv acts.stored)
              intro sub' mem
              rw [List.take_succ_cons, List.take_zero, List.mem_singleton] at mem
              exact mem ▸ flat

end

theorem Turns.of_nil {logId : Mvcc.LogId} {total skip j : Nat} {s t : Store}
    {answer : Except ApplyError (List FastetcdLogResponse)}
    (turns : Turns logId total skip j [] s answer t) : answer = .ok [] ∧ t = s := by
  generalize none : ([] : List FastetcdLogEntry) = subs at turns
  cases turns with
  | nil => exact ⟨rfl, rfl⟩
  | nested | skipped | failed => exact nomatch none
  | worked due some within =>
    rw [← none] at within
    exact absurd some (Nat.not_lt_of_le within)

end Fastetcd.Raft
