import Fastetcd.Raft.ProposalLog

/-!
# What the proposal log counts

The ledger is what the log stands for: the recorded entries, each with its own number of proposals,
split into those forgotten and those kept. The log's counts are the ledger's running sums
(`Stands`), so a count at or after the newest forgotten entry is the number of proposals recorded up
to there, and the loop that looks for a purge point finds the newest kept entry that leaves enough
of them after it.
-/

namespace Fastetcd.Raft.ProposalLog

/-- On a list whose members satisfy `p` up to some point, the prefix that does is all that do. -/
theorem takeWhile_eq_filter {α : Type} {p : α → Bool} {l : List α}
    (down : l.Pairwise fun a b => p b → p a) : l.takeWhile p = l.filter p := by
  induction l with
  | nil => rfl
  | cons a l ih =>
    obtain ⟨first, others⟩ := List.pairwise_cons.mp down
    cases holds : p a with
    | true => rw [List.takeWhile_cons_of_pos holds, List.filter_cons_of_pos holds, ih others]
    | false =>
      have none : l.filter p = [] := by
        refine List.filter_eq_nil_iff.mpr fun b mem pb => ?_
        rw [first b mem pb] at holds
        cases holds
      rw [List.takeWhile_cons_of_neg (by simp [holds]), List.filter_cons_of_neg (by simp [holds]),
        none]

/-! ## The ledger -/

/-- The entries recorded, oldest first, each with its own proposals. -/
structure Ledger where
  gone : List (Nat × Nat)
  kept : List (Nat × Nat)

namespace Ledger

def call (l : Ledger) : Call → Ledger
  | .record index n => if n = 0 then l else { l with kept := l.kept ++ [(index, n)] }
  | .forgetUpto index =>
    { gone := l.gone ++ l.kept.takeWhile fun e => e.1 ≤ index
      kept := l.kept.dropWhile fun e => e.1 ≤ index }

def run (calls : List Call) : Ledger := calls.foldl call ⟨[], []⟩

def recorded (l : Ledger) : List (Nat × Nat) := l.gone ++ l.kept

/-- The newest forgotten index. -/
def newestForgotten (l : Ledger) : Nat := (l.gone.getLast?.map Prod.fst).getD 0

/-- The proposals recorded at indexes up to `index`. -/
def upTo (l : Ledger) (index : Nat) : Nat :=
  ((l.recorded.filter fun e => e.1 ≤ index).map Prod.snd).sum

/-- The proposals recorded in `(after, upto]`. -/
def between (l : Ledger) (after upto : Nat) : Nat :=
  ((l.recorded.filter fun e => after < e.1 ∧ e.1 ≤ upto).map Prod.snd).sum

/-- The kept indexes up to `upto` with at least `keep` proposals between them and `upto`. -/
def candidates (l : Ledger) (upto keep : Nat) : Set Nat :=
  { p | p ∈ l.kept.map Prod.fst ∧ p ≤ upto ∧ keep ≤ l.between p upto }

end Ledger

/-- The indexes of the records among some calls. -/
def recordIndexes (calls : List Call) : List Nat :=
  calls.filterMap fun
    | .record index _ => some index
    | .forgetUpto _ => none

/-! ## Running sums -/

/-- Entries with their running counts, from `base` on. -/
def counted (base : Nat) : List (Nat × Nat) → List (Nat × Nat)
  | [] => []
  | (index, n) :: l => (index, base + n) :: counted (base + n) l

def proposals (l : List (Nat × Nat)) : Nat := (l.map Prod.snd).sum

theorem proposals_append (a b : List (Nat × Nat)) :
    proposals (a ++ b) = proposals a + proposals b := by
  simp [proposals]

theorem counted_append (base : Nat) (a b : List (Nat × Nat)) :
    counted base (a ++ b) = counted base a ++ counted (base + proposals a) b := by
  induction a generalizing base with
  | nil => rfl
  | cons e a ih =>
    have sums : base + proposals (e :: a) = base + e.2 + proposals a := by
      simp [proposals, Nat.add_assoc]
    rw [List.cons_append, counted, ih, sums]
    rfl

theorem takeWhile_counted (index base : Nat) (l : List (Nat × Nat)) :
    (counted base l).takeWhile (fun e => e.1 ≤ index) =
      counted base (l.takeWhile fun e => e.1 ≤ index) := by
  induction l generalizing base with
  | nil => rfl
  | cons e l ih =>
    by_cases le : e.1 ≤ index
    · simp [counted, le, ih]
    · simp [counted, le]

/-- The last running count is the base and everything after it. -/
theorem getLast?_counted (base : Nat) (l : List (Nat × Nat)) :
    (counted base l).getLast? = l.getLast?.map fun e => (e.1, base + proposals l) := by
  rcases List.eq_nil_or_concat l with rfl | ⟨l, e, rfl⟩
  · rfl
  · rw [List.concat_eq_append, counted_append, proposals_append]
    simp [counted, proposals, Nat.add_assoc]

theorem forgetLoop_counted (index base : Nat) (l : List (Nat × Nat)) (floor : Nat × Nat) :
    forgetLoop index (counted base l) floor =
      (counted (base + proposals (l.takeWhile fun e => e.1 ≤ index))
          (l.dropWhile fun e => e.1 ≤ index),
       ((counted base (l.takeWhile fun e => e.1 ≤ index)).getLast?).getD floor) := by
  induction l generalizing base floor with
  | nil => rfl
  | cons e l ih =>
    by_cases le : e.1 ≤ index
    · have sums : base + proposals (e :: l.takeWhile fun e => e.1 ≤ index) =
          base + e.2 + proposals (l.takeWhile fun e => e.1 ≤ index) := by
        simp [proposals, Nat.add_assoc]
      rw [List.takeWhile_cons_of_pos (by simpa using le),
        List.dropWhile_cons_of_pos (by simpa using le), sums]
      show (if e.1 ≤ index then _ else _) = _
      rw [if_pos le, ih]
      simp [counted, List.getLast?_cons]
    · rw [List.takeWhile_cons_of_neg (by simpa using le),
        List.dropWhile_cons_of_neg (by simpa using le)]
      show (if e.1 ≤ index then _ else _) = _
      rw [if_neg le]
      rfl

/-! ## The log stands for the ledger -/

structure Stands (log : ProposalLog) (l : Ledger) : Prop where
  entries : log.entries = counted (proposals l.gone) l.kept
  floor : log.floor = (l.newestForgotten, proposals l.gone)
  total : log.total = proposals l.recorded

variable {log : ProposalLog} {l : Ledger}

theorem Stands.record (stands : Stands log l) (index n : Nat) :
    Stands (log.record index n) (l.call (.record index n)) := by
  rw [ProposalLog.record, Ledger.call]
  split
  · exact stands
  · have count : proposals (l.recorded ++ [(index, n)]) = log.total + n := by
      rw [proposals_append, stands.total]
      rfl
    refine ⟨?_, stands.floor, ?_⟩
    · show log.entries ++ [(index, log.total + n)] = counted _ (l.kept ++ [(index, n)])
      rw [counted_append, stands.entries, stands.total, Ledger.recorded, proposals_append]
      rfl
    · show log.total + n = proposals (l.gone ++ (l.kept ++ [(index, n)]))
      rw [← count, Ledger.recorded, List.append_assoc]

theorem Ledger.recorded_forgetUpto (l : Ledger) (index : Nat) :
    (l.call (.forgetUpto index)).recorded = l.recorded := by
  rw [Ledger.recorded, Ledger.call, List.append_assoc, List.takeWhile_append_dropWhile]
  rfl

theorem Stands.forgetUpto (stands : Stands log l) (index : Nat) :
    Stands (log.forgetUpto index) (l.call (.forgetUpto index)) := by
  have loop := forgetLoop_counted index (proposals l.gone) l.kept log.floor
  rw [← stands.entries] at loop
  refine ⟨?_, ?_, ?_⟩
  · show (forgetLoop index log.entries log.floor).1 = counted (proposals (l.gone ++ _)) _
    rw [loop, proposals_append]
    rfl
  · show (forgetLoop index log.entries log.floor).2 =
      ((((l.gone ++ l.kept.takeWhile fun e => e.1 ≤ index).getLast?).map Prod.fst).getD 0,
        proposals (l.gone ++ _))
    rw [loop, getLast?_counted, proposals_append, List.getLast?_append, stands.floor]
    rcases List.eq_nil_or_concat (l.kept.takeWhile fun e => e.1 ≤ index) with none | ⟨a, e, some⟩
    · rw [none]
      rfl
    · rw [some, List.concat_eq_append, List.getLast?_concat]
      rfl
  · rw [Ledger.recorded_forgetUpto]
    exact stands.total

theorem stands_run (calls : List Call) : Stands (run calls) (Ledger.run calls) := by
  induction calls using List.reverseRecOn with
  | nil => exact ⟨rfl, rfl, rfl⟩
  | append_singleton calls c ih =>
    rw [run, Ledger.run, List.foldl_concat, List.foldl_concat]
    cases c with
    | record index n => exact ih.record index n
    | forgetUpto index => exact ih.forgetUpto index

/-! ## Ascending ledgers -/

/-- What is recorded is recorded in the order of the calls. -/
theorem recorded_sublist (calls : List Call) :
    ((Ledger.run calls).recorded.map Prod.fst).Sublist (recordIndexes calls) := by
  induction calls using List.reverseRecOn with
  | nil => exact .refl _
  | append_singleton calls c ih =>
    rw [Ledger.run, List.foldl_concat, ← Ledger.run, recordIndexes, List.filterMap_append]
    cases c with
    | record index n =>
      rw [Ledger.call]
      split
      · exact ih.trans (List.sublist_append_left ..)
      · rw [Ledger.recorded, ← List.append_assoc, List.map_append]
        exact ih.append (.refl _)
    | forgetUpto index =>
      rw [Ledger.recorded_forgetUpto]
      exact ih.trans (List.sublist_append_left ..)

def Ledger.Ascending (l : Ledger) : Prop := l.recorded.Pairwise fun a b => a.1 < b.1

theorem ascending_run {calls : List Call} (increasing : (recordIndexes calls).Pairwise (· < ·)) :
    (Ledger.run calls).Ascending :=
  List.pairwise_map.mp (increasing.sublist (recorded_sublist calls))

namespace Ledger.Ascending

theorem kept (asc : l.Ascending) : l.kept.Pairwise fun a b => a.1 < b.1 :=
  (List.pairwise_append.mp asc).2.1

/-- Every forgotten entry is at most the newest one. -/
theorem gone_le (asc : l.Ascending) {e : Nat × Nat} (mem : e ∈ l.gone) : e.1 ≤ l.newestForgotten := by
  have gone := (List.pairwise_append.mp asc).1
  rcases List.eq_nil_or_concat l.gone with none | ⟨older, newest, some⟩
  · rw [none] at mem
    cases mem
  · rw [some, List.concat_eq_append] at mem gone
    rw [Ledger.newestForgotten, some, List.concat_eq_append, List.getLast?_concat]
    rcases List.mem_append.mp mem with older | last
    · exact Nat.le_of_lt ((List.pairwise_append.mp gone).2.2 e older newest List.mem_cons_self)
    · rw [List.mem_singleton.mp last]
      exact Nat.le_refl _

/-- Counts at or after the newest forgotten index: all that is forgotten, and the kept entries up to
there. -/
theorem upTo_eq (asc : l.Ascending) {index : Nat} (after : l.newestForgotten ≤ index) :
    l.upTo index = proposals l.gone + proposals (l.kept.takeWhile fun e => e.1 ≤ index) := by
  have all : l.gone.filter (fun e => e.1 ≤ index) = l.gone := by
    refine List.filter_eq_self.mpr fun e mem => ?_
    exact decide_eq_true ((asc.gone_le mem).trans after)
  have down : l.kept.Pairwise fun a b => decide (b.1 ≤ index) → decide (a.1 ≤ index) := by
    refine asc.kept.imp fun {a b} lt le => ?_
    exact decide_eq_true (Nat.le_of_lt (lt.trans_le (of_decide_eq_true le)))
  rw [Ledger.upTo, Ledger.recorded, List.filter_append, all, takeWhile_eq_filter down, List.map_append,
    List.sum_append]
  rfl

theorem forgetUpto (asc : l.Ascending) (index : Nat) : (l.call (.forgetUpto index)).Ascending := by
  rw [Ledger.Ascending, Ledger.recorded_forgetUpto]
  exact asc

theorem newestForgotten_le (asc : l.Ascending) (index : Nat) :
    l.newestForgotten ≤ (l.call (.forgetUpto index)).newestForgotten := by
  cases newest : l.gone.getLast? with
  | none =>
    rw [Ledger.newestForgotten, newest]
    exact Nat.zero_le _
  | some e =>
    have still : e ∈ (l.call (.forgetUpto index)).gone :=
      List.mem_append_left _ (List.mem_of_getLast? newest)
    rw [Ledger.newestForgotten, newest]
    exact (asc.forgetUpto index).gone_le still

end Ledger.Ascending

theorem Stands.cumulativeAt_eq (stands : Stands log l) (asc : l.Ascending) {index : Nat}
    (after : l.newestForgotten ≤ index) : log.cumulativeAt index = l.upTo index := by
  rw [asc.upTo_eq after, cumulativeAt, stands.entries, takeWhile_counted, getLast?_counted]
  rcases List.eq_nil_or_concat (l.kept.takeWhile fun e => e.1 ≤ index) with none | ⟨a, e, some⟩
  · rw [none, stands.floor]
    exact if_pos after
  · rw [some, List.concat_eq_append, List.getLast?_concat]
    rfl

/-- In an ascending list, a running count is the count up to its entry's index. -/
theorem counted_eq_map {before rest : List (Nat × Nat)}
    (asc : (before ++ rest).Pairwise fun a b => a.1 < b.1) :
    counted (proposals before) rest =
      rest.map fun e => (e.1, proposals ((before ++ rest).filter fun x => x.1 ≤ e.1)) := by
  induction rest generalizing before with
  | nil => rfl
  | cons e rest ih =>
    obtain ⟨-, tail, lt⟩ := List.pairwise_append.mp asc
    have older : before.filter (fun x => x.1 ≤ e.1) = before := by
      refine List.filter_eq_self.mpr fun x mem => ?_
      exact decide_eq_true (Nat.le_of_lt (lt x mem e List.mem_cons_self))
    have newer : rest.filter (fun x => x.1 ≤ e.1) = [] := by
      refine List.filter_eq_nil_iff.mpr fun x mem le => ?_
      have greater := (List.pairwise_cons.mp tail).1 x mem
      exact absurd (of_decide_eq_true le) (Nat.not_le.mpr greater)
    have here : proposals ((before ++ e :: rest).filter fun x => x.1 ≤ e.1) =
        proposals before + e.2 := by
      rw [List.filter_append, older, List.filter_cons_of_pos (by simp), newer, proposals_append]
      rfl
    have whole : before ++ e :: rest = (before ++ [e]) ++ rest := by simp
    have others := ih (whole ▸ asc)
    rw [proposals_append, ← whole] at others
    rw [List.map_cons, here]
    exact congrArg (List.cons _) others

theorem Ledger.upTo_le {p upto : Nat} (le : p ≤ upto) : l.upTo upto = l.upTo p + l.between p upto := by
  rw [Ledger.upTo, Ledger.upTo, Ledger.between]
  induction l.recorded with
  | nil => rfl
  | cons e entries ih =>
    by_cases low : e.1 ≤ p
    · have reached : e.1 ≤ upto := low.trans le
      simp only [List.filter_cons, low, reached, Nat.not_lt.mpr low, decide_true, if_true,
        false_and, decide_false, List.map_cons, List.sum_cons, Bool.false_eq_true, if_false, ih]
      omega
    · by_cases reached : e.1 ≤ upto
      · simp only [List.filter_cons, low, reached, Nat.not_le.mp low, decide_true, if_true,
          true_and, decide_false, List.map_cons, List.sum_cons, Bool.false_eq_true, if_false, ih]
        omega
      · simp only [List.filter_cons, low, reached, and_false, decide_false, Bool.false_eq_true,
          if_false, ih]

/-! ## The purge point -/

/-- Whether a purge at the entry leaves `keep` proposals after it. -/
def leaves (l : Ledger) (upto keep : Nat) (e : Nat × Nat) : Bool :=
  e.1 ≤ upto ∧ keep ≤ l.between e.1 upto

theorem purgeLoop_eq (l : Ledger) (upto keep : Nat) (entries : List (Nat × Nat))
    (point : Option Nat) :
    purgeLoop upto (l.upTo upto) keep (entries.map fun e => (e.1, l.upTo e.1)) point =
      some (((entries.takeWhile (leaves l upto keep)).getLast?.map Prod.fst).or point) := by
  induction entries generalizing point with
  | nil => rfl
  | cons e entries ih =>
    by_cases beyond : upto < e.1
    · have stops : leaves l upto keep e = false := decide_eq_false fun ⟨le, _⟩ => by omega
      rw [List.takeWhile_cons_of_neg (by simp [stops]), List.map_cons, purgeLoop, if_pos beyond]
      rfl
    · have counts := l.upTo_le (Nat.not_lt.mp beyond)
      have left : checkedSub (l.upTo upto) (l.upTo e.1) = some (l.between e.1 upto) := by
        rw [counts, Nat.add_comm, checkedSub_add]
      rw [List.map_cons, purgeLoop, if_neg beyond, left]
      show (if l.between e.1 upto < keep then _ else _) = _
      by_cases few : l.between e.1 upto < keep
      · have stops : leaves l upto keep e = false := decide_eq_false fun ⟨_, enough⟩ => by omega
        rw [if_pos few, List.takeWhile_cons_of_neg (by simp [stops])]
        rfl
      · have passes : leaves l upto keep e = true :=
          decide_eq_true ⟨Nat.not_lt.mp beyond, Nat.not_lt.mp few⟩
        rw [if_neg few, ih, List.takeWhile_cons_of_pos passes, List.getLast?_cons]
        cases (entries.takeWhile (leaves l upto keep)).getLast? <;> rfl

/-- The proposals after an index get fewer as it grows. -/
theorem Ledger.between_anti {p q upto : Nat} (le : p ≤ q) (upto_le : q ≤ upto) :
    l.between q upto ≤ l.between p upto := by
  have above := l.upTo_le upto_le
  have below := l.upTo_le (le.trans upto_le)
  have step := l.upTo_le le
  omega

theorem leaves_down (asc : l.Ascending) (upto keep : Nat) :
    l.kept.Pairwise fun a b => leaves l upto keep b → leaves l upto keep a := by
  refine asc.kept.imp fun {a b} lt passes => ?_
  obtain ⟨le, enough⟩ := of_decide_eq_true passes
  exact decide_eq_true ⟨(Nat.le_of_lt lt).trans le,
    enough.trans (l.between_anti (Nat.le_of_lt lt) le)⟩

theorem mem_candidates {upto keep p : Nat} :
    p ∈ l.candidates upto keep ↔ ∃ e ∈ l.kept.filter (leaves l upto keep), e.1 = p := by
  constructor
  · rintro ⟨mem, le, enough⟩
    obtain ⟨e, held, rfl⟩ := List.mem_map.mp mem
    exact ⟨e, List.mem_filter.mpr ⟨held, decide_eq_true ⟨le, enough⟩⟩, rfl⟩
  · rintro ⟨e, mem, rfl⟩
    obtain ⟨mem, passes⟩ := List.mem_filter.mp mem
    exact ⟨List.mem_map_of_mem mem, of_decide_eq_true passes⟩

theorem Stands.purgePoint_eq (stands : Stands log l) (asc : l.Ascending) {upto keep : Nat}
    (after : l.newestForgotten ≤ upto) (positive : 0 < keep) :
    log.purgePoint upto keep =
      some ((l.kept.filter (leaves l upto keep)).getLast?.map Prod.fst) := by
  have counts : log.entries = l.kept.map fun e => (e.1, l.upTo e.1) := by
    rw [stands.entries]
    exact counted_eq_map asc
  rw [purgePoint, if_neg positive.ne', stands.cumulativeAt_eq asc after, counts, purgeLoop_eq,
    takeWhile_eq_filter (leaves_down asc upto keep), Option.or_none]

/-- The last of the entries that leave enough is the greatest candidate. -/
theorem isGreatest_candidates (asc : l.Ascending) {upto keep p : Nat}
    (last : (l.kept.filter (leaves l upto keep)).getLast?.map Prod.fst = some p) :
    IsGreatest (l.candidates upto keep) p := by
  obtain ⟨e, found, rfl⟩ := Option.map_eq_some_iff.mp last
  obtain ⟨older, split⟩ := List.getLast?_eq_some_iff.mp found
  have sorted := asc.kept.filter (leaves l upto keep)
  rw [split] at sorted
  constructor
  · refine mem_candidates.mpr ⟨e, ?_, rfl⟩
    rw [split]
    exact List.mem_append_right _ List.mem_cons_self
  · intro q mem
    obtain ⟨x, passes, rfl⟩ := mem_candidates.mp mem
    rw [split] at passes
    rcases List.mem_append.mp passes with older | newest
    · exact Nat.le_of_lt ((List.pairwise_append.mp sorted).2.2 x older e List.mem_cons_self)
    · rw [List.mem_singleton.mp newest]

/-- After any calls with increasing indexes: the count at or after the newest forgotten index is the
number of proposals recorded up to there, forgetting changes no count at or after what it forgets,
and the purge point is the largest kept index that leaves enough proposals, with no underflow. -/
theorem proposals_counted {calls : List Call}
    (increasing : (recordIndexes calls).Pairwise (· < ·)) :
    (∀ index, (Ledger.run calls).newestForgotten ≤ index →
        (run calls).cumulativeAt index = (Ledger.run calls).upTo index) ∧
      (∀ upto index, ((Ledger.run calls).call (.forgetUpto upto)).newestForgotten ≤ index →
        ((run calls).forgetUpto upto).cumulativeAt index = (run calls).cumulativeAt index) ∧
      ∀ upto keep, (Ledger.run calls).newestForgotten ≤ upto → 0 < keep →
        ∃ point, (run calls).purgePoint upto keep = some point ∧
          match point with
          | some p => IsGreatest ((Ledger.run calls).candidates upto keep) p
          | none => (Ledger.run calls).candidates upto keep = ∅ := by
  have stands := stands_run calls
  have asc := ascending_run increasing
  refine ⟨fun index after => stands.cumulativeAt_eq asc after, ?_, ?_⟩
  · intro upto index after
    have before := (asc.newestForgotten_le upto).trans after
    rw [(stands.forgetUpto upto).cumulativeAt_eq (asc.forgetUpto upto) after,
      stands.cumulativeAt_eq asc before, Ledger.upTo, Ledger.recorded_forgetUpto]
    rfl
  · intro upto keep after positive
    refine ⟨_, stands.purgePoint_eq asc after positive, ?_⟩
    split
    · rename_i p last
      exact isGreatest_candidates asc last
    · rename_i none
      rw [Option.map_eq_none_iff, List.getLast?_eq_none_iff] at none
      refine Set.eq_empty_of_forall_notMem fun p mem => ?_
      obtain ⟨e, mem, -⟩ := mem_candidates.mp mem
      rw [none] at mem
      cases mem


/-- Three records, the first forgotten: two of the proposals at 3 and 5 are kept by a purge at 3. -/
theorem proposals_counted_three :
    let calls : List Call := [.record 2 4, .record 3 1, .record 5 2, .forgetUpto 2]
    (recordIndexes calls).Pairwise (· < ·) ∧ (run calls).cumulativeAt 4 = 5 ∧
      (run calls).purgePoint 5 2 = some (some 3) ∧
        IsGreatest ((Ledger.run calls).candidates 5 2) 3 := by
  have increasing : (recordIndexes
      [.record 2 4, .record 3 1, .record 5 2, .forgetUpto 2]).Pairwise (· < ·) := by decide
  obtain ⟨point, eq, greatest⟩ := (proposals_counted increasing).2.2 5 2 (by decide) (by decide)
  have three : point = some 3 := Option.some.inj (eq.symm.trans rfl)
  subst three
  exact ⟨increasing, rfl, eq, greatest⟩

end Fastetcd.Raft.ProposalLog
