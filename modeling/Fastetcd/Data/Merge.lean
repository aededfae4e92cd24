import Mathlib

/-!
# Merging ascending rows into a bounded output

Three parts. `emit` adds an element to an output that stops at a limit; a loop that emits is then a
list of what it emits (`emitAll`), and what comes out is that list up to the limit
(`emitted_emitAll`). A sort leaves the first elements of a list in place exactly if they are in
order and before the rest (`take_insertionSort_iff`).

`Merge.all` is one pass over ascending rows with a second ascending list, of pending rows, put
between them. Some of the rows are hidden. The pass may be cut after any row: what it has emitted
and the pending rows it has left are all the next part needs (`Merge.all_append`,
`Merge.all_after`).
-/

namespace Fastetcd

/-! ## Output up to a limit -/

section Emit

variable {α : Type}

/-- Add to the output, and stop with `.error` once `limit` elements are there. No limit is `0`. -/
def emit (limit : Nat) (out : List α) (a : α) : Except (List α) (List α) :=
  let out := out ++ [a]
  if limit > 0 ∧ out.length ≥ limit then .error out else .ok out

def emitAll (limit : Nat) (out : List α) (as : List α) : Except (List α) (List α) :=
  as.foldlM (emit limit) out

/-- Emit from the front of `pending` while `p` holds; what is left comes back with the output. -/
def emitWhile (p : α → Bool) (limit : Nat) :
    List α → List α → Except (List α) (List α × List α)
  | [], out => .ok ([], out)
  | a :: pending, out =>
    if p a then do
      let out ← emit limit out a
      emitWhile p limit pending out
    else .ok (a :: pending, out)

/-- The output, whether the limit stopped it or not. -/
def emitted : Except (List α) (List α) → List α
  | .error out => out
  | .ok out => out

/-- The first `limit` elements, or all of them for `0`. -/
def limited (limit : Nat) (as : List α) : List α := if limit = 0 then as else as.take limit

variable {limit : Nat} {out as bs : List α}

@[simp]
theorem emitAll_nil : emitAll limit out [] = .ok out := rfl

@[simp]
theorem emitAll_cons {a : α} :
    emitAll limit out (a :: as) = emit limit out a >>= fun out => emitAll limit out as :=
  List.foldlM_cons

theorem emitAll_append :
    emitAll limit out (as ++ bs) = emitAll limit out as >>= fun out => emitAll limit out bs :=
  List.foldlM_append

theorem emitWhile_eq (p : α → Bool) (pending : List α) :
    emitWhile p limit pending out =
      (emitAll limit out (pending.takeWhile p)).map fun out => (pending.dropWhile p, out) := by
  induction pending generalizing out with
  | nil => rfl
  | cons a pending ih =>
    rw [emitWhile]
    by_cases pass : p a = true
    · rw [if_pos pass, List.takeWhile_cons_of_pos pass, List.dropWhile_cons_of_pos pass,
        emitAll_cons]
      cases emit limit out a with
      | error out => rfl
      | ok out => exact ih
    · rw [if_neg pass, List.takeWhile_cons_of_neg pass, List.dropWhile_cons_of_neg pass]
      rfl

/-- What comes out is all there was to emit, up to the limit. -/
theorem emitted_emitAll (room : limit = 0 ∨ out.length < limit) :
    emitted (emitAll limit out as) = limited limit (out ++ as) := by
  induction as generalizing out with
  | nil =>
    rw [emitAll_nil, emitted, List.append_nil, limited]
    split
    · rfl
    · exact (List.take_of_length_le (by omega)).symm
  | cons a as ih =>
    have shift : out ++ a :: as = (out ++ [a]) ++ as := by simp
    rw [emitAll_cons, emit]
    by_cases full : limit > 0 ∧ (out ++ [a]).length ≥ limit
    · have size : (out ++ [a]).length = limit := by
        simp only [List.length_append, List.length_singleton] at full ⊢
        omega
      rw [if_pos full, shift, limited, if_neg (by omega), ← size, List.take_left]
      rfl
    · rw [if_neg full, shift]
      refine ih ?_
      simp only [List.length_append, List.length_singleton] at full ⊢
      omega

end Emit

/-! ## Sorting up to a limit -/

section Sorting

variable {α : Type} (le : α → α → Prop) [DecidableRel le]

theorem insertionSort_append {front : List α} (back : List α) (ordered : front.Pairwise le)
    (before : ∀ x ∈ front, ∀ y ∈ back, le x y) :
    (front ++ back).insertionSort le = front ++ back.insertionSort le := by
  induction front with
  | nil => rfl
  | cons x front ih =>
    obtain ⟨first, ordered⟩ := List.pairwise_cons.mp ordered
    have least : ∀ y ∈ front ++ back, le x y := by
      intro y mem
      rcases List.mem_append.mp mem with mem | mem
      · exact first y mem
      · exact before x List.mem_cons_self y mem
    rw [List.cons_append, List.insertionSort_cons_of_forall_rel le least,
      ih ordered fun z mem => before z (List.mem_cons_of_mem x mem), List.cons_append]

theorem take_insertionSort_iff [Std.Total le] [IsTrans α le] (l : List α) (n : Nat) :
    (l.insertionSort le).take n = l.take n ↔
      (l.take n).Pairwise le ∧ ∀ x ∈ l.take n, ∀ y ∈ l.drop n, le x y := by
  constructor
  · intro same
    have sorted := List.pairwise_insertionSort le l
    have perm := List.perm_insertionSort le l
    rw [← List.take_append_drop n (l.insertionSort le), same] at sorted perm
    -- The first elements are the same, so the others are a permutation of each other.
    have rest : ((l.insertionSort le).drop n).Perm (l.drop n) := by
      rw [← List.perm_append_left_iff (l.take n), List.take_append_drop]
      exact perm
    obtain ⟨ordered, -, before⟩ := List.pairwise_append.mp sorted
    exact ⟨ordered, fun x first y last => before x first y (rest.mem_iff.mpr last)⟩
  · rintro ⟨ordered, before⟩
    have split := insertionSort_append le (l.drop n) ordered before
    rw [List.take_append_drop] at split
    rw [split, List.take_append, List.take_take, Nat.min_self]
    rcases Nat.lt_or_ge l.length n with short | long
    · rw [List.drop_of_length_le (Nat.le_of_lt short)]
      simp
    · rw [List.length_take_of_le long, Nat.sub_self, List.take_zero, List.append_nil]

end Sorting

/-! ## Merging -/

namespace Merge

open Std

variable {K V : Type} [LT K] [DecidableLT K]

/-- What a pass over `rows` emits: before each row the pending rows with smaller keys, then the row
unless it is hidden. -/
def pass (hides : K → Bool) : List (K × V) → List (K × V) → List (K × V)
  | [], _ => []
  | row :: rows, pending =>
    pending.takeWhile (·.1 < row.1) ++ ((if hides row.1 then [] else [row]) ++
      pass hides rows (pending.dropWhile (·.1 < row.1)))

/-- The pending rows a pass leaves. -/
def rest : List (K × V) → List (K × V) → List (K × V)
  | [], pending => pending
  | row :: rows, pending => rest rows (pending.dropWhile (·.1 < row.1))

/-- A whole merge: the pass, and then what is pending still. -/
def all (hides : K → Bool) (rows pending : List (K × V)) : List (K × V) :=
  pass hides rows pending ++ rest rows pending

variable {hides : K → Bool} {rows pending : List (K × V)}

theorem all_cons {row : K × V} :
    all hides (row :: rows) pending =
      pending.takeWhile (·.1 < row.1) ++ ((if hides row.1 then [] else [row]) ++
        all hides rows (pending.dropWhile (·.1 < row.1))) := by
  simp [all, pass, rest]

/-- A merge goes on from what the rows before left. -/
theorem all_append {more : List (K × V)} :
    all hides (rows ++ more) pending =
      pass hides rows pending ++ all hides more (rest rows pending) := by
  induction rows generalizing pending with
  | nil => rfl
  | cons row rows ih => simp [all_cons, pass, rest, ih]

/-- Emitting by a stronger test first changes neither what is emitted nor what is left. -/
theorem takeWhile_dropWhile_of_imp {α : Type} {p q : α → Bool} (imp : ∀ a, p a → q a)
    (as : List α) :
    as.takeWhile q = as.takeWhile p ++ (as.dropWhile p).takeWhile q ∧
      as.dropWhile q = (as.dropWhile p).dropWhile q := by
  induction as with
  | nil => exact ⟨rfl, rfl⟩
  | cons a as ih =>
    by_cases holds : p a = true
    · simp [holds, imp a holds, ih]
    · simp [holds]

/-- Pending rows may go out before the rest of the merge if every row of the rest is larger. -/
theorem all_after {before : K × V → Bool}
    (smaller : ∀ p, before p → ∀ row ∈ rows, p.1 < row.1) :
    all hides rows pending =
      pending.takeWhile before ++ all hides rows (pending.dropWhile before) := by
  cases rows with
  | nil => exact List.takeWhile_append_dropWhile.symm
  | cons row rows =>
    have imp (p : K × V) (h : before p) : decide (p.1 < row.1) = true :=
      decide_eq_true (smaller p h row List.mem_cons_self)
    obtain ⟨taken, dropped⟩ := takeWhile_dropWhile_of_imp imp pending
    rw [all_cons, all_cons, taken, dropped, List.append_assoc]

theorem mem_all {row : K × V} :
    row ∈ all hides rows pending ↔ row ∈ pending ∨ (row ∈ rows ∧ hides row.1 = false) := by
  induction rows generalizing pending with
  | nil => simp [all, pass, rest]
  | cons head rows ih =>
    have whole : row ∈ pending ↔ row ∈ pending.takeWhile (·.1 < head.1) ∨
        row ∈ pending.dropWhile (·.1 < head.1) := by
      rw [← List.mem_append, List.takeWhile_append_dropWhile]
    have shown : row ∈ (if hides head.1 then [] else [head]) ↔ row = head ∧ hides row.1 = false := by
      by_cases hidden : hides head.1 = true
      · rw [if_pos hidden]
        exact ⟨nofun, fun ⟨same, visible⟩ => by simp [same, hidden] at visible⟩
      · rw [if_neg hidden, List.mem_singleton]
        exact ⟨fun same => ⟨same, by simpa [same] using hidden⟩, And.left⟩
    rw [all_cons, List.mem_append, List.mem_append, shown, ih, whole, List.mem_cons]
    tauto

variable [LE K] [IsLinearOrder K] [LawfulOrderLT K]

theorem le_of_mem_dropWhile {k : K} (sorted : pending.Pairwise (·.1 < ·.1)) {row : K × V}
    (mem : row ∈ pending.dropWhile (·.1 < k)) : k ≤ row.1 := by
  induction pending with
  | nil => cases mem
  | cons head pending ih =>
    obtain ⟨first, sorted⟩ := List.pairwise_cons.mp sorted
    by_cases small : head.1 < k
    · rw [List.dropWhile_cons_of_pos (by simpa using small)] at mem
      exact ih sorted mem
    · rw [List.dropWhile_cons_of_neg (by simpa using small)] at mem
      have least : k ≤ head.1 := Std.not_lt.mp small
      rcases List.mem_cons.mp mem with rfl | mem
      · exact least
      · exact Std.le_trans least (Std.le_of_lt (first row mem))

/-- The merge of ascending rows ascends, if no row that shows is pending too. -/
theorem all_sorted (hides : K → Bool) (sorted : rows.Pairwise (·.1 < ·.1))
    (ascending : pending.Pairwise (·.1 < ·.1))
    (apart : ∀ row ∈ rows, hides row.1 = false → ∀ p ∈ pending, p.1 ≠ row.1) :
    (all hides rows pending).Pairwise (·.1 < ·.1) := by
  induction rows generalizing pending with
  | nil => exact ascending
  | cons row rows ih =>
    obtain ⟨first, sorted⟩ := List.pairwise_cons.mp sorted
    have split := List.takeWhile_append_dropWhile (p := fun p : K × V => decide (p.1 < row.1))
      (l := pending)
    have kept {p : K × V} (mem : p ∈ pending.dropWhile (·.1 < row.1)) : p ∈ pending :=
      (List.dropWhile_sublist _).mem mem
    have least {p : K × V} (mem : p ∈ pending.dropWhile (·.1 < row.1)) : row.1 ≤ p.1 :=
      le_of_mem_dropWhile ascending mem
    rw [← split, List.pairwise_append] at ascending
    obtain ⟨taken, left, across⟩ := ascending
    have later : (all hides rows (pending.dropWhile (·.1 < row.1))).Pairwise (·.1 < ·.1) :=
      ih sorted left fun r mem visible p pending =>
        apart r (List.mem_cons_of_mem _ mem) visible p (kept pending)
    rw [all_cons, List.pairwise_append]
    refine ⟨taken, ?_, fun x taken y mem => ?_⟩
    · -- A row that shows is before all that follows: later rows are larger, and pending rows left
      -- are not smaller and have other keys.
      split
      · exact later
      · next visible =>
        refine List.pairwise_cons.mpr ⟨fun y mem => ?_, later⟩
        rcases mem_all.mp mem with pending | ⟨mem, -⟩
        · have other := apart row List.mem_cons_self (by simpa using visible) y (kept pending)
          exact Std.lt_of_le_of_ne (least pending) (Ne.symm other)
        · exact first y mem
    · have small : x.1 < row.1 := by simpa using List.mem_takeWhile_imp taken
      rcases List.mem_append.mp mem with shown | mem
      · have same : y = row := by
          split at shown
          · cases shown
          · exact List.mem_singleton.mp shown
        exact same ▸ small
      · rcases mem_all.mp mem with pending | ⟨mem, -⟩
        · exact across x taken y pending
        · exact Std.lt_trans small (first y mem)

omit [DecidableLT K] in
theorem le_last (sorted : rows.Pairwise (·.1 < ·.1)) {row last : K × V}
    (h : rows.getLast? = some last) (mem : row ∈ rows) : row.1 ≤ last.1 := by
  obtain ⟨init, rfl⟩ : ∃ init, rows = init ++ [last] :=
    ⟨rows.dropLast, (List.dropLast_append_getLast? last h).symm⟩
  obtain ⟨-, -, below⟩ := List.pairwise_append.mp sorted
  rcases List.mem_append.mp mem with mem | mem
  · exact Std.le_of_lt (below row mem last (List.mem_singleton.mpr rfl))
  · exact Std.le_of_eq (congrArg Prod.fst (List.mem_singleton.mp mem))

omit [DecidableLT K] in
/-- The last of ascending rows is the one that no row's key is above. -/
theorem getLast?_of_max (sorted : rows.Pairwise (·.1 < ·.1)) {top : K × V} (mem : top ∈ rows)
    (max : ∀ row ∈ rows, row.1 ≤ top.1) : rows.getLast? = some top := by
  have some : rows ≠ [] := List.ne_nil_of_mem mem
  have last := List.getLast?_eq_some_getLast some
  have same : top.1 = (rows.getLast some).1 :=
    Std.le_antisymm (le_last sorted last mem) (max _ (List.getLast_mem some))
  have distinct : (rows.map Prod.fst).Nodup :=
    List.pairwise_map.mpr (sorted.imp fun lt => Std.ne_of_lt lt)
  rw [last, List.inj_on_of_nodup_map distinct mem (List.getLast_mem some) same]

/-- If the last row shows, the last of a merge is the later of it and the last pending row. -/
theorem getLast?_all (sorted : (all hides rows pending).Pairwise (·.1 < ·.1))
    (ascending : pending.Pairwise (·.1 < ·.1)) (below : rows.Pairwise (·.1 < ·.1)) {row : K × V}
    (last : rows.getLast? = some row) (visible : hides row.1 = false) :
    (all hides rows pending).getLast? =
      match pending.getLast? with
      | some top => if row.1 < top.1 then some top else some row
      | none => some row := by
  have shown : row ∈ all hides rows pending :=
    mem_all.mpr (Or.inr ⟨List.mem_of_getLast? last, visible⟩)
  cases h : pending.getLast? with
  | none =>
    rw [List.getLast?_eq_none_iff] at h
    refine getLast?_of_max sorted shown fun other mem => ?_
    rcases mem_all.mp mem with pending | ⟨mem, -⟩
    · rw [h] at pending
      cases pending
    · exact le_last below last mem
  | some top =>
    have mem_top := List.mem_of_getLast? h
    by_cases later : row.1 < top.1
    · simp only [later, if_true]
      refine getLast?_of_max sorted (mem_all.mpr (Or.inl mem_top)) fun other mem => ?_
      rcases mem_all.mp mem with pending | ⟨mem, -⟩
      · exact le_last ascending h pending
      · exact Std.le_trans (le_last below last mem) (Std.le_of_lt later)
    · simp only [later, if_false]
      refine getLast?_of_max sorted shown fun other mem => ?_
      rcases mem_all.mp mem with pending | ⟨mem, -⟩
      · exact Std.le_trans (le_last ascending h pending) (Std.not_lt.mp later)
      · exact le_last below last mem

/-- The rows after the last of a first part are the second part. -/
theorem filter_after_last {first second : List (K × V)}
    (sorted : (first ++ second).Pairwise (·.1 < ·.1)) {hi : K × V} (last : first.getLast? = some hi) :
    (first ++ second).filter (fun row => hi.1 < row.1) = second := by
  obtain ⟨ascending, -, across⟩ := List.pairwise_append.mp sorted
  have none : first.filter (fun row => hi.1 < row.1) = [] :=
    List.filter_eq_nil_iff.mpr fun row mem => by
      simpa using Std.not_lt.mpr (le_last ascending last mem)
  have whole : second.filter (fun row => hi.1 < row.1) = second :=
    List.filter_eq_self.mpr fun row mem => by
      simpa using across hi (List.mem_of_getLast? last) row mem
  rw [List.filter_append, none, whole, List.nil_append]

end Merge

end Fastetcd
