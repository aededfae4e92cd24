import Fastetcd.Data.Table

/-!
# Patches of maps

A patch says of each key nothing, that it is gone, or its value. Patches are stacked, the newer on
top, and a patch applied twice is a patch applied once. So a stack of patches may be applied to a map
that the stack is already in, which is what a write-behind overlay over a half-written base rests on.
-/

namespace Fastetcd

/-- What is said of each key: nothing (`none`), gone (`some none`) or a value. -/
abbrev Patch (K V : Type) := K → Option (Option V)

namespace Patch

variable {K V : Type}

/-- The map after the patch. -/
def apply (p : Patch K V) (m : K → Option V) : K → Option V := fun k => (p k).getD (m k)

/-- `newer` where it says something, else `older`. -/
def atop (newer older : Patch K V) : Patch K V := fun k => (newer k).or (older k)

/-- A list of patches as one, the oldest first. -/
def stacked : List (Patch K V) → Patch K V
  | [] => fun _ => none
  | p :: ps => (stacked ps).atop p

@[simp]
theorem atop_none (p : Patch K V) : p.atop (fun _ => none) = p := by
  funext k
  simp [atop]

@[simp]
theorem none_atop (p : Patch K V) : atop (fun _ => none) p = p := by
  funext k
  simp [atop]

theorem atop_assoc (p q r : Patch K V) : (p.atop q).atop r = p.atop (q.atop r) := by
  funext k
  simp [atop, Option.or_assoc]

theorem stacked_append (ps qs : List (Patch K V)) :
    stacked (ps ++ qs) = (stacked qs).atop (stacked ps) := by
  induction ps with
  | nil => simp [stacked]
  | cons p ps ih => rw [List.cons_append, stacked, ih, stacked, atop_assoc]

@[simp]
theorem apply_none (m : K → Option V) : apply (fun _ => none) m = m := rfl

theorem apply_atop (newer older : Patch K V) (m : K → Option V) :
    (newer.atop older).apply m = newer.apply (older.apply m) := by
  funext k
  simp only [apply, atop]
  cases newer k <;> simp

/-- A patch applied again changes nothing. -/
theorem apply_apply (p : Patch K V) (m : K → Option V) : p.apply (p.apply m) = p.apply m := by
  funext k
  simp only [apply]
  cases p k <;> rfl

/-! ## Single keys -/

section Point

variable [DecidableEq K]

/-- Says one thing, of one key. -/
def point (key : K) (value : Option V) : Patch K V := fun k => if key = k then some value else none

/-- Of points with different keys each decides its own key. -/
theorem stacked_points {rows : List (K × Option V)} (distinct : (rows.map Prod.fst).Nodup) {k : K} :
    (∀ v, (k, v) ∈ rows → stacked (rows.map fun row => point row.1 row.2) k = some v) ∧
      ((∀ v, (k, v) ∉ rows) → stacked (rows.map fun row => point row.1 row.2) k = none) := by
  induction rows with
  | nil => simp [stacked]
  | cons row rows ih =>
    obtain ⟨fresh, distinct⟩ := List.nodup_cons.mp distinct
    obtain ⟨found, absent⟩ := ih distinct
    simp only [List.map_cons, stacked, atop, point]
    constructor
    · intro v mem
      rcases List.mem_cons.mp mem with rfl | mem
      · rw [absent fun w mem => fresh (List.mem_map.mpr ⟨_, mem, rfl⟩)]
        simp
      · rw [found v mem]
        rfl
    · intro none
      have other : row.1 ≠ k := fun same => none row.2 (by simp [← same])
      rw [absent fun v mem => none v (List.mem_cons_of_mem _ mem), if_neg other]
      rfl

/-- The rows of a table, as points, are the table. -/
theorem stacked_toList [Ord K] [Std.TransOrd K] [Std.LawfulEqOrd K] (t : Table K (Option V)) :
    stacked (t.toList.map fun row => point row.1 row.2) = fun k => t[k]? := by
  funext k
  have sorted : SortedRows t.toList := t.ordered_keys_toList
  obtain ⟨found, absent⟩ := stacked_points (k := k) sorted.nodup_keys
  cases h : t[k]? with
  | some v => exact found v (Std.ExtTreeMap.mem_toList_iff_getElem?_eq_some.mpr h)
  | none =>
    refine absent fun v mem => ?_
    rw [Std.ExtTreeMap.mem_toList_iff_getElem?_eq_some, h] at mem
    cases mem

end Point

end Patch

end Fastetcd
