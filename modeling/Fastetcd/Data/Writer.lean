import Mathlib

/-!
# Writers

`io::Write`: a call takes some of the bytes it is given and says how many. `write_all` calls again
with the rest. A lawful writer takes at least one byte, and what it has taken so far grows by what
it takes; then `write_all` hands over everything.
-/

namespace Fastetcd

abbrev Writer (W : Type) := W → List UInt8 → Nat × W

namespace Writer

variable {W : Type}

/-- `write_all`. A call that takes nothing is an error. -/
def writeAll (write : Writer W) (w : W) (data : List UInt8) : Option W :=
  if _some : data = [] then some w
  else
    let (n, w) := write w data
    if _taken : 0 < n then writeAll write w (data.drop n) else none
termination_by data.length
decreasing_by
  have long := List.length_pos_iff.mpr _some
  rw [List.length_drop]
  omega

/-- `write_all` of each of some pieces. -/
def writePieces (write : Writer W) (w : W) (pieces : List (List UInt8)) : Option W :=
  pieces.foldlM (writeAll write) w

/-- The writer takes something of what it is given, from its front. -/
structure Lawful (write : Writer W) (taken : W → List UInt8) (Good : W → Prop) : Prop where
  pos : ∀ w data, Good w → data ≠ [] → 0 < (write w data).1
  takes : ∀ w data, Good w → taken (write w data).2 = taken w ++ data.take (write w data).1
  good : ∀ w data, Good w → Good (write w data).2

variable {write : Writer W} {taken : W → List UInt8} {Good : W → Prop}

theorem Lawful.writeAll (lawful : Lawful write taken Good) {w : W} (good : Good w)
    (data : List UInt8) :
    ∃ w', Writer.writeAll write w data = some w' ∧ taken w' = taken w ++ data ∧ Good w' := by
  -- each call leaves less to write
  induction len : data.length using Nat.strong_induction_on generalizing w data with
  | _ n ih =>
    rw [Writer.writeAll]
    by_cases empty : data = []
    · refine ⟨w, dif_pos empty, ?_, good⟩
      rw [empty, List.append_nil]
    · have pos := lawful.pos w data good empty
      have shorter : (data.drop (write w data).1).length < n := by
        have long := List.length_pos_iff.mpr empty
        rw [List.length_drop]
        omega
      obtain ⟨w', written, all, good'⟩ := ih _ shorter (lawful.good w data good) _ rfl
      refine ⟨w', ?_, ?_, good'⟩
      · rw [dif_neg empty]
        simp only [pos, dif_pos]
        exact written
      · rw [all, lawful.takes w data good, List.append_assoc, List.take_append_drop]

theorem Lawful.writePieces (lawful : Lawful write taken Good) {w : W} (good : Good w)
    (pieces : List (List UInt8)) :
    ∃ w', Writer.writePieces write w pieces = some w' ∧ taken w' = taken w ++ pieces.flatten ∧
      Good w' := by
  induction pieces generalizing w with
  | nil => exact ⟨w, rfl, (List.append_nil _).symm, good⟩
  | cons piece pieces ih =>
    obtain ⟨w₁, first, taken₁, good₁⟩ := lawful.writeAll good piece
    obtain ⟨w', rest, all, good'⟩ := ih good₁
    refine ⟨w', ?_, ?_, good'⟩
    · rw [Writer.writePieces, List.foldlM_cons, first]
      exact rest
    · rw [all, taken₁, List.flatten_cons, List.append_assoc]

end Writer

end Fastetcd
