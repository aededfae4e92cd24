import Mathlib

/-!
# Checked subtraction

`a - b` on unsigned integers, where an underflow is `none`.
-/

namespace Fastetcd

def checkedSub (a b : Nat) : Option Nat := if b ≤ a then some (a - b) else none

theorem checkedSub_of_le {a b : Nat} (le : b ≤ a) : checkedSub a b = some (a - b) := if_pos le

@[simp]
theorem checkedSub_add (a b : Nat) : checkedSub (a + b) b = some a := by
  rw [checkedSub_of_le (Nat.le_add_left b a), Nat.add_sub_cancel]

end Fastetcd
