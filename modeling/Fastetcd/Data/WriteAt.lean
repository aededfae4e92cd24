import Mathlib

/-!
# Writing into a list at a position

What a write does to a file or a growable buffer: the items from the position on are replaced by
the new ones, and a gap before the position is filled.
-/

namespace Fastetcd

variable {α : Type*} (zero : α)

/-- `l`, filled up to `n` items. -/
def padTo (n : Nat) (l : List α) : List α := l ++ List.replicate (n - l.length) zero

def writeAt (l : List α) (pos : Nat) (data : List α) : List α :=
  (padTo zero pos l).take pos ++ data ++ (padTo zero pos l).drop (pos + data.length)

theorem le_length_padTo (n : Nat) (l : List α) : n ≤ (padTo zero n l).length := by
  rw [padTo, List.length_append, List.length_replicate]
  omega

theorem padTo_of_le {n : Nat} {l : List α} (le : n ≤ l.length) : padTo zero n l = l := by
  rw [padTo, Nat.sub_eq_zero_of_le le, List.replicate_zero, List.append_nil]

theorem length_take_padTo (n : Nat) (l : List α) : ((padTo zero n l).take n).length = n :=
  List.length_take_of_le (le_length_padTo zero n l)

/-- A write over one at the same position that is not longer leaves nothing of it. -/
theorem writeAt_writeAt {l first second : List α} {pos : Nat}
    (le : first.length ≤ second.length) :
    writeAt zero (writeAt zero l pos first) pos second = writeAt zero l pos second := by
  have start := length_take_padTo zero pos l
  have long : pos ≤ (writeAt zero l pos first).length := by
    rw [writeAt, List.length_append, List.length_append, start]
    omega
  have before : (writeAt zero l pos first).take pos = (padTo zero pos l).take pos := by
    rw [writeAt, List.append_assoc, List.take_append_of_le_length (Nat.le_of_eq start.symm),
      List.take_take, Nat.min_self]
  have behind : (writeAt zero l pos first).drop (pos + second.length) =
      (padTo zero pos l).drop (pos + second.length) := by
    have split : pos + second.length =
        ((padTo zero pos l).take pos ++ first).length + (second.length - first.length) := by
      rw [List.length_append, start]
      omega
    conv_lhs => rw [writeAt, split, List.drop_length_add_append, List.drop_drop]
    congr 1
    omega
  calc writeAt zero (writeAt zero l pos first) pos second
      = (writeAt zero l pos first).take pos ++ second ++
          (writeAt zero l pos first).drop (pos + second.length) := by
        rw [writeAt, padTo_of_le zero long]
    _ = writeAt zero l pos second := by
        rw [before, behind, ← writeAt]

end Fastetcd
