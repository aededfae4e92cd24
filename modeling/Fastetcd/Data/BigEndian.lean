import Mathlib

/-!
# Big-endian bytes

A big-endian encoding of fixed width keeps the order of the numbers it encodes: byte strings of one
length compare as their values do (`value_lt_value`), whatever bytes follow the first of the two
(`append_lt_iff`). A table sorted by bytes is then sorted by the numbers its keys start with.
-/

namespace Fastetcd.BigEndian

/-- The number that big-endian bytes stand for. -/
def value : List UInt8 → Nat
  | [] => 0
  | b :: bytes => b.toNat * 256 ^ bytes.length + value bytes

theorem value_lt (bytes : List UInt8) : value bytes < 256 ^ bytes.length := by
  induction bytes with
  | nil => simp [value]
  | cons b bytes ih =>
    have digit : b.toNat + 1 ≤ 256 := b.toNat_lt
    calc value (b :: bytes) < b.toNat * 256 ^ bytes.length + 256 ^ bytes.length :=
          Nat.add_lt_add_left ih _
      _ = (b.toNat + 1) * 256 ^ bytes.length := by ring
      _ ≤ 256 * 256 ^ bytes.length := Nat.mul_le_mul_right _ digit
      _ = 256 ^ (b :: bytes).length := by rw [List.length_cons, Nat.pow_succ, Nat.mul_comm]

/-- A smaller first digit decides. -/
theorem value_lt_of_head {x y : UInt8} {a b : List UInt8} (same : a.length = b.length)
    (less : x < y) : value (x :: a) < value (y :: b) := by
  have digit : x.toNat + 1 ≤ y.toNat := UInt8.lt_iff_toNat_lt.mp less
  calc value (x :: a) < x.toNat * 256 ^ a.length + 256 ^ a.length :=
        Nat.add_lt_add_left (value_lt a) _
    _ = (x.toNat + 1) * 256 ^ b.length := by rw [same]; ring
    _ ≤ y.toNat * 256 ^ b.length := Nat.mul_le_mul_right _ digit
    _ ≤ value (y :: b) := Nat.le_add_right _ _

theorem value_lt_value {a b : List UInt8} (same : a.length = b.length) :
    value a < value b ↔ a < b := by
  induction a generalizing b with
  | nil =>
    obtain rfl := List.eq_nil_of_length_eq_zero same.symm
    simp
  | cons x a ih =>
    cases b with
    | nil => simp at same
    | cons y b =>
      rw [List.length_cons, List.length_cons, Nat.add_right_cancel_iff] at same
      rw [List.cons_lt_cons_iff, ← ih same]
      rcases Nat.lt_trichotomy x.toNat y.toNat with less | equal | more
      · have less := UInt8.lt_iff_toNat_lt.mpr less
        simp [less, value_lt_of_head same less]
      · obtain rfl := UInt8.toNat_inj.mp equal
        simp [value, same, UInt8.lt_irrefl]
      · have more := UInt8.lt_iff_toNat_lt.mpr more
        have above := value_lt_of_head same.symm more
        simp [(UInt8.ne_of_lt more).symm, UInt8.lt_asymm more, above.le]

/-- Bytes that follow do not matter below a bound of the same width. -/
theorem append_lt_iff {a b rest : List UInt8} (same : a.length = b.length) :
    a ++ rest < b ↔ value a < value b := by
  rw [value_lt_value same]
  induction a generalizing b with
  | nil =>
    obtain rfl := List.eq_nil_of_length_eq_zero same.symm
    simp
  | cons x a ih =>
    cases b with
    | nil => simp at same
    | cons y b =>
      rw [List.length_cons, List.length_cons, Nat.add_right_cancel_iff] at same
      rw [List.cons_append, List.cons_lt_cons_iff, List.cons_lt_cons_iff, ih same]

theorem le_append_iff {a b rest : List UInt8} (same : a.length = b.length) :
    b ≤ a ++ rest ↔ value b ≤ value a := by
  rw [← List.not_lt, append_lt_iff same, Nat.not_lt]

end Fastetcd.BigEndian
