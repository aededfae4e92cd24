import Fastetcd.Data.Table

/-!
# MVCC revisions (`storage/src/mvcc/revision.rs`)

A revision is a pair `(main, sub)`, ordered by `main` and then by `sub`. `main` is the store's
revision counter; `sub` tells the writes of one main revision apart.

`sub` is an `i64` in the source. It counts the mutations of one request from `0`, and its
largest value `i64::MAX` is used only as "after every write of this main revision". No request
holds that many mutations, so the model writes the end as `⊤` and every counted sub as a
natural number.
-/

namespace Fastetcd.Mvcc

/-- `Vec<u8>`: user keys, values and encoded table keys. -/
abbrev Bytes := List UInt8

/-- Tables sort their keys as byte strings compare. -/
theorem Bytes.compare_eq_lt {a b : Bytes} : compare a b = .lt ↔ a < b := by
  change List.compareLex compare a b = .lt ↔ a < b
  induction a generalizing b with
  | nil => cases b <;> simp [List.compareLex]
  | cons x a ih =>
    cases b with
    | nil => simp [List.compareLex]
    | cons y b =>
      rw [List.compareLex_cons_cons, Ordering.then_eq_lt, ih, List.cons_lt_cons_iff,
        Std.compare_eq_lt, Std.LawfulEqCmp.compare_eq_iff_eq]

/-- `Revision`. -/
structure Revision where
  main : Int
  sub : WithTop Nat
deriving DecidableEq

namespace Revision

/-- The derived `Ord`: `main` first, then `sub`. -/
instance : LinearOrder Revision :=
  LinearOrder.lift' (fun r => toLex (r.main, r.sub)) fun a b h => by
    obtain ⟨hmain, hsub⟩ := Prod.mk.inj (toLex.injective h)
    cases a
    cases b
    cases hmain
    cases hsub
    rfl

theorem le_iff {a b : Revision} : a ≤ b ↔ a.main < b.main ∨ a.main = b.main ∧ a.sub ≤ b.sub :=
  Prod.Lex.le_iff

theorem lt_iff {a b : Revision} : a < b ↔ a.main < b.main ∨ a.main = b.main ∧ a.sub < b.sub :=
  Prod.Lex.lt_iff

instance : Std.TransOrd Revision := inferInstance

instance : Std.LawfulEqOrd Revision where
  eq_of_compare h := compare_eq_iff_eq.mp h

/-- `Revision::new(main, i64::MAX)`: the end of a main revision. -/
def endOf (main : Int) : Revision := ⟨main, ⊤⟩

@[simp]
theorem le_endOf {r : Revision} {main : Int} : r ≤ endOf main ↔ r.main ≤ main := by
  rw [le_iff]
  simp only [endOf, le_top, and_true]
  omega

@[simp]
theorem endOf_lt {r : Revision} {main : Int} : endOf main < r ↔ main < r.main := by
  rw [← not_le, le_endOf, not_le]

theorem main_le_of_le {a b : Revision} (h : a ≤ b) : a.main ≤ b.main := by
  rcases le_iff.mp h with h | h
  · exact h.le
  · exact h.1.le

theorem main_le_of_lt {a b : Revision} (h : a < b) : a.main ≤ b.main :=
  main_le_of_le h.le

end Revision

/-- The `mvcc_kv` key of `make_kv_key`: the user key and the revision of one record. -/
structure KvKey where
  key : Bytes
  rev : Revision
deriving DecidableEq

/-- Byte order of `make_kv_key`: the length prefix, the user key, then the revision. -/
instance : Ord KvKey where
  compare := compareLex (compareOn fun k => k.key.length)
    (compareLex (compareOn KvKey.key) (compareOn KvKey.rev))

instance : Std.TransOrd KvKey :=
  inferInstanceAs (Std.TransCmp (compareLex (compareOn fun k : KvKey => k.key.length)
    (compareLex (compareOn KvKey.key) (compareOn KvKey.rev))))

instance : Std.LawfulEqOrd KvKey where
  eq_of_compare {a b} h := by
    have h : (compare a.key.length b.key.length).then
        ((compare a.key b.key).then (compare a.rev b.rev)) = .eq := h
    rw [Ordering.then_eq_eq, Ordering.then_eq_eq] at h
    obtain ⟨-, hkey, hrev⟩ := h
    cases a
    cases b
    rw [KvKey.mk.injEq]
    exact ⟨Std.LawfulEqOrd.eq_of_compare hkey, Std.LawfulEqOrd.eq_of_compare hrev⟩

end Fastetcd.Mvcc
