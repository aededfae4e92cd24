import Fastetcd.Data.Merge
import Fastetcd.Mvcc.Lease

/-!
# The engine trait (`storage/src/kvstore.rs`)

An engine holds named tables of byte rows. A batch of puts, deletes and range deletes is applied in
order and as a whole. A snapshot answers point reads, scans between bounds with a limit, counts and
the last row.

A table that does not exist reads as an empty one, so a store is a table for every name.
-/

namespace Fastetcd.Storage

open Mvcc (Bytes Bound inBounds)

/-- One mutation within a `WriteBatch`. -/
inductive BatchOp where
  | put (table : String) (key value : Bytes)
  | delete (table : String) (key : Bytes)
  | deleteRange (table : String) (start stop : Bytes)
deriving DecidableEq

abbrev WriteBatch := List BatchOp

/-- A row of a table: its key and its value. -/
abbrev Row := Bytes × Bytes

/-- The tables of an engine. -/
abbrev Db := String → Table Bytes Bytes

/-- Whether `key` is in `[start, stop)`. -/
def covers (start stop key : Bytes) : Bool := decide (start ≤ key) && decide (key < stop)

namespace Db

def set (db : Db) (table : String) (rows : Table Bytes Bytes) : Db := Function.update db table rows

def apply (db : Db) : BatchOp → Db
  | .put table key value => db.set table ((db table).insert key value)
  | .delete table key => db.set table ((db table).erase key)
  | .deleteRange table start stop =>
    db.set table ((db table).filter fun key _ => !covers start stop key)

/-- A batch, whole and in order. -/
def commit (db : Db) (batch : WriteBatch) : Db := batch.foldl apply db

/-- Batches, one after the other. -/
def commitAll (db : Db) (batches : List WriteBatch) : Db := batches.foldl commit db

/-! ## Reads -/

def get (db : Db) (table : String) (key : Bytes) : Option Bytes := (db table)[key]?

def range (db : Db) (table : String) (start stop : Bound) (limit : Nat) : List Row :=
  limited limit ((db table).scan (inBounds start stop))

def count (db : Db) (table : String) (start stop : Bound) : Nat :=
  ((db table).scan (inBounds start stop)).length

/-- The row with the largest key. -/
def last (db : Db) (table : String) : Option Row := (db table).toList.getLast?

end Db

/-! ## Scans -/

theorem scan_sorted (rows : Table Bytes Bytes) (p : Bytes → Bool) :
    (rows.scan p).Pairwise (·.1 < ·.1) :=
  (rows.scan_ascending p).imp Mvcc.Bytes.compare_eq_lt.mp

/-- A scan from just after one of another scan's rows is that scan from there on. -/
theorem scan_excluded {rows : Table Bytes Bytes} {cursor stop : Bound} {hi : Row}
    (mem : hi ∈ rows.scan (inBounds cursor stop)) :
    rows.scan (inBounds (.excluded hi.1) stop) =
      (rows.scan (inBounds cursor stop)).filter fun row => hi.1 < row.1 := by
  obtain ⟨-, reached⟩ := Table.mem_scan.mp mem
  simp only [inBounds, Bool.and_eq_true] at reached
  rw [Table.scan, Table.scan, List.filter_filter]
  refine List.filter_congr fun row _ => ?_
  by_cases larger : hi.1 < row.1
  · cases cursor with
    | included a =>
      have above : a ≤ row.1 := Std.le_trans (of_decide_eq_true reached.1) (Std.le_of_lt larger)
      simp only [inBounds, larger, above, decide_true, Bool.true_and]
    | excluded a =>
      have above : a < row.1 := Std.lt_trans (of_decide_eq_true reached.1) larger
      simp only [inBounds, larger, above, decide_true, Bool.true_and]
    | unbounded => simp only [inBounds, larger, decide_true, Bool.true_and]
  · simp only [inBounds, larger, decide_false, Bool.false_and]

/-- A page of a scan, and the scan from just after the page's last row. -/
theorem scan_page {rows : Table Bytes Bytes} {cursor stop : Bound} {page : Nat} {hi : Row}
    (last : (limited page (rows.scan (inBounds cursor stop))).getLast? = some hi) :
    rows.scan (inBounds cursor stop) =
      limited page (rows.scan (inBounds cursor stop)) ++ rows.scan (inBounds (.excluded hi.1) stop) := by
  obtain ⟨others, split⟩ : ∃ others, rows.scan (inBounds cursor stop) =
      limited page (rows.scan (inBounds cursor stop)) ++ others := by
    rw [limited]
    split
    · exact ⟨[], (List.append_nil _).symm⟩
    · exact ⟨_, (List.take_append_drop page _).symm⟩
  have sorted := scan_sorted rows (inBounds cursor stop)
  have mem : hi ∈ rows.scan (inBounds cursor stop) := by
    rw [split]
    exact List.mem_append_left _ (List.mem_of_getLast? last)
  rw [scan_excluded mem]
  nth_rewrite 3 [split]
  rw [Merge.filter_after_last (split ▸ sorted) last]
  exact split

/-- Fewer rows are after a page's last row than from the page on. -/
theorem fewer_rows {rows : Table Bytes Bytes} {cursor stop : Bound} {page : Nat} {hi : Row}
    (last : (limited page (rows.scan (inBounds cursor stop))).getLast? = some hi) :
    (rows.scan (inBounds (.excluded hi.1) stop)).length <
      (rows.scan (inBounds cursor stop)).length := by
  have whole := congrArg List.length (scan_page last)
  have some := List.length_pos_of_mem (List.mem_of_getLast? last)
  rw [List.length_append] at whole
  omega

end Fastetcd.Storage
