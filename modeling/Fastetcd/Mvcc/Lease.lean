import Fastetcd.Data.BigEndian
import Fastetcd.Mvcc.Record

/-!
# Leases and their table keys (`storage/src/mvcc/lease.rs`)

A lease is a row of `lease` under its id as eight big-endian bytes. A key attached to a lease is
a row of `lease_keys` under the same eight bytes followed by the user key, with an empty value.
The rows of one lease are found by a byte-range scan between its id and the next one, both as
signed 64-bit integers.
-/

namespace Fastetcd.Mvcc

/-- `std::ops::Bound` over table keys. -/
inductive Bound where
  | included (key : Bytes)
  | excluded (key : Bytes)
  | unbounded
deriving DecidableEq

/-- Whether an engine range scan between the two bounds reaches `k`. A start above the end
reaches nothing. -/
def inBounds (start stop : Bound) (k : Bytes) : Bool :=
  (match start with
    | .included a => decide (a ≤ k)
    | .excluded a => decide (a < k)
    | .unbounded => true) &&
  (match stop with
    | .included a => decide (k ≤ a)
    | .excluded a => decide (k < a)
    | .unbounded => true)

/-- `i64::to_be_bytes`. -/
def toBeBytes (x : Int64) : Bytes :=
  let n := x.toUInt64.toNat
  [n / 256 ^ 7, n / 256 ^ 6, n / 256 ^ 5, n / 256 ^ 4, n / 256 ^ 3, n / 256 ^ 2, n / 256, n].map
    UInt8.ofNat

/-- `i64::from_be_bytes`. -/
def fromBeBytes (bytes : Bytes) : Int64 := (UInt64.ofNat (BigEndian.value bytes)).toInt64

/-- `i64::checked_add(1)`. -/
def checkedSucc (x : Int64) : Option Int64 :=
  if x = Int64.maxValue then none else some (x + 1)

/-- `LeaseRecord`, the value of a `lease` row. -/
structure LeaseRecord where
  id : LeaseId
  ttlSecs : Int
  deadlineUnixSecs : Int
deriving DecidableEq

/-- The `lease` table key of a lease. -/
def leaseIdKey (id : LeaseId) : Bytes := toBeBytes id

/-- The `lease_keys` table key of an attachment: the id's bytes, then the user key. -/
def leaseKeyIndex (id : LeaseId) (userKey : Bytes) : Bytes := leaseIdKey id ++ userKey

/-- The scan that finds the attachments of `id`: up to the id's successor as an `i64`, or to the
end of the table when there is none. -/
def leaseKeysBounds (id : LeaseId) : Bound × Bound :=
  (.included (leaseIdKey id), (checkedSucc (fromBeBytes (leaseIdKey id))).elim .unbounded
    fun n => .excluded (toBeBytes n))

/-- A `lease_keys` table key read back; `none` stands for the "key too short" internal error. -/
def parseLeaseKeysKey (bytes : Bytes) : Option (LeaseId × Bytes) :=
  if bytes.length < 8 then none else some (fromBeBytes (bytes.take 8), bytes.drop 8)

/-! ## The encoding reads back -/

theorem length_toBeBytes (x : Int64) : (toBeBytes x).length = 8 := rfl

theorem value_toBeBytes (x : Int64) : BigEndian.value (toBeBytes x) = x.toUInt64.toNat := by
  have bound : x.toUInt64.toNat < 2 ^ 64 := x.toUInt64.toNat_lt
  simp only [toBeBytes, List.map_cons, List.map_nil, BigEndian.value, UInt8.toNat_ofNat',
    List.length_cons, List.length_nil]
  omega

theorem fromBeBytes_toBeBytes (x : Int64) : fromBeBytes (toBeBytes x) = x := by
  rw [fromBeBytes, value_toBeBytes, UInt64.ofNat_toNat]
  exact Int64.toInt64_toUInt64 x

theorem parseLeaseKeysKey_leaseKeyIndex (id : LeaseId) (userKey : Bytes) :
    parseLeaseKeysKey (leaseKeyIndex id userKey) = some (id, userKey) := by
  have len : (leaseIdKey id).length = 8 := length_toBeBytes id
  have long : ¬ (leaseIdKey id ++ userKey).length < 8 := by
    rw [List.length_append, len]
    omega
  rw [parseLeaseKeysKey, leaseKeyIndex, if_neg long, List.take_left' len, List.drop_left' len]
  simp only [leaseIdKey, fromBeBytes_toBeBytes]

/-- An attachment row names its lease and its key. -/
theorem leaseKeyIndex_inj {id id' : LeaseId} {k k' : Bytes} :
    leaseKeyIndex id k = leaseKeyIndex id' k' ↔ id = id' ∧ k = k' := by
  refine ⟨fun h => ?_, fun h => by rw [h.1, h.2]⟩
  have parsed := congrArg parseLeaseKeysKey h
  rw [parseLeaseKeysKey_leaseKeyIndex, parseLeaseKeysKey_leaseKeyIndex] at parsed
  exact Prod.mk.inj (Option.some.inj parsed)

/-! ## What the scan of a lease reaches -/

theorem toNat_toUInt64_inj {x y : Int64} : x.toUInt64.toNat = y.toUInt64.toNat ↔ x = y := by
  refine ⟨fun same => ?_, fun same => by rw [same]⟩
  rw [← Int64.toInt64_toUInt64 x, UInt64.toNat_inj.mp same, Int64.toInt64_toUInt64]

theorem toNat_toUInt64_succ {id : Int64} (low : id ≠ -1) :
    (id + 1).toUInt64.toNat = id.toUInt64.toNat + 1 := by
  have wrap : id.toUInt64.toNat ≠ 2 ^ 64 - 1 := fun top =>
    low (toNat_toUInt64_inj.mp (top.trans (by decide)))
  have bound := id.toUInt64.toNat_lt
  have one : (1 : Int64).toUInt64.toNat = 1 := by decide
  rw [Int64.toUInt64_add, UInt64.toNat_add, one]
  omega

/-- Signed ids are sorted by their bytes with the negative ones last, so the successor of `-1` is
below it and nothing above the largest id bounds its scan. The scan of any other id reaches the
rows of that id and no others. -/
theorem inBounds_leaseKeysBounds {id lease : LeaseId} {key : Bytes} (low : id ≠ -1)
    (high : id ≠ Int64.maxValue) :
    inBounds (leaseKeysBounds id).1 (leaseKeysBounds id).2 (leaseKeyIndex lease key) = true ↔
      lease = id := by
  have bounds : leaseKeysBounds id =
      (.included (toBeBytes id), .excluded (toBeBytes (id + 1))) := by
    rw [leaseKeysBounds, leaseIdKey, fromBeBytes_toBeBytes, checkedSucc, if_neg high, Option.elim]
  have width (x y : Int64) : (toBeBytes x).length = (toBeBytes y).length :=
    (length_toBeBytes x).trans (length_toBeBytes y).symm
  have first : toBeBytes id ≤ leaseKeyIndex lease key ↔
      id.toUInt64.toNat ≤ lease.toUInt64.toNat := by
    rw [leaseKeyIndex, leaseIdKey, BigEndian.le_append_iff (width _ _), value_toBeBytes,
      value_toBeBytes]
  have last : leaseKeyIndex lease key < toBeBytes (id + 1) ↔
      lease.toUInt64.toNat < id.toUInt64.toNat + 1 := by
    rw [leaseKeyIndex, leaseIdKey, BigEndian.append_lt_iff (width _ _), value_toBeBytes,
      value_toBeBytes, toNat_toUInt64_succ low]
  rw [bounds, inBounds, Bool.and_eq_true, decide_eq_true_eq, decide_eq_true_eq, first, last,
    ← toNat_toUInt64_inj]
  omega

end Fastetcd.Mvcc
