import Fastetcd.Storage.RaftWal

/-!
# The WAL's bytes

A record reads back as itself whatever follows it (`parse_encode`), zeros read as the end of the data
(`parse_zeros`), and so a segment made of records and zeros reads back as those records
(`scan_encode`), each at its offset (`layout`).
-/

namespace Fastetcd.Storage

open Mvcc (Bytes)
open Bincode (leBytes ofLeBytes length_leBytes ofLeBytes_leBytes)

/-! ## One record -/

/-- What `append` accepts. -/
def Record.Fits (r : Record) : Prop := r.payload.length ≤ MAX_PAYLOAD

@[simp]
theorem length_encodeRecord (r : Record) :
    (encodeRecord r).length = HEADER_LEN + r.payload.length := by
  simp only [encodeRecord, List.length_append, List.length_cons, length_leBytes, HEADER_LEN]
  omega

theorem ofByte_byte (kind : Kind) : Kind.ofByte kind.byte = some kind := by
  cases kind <;> rfl

theorem byte_ne_zero (kind : Kind) : kind.byte ≠ 0 := by
  cases kind <;> decide

/-- A record reads back as itself, whatever follows it. -/
theorem parse_encode {r : Record} (fits : r.Fits) (rest : Bytes) :
    parse (encodeRecord r ++ rest) = .record r := by
  have size : (encodeRecord r ++ rest).length = HEADER_LEN + r.payload.length + rest.length := by
    rw [List.length_append, length_encodeRecord]
  have len : (encodeRecord r ++ rest).take 4 = leBytes 4 r.payload.length := by
    simp only [encodeRecord, List.append_assoc]
    exact List.take_left' (length_leBytes 4 _)
  have crc : ((encodeRecord r ++ rest).drop 4).take 4 = leBytes 4 r.crc.toNat := by
    simp only [encodeRecord, List.append_assoc]
    rw [List.drop_left' (length_leBytes 4 _), List.take_left' (length_leBytes 4 _)]
  have body : (encodeRecord r ++ rest).drop 8 =
      r.kind.byte :: (leBytes 8 r.index ++ (r.payload ++ rest)) := by
    simp only [encodeRecord, List.append_assoc]
    rw [← List.drop_drop (i := 4) (j := 4), List.drop_left' (length_leBytes 4 _),
      List.drop_left' (length_leBytes 4 _)]
    simp
  have index : ((encodeRecord r ++ rest).drop 9).take 8 = leBytes 8 r.index := by
    rw [← List.drop_drop (i := 1) (j := 8), body, List.drop_one, List.tail_cons,
      List.take_left' (length_leBytes 8 _)]
  have payload : ((encodeRecord r ++ rest).drop HEADER_LEN).take r.payload.length = r.payload := by
    rw [HEADER_LEN, ← List.drop_drop (i := 9) (j := 8), body, List.drop_succ_cons,
      List.drop_left' (length_leBytes 8 _), List.take_left]
  have shown : ((encodeRecord r ++ rest).take HEADER_LEN).all (· == 0) = false := by
    refine List.all_eq_false.mpr ⟨r.kind.byte, ?_, by simpa using byte_ne_zero r.kind⟩
    refine List.mem_take_iff_getElem.mpr ⟨8, by rw [size, HEADER_LEN]; omega, ?_⟩
    have head : ((encodeRecord r ++ rest).drop 8)[0]? = some r.kind.byte := by
      rw [body]
      rfl
    rw [List.getElem?_drop] at head
    exact (List.getElem?_eq_some_iff.mp head).2
  have lenOk : ofLeBytes (leBytes 4 r.payload.length) = r.payload.length :=
    ofLeBytes_leBytes (Nat.lt_of_le_of_lt fits (by decide))
  have crcOk : ofLeBytes (leBytes 4 r.crc.toNat) = r.crc.toNat :=
    ofLeBytes_leBytes (Nat.lt_of_lt_of_le r.crc.toNat_lt (by decide))
  have indexOk : ofLeBytes (leBytes 8 r.index) = r.index := ofLeBytes_leBytes r.index_lt
  have empty : (encodeRecord r ++ rest).isEmpty = false := by
    rw [List.isEmpty_eq_false_iff, ← List.length_pos_iff, size, HEADER_LEN]
    omega
  unfold parse
  simp only [empty, shown, body, len, crc, index, payload, lenOk, crcOk, indexOk, size,
    List.headD_cons, ofByte_byte, Bool.false_eq_true, if_false]
  rw [if_neg (by omega), if_neg (by rw [Record.Fits] at fits; omega), if_neg (by simp)]

theorem parse_zeros (n : Nat) : parse (List.replicate n 0) = .done := by
  unfold parse
  have zeros (m : Nat) : (List.replicate m (0 : UInt8)).all (· == 0) = true := by simp
  split
  · rfl
  · split
    · rw [if_pos (zeros n)]
    · rw [List.take_replicate, if_pos (zeros _)]

/-! ## A segment -/

def encodeAll (records : List Record) : Bytes := records.flatMap encodeRecord

@[simp]
theorem encodeAll_nil : encodeAll [] = [] := rfl

@[simp]
theorem encodeAll_cons (r : Record) (records : List Record) :
    encodeAll (r :: records) = encodeRecord r ++ encodeAll records := rfl

@[simp]
theorem encodeAll_append (a b : List Record) : encodeAll (a ++ b) = encodeAll a ++ encodeAll b :=
  List.flatMap_append

/-- Each record with its offset, the first one's being `offset`. -/
def layout (offset : Nat) : List Record → List (Nat × Record)
  | [] => []
  | r :: records => (offset, r) :: layout (offset + (encodeRecord r).length) records

theorem layout_append (offset : Nat) (a b : List Record) :
    layout offset (a ++ b) = layout offset a ++ layout (offset + (encodeAll a).length) b := by
  induction a generalizing offset with
  | nil => rfl
  | cons r a ih => simp [layout, ih, Nat.add_assoc]

@[simp]
theorem map_snd_layout (offset : Nat) (records : List Record) :
    (layout offset records).map Prod.snd = records := by
  induction records generalizing offset with
  | nil => rfl
  | cons r records ih => rw [layout, List.map_cons, ih]

theorem scan_of_record {rest : Bytes} {r : Record} (parsed : parse rest = .record r)
    (offset : Nat) :
    scan rest offset =
      ((offset, r) :: (scan (rest.drop (HEADER_LEN + r.payload.length))
        (offset + HEADER_LEN + r.payload.length)).1,
        (scan (rest.drop (HEADER_LEN + r.payload.length))
          (offset + HEADER_LEN + r.payload.length)).2) := by
  rw [scan]
  split
  · next r' h =>
    rw [parsed] at h
    cases h
    rfl
  · next h =>
    rw [parsed] at h
    cases h
  · next h =>
    rw [parsed] at h
    cases h

theorem scan_of_done {rest : Bytes} (parsed : parse rest = .done) (offset : Nat) :
    scan rest offset = ([], offset, none) := by
  rw [scan]
  split
  · next h =>
    rw [parsed] at h
    cases h
  · rfl
  · next h =>
    rw [parsed] at h
    cases h

theorem scan_of_bad {rest : Bytes} {why : String} (parsed : parse rest = .bad why) (offset : Nat) :
    scan rest offset = ([], offset, some why) := by
  rw [scan]
  split
  · next h =>
    rw [parsed] at h
    cases h
  · next h =>
    rw [parsed] at h
    cases h
  · next h =>
    rw [parsed] at h
    cases h
    rfl

/-- Records are read until what follows them. -/
theorem scan_append {records : List Record} (fits : ∀ r ∈ records, r.Fits) (rest : Bytes)
    (offset : Nat) :
    scan (encodeAll records ++ rest) offset =
      (layout offset records ++ (scan rest (offset + (encodeAll records).length)).1,
        (scan rest (offset + (encodeAll records).length)).2) := by
  induction records generalizing offset with
  | nil => simp [layout]
  | cons r records ih =>
    have parsed := parse_encode (fits r List.mem_cons_self) (encodeAll records ++ rest)
    rw [encodeAll_cons, List.append_assoc, scan_of_record parsed, ← length_encodeRecord,
      List.drop_left, Nat.add_assoc offset, ← length_encodeRecord,
      ih fun r mem => fits r (List.mem_cons_of_mem _ mem)]
    simp [layout, Nat.add_assoc]

/-- A segment of records and zeros reads back as the records. -/
theorem scan_encode {records : List Record} (fits : ∀ r ∈ records, r.Fits) (zeros offset : Nat) :
    scan (encodeAll records ++ List.replicate zeros 0) offset =
      (layout offset records, offset + (encodeAll records).length, none) := by
  rw [scan_append fits, scan_of_done (parse_zeros zeros), List.append_nil]

end Fastetcd.Storage
