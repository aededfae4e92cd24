import Fastetcd.Laws.Storage.RaftLog
import Fastetcd.Storage.PowerLoss

/-!
# What a WAL gives back after a loss of power

The records in the last segment are read up to the first one that was lost (`scan_torn`), and those
covered by a sync are not lost. What is behind the first lost record is cut away, or it is behind a
header of zeros and stays.
-/

namespace Fastetcd.Storage

open Mvcc (Bytes)
open Bincode (leBytes ofLeBytes)

/-! ## What is read as a record -/

theorem parse_zeros_append {n : Nat} (long : HEADER_LEN ≤ n) (rest : Bytes) :
    parse (List.replicate n 0 ++ rest) = .done := by
  have front : (List.replicate n 0 ++ rest).take HEADER_LEN = List.replicate HEADER_LEN 0 := by
    rw [List.take_append_of_le_length (by rwa [List.length_replicate]), List.take_replicate,
      Nat.min_eq_left long]
  unfold parse
  rw [front]
  split
  · rfl
  · split
    · next short =>
      rw [List.length_append, List.length_replicate] at short
      omega
    · rfl

theorem leBytes_ofLeBytes (bytes : Bytes) : leBytes bytes.length (ofLeBytes bytes) = bytes := by
  induction bytes with
  | nil => rfl
  | cons b bytes ih =>
    have value : ofLeBytes (b :: bytes) = b.toNat + 256 * ofLeBytes bytes := rfl
    have digit : b.toNat < 256 := b.toNat_lt
    have low : UInt8.ofNat (b.toNat + 256 * ofLeBytes bytes) = b := by
      apply UInt8.toNat_inj.mp
      rw [UInt8.toNat_ofNat']
      omega
    have high : (b.toNat + 256 * ofLeBytes bytes) / 256 = ofLeBytes bytes := by omega
    rw [value, List.length_cons, leBytes, low, high, ih]

theorem byte_ofByte {b : UInt8} {kind : Kind} (known : Kind.ofByte b = some kind) :
    kind.byte = b := by
  unfold Kind.ofByte at known
  split at known
  · next h => cases known; exact h.symm
  · split at known
    · next h => cases known; exact h.symm
    · split at known
      · next h => cases known; exact h.symm
      · split at known
        · next h => cases known; exact h.symm
        · split at known
          · next h => cases known; exact h.symm
          · cases known

theorem drop_eq_headD_cons {rest : Bytes} {n : Nat} (long : n < rest.length) :
    rest.drop n = (rest.drop n).headD 0 :: rest.drop (n + 1) := by
  rw [List.drop_eq_getElem_cons long, List.headD_cons]

/-- A number in the header. -/
theorem leBytes_field {rest : Bytes} {n width : Nat} (long : HEADER_LEN ≤ rest.length)
    (inside : n + width ≤ HEADER_LEN := by decide) :
    leBytes width (ofLeBytes ((rest.drop n).take width)) = (rest.drop n).take width := by
  have size : ((rest.drop n).take width).length = width := by
    rw [List.length_take, List.length_drop]
    omega
  have same := leBytes_ofLeBytes ((rest.drop n).take width)
  rwa [size] at same

/-- A header and a payload, field by field. -/
theorem fields_eq {rest : Bytes} (len : Nat) (long : HEADER_LEN ≤ rest.length) :
    rest = rest.take 4 ++ ((rest.drop 4).take 4 ++ ((rest.drop 8).headD 0 ::
      ((rest.drop 9).take 8 ++ (rest.drop HEADER_LEN).take len))) ++
        rest.drop (HEADER_LEN + len) := by
  have kind : (rest.drop 4).drop 4 = (rest.drop 8).headD 0 :: rest.drop 9 := by
    rw [List.drop_drop]
    exact drop_eq_headD_cons (by rw [HEADER_LEN] at long; omega)
  have index : (rest.drop 9).drop 8 = rest.drop HEADER_LEN := List.drop_drop
  have payload : (rest.drop HEADER_LEN).drop len = rest.drop (HEADER_LEN + len) := List.drop_drop
  have tail : rest.drop 9 = (rest.drop 9).take 8 ++
      ((rest.drop HEADER_LEN).take len ++ rest.drop (HEADER_LEN + len)) := by
    rw [← payload, List.take_append_drop, ← index, List.take_append_drop]
  calc rest = rest.take 4 ++ ((rest.drop 4).take 4 ++ (rest.drop 4).drop 4) := by
        rw [List.take_append_drop, List.take_append_drop]
    _ = rest.take 4 ++ ((rest.drop 4).take 4 ++ ((rest.drop 8).headD 0 ::
          ((rest.drop 9).take 8 ++
            ((rest.drop HEADER_LEN).take len ++ rest.drop (HEADER_LEN + len))))) := by
        rw [kind, ← tail]
    _ = _ := by simp only [List.append_assoc, List.cons_append]

/-- What is read as a record is its bytes. -/
theorem encode_of_parse {rest : Bytes} {r : Record} (parsed : parse rest = .record r) :
    ∃ tail, rest = encodeRecord r ++ tail := by
  unfold parse at parsed
  split at parsed
  · cases parsed
  split at parsed
  · split at parsed <;> cases parsed
  next long =>
  split at parsed
  · cases parsed
  dsimp only at parsed
  split at parsed
  · cases parsed
  next kind known =>
  split at parsed
  · cases parsed
  next within =>
  split at parsed
  · cases parsed
  next crc =>
  cases parsed
  have long : HEADER_LEN ≤ rest.length := Nat.not_lt.mp long
  have size : ((rest.drop HEADER_LEN).take (ofLeBytes (rest.take 4))).length =
      ofLeBytes (rest.take 4) := by
    rw [List.length_take, List.length_drop]
    omega
  have len : leBytes 4 (ofLeBytes (rest.take 4)) = rest.take 4 := leBytes_field (n := 0) long
  have sum : leBytes 4 (ofLeBytes ((rest.drop 4).take 4)) = (rest.drop 4).take 4 :=
    leBytes_field long
  have index : leBytes 8 (ofLeBytes ((rest.drop 9).take 8)) = (rest.drop 9).take 8 :=
    leBytes_field long
  refine ⟨rest.drop (HEADER_LEN + ofLeBytes (rest.take 4)), ?_⟩
  rw [encodeRecord, not_not.mp crc]
  simp only [size, len, sum, index, byte_ofByte known]
  exact fields_eq _ long

/-! ## A torn segment -/

/-- Why reading stops before `tail`. -/
def Stops (tail : Bytes) : Option String → Prop
  | none => parse tail = .done
  | some why => parse tail = .bad why

theorem scan_stops {bytes : Bytes} (lost : ∀ r, parse bytes ≠ .record r) (offset : Nat) :
    ∃ stop, Stops bytes stop ∧ scan bytes offset = ([], offset, stop) := by
  cases parsed : parse bytes with
  | record r => exact absurd parsed (lost r)
  | done => exact ⟨none, parsed, scan_of_done parsed offset⟩
  | bad why => exact ⟨some why, parsed, scan_of_bad parsed offset⟩

/-- Where records were written, they are read up to the first one lost. -/
theorem scan_torn {records : List Record} {bytes : Bytes}
    (crc : ∀ before r after, records = before ++ r :: after →
      ∀ r', parse (bytes.drop (encodeAll before).length) = .record r' → r' = r)
    (rest : ∀ r, parse (bytes.drop (encodeAll records).length) ≠ .record r) (offset : Nat) :
    ∃ k tail stop, k ≤ records.length ∧ bytes = encodeAll (records.take k) ++ tail ∧
      Stops tail stop ∧ scan bytes offset =
        (layout offset (records.take k), offset + (encodeAll (records.take k)).length, stop) := by
  induction records generalizing bytes offset with
  | nil =>
    obtain ⟨stop, stops, scanned⟩ := scan_stops rest offset
    exact ⟨0, bytes, stop, Nat.le_refl 0, rfl, stops, scanned⟩
  | cons r records ih =>
    by_cases lost : ∀ r', parse bytes ≠ .record r'
    · obtain ⟨stop, stops, scanned⟩ := scan_stops lost offset
      exact ⟨0, bytes, stop, Nat.zero_le _, rfl, stops, scanned⟩
    · obtain ⟨r', parsed⟩ := not_forall_not.mp lost
      obtain rfl := crc [] r records rfl r' parsed
      obtain ⟨bytes, rfl⟩ := encode_of_parse parsed
      have crc' : ∀ before x after, records = before ++ x :: after →
          ∀ y, parse (bytes.drop (encodeAll before).length) = .record y → y = x := by
        intro before x after split y parsed
        refine crc (r' :: before) x after (by rw [split, List.cons_append]) y ?_
        rw [encodeAll_cons, List.length_append, ← List.drop_drop, List.drop_left]
        exact parsed
      have rest' : ∀ x, parse (bytes.drop (encodeAll records).length) ≠ .record x := by
        intro x parsed
        refine rest x ?_
        rw [encodeAll_cons, List.length_append, ← List.drop_drop, List.drop_left]
        exact parsed
      obtain ⟨k, tail, stop, short, split, stops, scanned⟩ :=
        ih crc' rest' (offset + (encodeRecord r').length)
      refine ⟨k + 1, tail, stop, Nat.succ_le_succ short, ?_, stops, ?_⟩
      · rw [List.take_succ_cons, encodeAll_cons, List.append_assoc, ← split]
      · rw [scan_of_record parsed, ← length_encodeRecord, List.drop_left, Nat.add_assoc offset,
          ← length_encodeRecord, scanned]
        simp [layout, Nat.add_assoc]

/-- The first `n` of the records are read, and more of them up to the first one lost. -/
theorem scan_lost {records : List Record} (fits : ∀ r ∈ records, r.Fits) {n : Nat}
    (short : n ≤ records.length) {bytes : Bytes}
    (crc : ∀ before r after, records = before ++ r :: after →
      ∀ r', parse (bytes.drop (encodeAll before).length) = .record r' → r' = r)
    (rest : ∀ r, parse (bytes.drop (encodeAll records).length) ≠ .record r)
    (synced : ∃ more, bytes = encodeAll (records.take n) ++ more) :
    ∃ k tail stop, n ≤ k ∧ k ≤ records.length ∧ bytes = encodeAll (records.take k) ++ tail ∧
      Stops tail stop ∧ scan bytes 0 =
        (layout 0 (records.take k), (encodeAll (records.take k)).length, stop) := by
  obtain ⟨k, tail, stop, within, split, stops, scanned⟩ := scan_torn crc rest 0
  refine ⟨k, tail, stop, ?_, within, split, stops, by rw [scanned, Nat.zero_add]⟩
  -- otherwise the record after the first `k` is there
  by_contra less
  have less : k < n := Nat.not_le.mp less
  have inside : k < records.length := Nat.lt_of_lt_of_le less short
  obtain ⟨more, begin⟩ := synced
  have next : records.take n = records.take k ++ records[k] :: (records.take n).drop (k + 1) := by
    have here : k < (records.take n).length := by
      rw [List.length_take]
      omega
    calc records.take n = (records.take n).take k ++ (records.take n).drop k :=
          (List.take_append_drop ..).symm
      _ = _ := by
          rw [List.take_take, Nat.min_eq_left (Nat.le_of_lt less), List.drop_eq_getElem_cons here,
            List.getElem_take]
  rw [next, encodeAll_append, encodeAll_cons, split, List.append_assoc, List.append_assoc] at begin
  have same := List.append_cancel_left begin
  have parsed := parse_encode (fits records[k] (List.getElem_mem inside))
    (encodeAll ((records.take n).drop (k + 1)) ++ more)
  rw [← same] at parsed
  cases stop with
  | none => exact nomatch parsed.symm.trans stops
  | some why => exact nomatch parsed.symm.trans stops

/-! ## What a loss of power leaves of a file -/

section Lose

variable {file : SegFile} {sector : Nat} {kept : Nat → Bool} {length : Nat}

theorem getElem?_lose (i : Nat) :
    (file.lose sector kept length).bytes[i]? =
      if i < length then
        some (if kept (i / sector) then file.bytes.getD i 0 else file.synced.getD i 0)
      else none := by
  rw [SegFile.lose, List.getElem?_map]
  split
  · next h => rw [List.getElem?_range h, Option.map_some]
  · next h => rw [List.getElem?_eq_none (by rw [List.length_range]; omega), Option.map_none]

theorem seq_lose : (file.lose sector kept length).seq = file.seq := rfl

/-- What is the same in both contents is kept. -/
theorem lose_keeps {data a b : Bytes} (bytes : file.bytes = data ++ a)
    (synced : file.synced = data ++ b) (long : file.synced.length ≤ length) :
    ∃ tail, (file.lose sector kept length).bytes = data ++ tail := by
  have front : (file.lose sector kept length).bytes.take data.length = data := by
    apply List.ext_getElem?
    intro i
    rw [List.getElem?_take]
    split
    · next inside =>
      have within : i < length := by
        rw [synced, List.length_append] at long
        omega
      rw [getElem?_lose, if_pos within, bytes, synced, List.getD_append _ _ _ _ inside,
        List.getD_append _ _ _ _ inside, ite_self, List.getD_eq_getElem _ _ inside,
        List.getElem?_eq_getElem inside]
    · next outside => rw [List.getElem?_eq_none (Nat.not_lt.mp outside)]
  have whole := List.take_append_drop data.length (file.lose sector kept length).bytes
  rw [front] at whole
  exact ⟨_, whole.symm⟩

/-- Where both contents are zeros, zeros are left. -/
theorem lose_zeros {m : Nat} (bytes : ∀ i, m ≤ i → file.bytes.getD i 0 = 0)
    (synced : ∀ i, m ≤ i → file.synced.getD i 0 = 0) :
    ∃ zeros, (file.lose sector kept length).bytes.drop m = List.replicate zeros 0 := by
  refine ⟨_, List.eq_replicate_of_mem fun b mem => ?_⟩
  obtain ⟨i, inside, rfl⟩ := List.mem_drop_iff_getElem.mp mem
  have value := @getElem?_lose file sector kept length (m + i)
  rw [List.getElem?_eq_getElem (Nat.add_comm i m ▸ inside)] at value
  split at value
  · rw [Option.some.inj value, bytes _ (Nat.le_add_right m i), synced _ (Nat.le_add_right m i),
      ite_self]
  · cases value

/-- A synced file is kept. -/
theorem lose_synced (same : file.synced = file.bytes) (long : file.synced.length ≤ length)
    (short : length ≤ file.bytes.length) : file.lose sector kept length = file := by
  have bytes : (file.lose sector kept length).bytes = file.bytes := by
    apply List.ext_getElem?
    intro i
    rw [getElem?_lose, same, ite_self]
    rw [same] at long
    split
    · next inside =>
      have inside : i < file.bytes.length := Nat.lt_of_lt_of_le inside short
      rw [List.getD_eq_getElem _ _ inside, List.getElem?_eq_getElem inside]
    · next outside => rw [List.getElem?_eq_none (Nat.le_trans long (Nat.not_lt.mp outside))]
  have synced : (file.lose sector kept length).synced = file.synced := bytes.trans same.symm
  obtain ⟨seq, _, _⟩ := file
  exact SegFile.mk.injEq .. ▸ ⟨rfl, bytes, synced⟩

/-- With the first sector lost, zeros are in its place. -/
theorem lose_first {front rest : Bytes} {zeros : Nat} (bytes : file.bytes = front ++ rest)
    (synced : file.synced = List.replicate zeros 0) (full : front.length = sector)
    (some : 0 < sector) :
    (file.lose sector (fun i => i != 0) file.bytes.length).bytes =
      List.replicate sector 0 ++ rest := by
  apply List.ext_getElem?
  intro i
  rw [getElem?_lose, bytes, synced]
  have blank : (List.replicate zeros (0 : UInt8)).getD i 0 = 0 := by
    rw [List.getD_eq_getElem?_getD, List.getElem?_replicate]
    split <;> rfl
  by_cases first : i < sector
  · have sector0 : i / sector = 0 := Nat.div_eq_of_lt first
    have inside : i < (front ++ rest).length := by
      rw [List.length_append]
      omega
    rw [if_pos inside, sector0, blank, List.getElem?_append_left (by rwa [List.length_replicate]),
      List.getElem?_replicate, if_pos first]
    rfl
  · have later : i / sector ≠ 0 := by
      have := Nat.div_pos (Nat.not_lt.mp first) some
      omega
    have kept : (i / sector != 0) = true := bne_iff_ne.mpr later
    rw [kept, if_pos rfl, List.getElem?_append_right (by rw [List.length_replicate]; omega),
      List.length_replicate, ← full, ← List.getElem?_append_right (by omega)]
    split
    · next inside => rw [List.getD_eq_getElem _ _ inside, List.getElem?_eq_getElem inside]
    · next outside => rw [List.getElem?_eq_none (Nat.not_lt.mp outside)]

end Lose

theorem getD_zeros {data : Bytes} {zeros i : Nat} (past : data.length ≤ i) :
    (data ++ List.replicate zeros 0).getD i 0 = 0 := by
  rw [List.getD_append_right _ _ _ _ past, List.getD_eq_getElem?_getD, List.getElem?_replicate]
  split <;> rfl

/-- Only the last file can change. -/
theorem PowerLoss.closed {sector : Nat} {segments : List Segment} {last : SegFile}
    {dir : List SegFile} (synced : ∀ segment ∈ segments, segment.file.synced = segment.file.bytes)
    (loss : PowerLoss sector (segments.map Segment.file ++ [last]) dir) :
    ∃ kept length, last.synced.length ≤ length ∧ length ≤ last.bytes.length ∧
      dir = segments.map Segment.file ++ [last.lose sector kept length] := by
  induction segments generalizing dir with
  | nil =>
    obtain ⟨_, _, ⟨kept, length, long, short, rfl⟩, none, rfl⟩ := List.forall₂_cons_left_iff.mp loss
    obtain rfl := List.forall₂_nil_left_iff.mp none
    exact ⟨kept, length, long, short, rfl⟩
  | cons segment segments ih =>
    obtain ⟨_, _, ⟨_, _, long, short, rfl⟩, rest, rfl⟩ := List.forall₂_cons_left_iff.mp loss
    obtain ⟨here, synced⟩ := List.forall_mem_cons.mp synced
    obtain ⟨kept, length, long', short', rfl⟩ := ih synced rest
    refine ⟨kept, length, long', short', ?_⟩
    rw [lose_synced here long short, List.map_cons, List.cons_append]

/-! ## Opening after a loss -/

/-- The last chapter up to a record. -/
def Chapter.upTo (k : Nat) (c : Chapter) : Chapter := ⟨c.seq, c.records.take k⟩

theorem layout_mem (before : List Record) (r : Record) (after : List Record) :
    ((encodeAll before).length, r) ∈ layout 0 (before ++ r :: after) := by
  rw [layout_append, Nat.zero_add]
  exact List.mem_append_right _ (List.mem_cons_self ..)

/-- What is read of the last file after a loss. -/
theorem scan_lose {segment : Segment} {c : Chapter} (holds : segment.Holds c) {n : Nat}
    (short : n ≤ c.records.length)
    (synced : ∃ zeros, segment.file.synced =
      encodeAll (c.records.take n) ++ List.replicate zeros 0)
    {sector length : Nat} {kept : Nat → Bool} (long : segment.file.synced.length ≤ length)
    {written : List Written} (rows : ∀ row ∈ c.rows, ∃ w ∈ written, w.row = row)
    {dir : List SegFile} (here : segment.file.lose sector kept length ∈ dir)
    (crc : CrcDetects written dir) :
    ∃ k tail stop, n ≤ k ∧ k ≤ c.records.length ∧
      (segment.file.lose sector kept length).bytes = encodeAll (c.records.take k) ++ tail ∧
      Stops tail stop ∧ scan (segment.file.lose sector kept length).bytes 0 =
        (layout 0 (c.records.take k), (encodeAll (c.records.take k)).length, stop) := by
  obtain ⟨zeros, bytes⟩ := holds.bytes
  obtain ⟨zeros', synced⟩ := synced
  refine scan_lost holds.fits short ?_ ?_ ?_
  · intro before r after split r' parsed
    obtain ⟨w, mem, row⟩ := rows (locOf c.seq ((encodeAll before).length, r), r)
      (List.mem_map_of_mem (split ▸ layout_mem before r after))
    have loc : w.loc = locOf c.seq ((encodeAll before).length, r) := congrArg Prod.fst row
    have record : w.record = r := congrArg Prod.snd row
    refine (crc w mem _ here ?_ r' ?_).trans record
    · rw [loc]
      exact holds.seq
    · rw [loc]
      exact parsed
  · intro r parsed
    have past : (encodeAll (c.records.take n)).length ≤ (encodeAll c.records).length := by
      conv_rhs => rw [← List.take_append_drop n c.records, encodeAll_append, List.length_append]
      exact Nat.le_add_right ..
    obtain ⟨left, tail⟩ := @lose_zeros segment.file sector kept length (encodeAll c.records).length
      (fun i inside => by rw [bytes, getD_zeros inside])
      (fun i inside => by rw [synced, getD_zeros (past.trans inside)])
    rw [tail, parse_zeros] at parsed
    cases parsed
  · have both : segment.file.bytes = encodeAll (c.records.take n) ++
        (encodeAll (c.records.drop n) ++ List.replicate zeros 0) := by
      rw [bytes, ← List.append_assoc, ← encodeAll_append, List.take_append_drop]
    exact lose_keeps both synced long

theorem layout_take (offset k : Nat) (records : List Record) :
    layout offset (records.take k) = (layout offset records).take k := by
  induction records generalizing offset k with
  | nil => simp [layout]
  | cons r records ih =>
    cases k with
    | zero => rfl
    | succ k => rw [List.take_succ_cons, layout, layout, List.take_succ_cons, ih]

theorem rowsOf_upTo {closed : List Chapter} {final : Chapter} {k : Nat} :
    rowsOf (closed ++ [final.upTo k]) =
      (rowsOf (closed ++ [final])).take ((rowsOf closed).length + k) := by
  rw [rowsOf_concat, rowsOf_concat, List.take_length_add_append]
  simp [Chapter.rows, Chapter.upTo, layout_take, List.map_take]

namespace Wal

variable {wal : Wal} {closed : List Chapter} {final : Chapter} {n sector : Nat}
  {written : List Written} {dir : List SegFile}

theorem dir_eq (wal : Wal) : wal.dir = wal.closed.map Segment.file ++ [wal.last.file] := by
  rw [dir, List.map_append, List.map_singleton]

theorem readAll_closed {segments : List Segment} {chapters : List Chapter}
    (holds : List.Forall₂ Segment.Holds segments chapters) :
    readAll (segments.map Segment.file) = rowsOf chapters := by
  induction holds with
  | nil => rfl
  | @cons segment c segments chapters holds _ ih =>
    rw [List.map_cons, readAll, List.flatMap_cons, ← readAll, ih, SegFile.rows, holds.scan_eq,
      holds.seq]
    rfl

theorem Log.sticky_from (rows : List (Loc × Record)) :
    (Log.run {} rows).sticky.From (rows.map Prod.snd) := by
  refine List.foldlRecOn (motive := fun (log : Log) => log.sticky.From (rows.map Prod.snd)) rows _
    ⟨nofun, nofun, nofun⟩ fun log known row mem => ?_
  rw [Log.sticky_apply]
  exact known.insert (List.mem_map_of_mem mem)

theorem fits_of_holds {segments : List Segment} {chapters : List Chapter}
    (holds : List.Forall₂ Segment.Holds segments chapters) :
    ∀ r ∈ chapters.flatMap Chapter.records, r.Fits := by
  induction holds with
  | nil => nofun
  | cons holds _ ih =>
    rw [List.flatMap_cons]
    exact List.forall_mem_append.mpr ⟨holds.fits, ih⟩

theorem Stores.fits (stores : wal.Stores closed final n) :
    ∀ r ∈ (rowsOf (closed ++ [final])).map Prod.snd, r.Fits := by
  rw [map_snd_rowsOf, List.flatMap_append, List.flatMap_singleton]
  exact List.forall_mem_append.mpr ⟨fits_of_holds stores.segments, stores.last.fits⟩

/-- The writer after an open that read the chapters up to a record. -/
theorem Stores.recovered (stores : wal.Stores closed final n) (segmentBytes k zeros : Nat)
    (within : k ≤ final.records.length) {file : SegFile} (seq : file.seq = final.seq)
    (bytes : file.bytes = encodeAll (final.records.take k) ++ List.replicate zeros 0)
    (synced : file.synced = file.bytes) {maxEntry : Option Nat}
    (max : maxEntry = (final.records.take k).foldl raiseMax none) {offset : Nat}
    (here : offset = (encodeAll (final.records.take k)).length) {sticky : Sticky}
    (log : sticky = (logOf (closed ++ [final.upTo k])).sticky) :
    Stores ⟨segmentBytes, wal.closed, ⟨file, maxEntry⟩, offset, sticky, false⟩ closed
      (final.upTo k) k where
  segments := stores.segments
  last :=
    { seq := seq
      bytes := ⟨zeros, bytes⟩
      maxEntry := max
      fits := fun r mem => stores.last.fits r (List.mem_of_mem_take mem) }
  offset := here
  seqs := by simpa [Chapter.upTo] using stores.seqs
  closedSynced := stores.closedSynced
  synced := by
    refine ⟨by simp [Chapter.upTo, within], zeros, ?_⟩
    rw [synced, bytes, Chapter.upTo, List.take_take, Nat.min_self]
  known := by
    refine ⟨_, log ▸ Log.sticky_from _, fun r mem => stores.fits r ?_⟩
    rw [rowsOf_upTo, List.map_take] at mem
    exact List.mem_of_mem_take mem

/-- Opening after a loss of power reads the chapters up to a record, no sooner than the first one
that is not synced. What is on the disk then are those records, if zeros follow. -/
theorem Stores.openDir_lost (stores : wal.Stores closed final n)
    (rows : ∀ row ∈ rowsOf (closed ++ [final]), ∃ w ∈ written, w.row = row)
    (loss : PowerLoss sector wal.dir dir) (crc : CrcDetects written dir)
    (segmentBytes room : Nat) :
    ∃ k wal' replay, n ≤ k ∧ k ≤ final.records.length ∧
      openDir segmentBytes room dir = .ok (wal', replay) ∧
      readAll dir = rowsOf (closed ++ [final.upTo k]) ∧
      replay.Agrees (logOf (closed ++ [final.upTo k])) ∧
      wal'.sticky = (logOf (closed ++ [final.upTo k])).sticky ∧
      (ZerosBehind dir → wal'.Stores closed (final.upTo k) k) := by
  rw [dir_eq] at loss
  obtain ⟨kept, length, long, short, rfl⟩ := loss.closed stores.closedSynced
  obtain ⟨k, tail, stop, least, within, bytes, stops, scanned⟩ := scan_lose stores.last
    stores.synced.1 stores.synced.2 long
    (fun row mem => rows row (List.mem_flatMap_of_mem (by simp) mem))
    (List.mem_append_right _ (List.mem_singleton.mpr rfl)) crc
  have opened := openDir_closed segmentBytes room stores.segments
    (wal.last.file.lose sector kept length)
  rw [openSegments, scanned] at opened
  have seq : (wal.last.file.lose sector kept length).seq = final.seq := stores.last.seq
  have replayed : (Replay.run {} (rowsOf closed)).applyAll
      (wal.last.file.lose sector kept length).seq (layout 0 (final.records.take k)) =
      Replay.run {} (rowsOf (closed ++ [final.upTo k])) := by
    rw [seq, rowsOf_concat, Replay.run_append]
    exact Replay.applyAll_layout _ (final.upTo k)
  have agrees := agrees_run (rowsOf (closed ++ [final.upTo k]))
  have read : readAll (wal.closed.map Segment.file ++ [wal.last.file.lose sector kept length]) =
      rowsOf (closed ++ [final.upTo k]) := by
    rw [readAll, List.flatMap_append, ← readAll, readAll_closed stores.segments, rowsOf_concat,
      List.flatMap_singleton, SegFile.rows, scanned, seq]
    rfl
  cases stop with
  | none =>
    simp only [replayed] at opened
    refine ⟨k, _, _, least, within, opened, read, agrees, agrees.sticky, fun clean => ?_⟩
    have zeros : tail = List.replicate tail.length 0 := by
      refine List.eq_replicate_of_mem fun b mem => ?_
      refine clean _ (by rw [List.getLast?_concat]; rfl) _ (congrArg Prod.snd scanned) b ?_
      rwa [bytes, List.drop_left]
    exact stores.recovered _ k tail.length within seq (zeros ▸ bytes) rfl
      (by rw [map_snd_layout]) rfl agrees.sticky
  | some why =>
    simp only [replayed] at opened
    refine ⟨k, _, _, least, within, opened, read, ⟨agrees.entries, agrees.sticky⟩, agrees.sticky,
      fun _ => ?_⟩
    have seq : ((wal.last.file.lose sector kept length).cut
        (encodeAll (final.records.take k)).length room).seq = final.seq := seq
    have bytes : ((wal.last.file.lose sector kept length).cut
        (encodeAll (final.records.take k)).length room).bytes =
        encodeAll (final.records.take k) ++ List.replicate room 0 := by
      rw [SegFile.cut, bytes, List.take_left]
    exact stores.recovered _ k room within seq bytes rfl (by rw [map_snd_layout]) rfl agrees.sticky

/-! ## Lives -/

/-- A record that a roll repeated is the sticky record it was. -/
def Copied (written : List Written) : Prop :=
  ∀ before w after, written = before ++ w :: after → w.copy = true →
    w.record ∈ (Log.run {} (before.map Written.row)).sticky.records

theorem Copied.take (copied : Copied written) (k : Nat) : Copied (written.take k) := by
  intro before w after split copy
  refine copied before w (after ++ written.drop k) ?_ copy
  rw [← List.cons_append, ← List.append_assoc, ← split, List.take_append_drop]

theorem Copied.concat (copied : Copied written) {w : Written}
    (sticky : w.copy = true → w.record ∈ (Log.run {} (written.map Written.row)).sticky.records) :
    Copied (written ++ [w]) := by
  intro before x after split copy
  rcases List.eq_nil_or_concat after with rfl | ⟨after, y, rfl⟩
  · obtain ⟨rfl, same⟩ := List.append_inj' split rfl
    cases same
    exact sticky copy
  · rw [List.concat_eq_append, ← List.cons_append, ← List.append_assoc] at split
    exact copied before x after (List.append_inj' split rfl).1 copy

/-- Repeated records say nothing new. -/
theorem Copied.log (copied : Copied written) :
    Log.run {} (written.map Written.row) = Log.run {} (appendedIn written) := by
  induction written using List.reverseRecOn with
  | nil => rfl
  | append_singleton written w ih =>
    have before : Copied written := by
      have front := copied.take written.length
      rwa [List.take_left] at front
    rw [List.map_append, List.map_singleton, Log.run_concat, appendedIn, List.filter_append]
    cases copy : w.copy with
    | true =>
      have sticky := copied written w [] rfl copy
      rw [Log.apply_copy (Log.live_run _) (Log.sticky_from _) sticky, ih before]
      simp [copy, appendedIn]
    | false =>
      rw [ih before]
      simp [copy, appendedIn, Log.run_concat]

theorem map_row_copies (segment offset : Nat) (records : List Record) :
    (copies segment offset records).map Written.row =
      (layout offset records).map fun row => (locOf segment row, row.2) := by
  induction records generalizing offset with
  | nil => rfl
  | cons r records ih =>
    rw [copies, layout, List.map_cons, List.map_cons, ih]
    rfl

theorem log_copies {segment offset : Nat} {records : List Record}
    (sticky : ∀ r ∈ records, r ∈ (Log.run {} (written.map Written.row)).sticky.records) :
    Log.run {} ((written ++ copies segment offset records).map Written.row) =
      Log.run {} (written.map Written.row) := by
  rw [List.map_append, Log.run_append]
  refine Log.run_copies (Log.live_run _) (Log.sticky_from _) fun row mem => sticky _ ?_
  have copy : row.2 ∈ ((copies segment offset records).map Written.row).map Prod.snd :=
    List.mem_map_of_mem mem
  rw [map_row_copies, List.map_map] at copy
  exact map_snd_layout offset records ▸ copy

theorem Copied.copies (copied : Copied written) (segment : Nat) {offset : Nat}
    {records : List Record}
    (sticky : ∀ r ∈ records, r ∈ (Log.run {} (written.map Written.row)).sticky.records) :
    Copied (written ++ copies segment offset records) := by
  induction records generalizing written offset with
  | nil => rwa [Wal.copies, List.append_nil]
  | cons r records ih =>
    obtain ⟨here, rest⟩ := List.forall_mem_cons.mp sticky
    have same := @log_copies written segment offset [r] (List.forall_mem_singleton.mpr here)
    rw [Wal.copies, ← List.singleton_append, ← List.append_assoc]
    exact ih (copied.concat fun _ => here) (by rwa [← same] at rest)

/-- The WAL's chapters are the records in it, as many of them synced as a sync has covered. -/
structure Life.Inv (wal : Wal) (written : List Written) (synced : Nat) (closed : List Chapter)
    (final : Chapter) (n : Nat) : Prop where
  stores : wal.Stores closed final n
  rows : written.map Written.row = rowsOf (closed ++ [final])
  covered : synced ≤ (rowsOf closed).length + n
  sticky : wal.sticky = (Log.run {} (written.map Written.row)).sticky
  copied : Copied written

section Steps

variable {synced : Nat}

theorem Life.Inv.put (inv : Life.Inv wal written synced closed final n) {r : Record}
    (fits : r.Fits) :
    Life.Inv (wal.put r)
      (written ++ [⟨⟨wal.last.file.seq, wal.offset, r.payload.length⟩, r, false⟩]) synced closed
      ⟨final.seq, final.records ++ [r]⟩ n where
  stores := inv.stores.put fits
  rows := by
    rw [List.map_append, inv.rows, rowsOf_put, inv.stores.last.seq, inv.stores.offset]
    rfl
  covered := inv.covered
  sticky := by
    rw [sticky_put, inv.sticky, List.map_append, List.map_singleton, Log.run_concat,
      Log.sticky_apply]
    rfl
  copied := inv.copied.concat nofun

theorem Life.Inv.roll (inv : Life.Inv wal written synced closed final n) (spare : Spare) :
    Life.Inv (wal.roll spare)
      (written ++ copies (wal.last.file.seq + 1) 0 wal.sticky.records) written.length
      (closed ++ [final]) ⟨final.seq + 1, wal.sticky.records⟩ 0 where
  stores := inv.stores.roll spare
  rows := by
    rw [List.map_append, inv.rows, rowsOf_concat (closed ++ [final]), map_row_copies,
      inv.stores.last.seq]
    rfl
  covered := by
    rw [Nat.add_zero, ← inv.rows, List.length_map]
  sticky := by
    rw [log_copies fun r mem => inv.sticky ▸ mem, roll_eq, ← inv.sticky]
  copied := inv.copied.copies _ fun r mem => inv.sticky ▸ mem

theorem Life.Inv.sync (inv : Life.Inv wal written synced closed final n) :
    Life.Inv wal.sync written written.length closed final final.records.length where
  stores := inv.stores.sync
  rows := inv.rows
  covered := by
    have size : final.rows.length = final.records.length := by
      rw [← final.map_snd_rows, List.length_map]
    rw [← List.length_map Written.row, inv.rows, rowsOf_concat, List.length_append, size]
  sticky := inv.sticky
  copied := inv.copied

theorem Life.Inv.reopen (inv : Life.Inv wal written synced closed final n) {segmentBytes room : Nat}
    {wal' : Wal} {replay : Replay}
    (opened : openDir segmentBytes room wal.dir = .ok (wal', replay)) :
    Life.Inv wal' written synced closed final n := by
  have same : (Replay.run {} (rowsOf (closed ++ [final]))).sticky = wal.sticky := by
    rw [inv.sticky, inv.rows]
    exact (agrees_run _).sticky
  rw [inv.stores.openDir_eq, same] at opened
  cases opened
  exact { inv with stores := { inv.stores with } }

theorem mem_written (inv : Life.Inv wal written synced closed final n) :
    ∀ row ∈ rowsOf (closed ++ [final]), ∃ w ∈ written, w.row = row := by
  intro row mem
  rw [← inv.rows] at mem
  exact List.mem_map.mp mem

theorem Life.Inv.powerLoss (inv : Life.Inv wal written synced closed final n)
    (loss : PowerLoss sector wal.dir dir) (crc : CrcDetects written dir) (clean : ZerosBehind dir)
    {segmentBytes room : Nat} {wal' : Wal} {replay : Replay}
    (opened : openDir segmentBytes room dir = .ok (wal', replay)) :
    ∃ k, Life.Inv wal' (written.take (readAll dir).length) (readAll dir).length closed
      (final.upTo k) k := by
  obtain ⟨k, _, _, least, within, done, read, -, sticky, stores⟩ :=
    inv.stores.openDir_lost (mem_written inv) loss crc segmentBytes room
  rw [opened] at done
  cases done
  have size : (rowsOf (closed ++ [final.upTo k])).length = (rowsOf closed).length + k := by
    have rows : (final.upTo k).rows.length = k := by
      rw [← List.length_map Prod.snd, Chapter.map_snd_rows, Chapter.upTo, List.length_take,
        Nat.min_eq_left within]
    rw [rowsOf_concat, List.length_append, rows]
  have rows : (written.take (readAll dir).length).map Written.row =
      rowsOf (closed ++ [final.upTo k]) := by
    rw [List.map_take, inv.rows, read, size, rowsOf_upTo]
  exact ⟨k, stores clean, rows, by rw [read, size], by rw [rows]; exact sticky, inv.copied.take _⟩

end Steps

theorem appendedIn_copies (written : List Written) (segment offset : Nat) (records : List Record) :
    appendedIn (written ++ copies segment offset records) = appendedIn written := by
  have none : (copies segment offset records).filter (fun w => !w.copy) = [] := by
    induction records generalizing offset with
    | nil => rfl
    | cons r records ih => exact ih _
  rw [appendedIn, List.filter_append, none, List.append_nil, appendedIn]

theorem Life.appendEach {losses : List SegFile → Prop} {synced : Nat} {spares : Nat → Spare}
    {records : List Record} {wal' : Wal} {locs : List Loc}
    (life : Life sector losses wal written synced)
    (done : Wal.appendEach spares wal records = some (wal', locs)) :
    ∃ written' synced', Life sector losses wal' written' synced' ∧
      appendedIn written' = appendedIn written ++ locs.zip records := by
  induction records generalizing wal written synced locs with
  | nil =>
    cases done
    exact ⟨written, synced, life, by rw [List.zip_nil_left, List.append_nil]⟩
  | cons r records ih =>
    rw [Wal.appendEach] at done
    split at done
    · cases done
    next fits =>
    obtain ⟨⟨_, rest⟩, done', same⟩ := Option.map_eq_some_iff.mp done
    cases same
    obtain ⟨rolled, synced', life, same⟩ : ∃ rolled synced', Life sector losses
        (if wal.offset ≥ wal.segmentBytes ∧ wal.offset > 0 then
          wal.roll (spares (wal.last.file.seq + 1)) else wal) rolled synced' ∧
        appendedIn rolled = appendedIn written := by
      split
      · exact ⟨_, _, life.roll _, appendedIn_copies ..⟩
      · exact ⟨_, _, life, rfl⟩
    obtain ⟨written', synced', life, more⟩ := ih (life.put r (Nat.not_lt.mp fits)) done'
    refine ⟨written', synced', life, ?_⟩
    rw [more, ← same, List.zip_cons_cons, ← List.singleton_append, ← List.append_assoc]
    simp [appendedIn, Written.row]

/-- `append` is records put one by one, with rolls between them. -/
theorem Life.append {losses : List SegFile → Prop} {synced : Nat} {spares : Nat → Spare}
    {ready : Bool} {records : List Record} {wal' : Wal} {locs : List Loc}
    (life : Life sector losses wal written synced)
    (done : Wal.append spares ready wal records = some (wal', locs)) :
    ∃ written' synced', Life sector losses wal' written' synced' ∧
      appendedIn written' = appendedIn written ++ locs.zip records := by
  rw [append_eq] at done
  split at done
  · obtain ⟨written', synced', life, same⟩ := (life.roll _).appendEach done
    exact ⟨written', synced', life, by rw [same, appendedIn_copies]⟩
  · exact life.appendEach done

theorem Life.inv {synced : Nat} (life : Life sector ZerosBehind wal written synced) :
    ∃ closed final n, Life.Inv wal written synced closed final n := by
  induction life with
  | create segmentBytes room opened =>
    cases opened
    exact ⟨[], ⟨0, []⟩, 0, (holds_create segmentBytes room).toStores, rfl, Nat.le_refl 0, rfl,
      fun before _ _ none => by cases before <;> cases none⟩
  | put _ r fits ih =>
    obtain ⟨closed, final, n, inv⟩ := ih
    exact ⟨_, _, _, inv.put fits⟩
  | roll _ spare ih =>
    obtain ⟨closed, final, n, inv⟩ := ih
    exact ⟨_, _, _, inv.roll spare⟩
  | sync _ ih =>
    obtain ⟨closed, final, n, inv⟩ := ih
    exact ⟨_, _, _, inv.sync⟩
  | reopen _ segmentBytes room opened ih =>
    obtain ⟨closed, final, n, inv⟩ := ih
    exact ⟨_, _, _, inv.reopen opened⟩
  | powerLoss _ loss crc clean segmentBytes room opened ih =>
    obtain ⟨closed, final, n, inv⟩ := ih
    obtain ⟨k, inv⟩ := inv.powerLoss loss crc clean opened
    exact ⟨_, _, _, inv⟩

theorem Life.Inv.read {synced : Nat} (inv : Life.Inv wal written synced closed final n)
    (segmentBytes room : Nat) :
    ∃ wal' replay, openDir segmentBytes room wal.dir = .ok (wal', replay) ∧
      readAll wal.dir = written.map Written.row ∧
      replay.Agrees (Log.run {} (appendedIn written)) := by
  refine ⟨_, _, inv.stores.openDir_eq segmentBytes room, ?_, ?_⟩
  · rw [inv.rows]
    exact readAll_closed (List.rel_append inv.stores.segments (.cons inv.stores.last .nil))
  · rw [← inv.copied.log, inv.rows]
    exact agrees_run _

theorem Life.Inv.read_lost {synced : Nat} (inv : Life.Inv wal written synced closed final n)
    (loss : PowerLoss sector wal.dir dir) (crc : CrcDetects written dir) (segmentBytes room : Nat) :
    ∃ wal' replay k, openDir segmentBytes room dir = .ok (wal', replay) ∧
      synced ≤ k ∧ k ≤ written.length ∧ readAll dir = (written.take k).map Written.row ∧
      replay.Agrees (Log.run {} (appendedIn (written.take k))) := by
  obtain ⟨k, wal', replay, least, within, opened, read, agrees, -, -⟩ :=
    inv.stores.openDir_lost (mem_written inv) loss crc segmentBytes room
  have rows : ((written.take ((rowsOf closed).length + k)).map Written.row) =
      rowsOf (closed ++ [final.upTo k]) := by
    rw [List.map_take, inv.rows, rowsOf_upTo]
  refine ⟨wal', replay, (rowsOf closed).length + k, opened, ?_, ?_, read.trans rows.symm, ?_⟩
  · have covered := inv.covered
    omega
  · have size : written.length = (rowsOf closed).length + final.records.length := by
      rw [← List.length_map Written.row, inv.rows, rowsOf_concat, List.length_append,
        ← final.map_snd_rows, List.length_map]
    omega
  · rw [← (inv.copied.take _).log, rows]
    exact agrees

/-- Every open succeeds and reads records of the WAL from the first on: all of them, or after a loss
of power some, with all those synced among them. It gives the log of those appended. -/
theorem openDir_reads_first {synced : Nat} (life : Life sector ZerosBehind wal written synced)
    (segmentBytes room : Nat) :
    (∃ wal' replay, openDir segmentBytes room wal.dir = .ok (wal', replay) ∧
      readAll wal.dir = written.map Written.row ∧
      replay.Agrees (Log.run {} (appendedIn written))) ∧
    ∀ dir, PowerLoss sector wal.dir dir → CrcDetects written dir →
      ∃ wal' replay k, openDir segmentBytes room dir = .ok (wal', replay) ∧
        synced ≤ k ∧ k ≤ written.length ∧ readAll dir = (written.take k).map Written.row ∧
        replay.Agrees (Log.run {} (appendedIn (written.take k))) := by
  obtain ⟨closed, final, n, inv⟩ := life.inv
  exact ⟨inv.read segmentBytes room, fun dir loss crc => inv.read_lost loss crc segmentBytes room⟩

theorem length_writeAt (bytes : Bytes) (offset : Nat) (buf : Bytes) :
    bytes.length ≤ (writeAt bytes offset buf).length := by
  simp only [writeAt, List.length_append, List.length_take, List.length_replicate,
    List.length_drop]
  omega

theorem file_put (wal : Wal) (r : Record) :
    (wal.put r).last.file = wal.last.file.write wal.offset (encodeRecord r) := by
  rw [put, write, encodeRecord_ne_nil]
  rfl

theorem closed_put (wal : Wal) (r : Record) : (wal.put r).closed = wal.closed := by
  rw [put, write, encodeRecord_ne_nil]
  rfl

theorem length_put (wal : Wal) (r : Record) :
    (wal.put r).last.file.synced = wal.last.file.synced ∧
      wal.last.file.bytes.length ≤ (wal.put r).last.file.bytes.length := by
  rw [file_put]
  exact ⟨rfl, length_writeAt ..⟩

/-! ## A header lost, and the record behind it kept

Two records are put, the first a whole sector, and not synced. The power loss keeps the second one's
sector only. Reading stops at once, at a header of zeros, and nothing is cut: a record of the same
length put in the first one's place makes the second one readable again. -/

/-- An entry of one sector. -/
def wide (index : Fin (256 ^ 8)) (b : UInt8) : Record :=
  { bare .entry index with payload := List.replicate 495 b }

theorem wide_fits (index : Fin (256 ^ 8)) (b : UInt8) : (wide index b).Fits := by
  rw [Record.Fits, wide, List.length_replicate]
  decide

theorem length_encode_wide (index : Fin (256 ^ 8)) (b : UInt8) :
    (encodeRecord (wide index b)).length = 512 := by
  rw [length_encodeRecord, wide, List.length_replicate, HEADER_LEN]

/-- The first segment, preallocated. -/
def allocated : Wal := ⟨4096, [], ⟨.zeros 0 4096, none⟩, 0, {}, true⟩

def twoPut : Wal := (allocated.put (wide 1 0)).put (bare .entry 2)

def twoWritten : List Written :=
  [⟨⟨0, 0, 495⟩, wide 1 0, false⟩, ⟨⟨0, 512, 0⟩, bare .entry 2, false⟩]

theorem life_twoPut (losses : List SegFile → Prop) : Life 512 losses twoPut twoWritten 0 := by
  have life : Life 512 losses allocated [] 0 := .create 4096 4096 rfl
  have second : (allocated.put (wide 1 0)).offset = 512 := by
    rw [put, offset_write, length_encode_wide]
    rfl
  have seq : (allocated.put (wide 1 0)).last.file.seq = 0 := by
    rw [put, seq_write]
    rfl
  have life := (life.put (wide 1 0) (wide_fits 1 0)).put (bare .entry 2) (bare_fits .entry 2)
  rw [second, seq] at life
  have length : (wide 1 0).payload.length = 495 := List.length_replicate ..
  rw [length] at life
  exact life

theorem stores_twoPut : twoPut.Stores [] ⟨0, [wide 1 0, bare .entry 2]⟩ 0 :=
  ((holds_create 4096 4096).put (wide_fits 1 0)).put (bare_fits .entry 2) |>.toStores

/-- What the loss leaves. -/
def lostFile : SegFile :=
  twoPut.last.file.lose 512 (fun i => i != 0) twoPut.last.file.bytes.length

theorem bytes_lostFile :
    ∃ zeros, lostFile.bytes =
      List.replicate 512 0 ++ (encodeRecord (bare .entry 2) ++ List.replicate zeros 0) := by
  obtain ⟨zeros, bytes⟩ := stores_twoPut.last.bytes
  obtain ⟨-, zeros', synced⟩ := stores_twoPut.synced
  refine ⟨zeros, lose_first ?_ synced (length_encode_wide 1 0) (by decide)⟩
  simpa using bytes

theorem scan_lostFile : scan lostFile.bytes 0 = ([], 0, none) := by
  obtain ⟨zeros, bytes⟩ := bytes_lostFile
  rw [bytes]
  exact scan_of_done (parse_zeros_append (by decide) _) 0

/-- A record of the same length in the lost one's place. -/
def revived : Wal := (⟨4096, [], ⟨lostFile, none⟩, 0, {}, false⟩ : Wal).put (wide 1 1)

theorem seq_lostFile : lostFile.seq = 0 := by
  rw [lostFile, seq_lose]
  exact stores_twoPut.last.seq

theorem loss_twoPut : PowerLoss 512 twoPut.dir [lostFile] := by
  refine .cons ⟨_, _, ?_, Nat.le_refl _, rfl⟩ .nil
  have first := length_put allocated (wide 1 0)
  have second := length_put (allocated.put (wide 1 0)) (bare .entry 2)
  rw [twoPut, second.1, first.1]
  exact first.2.trans second.2

theorem crc_lostFile : CrcDetects twoWritten [lostFile] := by
  obtain ⟨zeros, bytes⟩ := bytes_lostFile
  intro w mem file here seq r parsed
  obtain rfl := List.mem_singleton.mp here
  rcases List.mem_pair.mp mem with rfl | rfl
  · rw [List.drop_zero, bytes, parse_zeros_append (by decide)] at parsed
    cases parsed
  · rw [bytes, List.drop_left' (List.length_replicate ..), parse_encode (bare_fits .entry 2)]
      at parsed
    cases parsed
    rfl

theorem life_revived :
    Life 512 (fun _ => True) revived [⟨⟨0, 0, 495⟩, wide 1 1, false⟩] 0 := by
  have opened : openDir 4096 4096 [lostFile] =
      .ok (⟨4096, [], ⟨lostFile, none⟩, 0, {}, false⟩, {}) := by
    rw [openDir, openSegments, scan_lostFile]
    rfl
  have none : readAll [lostFile] = [] := by
    rw [readAll, List.flatMap_singleton, SegFile.rows, scan_lostFile]
    rfl
  have life := (life_twoPut fun _ => True).powerLoss loss_twoPut crc_lostFile trivial 4096 4096
    opened
  rw [none] at life
  have life := life.put (wide 1 1) (wide_fits 1 1)
  have length : (wide 1 1).payload.length = 495 := List.length_replicate ..
  rw [seq_lostFile, length] at life
  exact life

theorem scan_revived :
    scan revived.last.file.bytes 0 = ([(0, wide 1 1), (512, bare .entry 2)], 529, none) := by
  obtain ⟨zeros, lost⟩ := bytes_lostFile
  have bytes : revived.last.file.bytes =
      encodeAll [wide 1 1, bare .entry 2] ++ List.replicate zeros 0 := by
    rw [revived, file_put, SegFile.write, writeAt]
    dsimp only
    rw [lost, length_encode_wide, Nat.zero_add, List.drop_left' (List.length_replicate ..),
      List.take_zero, Nat.zero_sub, List.replicate_zero, List.nil_append, List.nil_append,
      encodeAll_cons, encodeAll_cons, encodeAll_nil, List.append_nil, List.append_assoc]
  have fits : ∀ r ∈ [wide 1 1, bare .entry 2], r.Fits := by
    simp [wide_fits, bare_fits]
  rw [bytes, scan_encode fits, layout, layout, layout, encodeAll_cons, List.length_append,
    length_encode_wide]
  rfl

/-- The open after the loss reads none of the two, neither being synced. -/
theorem openDir_reads_first_lostFile :
    Life 512 ZerosBehind twoPut twoWritten 0 ∧ PowerLoss 512 twoPut.dir [lostFile] ∧
      ∃ wal' replay k, openDir 4096 4096 [lostFile] = .ok (wal', replay) ∧
        0 ≤ k ∧ k ≤ twoWritten.length ∧
        readAll [lostFile] = (twoWritten.take k).map Written.row ∧
        replay.Agrees (Log.run {} (appendedIn (twoWritten.take k))) :=
  ⟨life_twoPut _, loss_twoPut,
    (openDir_reads_first (life_twoPut _) 4096 4096).2 _ loss_twoPut crc_lostFile⟩

/-- A record that an open after a loss of power did not read is read by a later one. -/
theorem lost_header_revives_record :
    Life 512 (fun _ => True) revived [⟨⟨0, 0, 495⟩, wide 1 1, false⟩] 0 ∧
      readAll revived.dir = [(⟨0, 0, 495⟩, wide 1 1), (⟨0, 512, 0⟩, bare .entry 2)] ∧
      ∃ wal' replay, openDir 4096 4096 revived.dir = .ok (wal', replay) ∧
        replay.entries[2]? = some ⟨0, 512, 0⟩ := by
  have seq : revived.last.file.seq = 0 := by
    rw [revived, put, seq_write]
    exact seq_lostFile
  have files : revived.dir = [revived.last.file] := by
    rw [dir_eq, revived, closed_put]
    rfl
  have length : (wide 1 1).payload.length = 495 := List.length_replicate ..
  refine ⟨life_revived, ?_, ?_⟩
  · rw [files, readAll, List.flatMap_singleton, SegFile.rows, scan_revived, seq]
    simp [locOf, length, bare]
  · rw [files, openDir, openSegments, scan_revived, seq]
    refine ⟨_, _, rfl, ?_⟩
    show (Replay.applyAll 0 {} [(0, wide 1 1), (512, bare .entry 2)]).entries[2]? = _
    decide +kernel

end Wal

end Fastetcd.Storage
