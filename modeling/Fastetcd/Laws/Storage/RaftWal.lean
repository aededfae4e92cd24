import Fastetcd.Laws.Storage.RaftWalFormat

/-!
# What the WAL's segments hold

A segment holds a chapter: its number and its records. The writer's directory holds its chapters
(`Wal.Holds`); writing a record, rolling and dropping change the chapters only, and opening the
directory replays their records in order (`openDir_eq`).

The chapters have more records than were appended, the sticky values at the head of each, and fewer,
those of dropped segments. Neither changes what the log is: copies of the current values say nothing
new, and a segment is dropped only if the purge already covers its entries. So replaying the chapters
is running the appended records (`Chapters.Means`).
-/

namespace Fastetcd.Storage

open Mvcc (Bytes)

/-! ## Writing a file -/

theorem length_hole (bytes : Bytes) (offset : Nat) :
    (bytes.take offset ++ List.replicate (offset - bytes.length) (0 : UInt8)).length = offset := by
  rw [List.length_append, List.length_take, List.length_replicate]
  omega

/-- Two writes, one after the other, are one. -/
theorem writeAt_writeAt (bytes a b : Bytes) (offset : Nat) :
    writeAt (writeAt bytes offset a) (offset + a.length) b = writeAt bytes offset (a ++ b) := by
  have first : (writeAt bytes offset a).take (offset + a.length) =
      bytes.take offset ++ (List.replicate (offset - bytes.length) 0 ++ a) := by
    rw [writeAt, ← List.append_assoc, ← List.append_assoc, ← List.append_assoc]
    exact List.take_left' (by rw [List.length_append, length_hole])
  have rest : (writeAt bytes offset a).drop (offset + a.length + b.length) =
      bytes.drop (offset + a.length + b.length) := by
    rw [← List.drop_drop, writeAt, ← List.append_assoc, ← List.append_assoc,
      List.drop_left' (by rw [List.length_append, length_hole]), List.drop_drop]
  have full : offset + a.length - (writeAt bytes offset a).length = 0 := by
    rw [writeAt, ← List.append_assoc, List.length_append, length_hole, List.length_append]
    omega
  rw [writeAt, first, rest, full, writeAt, List.length_append, ← Nat.add_assoc]
  simp

/-- A write after the data, over zeros. -/
theorem writeAt_end (data buf : Bytes) (zeros : Nat) :
    writeAt (data ++ List.replicate zeros 0) data.length buf =
      data ++ buf ++ List.replicate (zeros - buf.length) 0 := by
  have none : data.length - (data ++ List.replicate zeros (0 : UInt8)).length = 0 := by
    rw [List.length_append]
    omega
  rw [writeAt, List.take_left, none, ← List.drop_drop, List.drop_left, List.drop_replicate]
  simp

/-! ## Chapters -/

/-- A segment's number and its records, in order. -/
structure Chapter where
  seq : Nat
  records : List Record

/-- Each record with its location. -/
def Chapter.rows (c : Chapter) : List (Loc × Record) :=
  (layout 0 c.records).map fun row => (locOf c.seq row, row.2)

theorem Chapter.rows_append (seq : Nat) (a b : List Record) :
    (Chapter.mk seq (a ++ b)).rows =
      (Chapter.mk seq a).rows ++
        (layout (encodeAll a).length b).map fun row => (locOf seq row, row.2) := by
  simp [rows, layout_append]

def rowsOf (chapters : List Chapter) : List (Loc × Record) := chapters.flatMap Chapter.rows

theorem Replay.run_append (replay : Replay) (a b : List (Loc × Record)) :
    replay.run (a ++ b) = (replay.run a).run b :=
  List.foldl_append

theorem Replay.applyAll_layout (replay : Replay) (c : Chapter) :
    replay.applyAll c.seq (layout 0 c.records) = replay.run c.rows := by
  rw [applyAll, run, Chapter.rows, List.foldl_map]

/-- The file has the chapter's records, and zeros after them. -/
structure Segment.Holds (segment : Segment) (c : Chapter) : Prop where
  seq : segment.file.seq = c.seq
  bytes : ∃ zeros, segment.file.bytes = encodeAll c.records ++ List.replicate zeros 0
  maxEntry : segment.maxEntry = c.records.foldl raiseMax none
  fits : ∀ r ∈ c.records, r.Fits

/-- The sticky values after a chapter, which begins with those before it. -/
def Chapter.sticky (c : Chapter) : Sticky := c.records.foldl Sticky.insert {}

/-- Each chapter begins with the sticky values after the one before. -/
def Linked (chapters : List Chapter) : Prop :=
  chapters.IsChain fun c d => c.sticky.records <+: d.records

/-! ## Sticky values -/

theorem Replay.sticky_apply (replay : Replay) (loc : Loc) (r : Record) :
    (replay.apply loc r).sticky = replay.sticky.insert r := by
  rw [apply, Sticky.insert]
  cases r.kind <;> rfl

theorem Replay.sticky_run (replay : Replay) (rows : List (Loc × Record)) :
    (replay.run rows).sticky = (rows.map Prod.snd).foldl Sticky.insert replay.sticky := by
  induction rows generalizing replay with
  | nil => rfl
  | cons row rows ih =>
    rw [run, List.foldl_cons, ← run, ih, sticky_apply, List.map_cons, List.foldl_cons]

@[simp]
theorem Chapter.map_snd_rows (c : Chapter) : c.rows.map Prod.snd = c.records := by
  rw [rows, List.map_map]
  exact map_snd_layout 0 c.records

/-- Each value is of its own kind, and one of `records`. -/
structure Sticky.From (records : List Record) (s : Sticky) : Prop where
  purge : ∀ r, s.purge = some r → r.kind = .purge ∧ r ∈ records
  vote : ∀ r, s.vote = some r → r.kind = .vote ∧ r ∈ records
  committed : ∀ r, s.committed = some r → r.kind = .committed ∧ r ∈ records

theorem Sticky.From.insert {records : List Record} {s : Sticky} (known : s.From records) {r : Record}
    (mem : r ∈ records) : (s.insert r).From records := by
  rw [Sticky.insert]
  cases kind : r.kind with
  | entry => exact known
  | truncate => exact known
  | purge => exact { known with purge := by rintro _ ⟨⟩; exact ⟨kind, mem⟩ }
  | vote => exact { known with vote := by rintro _ ⟨⟩; exact ⟨kind, mem⟩ }
  | committed => exact { known with committed := by rintro _ ⟨⟩; exact ⟨kind, mem⟩ }

theorem Sticky.From.mono {a b : List Record} {s : Sticky} (known : s.From a) (sub : a ⊆ b) :
    s.From b where
  purge r held := (known.purge r held).imp_right (sub ·)
  vote r held := (known.vote r held).imp_right (sub ·)
  committed r held := (known.committed r held).imp_right (sub ·)

theorem Chapter.sticky_from (c : Chapter) : c.sticky.From c.records :=
  List.foldlRecOn c.records _ ⟨nofun, nofun, nofun⟩ fun _ known _ mem => known.insert mem

theorem Sticky.From.mem {records : List Record} {s : Sticky} (known : s.From records) {r : Record}
    (mem : r ∈ s.records) : r ∈ records := by
  simp only [Sticky.records, List.mem_append, Option.mem_toList] at mem
  rcases mem with mem | mem | mem
  · exact (known.purge r mem).2
  · exact (known.vote r mem).2
  · exact (known.committed r mem).2

/-- The values written over others. -/
theorem Sticky.From.foldl_insert {records : List Record} {s : Sticky} (known : s.From records)
    (t : Sticky) :
    s.records.foldl Sticky.insert t =
      ⟨s.purge.or t.purge, s.vote.or t.vote, s.committed.or t.committed⟩ := by
  obtain ⟨purge, vote, committed⟩ := s
  have purges (t : Sticky) : purge.toList.foldl Sticky.insert t =
      { t with purge := purge.or t.purge } := by
    cases purge with
    | none => rfl
    | some r => simp [Sticky.insert, (known.purge r rfl).1]
  have votes (t : Sticky) : vote.toList.foldl Sticky.insert t =
      { t with vote := vote.or t.vote } := by
    cases vote with
    | none => rfl
    | some r => simp [Sticky.insert, (known.vote r rfl).1]
  have commits (t : Sticky) : committed.toList.foldl Sticky.insert t =
      { t with committed := committed.or t.committed } := by
    cases committed with
    | none => rfl
    | some r => simp [Sticky.insert, (known.committed r rfl).1]
  rw [Sticky.records, List.foldl_append, List.foldl_append, purges, votes, commits]

/-- Written again over nothing, or over themselves, the values are the same. -/
theorem Sticky.From.foldl_again {records : List Record} {s : Sticky} (known : s.From records) :
    s.records.foldl Sticky.insert {} = s ∧ s.records.foldl Sticky.insert s = s := by
  rw [known.foldl_insert, known.foldl_insert]
  simp

/-- A chapter linked to the one before ends with the same values with or without it. -/
theorem Chapter.foldl_linked {c d : Chapter} (linked : c.sticky.records <+: d.records) :
    d.records.foldl Sticky.insert c.sticky = d.sticky := by
  obtain ⟨more, records⟩ := linked
  obtain ⟨fresh, again⟩ := c.sticky_from.foldl_again
  show _ = d.records.foldl Sticky.insert {}
  rw [← records, List.foldl_append, List.foldl_append, fresh, again]

theorem map_snd_rowsOf (chapters : List Chapter) :
    (rowsOf chapters).map Prod.snd = chapters.flatMap Chapter.records := by
  rw [rowsOf, List.map_flatMap]
  exact List.flatMap_congr fun c _ => c.map_snd_rows

/-- The sticky values after linked chapters are those after the last of them. -/
theorem sticky_run_linked {closed : List Chapter} {final : Chapter}
    (linked : Linked (closed ++ [final])) :
    (Replay.run {} (rowsOf (closed ++ [final]))).sticky = final.sticky := by
  rw [Replay.sticky_run, map_snd_rowsOf]
  cases closed with
  | nil => simp [Chapter.sticky]
  | cons c closed =>
    rw [List.cons_append, List.flatMap_cons, List.foldl_append]
    show ((closed ++ [final]).flatMap Chapter.records).foldl Sticky.insert c.sticky = final.sticky
    induction closed generalizing c with
    | nil =>
      rw [List.nil_append, List.flatMap_singleton]
      exact Chapter.foldl_linked (List.isChain_cons_cons.mp linked).1
    | cons d closed ih =>
      obtain ⟨link, linked⟩ := List.isChain_cons_cons.mp linked
      rw [List.cons_append, List.flatMap_cons, List.foldl_append, Chapter.foldl_linked link]
      exact ih d linked

/-- Sticky records are no entries. -/
theorem Sticky.From.no_entry {records : List Record} {s : Sticky} (known : s.From records) :
    s.records.foldl raiseMax none = none := by
  refine List.foldlRecOn (motive := (· = none)) _ _ rfl fun m none r mem => ?_
  simp only [Sticky.records, List.mem_append, Option.mem_toList] at mem
  have other : r.kind ≠ .entry := by
    rcases mem with mem | mem | mem
    · simp [(known.purge r mem).1]
    · simp [(known.vote r mem).1]
    · simp [(known.committed r mem).1]
  rw [raiseMax, if_neg other, none]

/-! ## Directories -/

/-- The directory has the chapters' records, and the writer is after the last of them. The first
`n` of the last chapter's are synced. The sticky values are records a roll can repeat. -/
structure Wal.Stores (wal : Wal) (closed : List Chapter) (final : Chapter) (n : Nat) : Prop where
  segments : List.Forall₂ Segment.Holds wal.closed closed
  last : wal.last.Holds final
  offset : wal.offset = (encodeAll final.records).length
  seqs : ((closed ++ [final]).map Chapter.seq).Pairwise (· < ·)
  closedSynced : ∀ segment ∈ wal.closed, segment.file.synced = segment.file.bytes
  synced : n ≤ final.records.length ∧
    ∃ zeros, wal.last.file.synced = encodeAll (final.records.take n) ++ List.replicate zeros 0
  known : ∃ records, wal.sticky.From records ∧ ∀ r ∈ records, r.Fits

/-- No chapter was cut: each one begins with the sticky values after the one before. -/
structure Wal.Holds (wal : Wal) (closed : List Chapter) (final : Chapter) (n : Nat) : Prop
    extends wal.Stores closed final n where
  sticky : wal.sticky = final.sticky
  linked : Linked (closed ++ [final])

/-! ## Opening -/

theorem Segment.Holds.scan_eq {segment : Segment} {c : Chapter} (holds : segment.Holds c) :
    scan segment.file.bytes 0 = (layout 0 c.records, (encodeAll c.records).length, none) := by
  obtain ⟨zeros, bytes⟩ := holds.bytes
  rw [bytes, scan_encode holds.fits, Nat.zero_add]

theorem Segment.Holds.same {segment : Segment} {c : Chapter} (holds : segment.Holds c) :
    (⟨segment.file, (layout 0 c.records).map Prod.snd |>.foldl raiseMax none⟩ : Segment) =
      segment := by
  rw [map_snd_layout, ← holds.maxEntry]

/-- The segments before the last one are replayed first. -/
theorem openSegments_closed {segmentBytes room : Nat} {segments : List Segment}
    {closed : List Chapter} (holds : List.Forall₂ Segment.Holds segments closed)
    {before : List Segment} {replay : Replay} {first last : SegFile} {files : List SegFile}
    (all : first :: files = segments.map Segment.file ++ [last]) :
    Wal.openSegments segmentBytes room before first files replay =
      Wal.openSegments segmentBytes room (before ++ segments) last []
        (replay.run (rowsOf closed)) := by
  induction holds generalizing before replay first files with
  | nil =>
    obtain ⟨rfl, rfl⟩ : first = last ∧ files = [] := by simpa using all
    rw [List.append_nil]
    rfl
  | @cons segment c segments closed holds _ ih =>
    obtain ⟨rfl, rest⟩ : first = segment.file ∧ files = segments.map Segment.file ++ [last] := by
      simpa using all
    obtain ⟨next, more, rfl⟩ : ∃ next more, files = next :: more := by
      cases files with
      | nil => simp at rest
      | cons next more => exact ⟨next, more, rfl⟩
    have seq := holds.seq
    have same := holds.same
    have first : Wal.openSegments segmentBytes room before segment.file (next :: more) replay =
        Wal.openSegments segmentBytes room (before ++ [segment]) next more (replay.run c.rows) := by
      rw [Wal.openSegments, holds.scan_eq]
      simp only [same, seq, Replay.applyAll_layout]
    rw [first, ih rest, List.append_assoc, List.singleton_append, rowsOf, rowsOf, List.flatMap_cons,
      Replay.run_append]

theorem openDir_closed (segmentBytes room : Nat) {segments : List Segment}
    {closed : List Chapter} (holds : List.Forall₂ Segment.Holds segments closed) (last : SegFile) :
    Wal.openDir segmentBytes room (segments.map Segment.file ++ [last]) =
      Wal.openSegments (max segmentBytes 4096) room segments last []
        (Replay.run {} (rowsOf closed)) := by
  obtain ⟨file, files, all⟩ : ∃ file files, segments.map Segment.file ++ [last] = file :: files :=
    List.exists_cons_of_ne_nil (by simp)
  rw [all, Wal.openDir, openSegments_closed holds all.symm, List.nil_append]

/-- Opening a directory replays its chapters, and the writer is where it was. -/
theorem Wal.Stores.openDir_eq {wal : Wal} {closed : List Chapter} {final : Chapter} {n : Nat}
    (stores : wal.Stores closed final n) (segmentBytes room : Nat) :
    Wal.openDir segmentBytes room wal.dir =
      .ok ({ wal with
          segmentBytes := max segmentBytes 4096
          sticky := (Replay.run {} (rowsOf (closed ++ [final]))).sticky
          preallocatedOnly := false },
        Replay.run {} (rowsOf (closed ++ [final]))) := by
  have files : wal.dir = wal.closed.map Segment.file ++ [wal.last.file] := by
    rw [dir, List.map_append, List.map_singleton]
  have seq := stores.last.seq
  have same := stores.last.same
  rw [files, openDir_closed _ _ stores.segments, openSegments, stores.last.scan_eq]
  simp only [same, seq, Replay.applyAll_layout, stores.offset, rowsOf, List.flatMap_append,
    List.flatMap_singleton, Replay.run_append]

theorem Wal.Holds.openDir_eq {wal : Wal} {closed : List Chapter} {final : Chapter} {n : Nat}
    (holds : wal.Holds closed final n) (segmentBytes room : Nat) :
    Wal.openDir segmentBytes room wal.dir =
      .ok ({ wal with segmentBytes := max segmentBytes 4096, preallocatedOnly := false },
        Replay.run {} (rowsOf (closed ++ [final]))) := by
  rw [holds.toStores.openDir_eq, sticky_run_linked holds.linked, ← holds.sticky]

/-! ## Writing -/

/-- Whether every entry of a chapter is at `≤ index`. -/
def Chapter.upto (index : Nat) (c : Chapter) : Bool :=
  (c.records.foldl raiseMax none).all (· ≤ index)

namespace Wal

variable {wal : Wal} {closed : List Chapter} {final : Chapter} {n : Nat}

/-- A write within the file, of nothing too. -/
theorem write_eq (within : wal.offset ≤ wal.last.file.bytes.length) (buf : Bytes) :
    wal.write buf = { wal with
      last := { wal.last with file := wal.last.file.write wal.offset buf }
      offset := wal.offset + buf.length } := by
  rw [write]
  split
  · next none =>
    have same : writeAt wal.last.file.bytes wal.offset [] = wal.last.file.bytes := by
      rw [writeAt, Nat.sub_eq_zero_of_le within]
      simp
    rw [List.isEmpty_iff.mp none, SegFile.write, same]
    rfl
  · rfl

theorem encodeRecord_ne_nil (r : Record) : (encodeRecord r).isEmpty = false := by
  rw [List.isEmpty_eq_false_iff, ← List.length_pos_iff, length_encodeRecord, HEADER_LEN]
  omega

theorem sticky_put (wal : Wal) (r : Record) : (wal.put r).sticky = wal.sticky.insert r := by
  rw [put, write, encodeRecord_ne_nil]
  rfl

theorem Stores.put (holds : wal.Stores closed final n) {r : Record} (fits : r.Fits) :
    (wal.put r).Stores closed ⟨final.seq, final.records ++ [r]⟩ n := by
  obtain ⟨zeros, bytes⟩ := holds.last.bytes
  obtain ⟨short, zeros', synced⟩ := holds.synced
  obtain ⟨records, known, small⟩ := holds.known
  rw [Wal.put, write, encodeRecord_ne_nil]
  exact
    { segments := holds.segments
      last :=
        { seq := holds.last.seq
          bytes := ⟨zeros - (encodeRecord r).length, by
            show writeAt wal.last.file.bytes wal.offset (encodeRecord r) = _
            rw [bytes, holds.offset, writeAt_end]
            simp⟩
          maxEntry := by
            show raiseMax wal.last.maxEntry r = _
            rw [holds.last.maxEntry, List.foldl_concat]
          fits := fun r' mem => by
            rcases List.mem_append.mp mem with mem | mem
            · exact holds.last.fits r' mem
            · exact List.mem_singleton.mp mem ▸ fits }
      offset := by
        show wal.offset + (encodeRecord r).length = _
        rw [holds.offset]
        simp
      seqs := by simpa using holds.seqs
      closedSynced := holds.closedSynced
      synced := ⟨short.trans (by simp), zeros', by
        rw [List.take_append_of_le_length short]
        exact synced⟩
      known := ⟨r :: records, (known.mono (List.subset_cons_self ..)).insert List.mem_cons_self,
        List.forall_mem_cons.mpr ⟨fits, small⟩⟩ }

theorem Holds.put (holds : wal.Holds closed final n) {r : Record} (fits : r.Fits) :
    (wal.put r).Holds closed ⟨final.seq, final.records ++ [r]⟩ n where
  toStores := holds.toStores.put fits
  sticky := by
    rw [sticky_put, holds.sticky, Chapter.sticky, Chapter.sticky, List.foldl_concat]
  linked := by
    obtain ⟨before, -, link⟩ := List.isChain_append.mp holds.linked
    refine List.isChain_append.mpr ⟨before, .singleton _, fun c mem d mem' => ?_⟩
    cases mem'
    exact (link c mem final rfl).trans (List.prefix_append ..)

theorem Stores.sync (holds : wal.Stores closed final n) :
    wal.sync.Stores closed final final.records.length := by
  obtain ⟨zeros, bytes⟩ := holds.last.bytes
  exact { holds with
    last := { holds.last with }
    synced := ⟨Nat.le_refl _, zeros, by
      rw [List.take_length]
      exact bytes⟩ }

theorem Holds.sync (holds : wal.Holds closed final n) :
    wal.sync.Holds closed final final.records.length :=
  { holds with toStores := holds.toStores.sync }

/-- The segment after a roll: the sticky values over zeros. -/
theorem roll_eq (wal : Wal) (spare : Spare) :
    wal.roll spare =
      { segmentBytes := wal.segmentBytes
        closed := wal.closed ++ [wal.sync.last]
        last := ⟨⟨wal.last.file.seq + 1,
          encodeAll wal.sticky.records ++
            List.replicate (spare.size - (encodeAll wal.sticky.records).length) 0,
          List.replicate spare.size 0⟩, none⟩
        offset := (encodeAll wal.sticky.records).length
        sticky := wal.sticky
        preallocatedOnly := !spare.zeroFilled } := by
  have bytes : writeAt (List.replicate spare.size 0) 0 (encodeAll wal.sticky.records) =
      encodeAll wal.sticky.records ++
        List.replicate (spare.size - (encodeAll wal.sticky.records).length) 0 :=
    writeAt_end [] _ spare.size
  rw [roll, write_eq (Nat.zero_le _), ← bytes, ← Nat.zero_add (encodeAll _).length]
  rfl

theorem Stores.roll (holds : wal.Stores closed final n) (spare : Spare) :
    (wal.roll spare).Stores (closed ++ [final]) ⟨final.seq + 1, wal.sticky.records⟩ 0 := by
  obtain ⟨records, known, small⟩ := holds.known
  have later : ((closed ++ [final] ++ [Chapter.mk (final.seq + 1) wal.sticky.records]).map
      Chapter.seq).Pairwise (· < ·) := by
    rw [List.map_append, List.pairwise_append]
    refine ⟨holds.seqs, List.pairwise_singleton .., fun a mem b mem' => ?_⟩
    obtain rfl := List.mem_singleton.mp mem'
    have seqs := holds.seqs
    rw [List.map_append, List.pairwise_append] at seqs
    rw [List.map_append, List.mem_append] at mem
    rcases mem with mem | mem
    · exact Nat.lt_succ_of_lt (seqs.2.2 a mem final.seq (List.mem_singleton.mpr rfl))
    · rw [List.map_singleton, List.mem_singleton] at mem
      exact mem ▸ Nat.lt_succ_self _
  have segments : List.Forall₂ Segment.Holds (wal.closed ++ [wal.sync.last]) (closed ++ [final]) :=
    List.rel_append holds.segments (.cons holds.sync.last .nil)
  have closedSynced : ∀ segment ∈ wal.closed ++ [wal.sync.last],
      segment.file.synced = segment.file.bytes := by
    intro segment mem
    rcases List.mem_append.mp mem with mem | mem
    · exact holds.closedSynced segment mem
    · obtain rfl := List.mem_singleton.mp mem
      rfl
  rw [roll_eq]
  exact
    { segments := segments
      last :=
        { seq := congrArg (· + 1) holds.last.seq
          bytes := ⟨_, rfl⟩
          maxEntry := known.no_entry.symm
          fits := fun r mem => small r (known.mem mem) }
      offset := rfl
      seqs := later
      closedSynced := closedSynced
      synced := ⟨Nat.zero_le _, spare.size, rfl⟩
      known := holds.known }

theorem Holds.roll (holds : wal.Holds closed final n) (spare : Spare) :
    (wal.roll spare).Holds (closed ++ [final]) ⟨final.seq + 1, final.sticky.records⟩ 0 where
  toStores := holds.sticky ▸ holds.toStores.roll spare
  sticky := by
    rw [roll_eq]
    exact holds.sticky.trans final.sticky_from.foldl_again.1.symm
  linked := by
    refine List.isChain_append.mpr ⟨holds.linked, .singleton _, fun c mem d mem' => ?_⟩
    cases mem'
    rw [List.getLast?_concat] at mem
    cases mem
    exact List.prefix_rfl

theorem forall₂_dropWhile {α β : Type} {R : α → β → Prop} {p : α → Bool} {q : β → Bool}
    (same : ∀ a b, R a b → p a = q b) {as : List α} {bs : List β} (all : List.Forall₂ R as bs) :
    List.Forall₂ R (as.dropWhile p) (bs.dropWhile q) := by
  induction all with
  | nil => exact .nil
  | @cons a b as bs related rest ih =>
    have eq := same a b related
    cases h : p a with
    | true =>
      rw [List.dropWhile_cons_of_pos h, List.dropWhile_cons_of_pos (eq ▸ h)]
      exact ih
    | false =>
      rw [List.dropWhile_cons_of_neg (by simp [h]), List.dropWhile_cons_of_neg (by simp [← eq, h])]
      exact .cons related rest

theorem suffix_dropWhile (closed : List Chapter) (final : Chapter) (p : Chapter → Bool) :
    closed.dropWhile p ++ [final] <:+ closed ++ [final] := by
  obtain ⟨gone, split⟩ := List.dropWhile_suffix (l := closed) p
  exact ⟨gone, by rw [← List.append_assoc, split]⟩

theorem Stores.dropSegmentsUpto (stores : wal.Stores closed final n) (index : Nat) :
    (wal.dropSegmentsUpto index).Stores (closed.dropWhile (Chapter.upto index)) final n :=
  { stores with
    segments := forall₂_dropWhile (fun segment c h => by rw [h.maxEntry, Chapter.upto])
      stores.segments
    seqs := stores.seqs.sublist ((suffix_dropWhile closed final _).sublist.map _)
    closedSynced := fun segment mem =>
      stores.closedSynced segment ((List.dropWhile_suffix _).subset mem) }

theorem Holds.dropSegmentsUpto (holds : wal.Holds closed final n) (index : Nat) :
    (wal.dropSegmentsUpto index).Holds (closed.dropWhile (Chapter.upto index)) final n where
  toStores := holds.toStores.dropSegmentsUpto index
  sticky := holds.sticky
  linked := holds.linked.suffix (suffix_dropWhile closed final _)

/-! ## Appending -/

/-- The records one by one, each written at once. -/
def appendEach (spares : Nat → Spare) (wal : Wal) : List Record → Option (Wal × List Loc)
  | [] => some (wal, [])
  | r :: records =>
    if r.payload.length > MAX_PAYLOAD then none
    else
      let wal :=
        if wal.offset ≥ wal.segmentBytes ∧ wal.offset > 0 then
          wal.roll (spares (wal.last.file.seq + 1))
        else wal
      (appendEach spares (wal.put r) records).map fun (wal', locs) =>
        (wal', ⟨wal.last.file.seq, wal.offset, r.payload.length⟩ :: locs)

@[simp]
theorem write_nil (wal : Wal) : wal.write [] = wal := rfl

theorem offset_write (wal : Wal) (buf : Bytes) : (wal.write buf).offset = wal.offset + buf.length := by
  rw [write]
  split
  · next none => rw [List.isEmpty_iff.mp none, List.length_nil, Nat.add_zero]
  · rfl

theorem seq_write (wal : Wal) (buf : Bytes) :
    (wal.write buf).last.file.seq = wal.last.file.seq := by
  rw [write]
  split <;> rfl

theorem segmentBytes_write (wal : Wal) (buf : Bytes) :
    (wal.write buf).segmentBytes = wal.segmentBytes := by
  rw [write]
  split <;> rfl

/-- A record buffered and written is a record written after the buffer. -/
theorem write_append (wal : Wal) (buf : Bytes) (r : Record) :
    (wal.note r).write (buf ++ encodeRecord r) = (wal.write buf).put r := by
  have some := encodeRecord_ne_nil r
  have full : (buf ++ encodeRecord r).isEmpty = false := by
    rw [List.isEmpty_eq_false_iff] at some ⊢
    simp [some]
  rw [put, write, full, write, some]
  cases buf with
  | nil => rfl
  | cons b buf =>
    have bytes := writeAt_writeAt wal.last.file.bytes (b :: buf) (encodeRecord r) wal.offset
    simp [write, note, SegFile.write, Nat.add_assoc] at bytes ⊢
    exact ⟨bytes.symm, by omega⟩

/-- Buffering does not matter: the append is the records written one by one. -/
theorem append_eq (spares : Nat → Spare) (ready : Bool) (wal : Wal) (records : List Record) :
    append spares ready wal records =
      appendEach spares
        (if wal.preallocatedOnly ∧ wal.offset > 0 ∧ ready then
          wal.roll (spares (wal.last.file.seq + 1)) else wal) records := by
  have loop (wal : Wal) (buf : Bytes) :
      (appendLoop spares wal buf records).map (fun out => (out.1.write out.2.1, out.2.2)) =
        appendEach spares (wal.write buf) records := by
    induction records generalizing wal buf with
    | nil => rfl
    | cons r records ih =>
      rw [appendLoop, appendEach, offset_write, segmentBytes_write, seq_write]
      have one (wal : Wal) (buf : Bytes) (loc : Loc) :
          ((appendLoop spares (wal.note r) (buf ++ encodeRecord r) records).map
              fun out => (out.1, out.2.1, loc :: out.2.2)).map
                (fun out => (out.1.write out.2.1, out.2.2)) =
            (appendEach spares ((wal.write buf).put r) records).map
              fun out => (out.1, loc :: out.2) := by
        rw [← write_append, ← ih, Option.map_map, Option.map_map]
        rfl
      split
      · rfl
      · by_cases full : wal.offset + buf.length ≥ wal.segmentBytes ∧ wal.offset + buf.length > 0
        · simp only [full, and_self, if_true]
          exact one _ [] _
        · simp only [full, if_false]
          rw [one wal buf, offset_write, seq_write]
  rw [append, loop, write_nil]

end Wal

end Fastetcd.Storage
