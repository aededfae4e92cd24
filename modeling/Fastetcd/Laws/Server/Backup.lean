import Fastetcd.Laws.Storage.Rewrite
import Fastetcd.Server.Backup

/-!
# What a backup gives back

A writer that takes a part of what it is given gets all of it in the end, and the hash is of what it
took, so a file and the chunks of a snapshot hold the same stream. The reader splits it where it was
put together, and the restored store has the tables the dump was read from. A stream with another
body or another digest fails its checksum. One cut short may pass it, if the bytes before the cut
are the digest of what is before them, but then its tables end too early to be read.
-/

namespace Fastetcd.Server.Backup

open Mvcc (Bytes)
open Storage (Db Row WriteBatch BatchOp)
open Storage.Rewrite (File putRows putTables)
open Bincode

variable {digest : Digest} {pieces : Pieces} {dump : Dump}

/-! ## The format -/

/-- What `read` needs of a dump to read it back. -/
structure Dump.Fits (dump : Dump) : Prop where
  version : (asBytes dump.header.fastetcdVersion).length < lengthEnd
  members : dump.header.members.length < lengthEnd
  tables : dump.tables.length < lengthEnd
  name : ∀ t ∈ dump.tables, (asBytes t.1).length < lengthEnd
  rows : ∀ t ∈ dump.tables, t.2.length < lengthEnd
  cells : ∀ t ∈ dump.tables, ∀ row ∈ t.2, row.1.length < lengthEnd ∧ row.2.length < lengthEnd

theorem Engine.fits (engine : Engine) (build : Build) (nodeId nowMs : UInt64) :
    (Dump.read engine build nodeId nowMs).Fits := by
  have listed : ∀ t ∈ engine.rows, ∃ table ∈ engine.names, t = (table, (engine.db table).toList) := by
    intro t mem
    obtain ⟨table, named, rfl⟩ := List.mem_map.mp mem
    exact ⟨table, named, rfl⟩
  refine ⟨build.version_lt, ?_, ?_, ?_, ?_, ?_⟩
  · show (((find _ _ _).bind build.memberIds).getD []).length < lengthEnd
    cases ids : (find engine.rows "mvcc_meta" (asBytes "raft_membership")).bind build.memberIds with
    | none => exact Nat.pow_pos (by decide)
    | some found =>
      obtain ⟨bytes, -, decoded⟩ := Option.bind_eq_some_iff.mp ids
      exact build.ids_lt bytes found decoded
  · show engine.rows.length < lengthEnd
    rw [File.rows, List.length_map]
    exact engine.names_lt
  · intro t mem
    obtain ⟨table, named, rfl⟩ := listed t mem
    exact engine.name_lt table named
  · intro t mem
    obtain ⟨table, named, rfl⟩ := listed t mem
    exact engine.rows_lt table named
  · intro t mem
    obtain ⟨table, named, rfl⟩ := listed t mem
    exact engine.cells_lt table named

theorem reads_header {h : BackupHeader} (version : (asBytes h.fastetcdVersion).length < lengthEnd)
    (members : h.members.length < lengthEnd) : Reads readHeader (encodeHeader h) h := by
  have last : Reads ((readList readU64).andThen fun members => Reader.value
      { h with revision := h.revision.toUInt64.toInt64, members })
      (encodeList encodeU64 h.members ++ []) h :=
    Reads.andThen (Reads.list members fun n _ => Reads.u64 n) (Reads.value h)
  rw [List.append_nil] at last
  exact Reads.andThen (Reads.string version) (Reads.andThen (Reads.u64 _)
    (Reads.andThen (Reads.u64 _) (Reads.andThen (Reads.option fun n _ => Reads.u64 n)
      (Reads.andThen (Reads.u64 _) last))))

theorem local_header : Local readHeader :=
  Local.andThen Local.readString fun _ => Local.andThen Local.readU64 fun _ =>
    Local.andThen Local.readU64 fun _ => Local.andThen (Local.readOption Local.readU64) fun _ =>
      Local.andThen Local.readU64 fun _ => Local.andThen (Local.readList Local.readU64) fun _ =>
        Local.value _

theorem reads_row {row : Row} (key : row.1.length < lengthEnd) (value : row.2.length < lengthEnd) :
    Reads readRow (encodeRow row) row := by
  have last : Reads (readBytes.andThen fun value => Reader.value (row.1, value))
      (encodeBytes row.2 ++ []) row :=
    Reads.andThen (Reads.bytes value) (Reads.value row)
  rw [List.append_nil] at last
  exact Reads.andThen (Reads.bytes key) last

theorem local_row : Local readRow :=
  Local.andThen Local.readBytes fun _ => Local.andThen Local.readBytes fun _ => Local.value _

theorem reads_table {t : TableDump} (name : (asBytes t.1).length < lengthEnd)
    (rows : t.2.length < lengthEnd)
    (cells : ∀ row ∈ t.2, row.1.length < lengthEnd ∧ row.2.length < lengthEnd) :
    Reads readTable (encodeTable t) t := by
  have last : Reads ((readList readRow).andThen fun rows => Reader.value (t.1, rows))
      (encodeList encodeRow t.2 ++ []) t :=
    Reads.andThen
      (Reads.list rows fun row mem => reads_row (cells row mem).1 (cells row mem).2) (Reads.value t)
  rw [List.append_nil] at last
  exact Reads.andThen (Reads.string name) last

theorem local_table : Local readTable :=
  Local.andThen Local.readString fun _ => Local.andThen (Local.readList local_row) fun _ =>
    Local.value _

theorem reads_tables (fits : dump.Fits) :
    Reads (readList readTable) (encodeList encodeTable dump.tables) dump.tables :=
  Reads.list fits.tables fun t mem => reads_table (fits.name t mem) (fits.rows t mem) (fits.cells t mem)

/-! ## Writing -/

/-- The stream: the body and its digest. -/
def Dump.stream (digest : Digest) (dump : Dump) : Bytes := dump.body ++ digest.sum dump.body

section

variable {W : Type} {write : Writer W} {taken : W → Bytes} {Good : W → Prop}

/-- What is hashed is what the writer took. -/
theorem hashing_lawful (lawful : Writer.Lawful write taken Good) (before : Bytes) :
    Writer.Lawful (hashing write) Prod.snd fun w => Good w.1 ∧ taken w.1 = before ++ w.2 where
  pos w data good := lawful.pos w.1 data good.1
  takes w data good := rfl
  good w data good := by
    refine ⟨lawful.good w.1 data good.1, ?_⟩
    show taken (write w.1 data).2 = before ++ (w.2 ++ data.take (write w.1 data).1)
    rw [lawful.takes w.1 data good.1, good.2, List.append_assoc]

/-- However much the writer takes at a time, it gets the stream. -/
theorem writeTo_stream (lawful : Writer.Lawful write taken Good) {w : W} (good : Good w) :
    ∃ w', dump.writeTo digest pieces write w = some w' ∧ taken w' = taken w ++ dump.stream digest ∧
      Good w' := by
  have hashes := hashing_lawful lawful (taken w)
  have start : Good (w, ([] : Bytes)).1 ∧ taken (w, ([] : Bytes)).1 = taken w ++ (w, ([] : Bytes)).2 :=
    ⟨good, (List.append_nil _).symm⟩
  obtain ⟨w₁, wrote₁, hashed₁, good₁⟩ := hashes.writeAll start magic
  obtain ⟨w₂, wrote₂, hashed₂, good₂⟩ := hashes.writeAll good₁ (leBytes 4 format)
  obtain ⟨w₃, wrote₃, hashed₃, good₃⟩ :=
    hashes.writePieces good₂ (pieces.split (encodeHeader dump.header))
  obtain ⟨w₄, wrote₄, hashed₄, good₄⟩ :=
    hashes.writePieces good₃ (pieces.split (encodeList encodeTable dump.tables))
  have body : w₄.2 = dump.body := by
    rw [hashed₄, hashed₃, hashed₂, hashed₁, pieces.flatten_split, pieces.flatten_split, Dump.body,
      List.nil_append, List.append_assoc, List.append_assoc]
  obtain ⟨w', wrote', all, good'⟩ := lawful.writeAll good₄.1 (digest.sum w₄.2)
  refine ⟨w', ?_, ?_, good'⟩
  · simp only [Dump.writeTo, wrote₁, wrote₂, wrote₃, wrote₄, Option.bind_eq_bind, Option.bind_some]
    exact wrote'
  · rw [all, good₄.2, body, List.append_assoc]
    rfl

end

theorem fileWriter_lawful : Writer.Lawful fileWriter id fun _ => True where
  pos _ data _ some := List.length_pos_iff.mpr some
  takes written data _ := by
    show written ++ data = written ++ data.take data.length
    rw [List.take_length]
  good _ _ _ := trivial

/-! ### Chunks -/

namespace SnapshotChunks

/-- What the chunks sent so far hold, and the buffer. -/
def taken (w : SnapshotChunks) : Bytes := (w.stream.map Chunk.blob).flatten ++ w.buf

/-- Each chunk was sent when the ones before it, and its own bytes, were. -/
structure Sent (total : Nat) (w : SnapshotChunks) : Prop where
  total_eq : w.total = total
  sent : w.sent = (w.stream.map Chunk.blob).flatten.length
  remaining : ∀ i chunk, w.stream[i]? = some chunk →
    chunk.remainingBytes = total - ((w.stream.take (i + 1)).map Chunk.blob).flatten.length

variable {total : Nat} {w : SnapshotChunks}

theorem taken_sendBuf (w : SnapshotChunks) : w.sendBuf.taken = w.taken := by
  rw [sendBuf]
  split
  · rfl
  · simp [taken]

theorem buf_sendBuf (w : SnapshotChunks) : w.sendBuf.buf = [] := by
  rw [sendBuf]
  split
  · rename_i empty
    exact List.isEmpty_iff.mp empty
  · rfl

theorem Sent.sendBuf (sent : Sent total w) : Sent total w.sendBuf := by
  rw [SnapshotChunks.sendBuf]
  split
  · exact sent
  · refine ⟨sent.total_eq, ?_, fun i chunk found => ?_⟩
    · simp [sent.sent]
    · show chunk.remainingBytes =
        total - (((w.stream ++ [_]).take (i + 1)).map Chunk.blob).flatten.length
      rw [List.getElem?_append] at found
      split at found
      · rename_i earlier
        rw [List.take_append_of_le_length earlier]
        exact sent.remaining i chunk found
      · rename_i later
        have last : i = w.stream.length := by
          have short := (List.getElem?_eq_some_iff.mp found).1
          simp only [List.length_singleton] at short
          omega
        subst last
        rw [Nat.sub_self] at found
        cases found
        rw [List.take_of_length_le (by simp), sent.total_eq, sent.sent]
        simp

/-- A chunk is sent as soon as it is full. -/
theorem write_lawful (total : Nat) :
    Writer.Lawful write taken fun w => Sent total w ∧ w.buf.length < chunkSize where
  pos w data good some := by
    have long := List.length_pos_iff.mpr some
    show 0 < min data.length (chunkSize - w.buf.length)
    have room := good.2
    omega
  takes w data good := by
    show taken (if _ then _ else _) = _
    split
    · rw [taken_sendBuf]
      simp [taken, write]
    · simp [taken, write]
  good w data good := by
    have filled : Sent total { w with
        buf := w.buf ++ data.take (min data.length (chunkSize - w.buf.length)) } :=
      ⟨good.1.total_eq, good.1.sent, good.1.remaining⟩
    show Sent total (if _ then _ else _) ∧ (if _ then _ else _ : SnapshotChunks).buf.length < _
    split
    · rw [buf_sendBuf]
      exact ⟨filled.sendBuf, by decide⟩
    · rename_i unfilled
      refine ⟨filled, Nat.lt_of_le_of_ne ?_ unfilled⟩
      rw [List.length_append, List.length_take]
      have room := good.2
      omega

end SnapshotChunks

/-! ### `encoded_len` -/

theorem length_encodeBytes (bytes : Bytes) : (encodeBytes bytes).length = 8 + bytes.length := by
  rw [encodeBytes, List.length_append, length_leBytes]

theorem length_encodeList {α : Type} {encode : α → Bytes} {size : α → Nat} {items : List α}
    (each : ∀ item, (encode item).length = size item) :
    (encodeList encode items).length = 8 + (items.map size).sum := by
  rw [encodeList, List.length_append, length_leBytes, List.length_flatMap]
  simp only [each]

theorem length_header (h : BackupHeader) : (encodeHeader h).length = headerSize h := by
  have members : (encodeList encodeU64 h.members).length = 8 + 8 * h.members.length := by
    rw [length_encodeList length_encodeU64, List.map_const', List.sum_replicate, smul_eq_mul,
      Nat.mul_comm]
  have cluster : (encodeOption encodeU64 h.clusterId).length =
      if h.clusterId.isSome then 9 else 1 := by
    cases h.clusterId with
    | none => rfl
    | some id => exact congrArg (· + 1) (length_encodeU64 id)
  simp only [encodeHeader, headerSize, encodeString, List.length_append, length_encodeBytes,
    length_encodeU64, members, cluster]
  omega

theorem length_row (row : Row) : (encodeRow row).length = rowSize row := by
  rw [encodeRow, List.length_append, length_encodeBytes, length_encodeBytes, rowSize]

theorem length_table (t : TableDump) : (encodeTable t).length = tableSize t := by
  rw [encodeTable, List.length_append, encodeString, length_encodeBytes, length_encodeList length_row,
    tableSize]

theorem length_stream (digest : Digest) (dump : Dump) :
    (dump.stream digest).length = dump.encodedLen := by
  simp only [Dump.stream, Dump.body, Dump.encodedLen, List.length_append, length_leBytes,
    length_header, length_encodeList length_table, digest.length_sum]
  omega

/-- The chunks are the stream, and each says how much of it is still to come. -/
theorem snapshot_chunks : ∃ chunks, snapshot digest pieces dump = some chunks ∧
    (chunks.map Chunk.blob).flatten = dump.stream digest ∧
    ∀ i chunk, chunks[i]? = some chunk →
      chunk.remainingBytes = ((chunks.drop (i + 1)).map Chunk.blob).flatten.length := by
  have start : SnapshotChunks.Sent dump.encodedLen ⟨dump.encodedLen, 0, [], []⟩ :=
    ⟨rfl, rfl, fun i chunk found => nomatch found⟩
  obtain ⟨w, wrote, taken, sent, -⟩ := @writeTo_stream digest pieces dump _ _ _ _
    (SnapshotChunks.write_lawful dump.encodedLen) _ ⟨start, show 0 < 64 * 1024 by decide⟩
  have whole : (w.sendBuf.stream.map Chunk.blob).flatten = dump.stream digest := by
    have all := w.taken_sendBuf
    rw [SnapshotChunks.taken, w.buf_sendBuf, List.append_nil, taken] at all
    exact all
  refine ⟨w.sendBuf.stream, ?_, whole, ?_⟩
  · rw [snapshot, wrote]
    rfl
  · intro i chunk found
    rw [sent.sendBuf.remaining i chunk found, ← length_stream digest, ← whole]
    nth_rewrite 1 [← List.take_append_drop (i + 1) w.sendBuf.stream]
    rw [List.map_append, List.flatten_append, List.length_append]
    omega

/-! ## Reading -/

/-- What `read` reads after the format. -/
def readBody : Reader (BackupHeader × List TableDump) :=
  readHeader.andThen fun header => (readList readTable).andThen fun tables =>
    Reader.value (header, tables)

theorem reads_body (fits : dump.Fits) : Reads readBody
    (encodeHeader dump.header ++ encodeList encodeTable dump.tables) (dump.header, dump.tables) := by
  have last : Reads ((readList readTable).andThen fun tables => Reader.value (dump.header, tables))
      (encodeList encodeTable dump.tables ++ []) (dump.header, dump.tables) :=
    Reads.andThen (reads_tables fits) (Reads.value _)
  rw [List.append_nil] at last
  exact Reads.andThen (reads_header fits.version fits.members) last

theorem local_body : Local readBody :=
  Local.andThen local_header fun _ => Local.andThen (Local.readList local_table) fun _ =>
    Local.value _

/-- A file is its body and its digest. -/
theorem read_append {body sum : Bytes} (size : sum.length = 32) (tables : Bool) :
    read digest (body ++ sum) tables =
      if body.length < 12 then .error .tooShort
      else if digest.sum body ≠ sum then .error .checksum
      else readChecked body tables := by
  have total : (body ++ sum).length - 32 = body.length := by
    rw [List.length_append]
    omega
  have short : (body ++ sum).length < magic.length + 4 + 32 ↔ body.length < 12 := by
    rw [List.length_append, size]
    show body.length + 32 < 44 ↔ _
    omega
  simp only [read, total, List.take_left, List.drop_left, short]

theorem framed (rest : Bytes) :
    (magic ++ (leBytes 4 format ++ rest)).take 8 = magic ∧
      ofLeBytes (((magic ++ (leBytes 4 format ++ rest)).drop 8).take 4) = format ∧
      (magic ++ (leBytes 4 format ++ rest)).drop 12 = rest := ⟨rfl, rfl, rfl⟩

/-- Behind the magic number and the format, `read` takes what `readBody` does. -/
theorem readChecked_whole (rest : Bytes) :
    readChecked (magic ++ (leBytes 4 format ++ rest)) true =
      ((readBody rest).map Prod.fst).elim (.error .decode) .ok := by
  obtain ⟨named, numbered, unframed⟩ := framed rest
  simp only [readChecked, named, numbered, unframed, ne_eq, not_true_eq_false, if_false, if_true]
  rw [readBody, Reader.andThen]
  cases readHeader rest with
  | none => rfl
  | some first =>
    obtain ⟨header, rest⟩ := first
    show _ = Option.elim ((((readList readTable).andThen fun tables =>
      Reader.value (header, tables)) rest).map Prod.fst) _ _
    rw [Reader.andThen]
    cases found : readList readTable rest with
    | none =>
      simp only [found]
      rfl
    | some second =>
      simp only [found]
      rfl

theorem readChecked_header (rest : Bytes) :
    readChecked (magic ++ (leBytes 4 format ++ rest)) false =
      ((readHeader rest).map Prod.fst).elim (.error .decode) fun header => .ok (header, []) := by
  obtain ⟨named, numbered, unframed⟩ := framed rest
  simp only [readChecked, named, numbered, unframed, ne_eq, not_true_eq_false, if_false,
    Bool.false_eq_true]
  cases readHeader rest with
  | none => rfl
  | some first => rfl

theorem read_stream (fits : dump.Fits) :
    read digest (dump.stream digest) true = .ok (dump.header, dump.tables) ∧
      read digest (dump.stream digest) false = .ok (dump.header, []) := by
  have long : ¬ dump.body.length < 12 := by
    rw [Dump.body, List.length_append, List.length_append, length_leBytes]
    show ¬ 8 + (4 + _) < 12
    omega
  constructor
  · rw [Dump.stream, read_append (digest.length_sum _), if_neg long, if_neg (not_not.mpr rfl),
      Dump.body, readChecked_whole, ← List.append_nil (encodeHeader _ ++ _), reads_body fits]
    rfl
  · rw [Dump.stream, read_append (digest.length_sum _), if_neg long, if_neg (not_not.mpr rfl),
      Dump.body, readChecked_header, reads_header fits.version fits.members]
    rfl

/-- `verify` and `restore_to` read the same header. -/
theorem read_sameHeader {file : Bytes} {h h' : BackupHeader} {none some : List TableDump}
    (verified : read digest file false = .ok (h, none)) (whole : read digest file true = .ok (h', some)) :
    h = h' := by
  rw [read] at verified whole
  split at verified
  · exact nomatch verified
  rename_i long
  rw [if_neg long] at whole
  simp only at verified whole
  split at verified
  · exact nomatch verified
  rename_i passed
  rw [if_neg passed] at whole
  rw [readChecked] at verified whole
  split at verified
  · exact nomatch verified
  rename_i named
  rw [if_neg named] at whole
  simp only at verified whole
  split at verified
  · exact nomatch verified
  rename_i known
  rw [if_neg known] at whole
  split at verified
  · exact nomatch verified
  rename_i header rest found
  cases verified
  rw [found] at whole
  simp only [if_true] at whole
  split at whole
  · exact nomatch whole
  · cases whole
    rfl

/-! ## Damaged files -/

/-- A file that is not the stream `body` has. Nothing is asked of SHA-256 but that the other body
does not collide with this one. -/
inductive Damaged (digest : Digest) (body : Bytes) : Bytes → Prop where
  /-- the digest is another one, or only a part of one -/
  | digest (sum : Bytes) (size : sum.length ≤ 32) (other : sum ≠ digest.sum body) :
    Damaged digest body (body ++ sum)
  /-- the body is another one -/
  | body (other : Bytes) (changed : other ≠ body)
    (noCollision : digest.sum other = digest.sum body → other = body) :
    Damaged digest body (other ++ digest.sum body)
  /-- both are, and do not go together -/
  | both (other sum : Bytes) (size : sum.length = 32) (mismatch : digest.sum other ≠ sum) :
    Damaged digest body (other ++ sum)
  | cut (part : Bytes) (before : part <+: body ++ digest.sum body)
    (shorter : part ≠ body ++ digest.sum body) : Damaged digest body part

/-- A digest that does not go with the body fails the checksum. -/
theorem read_mismatch {body sum : Bytes} (size : sum.length = 32) (mismatch : digest.sum body ≠ sum) :
    ∃ e, read digest (body ++ sum) true = .error e := by
  rw [read_append size, if_pos mismatch]
  split
  · exact ⟨_, rfl⟩
  · exact ⟨_, rfl⟩

/-- The tables of a body that is cut short cannot be read, whatever its digest. -/
theorem read_cutBody (fits : dump.Fits) {part sum : Bytes} (size : sum.length = 32)
    (before : part <+: dump.body) (shorter : part ≠ dump.body) :
    ∃ e, read digest (part ++ sum) true = .error e := by
  rw [read_append size]
  split
  · exact ⟨_, rfl⟩
  split
  · exact ⟨_, rfl⟩
  rename_i long _
  -- the magic number and the format are still there
  obtain ⟨left, rfl, before, shorter⟩ : ∃ left, part = magic ++ (leBytes 4 format ++ left) ∧
      left <+: encodeHeader dump.header ++ encodeList encodeTable dump.tables ∧
      left ≠ encodeHeader dump.header ++ encodeList encodeTable dump.tables := by
    rw [Dump.body, ← List.append_assoc] at before shorter
    obtain ⟨left, rfl⟩ : magic ++ leBytes 4 format <+: part :=
      List.prefix_of_prefix_length_le (List.prefix_append _ _) before (Nat.le_of_not_lt long)
    refine ⟨left, List.append_assoc _ _ _, (List.prefix_append_right_inj _).mp before, ?_⟩
    intro whole
    exact shorter (congrArg _ whole)
  rw [readChecked_whole, (reads_body fits).cut local_body before shorter]
  exact ⟨_, rfl⟩

/-- A file no longer than the stream, that has a part of the body in front, fails. -/
theorem read_short (fits : dump.Fits) {file : Bytes} (front : ∃ more, file = dump.body ++ more ∨
      file ++ more = dump.body) (short : file.length < dump.body.length + 32) :
    ∃ e, read digest file true = .error e := by
  by_cases tiny : file.length < 32
  · refine ⟨.tooShort, if_pos ?_⟩
    show file.length < 44
    omega
  have split : file.take (file.length - 32) ++ file.drop (file.length - 32) = file :=
    List.take_append_drop _ _
  rw [← split]
  refine read_cutBody fits ?_ ?_ ?_
  · rw [List.length_drop]
    omega
  · obtain ⟨more, whole | part⟩ := front
    · rw [whole, List.take_append_of_le_length (by rw [← whole]; omega)]
      exact List.take_prefix _ _
    · exact (List.take_prefix _ _).trans ⟨more, part⟩
  · intro same
    have size := congrArg List.length same
    rw [List.length_take] at size
    omega

theorem Damaged.rejected (fits : dump.Fits) {file : Bytes} (damaged : Damaged digest dump.body file) :
    ∃ e, read digest file true = .error e := by
  cases damaged with
  | digest sum size other =>
    rcases Nat.lt_or_eq_of_le size with less | full
    · refine read_short fits ⟨sum, .inl rfl⟩ ?_
      rw [List.length_append]
      omega
    · exact read_mismatch full (Ne.symm other)
  | body other changed noCollision =>
    exact read_mismatch (digest.length_sum _) fun same => changed (noCollision same)
  | both other sum size mismatch => exact read_mismatch size mismatch
  | cut part before shorter =>
    have less : file.length < dump.body.length + 32 := by
      have le := before.length_le
      have ne : file.length ≠ (dump.body ++ digest.sum dump.body).length := fun same =>
        shorter (before.eq_of_length same)
      rw [List.length_append, digest.length_sum] at le ne
      omega
    refine read_short fits ?_ less
    rcases List.prefix_or_prefix_of_prefix before (List.prefix_append dump.body _) with inside | past
    · obtain ⟨more, whole⟩ := inside
      exact ⟨more, .inr whole⟩
    · obtain ⟨more, whole⟩ := past
      exact ⟨more, .inl whole.symm⟩

/-! ## Restoring -/

theorem flatten_chunks {α : Type} {n : Nat} (pos : 0 < n) (l : List α) : (chunks n l).flatten = l := by
  fun_induction chunks n l with
  | case1 l more ih => rw [List.flatten_cons, ih, List.take_append_drop]
  | case2 l done =>
    by_contra some
    exact done ⟨fun empty => some empty.symm, pos⟩

theorem flatten_restoreBatches (tables : List TableDump) :
    (restoreBatches tables).flatten = putTables tables := by
  rw [restoreBatches, putTables, List.flatMap_def, List.flatMap_def, List.flatten_flatten, List.map_map]
  congr 1
  refine List.map_congr_left fun t _ => ?_
  show ((chunks restoreBatchRows t.2).map (putRows t.1)).flatten = putRows t.1 t.2
  nth_rewrite 2 [← flatten_chunks (show 0 < restoreBatchRows by decide) t.2]
  rw [putRows, List.map_flatten]
  rfl

theorem commitAll_flatten (db : Db) (batches : List WriteBatch) :
    db.commitAll batches = db.commit batches.flatten := by
  rw [Db.commit, List.foldl_flatten]
  rfl

/-- The batches of a restore give the tables they were read from. -/
theorem commitAll_restoreBatches (read : File) :
    Db.commitAll (fun _ => ∅) (restoreBatches read.rows) = read.db := by
  rw [commitAll_flatten, flatten_restoreBatches]
  exact Storage.Rewrite.copy_whole read

end Fastetcd.Server.Backup
