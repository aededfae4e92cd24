import Fastetcd.Laws.Storage.RaftWal
import Fastetcd.Storage.RaftLog

/-!
# The WAL is the log of the records appended to it

What a directory's chapters say is what the appended records say (`Wal.Run.means`). A record appended
is a record in the last chapter; a roll adds copies of the current sticky values, which change nothing
(`Log.run_copies`); and a chapter is dropped when the latest purge covers its entries, so that the log
is the same without it (`log_drop`).
-/

namespace Fastetcd.Storage

open Mvcc (Bytes)

/-! ## Logs -/

namespace Log

theorem run_append (log : Log) (a b : List (Loc × Record)) : log.run (a ++ b) = (log.run a).run b :=
  List.foldl_append

theorem run_concat (log : Log) (rows : List (Loc × Record)) (row : Loc × Record) :
    log.run (rows ++ [row]) = (log.run rows).apply row :=
  List.foldl_concat ..

theorem sticky_apply (log : Log) (row : Loc × Record) :
    (log.apply row).sticky = log.sticky.insert row.2 := by
  rw [apply, Sticky.insert]
  cases row.2.kind <;> rfl

/-- Every entry is at its own index, past the purge. -/
def Live (log : Log) : Prop :=
  ∀ k loc r, log.entries k = some (loc, r) →
    r.index = k ∧ log.sticky.purge.all (·.index < k) = true

theorem purge_insert (s : Sticky) (r : Record) :
    (s.insert r).purge = if r.kind = .purge then some r else s.purge := by
  rw [Sticky.insert]
  cases r.kind <;> rfl

/-- An entry after a record is the record, or was there before. -/
theorem entries_apply {log : Log} {row x : Loc × Record} {k : Nat}
    (held : (log.apply row).entries k = some x) :
    (x = row ∧ row.2.kind = .entry ∧ row.2.index = k ∧
        log.sticky.purge.all (·.index < k) = true) ∨
      (log.entries k = some x ∧ (row.2.kind = .purge → row.2.index < k)) := by
  rw [apply] at held
  cases kind : row.2.kind with
  | entry =>
    simp only [kind] at held
    split at held
    · exact Or.inr ⟨held, nofun⟩
    · split at held
      · next here => exact Or.inl ⟨(Option.some.inj held).symm, rfl, here.1.symm, here.2⟩
      · cases held
  | truncate =>
    simp only [kind] at held
    split at held
    · exact Or.inr ⟨held, nofun⟩
    · cases held
  | purge =>
    simp only [kind] at held
    split at held
    · next past => exact Or.inr ⟨held, fun _ => past⟩
    · cases held
  | vote =>
    simp only [kind] at held
    exact Or.inr ⟨held, nofun⟩
  | committed =>
    simp only [kind] at held
    exact Or.inr ⟨held, nofun⟩

theorem Live.apply {log : Log} (live : log.Live) (row : Loc × Record) : (log.apply row).Live := by
  intro k loc r held
  rw [sticky_apply, purge_insert]
  rcases entries_apply held with ⟨same, kind, index, past⟩ | ⟨held, past⟩
  · cases same
    have kind : r.kind ≠ .purge := fun h => by simp [h] at kind
    rw [if_neg kind]
    exact ⟨index, past⟩
  · obtain ⟨index, old⟩ := live k loc r held
    refine ⟨index, ?_⟩
    split
    · next kind => simpa using past kind
    · exact old

theorem live_run (rows : List (Loc × Record)) : (run {} rows).Live :=
  List.foldlRecOn rows _ (fun _ _ _ held => by cases held) fun _ live row _ => live.apply row

/-- An entry of the log is one of the records run. -/
theorem mem_of_entries {rows : List (Loc × Record)} {k : Nat} {row : Loc × Record}
    (held : (run {} rows).entries k = some row) :
    row ∈ rows ∧ row.2.kind = .entry ∧ row.2.index = k := by
  induction rows using List.reverseRecOn with
  | nil => cases held
  | append_singleton rows last ih =>
    rw [run_concat] at held
    rcases entries_apply held with ⟨rfl, kind, index, -⟩ | ⟨held, -⟩
    · exact ⟨List.mem_append_right _ (List.mem_singleton.mpr rfl), kind, index⟩
    · obtain ⟨mem, entry⟩ := ih held
      exact ⟨List.mem_append_left _ mem, entry⟩

/-- A copy of a current sticky record changes nothing. -/
theorem apply_copy {log : Log} (live : log.Live) {records : List Record}
    (known : log.sticky.From records) {row : Loc × Record} (mem : row.2 ∈ log.sticky.records) :
    log.apply row = log := by
  obtain ⟨entries, sticky⟩ := log
  simp only [Sticky.records, List.mem_append, Option.mem_toList] at mem
  rcases mem with held | held | held
  · have kind := (known.purge _ held).1
    have kept : (fun k => if row.2.index < k then entries k else none) = entries := by
      funext k
      split
      · rfl
      · next short =>
        cases h : entries k with
        | none => rfl
        | some x =>
          have past := (live k x.1 x.2 h).2
          simp only [held, Option.all_some, decide_eq_true_eq] at past
          exact absurd past short
    simp only [apply, kind, kept, Sticky.insert, ← held]
  · have kind := (known.vote _ held).1
    simp only [apply, kind, Sticky.insert, ← held]
  · have kind := (known.committed _ held).1
    simp only [apply, kind, Sticky.insert, ← held]

/-- Copies of the current sticky records change nothing. -/
theorem run_copies {log : Log} (live : log.Live) {records : List Record}
    (known : log.sticky.From records) {rows : List (Loc × Record)}
    (copies : ∀ row ∈ rows, row.2 ∈ log.sticky.records) : log.run rows = log := by
  refine List.foldlRecOn (motive := (· = log)) rows _ rfl fun _ same row mem => ?_
  rw [same]
  exact apply_copy live known (copies row mem)

end Log

/-! ## The replay is the log -/

/-- The replay has the log's locations and sticky records. -/
structure Replay.Agrees (replay : Replay) (log : Log) : Prop where
  entries : ∀ k, replay.entries[k]? = (log.entries k).map Prod.fst
  sticky : replay.sticky = log.sticky

theorem getElem?_below (entries : Table Nat Loc) (index k : Nat) :
    (below entries index)[k]? = if k < index then entries[k]? else none := by
  simp [below, Table.getElem?_filter_key entries (fun k => decide (k < index))]

theorem getElem?_atLeast (entries : Table Nat Loc) (index k : Nat) :
    (atLeast entries index)[k]? = if index ≤ k then entries[k]? else none := by
  simp [atLeast, Table.getElem?_filter_key entries (fun k => decide (index ≤ k))]

theorem Replay.Agrees.apply {replay : Replay} {log : Log} (agrees : replay.Agrees log)
    (live : log.Live) (row : Loc × Record) : (replay.apply row.1 row.2).Agrees (log.apply row) := by
  refine ⟨fun k => ?_, by rw [Replay.sticky_apply, Log.sticky_apply, agrees.sticky]⟩
  have same := agrees.entries
  rw [Replay.apply, Log.apply]
  cases kind : row.2.kind with
  | entry =>
    have past : (replay.sticky.purge.map Record.index).all (row.2.index > ·) =
        log.sticky.purge.all (·.index < row.2.index) := by
      rw [agrees.sticky]
      cases log.sticky.purge <;> rfl
    simp only [past]
    rcases Nat.lt_trichotomy k row.2.index with less | rfl | more
    · have other : ¬row.2.index = k := by omega
      split <;> simp [getElem?_below, Std.ExtTreeMap.getElem?_insert, less, same, other]
    · split
      · next free => simp [free]
      · next taken => simp [getElem?_below, taken]
    · have other : ¬row.2.index = k := by omega
      have short : ¬k < row.2.index := by omega
      have far : ¬k = row.2.index := by omega
      split <;>
        simp [getElem?_below, Std.ExtTreeMap.getElem?_insert, short, other, far]
  | truncate =>
    simp only [getElem?_below, same]
    split <;> rfl
  | purge =>
    have bound := row.2.index_lt
    by_cases top : row.2.index = U64_MAX
    · have none : (if row.2.index < k then log.entries k else none) = none := by
        split
        · next past =>
          cases held : log.entries k with
          | none => rfl
          | some x =>
            have index := (live k x.1 x.2 held).1
            have bound := x.2.index_lt
            rw [top, U64_MAX] at past
            omega
        · rfl
      simp only [if_pos top, none]
      exact Std.ExtTreeMap.getElem?_empty
    · have next : min (row.2.index + 1) U64_MAX = row.2.index + 1 := by
        rw [U64_MAX] at top ⊢
        omega
      simp only [top, if_false, next, getElem?_atLeast, same, Nat.succ_le_iff]
      split <;> rfl
  | vote => exact same k
  | committed => exact same k

theorem agrees_run (rows : List (Loc × Record)) : (Replay.run {} rows).Agrees (Log.run {} rows) := by
  induction rows using List.reverseRecOn with
  | nil => exact ⟨fun k => Std.ExtTreeMap.getElem?_empty, rfl⟩
  | append_singleton rows row ih =>
    rw [Log.run_concat, Replay.run, List.foldl_concat, ← Replay.run]
    exact ih.apply (Log.live_run rows) row

theorem tornTail_run (rows : List (Loc × Record)) : (Replay.run {} rows).tornTail = false := by
  refine List.foldlRecOn (motive := fun (replay : Replay) => replay.tornTail = false) rows _ rfl
    fun replay same row _ => ?_
  rw [Replay.apply]
  cases row.2.kind <;> exact same

/-! ## Chapters of one log -/

/-- What the chapters say. -/
def logOf (chapters : List Chapter) : Log := Log.run {} (rowsOf chapters)

theorem rowsOf_append (a b : List Chapter) : rowsOf (a ++ b) = rowsOf a ++ rowsOf b :=
  List.flatMap_append

theorem rowsOf_concat (closed : List Chapter) (c : Chapter) :
    rowsOf (closed ++ [c]) = rowsOf closed ++ c.rows := by
  rw [rowsOf_append, rowsOf, rowsOf, List.flatMap_singleton]

theorem sticky_logOf {closed : List Chapter} {final : Chapter} (linked : Linked (closed ++ [final])) :
    (logOf (closed ++ [final])).sticky = final.sticky := by
  rw [logOf, ← (agrees_run _).sticky, sticky_run_linked linked]

/-- A record put at the end of the last chapter. -/
theorem rowsOf_put (closed : List Chapter) (final : Chapter) (r : Record) :
    rowsOf (closed ++ [⟨final.seq, final.records ++ [r]⟩]) = rowsOf (closed ++ [final]) ++
      [(⟨final.seq, (encodeAll final.records).length, r.payload.length⟩, r)] := by
  rw [rowsOf_concat, rowsOf_concat, Chapter.rows_append, List.append_assoc]
  rfl

theorem logOf_put (closed : List Chapter) (final : Chapter) (r : Record) :
    logOf (closed ++ [⟨final.seq, final.records ++ [r]⟩]) =
      (logOf (closed ++ [final])).apply
        (⟨final.seq, (encodeAll final.records).length, r.payload.length⟩, r) := by
  rw [logOf, rowsOf_put, Log.run_concat, logOf]

/-- A chapter of nothing but the sticky values says nothing new. -/
theorem logOf_roll {closed : List Chapter} {final : Chapter} (linked : Linked (closed ++ [final]))
    (seq : Nat) :
    logOf (closed ++ [final] ++ [⟨seq, final.sticky.records⟩]) = logOf (closed ++ [final]) := by
  have sticky := sticky_logOf linked
  rw [logOf, rowsOf_append, Log.run_append]
  refine Log.run_copies (Log.live_run _) (sticky ▸ final.sticky_from) fun row mem => ?_
  rw [← logOf, sticky]
  have copy : row.2 ∈ (rowsOf [⟨seq, final.sticky.records⟩]).map Prod.snd :=
    List.mem_map_of_mem mem
  rwa [map_snd_rowsOf, List.flatMap_singleton] at copy

/-- The entries past `index` and the sticky records are the same. -/
def Log.SameAfter (index : Nat) (a b : Log) : Prop :=
  a.sticky = b.sticky ∧ ∀ k, index < k → a.entries k = b.entries k

theorem Log.SameAfter.run {index : Nat} {a b : Log} (same : SameAfter index a b)
    (rows : List (Loc × Record)) : SameAfter index (a.run rows) (b.run rows) := by
  induction rows generalizing a b with
  | nil => exact same
  | cons row rows ih =>
    refine ih ⟨by rw [sticky_apply, sticky_apply, same.1], fun k past => ?_⟩
    have old := same.2 k past
    rw [apply, apply]
    cases row.2.kind <;> simp [old, same.1]

/-- Logs that agree past `index` are the same if their purge is at or past it. -/
theorem Log.SameAfter.eq {index : Nat} {a b : Log} (same : SameAfter index a b) (liveA : a.Live)
    (liveB : b.Live) {purge : Record} (purged : b.sticky.purge = some purge)
    (covered : index ≤ purge.index) : a = b := by
  have gone {log : Log} (live : log.Live) (purged : log.sticky.purge = some purge) {k : Nat}
      (le : k ≤ index) : log.entries k = none := by
    cases held : log.entries k with
    | none => rfl
    | some x =>
      have past := (live k x.1 x.2 held).2
      rw [purged, Option.all_some, decide_eq_true_eq] at past
      omega
  have entries : a.entries = b.entries := by
    funext k
    rcases Nat.lt_or_ge index k with past | le
    · exact same.2 k past
    · rw [gone liveA (same.1 ▸ purged) le, gone liveB purged le]
  obtain ⟨_, _⟩ := a
  obtain ⟨_, _⟩ := b
  cases same.1
  cases entries
  rfl

theorem le_foldl_raiseMax {records : List Record} {r : Record} (mem : r ∈ records)
    (kind : r.kind = .entry) : ∃ m, records.foldl raiseMax none = some m ∧ r.index ≤ m := by
  induction records using List.reverseRecOn with
  | nil => cases mem
  | append_singleton records last ih =>
    rw [List.foldl_concat, raiseMax]
    rcases List.mem_append.mp mem with mem | mem
    · obtain ⟨m, found, le⟩ := ih mem
      rw [found]
      split
      · exact ⟨_, rfl, le.trans (Nat.le_max_left ..)⟩
      · exact ⟨m, rfl, le⟩
    · obtain rfl := List.mem_singleton.mp mem
      rw [if_pos kind]
      refine ⟨_, rfl, ?_⟩
      cases records.foldl raiseMax none with
      | none => exact Nat.le_refl _
      | some m => exact Nat.le_max_right ..

/-- A chapter whose entries the latest purge covers is not needed. -/
theorem logOf_drop {c d : Chapter} {chapters : List Chapter}
    (linked : Linked (c :: d :: chapters)) {index : Nat} (upto : c.upto index) {purge : Record}
    (purged : (logOf (c :: d :: chapters)).sticky.purge = some purge)
    (covered : index ≤ purge.index) : logOf (d :: chapters) = logOf (c :: d :: chapters) := by
  obtain ⟨link, -⟩ := List.isChain_cons_cons.mp linked
  obtain ⟨seq, records⟩ := d
  obtain ⟨more, rfl⟩ : ∃ more, c.sticky.records ++ more = records := link
  obtain ⟨rest, split⟩ : ∃ rest, rowsOf (⟨seq, c.sticky.records ++ more⟩ :: chapters) =
      (Chapter.mk seq c.sticky.records).rows ++ rest :=
    ⟨_, by rw [rowsOf, List.flatMap_cons, Chapter.rows_append, List.append_assoc]⟩
  have whole : rowsOf (c :: ⟨seq, c.sticky.records ++ more⟩ :: chapters) =
      c.rows ++ ((Chapter.mk seq c.sticky.records).rows ++ rest) := by
    rw [← split]
    rfl
  have copies (row : Loc × Record) (mem : row ∈ (Chapter.mk seq c.sticky.records).rows) :
      row.2 ∈ c.sticky.records := by
    have copy := List.mem_map_of_mem (f := Prod.snd) mem
    rwa [Chapter.map_snd_rows] at copy
  have stickyC : (Log.run {} c.rows).sticky = c.sticky := by
    rw [← (agrees_run _).sticky, Replay.sticky_run, Chapter.map_snd_rows]
    rfl
  have stickyCopies : (Log.run {} (Chapter.mk seq c.sticky.records).rows).sticky = c.sticky := by
    rw [← (agrees_run _).sticky, Replay.sticky_run, Chapter.map_snd_rows]
    exact c.sticky_from.foldl_again.1
  -- Without the chapter there are no entries after the copies, with it none past `index`.
  have start : Log.SameAfter index (Log.run {} (Chapter.mk seq c.sticky.records).rows)
      ((Log.run {} c.rows).run (Chapter.mk seq c.sticky.records).rows) := by
    rw [Log.run_copies (Log.live_run _) (stickyC ▸ c.sticky_from) (stickyC ▸ copies)]
    refine ⟨stickyCopies.trans stickyC.symm, fun k past => ?_⟩
    have none : (Log.run {} (Chapter.mk seq c.sticky.records).rows).entries k = none := by
      refine Option.eq_none_iff_forall_ne_some.mpr fun row held => ?_
      obtain ⟨mem, kind, -⟩ := Log.mem_of_entries held
      have copy := copies row mem
      simp only [Sticky.records, List.mem_append, Option.mem_toList] at copy
      rcases copy with copy | copy | copy
      · simp [(c.sticky_from.purge _ copy).1] at kind
      · simp [(c.sticky_from.vote _ copy).1] at kind
      · simp [(c.sticky_from.committed _ copy).1] at kind
    have below : (Log.run {} c.rows).entries k = Option.none := by
      refine Option.eq_none_iff_forall_ne_some.mpr fun row held => ?_
      obtain ⟨mem, kind, rfl⟩ := Log.mem_of_entries held
      have record : row.2 ∈ c.records := by
        have mem := List.mem_map_of_mem (f := Prod.snd) mem
        rwa [Chapter.map_snd_rows] at mem
      obtain ⟨m, found, le⟩ := le_foldl_raiseMax record kind
      rw [Chapter.upto, found, Option.all_some, decide_eq_true_eq] at upto
      omega
    rw [none, below]
  have same := start.run rest
  rw [← Log.run_append, ← Log.run_append, ← Log.run_append, ← split] at same
  rw [logOf, logOf]
  rw [logOf, whole, ← split] at purged
  rw [whole, ← split]
  exact same.eq (Log.live_run _) (Log.live_run _) purged covered

/-- Dropping the chapters the latest purge covers leaves the log. -/
theorem logOf_dropWhile {closed : List Chapter} {final : Chapter}
    (linked : Linked (closed ++ [final])) {index : Nat} {purge : Record}
    (purged : (logOf (closed ++ [final])).sticky.purge = some purge)
    (covered : index ≤ purge.index) :
    logOf (closed.dropWhile (Chapter.upto index) ++ [final]) = logOf (closed ++ [final]) := by
  induction closed with
  | nil => rfl
  | cons c closed ih =>
    by_cases upto : c.upto index = true
    · rw [List.dropWhile_cons_of_pos upto]
      obtain ⟨d, chapters, rest⟩ : ∃ d chapters, closed ++ [final] = d :: chapters := by
        cases closed with
        | nil => exact ⟨final, [], rfl⟩
        | cons d closed => exact ⟨d, closed ++ [final], rfl⟩
      have dropped : logOf (closed ++ [final]) = logOf (c :: closed ++ [final]) := by
        rw [List.cons_append, rest] at linked purged ⊢
        exact logOf_drop linked upto purged covered
      rw [ih linked.tail (dropped ▸ purged), dropped]
    · rw [List.dropWhile_cons_of_neg upto]

/-! ## Reading at a location -/

theorem mem_layout {offset start : Nat} {r : Record} {records : List Record}
    (mem : (offset, r) ∈ layout start records) :
    ∃ before after, records = before ++ r :: after ∧ offset = start + (encodeAll before).length := by
  induction records generalizing start with
  | nil => cases mem
  | cons head records ih =>
    rcases List.mem_cons.mp mem with same | mem
    · cases same
      exact ⟨[], records, rfl, rfl⟩
    · obtain ⟨before, after, rfl, rfl⟩ := ih mem
      exact ⟨head :: before, after, rfl, by simp [Nat.add_assoc]⟩

theorem find_file {segments : List Segment} {chapters : List Chapter}
    (holds : List.Forall₂ Segment.Holds segments chapters)
    (seqs : (chapters.map Chapter.seq).Pairwise (· < ·)) {c : Chapter} (mem : c ∈ chapters) :
    ∃ segment : Segment, segment.Holds c ∧
      (segments.map Segment.file).find? (·.seq = c.seq) = some segment.file := by
  induction holds with
  | nil => cases mem
  | @cons segment d segments chapters holds _ ih =>
    obtain ⟨first, seqs⟩ := List.pairwise_cons.mp seqs
    rcases List.mem_cons.mp mem with rfl | mem
    · exact ⟨segment, holds, by simp [holds.seq]⟩
    · have later := first c.seq (List.mem_map_of_mem mem)
      obtain ⟨found, foundHolds, find⟩ := ih seqs mem
      refine ⟨found, foundHolds, ?_⟩
      rw [List.map_cons, List.find?_cons_of_neg, find]
      rw [holds.seq, decide_eq_true_eq]
      omega

namespace Wal

variable {wal : Wal} {closed : List Chapter} {final : Chapter} {n : Nat}

/-- A record is read back from where it is. -/
theorem Stores.read_eq (holds : wal.Stores closed final n) {loc : Loc} {r : Record}
    (mem : (loc, r) ∈ rowsOf (closed ++ [final])) : wal.read loc = some r.payload := by
  obtain ⟨c, chapter, row⟩ := List.mem_flatMap.mp mem
  obtain ⟨⟨offset, r⟩, laid, same⟩ := List.mem_map.mp row
  cases same
  obtain ⟨before, after, records, rfl⟩ := mem_layout laid
  have segments : List.Forall₂ Segment.Holds (wal.closed ++ [wal.last]) (closed ++ [final]) :=
    List.rel_append holds.segments (.cons holds.last .nil)
  obtain ⟨segment, holdsC, find⟩ := find_file segments holds.seqs chapter
  obtain ⟨zeros, bytes⟩ := holdsC.bytes
  have fits : r.Fits := holdsC.fits r (by simp [records])
  have here : (segment.file.bytes.drop (0 + (encodeAll before).length)).take
      (HEADER_LEN + r.payload.length) = encodeRecord r := by
    rw [bytes, records, Nat.zero_add]
    simp only [encodeAll_append, encodeAll_cons, List.append_assoc, List.drop_left]
    rw [← length_encodeRecord, List.take_left]
  have parsed := parse_encode fits []
  rw [List.append_nil] at parsed
  show ((wal.closed ++ [wal.last]).map Segment.file |>.find? (·.seq = c.seq)).bind _ = _
  rw [find]
  simp only [locOf, Option.bind_some, here, parsed, length_encodeRecord, Nat.lt_irrefl, if_false,
    if_true]

/-! ## What stays in the directory -/

/-- The records are where `append` says, next to all that were there. -/
structure Keeps (chapters chapters' : List Chapter) (locs : List Loc) (records : List Record) : Prop where
  before : rowsOf chapters ⊆ rowsOf chapters'
  length : locs.length = records.length
  rows : locs.zip records ⊆ rowsOf chapters'

theorem Stores.roll_keeps (stores : wal.Stores closed final n) (spare : Spare) :
    ∃ closed' final' n', (wal.roll spare).Stores closed' final' n' ∧
      rowsOf (closed ++ [final]) ⊆ rowsOf (closed' ++ [final']) := by
  refine ⟨_, _, _, stores.roll spare, fun row mem => ?_⟩
  rw [rowsOf_append]
  exact List.mem_append_left _ mem

theorem Stores.appendEach {spares : Nat → Spare} {records : List Record} {wal' : Wal}
    {locs : List Loc} (stores : wal.Stores closed final n)
    (done : appendEach spares wal records = some (wal', locs)) :
    ∃ closed' final' n', wal'.Stores closed' final' n' ∧
      Keeps (closed ++ [final]) (closed' ++ [final']) locs records := by
  induction records generalizing wal closed final n locs with
  | nil =>
    cases done
    exact ⟨closed, final, n, stores, fun _ mem => mem, rfl, nofun⟩
  | cons r records ih =>
    rw [Wal.appendEach] at done
    split at done
    · cases done
    · next fits =>
      obtain ⟨⟨_, rest⟩, appended, same⟩ := Option.map_eq_some_iff.mp done
      cases same
      obtain ⟨closed₁, final₁, n₁, stores₁, kept₁⟩ : ∃ closed' final' n',
          (if wal.offset ≥ wal.segmentBytes ∧ wal.offset > 0 then
            wal.roll (spares (wal.last.file.seq + 1)) else wal).Stores closed' final' n' ∧
          rowsOf (closed ++ [final]) ⊆ rowsOf (closed' ++ [final']) := by
        split
        · exact stores.roll_keeps _
        · exact ⟨closed, final, n, stores, fun _ mem => mem⟩
      obtain ⟨closed₂, final₂, n₂, stores₂, keeps⟩ := ih (stores₁.put (Nat.not_lt.mp fits)) appended
      have put := keeps.before
      rw [rowsOf_put, ← stores₁.last.seq, ← stores₁.offset] at put
      refine ⟨closed₂, final₂, n₂, stores₂, fun row mem => ?_, ?_, fun row mem => ?_⟩
      · exact put (List.mem_append_left _ (kept₁ mem))
      · rw [List.length_cons, List.length_cons, keeps.length]
      · rcases List.mem_cons.mp mem with rfl | later
        · exact put (List.mem_append_right _ (List.mem_singleton_self _))
        · exact keeps.rows later

theorem Stores.append {spares : Nat → Spare} {ready : Bool} {records : List Record} {wal' : Wal}
    {locs : List Loc} (stores : wal.Stores closed final n)
    (done : Wal.append spares ready wal records = some (wal', locs)) :
    ∃ closed' final' n', wal'.Stores closed' final' n' ∧
      Keeps (closed ++ [final]) (closed' ++ [final']) locs records := by
  rw [append_eq] at done
  split at done
  · obtain ⟨closed₁, final₁, n₁, stores₁, kept₁⟩ := stores.roll_keeps (spares (wal.last.file.seq + 1))
    obtain ⟨closed₂, final₂, n₂, stores₂, keeps⟩ := stores₁.appendEach done
    exact ⟨closed₂, final₂, n₂, stores₂, fun row mem => keeps.before (kept₁ mem), keeps.length,
      keeps.rows⟩
  · exact stores.appendEach done

/-- An entry past the index is not in a segment that is deleted. -/
theorem mem_rowsOf_dropWhile {index : Nat} {row : Loc × Record} (entry : row.2.kind = .entry)
    (past : index < row.2.index) (mem : row ∈ rowsOf (closed ++ [final])) :
    row ∈ rowsOf (closed.dropWhile (Chapter.upto index) ++ [final]) := by
  rw [rowsOf_append] at mem ⊢
  rcases List.mem_append.mp mem with early | late
  · refine List.mem_append_left _ ?_
    obtain ⟨c, chapter, row'⟩ := List.mem_flatMap.mp early
    refine List.mem_flatMap.mpr ⟨c, ?_, row'⟩
    rw [← List.takeWhile_append_dropWhile (p := Chapter.upto index) (l := closed)] at chapter
    rcases List.mem_append.mp chapter with gone | kept
    · -- its largest entry is at least this one
      have upto := List.mem_takeWhile_imp gone
      have record : row.2 ∈ c.records := by
        rw [← c.map_snd_rows]
        exact List.mem_map_of_mem row'
      obtain ⟨m, largest, le⟩ := le_foldl_raiseMax record entry
      rw [Chapter.upto, largest, Option.all_some, decide_eq_true_eq] at upto
      omega
    · exact kept
  · exact List.mem_append_right _ late

/-! ## Runs -/

/-- A directory whose chapters say what the appended records say. -/
def Means (wal : Wal) (appended : List (Loc × Record)) : Prop :=
  ∃ closed final n, wal.Holds closed final n ∧ logOf (closed ++ [final]) = Log.run {} appended

variable {appended : List (Loc × Record)}

theorem holds_create (segmentBytes room : Nat) :
    Holds ⟨max segmentBytes 4096, [], ⟨.zeros 0 room, none⟩, 0, {}, true⟩ [] ⟨0, []⟩ 0 where
  segments := .nil
  last := ⟨rfl, ⟨room, rfl⟩, rfl, nofun⟩
  offset := rfl
  seqs := List.pairwise_singleton ..
  closedSynced := nofun
  synced := ⟨Nat.le_refl 0, room, rfl⟩
  known := ⟨[], ⟨nofun, nofun, nofun⟩, nofun⟩
  sticky := rfl
  linked := .singleton _

theorem Means.roll (means : wal.Means appended) (spare : Spare) : (wal.roll spare).Means appended := by
  obtain ⟨closed, final, n, holds, same⟩ := means
  exact ⟨_, _, _, holds.roll spare, (logOf_roll holds.linked _).trans same⟩

theorem Means.put (means : wal.Means appended) {r : Record} (fits : r.Fits) :
    (wal.put r).Means
      (appended ++ [(⟨wal.last.file.seq, wal.offset, r.payload.length⟩, r)]) := by
  obtain ⟨closed, final, n, holds, same⟩ := means
  refine ⟨_, _, _, holds.put fits, ?_⟩
  rw [logOf_put, same, Log.run_concat, holds.last.seq, holds.offset]

theorem Means.appendEach {spares : Nat → Spare} {records : List Record} {wal' : Wal}
    {locs : List Loc} (means : wal.Means appended)
    (done : appendEach spares wal records = some (wal', locs)) :
    wal'.Means (appended ++ locs.zip records) := by
  induction records generalizing wal appended locs with
  | nil =>
    cases done
    rwa [List.zip_nil_left, List.append_nil]
  | cons r records ih =>
    rw [Wal.appendEach] at done
    split at done
    · cases done
    · next fits =>
      obtain ⟨⟨_, rest⟩, appended', same⟩ := Option.map_eq_some_iff.mp done
      cases same
      have rolled : (if wal.offset ≥ wal.segmentBytes ∧ wal.offset > 0 then
          wal.roll (spares (wal.last.file.seq + 1)) else wal).Means appended := by
        split
        · exact means.roll _
        · exact means
      have put := ih (rolled.put (Nat.not_lt.mp fits)) appended'
      rwa [List.append_assoc] at put

theorem Means.append {spares : Nat → Spare} {ready : Bool} {records : List Record} {wal' : Wal}
    {locs : List Loc} (means : wal.Means appended)
    (done : Wal.append spares ready wal records = some (wal', locs)) :
    wal'.Means (appended ++ locs.zip records) := by
  rw [append_eq] at done
  refine Means.appendEach ?_ done
  split
  · exact means.roll _
  · exact means

theorem Means.dropSegmentsUpto (means : wal.Means appended) {index : Nat} {purge : Record}
    (purged : (Log.run {} appended).sticky.purge = some purge) (covered : index ≤ purge.index) :
    (wal.dropSegmentsUpto index).Means appended := by
  obtain ⟨closed, final, n, holds, same⟩ := means
  rw [← same] at purged
  exact ⟨_, _, _, holds.dropSegmentsUpto index,
    (logOf_dropWhile holds.linked purged covered).trans same⟩

theorem Means.reopen (means : wal.Means appended) {segmentBytes room : Nat} {wal' : Wal}
    {replay : Replay} (opened : openDir segmentBytes room wal.dir = .ok (wal', replay)) :
    wal'.Means appended := by
  obtain ⟨closed, final, n, holds, same⟩ := means
  rw [holds.openDir_eq] at opened
  cases opened
  exact ⟨closed, final, n, { holds with }, same⟩

theorem Means.sync (means : wal.Means appended) : wal.sync.Means appended := by
  obtain ⟨closed, final, n, holds, same⟩ := means
  exact ⟨closed, final, _, holds.sync, same⟩

theorem Means.opens (means : wal.Means appended) (segmentBytes room : Nat) :
    ∃ wal' replay, openDir segmentBytes room wal.dir = .ok (wal', replay) := by
  obtain ⟨closed, final, n, holds, -⟩ := means
  exact ⟨_, _, holds.openDir_eq segmentBytes room⟩

/-- An open replays the sticky values of the records appended. -/
theorem Means.sticky_of_open (means : wal.Means appended) {segmentBytes room : Nat} {wal' : Wal}
    {replay : Replay} (opened : openDir segmentBytes room wal.dir = .ok (wal', replay)) :
    replay.sticky = (Log.run {} appended).sticky := by
  obtain ⟨closed, final, n, holds, same⟩ := means
  rw [holds.openDir_eq] at opened
  cases opened
  rw [← same]
  exact (agrees_run (rowsOf (closed ++ [final]))).sticky

theorem Run.means {synced : Nat} (run : Run whilePurged wal appended synced) :
    wal.Means appended := by
  induction run with
  | create segmentBytes room opened =>
    cases opened
    exact ⟨_, _, _, holds_create segmentBytes room, rfl⟩
  | append _ spares ready records done ih => exact ih.append done
  | sync _ ih => exact ih.sync
  | dropSegmentsUpto _ index may ih =>
    obtain ⟨purge, purged, covered⟩ := may
    exact ih.dropSegmentsUpto purged covered
  | reopen _ segmentBytes room opened ih => exact ih.reopen opened

/-- A WAL closed and opened again is the log of the records appended to it: at each index the last
entry appended there that is neither truncated nor purged, where `append` put it, and the latest
purge, vote and committed mark. Each entry is read back from there. -/
theorem openDir_is_log {synced : Nat} (run : Run whilePurged wal appended synced)
    (segmentBytes room : Nat) :
    ∃ wal' replay, openDir segmentBytes room wal.dir = .ok (wal', replay) ∧
      (∀ k, replay.entries[k]? = ((Log.run {} appended).entries k).map Prod.fst) ∧
      replay.sticky = (Log.run {} appended).sticky ∧ replay.tornTail = false ∧
      ∀ k loc r, (Log.run {} appended).entries k = some (loc, r) →
        wal'.read loc = some r.payload := by
  obtain ⟨closed, final, n, holds, same⟩ := run.means
  obtain ⟨entries, sticky⟩ := agrees_run (rowsOf (closed ++ [final]))
  refine ⟨_, _, holds.openDir_eq segmentBytes room, ?_, ?_, tornTail_run _, fun k loc r held => ?_⟩
  · rw [← same]
    exact entries
  · rw [← same]
    exact sticky
  · rw [← same] at held
    exact holds.toStores.read_eq (Log.mem_of_entries held).1

/-! ## A purge below an earlier one

Purge 10 is synced, then purge 3 and entry 7 are appended, and a vote begins the next segment. Entry
7 is live: the latest purge is 3. -/

instance indexNeZero : NeZero (256 ^ 8) := ⟨by decide⟩

/-- A record without a payload. -/
def bare (kind : Kind) (index : Fin (256 ^ 8)) : Record := ⟨kind, index, [], index.isLt⟩

theorem bare_fits (kind : Kind) (index : Fin (256 ^ 8)) : (bare kind index).Fits := Nat.zero_le _

def fresh : Wal := ⟨4096, [], ⟨.zeros 0 0, none⟩, 0, {}, true⟩

/-- The spares are zeros that were written out. -/
def filled (_ : Nat) : Spare := ⟨4096, true⟩

def purgedBack : Wal :=
  ((((fresh.put (bare .purge 10)).sync.put (bare .purge 3)).put (bare .entry 7)).roll
    (filled 1)).put (bare .vote 0)

def purgedBackRows : List (Loc × Record) :=
  [(⟨0, 0, 0⟩, bare .purge 10), (⟨0, 17, 0⟩, bare .purge 3), (⟨0, 34, 0⟩, bare .entry 7),
    (⟨1, 17, 0⟩, bare .vote 0)]

theorem run_purgedBack (drops : Drops) : Run drops purgedBack purgedBackRows 1 := by
  have purged : Run drops (fresh.put (bare .purge 10)) [(⟨0, 0, 0⟩, bare .purge 10)] 0 :=
    Run.append (.create 0 0 rfl) filled false [bare .purge 10] (by rw [append_eq]; rfl)
  have again : Run drops
      (((fresh.put (bare .purge 10)).sync.put (bare .purge 3)).put (bare .entry 7)) _ 1 :=
    purged.sync.append filled false [bare .purge 3, bare .entry 7] (by rw [append_eq]; rfl)
  exact again.append filled true [bare .vote 0] (by rw [append_eq]; rfl)

theorem holds_purgedBack :
    purgedBack.Holds [⟨0, [bare .purge 10, bare .purge 3, bare .entry 7]⟩]
      ⟨1, [bare .purge 3, bare .vote 0]⟩ 0 :=
  ((((((holds_create 0 0).put (bare_fits .purge 10)).sync).put (bare_fits .purge 3)).put
    (bare_fits .entry 7)).roll (filled 1)).put (bare_fits .vote 0)

/-- Dropping up to 3 keeps the first segment, which has entry 7. -/
theorem openDir_is_log_purgedBack :
    Run whilePurged (purgedBack.dropSegmentsUpto 3) purgedBackRows 1 ∧
      (Log.run {} purgedBackRows).entries 7 = some (⟨0, 34, 0⟩, bare .entry 7) ∧
      ∃ wal' replay, openDir 0 0 (purgedBack.dropSegmentsUpto 3).dir = .ok (wal', replay) ∧
        (∀ k, replay.entries[k]? = ((Log.run {} purgedBackRows).entries k).map Prod.fst) ∧
        replay.sticky = (Log.run {} purgedBackRows).sticky ∧ replay.tornTail = false ∧
        ∀ k loc r, (Log.run {} purgedBackRows).entries k = some (loc, r) →
          wal'.read loc = some r.payload := by
  have run : Run whilePurged (purgedBack.dropSegmentsUpto 3) purgedBackRows 1 :=
    (run_purgedBack _).dropSegmentsUpto 3 ⟨bare .purge 3, rfl, Nat.le_refl 3⟩
  exact ⟨run, rfl, openDir_is_log run 0 0⟩

/-- Dropping up to 10, for which a purge was made durable, loses it. -/
theorem drop_after_durable_purge_loses_entry :
    Run afterDurablePurge (purgedBack.dropSegmentsUpto 10) purgedBackRows 1 ∧
      (Log.run {} purgedBackRows).entries 7 = some (⟨0, 34, 0⟩, bare .entry 7) ∧
      ∃ wal' replay, openDir 0 0 (purgedBack.dropSegmentsUpto 10).dir = .ok (wal', replay) ∧
        replay.entries[7]? = none := by
  refine ⟨(run_purgedBack _).dropSegmentsUpto 10 ?_, rfl, _, _,
    (holds_purgedBack.dropSegmentsUpto 10).openDir_eq 0 0, ?_⟩
  · exact ⟨(⟨0, 0, 0⟩, bare .purge 10), .head _, rfl, Nat.le_refl 10⟩
  · decide +kernel

end Wal

end Fastetcd.Storage
