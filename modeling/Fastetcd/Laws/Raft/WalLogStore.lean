import Fastetcd.Laws.Storage.RaftLog
import Fastetcd.Raft.WalLogStore

/-!
# The log in memory is the log asked for

Every slot is of the entry last appended at its index: its bytes are that entry's, and its location
is one the writer gave to that very allocation. A placement that comes late finds other bytes in the
slot and is dropped. A segment is deleted when a purge asked for covers its entries, and no slot is
left for those, so what a slot's location says is read back.
-/

namespace Fastetcd.Raft

open Mvcc (Bytes)
open Storage
open Std (ExtTreeMap LawfulEqCmp)

/-! ## Slots -/

/-- The slot is of the entry `arc` at `k`. -/
structure Slot.Holds (written : List Placed) (k : Nat) (arc : Arc) (slot : Slot) : Prop where
  bytes : ∀ b, slot.bytes = some b → b = arc
  loc : ∀ loc, slot.loc = some loc → ⟨k, arc, loc⟩ ∈ written
  somewhere : slot.bytes = none → slot.loc ≠ none

/-- What is in memory at an index, for the entry asked for there. -/
inductive Matches (written : List Placed) (k : Nat) : Option Slot → Option Arc → Prop
  | none : Matches written k none none
  | some {slot : Slot} {arc : Arc} (holds : slot.Holds written k arc) :
      Matches written k (some slot) (some arc)

theorem Matches.isSome_eq {written : List Placed} {k : Nat} {slot : Option Slot} {arc : Option Arc}
    (here : Matches written k slot arc) : slot.isSome = arc.isSome := by
  cases here <;> rfl

theorem Matches.more {written : List Placed} {k : Nat} {slot : Option Slot} {arc : Option Arc}
    (here : Matches written k slot arc) (more : List Placed) :
    Matches (written ++ more) k slot arc := by
  cases here with
  | none => exact .none
  | some holds =>
    exact .some ⟨holds.bytes, fun loc at_ => List.mem_append_left _ (holds.loc loc at_),
      holds.somewhere⟩

/-- The state has a slot for each entry of the log, and counts the bytes in memory. -/
structure Represents (written : List Placed) (log : Entries) (st : State) : Prop where
  slots : ∀ k, Matches written k st.entries[k]? (log k)
  counted : st.cachedBytes = Table.total st.entries Slot.cached

namespace Represents

variable {written : List Placed} {log : Entries} {st : State}

theorem slot (represents : Represents written log st) {k : Nat} {slot : Slot}
    (found : st.entries[k]? = some slot) : ∃ arc, log k = some arc ∧ slot.Holds written k arc := by
  have here := represents.slots k
  rw [found] at here
  cases entry : log k with
  | none =>
    rw [entry] at here
    exact nomatch here
  | some arc =>
    rw [entry] at here
    cases here with
    | some holds => exact ⟨arc, rfl, holds⟩

theorem entry (represents : Represents written log st) {k : Nat} {arc : Arc}
    (asked : log k = some arc) : ∃ slot, st.entries[k]? = some slot ∧ slot.Holds written k arc := by
  have here := represents.slots k
  rw [asked] at here
  cases found : st.entries[k]? with
  | none =>
    rw [found] at here
    exact nomatch here
  | some slot =>
    rw [found] at here
    cases here with
    | some holds => exact ⟨slot, rfl, holds⟩

theorem more (represents : Represents written log st) (more : List Placed) :
    Represents (written ++ more) log st :=
  ⟨fun k => (represents.slots k).more more, represents.counted⟩

end Represents

/-! ### Removing -/

theorem State.forget_eq (st : State) (gone : Table Nat Slot) :
    st.forget gone = { st with cachedBytes := st.cachedBytes - gone.total Slot.cached } := by
  rw [State.forget, Table.total]
  induction gone.toList generalizing st with
  | nil => rfl
  | cons row rows ih =>
    rw [List.foldl_cons, ih, List.map_cons, List.sum_cons]
    cases bytes : row.2.bytes with
    | none => simp [Slot.cached, bytes]
    | some b => simp [Slot.cached, bytes, Nat.sub_sub]

/-- The rows that are kept are counted. -/
theorem Represents.keep {written : List Placed} {log : Entries} {st : State}
    (represents : Represents written log st) (keep : Nat → Bool) :
    Represents written (fun k => if keep k then log k else none)
      ({ st with entries := st.entries.filter fun k _ => keep k }.forget
        (st.entries.filter fun k _ => !keep k)) := by
  rw [State.forget_eq]
  refine ⟨fun k => ?_, ?_⟩
  · show Matches written k (st.entries.filter fun k _ => keep k)[k]? _
    rw [Table.getElem?_filter_key]
    split
    · exact represents.slots k
    · exact .none
  · show st.cachedBytes - _ = Table.total (st.entries.filter fun k _ => keep k) Slot.cached
    have split := Table.total_filter st.entries Slot.cached keep
    rw [represents.counted]
    omega

theorem Represents.removeFrom {written : List Placed} {log : Entries} {st : State}
    (represents : Represents written log st) (index : Nat) :
    Represents written (log.truncate index) (st.removeFrom index) := by
  have kept := represents.keep fun k => decide (k < index)
  have gone : (fun (k : Nat) (_ : Slot) => !decide (k < index)) =
      fun k _ => decide (index ≤ k) := by
    funext k _
    rw [← decide_not, decide_eq_decide, Nat.not_lt]
  have log' : (fun k => if decide (k < index) = true then log k else none) = log.truncate index := by
    funext k
    rw [Entries.truncate]
    simp
  rw [gone, log'] at kept
  exact ⟨kept.slots, kept.counted⟩

theorem Represents.removeUpto {written : List Placed} {log : Entries} {st : State}
    (represents : Represents written log st) (bound : ∀ k, (log k).isSome → k < U64_MAX)
    (index : Nat) : Represents written (log.purge index) (st.removeUpto index) := by
  have kept := represents.keep fun k => decide (min (index + 1) U64_MAX ≤ k)
  have gone : (fun (k : Nat) (_ : Slot) => !decide (min (index + 1) U64_MAX ≤ k)) =
      fun k _ => decide (k < min (index + 1) U64_MAX) := by
    funext k _
    rw [← decide_not, decide_eq_decide, Nat.not_le]
  have log' : (fun k => if decide (min (index + 1) U64_MAX ≤ k) = true then log k else none) =
      log.purge index := by
    funext k
    rw [Entries.purge]
    cases entry : log k with
    | none => simp
    | some arc =>
      have less : k < U64_MAX := bound k (by rw [entry]; rfl)
      have same : min (index + 1) U64_MAX ≤ k ↔ index < k := by omega
      simp only [decide_eq_true_eq, same]
  rw [gone, log'] at kept
  exact kept

/-! ### Appending -/

theorem Represents.appendEntry {written : List Placed} {log : Entries} {st : State}
    (represents : Represents written log st) (e : Encoded) :
    Represents written (log.append e) (st.appendEntry e) := by
  have removed := represents.removeFrom e.index
  have none : (st.removeFrom e.index).entries[e.index]? = none := by
    have here := removed.slots e.index
    rw [Entries.truncate, if_neg (Nat.lt_irrefl _)] at here
    cases found : (st.removeFrom e.index).entries[e.index]? with
    | none => rfl
    | some slot =>
      rw [found] at here
      exact nomatch here
  refine ⟨fun k => ?_, ?_⟩
  · show Matches written k ((st.removeFrom e.index).entries.insert e.index ⟨some e.bytes, .none⟩)[k]? _
    rw [ExtTreeMap.getElem?_insert]
    split
    · rename_i same
      obtain rfl : e.index = k := LawfulEqCmp.eq_of_compare same
      rw [Entries.append, if_neg (Nat.lt_irrefl _), if_pos rfl]
      refine .some ⟨fun b eq => ?_, nofun, nofun⟩
      cases eq
      rfl
    · rename_i other
      have ne : k ≠ e.index := fun eq => other (eq ▸ Std.ReflOrd.compare_self)
      have log' : log.append e k = log.truncate e.index k := by
        rw [Entries.append, Entries.truncate, if_neg ne]
      rw [log']
      exact removed.slots k
  · show (st.removeFrom e.index).cachedBytes + _ = _
    have total := Table.total_insert (st.removeFrom e.index).entries Slot.cached e.index
      ⟨some e.bytes, .none⟩
    rw [none] at total
    rw [removed.counted]
    exact total.symm

/-! ### Placing -/

/-- The bytes of a slot are those that were written, if the allocation is. -/
theorem Represents.placeOne {written : List Placed} {log : Entries} {st : State}
    (represents : Represents written log st) {p : Placed} (mem : p ∈ written)
    (same : ∀ arc, log p.index = some arc → arc.ptr = p.bytes.ptr → arc = p.bytes) :
    Represents written log { st with entries := State.placeOne st.entries p } := by
  rw [State.placeOne]
  split
  · exact represents
  rename_i slot found
  split
  · rename_i match_
    obtain ⟨arc, asked, holds⟩ := represents.slot found
    obtain ⟨b, bytes, ptr⟩ : ∃ b, slot.bytes = some b ∧ b.ptrEq p.bytes = true := by
      cases bytes : slot.bytes with
      | none =>
        rw [bytes] at match_
        exact nomatch match_
      | some b =>
        rw [bytes] at match_
        exact ⟨b, rfl, match_⟩
    obtain rfl : b = arc := holds.bytes b bytes
    have eq : b = p.bytes := same b asked (beq_iff_eq.mp ptr)
    refine ⟨fun k => ?_, ?_⟩
    · show Matches written k (st.entries.insert p.index _)[k]? _
      rw [ExtTreeMap.getElem?_insert]
      split
      · rename_i here
        obtain rfl : p.index = k := LawfulEqCmp.eq_of_compare here
        rw [asked]
        refine .some ⟨holds.bytes, fun loc at_ => ?_, nofun⟩
        cases at_
        rw [eq]
        exact mem
      · exact represents.slots k
    · show st.cachedBytes = Table.total (st.entries.insert p.index _) Slot.cached
      have total := Table.total_insert st.entries Slot.cached p.index { slot with loc := some p.loc }
      rw [found] at total
      rw [represents.counted]
      exact (Nat.add_right_cancel total).symm
  · exact represents

theorem Represents.placeAll {written : List Placed} {log : Entries} {placed : List Placed}
    (mem : ∀ p ∈ placed, p ∈ written)
    (same : ∀ p ∈ placed, ∀ arc, log p.index = some arc → arc.ptr = p.bytes.ptr → arc = p.bytes)
    {st : State} (represents : Represents written log st) :
    Represents written log { st with entries := placed.foldl State.placeOne st.entries } := by
  induction placed generalizing st with
  | nil => exact represents
  | cons p placed ih =>
    have first := represents.placeOne (mem p List.mem_cons_self) (same p List.mem_cons_self)
    exact ih (fun q later => mem q (List.mem_cons_of_mem p later))
      (fun q later => same q (List.mem_cons_of_mem p later)) first

/-- Only slots with a location give up their bytes. -/
theorem Represents.evict {written : List Placed} {log : Entries} {rows : List (Nat × Slot)}
    (apart : (rows.map Prod.fst).Nodup) {st : State} (represents : Represents written log st)
    (found : ∀ row ∈ rows, st.entries[row.1]? = some row.2) :
    Represents written log (st.evict rows) := by
  induction rows generalizing st with
  | nil => exact represents
  | cons row rows ih =>
    obtain ⟨index, slot⟩ := row
    rw [State.evict]
    split
    · exact represents
    rename_i goes
    have here : st.entries[index]? = some slot := found _ List.mem_cons_self
    obtain ⟨notHere, apart⟩ := List.nodup_cons.mp apart
    obtain ⟨arc, asked, holds⟩ := represents.slot here
    refine ih apart ⟨fun k => ?_, ?_⟩ fun row later => ?_
    · show Matches written k (st.entries.insert index _)[k]? _
      rw [ExtTreeMap.getElem?_insert]
      split
      · rename_i same
        obtain rfl : index = k := LawfulEqCmp.eq_of_compare same
        rw [asked]
        exact .some ⟨nofun, holds.loc, fun _ nowhere => goes (.inr nowhere)⟩
      · exact represents.slots k
    · show st.cachedBytes - slot.cached = Table.total (st.entries.insert index _) Slot.cached
      have total := Table.total_insert st.entries Slot.cached index { slot with bytes := none }
      rw [here] at total
      simp only [Option.elim_some] at total
      have empty : Slot.cached { slot with bytes := none } = 0 := rfl
      rw [represents.counted]
      omega
    · show (st.entries.insert index _)[row.1]? = _
      rw [ExtTreeMap.getElem?_insert]
      split
      · rename_i same
        obtain rfl : index = row.1 := LawfulEqCmp.eq_of_compare same
        exact absurd (List.mem_map_of_mem later) notHere
      · exact found row (List.mem_cons_of_mem _ later)

theorem Represents.place {written : List Placed} {log : Entries} {placed : List Placed}
    (mem : ∀ p ∈ placed, p ∈ written)
    (same : ∀ p ∈ placed, ∀ arc, log p.index = some arc → arc.ptr = p.bytes.ptr → arc = p.bytes)
    {st : State} (represents : Represents written log st) :
    Represents written log (st.place placed) := by
  have all := represents.placeAll mem same
  rw [State.place]
  simp only
  split
  · exact all
  · refine all.evict (Table.scan_ascending _ _).nodup_keys fun row here => ?_
    exact (Table.mem_scan.mp (show (row.1, row.2) ∈ _ from here)).1

/-! ## The log asked for -/

namespace Entries

/-- There is no gap. -/
def Contiguous (log : Entries) : Prop :=
  ∀ i j k, i ≤ j → j ≤ k → (log i).isSome → (log k).isSome → (log j).isSome

variable {log : Entries}

theorem Contiguous.truncate (contiguous : log.Contiguous) (index : Nat) :
    (log.truncate index).Contiguous := by
  intro i j k le le' first last
  rw [Entries.truncate] at first last ⊢
  split at last
  · rename_i less
    rw [if_pos (le'.trans_lt less)]
    rw [if_pos ((le.trans le').trans_lt less)] at first
    exact contiguous i j k le le' first last
  · exact nomatch last

theorem Contiguous.purge (contiguous : log.Contiguous) (index : Nat) :
    (log.purge index).Contiguous := by
  intro i j k le le' first last
  rw [Entries.purge] at first last ⊢
  split at first
  · rename_i less
    rw [if_pos (less.trans_le le)]
    rw [if_pos (less.trans_le (le.trans le'))] at last
    exact contiguous i j k le le' first last
  · exact nomatch first

theorem Contiguous.append (contiguous : log.Contiguous) {e : Encoded}
    (follows : log.Follows e.index) : (log.append e).Contiguous := by
  intro i j k le le' first last
  rw [Entries.append] at first last ⊢
  rcases Nat.lt_trichotomy j e.index with before | here | after
  · rw [if_pos before]
    rw [if_pos (le.trans_lt before)] at first
    rcases follows with none | ⟨p, next, some⟩
    · rw [none i (le.trans_lt before)] at first
      exact nomatch first
    · exact contiguous i j p le (by omega) first some
  · rw [if_neg (by omega), if_pos here]
    rfl
  · rw [if_neg (by omega), if_neg (by omega)] at last
    exact nomatch last

/-- An entry of the log is the appended one or was there. -/
theorem append_cases {e : Encoded} {k : Nat} {arc : Arc} (found : log.append e k = some arc) :
    log k = some arc ∨ k = e.index ∧ arc = e.bytes := by
  rw [Entries.append] at found
  split at found
  · exact .inl found
  · split at found
    · rename_i here
      exact .inr ⟨here, (Option.some.inj found).symm⟩
    · exact nomatch found

/-- The same for a list of entries. -/
theorem foldl_append_cases {entries : List Encoded} {k : Nat} {arc : Arc}
    (found : entries.foldl Entries.append log k = some arc) :
    log k = some arc ∨ ∃ e ∈ entries, k = e.index ∧ arc = e.bytes := by
  induction entries generalizing log with
  | nil => exact .inl found
  | cons e entries ih =>
    rcases ih found with old | ⟨e', mem, here⟩
    · rcases append_cases old with old | here
      · exact .inl old
      · exact .inr ⟨e, List.mem_cons_self, here⟩
    · exact .inr ⟨e', List.mem_cons_of_mem e mem, here⟩

theorem Contiguous.appendAll (contiguous : log.Contiguous) {entries : List Encoded}
    (admits : log.Admits entries) : (entries.foldl Entries.append log).Contiguous := by
  induction entries generalizing log with
  | nil => exact contiguous
  | cons e entries ih => exact ih (contiguous.append admits.1.1) admits.2

theorem Admits.bound {entries : List Encoded} (admits : log.Admits entries) :
    ∀ e ∈ entries, e.index < U64_MAX := by
  induction entries generalizing log with
  | nil => exact nofun
  | cons e entries ih =>
    intro e' mem
    rcases List.mem_cons.mp mem with rfl | later
    · exact admits.1.2
    · exact ih admits.2 e' later

end Entries

theorem Represents.appendAll {written : List Placed} {log : Entries} {entries : List Encoded}
    {st : State} (represents : Represents written log st) :
    Represents written (entries.foldl Entries.append log) (st.append entries).1 := by
  show Represents written _ (entries.foldl State.appendEntry st)
  induction entries generalizing log st with
  | nil => exact represents
  | cons e entries ih => exact ih (represents.appendEntry e)

/-! ## The store and its writer -/

namespace Store

variable {s s' : Store}

/-- A command's entries are of the store, and it deletes only what is purged. -/
structure Sendable (s : Store) (cmd : Cmd) : Prop where
  entries : ∀ r ∈ cmd.records, r.kind = .entry → r.payload ∈ s.arcs
  drop : ∀ d, cmd.dropUpto = some d → s.Purged d

/-- The writer's directory has every entry that is not purged where it was written. -/
def Readable (s : Store) : Prop :=
  ∃ closed final n, s.wal.Stores closed final n ∧ ∀ p ∈ s.written, ¬s.Purged p.index →
    ∃ r, (p.loc, r) ∈ rowsOf (closed ++ [final]) ∧ r.kind = .entry ∧ r.index = p.index ∧
      r.payload = p.bytes.bytes

structure Inv (s : Store) : Prop where
  represents : Represents s.written s.log s.state
  contiguous : s.log.Contiguous
  bound : ∀ k, (s.log k).isSome → k < U64_MAX
  past : ∀ k, (s.log k).isSome → ¬s.Purged k
  known : ∀ k arc, s.log k = some arc → arc ∈ s.arcs
  apart : ∀ a ∈ s.arcs, ∀ b ∈ s.arcs, a.ptr = b.ptr → a = b
  core : ∀ cmd, s.core = some cmd → s.Sendable cmd
  queue : ∀ cmd ∈ s.queue, s.Sendable cmd
  drop : ∀ d, s.dropUpto = some d → s.Purged d
  placed : ∀ p ∈ s.placed, p ∈ s.written
  written : ∀ p ∈ s.written, p.bytes ∈ s.arcs
  readable : s.Readable

theorem Purged.mono {i j : Nat} (purged : s.Purged j) (le : i ≤ j) : s.Purged i := by
  obtain ⟨p, last, upto⟩ := purged
  exact ⟨p, last, le.trans upto⟩

/-! ### Steps of RaftCore -/

theorem lastPurged_forget (st : State) (gone : Table Nat Slot) :
    (st.forget gone).lastPurged = st.lastPurged := by
  rw [State.forget_eq]

theorem lastPurged_appendAll (st : State) (entries : List Encoded) :
    (st.append entries).1.lastPurged = st.lastPurged := by
  show (entries.foldl State.appendEntry st).lastPurged = _
  induction entries generalizing st with
  | nil => rfl
  | cons e entries ih =>
    rw [List.foldl_cons, ih]
    exact lastPurged_forget ..

theorem Sendable.mono {cmd : Cmd} (sendable : s.Sendable cmd)
    (purged : ∀ k, s.Purged k → s'.Purged k) (more : s.arcs ⊆ s'.arcs) : s'.Sendable cmd :=
  ⟨fun r mem entry => more (sendable.entries r mem entry),
    fun d drop => purged d (sendable.drop d drop)⟩

theorem Readable.mono (readable : s.Readable) (purged : ∀ k, s.Purged k → s'.Purged k)
    (wal : s'.wal = s.wal) (written : s'.written = s.written) : s'.Readable := by
  obtain ⟨closed, final, n, stores, rows⟩ := readable
  refine ⟨closed, final, n, wal ▸ stores, fun p mem live => ?_⟩
  exact rows p (written ▸ mem) fun gone => live (purged _ gone)

theorem purged_congr (same : s'.state.lastPurged = s.state.lastPurged) (index : Nat) :
    s'.Purged index ↔ s.Purged index := by
  rw [Purged, Purged, same]

theorem Inv.append (inv : s.Inv) {entries : List Encoded}
    (admits : s.log.Admits entries) (past : ∀ e ∈ entries, ¬s.Purged e.index)
    (fresh : ∀ e ∈ entries, ∀ a ∈ s.arcs, a.ptr ≠ e.bytes.ptr)
    (apart : (entries.map fun e => e.bytes.ptr).Nodup) :
    Inv { s with
      state := (s.state.append entries).1
      core := some (s.state.append entries).2
      log := entries.foldl Entries.append s.log
      arcs := s.arcs ++ entries.map Encoded.bytes } := by
  have purge := lastPurged_appendAll s.state entries
  have more : s.arcs ⊆ s.arcs ++ entries.map Encoded.bytes := List.subset_append_left ..
  refine
    { represents := inv.represents.appendAll
      contiguous := inv.contiguous.appendAll admits
      bound := fun k some => ?_
      past := fun k some => ?_
      known := fun k arc found => ?_
      apart := ?_
      core := fun cmd eq => ?_
      queue := fun cmd mem => (inv.queue cmd mem).mono (fun k => (purged_congr purge k).mpr) more
      drop := fun d eq => (purged_congr purge d).mpr (inv.drop d eq)
      placed := inv.placed
      written := fun p mem => more (inv.written p mem)
      readable := inv.readable.mono (fun k => (purged_congr purge k).mpr) rfl rfl }
  · obtain ⟨arc, found⟩ := Option.isSome_iff_exists.mp some
    rcases Entries.foldl_append_cases found with old | ⟨e, mem, rfl, -⟩
    · exact inv.bound k (by rw [old]; rfl)
    · exact admits.bound e mem
  · rw [purged_congr purge]
    obtain ⟨arc, found⟩ := Option.isSome_iff_exists.mp some
    rcases Entries.foldl_append_cases found with old | ⟨e, mem, rfl, -⟩
    · exact inv.past k (by rw [old]; rfl)
    · exact past e mem
  · rcases Entries.foldl_append_cases found with old | ⟨e, mem, -, rfl⟩
    · exact more (inv.known k arc old)
    · exact List.mem_append_right _ (List.mem_map_of_mem mem)
  · intro a mem b mem' same
    rcases List.mem_append.mp mem with old | new
    · rcases List.mem_append.mp mem' with old' | new'
      · exact inv.apart a old b old' same
      · obtain ⟨e, here, rfl⟩ := List.mem_map.mp new'
        exact absurd same (fresh e here a old)
    · obtain ⟨e, here, rfl⟩ := List.mem_map.mp new
      rcases List.mem_append.mp mem' with old' | new'
      · exact absurd same.symm (fresh e here b old')
      · obtain ⟨e', here', rfl⟩ := List.mem_map.mp new'
        exact congrArg Encoded.bytes (List.inj_on_of_nodup_map apart here here' same)
  · cases eq
    refine ⟨fun r mem _ => ?_, nofun⟩
    obtain ⟨e, here, rfl⟩ := List.mem_map.mp mem
    exact List.mem_append_right _ (List.mem_map_of_mem here)

theorem Inv.truncate (inv : s.Inv) (id : LogId) (ptr : Nat) :
    Inv { s with
      state := (s.state.truncate id ptr).1
      core := some (s.state.truncate id ptr).2
      log := s.log.truncate id.index } := by
  have purge : (s.state.removeFrom id.index).lastPurged = s.state.lastPurged :=
    lastPurged_forget ..
  have kept : ∀ k arc, s.log.truncate id.index k = some arc → s.log k = some arc := by
    intro k arc found
    rw [Entries.truncate] at found
    split at found
    · exact found
    · exact nomatch found
  refine
    { represents := inv.represents.removeFrom id.index
      contiguous := inv.contiguous.truncate id.index
      bound := fun k some => ?_
      past := fun k some => ?_
      known := fun k arc found => inv.known k arc (kept k arc found)
      apart := inv.apart
      core := fun cmd eq => ?_
      queue := fun cmd mem => (inv.queue cmd mem).mono (fun k => (purged_congr purge k).mpr)
        fun _ mem => mem
      drop := fun d eq => (purged_congr purge d).mpr (inv.drop d eq)
      placed := inv.placed
      written := inv.written
      readable := inv.readable.mono (fun k => (purged_congr purge k).mpr) rfl rfl }
  · obtain ⟨arc, found⟩ := Option.isSome_iff_exists.mp some
    exact inv.bound k (by rw [kept k arc found]; rfl)
  · rw [purged_congr purge]
    obtain ⟨arc, found⟩ := Option.isSome_iff_exists.mp some
    exact inv.past k (by rw [kept k arc found]; rfl)
  · cases eq
    refine ⟨fun r mem entry => ?_, nofun⟩
    rw [List.mem_singleton.mp mem] at entry
    exact nomatch entry

theorem purged_purge (s : Store) (id : LogId) (k : Nat) :
    Purged { s with state := (s.state.purge id).1, log := s.log.purge id.index } k ↔
      s.Purged k ∨ k ≤ id.index := by
  have last : (s.state.purge id).1.lastPurged =
      if s.state.lastPurged.all (·.index < id.index) then some id else s.state.lastPurged := by
    show (if (s.state.removeUpto id.index).lastPurged.all _ then _ else _) = _
    have same : (s.state.removeUpto id.index).lastPurged = s.state.lastPurged :=
      lastPurged_forget ..
    rw [same]
  rw [Purged, Purged]
  show (∃ p, (s.state.purge id).1.lastPurged = some p ∧ _) ↔ _
  rw [last]
  cases before : s.state.lastPurged with
  | none => simp
  | some p =>
    by_cases less : p.index < id.index
    · simp only [Option.all_some, less, decide_true, if_true, Option.some.injEq, exists_eq_left']
      omega
    · simp only [Option.all_some, less, decide_false, Bool.false_eq_true, if_false,
        Option.some.injEq, exists_eq_left']
      omega

theorem Inv.purge (inv : s.Inv) (id : LogId) :
    Inv { s with state := (s.state.purge id).1, log := s.log.purge id.index } := by
  have more : ∀ k, s.Purged k →
      Purged { s with state := (s.state.purge id).1, log := s.log.purge id.index } k :=
    fun k purged => (purged_purge s id k).mpr (.inl purged)
  have kept : ∀ k arc, s.log.purge id.index k = some arc → id.index < k ∧ s.log k = some arc := by
    intro k arc found
    rw [Entries.purge] at found
    split at found
    · rename_i less
      exact ⟨less, found⟩
    · exact nomatch found
  have removed := inv.represents.removeUpto inv.bound id.index
  refine
    { represents := ⟨removed.slots, removed.counted⟩
      contiguous := inv.contiguous.purge id.index
      bound := fun k some => ?_
      past := fun k some => ?_
      known := fun k arc found => inv.known k arc (kept k arc found).2
      apart := inv.apart
      core := fun cmd eq => (inv.core cmd eq).mono more fun _ mem => mem
      queue := fun cmd mem => (inv.queue cmd mem).mono more fun _ mem => mem
      drop := fun d eq => more d (inv.drop d eq)
      placed := inv.placed
      written := inv.written
      readable := inv.readable.mono more rfl rfl }
  · obtain ⟨arc, found⟩ := Option.isSome_iff_exists.mp some
    exact inv.bound k (by rw [(kept k arc found).2]; rfl)
  · obtain ⟨arc, found⟩ := Option.isSome_iff_exists.mp some
    obtain ⟨less, old⟩ := kept k arc found
    rw [purged_purge]
    rintro (purged | le)
    · exact inv.past k (by rw [old]; rfl) purged
    · omega

/-! ### Steps of the writer -/

theorem mem_placedBy {records : List CmdRecord} {locs : List Loc} {p : Placed}
    (mem : p ∈ placedBy records locs) : ∃ r ∈ records, r.kind = .entry ∧ p.bytes = r.payload ∧
      p.index = r.index ∧ (p.loc, r.record) ∈ locs.zip (records.map CmdRecord.record) := by
  obtain ⟨⟨r, loc⟩, zipped, found⟩ := List.mem_filterMap.mp mem
  simp only at found
  split at found
  · rename_i entry
    cases found
    refine ⟨r, (List.of_mem_zip zipped).1, entry, rfl, rfl, ?_⟩
    rw [List.zip_map_right, ← List.zip_swap, List.map_map]
    exact List.mem_map.mpr ⟨(r, loc), zipped, rfl⟩
  · exact nomatch found

theorem Inv.write (inv : s.Inv) {cmd : Cmd} {queue : List Cmd} {wal : Wal} {locs : List Loc}
    {spares : Nat → Spare} {ready : Bool} (first : s.queue = cmd :: queue)
    (done : s.wal.append spares ready (cmd.records.map CmdRecord.record) = some (wal, locs)) :
    Inv { s with
      queue := queue
      wal := wal
      placed := s.placed ++ placedBy cmd.records locs
      dropUpto := match cmd.dropUpto with
        | none => s.dropUpto
        | some d => some (s.dropUpto.elim d (max · d))
      written := s.written ++ placedBy cmd.records locs } := by
  have sendable : s.Sendable cmd := inv.queue cmd (first ▸ List.mem_cons_self)
  refine
    { represents := inv.represents.more _
      contiguous := inv.contiguous
      bound := inv.bound
      past := inv.past
      known := inv.known
      apart := inv.apart
      core := fun cmd eq => (inv.core cmd eq).mono (fun _ purged => purged) fun _ mem => mem
      queue := fun cmd mem => (inv.queue cmd (first ▸ List.mem_cons_of_mem _ mem)).mono
        (fun _ purged => purged) fun _ mem => mem
      drop := ?_
      placed := fun p mem => ?_
      written := fun p mem => ?_
      readable := ?_ }
  · intro d
    show (match cmd.dropUpto with
      | none => s.dropUpto
      | some d => some (s.dropUpto.elim d (max · d))) = some d → s.Purged d
    cases drop : cmd.dropUpto with
    | none => exact inv.drop d
    | some d' =>
      intro eq
      cases before : s.dropUpto with
      | none =>
        rw [before] at eq
        cases eq
        exact sendable.drop d' drop
      | some d'' =>
        rw [before] at eq
        cases eq
        rcases le_total d'' d' with le | le
        · rw [Option.elim_some, max_eq_right le]
          exact sendable.drop d' drop
        · rw [Option.elim_some, max_eq_left le]
          exact inv.drop d'' before
  · rcases List.mem_append.mp mem with old | new
    · exact List.mem_append_left _ (inv.placed p old)
    · exact List.mem_append_right _ new
  · rcases List.mem_append.mp mem with old | new
    · exact inv.written p old
    · obtain ⟨r, here, entry, bytes, -⟩ := mem_placedBy new
      rw [bytes]
      exact sendable.entries r here entry
  · obtain ⟨closed, final, n, stores, rows⟩ := inv.readable
    obtain ⟨closed', final', n', stores', keeps⟩ := stores.append done
    refine ⟨closed', final', n', stores', fun p mem live => ?_⟩
    rcases List.mem_append.mp mem with old | new
    · obtain ⟨r, row, entry⟩ := rows p old live
      exact ⟨r, keeps.before row, entry⟩
    · obtain ⟨r, -, entry, bytes, index, zipped⟩ := mem_placedBy new
      exact ⟨r.record, keeps.rows zipped, entry, index.symm, by rw [bytes]; rfl⟩

theorem Inv.dropSegments (inv : s.Inv) {d : Nat} (at_ : s.dropUpto = some d) :
    Inv { s with wal := s.wal.dropSegmentsUpto d, dropUpto := none } := by
  have purged := inv.drop d at_
  obtain ⟨closed, final, n, stores, rows⟩ := inv.readable
  refine { inv with
    core := fun cmd eq => (inv.core cmd eq).mono (fun _ purged => purged) fun _ mem => mem
    queue := fun cmd mem => (inv.queue cmd mem).mono (fun _ purged => purged) fun _ mem => mem
    drop := nofun
    readable := ⟨_, final, n, stores.dropSegmentsUpto d, fun p mem live => ?_⟩ }
  obtain ⟨r, row, entry, index, payload⟩ := rows p mem live
  refine ⟨r, Wal.mem_rowsOf_dropWhile entry ?_ row, entry, index, payload⟩
  rw [index]
  exact Nat.lt_of_not_le fun le => live (purged.mono le)

theorem Inv.place (inv : s.Inv) :
    Inv { s with state := s.state.place s.placed, placed := [] } := by
  have evict : ∀ (rows : List (Nat × Slot)) (st : State),
      (st.evict rows).lastPurged = st.lastPurged := by
    intro rows
    induction rows with
    | nil => exact fun _ => rfl
    | cons row rows ih =>
      intro st
      obtain ⟨index, slot⟩ := row
      rw [State.evict]
      split
      · rfl
      · exact ih _
  have purge : (s.state.place s.placed).lastPurged = s.state.lastPurged := by
    rw [State.place]
    simp only
    split
    · rfl
    · exact evict _ _
  have same : ∀ p ∈ s.placed, ∀ arc, s.log p.index = some arc → arc.ptr = p.bytes.ptr →
      arc = p.bytes := fun p mem arc asked ptr =>
    inv.apart arc (inv.known _ arc asked) p.bytes (inv.written p (inv.placed p mem)) ptr
  exact
    { represents := inv.represents.place inv.placed same
      contiguous := inv.contiguous
      bound := inv.bound
      past := fun k some => (purged_congr purge k).not.mpr (inv.past k some)
      known := inv.known
      apart := inv.apart
      core := fun cmd eq => (inv.core cmd eq).mono (fun k => (purged_congr purge k).mpr)
        fun _ mem => mem
      queue := fun cmd mem => (inv.queue cmd mem).mono (fun k => (purged_congr purge k).mpr)
        fun _ mem => mem
      drop := fun d eq => (purged_congr purge d).mpr (inv.drop d eq)
      placed := fun p mem => absurd mem List.not_mem_nil
      written := inv.written
      readable := inv.readable.mono (fun k => (purged_congr purge k).mpr) rfl rfl }

theorem Inv.step (inv : s.Inv) (step : Step s s') : s'.Inv := by
  have same : ∀ {s s' : Store} {cmd : Cmd}, s.Sendable cmd → s'.state = s.state →
      s'.arcs = s.arcs → s'.Sendable cmd := by
    intro s s' cmd sendable state arcs
    refine sendable.mono (fun k purged => ?_) (arcs ▸ fun _ mem => mem)
    rw [Purged, state]
    exact purged
  cases step with
  | append entries free admits past fresh apart => exact inv.append admits past fresh apart
  | truncate id ptr free => exact inv.truncate id ptr
  | purge id free => exact inv.purge id
  | send at_ =>
    refine { inv with
      core := nofun
      queue := fun cmd mem => ?_ }
    rcases List.mem_append.mp mem with old | new
    · exact same (inv.queue cmd old) rfl rfl
    · rw [List.mem_singleton.mp new]
      exact same (inv.core _ at_) rfl rfl
  | note cmd other keeps =>
    refine { inv with
      core := fun cmd eq => same (inv.core cmd eq) rfl rfl
      queue := fun cmd' mem => ?_ }
    rcases List.mem_append.mp mem with old | new
    · exact same (inv.queue cmd' old) rfl rfl
    · rw [List.mem_singleton.mp new]
      refine ⟨fun r here entry => ?_, fun d drop => ?_⟩
      · rcases other r here with vote | committed
        · rw [vote] at entry
          exact nomatch entry
        · rw [committed] at entry
          exact nomatch entry
      · rw [keeps] at drop
        exact nomatch drop
  | completePurge id ptr asked =>
    refine { inv with
      core := fun cmd eq => same (inv.core cmd eq) rfl rfl
      queue := fun cmd mem => ?_ }
    rcases List.mem_append.mp mem with old | new
    · exact same (inv.queue cmd old) rfl rfl
    · rw [List.mem_singleton.mp new]
      refine ⟨fun r here entry => ?_, fun d drop => ?_⟩
      · rw [List.mem_singleton.mp here] at entry
        exact nomatch entry
      · cases drop
        exact asked
  | purgeDone id =>
    rw [State.purgeDone]
    split
    · exact { inv with
        represents := ⟨inv.represents.slots, inv.represents.counted⟩
        core := fun cmd eq => (inv.core cmd eq).mono (fun _ purged => purged) fun _ mem => mem
        queue := fun cmd mem => (inv.queue cmd mem).mono (fun _ purged => purged) fun _ mem => mem
        readable := inv.readable.mono (fun _ purged => purged) rfl rfl }
    · exact inv
  | write spares ready first done => exact inv.write first done
  | sync =>
    obtain ⟨closed, final, n, stores, rows⟩ := inv.readable
    exact { inv with
      core := fun cmd eq => same (inv.core cmd eq) rfl rfl
      queue := fun cmd mem => same (inv.queue cmd mem) rfl rfl
      readable := ⟨closed, final, _, stores.sync, rows⟩ }
  | drop at_ => exact inv.dropSegments at_
  | place => exact inv.place

/-! ### Opening -/

/-- A WAL that was opened, with a log without gaps. -/
structure Opened (wal : Wal) (replay : Replay) : Prop where
  stores : ∃ closed final n, wal.Stores closed final n ∧
    replay.Agrees (logOf (closed ++ [final]))
  contiguous : ∀ i j k, i ≤ j → j ≤ k → i ∈ replay.entries → k ∈ replay.entries → j ∈ replay.entries
  bound : ∀ k ∈ replay.entries, k < U64_MAX

variable {wal : Wal} {replay : Replay}

theorem Opened.inv (opened : Opened wal replay) (cacheLimit : Nat) :
    (open_ wal replay cacheLimit).Inv := by
  obtain ⟨closed, final, n, stores, agrees⟩ := opened.stores
  have arcOf : ∀ k, (open_ wal replay cacheLimit).log k =
      replay.entries[k]?.map fun loc => ⟨k, (wal.read loc).getD []⟩ := fun k => rfl
  have isSome : ∀ k, ((open_ wal replay cacheLimit).log k).isSome ↔ k ∈ replay.entries := by
    intro k
    rw [arcOf, Option.isSome_map, ExtTreeMap.mem_iff_isSome_getElem?]
  -- the record an entry of the log is
  have record : ∀ k loc, replay.entries[k]? = some loc → ∃ r,
      (loc, r) ∈ rowsOf (closed ++ [final]) ∧ r.kind = .entry ∧ r.index = k ∧
      replay.sticky.purge.all (·.index < k) = true := by
    intro k loc found
    have held := agrees.entries k
    rw [found] at held
    obtain ⟨⟨loc', r⟩, entry, same⟩ := Option.map_eq_some_iff.mp held.symm
    obtain rfl : loc' = loc := same
    obtain ⟨mem, kind, index⟩ := Log.mem_of_entries entry
    refine ⟨r, mem, kind, index, ?_⟩
    rw [agrees.sticky]
    exact (Log.live_run _ k _ r entry).2
  have row : ∀ {k loc}, (k, loc) ∈ replay.entries.toList ↔ replay.entries[k]? = some loc :=
    ExtTreeMap.mem_toList_iff_getElem?_eq_some
  refine
    { represents := ⟨fun k => ?_, ?_⟩
      contiguous := fun i j k le le' first last => ?_
      bound := fun k some => opened.bound k ((isSome k).mp some)
      past := fun k some => ?_
      known := fun k arc found => ?_
      apart := ?_
      core := nofun
      queue := nofun
      drop := nofun
      placed := nofun
      written := fun p mem => ?_
      readable := ⟨closed, final, n, stores, fun p mem live => ?_⟩ }
  · rw [arcOf]
    show Matches _ k (replay.entries.map fun _ loc => (⟨none, some loc⟩ : Slot))[k]? _
    rw [ExtTreeMap.getElem?_map]
    cases found : replay.entries[k]? with
    | none => exact .none
    | some loc =>
      refine .some ⟨nofun, fun loc' eq => ?_, nofun⟩
      cases eq
      exact List.mem_map.mpr ⟨(k, loc), row.mpr found, rfl⟩
  · refine (List.sum_eq_zero fun n mem => ?_).symm
    obtain ⟨⟨k, slot⟩, here, rfl⟩ := List.mem_map.mp mem
    have found : (replay.entries.map fun _ loc => (⟨none, some loc⟩ : Slot))[k]? = some slot :=
      ExtTreeMap.mem_toList_iff_getElem?_eq_some.mp here
    rw [ExtTreeMap.getElem?_map] at found
    obtain ⟨loc, -, rfl⟩ := Option.map_eq_some_iff.mp found
    rfl
  · rw [isSome] at first last ⊢
    exact opened.contiguous i j k le le' first last
  · rintro ⟨p, last, upto⟩
    obtain ⟨loc, found⟩ := Option.isSome_iff_exists.mp
      (ExtTreeMap.mem_iff_isSome_getElem?.mp ((isSome k).mp some))
    obtain ⟨r, -, -, -, live⟩ := record k loc found
    obtain ⟨purge, purged, rfl⟩ := Option.map_eq_some_iff.mp last
    rw [purged, Option.all_some, decide_eq_true_eq] at live
    exact absurd live (Nat.not_lt.mpr upto)
  · rw [arcOf] at found
    obtain ⟨loc, here, rfl⟩ := Option.map_eq_some_iff.mp found
    exact List.mem_map.mpr ⟨(k, loc), row.mpr here, rfl⟩
  · intro a mem b mem' same
    obtain ⟨⟨k, loc⟩, here, rfl⟩ := List.mem_map.mp mem
    obtain ⟨⟨k', loc'⟩, here', rfl⟩ := List.mem_map.mp mem'
    obtain rfl : k = k' := same
    have eq := (row.mp here).symm.trans (row.mp here')
    cases eq
    rfl
  · obtain ⟨⟨k, loc⟩, here, rfl⟩ := List.mem_map.mp mem
    exact List.mem_map.mpr ⟨(k, loc), here, rfl⟩
  · obtain ⟨⟨k, loc⟩, here, rfl⟩ := List.mem_map.mp mem
    obtain ⟨r, mem, kind, index, -⟩ := record k loc (row.mp here)
    refine ⟨r, mem, kind, index, ?_⟩
    show r.payload = (wal.read loc).getD []
    rw [stores.read_eq mem]
    rfl

/-- Everything the store may come to. -/
theorem inv_of_steps (opened : Opened wal replay) {cacheLimit : Nat}
    (steps : Relation.ReflTransGen Step (open_ wal replay cacheLimit) s) : s.Inv := by
  induction steps with
  | refl => exact opened.inv cacheLimit
  | tail _ step ih => exact ih.step step

/-! ### Reading -/

/-- The location of a slot is where the entry's bytes are. -/
theorem Inv.read_loc (inv : s.Inv) {k : Nat} {arc : Arc} {loc : Loc} (asked : s.log k = some arc)
    (at_ : ⟨k, arc, loc⟩ ∈ s.written) :
    s.wal.read loc = some arc.bytes ∧ loc.len = arc.bytes.length := by
  obtain ⟨closed, final, n, stores, rows⟩ := inv.readable
  obtain ⟨r, row, -, -, payload⟩ := rows _ at_ (inv.past k (by rw [asked]; rfl))
  refine ⟨by rw [stores.read_eq row, payload], ?_⟩
  obtain ⟨c, -, here⟩ := List.mem_flatMap.mp row
  obtain ⟨⟨offset, r'⟩, -, same⟩ := List.mem_map.mp here
  cases same
  exact congrArg List.length payload

section

variable {E : Type} (decode : Bytes → Except ReadError E)

/-- A slot is read as the entry asked for, from memory or from disk. -/
theorem Inv.load (inv : s.Inv) {k : Nat} {slot : Slot} (found : s.state.entries[k]? = some slot) :
    ∃ arc src, s.log k = some arc ∧ slot.src = .ok src ∧ src.load decode s.wal = decode arc.bytes ∧
      slot.size = arc.bytes.length := by
  obtain ⟨arc, asked, holds⟩ := inv.represents.slot found
  obtain ⟨bytes, loc⟩ := slot
  cases bytes with
  | some b =>
    obtain rfl : b = arc := holds.bytes b rfl
    exact ⟨b, .mem b, asked, rfl, rfl, rfl⟩
  | none =>
    cases loc with
    | none => exact absurd rfl (holds.somewhere rfl)
    | some loc =>
      obtain ⟨read, len⟩ := inv.read_loc asked (holds.loc loc rfl)
      refine ⟨arc, .disk loc, asked, rfl, ?_, len⟩
      rw [Src.load, read]

/-- The bytes asked for at an index. -/
def bytesAt (log : Entries) (k : Nat) : Bytes := (log k).elim [] Arc.bytes

theorem mapM_congr_mem {α β γ : Type} {l : List α} {f : α → Except β γ} {g : α → Except β γ}
    (same : ∀ a ∈ l, f a = g a) : l.mapM f = l.mapM g := by
  induction l with
  | nil => rfl
  | cons a l ih =>
    rw [List.mapM_cons, List.mapM_cons, same a List.mem_cons_self,
      ih fun b mem => same b (List.mem_cons_of_mem a mem)]

/-- A read gives the entries asked for, in order. -/
theorem Inv.tryGet (inv : s.Inv) (range : Nat → Bool) :
    s.state.tryGetLogEntries decode s.wal range =
      ((Table.scan s.state.entries range).map Prod.fst).mapM fun k => decode (bytesAt s.log k) := by
  have each : ∀ row ∈ Table.scan s.state.entries range, ∃ src, row.2.src = .ok src ∧
      src.load decode s.wal = decode (bytesAt s.log row.1) := by
    intro row mem
    obtain ⟨arc, src, asked, sourced, loaded, -⟩ :=
      inv.load decode (Table.mem_scan.mp (show (row.1, row.2) ∈ _ from mem)).1
    refine ⟨src, sourced, ?_⟩
    rw [loaded, bytesAt, asked]
    rfl
  have sourced : ∀ row ∈ Table.scan s.state.entries range, row.2.src =
      pure (row.2.src.toOption.getD (.mem ⟨0, []⟩)) := by
    intro row mem
    obtain ⟨src, sourced, -⟩ := each row mem
    rw [sourced]
    rfl
  rw [State.tryGetLogEntries, mapM_eq_pure sourced, pure_bind, List.mapM_map, List.mapM_map]
  refine mapM_congr_mem fun row mem => ?_
  obtain ⟨src, sourced, loaded⟩ := each row mem
  show (row.2.src.toOption.getD (.mem ⟨0, []⟩)).load decode s.wal = _
  rw [sourced]
  exact loaded

/-- The indexes a read comes to. -/
theorem Inv.scan_keys (inv : s.Inv) (range : Nat → Bool) :
    (Table.scan s.state.entries range).map Prod.fst =
      (List.range U64_MAX).filter fun k => range k && (s.log k).isSome := by
  have ascending : ((Table.scan s.state.entries range).map Prod.fst).Pairwise
      (compare · · = .lt) := List.pairwise_map.mpr (Table.scan_ascending _ _)
  have ascending' : ((List.range U64_MAX).filter fun k => range k && (s.log k).isSome).Pairwise
      (compare · · = .lt) :=
    (List.pairwise_lt_range.filter _).imp fun less => Nat.compare_eq_lt.mpr less
  refine ascending_eq_of_mem_iff ascending ascending' fun k => ?_
  rw [List.mem_filter, Bool.and_eq_true, List.mem_range, List.mem_map]
  constructor
  · rintro ⟨⟨k, slot⟩, mem, rfl⟩
    obtain ⟨found, within⟩ := Table.mem_scan.mp mem
    obtain ⟨arc, asked, -⟩ := inv.represents.slot found
    have some : (s.log k).isSome := by rw [asked]; rfl
    exact ⟨inv.bound k some, within, some⟩
  · rintro ⟨-, within, some⟩
    obtain ⟨arc, asked⟩ := Option.isSome_iff_exists.mp some
    obtain ⟨slot, found, -⟩ := inv.represents.entry asked
    exact ⟨(k, slot), Table.mem_scan.mpr ⟨found, within⟩, rfl⟩

theorem mapM_filterMap {α β γ : Type} (l : List Nat) (log : Nat → Option α) (f : α → Except β γ)
    (g : Nat → Except β γ) (same : ∀ k a, log k = some a → f a = g k) :
    (l.filterMap log).mapM f = (l.filter fun k => (log k).isSome).mapM g := by
  induction l with
  | nil => rfl
  | cons k l ih =>
    cases here : log k with
    | none =>
      rw [List.filterMap_cons_none here, List.filter_cons_of_neg (by simp [here]), ih]
    | some a =>
      rw [List.filterMap_cons_some here, List.filter_cons_of_pos (by simp [here]), List.mapM_cons,
        List.mapM_cons, ih, same k a here]

end

/-- However RaftCore's changes, the writer's placements and the evictions come, the state is the log
asked for: it has the same indexes without a gap, each slot has the entry's bytes or a location that
they are read from, the bytes in memory are counted, and a read of any range gives the entries. -/
theorem log_store_refines (opened : Opened wal replay) {cacheLimit : Nat}
    (steps : Relation.ReflTransGen Step (open_ wal replay cacheLimit) s) :
    (∀ k, k ∈ s.state.entries ↔ (s.log k).isSome) ∧
      (∀ i j k, i ≤ j → j ≤ k → i ∈ s.state.entries → k ∈ s.state.entries → j ∈ s.state.entries) ∧
      (∀ k slot, s.state.entries[k]? = some slot → ∃ arc, s.log k = some arc ∧
        (∀ b, slot.bytes = some b → b = arc) ∧ (slot.bytes = none → slot.loc ≠ none) ∧
        ∀ loc, slot.loc = some loc →
          ⟨k, arc, loc⟩ ∈ s.written ∧ s.wal.read loc = some arc.bytes) ∧
      s.state.cachedBytes = Table.total s.state.entries Slot.cached ∧
      ∀ (E : Type) (decode : Bytes → Except ReadError E) (range : Nat → Bool),
        s.state.tryGetLogEntries decode s.wal range =
          (((List.range U64_MAX).filter range).filterMap s.log).mapM fun arc => decode arc.bytes := by
  have inv := inv_of_steps opened steps
  have isSome : ∀ k, k ∈ s.state.entries ↔ (s.log k).isSome := by
    intro k
    rw [ExtTreeMap.mem_iff_isSome_getElem?, (inv.represents.slots k).isSome_eq]
  refine ⟨isSome, fun i j k le le' first last => ?_, fun k slot found => ?_, inv.represents.counted,
    fun E decode range => ?_⟩
  · rw [isSome] at first last ⊢
    exact inv.contiguous i j k le le' first last
  · obtain ⟨arc, asked, holds⟩ := inv.represents.slot found
    exact ⟨arc, asked, holds.bytes, holds.somewhere, fun loc at_ =>
      ⟨holds.loc loc at_, (inv.read_loc asked (holds.loc loc at_)).1⟩⟩
  · have same : ∀ k arc, s.log k = some arc → decode arc.bytes = decode (bytesAt s.log k) := by
      intro k arc asked
      rw [bytesAt, asked]
      rfl
    have keys : (List.range U64_MAX).filter (fun k => range k && (s.log k).isSome) =
        (List.range U64_MAX).filter (fun k => (s.log k).isSome && range k) :=
      List.filter_congr fun k _ => Bool.and_comm _ _
    rw [inv.tryGet, inv.scan_keys, mapM_filterMap _ _ _ _ same, List.filter_filter, keys]

/-! A new log, and one entry appended to it. -/

theorem opened_fresh : Opened Wal.fresh {} where
  stores := ⟨[], ⟨0, []⟩, 0, (Wal.holds_create 4096 0).toStores, agrees_run []⟩
  contiguous := fun _ _ _ _ _ none => absurd none ExtTreeMap.not_mem_empty
  bound := fun _ none => absurd none ExtTreeMap.not_mem_empty

theorem log_fresh (k : Nat) : (open_ Wal.fresh {} 0).log k = none := by
  show ((∅ : Table Nat Loc)[k]?.map fun loc => (⟨k, (Wal.fresh.read loc).getD []⟩ : Arc)) = none
  rw [ExtTreeMap.getElem?_empty]
  rfl

def first : Encoded := ⟨1, ⟨7, [9]⟩, by decide⟩

def one : Store :=
  { open_ Wal.fresh {} 0 with
    state := ((open_ Wal.fresh {} 0).state.append [first]).1
    core := some ((open_ Wal.fresh {} 0).state.append [first]).2
    log := [first].foldl Entries.append (open_ Wal.fresh {} 0).log
    arcs := (open_ Wal.fresh {} 0).arcs ++ [first].map Encoded.bytes }

theorem steps_one : Relation.ReflTransGen Step (open_ Wal.fresh {} 0) one := by
  refine .single (.append [first] rfl ⟨⟨.inl fun k _ => log_fresh k, ?_⟩, trivial⟩ ?_ ?_ ?_)
  · show 1 < 256 ^ 8 - 1
    decide
  · rintro e mem ⟨p, last, -⟩
    exact nomatch last
  · intro e mem a here
    have empty : (open_ Wal.fresh {} 0).arcs = [] := rfl
    rw [empty] at here
    exact absurd here List.not_mem_nil
  · exact List.nodup_singleton _

theorem log_store_refines_one : 1 ∈ one.state.entries :=
  ((log_store_refines opened_fresh steps_one).1 1).mpr rfl

/-! ### Limited reads -/

/-- After some bytes, the entries that still fit are taken. -/
theorem stopAt_after {size : Nat → Nat} {rows : List (Nat × Slot)} {i n : Nat}
    (keys : rows.map Prod.fst = List.range' i n) (sizes : ∀ row ∈ rows, row.2.size = size row.1)
    {bytes : Nat} (pos : 0 < bytes) :
    ∃ m ≤ n, stopAt (i + n) bytes rows = i + m ∧
      (m = 0 ∨ bytes + ((List.range' i m).map size).sum ≤ REPLICATION_BYTES) ∧
      (m < n → REPLICATION_BYTES < bytes + ((List.range' i m).map size).sum + size (i + m)) := by
  induction rows generalizing i n bytes with
  | nil =>
    have none : n = 0 := by
      have length := congrArg List.length keys
      rw [List.length_range'] at length
      exact length.symm
    subst none
    exact ⟨0, Nat.le_refl 0, rfl, .inl rfl, nofun⟩
  | cons row rows ih =>
    obtain ⟨index, slot⟩ := row
    cases n with
    | zero => exact nomatch keys
    | succ n =>
      rw [List.map_cons, List.range'_succ, List.cons.injEq] at keys
      obtain ⟨rfl, rest⟩ := keys
      have here : slot.size = size index := sizes _ List.mem_cons_self
      rw [stopAt, here]
      split
      · rename_i exceeds
        refine ⟨0, Nat.zero_le _, rfl, .inl rfl, fun _ => ?_⟩
        simpa using exceeds.2
      · rename_i fits
        have small : bytes + size index ≤ REPLICATION_BYTES := by
          have le : ¬ bytes + size index > REPLICATION_BYTES := fun exceeds => fits ⟨pos, exceeds⟩
          exact Nat.not_lt.mp le
        obtain ⟨m, le, stop, within, next⟩ := ih rest
          (fun row mem => sizes row (List.mem_cons_of_mem _ mem))
          (Nat.lt_of_lt_of_le pos (Nat.le_add_right bytes (size index)))
        have sum : ((List.range' index (m + 1)).map size).sum =
            size index + ((List.range' (index + 1) m).map size).sum := by
          rw [List.range'_succ, List.map_cons, List.sum_cons]
        refine ⟨m + 1, Nat.succ_le_succ le, ?_, .inr ?_, fun more => ?_⟩
        · have shift : index + (n + 1) = index + 1 + n := by omega
          rw [shift, stop]
          omega
        · rw [sum, ← Nat.add_assoc]
          rcases within with rfl | within
          · simpa using small
          · exact within
        · rw [sum, ← Nat.add_assoc, Nat.add_comm m 1, ← Nat.add_assoc]
          exact next (Nat.lt_of_succ_lt_succ more)

/-- The first entry is taken, and the ones after it that fit. -/
theorem stopAt_first (size : Nat → Nat) {rows : List (Nat × Slot)} {i n : Nat}
    (keys : rows.map Prod.fst = List.range' i n) (sizes : ∀ row ∈ rows, row.2.size = size row.1)
    (some : 0 < n) (pos : 0 < size i) :
    ∃ m ≤ n, 0 < m ∧ stopAt (i + n) 0 rows = i + m ∧
      (m = 1 ∨ ((List.range' i m).map size).sum ≤ REPLICATION_BYTES) ∧
      (m < n → REPLICATION_BYTES < ((List.range' i m).map size).sum + size (i + m)) := by
  cases rows with
  | nil =>
    have length := congrArg List.length keys
    rw [List.length_range'] at length
    exact absurd length (Nat.ne_of_lt some)
  | cons row rows =>
    obtain ⟨index, slot⟩ := row
    obtain ⟨n, rfl⟩ := Nat.exists_eq_succ_of_ne_zero (Nat.ne_of_gt some)
    rw [List.map_cons, List.range'_succ, List.cons.injEq] at keys
    obtain ⟨rfl, rest⟩ := keys
    have here : slot.size = size index := sizes _ List.mem_cons_self
    rw [stopAt, here, if_neg (fun exceeds => Nat.lt_irrefl 0 exceeds.1), Nat.zero_add]
    obtain ⟨m, le, stop, within, next⟩ := stopAt_after rest
      (fun row mem => sizes row (List.mem_cons_of_mem _ mem)) pos
    have sum : ((List.range' index (m + 1)).map size).sum =
        size index + ((List.range' (index + 1) m).map size).sum := by
      rw [List.range'_succ, List.map_cons, List.sum_cons]
    refine ⟨m + 1, Nat.succ_le_succ le, Nat.succ_pos m, ?_, ?_, fun more => ?_⟩
    · have shift : index + n.succ = index + 1 + n := by omega
      rw [shift, stop]
      omega
    · rw [sum]
      exact within.imp (fun none => by rw [none]) fun within => within
    · rw [sum, Nat.add_comm m 1, ← Nat.add_assoc]
      exact next (Nat.lt_of_succ_lt_succ more)

/-- How an entry is encoded. -/
structure EntryFormat where
  Entry : Type
  encode : Entry → Bytes
  decode : Bytes → Except ReadError Entry
  decode_encode : ∀ e, decode (encode e) = .ok e
  encode_ne_nil : ∀ e, encode e ≠ []

variable {format : EntryFormat}

/-- The encoded size of some entries. -/
def EntryFormat.size (format : EntryFormat) (run : List format.Entry) : Nat :=
  (run.map fun e => (format.encode e).length).sum

/-- The indexes of a range inside the log. -/
theorem Inv.scan_inside (inv : s.Inv) {start stop : Nat}
    (inside : ∀ k, start ≤ k → k < stop → (s.log k).isSome) :
    (Table.scan s.state.entries fun k => decide (start ≤ k) && decide (k < stop)).map Prod.fst =
      List.range' start (stop - start) := by
  have ascending : (List.range' start (stop - start)).Pairwise (compare · · = .lt) :=
    List.Pairwise.imp (fun less => Nat.compare_eq_lt.mpr less) List.pairwise_lt_range'
  have ascending' : ((List.range U64_MAX).filter fun k =>
      (decide (start ≤ k) && decide (k < stop)) && (s.log k).isSome).Pairwise (compare · · = .lt) :=
    (List.pairwise_lt_range.filter _).imp fun less => Nat.compare_eq_lt.mpr less
  rw [inv.scan_keys]
  refine ascending_eq_of_mem_iff ascending' ascending fun k => ?_
  rw [List.mem_filter, List.mem_range, List.mem_range'_1, Bool.and_eq_true, Bool.and_eq_true,
    decide_eq_true_eq, decide_eq_true_eq]
  constructor
  · rintro ⟨-, ⟨le, less⟩, -⟩
    omega
  · rintro ⟨le, less⟩
    have some := inside k le (by omega)
    exact ⟨inv.bound k some, ⟨le, by omega⟩, some⟩

/-- A limited read of a range inside the log gives the first entries of the range, each the one last
appended there: one at least, no more than fit unless it is a single one, and all that fit. -/
theorem limited_read (opened : Opened wal replay) {cacheLimit : Nat}
    (steps : Relation.ReflTransGen Step (open_ wal replay cacheLimit) s)
    (encoded : ∀ k arc, s.log k = some arc → ∃ e, arc.bytes = format.encode e) {start stop : Nat}
    (less : start < stop) (inside : ∀ k, start ≤ k → k < stop → (s.log k).isSome) :
    ∃ run, s.state.limitedGetLogEntries format.decode s.wal start stop = .ok run ∧ run ≠ [] ∧
      start + run.length ≤ stop ∧
      (∀ i e, run[i]? = some e →
        ∃ arc, s.log (start + i) = some arc ∧ arc.bytes = format.encode e) ∧
      (run.length = 1 ∨ format.size run ≤ REPLICATION_BYTES) ∧
      (start + run.length < stop → ∃ arc, s.log (start + run.length) = some arc ∧
        REPLICATION_BYTES < format.size run + arc.bytes.length) := by
  have inv := inv_of_steps opened steps
  have asked : ∀ k, start ≤ k → k < stop → ∃ e arc, s.log k = some arc ∧
      arc.bytes = format.encode e := by
    intro k le lt
    obtain ⟨arc, found⟩ := Option.isSome_iff_exists.mp (inside k le lt)
    obtain ⟨e, bytes⟩ := encoded k arc found
    exact ⟨e, arc, found, bytes⟩
  obtain ⟨first, -⟩ := asked start (Nat.le_refl _) less
  have : Nonempty format.Entry := ⟨first⟩
  choose! entryAt log using asked
  have here : ∀ k, start ≤ k → k < stop → bytesAt s.log k = format.encode (entryAt k) := by
    intro k le lt
    obtain ⟨arc, found, bytes⟩ := log k le lt
    rw [bytesAt, found]
    exact bytes
  have sizes : ∀ row ∈ Table.scan s.state.entries fun k => decide (start ≤ k) && decide (k < stop),
      row.2.size = (bytesAt s.log row.1).length := by
    intro row mem
    obtain ⟨arc, src, found, -, -, size⟩ :=
      inv.load format.decode (Table.mem_scan.mp (show (row.1, row.2) ∈ _ from mem)).1
    rw [size, bytesAt, found]
    rfl
  have pos : 0 < (bytesAt s.log start).length := by
    rw [here start (Nat.le_refl _) less]
    exact List.length_pos_iff.mpr (format.encode_ne_nil _)
  obtain ⟨m, le, some, stops, within, next⟩ :=
    stopAt_first (fun k => (bytesAt s.log k).length) (inv.scan_inside inside) sizes
      (Nat.sub_pos_of_lt less) pos
  rw [Nat.add_sub_cancel' (Nat.le_of_lt less)] at stops
  have read : s.state.limitedGetLogEntries format.decode s.wal start stop =
      .ok ((List.range' start m).map entryAt) := by
    rw [State.limitedGetLogEntries]
    simp only [stops]
    rw [inv.tryGet, inv.scan_inside fun k le lt => inside k le (by omega), Nat.add_sub_cancel_left]
    refine mapM_eq_pure fun k mem => ?_
    rw [List.mem_range'_1] at mem
    rw [here k mem.1 (by omega), format.decode_encode]
    rfl
  have size : format.size ((List.range' start m).map entryAt) =
      ((List.range' start m).map fun k => (bytesAt s.log k).length).sum := by
    rw [EntryFormat.size, List.map_map]
    refine congrArg List.sum (List.map_congr_left fun k mem => ?_)
    rw [List.mem_range'_1] at mem
    rw [here k mem.1 (by omega)]
    rfl
  have length : ((List.range' start m).map entryAt).length = m := by simp
  refine ⟨(List.range' start m).map entryAt, read, ?_, ?_, fun i e found => ?_, ?_, fun more => ?_⟩
  · rw [← List.length_pos_iff, length]
    exact some
  · rw [length]
    omega
  · obtain ⟨short, at_⟩ := List.getElem?_eq_some_iff.mp found
    rw [length] at short
    rw [List.getElem_map, List.getElem_range', Nat.one_mul] at at_
    rw [← at_]
    exact log (start + i) (by omega) (by omega)
  · rw [length, size]
    exact within
  · rw [length] at more ⊢
    obtain ⟨arc, found, bytes⟩ := log (start + m) (by omega) more
    have last := next (by omega)
    rw [here (start + m) (by omega) more, ← bytes] at last
    rw [size]
    exact ⟨arc, found, last⟩

/-- Entries of one byte. -/
def byteFormat : EntryFormat where
  Entry := UInt8
  encode b := [b]
  decode
    | [b] => .ok b
    | bytes => .error (.undecodable bytes)
  decode_encode _ := rfl
  encode_ne_nil _ := nofun

theorem limited_read_one :
    ∃ run, one.state.limitedGetLogEntries byteFormat.decode one.wal 1 2 = .ok run ∧ run ≠ [] := by
  have only : ∀ k arc, one.log k = some arc → k = 1 ∧ arc = ⟨7, [9]⟩ := by
    intro k arc found
    rcases Entries.append_cases found with old | new
    · rw [log_fresh] at old
      exact nomatch old
    · exact new
  have encoded : ∀ k arc, one.log k = some arc → ∃ e, arc.bytes = byteFormat.encode e := by
    intro k arc found
    exact ⟨(9 : UInt8), by rw [(only k arc found).2]; rfl⟩
  have inside : ∀ k, 1 ≤ k → k < 2 → (one.log k).isSome := by
    intro k le lt
    obtain rfl : k = 1 := by omega
    rfl
  obtain ⟨run, read, some, -⟩ :=
    limited_read opened_fresh steps_one encoded (Nat.lt_succ_self 1) inside
  exact ⟨run, read, some⟩

end Store

end Fastetcd.Raft
