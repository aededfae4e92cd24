import Fastetcd.Laws.Storage.RaftLog
import Fastetcd.Raft.PurgePoint

/-!
# The purge point only moves forward

The writer appends purges in the order they are sent, so it is enough that they are sent in order.
Where purges are orderly, whoever may still send one (`Covers`) has one that no purge sent so far is
above: the held purge, the one RaftCore is about to complete, and the one the checkpointer has read.
The three are ordered among themselves, so that sending one leaves the others so (`Inv`).

Otherwise the checkpointer may send the purge it has read after RaftCore has sent a later one, which
is then forgotten (`purge_point_moves_back`).
-/

namespace Fastetcd.Raft.Purging

open Storage Config

/-! ## The purges in a WAL -/

/-- The index of a purge record. -/
def purgeOf (r : Record) : Option Nat := if r.kind = .purge then some r.index else none

/-- The purges appended, in order. -/
def purgesIn (appended : List (Loc × Record)) : List Nat :=
  (appended.map Prod.snd).filterMap purgeOf

/-- The purges sent and not appended, in order. -/
def purgesSent (queue : List Cmd) : List Nat :=
  (queue.flatMap fun cmd => cmd.records.map CmdRecord.record).filterMap purgeOf

theorem purgesIn_append (a b : List (Loc × Record)) : purgesIn (a ++ b) = purgesIn a ++ purgesIn b := by
  simp [purgesIn]

theorem purgesSent_append (a b : List Cmd) : purgesSent (a ++ b) = purgesSent a ++ purgesSent b := by
  simp [purgesSent]

theorem purgesSent_completePurge (id : LogId) (ptr : Nat) :
    purgesSent [State.completePurge id ptr] = [id.index] := rfl

/-- A command without a purge. -/
theorem purgesSent_of_other {cmd : Cmd} (other : ∀ r ∈ cmd.records, r.kind ≠ .purge) :
    purgesSent [cmd] = [] := by
  simp only [purgesSent, List.flatMap_singleton, List.filterMap_eq_nil_iff, List.mem_map,
    forall_exists_index, and_imp, forall_apply_eq_imp_iff₂, purgeOf]
  intro r mem
  exact if_neg (other r mem)

/-- A log's purge is the last one appended. -/
theorem purge_run (rows : List (Loc × Record)) :
    (Log.run {} rows).sticky.purge.map Record.index = (purgesIn rows).getLast? := by
  induction rows using List.reverseRecOn with
  | nil => rfl
  | append_singleton rows row ih =>
    rw [Log.run_concat, Log.sticky_apply, Log.purge_insert, purgesIn_append]
    by_cases kind : row.2.kind = .purge
    · simp [purgesIn, purgeOf, kind]
    · rw [if_neg kind, ih]
      simp [purgesIn, purgeOf, kind]

theorem length_locs {spares : Nat → Spare} {ready : Bool} {wal wal' : Wal} {records : List Record}
    {locs : List Loc} (done : wal.append spares ready records = some (wal', locs)) :
    locs.length = records.length := by
  rw [Wal.append_eq] at done
  generalize (if wal.preallocatedOnly ∧ wal.offset > 0 ∧ ready then
    wal.roll (spares (wal.last.file.seq + 1)) else wal) = wal at done
  induction records generalizing wal locs with
  | nil =>
    cases done
    rfl
  | cons r records ih =>
    rw [Wal.appendEach] at done
    split at done
    · cases done
    · obtain ⟨⟨_, rest⟩, appended, same⟩ := Option.map_eq_some_iff.mp done
      cases same
      rw [List.length_cons, List.length_cons, ih _ appended]

theorem purgesIn_zip {locs : List Loc} {records : List Record} (same : locs.length = records.length) :
    purgesIn (locs.zip records) = records.filterMap purgeOf := by
  rw [purgesIn, List.map_snd_zip same.ge]

/-! ## What the calls do to the purges -/

/-- A log id as a mark: `index + 1`, and 0 for none. -/
def markOf (p : Option LogId) : Nat := p.elim 0 (·.index + 1)

section State

variable (st : State)

theorem forget_purges (gone : Table Nat Slot) :
    (st.forget gone).lastPurged = st.lastPurged ∧
      (st.forget gone).pendingPurge = st.pendingPurge := by
  unfold State.forget
  generalize gone.toList = rows
  induction rows generalizing st with
  | nil => exact ⟨rfl, rfl⟩
  | cons row rows ih =>
    rw [List.foldl_cons]
    cases bytes : row.2.bytes with
    | none => exact ih st
    | some b => exact ih { st with cachedBytes := st.cachedBytes - b.bytes.length }

theorem removeFrom_purges (index : Nat) :
    (st.removeFrom index).lastPurged = st.lastPurged ∧
      (st.removeFrom index).pendingPurge = st.pendingPurge :=
  forget_purges _ _

theorem append_purges (entries : List Encoded) :
    (st.append entries).1.lastPurged = st.lastPurged ∧
      (st.append entries).1.pendingPurge = st.pendingPurge := by
  rw [State.append]
  induction entries generalizing st with
  | nil => exact ⟨rfl, rfl⟩
  | cons e entries ih =>
    obtain ⟨last, pending⟩ := ih (st.appendEntry e)
    obtain ⟨last', pending'⟩ := removeFrom_purges st e.index
    exact ⟨last.trans last', pending.trans pending'⟩

theorem evict_purges (rows : List (Nat × Slot)) :
    (st.evict rows).lastPurged = st.lastPurged ∧
      (st.evict rows).pendingPurge = st.pendingPurge := by
  fun_induction State.evict st rows with
  | case1 => exact ⟨rfl, rfl⟩
  | case2 => exact ⟨rfl, rfl⟩
  | case3 _ _ _ _ _ ih => exact ih

theorem place_purges (placed : List Placed) :
    (st.place placed).lastPurged = st.lastPurged ∧
      (st.place placed).pendingPurge = st.pendingPurge := by
  rw [State.place]
  split
  · exact ⟨rfl, rfl⟩
  · exact evict_purges _ _

/-- A purge that is not below an earlier one is the last one and is held. -/
theorem purge_purges {id : LogId} (forward : ∀ p ∈ st.lastPurged, p.index ≤ id.index)
    (behind : markOf st.pendingPurge ≤ markOf st.lastPurged) :
    markOf (st.purge id).1.lastPurged = id.index + 1 ∧
      ∃ p, (st.purge id).1.pendingPurge = some p ∧ p.index = id.index := by
  obtain ⟨last, pending⟩ := forget_purges
    { st with entries := st.entries.filter fun k _ => decide (min (id.index + 1) U64_MAX ≤ k) }
    (st.entries.filter fun k _ => decide (k < min (id.index + 1) U64_MAX))
  simp only [State.purge, State.removeUpto, last, pending]
  constructor
  · split
    · rfl
    · next later =>
      obtain ⟨q, was, above⟩ : ∃ q, st.lastPurged = some q ∧ id.index ≤ q.index := by
        cases was : st.lastPurged with
        | none => simp [was] at later
        | some q => exact ⟨q, rfl, by simpa [was] using later⟩
      rw [was]
      exact congrArg (· + 1) (le_antisymm (forward q was) above)
  · split
    · exact ⟨id, rfl, rfl⟩
    · next later =>
      cases held : st.pendingPurge with
      | none => simp [held] at later
      | some p =>
        have above : id.index ≤ p.index := by simpa [held] using later
        refine ⟨p, rfl, le_antisymm ?_ above⟩
        cases was : st.lastPurged with
        | none => simp [held, was, markOf] at behind
        | some q =>
          have below : p.index ≤ q.index := by simpa [held, was, markOf] using behind
          exact below.trans (forward q was)

theorem purgeDone_purges (id : LogId) :
    (st.purgeDone id).lastPurged = st.lastPurged ∧
      ∀ p ∈ (st.purgeDone id).pendingPurge, p ∈ st.pendingPurge := by
  rw [State.purgeDone]
  split
  · exact ⟨rfl, nofun⟩
  · exact ⟨rfl, fun _ held => held⟩

end State

/-! ## Purges in order -/

/-- Whoever may still send this purge is behind none that is sent. -/
structure Covers (st : State) (sent : List Nat) (id : LogId) : Prop where
  above : ∀ i ∈ sent, i ≤ id.index
  known : id.index < markOf st.lastPurged

/-- What holds where purges are orderly, with the records appended. -/
structure Inv (c : Config) (appended : List (Loc × Record)) : Prop where
  means : c.wal.Means appended
  ordered : (purgesIn appended ++ purgesSent c.queue).Pairwise (· ≤ ·)
  known : ∀ i ∈ purgesIn appended ++ purgesSent c.queue, i < markOf c.state.lastPurged
  pending : ∀ p ∈ c.state.pendingPurge,
    Covers c.state (purgesIn appended ++ purgesSent c.queue) p
  core : ∀ {id}, c.core = .syncing id → markOf c.state.lastPurged = id.index + 1 ∧
    ∀ p ∈ c.state.pendingPurge, id.index ≤ p.index
  held : ∀ p ∈ c.checkpointer.held,
    Covers c.state (purgesIn appended ++ purgesSent c.queue) p ∧
      (∀ q ∈ c.state.pendingPurge, p.index ≤ q.index) ∧
      ∀ {id}, c.core = .syncing id → id.index ≤ p.index
  drops : ∀ cmd ∈ c.queue, ∀ d ∈ cmd.dropUpto, d ∈ purgesSent [cmd]
  group : ∀ d ∈ dropUpto c.writer.group, d ∈ purgesIn appended
  dropped : ∀ i ∈ c.dropped, ∃ j ∈ purgesIn appended, i ≤ j

/-- The last of the purges in order is at or past every one. -/
theorem le_last_purge {appended : List (Loc × Record)}
    (ordered : (purgesIn appended).Pairwise (· ≤ ·)) {i : Nat} (mem : i ∈ purgesIn appended) :
    ∃ purge, (Log.run {} appended).sticky.purge = some purge ∧ i ≤ purge.index := by
  obtain ⟨before, last, split⟩ :=
    (List.eq_nil_or_concat' _).resolve_left (List.ne_nil_of_mem mem)
  have same := purge_run appended
  rw [split, List.getLast?_concat] at same
  obtain ⟨purge, purged, rfl⟩ := Option.map_eq_some_iff.mp same
  refine ⟨purge, purged, ?_⟩
  rw [split] at ordered mem
  rcases List.mem_append.mp mem with old | own
  · exact (List.pairwise_append.mp ordered).2.2 i old _ (List.mem_singleton_self _)
  · exact (List.mem_singleton.mp own).le

theorem mem_dropUpto_concat {group : List Cmd} {cmd : Cmd} {d : Nat}
    (mem : d ∈ dropUpto (group ++ [cmd])) : d ∈ dropUpto group ∨ d ∈ cmd.dropUpto := by
  rw [dropUpto, List.foldl_concat, ← dropUpto] at mem
  split at mem
  · exact .inl mem
  · next x own =>
    rw [own]
    cases upto : dropUpto group with
    | none =>
      rw [upto] at mem
      exact .inr mem
    | some y =>
      rw [upto] at mem
      obtain rfl : max y x = d := Option.some.inj mem
      rcases max_choice y x with first | second
      · rw [first]
        exact .inl rfl
      · rw [second]
        exact .inr rfl

section Steps

variable {c d : Config} {appended : List (Loc × Record)}

/-- With less to send it still holds. -/
theorem Inv.less (inv : Inv c appended) (means : d.wal.Means appended) (queue : d.queue = c.queue)
    (group : ∀ x ∈ dropUpto d.writer.group, x ∈ purgesIn appended)
    (dropped : ∀ i ∈ d.dropped, ∃ j ∈ purgesIn appended, i ≤ j)
    (last : d.state.lastPurged = c.state.lastPurged)
    (pending : ∀ p ∈ d.state.pendingPurge, p ∈ c.state.pendingPurge)
    (core : ∀ {id}, d.core = .syncing id → c.core = .syncing id)
    (held : ∀ p ∈ d.checkpointer.held, p ∈ c.checkpointer.held) : Inv d appended := by
  have covers {id : LogId} (h : Covers c.state (purgesIn appended ++ purgesSent c.queue) id) :
      Covers d.state (purgesIn appended ++ purgesSent c.queue) id := ⟨h.above, last ▸ h.known⟩
  refine ⟨means, queue ▸ inv.ordered, ?_, fun p mem => ?_, fun at_ => ?_, fun p mem => ?_,
    queue ▸ inv.drops, group, dropped⟩
  · rw [queue, last]
    exact inv.known
  · rw [queue]
    exact covers (inv.pending p (pending p mem))
  · rw [last]
    obtain ⟨mark, behind⟩ := inv.core (core at_)
    exact ⟨mark, fun p mem => behind p (pending p mem)⟩
  · rw [queue]
    obtain ⟨covered, behind, ahead⟩ := inv.held p (held p mem)
    exact ⟨covers covered, fun q mem => behind q (pending q mem), fun at_ => ahead (core at_)⟩

/-- A command is sent whose purges, if any, are ones that nobody still waiting to send is behind. -/
theorem Inv.send (inv : Inv c appended) {cmd : Cmd} (single : (purgesSent [cmd]).Pairwise (· ≤ ·))
    (covered : ∀ i ∈ purgesSent [cmd],
      (∀ j ∈ purgesIn appended ++ purgesSent c.queue, j ≤ i) ∧ i < markOf c.state.lastPurged ∧
        (∀ p ∈ c.state.pendingPurge, i ≤ p.index) ∧ ∀ p ∈ c.checkpointer.held, i ≤ p.index)
    (drops : ∀ d ∈ cmd.dropUpto, d ∈ purgesSent [cmd]) : Inv (c.send cmd) appended := by
  have sent : purgesIn appended ++ purgesSent (c.queue ++ [cmd]) =
      (purgesIn appended ++ purgesSent c.queue) ++ purgesSent [cmd] := by
    rw [purgesSent_append, List.append_assoc]
  have covers {id : LogId} (h : Covers c.state (purgesIn appended ++ purgesSent c.queue) id)
      (above : ∀ i ∈ purgesSent [cmd], i ≤ id.index) :
      Covers c.state (purgesIn appended ++ purgesSent (c.queue ++ [cmd])) id := by
    refine ⟨fun i mem => ?_, h.known⟩
    rw [sent] at mem
    exact (List.mem_append.mp mem).elim (h.above i) (above i)
  refine ⟨inv.means, ?_, fun i mem => ?_, fun p mem => ?_, inv.core, fun p mem => ?_,
    fun other mem => ?_, inv.group, inv.dropped⟩
  · rw [Config.send, sent, List.pairwise_append]
    exact ⟨inv.ordered, single, fun j old i new => (covered i new).1 j old⟩
  · rw [Config.send, sent] at mem
    exact (List.mem_append.mp mem).elim (inv.known i) fun new => (covered i new).2.1
  · exact covers (inv.pending p mem) fun i new => (covered i new).2.2.1 p mem
  · obtain ⟨covered', behind, ahead⟩ := inv.held p mem
    exact ⟨covers covered' fun i new => (covered i new).2.2.2 p mem, behind, ahead⟩
  · rcases List.mem_append.mp mem with old | new
    · exact inv.drops other old
    · rw [List.mem_singleton.mp new]
      exact drops

/-- A command without a purge is sent. -/
theorem Inv.sendOther (inv : Inv c appended) {cmd : Cmd}
    (other : ∀ r ∈ cmd.records, r.kind ≠ .purge) (keeps : cmd.dropUpto = none) :
    Inv (c.send cmd) appended := by
  have none := purgesSent_of_other other
  refine inv.send ?_ ?_ ?_
  · rw [none]
    exact .nil
  · rw [none]
    exact nofun
  · rw [keeps]
    exact nofun

theorem Inv.sendPurge (inv : Inv c appended) {id : LogId} (ptr : Nat)
    (covers : Covers c.state (purgesIn appended ++ purgesSent c.queue) id)
    (pending : ∀ p ∈ c.state.pendingPurge, id.index ≤ p.index)
    (held : ∀ p ∈ c.checkpointer.held, id.index ≤ p.index) :
    Inv (c.send (State.completePurge id ptr)) appended := by
  refine inv.send ?_ ?_ ?_
  · exact List.pairwise_singleton ..
  · rw [purgesSent_completePurge]
    intro i mem
    rw [List.mem_singleton.mp mem]
    exact ⟨covers.above, covers.known, pending, held⟩
  · rintro d ⟨⟩
    exact List.mem_singleton_self _

theorem Inv.purge (inv : Inv c appended) {id : LogId} (orderly : c.Orderly id) : Inv (c.purge id) appended := by
  obtain ⟨forward, alone⟩ := orderly
  have behind : markOf c.state.pendingPurge ≤ markOf c.state.lastPurged := by
    cases held : c.state.pendingPurge with
    | none => exact Nat.zero_le _
    | some p => exact (inv.pending p held).known
  obtain ⟨mark, p, pending, same⟩ := purge_purges c.state forward behind
  have below : markOf c.state.lastPurged ≤ id.index + 1 := by
    cases was : c.state.lastPurged with
    | none => exact Nat.zero_le _
    | some q => exact Nat.succ_le_succ (forward q was)
  have own : ∀ q ∈ (c.purge id).state.pendingPurge, q = p := fun q mem =>
    Option.some.inj (mem.symm.trans pending)
  have hole_of_syncing {id' : LogId} (at_ : (c.purge id).core = .syncing id') :
      c.PastLast id.index ∧ id = id' := by
    simp only [Config.purge] at at_
    split at at_
    · next hole => exact ⟨hole, Core.syncing.inj at_⟩
    · cases at_
  have covers {q : LogId} (h : Covers c.state (purgesIn appended ++ purgesSent c.queue) q) :
      Covers (c.state.purge id).1 (purgesIn appended ++ purgesSent c.queue) q :=
    ⟨h.above, by rw [mark]; exact h.known.trans_le below⟩
  refine ⟨inv.means, inv.ordered, fun i mem => ?_, fun q mem => ?_, fun at_ => ?_, fun q mem => ?_,
    inv.drops, inv.group, inv.dropped⟩
  · change i < markOf (c.state.purge id).1.lastPurged
    rw [mark]
    exact (inv.known i mem).trans_le below
  · rw [own q mem]
    refine ⟨fun i sent => ?_, ?_⟩
    · have := inv.known i sent
      omega
    · change p.index < markOf (c.state.purge id).1.lastPurged
      omega
  · obtain ⟨hole, rfl⟩ := hole_of_syncing at_
    exact ⟨mark, fun q mem => by rw [own q mem, same]⟩
  · obtain ⟨covered, -, -⟩ := inv.held q mem
    refine ⟨covers covered, fun r held => ?_, fun at_ => ?_⟩
    · rw [own r held, same]
      exact Nat.lt_succ_iff.mp (covered.known.trans_le below)
    · -- A purge past the last entry is made only while the checkpointer holds none.
      obtain ⟨hole, -⟩ := hole_of_syncing at_
      exact absurd (mem.symm.trans (alone hole)) (Option.some_ne_none q)

theorem Inv.checkpoint (inv : Inv c appended) (target : Nat) :
    Inv { c with checkpointer := .syncing target c.state.pendingPurge } appended :=
  ⟨inv.means, inv.ordered, inv.known, inv.pending, inv.core,
    fun p mem => ⟨inv.pending p mem, fun _ held =>
      (congrArg LogId.index (Option.some.inj (mem.symm.trans held))).le,
      fun at_ => (inv.core at_).2 p mem⟩,
    inv.drops, inv.group, inv.dropped⟩

/-- What RaftCore is about to complete. -/
theorem Inv.covers_core (inv : Inv c appended) {id : LogId} (at_ : c.core = .syncing id) :
    Covers c.state (purgesIn appended ++ purgesSent c.queue) id := by
  have mark := (inv.core at_).1
  refine ⟨fun i mem => ?_, by omega⟩
  have := inv.known i mem
  omega

theorem Inv.write (inv : Inv c appended) {group : List Cmd} {placed more : List Placed} {cmd : Cmd}
    {queue : List Cmd} {wal : Wal} {locs : List Loc} {spares : Nat → Spare} {ready : Bool}
    (at_ : c.writer = .appending group placed) (first : c.queue = cmd :: queue)
    (done : c.wal.append spares ready (cmd.records.map CmdRecord.record) = some (wal, locs)) :
    Inv { c with queue := queue, writer := .appending (group ++ [cmd]) more, wal := wal }
      (appended ++ locs.zip (cmd.records.map CmdRecord.record)) := by
  have own : purgesIn (locs.zip (cmd.records.map CmdRecord.record)) = purgesSent [cmd] := by
    rw [purgesIn_zip (length_locs done), purgesSent, List.flatMap_singleton]
  have sent : purgesIn (appended ++ locs.zip (cmd.records.map CmdRecord.record)) ++
      purgesSent queue = purgesIn appended ++ purgesSent c.queue := by
    rw [purgesIn_append, own, first, List.append_assoc, ← purgesSent_append, List.singleton_append]
  have earlier {i : Nat} (mem : i ∈ purgesIn appended) :
      i ∈ purgesIn (appended ++ locs.zip (cmd.records.map CmdRecord.record)) := by
    rw [purgesIn_append]
    exact List.mem_append_left _ mem
  have drops := inv.drops
  rw [first] at drops
  refine ⟨inv.means.append done, ?_, ?_, ?_, inv.core, ?_,
    fun other mem => drops other (List.mem_cons_of_mem _ mem), fun d mem => ?_, fun i mem => ?_⟩
  · rw [sent]
    exact inv.ordered
  · rw [sent]
    exact inv.known
  · rw [sent]
    exact inv.pending
  · rw [sent]
    exact inv.held
  · rcases mem_dropUpto_concat mem with old | new
    · have within := inv.group
      rw [at_] at within
      exact earlier (within d old)
    · rw [purgesIn_append, own]
      exact List.mem_append_right _ (drops cmd List.mem_cons_self d new)
  · obtain ⟨j, mem, le⟩ := inv.dropped i mem
    exact ⟨j, earlier mem, le⟩

theorem Inv.answer (inv : Inv c appended) {group : List Cmd} {placed : List Placed}
    (at_ : c.writer = .synced group placed) :
    Inv { c.dropSegments (dropUpto group) with
      state := c.state.place placed
      writer := .appending [] []
      answered := c.answered + group.length } appended := by
  obtain ⟨last, pending⟩ := place_purges c.state placed
  have within := inv.group
  rw [at_] at within
  have ordered := (List.pairwise_append.mp inv.ordered).1
  have kept : ∀ p ∈ (c.state.place placed).pendingPurge, p ∈ c.state.pendingPurge := fun _ mem =>
    pending.symm.trans mem
  cases upto : dropUpto group with
  | none =>
    exact inv.less inv.means rfl nofun inv.dropped last kept (fun at_ => at_) fun _ held => held
  | some d =>
    have drop := within d upto
    obtain ⟨purge, purged, covered⟩ := le_last_purge ordered drop
    refine inv.less (inv.means.dropSegmentsUpto purged covered) rfl nofun (fun i mem => ?_) last kept
      (fun at_ => at_) fun _ held => held
    rcases List.mem_append.mp mem with old | new
    · exact inv.dropped i old
    · obtain ⟨segment, gone, most⟩ := List.mem_filterMap.mp new
      have low := List.mem_takeWhile_imp gone
      rw [most] at low
      exact ⟨d, drop, by simpa using low⟩

theorem Inv.opened {wal : Wal} (means : wal.Means appended)
    (ordered : (purgesIn appended).Pairwise (· ≤ ·)) {replay : Replay}
    (sticky : replay.sticky = (Log.run {} appended).sticky) (cacheLimit : Nat) {dropped : List Nat}
    (below : ∀ i ∈ dropped, ∃ j ∈ purgesIn appended, i ≤ j) :
    Inv (Config.opened wal replay cacheLimit dropped) appended := by
  have sent : purgesIn appended ++ purgesSent [] = purgesIn appended := List.append_nil _
  refine ⟨means, ?_, fun i mem => ?_, nofun, nofun, nofun, nofun, nofun, below⟩
  · change (purgesIn appended ++ purgesSent []).Pairwise (· ≤ ·)
    rwa [sent]
  · change i ∈ purgesIn appended ++ purgesSent [] at mem
    rw [sent] at mem
    obtain ⟨purge, purged, le⟩ := le_last_purge ordered mem
    simp only [Config.opened, Store.open_, sticky, purged, markOf]
    exact Nat.lt_succ_of_le le

/-- One step keeps it, and appends to what was appended. -/
theorem Step.inv (inv : Inv c appended) (step : Step True c d) :
    ∃ more, Inv d (appended ++ more) := by
  have none {d : Config} (h : Inv d appended) : ∃ more, Inv d (appended ++ more) :=
    ⟨[], by rwa [List.append_nil]⟩
  cases step with
  | append entries free =>
    obtain ⟨last, pending⟩ := append_purges c.state entries
    have sent : Inv (c.send (c.state.append entries).2) appended := by
      refine inv.sendOther (fun r mem => ?_) rfl
      obtain ⟨e, -, rfl⟩ := List.mem_map.mp mem
      exact nofun
    exact none (sent.less sent.means rfl sent.group sent.dropped last
      (fun _ mem => pending.symm.trans mem) (fun at_ => at_) fun _ held => held)
  | truncate id ptr free =>
    obtain ⟨last, pending⟩ := removeFrom_purges c.state id.index
    have sent : Inv (c.send (c.state.truncate id ptr).2) appended := by
      refine inv.sendOther (fun r mem => ?_) rfl
      rw [List.mem_singleton.mp mem]
      exact nofun
    exact none (sent.less sent.means rfl sent.group sent.dropped last
      (fun _ mem => pending.symm.trans mem) nofun fun _ held => held)
  | note cmd other keeps =>
    refine none (inv.sendOther (fun r mem kind => ?_) keeps)
    rcases other r mem with vote | committed
    · cases kind.symm.trans vote
    · cases kind.symm.trans committed
  | purge id free orderly => exact none (inv.purge (orderly trivial))
  | truncated | syncFailed =>
    exact none (inv.less inv.means rfl inv.group inv.dropped rfl (fun _ held => held) nofun
      fun _ held => held)
  | holePurge ptr at_ =>
    have sent := inv.sendPurge ptr (inv.covers_core at_) (inv.core at_).2
      fun p mem => (inv.held p mem).2.2 at_
    exact none (sent.less sent.means rfl sent.group sent.dropped rfl (fun _ held => held) nofun
      fun _ held => held)
  | @holePurged id upto at_ answered =>
    obtain ⟨last, pending⟩ := purgeDone_purges c.state id
    exact none (inv.less inv.means rfl inv.group inv.dropped last pending nofun fun _ held => held)
  | checkpoint target => exact none (inv.checkpoint target)
  | checkpointFailed | noPurge =>
    exact none (inv.less inv.means rfl inv.group inv.dropped rfl (fun _ held => held)
      (fun at_ => at_) nofun)
  | @completePurge target id ptr at_ behind =>
    have held : id ∈ c.checkpointer.held := by
      rw [at_]
      rfl
    obtain ⟨covers, pending, -⟩ := inv.held id held
    have sent := inv.sendPurge ptr covers pending fun p mem =>
      (congrArg LogId.index (Option.some.inj (held.symm.trans mem))).le
    exact none (sent.less sent.means rfl sent.group sent.dropped rfl (fun _ held => held)
      (fun at_ => at_) nofun)
  | @purged id upto at_ answered =>
    obtain ⟨last, pending⟩ := purgeDone_purges c.state id
    exact none (inv.less inv.means rfl inv.group inv.dropped last pending (fun at_ => at_) nofun)
  | write spares ready at_ room first done => exact ⟨_, inv.write at_ first done⟩
  | @sync group placed at_ =>
    have within := inv.group
    rw [at_] at within
    refine none (inv.less ?_ rfl within inv.dropped rfl (fun _ held => held) (fun at_ => at_)
      fun _ held => held)
    change (if group.any Cmd.sync then c.wal.sync else c.wal).Means appended
    split
    · exact inv.means.sync
    · exact inv.means
  | answer at_ => exact none (inv.answer at_)
  | reopen segmentBytes room cacheLimit done =>
    exact none (.opened (inv.means.reopen done) (List.pairwise_append.mp inv.ordered).1
      (inv.means.sticky_of_open done) cacheLimit inv.dropped)

theorem Start.inv (start : Start c) : Inv c [] := by
  cases start with
  | create segmentBytes room cacheLimit done =>
    cases done
    exact .opened ⟨_, _, _, Wal.holds_create segmentBytes room, rfl⟩ .nil rfl cacheLimit nofun

theorem Steps.inv (steps : Steps True c d) (inv : Inv c appended) :
    ∃ more, Inv d (appended ++ more) := by
  induction steps with
  | refl => exact ⟨[], by rwa [List.append_nil]⟩
  | tail _ step ih =>
    obtain ⟨more, inv⟩ := ih
    obtain ⟨rest, inv⟩ := step.inv inv
    exact ⟨more ++ rest, by rwa [← List.append_assoc]⟩

/-- What an open replays is the last purge appended. -/
theorem Inv.replayed (inv : Inv c appended) (segmentBytes room : Nat) :
    c.replayed segmentBytes room = .ok (purgeMark (Log.run {} appended).sticky) := by
  obtain ⟨wal, replay, opens⟩ := inv.means.opens segmentBytes room
  rw [Config.replayed, opens, ← inv.means.sticky_of_open opens]
  rfl

/-- Purges appended in order move the mark forward. -/
theorem purgeMark_append {more : List (Loc × Record)}
    (ordered : (purgesIn (appended ++ more)).Pairwise (· ≤ ·)) :
    purgeMark (Log.run {} appended).sticky ≤ purgeMark (Log.run {} (appended ++ more)).sticky := by
  cases was : (Log.run {} appended).sticky.purge with
  | none =>
    rw [purgeMark, was]
    exact Nat.zero_le _
  | some purge =>
    have last := purge_run appended
    rw [was] at last
    have mem : purge.index ∈ purgesIn (appended ++ more) := by
      rw [purgesIn_append]
      exact List.mem_append_left _ (List.mem_of_getLast? last.symm)
    obtain ⟨later, now, le⟩ := le_last_purge ordered mem
    rw [purgeMark, purgeMark, was, now]
    exact Nat.succ_le_succ le

end Steps

/-- Where no purge is below an earlier one, and none past the last entry is made while the
checkpointer holds a purge it has read: what an open of the WAL would replay never decreases, and it
is past every entry of a deleted segment. -/
theorem purge_point_monotone {start c d : Config} (begun : Start start)
    (before : Steps True start c) (later : Steps True c d) (segmentBytes room : Nat) :
    ∃ m n, c.replayed segmentBytes room = .ok m ∧ d.replayed segmentBytes room = .ok n ∧ m ≤ n ∧
      ∀ i ∈ d.dropped, i < n := by
  obtain ⟨appended, inv⟩ := Steps.inv before begun.inv
  obtain ⟨more, inv'⟩ := Steps.inv later inv
  have ordered := (List.pairwise_append.mp inv'.ordered).1
  refine ⟨_, _, inv.replayed segmentBytes room, inv'.replayed segmentBytes room,
    purgeMark_append ordered, fun i mem => ?_⟩
  obtain ⟨j, purged, le⟩ := inv'.dropped i mem
  obtain ⟨purge, last, below⟩ := le_last_purge ordered purged
  rw [purgeMark, last]
  exact Nat.lt_succ_of_le (le.trans below)

/-! ## A purge overtaken

Entries 0 and 1 are appended. The purge of 0 is held and the checkpointer reads it. A snapshot is
installed and RaftCore purges up to 5, past the last entry. Then the checkpointer goes on. -/

/-- A log id, its encoding left empty. -/
def idAt (index : Fin (256 ^ 8)) : LogId := ⟨index, [], (Wal.bare .purge index).index_lt⟩

def entryAt (index : Fin (256 ^ 8)) : Encoded := ⟨index, ⟨index, []⟩, (idAt index).index_lt⟩

def startConfig : Config := opened Wal.fresh {} 0 []

theorem start_startConfig : Start startConfig := .create 0 0 0 rfl

theorem core_purge_past {c : Config} {id : LogId}
    (entries : ∀ k ∈ c.state.entries.keys, k < id.index)
    (last : ∀ p ∈ c.state.lastPurged, p.index < id.index) : (c.purge id).core = .syncing id := by
  refine if_pos ?_
  change (c.state.entries.maxKey?.or (c.state.lastPurged.map LogId.index)).all (· < id.index) = true
  cases top : c.state.entries.maxKey? with
  | none =>
    cases was : c.state.lastPurged with
    | none => rfl
    | some p => simpa using last p was
  | some k =>
    have mem := (Std.ExtTreeMap.maxKey?_eq_some_iff_mem_and_forall.mp top).1
    simpa using entries k (Std.ExtTreeMap.mem_keys.mpr mem)

theorem core_purge_within {c : Config} {id : LogId} {k : Nat} (entry : k ∈ c.state.entries)
    (above : id.index ≤ k) : (c.purge id).core = .free := by
  refine if_neg ?_
  change ¬(c.state.entries.maxKey?.or (c.state.lastPurged.map LogId.index)).all (· < id.index) = true
  cases top : c.state.entries.maxKey? with
  | none =>
    rw [Std.ExtTreeMap.maxKey?_eq_none_iff] at top
    rw [top] at entry
    exact absurd entry Std.ExtTreeMap.not_mem_empty
  | some m =>
    have most := (Std.ExtTreeMap.maxKey?_eq_some_iff_mem_and_forall.mp top).2 k entry
    have le : k ≤ m := Nat.isLE_compare.mp most
    simp
    omega

/-- The checkpointer completes the purge it has read. -/
theorem purge_point_monotone_held : Start startConfig ∧ ∃ d, Steps True startConfig d ∧
    d.replayed 0 0 = .ok 1 ∧ ∃ m n, startConfig.replayed 0 0 = .ok m ∧
      d.replayed 0 0 = .ok n ∧ m ≤ n ∧ ∀ i ∈ d.dropped, i < n := by
  have appended : Steps True startConfig _ := .single (.append [entryAt 0, entryAt 1] rfl)
  have orderly := appended.tail (.purge (idAt 0) rfl fun _ => ⟨by decide +kernel, fun _ => rfl⟩)
  have sent := (orderly.tail (.checkpoint 2 rfl)).tail (@Step.completePurge True _ 2 (idAt 0) 2
    (by decide +kernel) (by decide))
  have recorded := (sent.tail (.write Wal.filled false rfl (by decide) rfl
    (by rw [Wal.append_eq]; rfl))).tail (.write Wal.filled false rfl (by decide) rfl
      (by rw [Wal.append_eq]; rfl))
  refine ⟨start_startConfig, _, recorded, ?_, purge_point_monotone start_startConfig .refl recorded 0 0⟩
  decide +kernel

/-- RaftCore's purge is recorded, then the checkpointer's older one. -/
theorem purge_point_moves_back : Start startConfig ∧ ∃ c d, Steps False startConfig c ∧
    Steps False c d ∧ c.replayed 0 0 = .ok 6 ∧ d.replayed 0 0 = .ok 1 := by
  have appended : Steps False startConfig _ := .single (.append [entryAt 0, entryAt 1] rfl)
  have held := (appended.tail (.purge (idAt 0) rfl nofun)).tail (.checkpoint 2 rfl)
  have purged := held.tail (.purge (idAt 5)
    (core_purge_within (k := 1) (by decide +kernel) (by decide)) nofun)
  have sent := purged.tail (@Step.holePurge False _ (idAt 5) 2
    (core_purge_past (by decide +kernel) (by decide +kernel)))
  have recorded := (sent.tail (.write Wal.filled false rfl (by decide) rfl
    (by rw [Wal.append_eq]; rfl))).tail (.write Wal.filled false rfl (by decide) rfl
      (by rw [Wal.append_eq]; rfl))
  refine ⟨start_startConfig, _, _, recorded, (Relation.ReflTransGen.single (@Step.completePurge False _ 2 (idAt 0) 3
    (by decide +kernel) (by decide))).tail (.write Wal.filled false rfl (by decide) rfl
      (by rw [Wal.append_eq]; rfl)), ?_, ?_⟩
  · decide +kernel
  · decide +kernel

end Fastetcd.Raft.Purging
