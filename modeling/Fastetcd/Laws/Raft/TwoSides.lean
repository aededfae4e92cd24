import Fastetcd.Laws.Raft.DurableMark

/-!
# The log covers the data file

After any crash the WAL's purge is behind what the data file has applied, and what the data file has
applied is behind the end of the log or comes from an installed snapshot (`Sides.recovers`).

A purge is recorded only when the data file is durable past it (`Sides.low`), and an entry is applied
only when the WAL keeps it (`Recovers.covered`). The checkpointer may record a purge after RaftCore has
recorded a later one. The later one is then of an installed snapshot (`Recovers.purge`).
-/

namespace Fastetcd.Raft

open Storage

/-! ## The highest purge -/

/-- The highest mark of a purge. -/
def low (rows : List (Loc × Record)) : Nat :=
  rows.foldl (fun m row => if row.2.kind = .purge then max m (row.2.index + 1) else m) 0

theorem low_concat (rows : List (Loc × Record)) (row : Loc × Record) :
    low (rows ++ [row]) =
      if row.2.kind = .purge then max (low rows) (row.2.index + 1) else low rows :=
  List.foldl_concat ..

theorem low_append (a b : List (Loc × Record)) : low a ≤ low (a ++ b) := by
  induction b using List.reverseRecOn with
  | nil => rw [List.append_nil]
  | append_singleton b row ih =>
    rw [← List.append_assoc, low_concat]
    split
    · exact ih.trans (Nat.le_max_left ..)
    · exact ih

theorem low_take (rows : List (Loc × Record)) (j : Nat) : low (rows.take j) ≤ low rows := by
  have split := low_append (rows.take j) (rows.drop j)
  rwa [List.take_append_drop] at split

theorem purgeMark_apply (log : Log) (row : Loc × Record) :
    purgeMark (log.apply row).sticky =
      if row.2.kind = .purge then row.2.index + 1 else purgeMark log.sticky := by
  rw [Log.sticky_apply, purgeMark, Log.purge_insert]
  split <;> rfl

theorem purgeMark_le_low (rows : List (Loc × Record)) :
    purgeMark (Log.run {} rows).sticky ≤ low rows := by
  induction rows using List.reverseRecOn with
  | nil => exact Nat.le_refl 0
  | append_singleton rows row ih =>
    rw [Log.run_concat, purgeMark_apply, low_concat]
    split
    · exact Nat.le_max_right ..
    · exact ih

theorem purgeMark_le {log : Log} (live : log.Live) {k : Nat} {row : Loc × Record}
    (held : log.entries k = some row) : purgeMark log.sticky ≤ k := by
  have past := (live k row.1 row.2 held).2
  rw [purgeMark]
  cases purge : log.sticky.purge with
  | none => exact Nat.zero_le k
  | some r =>
    rw [purge, Option.all_some, decide_eq_true_eq] at past
    exact past

theorem purgeMark_le_openMark (rows : List (Loc × Record)) :
    purgeMark (Log.run {} rows).sticky ≤ openMark (Replay.run {} rows) := by
  rcases openMark_cases rows with ⟨k, row, held, mark, -⟩ | ⟨-, mark⟩
  · rw [mark]
    exact Nat.le_succ_of_le (purgeMark_le (Log.live_run rows) held)
  · exact Nat.le_of_eq mark.symm

/-! ## One state of the WAL -/

/-- The entries past every purge have no gap. -/
def NoGap (rows : List (Loc × Record)) : Prop :=
  ∀ k row, (Log.run {} rows).entries k = some row →
    ∀ i, low rows ≤ i → i ≤ k → ∃ row', (Log.run {} rows).entries i = some row'

/-- Every entry past the purges and before the mark is there. -/
def Filled (rows : List (Loc × Record)) (next : Nat) : Prop :=
  ∀ k, low rows ≤ k → k < next → ∃ row, (Log.run {} rows).entries k = some row

/-- What is applied is from a snapshot, or purged, or the last of it is in the log. -/
def Covered (rows : List (Loc × Record)) (installed applied : Nat) : Prop :=
  applied ≤ installed ∨ applied ≤ low rows ∨
    ∃ k row, applied = k + 1 ∧ (Log.run {} rows).entries k = some row

structure Recovers (rows : List (Loc × Record)) (installed applied : Nat) : Prop where
  purge : low rows ≤ max installed (purgeMark (Log.run {} rows).sticky)
  noGap : NoGap rows
  covered : Covered rows installed applied

section Recovers

variable {rows : List (Loc × Record)} {installed applied : Nat}

/-- What is applied reaches no further than the log or the snapshot. -/
theorem Recovers.le (recovers : Recovers rows installed applied) :
    applied ≤ openMark (Replay.run {} rows) ∨ applied ≤ installed := by
  have bound := purgeMark_le_openMark rows
  rcases recovers.covered with snapshot | purged | ⟨k, row, rfl, held⟩
  · exact Or.inr snapshot
  · have := recovers.purge
    omega
  · exact Or.inl (lt_openMark held)

/-- The entries after what is applied are in the log. -/
theorem Recovers.replay (recovers : Recovers rows installed applied) {k : Nat} (past : low rows ≤ k)
    (short : k < openMark (Replay.run {} rows)) : ∃ row, (Log.run {} rows).entries k = some row := by
  rcases openMark_cases rows with ⟨top, row, held, mark, -⟩ | ⟨-, mark⟩
  · exact recovers.noGap top row held k past (by omega)
  · have := purgeMark_le_low rows
    omega

/-- An earlier state of the data file. -/
theorem Recovers.earlier (recovers : Recovers rows installed applied) {saved : Nat}
    (le : saved ≤ applied) : Recovers rows installed saved := by
  refine { recovers with covered := ?_ }
  rcases recovers.covered with snapshot | purged | ⟨k, row, rfl, held⟩
  · exact Or.inl (le.trans snapshot)
  · exact Or.inr (Or.inl (le.trans purged))
  · rcases Nat.lt_or_ge (low rows) saved with past | short
    · obtain ⟨i, rfl⟩ : ∃ i, saved = i + 1 := ⟨saved - 1, by omega⟩
      obtain ⟨row', held'⟩ := recovers.noGap k row held i (by omega) (by omega)
      exact Or.inr (Or.inr ⟨i, row', rfl, held'⟩)
    · exact Or.inr (Or.inl short)

theorem Recovers.install (recovers : Recovers rows installed applied) {mark : Nat}
    (newer : installed ≤ mark) : Recovers rows mark mark where
  purge := by
    have := recovers.purge
    omega
  noGap := recovers.noGap
  covered := Or.inl (Nat.le_refl _)

/-- A record other than a purge removes nothing, or what is at an index and after it. -/
theorem not_removes_below {r : Record} (plain : r.kind ≠ .purge) {i k : Nat} (le : i ≤ k)
    (kept : ¬Removes r k) : ¬Removes r i := by
  rw [Removes] at kept ⊢
  cases kind : r.kind with
  | entry =>
    simp only [kind] at kept ⊢
    omega
  | truncate =>
    simp only [kind] at kept ⊢
    omega
  | purge => exact absurd kind plain
  | vote => exact id
  | committed => exact id

/-- A record other than a purge, which keeps what is applied. An entry continues the log. -/
theorem Recovers.send (recovers : Recovers rows installed applied) {new : Loc × Record}
    (plain : new.2.kind ≠ .purge) (filled : new.2.kind = .entry → Filled rows new.2.index)
    (reach : ∀ k, applied = k + 1 → applied ≤ installed ∨ ¬Removes new.2 k) :
    Recovers (rows ++ [new]) installed applied := by
  have same : low (rows ++ [new]) = low rows := by rw [low_concat, if_neg plain]
  have keeps {k : Nat} (kept : ¬Removes new.2 k) :
      (Log.run {} (rows ++ [new])).entries k = (Log.run {} rows).entries k := by
    rw [Log.run_concat, entries_kept kept]
  refine ⟨?_, fun k row held i past short => ?_, ?_⟩
  · rw [same, Log.run_concat, purgeMark_apply, if_neg plain]
    exact recovers.purge
  · rw [same] at past
    have after := held
    rw [Log.run_concat] at after
    rcases entries_after after with ⟨-, kind, rfl⟩ | ⟨old, kept⟩
    · rcases Nat.lt_or_eq_of_le short with less | rfl
      · have kept : ¬Removes new.2 i := by
          rw [Removes, kind]
          exact Nat.not_le.mpr less
        rw [keeps kept]
        exact filled kind i past less
      · exact ⟨row, held⟩
    · rw [keeps (not_removes_below plain short kept)]
      exact recovers.noGap k row old i past short
  · rcases recovers.covered with snapshot | purged | ⟨k, row, mark, held⟩
    · exact Or.inl snapshot
    · exact Or.inr (Or.inl (same ▸ purged))
    · rcases reach k mark with snapshot | kept
      · exact Or.inl snapshot
      · exact Or.inr (Or.inr ⟨k, row, mark, (keeps kept).trans held⟩)

/-- A purge, which may be behind an installed snapshot's. -/
theorem Recovers.purged (recovers : Recovers rows installed applied) {new : Loc × Record}
    (kind : new.2.kind = .purge) (order : low rows ≤ max installed (new.2.index + 1)) :
    Recovers (rows ++ [new]) installed applied := by
  have raised : low (rows ++ [new]) = max (low rows) (new.2.index + 1) := by
    rw [low_concat, if_pos kind]
  have keeps {k : Nat} (past : new.2.index < k) :
      (Log.run {} (rows ++ [new])).entries k = (Log.run {} rows).entries k := by
    rw [Log.run_concat, entries_kept]
    rw [Removes, kind]
    exact Nat.not_le.mpr past
  refine ⟨?_, fun k row held i least short => ?_, ?_⟩
  · rw [raised, Log.run_concat, purgeMark_apply, if_pos kind]
    exact Nat.max_le.mpr ⟨order, Nat.le_max_right ..⟩
  · rw [raised] at least
    rw [Log.run_concat] at held
    rcases entries_after held with ⟨-, other, -⟩ | ⟨old, -⟩
    · simp [kind] at other
    · rw [keeps (by omega)]
      exact recovers.noGap k row old i (by omega) short
  · rcases recovers.covered with snapshot | purged | ⟨k, row, rfl, held⟩
    · exact Or.inl snapshot
    · exact Or.inr (Or.inl (by omega))
    · rcases Nat.lt_or_ge new.2.index k with past | short
      · exact Or.inr (Or.inr ⟨k, row, rfl, (keeps past).trans held⟩)
      · exact Or.inr (Or.inl (by omega))

end Recovers

/-! ## Filling the log -/

section Filled

variable {rows : List (Loc × Record)} {next : Nat}

theorem Filled.entry (filled : Filled rows next) {new : Loc × Record} (kind : new.2.kind = .entry)
    (index : new.2.index = next) (past : purgeMark (Log.run {} rows).sticky ≤ next) :
    Filled (rows ++ [new]) (next + 1) := by
  intro k least short
  rw [low_concat, if_neg (by simp [kind])] at least
  rw [Log.run_concat]
  rcases Nat.lt_or_ge k next with less | here
  · rw [entries_kept]
    · exact filled k least less
    · rw [Removes, kind]
      exact Nat.not_le.mpr (index ▸ less)
  · obtain rfl : k = next := by omega
    refine ⟨new, ?_⟩
    have free : (Log.run {} rows).sticky.purge.all (·.index < k) = true := by
      rw [purgeMark] at past
      cases purge : (Log.run {} rows).sticky.purge with
      | none => rfl
      | some r =>
        rw [purge] at past
        rw [Option.all_some, decide_eq_true_eq]
        exact past
    rw [Log.apply]
    simp only [kind, index, Nat.lt_irrefl, if_false, free, and_self, if_true]

/-- A record that keeps what is before the mark. -/
theorem Filled.send (filled : Filled rows next) {new : Loc × Record} {next' : Nat}
    (le : next' ≤ next)
    (kept : ∀ k, low (rows ++ [new]) ≤ k → k < next' → ¬Removes new.2 k) :
    Filled (rows ++ [new]) next' := by
  intro k least short
  rw [Log.run_concat, entries_kept (kept k least short)]
  exact filled k ((low_append rows [new]).trans least) (Nat.lt_of_lt_of_le short le)

end Filled

/-! ## The invariant -/

namespace Node

/-- A purge read by the checkpointer, by its mark. -/
def Holding (s : Node) (purge : Nat) : Prop :=
  purge = 0 ∨ (purge ≤ s.purged ∧ (s.pending = 0 ∨ purge ≤ s.pending) ∧
    low s.sent ≤ max s.installed purge)

/-- RaftCore is before the record of a purge past the last entry. -/
def InHole : Core → Prop
  | .holeSync _ _ => True
  | .holeSynced _ => True
  | .free => False
  | .truncating _ => False
  | .truncated _ => False
  | .holePurging _ => False

structure Sides (s : Node) : Prop where
  installed : s.installed ≤ s.onDisk
  onDisk : s.onDisk ≤ s.saved
  saved : s.saved ≤ s.applied
  built : s.built ≤ s.saved
  applied : s.applied ≤ s.committed
  purged : s.purged ≤ s.saved
  pending : s.pending ≤ s.purged
  next : s.purged ≤ s.next
  reach : s.applied ≤ max s.next s.installed
  latest : purgeMark s.log.sticky ≤ s.purged
  low : low s.sent ≤ s.onDisk
  lowPurged : Raft.low s.sent ≤ max s.installed s.purged
  lowPending : s.pending = 0 ∨ Raft.low s.sent ≤ max s.installed s.pending
  syncing : ∀ applied purge saved, s.checkpointer = .syncing applied purge saved →
    purge ≤ saved ∧ saved ≤ s.saved ∧ s.Holding purge
  synced : ∀ applied purge, s.checkpointer = .synced applied purge →
    purge ≤ s.onDisk ∧ s.Holding purge
  holeSync : ∀ index saved, s.core = .holeSync index saved →
    index < saved ∧ saved ≤ s.saved ∧ index < s.installed ∧ s.purged = index + 1 ∧
      s.next = index + 1
  holeSynced : ∀ index, s.core = .holeSynced index →
    index < s.onDisk ∧ index < s.installed ∧ s.purged = index + 1 ∧ s.next = index + 1
  filled : ¬InHole s.core → Filled s.sent s.next
  recovers : ∀ j, s.synced ≤ j → j ≤ s.sent.length → Recovers (s.sent.take j) s.installed s.applied

variable {s : Node}

theorem Sides.whole (sides : s.Sides) (marks : s.Marks) :
    Recovers s.sent s.installed s.applied := by
  have all := sides.recovers s.sent.length (marks.synced.trans marks.written) (Nat.le_refl _)
  rwa [List.take_length] at all

/-- One more state of the WAL. -/
theorem recovers_send {sent : List (Loc × Record)} {synced installed applied : Nat}
    (recovers : ∀ j, synced ≤ j → j ≤ sent.length → Recovers (sent.take j) installed applied)
    {new : Loc × Record} (whole : Recovers (sent ++ [new]) installed applied) :
    ∀ j, synced ≤ j → j ≤ (sent ++ [new]).length →
      Recovers ((sent ++ [new]).take j) installed applied := by
  intro j least short
  rcases Nat.lt_or_ge sent.length j with all | part
  · rw [List.take_of_length_le (by rw [List.length_append, List.length_singleton]; omega)]
    exact whole
  · rw [List.take_append_of_le_length part]
    exact recovers j least part

/-- A truncation or a purge of RaftCore's is answered. -/
theorem Order.not_inHole {core : Core} {durable next : Nat} {c : Call} {calls : List Call}
    (order : Order core durable next (c :: calls)) (other : ∀ mark, c.done ≠ .append mark)
    (own : ∀ index, c.done ≠ .purge index false) : ¬InHole core := by
  intro hole
  have appends : Appends next (c :: calls) := by
    cases core with
    | holeSync index saved => exact order.2
    | holeSynced index => exact order.2
    | free => exact hole.elim
    | truncating index => exact hole.elim
    | truncated index => exact hole.elim
    | holePurging index => exact hole.elim
  rcases appends c List.mem_cons_self with ⟨mark, done, -⟩ | ⟨index, done⟩
  · exact other mark done
  · exact own index done

/-! ## Sending -/

/-- A record other than a purge. The log in memory is as the caller leaves it. -/
theorem Sides.send (sides : s.Sides) (marks : s.Marks) {loc : Loc} {r : Record} {next : Nat}
    (plain : r.kind ≠ .purge) (continues : r.kind = .entry → Filled s.sent r.index)
    (reach : ∀ k, s.applied = k + 1 → s.applied ≤ s.installed ∨ ¬Removes r k)
    (least : s.purged ≤ next) (most : s.applied ≤ max next s.installed)
    (hole : InHole s.core → next = s.next)
    (filled : ¬InHole s.core → Filled (s.sent ++ [(loc, r)]) next) :
    ({ s.send loc r with next := next } : Node).Sides := by
  have same : Raft.low (s.sent ++ [(loc, r)]) = Raft.low s.sent := by
    rw [low_concat, if_neg plain]
  have holding {purge : Nat} (old : s.Holding purge) :
      ({ s.send loc r with next := next } : Node).Holding purge :=
    old.imp_right fun ⟨a, b, c⟩ => ⟨a, b, same ▸ c⟩
  exact
    { sides with
      next := least
      reach := most
      latest := by
        show purgeMark (Log.run {} (s.sent ++ [(loc, r)])).sticky ≤ _
        rw [Log.run_concat, purgeMark_apply, if_neg plain]
        exact sides.latest
      low := same ▸ sides.low
      lowPurged := same ▸ sides.lowPurged
      lowPending := same ▸ sides.lowPending
      syncing := fun a p d at_ =>
        have old := sides.syncing a p d at_
        ⟨old.1, old.2.1, holding old.2.2⟩
      synced := fun a p at_ =>
        have old := sides.synced a p at_
        ⟨old.1, holding old.2⟩
      holeSync := fun index saved at_ =>
        have old := sides.holeSync index saved at_
        ⟨old.1, old.2.1, old.2.2.1, old.2.2.2.1,
          (hole (Eq.mpr (congrArg InHole at_) trivial)).trans old.2.2.2.2⟩
      holeSynced := fun index at_ =>
        have old := sides.holeSynced index at_
        ⟨old.1, old.2.1, old.2.2.1, (hole (Eq.mpr (congrArg InHole at_) trivial)).trans old.2.2.2⟩
      filled := filled
      recovers := recovers_send sides.recovers
        ((sides.whole marks).send plain continues reach) }

theorem Sides.entry (sides : s.Sides) (marks : s.Marks) (loc : Loc) {r : Record}
    (free : s.core = .free) (kind : r.kind = .entry) (index : r.index = s.next) :
    (s.entry loc r).Sides := by
  have out : ¬InHole s.core := by
    rw [free]
    exact id
  have filled := sides.filled out
  have least := sides.next
  have reach := sides.reach
  rw [Node.entry, index]
  refine sides.send marks (by simp [kind]) (fun _ => index ▸ filled) (fun k mark => ?_) (by omega)
    (by omega) (fun hole => absurd hole out)
    fun _ => filled.entry kind index (sides.latest.trans least)
  rw [Removes, kind]
  show s.applied ≤ s.installed ∨ ¬r.index ≤ k
  omega

theorem Sides.note (sides : s.Sides) (marks : s.Marks) (loc : Loc) {r : Record}
    (kind : r.kind = .vote ∨ r.kind = .committed) : (s.send loc r).Sides := by
  have kept (k : Nat) : ¬Removes r k := by
    rw [Removes]
    rcases kind with kind | kind <;> simp [kind]
  exact sides.send marks (by rcases kind with kind | kind <;> simp [kind])
    (fun entry => by simp [entry] at kind) (fun k _ => Or.inr (kept k)) sides.next sides.reach
    (fun _ => rfl) fun out => (sides.filled out).send (Nat.le_refl _) fun k _ _ => kept k

theorem Sides.truncate (sides : s.Sides) (marks : s.Marks) (loc : Loc) {r : Record}
    (free : s.core = .free) (kind : r.kind = .truncate) (past : s.committed ≤ r.index) :
    (s.truncate loc r).Sides := by
  have out : ¬InHole s.core := by
    rw [free]
    exact id
  have kept {k : Nat} (less : k < r.index) : ¬Removes r k := by
    rw [Removes, kind]
    exact Nat.not_le.mpr less
  have applied := sides.applied
  have purged := sides.purged
  have saved := sides.saved
  have reach := sides.reach
  have least := sides.next
  have sent : ({ s.send loc r with next := max s.purged (min s.next r.index) } : Node).Sides :=
    sides.send marks (by simp [kind]) (fun entry => by simp [entry] at kind)
      (fun k mark => Or.inr (kept (by omega))) (Nat.le_max_left ..) (by omega)
      (fun hole => absurd hole out)
      fun _ => (sides.filled out).send (by omega) fun k _ short => kept (by omega)
  exact { sent with
    holeSync := by rintro _ _ ⟨⟩
    holeSynced := by rintro _ ⟨⟩
    filled := fun _ => sent.filled out }

/-- What a purge's record changes, the data file being past it. -/
structure PurgeSent (s : Node) (sent : List (Loc × Record)) : Prop where
  latest : purgeMark (Log.run {} sent).sticky ≤ s.purged
  low : Raft.low sent ≤ s.onDisk
  lowPurged : Raft.low sent ≤ max s.installed s.purged
  lowPending : s.pending = 0 ∨ Raft.low sent ≤ max s.installed s.pending
  filled : ¬InHole s.core → Filled sent s.next
  recovers : ∀ j, s.synced ≤ j → j ≤ sent.length → Recovers (sent.take j) s.installed s.applied

theorem Sides.purgeSent (sides : s.Sides) (marks : s.Marks) (loc : Loc) {r : Record}
    (kind : r.kind = .purge) (durable : r.index < s.onDisk) (asked : r.index < s.purged)
    (order : Raft.low s.sent ≤ max s.installed (r.index + 1))
    (pending : s.pending = 0 ∨ r.index < s.pending ∨ r.index < s.installed) :
    s.PurgeSent (s.sent ++ [(loc, r)]) := by
  have raised : Raft.low (s.sent ++ [(loc, r)]) = max (Raft.low s.sent) (r.index + 1) := by
    rw [low_concat, if_pos kind]
  have low := sides.low
  have lowPurged := sides.lowPurged
  have lowPending := sides.lowPending
  refine ⟨?_, by omega, by omega, by omega, fun out => ?_, ?_⟩
  · rw [Log.run_concat, purgeMark_apply, if_pos kind]
    exact asked
  · refine (sides.filled out).send (Nat.le_refl _) fun k least _ => ?_
    rw [raised] at least
    show ¬Removes r k
    rw [Removes, kind]
    show ¬k ≤ r.index
    omega
  · exact recovers_send sides.recovers ((sides.whole marks).purged kind order)

theorem Sides.completePurge (sides : s.Sides) (marks : s.Marks) (loc : Loc) {r : Record}
    {applied : Nat} (kind : r.kind = .purge)
    (at_ : s.checkpointer = .synced applied (r.index + 1)) :
    ({ s.completePurge loc r false with checkpointer := .purging } : Node).Sides := by
  obtain ⟨durable, holding⟩ := sides.synced applied _ at_
  obtain ⟨asked, pending, order⟩ := holding.resolve_left (Nat.succ_ne_zero _)
  have sent := sides.purgeSent marks loc kind durable asked order (pending.imp_right Or.inl)
  exact { sides with
    latest := sent.latest
    low := sent.low
    lowPurged := sent.lowPurged
    lowPending := sent.lowPending
    filled := sent.filled
    recovers := sent.recovers
    syncing := nofun
    synced := nofun }

theorem Sides.holePurge (sides : s.Sides) (marks : s.Marks) (loc : Loc) {r : Record}
    (kind : r.kind = .purge) (at_ : s.core = .holeSynced r.index) :
    ({ s.completePurge loc r true with core := .holePurging r.index } : Node).Sides := by
  obtain ⟨durable, snapshot, purged, next⟩ := sides.holeSynced r.index at_
  have sent := sides.purgeSent marks loc kind durable (by omega) (purged ▸ sides.lowPurged)
    (Or.inr (Or.inr snapshot))
  have raised : Raft.low (s.sent ++ [(loc, r)]) = max (Raft.low s.sent) (r.index + 1) := by
    rw [low_concat, if_pos kind]
  have holding {purge : Nat} (old : s.Holding purge) :
      ({ s.completePurge loc r true with core := .holePurging r.index } : Node).Holding purge :=
    old.imp_right fun ⟨a, b, c⟩ => ⟨a, b, by
      show Raft.low (s.sent ++ [(loc, r)]) ≤ max s.installed purge
      omega⟩
  refine { sides with
    latest := sent.latest
    low := sent.low
    lowPurged := sent.lowPurged
    lowPending := sent.lowPending
    recovers := sent.recovers
    syncing := fun a p d at_ =>
      have old := sides.syncing a p d at_
      ⟨old.1, old.2.1, holding old.2.2⟩
    synced := fun a p at_ =>
      have old := sides.synced a p at_
      ⟨old.1, holding old.2⟩
    holeSync := nofun
    holeSynced := nofun
    filled := fun _ k least short => ?_ }
  -- nothing is between the purge and the end of the log
  have least : Raft.low (s.sent ++ [(loc, r)]) ≤ k := least
  have short : k < s.next := short
  omega

/-! ## A new process -/

/-- The states of the data file that a crash may leave. -/
theorem Sides.left (sides : s.Sides) {saved : Nat} (data : s.Saves saved) {j : Nat}
    (least : s.synced ≤ j) (most : j ≤ s.sent.length) :
    Recovers (s.sent.take j) s.installed saved :=
  (sides.recovers j least most).earlier (data.2.trans sides.saved)

theorem Sides.reopen (sides : s.Sides) {saved onDisk j : Nat} (data : s.Saves saved)
    (least : s.synced ≤ j) (most : j ≤ s.sent.length) (kept : s.onDisk ≤ onDisk)
    (le : onDisk ≤ saved) :
    (s.reopen (s.sent.take j) (s.sent.take j).length saved onDisk).Sides := by
  have recovers := sides.left data least most
  have sticky : purgeMark (Replay.run {} (s.sent.take j)).sticky =
      purgeMark (Log.run {} (s.sent.take j)).sticky := by rw [(agrees_run _).sticky]
  have low : Raft.low (s.sent.take j) ≤ s.onDisk := (low_take s.sent j).trans sides.low
  have latest := purgeMark_le_low (s.sent.take j)
  have mark := purgeMark_le_openMark (s.sent.take j)
  have reach := recovers.le
  have installed := sides.installed
  have applied := sides.applied
  have older := sides.saved
  have within : saved ≤ s.saved := data.2
  exact
    { installed := installed.trans kept
      onDisk := le
      saved := Nat.le_refl _
      built := Nat.min_le_right ..
      applied := by
        show saved ≤ s.committed
        omega
      purged := by
        show purgeMark _ ≤ saved
        omega
      pending := Nat.zero_le _
      next := by
        show purgeMark _ ≤ openMark _
        omega
      reach := by
        show saved ≤ max (openMark _) s.installed
        omega
      latest := Nat.le_of_eq sticky.symm
      low := low.trans kept
      lowPurged := by
        show Raft.low (s.sent.take j) ≤ max s.installed (purgeMark _)
        rw [sticky]
        exact recovers.purge
      lowPending := Or.inl rfl
      syncing := nofun
      synced := nofun
      holeSync := nofun
      holeSynced := nofun
      filled := fun _ k past short => recovers.replay past short
      recovers := fun i least _ => by
        show Recovers ((s.sent.take j).take i) s.installed saved
        rw [List.take_of_length_le least]
        exact recovers }

/-! ## The data file -/

/-- More is committed, and more of it durable. -/
theorem Sides.data (sides : s.Sides) {saved onDisk : Nat} (grows : s.saved ≤ saved)
    (most : saved ≤ s.applied) (kept : s.onDisk ≤ onDisk) (le : onDisk ≤ saved) :
    ({ s with saved := saved, onDisk := onDisk } : Node).Sides :=
  { sides with
    installed := sides.installed.trans kept
    onDisk := le
    saved := most
    built := sides.built.trans grows
    purged := sides.purged.trans grows
    low := sides.low.trans kept
    syncing := fun a p d at_ =>
      have old := sides.syncing a p d at_
      ⟨old.1, old.2.1.trans grows, old.2.2⟩
    synced := fun a p at_ =>
      have old := sides.synced a p at_
      ⟨old.1.trans kept, old.2⟩
    holeSync := fun index d at_ =>
      have old := sides.holeSync index d at_
      ⟨old.1, old.2.1.trans grows, old.2.2⟩
    holeSynced := fun index at_ =>
      have old := sides.holeSynced index at_
      ⟨Nat.lt_of_lt_of_le old.1 kept, old.2⟩ }

/-- The next entry is applied. The WAL keeps it, as it is below the durable mark. -/
theorem Sides.apply (sides : s.Sides) (marks : s.Marks) {row : Loc × Record}
    (held : s.log.entries s.applied = some row) (committed : s.applied < s.committed)
    (durable : s.applied < s.durable) : ({ s with applied := s.applied + 1 } : Node).Sides :=
  { sides with
    saved := Nat.le_succ_of_le sides.saved
    applied := committed
    reach := Nat.le_trans (marks.next s.applied row held) (Nat.le_max_left ..)
    recovers := fun j least short =>
      { sides.recovers j least short with
        covered := Or.inr (Or.inr ⟨s.applied, row, rfl,
          marks.durable s.applied row durable held j least short⟩) } }

theorem Sides.install (sides : s.Sides) {mark : Nat} (newer : s.applied < mark) :
    ({ s with
      applied := mark
      saved := mark
      onDisk := mark
      installed := mark
      committed := max s.committed mark } : Node).Sides := by
  have saved : s.saved ≤ mark := sides.saved.trans (Nat.le_of_lt newer)
  have onDisk : s.onDisk ≤ mark := sides.onDisk.trans saved
  have installed : s.installed ≤ mark := sides.installed.trans onDisk
  have wider (m : Nat) : max s.installed m ≤ max mark m := by omega
  have holding {purge : Nat} (old : s.Holding purge) : purge = 0 ∨ (purge ≤ s.purged ∧
      (s.pending = 0 ∨ purge ≤ s.pending) ∧ Raft.low s.sent ≤ max mark purge) :=
    old.imp_right fun ⟨a, b, c⟩ => ⟨a, b, c.trans (wider purge)⟩
  exact
    { sides with
      installed := Nat.le_refl _
      onDisk := Nat.le_refl _
      saved := Nat.le_refl _
      built := sides.built.trans saved
      applied := Nat.le_max_right ..
      purged := sides.purged.trans saved
      reach := Nat.le_max_right ..
      low := sides.low.trans onDisk
      lowPurged := sides.lowPurged.trans (wider _)
      lowPending := sides.lowPending.imp_right (·.trans (wider _))
      syncing := fun a p d at_ =>
        have old := sides.syncing a p d at_
        ⟨old.1, old.2.1.trans saved, holding old.2.2⟩
      synced := fun a p at_ =>
        have old := sides.synced a p at_
        ⟨old.1.trans onDisk, holding old.2⟩
      holeSync := fun index d at_ =>
        have old := sides.holeSync index d at_
        ⟨old.1, old.2.1.trans saved, Nat.lt_of_lt_of_le old.2.2.1 installed, old.2.2.2⟩
      holeSynced := fun index at_ =>
        have old := sides.holeSynced index at_
        ⟨Nat.lt_of_lt_of_le old.1 onDisk, Nat.lt_of_lt_of_le old.2.1 installed, old.2.2⟩
      recovers := fun j least short => (sides.recovers j least short).install installed }

/-! ## Purging -/

theorem Sides.purge (sides : s.Sides) {index : Nat} (free : s.core = .free)
    (forward : s.purged ≤ index) (covered : index < max s.built s.installed) :
    (s.purge index).Sides := by
  have installed := sides.installed
  have onDisk := sides.onDisk
  have saved := sides.saved
  have built := sides.built
  have pending := sides.pending
  have next := sides.next
  have reach := sides.reach
  have lowPurged := sides.lowPurged
  have purged : max s.purged (index + 1) = index + 1 := Nat.max_eq_right (Nat.le_succ_of_le forward)
  have filled : Filled s.sent s.next := sides.filled (by rw [free]; exact id)
  have holding {p : Nat} (old : s.Holding p) : (s.purge index).Holding p := by
    refine old.imp_right fun ⟨asked, waits, order⟩ => ⟨?_, Or.inr ?_, order⟩
    · show p ≤ max s.purged (index + 1)
      omega
    · show p ≤ max s.pending (index + 1)
      omega
  exact
    { sides with
      purged := by
        show max s.purged (index + 1) ≤ s.saved
        omega
      pending := by
        show max s.pending (index + 1) ≤ max s.purged (index + 1)
        omega
      next := by
        show max s.purged (index + 1) ≤ max s.next (index + 1)
        omega
      reach := by
        show s.applied ≤ max (max s.next (index + 1)) s.installed
        omega
      latest := sides.latest.trans (Nat.le_max_left ..)
      lowPurged := by
        show Raft.low s.sent ≤ max s.installed (max s.purged (index + 1))
        omega
      lowPending := Or.inr (by
        show Raft.low s.sent ≤ max s.installed (max s.pending (index + 1))
        omega)
      syncing := fun a p d at_ =>
        have old := sides.syncing a p d at_
        ⟨old.1, old.2.1, holding old.2.2⟩
      synced := fun a p at_ =>
        have old := sides.synced a p at_
        ⟨old.1, holding old.2⟩
      -- only a snapshot installed is past the last entry
      holeSync := fun i d at_ => by
        have at_ : (if s.next ≤ index then Core.holeSync index s.saved else .free) =
          .holeSync i d := at_
        split at at_
        · next past =>
          cases at_
          refine ⟨?_, Nat.le_refl _, ?_, purged, Nat.max_eq_right (Nat.le_succ_of_le past)⟩
          · omega
          · show index < s.installed
            omega
        · cases at_
      holeSynced := fun i at_ => by
        have at_ : (if s.next ≤ index then Core.holeSync index s.saved else .free) =
          .holeSynced i := at_
        split at at_ <;> cases at_
      filled := fun out => by
        have out : ¬InHole (if s.next ≤ index then .holeSync index s.saved else .free) := out
        show Filled s.sent (max s.next (index + 1))
        split at out
        · exact absurd trivial out
        · next short =>
          rw [Nat.max_eq_left (by omega)]
          exact filled }

theorem Sides.purgeDone (sides : s.Sides) (index : Nat) : (s.purgeDone index).Sides := by
  have fewer : (s.purgeDone index).pending = 0 ∨ (s.purgeDone index).pending = s.pending := by
    show (if s.pending ≤ index + 1 then 0 else s.pending) = 0 ∨ _
    split
    · exact Or.inl rfl
    · exact Or.inr (if_neg ‹_›)
  have holding {p : Nat} (old : s.Holding p) : (s.purgeDone index).Holding p := by
    refine old.imp_right fun ⟨asked, waits, order⟩ => ⟨asked, ?_, order⟩
    rcases fewer with none | same
    · exact Or.inl none
    · rw [same]
      exact waits
  exact
    { sides with
      pending := by
        rcases fewer with none | same
        · rw [none]
          exact Nat.zero_le _
        · rw [same]
          exact sides.pending
      lowPending := by
        rcases fewer with none | same
        · exact Or.inl none
        · rw [same]
          exact sides.lowPending
      syncing := fun a p d at_ =>
        have old := sides.syncing a p d at_
        ⟨old.1, old.2.1, holding old.2.2⟩
      synced := fun a p at_ =>
        have old := sides.synced a p at_
        ⟨old.1, holding old.2⟩ }

/-! ## Every step -/

theorem Sides.step (sides : s.Sides) (marks : s.Marks) {s' : Node} (step : Step AllSynced s s') :
    s'.Sides := by
  cases step with
  | entry loc r free kind index => exact sides.entry marks loc free kind index
  | append _ => exact { sides with }
  | note loc r kind => exact sides.note marks loc kind
  | truncate loc r free kind past => exact sides.truncate marks loc free kind past
  | lower at_ => exact { sides with
      holeSync := nofun
      holeSynced := nofun
      filled := fun _ => sides.filled (by rw [at_]; exact id) }
  | purge index free forward covered => exact sides.purge free forward covered
  | @holeSynced index saved onDisk at_ least most =>
    obtain ⟨past, -, rest⟩ := sides.holeSync index saved at_
    have data := sides.data (Nat.le_refl _) sides.saved (Nat.le_max_left s.onDisk onDisk)
      (Nat.max_le.mpr ⟨sides.onDisk, most⟩)
    refine { data with
      holeSync := nofun
      holeSynced := fun i same => ?_
      filled := fun out => absurd trivial out }
    cases same
    exact ⟨Nat.lt_of_lt_of_le past (least.trans (Nat.le_max_right ..)), rest⟩
  | holePurge loc r kind at_ => exact sides.holePurge marks loc kind at_
  | commit committed least _ => exact { sides with applied := sides.applied.trans least }
  | write _ => exact { sides with }
  | sync => exact { sides with
      recovers := fun j least short => sides.recovers j (marks.synced.trans least) short }
  | answerAppend _ _ => exact { sides with }
  | answerTruncate first _ =>
    have out := (first ▸ marks.order).not_inHole nofun nofun
    exact { sides with
      holeSync := nofun
      holeSynced := nofun
      filled := fun _ => sides.filled out }
  | @answerHolePurge upto index calls first _ =>
    have out := (first ▸ marks.order).not_inHole nofun nofun
    exact { sides.purgeDone index with
      holeSync := nofun
      holeSynced := nofun
      filled := fun _ => sides.filled out }
  | @answerPurge upto index calls first _ => exact { sides.purgeDone index with
      syncing := nofun
      synced := nofun }
  | apply saved held _ committed durable now =>
    have saves := sides.saved
    have onDisk := sides.onDisk
    have grows : s.saved ≤ saved := by omega
    have most : saved ≤ s.applied + 1 := by omega
    exact (sides.apply marks held committed durable).data grows most (Nat.le_refl _)
      (onDisk.trans grows)
  | flush =>
    exact sides.data sides.saved (Nat.le_refl _) (Nat.le_refl _) (sides.onDisk.trans sides.saved)
  | build flushed => exact { sides with built := Nat.le_of_eq flushed.symm }
  | install mark newer => exact sides.install newer
  | persist onDisk least most => exact sides.data (Nat.le_refl _) sides.saved least most
  | target _ => exact { sides with
      syncing := nofun
      synced := nofun }
  | checkpoint _ =>
    refine { sides with
      syncing := fun a p d at_ => ?_
      synced := nofun }
    cases at_
    refine ⟨sides.pending.trans sides.purged, Nat.le_refl _, ?_⟩
    exact sides.lowPending.imp_right fun order => ⟨sides.pending, Or.inr (Nat.le_refl _), order⟩
  | failed _ => exact { sides with
      syncing := nofun
      synced := nofun }
  | @synced applied purge saved onDisk at_ least most =>
    obtain ⟨past, -, holding⟩ := sides.syncing applied purge saved at_
    have data := sides.data (Nat.le_refl _) sides.saved (Nat.le_max_left s.onDisk onDisk)
      (Nat.max_le.mpr ⟨sides.onDisk, most⟩)
    refine { data with
      syncing := nofun
      synced := fun a p same => ?_ }
    cases same
    exact ⟨past.trans (least.trans (Nat.le_max_right ..)), holding⟩
  | noPurge _ _ => exact { sides with
      syncing := nofun
      synced := nofun }
  | completePurge loc r kind at_ _ => exact sides.completePurge marks loc kind at_
  | crash saved all data =>
    have whole : s.synced = (s.sent.take s.written).length := by
      rw [List.length_take, Nat.min_eq_left marks.written]
      exact all
    rw [whole]
    exact sides.reopen data marks.synced marks.written (Nat.le_refl _) data.1
  | powerLoss saved left data =>
    obtain ⟨j, synced, written, rfl⟩ := left
    exact sides.reopen data synced (written.trans marks.written) data.1 (Nat.le_refl _)

theorem Sides.init : ({} : Node).Sides where
  installed := Nat.le_refl _
  onDisk := Nat.le_refl _
  saved := Nat.le_refl _
  built := Nat.le_refl _
  applied := Nat.le_refl _
  purged := Nat.le_refl _
  pending := Nat.le_refl _
  next := Nat.le_refl _
  reach := Nat.le_refl _
  latest := Nat.le_refl _
  low := Nat.le_refl _
  lowPurged := Nat.le_refl _
  lowPending := Or.inl rfl
  syncing := nofun
  synced := nofun
  holeSync := nofun
  holeSynced := nofun
  filled _ _ _ := nofun
  recovers j _ _ := by
    show Recovers (List.take j []) 0 0
    rw [List.take_nil]
    exact ⟨Nat.le_refl _, nofun, Or.inl (Nat.le_refl _)⟩

theorem Sides.of_reachable (reachable : Reachable AllSynced s) : s.Sides := by
  induction reachable with
  | refl => exact .init
  | tail before step ih => exact ih.step (.of_reachable before) step

/-- Synced and answered, the entry is applied and the data file is durable. -/
def oneApplied : Node := { oneDurable with committed := 1, applied := 1, saved := 1, onDisk := 1 }

end Node

end Fastetcd.Raft
