import Fastetcd.Server.Recovery

/-!
# When a member starts from a backup

A member that starts from a backup was alone when its data file became corrupt, if the newest backup
records the membership of that moment (`replaced_only_alone`). The backup task sees to that as long as
it looks at every membership once it is applied and in the process that saw the one before
(`Machine.Careful`).

A process that starts between a membership change and the task's look takes the new fingerprint for
that of the newest backup, and no backup is taken (`restart_hides_membership_change`).
-/

namespace Fastetcd.Server

/-! ## The backup directory -/

instance : Std.Total BackupFile.Newer := ⟨fun a b => Nat.le_total b.createdUnixMs a.createdUnixMs⟩

instance : IsTrans BackupFile BackupFile.Newer := ⟨fun _ _ _ ab bc => Nat.le_trans bc ab⟩

theorem list_pairwise (dir : List BackupFile) : (list dir).Pairwise BackupFile.Newer :=
  List.pairwise_insertionSort _ dir

theorem list_prune (dir : List BackupFile) (keep : Nat) : list (prune dir keep) = prune dir keep :=
  List.Pairwise.insertionSort_eq ((list_pairwise dir).sublist (List.take_sublist ..))

theorem mem_prune {dir : List BackupFile} {keep : Nat} {file : BackupFile}
    (mem : file ∈ prune dir keep) : file ∈ dir :=
  (List.mem_insertionSort _).mp (List.mem_of_mem_take mem)

/-- What is rolled off is not chosen before what is kept. -/
theorem chosen_prune {nodeId : NodeId} {dir : List BackupFile} {keep : Nat} {file : BackupFile}
    (found : chosen nodeId (prune dir keep) = some file) : chosen nodeId dir = some file := by
  unfold chosen at found ⊢
  rw [list_prune, prune] at found
  rw [← List.take_append_drop keep (list dir), List.find?_append, found]
  rfl

/-- A backup newer than the others is the one chosen. -/
theorem chosen_newest {nodeId : NodeId} {dir : List BackupFile} {file : BackupFile} (retain : Nat)
    (newest : ∀ f ∈ dir, f.createdUnixMs < file.createdUnixMs) (verifies : file.verifies = true)
    (own : file.header.nodeId = nodeId) :
    chosen nodeId (prune (file :: dir) (max retain 1)) = some file := by
  have first : list (file :: dir) = file :: list dir :=
    List.insertionSort_cons_of_forall_rel _ fun f mem => Nat.le_of_lt (newest f mem)
  obtain ⟨keep, some⟩ : ∃ keep, max retain 1 = keep + 1 := ⟨max retain 1 - 1, by omega⟩
  unfold chosen
  rw [list_prune, prune, first, some, List.take_succ_cons, List.find?_cons_of_pos]
  simp [verifies, own]

/-- A backup written is chosen next; if it is not written, what was chosen is chosen or nothing. -/
theorem chosen_writeBackup {nodeId : NodeId} {dir dir' : List BackupFile} {file : BackupFile}
    {retain : Nat} {disk : Disk} {written : Bool}
    (newest : ∀ f ∈ dir, f.createdUnixMs < file.createdUnixMs) (verifies : file.verifies = true)
    (own : file.header.nodeId = nodeId)
    (done : writeBackup dir file retain disk = (dir', written)) {f : BackupFile}
    (found : chosen nodeId dir' = some f) :
    if written then f = file else chosen nodeId dir = some f := by
  unfold writeBackup at done
  cases disk with
  | written =>
    cases done
    rw [chosen_newest retain newest verifies own] at found
    exact (Option.some.inj found).symm
  | failed =>
    cases done
    exact found
  | full retry =>
    simp only at done
    split at done
    · cases retry with
      | true =>
        cases done
        rw [chosen_newest retain (fun f mem => newest f (mem_prune mem)) verifies own] at found
        exact (Option.some.inj found).symm
      | false =>
        cases done
        exact chosen_prune found
    · cases done
      exact found

/-! ## Careful runs -/

namespace Machine

variable {s : Machine}

/-- When an event leaves the newest backup with the membership of the moment the data file becomes
corrupt. -/
def Careful (s : Machine) : Event → Prop
  -- the membership is as it was when the data file became corrupt
  | .change _ => s.corrupt = none
  | .tick _ _ nowMs _ =>
    s.stored = s.effective ∧ (∀ file ∈ s.dir, file.createdUnixMs < nowMs) ∧
      membersFingerprint s.effective ≠ 0 ∧
      ∀ file, chosen s.self s.dir = some file →
        -- different memberships have different fingerprints
        (membersFingerprint file.header.members = membersFingerprint s.effective →
          file.header.members = s.effective) ∧
        -- the first look of a process
        ∀ last, s.task = some (some last) → last.members = 0 → file.header.members = s.effective
  | .damage _ => False
  | .corrupt => s.settled = true
  | _ => True

/-- Every event of the run is careful. -/
def CarefulRun (s : Machine) : List Event → Prop
  | [] => True
  | e :: events => s.Careful e ∧ CarefulRun (s.step e) events

structure Inv (s : Machine) : Prop where
  settled : s.settled = true → ∀ file, chosen s.self s.dir = some file →
    file.header.members = s.effective
  task : ∀ last, s.task = some (some last) → last.members ≠ 0 →
    ∀ file, chosen s.self s.dir = some file →
      membersFingerprint file.header.members = last.members
  corrupt : ∀ members, s.corrupt = some members → members = s.effective ∧ s.settled = true
  replaced : ∀ members ∈ s.replaced, ∀ id ∈ members, id = s.self

theorem members_firstLast {dir : List BackupFile} {last : Last} (first : firstLast dir = some last) :
    last.members = 0 := by
  unfold firstLast at first
  obtain ⟨file, -, rfl⟩ := Option.map_eq_some_iff.mp first
  rfl

/-- A backup that is not due: the fingerprint is that of the last one. -/
theorem members_of_not_due {cfg : BackupConfig} {last : Option Last} {since : Option Nat}
    {revision : Int} {members : UInt64} (not : due cfg last since revision members = false) :
    ∃ l, last = some l ∧ l.members = members := by
  unfold due at not
  cases last with
  | none => cases not
  | some l =>
    refine ⟨l, rfl, ?_⟩
    by_contra other
    have other : members ≠ l.members := fun same => other same.symm
    simp [other] at not

/-- What is adopted is as good as a fingerprint of the backup's. -/
theorem Inv.adopt (inv : Inv s) {last : Option Last} (task : s.task = some last)
    (same : ∀ file, chosen s.self s.dir = some file → ∀ last, s.task = some (some last) →
      last.members = 0 → file.header.members = s.effective) :
    ∀ l, adopt last (membersFingerprint s.effective) = some l → l.members ≠ 0 →
      ∀ file, chosen s.self s.dir = some file →
        membersFingerprint file.header.members = l.members := by
  intro l adopted some file found
  obtain ⟨old, rfl, new⟩ := Option.map_eq_some_iff.mp adopted
  split at new
  · next none =>
    rw [← new, same file found old task none]
  · next none =>
    rw [← new]
    exact inv.task old task none file found

theorem Inv.tick (inv : Inv s) {last : Option Last} (task : s.task = some last) {cfg : BackupConfig}
    {since : Option Nat} {nowMs : Nat} {disk : Disk} (careful : s.Careful (.tick cfg since nowMs disk)) :
    Inv (s.tick last cfg since nowMs disk) := by
  obtain ⟨stored, clock, nonzero, tells⟩ := careful
  have adopted := inv.adopt task fun file found => (tells file found).2
  unfold Machine.tick
  simp only
  split
  · split
    · next dir done =>
      -- the backup is written
      have here {file : BackupFile} (found : chosen s.self dir = some file) :
          file.header.members = s.effective := by
        have new := chosen_writeBackup clock rfl rfl done found
        rw [if_pos rfl] at new
        rw [new]
        exact stored
      refine ⟨fun _ file found => here found, fun l same _ file found => ?_,
        fun members held => ⟨(inv.corrupt members held).1, rfl⟩, inv.replaced⟩
      cases same
      rw [here found]
    · next dir done =>
      have old {file : BackupFile} (found : chosen s.self dir = some file) :
          chosen s.self s.dir = some file := by
        have new := chosen_writeBackup clock rfl rfl done found
        rwa [if_neg (by decide)] at new
      exact ⟨fun settled file found => inv.settled settled file (old found),
        fun l same some file found => adopted l (Option.some.inj same) some file (old found),
        inv.corrupt, inv.replaced⟩
  · next not =>
    obtain ⟨l, same, members⟩ := members_of_not_due (Bool.not_eq_true _ ▸ not)
    refine ⟨fun _ file found => (tells file found).1 ?_,
      fun l same some file found => adopted l (Option.some.inj same) some file found,
      fun m held => ⟨(inv.corrupt m held).1, rfl⟩, inv.replaced⟩
    rw [adopted l same (members ▸ nonzero) file found, members]

theorem Inv.start (inv : Inv s) (opts : OpenOptions) : Inv (s.start opts) := by
  have fresh (last : Last) (same : some (firstLast s.dir) = some (some last)) : last.members = 0 :=
    members_firstLast (Option.some.inj same)
  unfold Machine.start
  split
  · exact { inv with task := fun last same some => absurd (fresh last same) some }
  · next members held =>
    obtain ⟨rfl, settled⟩ := inv.corrupt members held
    split
    · exact inv
    · next header opened =>
      obtain ⟨file, found, alone, rfl⟩ : ∃ file, chosen s.self s.dir = some file ∧
          file.header.members.any (· != s.self) = false ∧ file.header = header := by
        unfold openOrRecover at opened
        split at opened
        · cases opened
        split at opened
        · cases opened
        split at opened
        · cases opened
        split at opened
        · cases opened
        · next file found =>
          split at opened
          · cases opened
          · next alone => exact ⟨file, found, Bool.not_eq_true _ ▸ alone, Except.ok.inj opened⟩
      have members := inv.settled settled file found
      refine ⟨fun _ f again => ?_, fun last same some => absurd (fresh last same) some, nofun,
        fun m mem => ?_⟩
      · rw [Option.some.inj (found.symm.trans again)]
      · rcases List.mem_append.mp mem with mem | mem
        · exact inv.replaced m mem
        · obtain rfl := List.mem_singleton.mp mem
          rw [← members]
          intro id held
          simpa using List.any_eq_false.mp alone id held

theorem Inv.step (inv : Inv s) {e : Event} (careful : s.Careful e) : Inv (s.step e) := by
  cases e with
  | change members =>
    have sound : s.corrupt = none := careful
    show Inv (if _ then _ else _)
    split
    · exact { inv with
        settled := nofun
        corrupt := fun m held => by
          have held : s.corrupt = some m := held
          rw [sound] at held
          cases held }
    · exact inv
  | apply =>
    show Inv (if _ then _ else _)
    split
    · exact { inv with }
    · exact inv
  | write revision =>
    show Inv (if _ then _ else _)
    split
    · exact { inv with }
    · exact inv
  | tick cfg since nowMs disk =>
    rw [Machine.step]
    cases task : s.task with
    | none => exact inv
    | some last => exact inv.tick task careful
  | damage i => exact careful.elim
  | corrupt =>
    have settled : s.settled = true := careful
    refine { inv with corrupt := fun members held => ?_ }
    have held : s.corrupt.or (some s.effective) = some members := held
    cases before : s.corrupt with
    | none =>
      rw [before] at held
      exact ⟨(Option.some.inj held).symm, settled⟩
    | some old =>
      rw [before] at held
      exact inv.corrupt members (before.trans held)
  | stop => exact { inv with task := nofun }
  | start opts =>
    show Inv (if _ then _ else _)
    split
    · exact inv
    · exact inv.start opts

theorem Inv.run {events : List Event} (inv : Inv s) (careful : s.CarefulRun events) :
    Inv (s.run events) := by
  induction events generalizing s with
  | nil => exact inv
  | cons e events ih => exact ih (inv.step careful.1) careful.2

theorem self_tick (s : Machine) (last : Option Last) (cfg : BackupConfig) (since : Option Nat)
    (nowMs : Nat) (disk : Disk) : (s.tick last cfg since nowMs disk).self = s.self := by
  unfold tick
  simp only
  split
  · split <;> rfl
  · rfl

theorem self_start (s : Machine) (opts : OpenOptions) : (s.start opts).self = s.self := by
  unfold start
  split
  · rfl
  · split <;> rfl

theorem self_step (s : Machine) (e : Event) : (s.step e).self = s.self := by
  cases e with
  | change members =>
    show (if s.task.isSome then _ else s).self = s.self
    split <;> rfl
  | apply =>
    show (if s.task.isSome then _ else s).self = s.self
    split <;> rfl
  | write revision =>
    show (if s.task.isSome then _ else s).self = s.self
    split <;> rfl
  | tick cfg since nowMs disk =>
    rw [step]
    split
    · rfl
    · exact self_tick ..
  | damage i => rfl
  | corrupt => rfl
  | stop => rfl
  | start opts =>
    show (if s.task.isSome then s else s.start opts).self = s.self
    split
    · rfl
    · exact s.self_start opts

theorem self_run (s : Machine) (events : List Event) : (s.run events).self = s.self :=
  List.foldlRecOn (motive := fun (t : Machine) => t.self = s.self) events _ rfl
    fun t same e _ => (t.self_step e).trans same

/-- A member before its first start, with what may be in the backup directory. -/
def before (self : NodeId) (members : List NodeId) (revision : Int) (dir : List BackupFile) : Machine :=
  { self := self, effective := members, stored := members, revision := revision, dir := dir }

/-- A data file is replaced by a backup only if the member was alone when the file became corrupt. -/
theorem replaced_only_alone {self : NodeId} {members : List NodeId} {revision : Int}
    {dir : List BackupFile} {events : List Event}
    (careful : (before self members revision dir).CarefulRun events) :
    ∀ m ∈ ((before self members revision dir).run events).replaced, ∀ id ∈ m, id = self := by
  have inv : Inv (before self members revision dir) := ⟨nofun, nofun, nofun, nofun⟩
  intro m mem id held
  rw [(inv.run careful).replaced m mem id held, self_run]
  rfl

/-! ## A process that starts after a membership change -/

/-- Every revision is backed up. -/
def eager : BackupConfig := ⟨900, 1, 4⟩

/-- A member of a cluster of one, as configured. -/
def oneMember : OpenOptions := ⟨true, .restore, 1, 1⟩

/-- The process starts, and the backup task looks. -/
def backedUp : List Event := [.start oneMember, .tick eager none 1 .written]

theorem replaced_only_alone_once :
    (before 1 [1] 0 []).CarefulRun (backedUp ++ [.corrupt, .stop, .start oneMember]) ∧
      ((before 1 [1] 0 []).run (backedUp ++ [.corrupt, .stop, .start oneMember])).replaced =
        [[1]] ∧
      ∀ m ∈ ((before 1 [1] 0 []).run
        (backedUp ++ [.corrupt, .stop, .start oneMember])).replaced, ∀ id ∈ m, id = 1 := by
  have careful : (before 1 [1] 0 []).CarefulRun (backedUp ++ [.corrupt, .stop, .start oneMember]) := by
    have look : Careful ((before 1 [1] 0 []).step (.start oneMember))
        (.tick eager none 1 .written) := ⟨rfl, nofun, by decide +kernel, nofun⟩
    exact ⟨trivial, look, rfl, trivial, trivial, trivial⟩
  exact ⟨careful, rfl, replaced_only_alone careful⟩

/-- Member 2 is added and the process starts again before the task looks. The task looks twice, and
the data file is replaced by the backup of member 1 alone. -/
theorem restart_hides_membership_change :
    ((before 1 [1] 0 []).run (backedUp ++
      [.change [1, 2], .apply, .stop, .start oneMember, .tick eager (some 10) 2 .written,
        .tick eager (some 20) 3 .written, .corrupt, .stop, .start oneMember])).replaced =
      [[1, 2]] := by
  decide +kernel

end Machine

end Fastetcd.Server
