import Fastetcd.Laws.Storage.Flushing
import Fastetcd.Storage.Rewrite

/-!
# What an online rewrite keeps

While the rewrite runs, the new file with the work still to be done on it and the captured commits
is the file in use (`Building.caught`), unless the capture was abandoned. So when the switch has
applied the last captured commits under the write lock, the new file has every commit. An error
before the rename leaves the data path and the handle at the old file. An error after it, which only
the directory's sync can give, leaves the path at the new file and the handle at the old one.
-/

namespace Fastetcd.Storage

theorem Db.commit_append (db : Db) (a b : WriteBatch) :
    db.commit (a ++ b) = (db.commit a).commit b := List.foldl_append

namespace Rewrite

/-! ## Copying tables -/

@[simp]
theorem File.db_commit (file : File) (batch : WriteBatch) :
    (file.commit batch).db = file.db.commit batch := by
  induction batch generalizing file with
  | nil => rfl
  | cons op batch ih => exact ih (file.apply op)

theorem chunk_append (limit bytes : Nat) (rows : List Row) :
    (chunk limit bytes rows).1 ++ (chunk limit bytes rows).2.getD [] = rows := by
  induction rows generalizing bytes with
  | nil => rfl
  | cons row rows ih =>
    rw [chunk]
    split
    · rfl
    · exact congrArg (row :: ·) (ih _)

theorem commit_putRows (db : Db) (table other : String) (rows : List Row) :
    db.commit (putRows table rows) other =
      if other = table then rows.foldl (fun t row => t.insert row.1 row.2) (db other)
      else db other := by
  induction rows generalizing db with
  | nil => exact (ite_self _).symm
  | cons row rows ih =>
    have first : db.commit (putRows table (row :: rows)) =
        (db.apply (.put table row.1 row.2)).commit (putRows table rows) := rfl
    rw [first, ih]
    by_cases here : other = table
    · subst here
      simp only [if_true, Db.apply, Db.set, Function.update_self, List.foldl_cons]
    · simp only [if_neg here, Db.apply, Db.set, Function.update_of_ne here]

def putTables (todo : List (String × List Row)) : WriteBatch :=
  todo.flatMap fun t => putRows t.1 t.2

/-- The rows of some tables put over a part of them are those tables. -/
theorem commit_putTables {db read : Db} (part : ∀ t, ∀ k ∈ db t, k ∈ read t) (names : List String)
    (table : String) :
    db.commit (putTables (names.map fun t => (t, (read t).toList))) table =
      if table ∈ names then read table else db table := by
  induction names generalizing db with
  | nil => exact (if_neg List.not_mem_nil).symm
  | cons name names ih =>
    have copied (t : String) : db.commit (putRows name (read name).toList) t =
        if t = name then read t else db t := by
      rw [commit_putRows]
      split
      · subst name
        exact Table.overwrite_eq_iff.mpr (part t)
      · rfl
    have still : ∀ t, ∀ k ∈ db.commit (putRows name (read name).toList) t, k ∈ read t := by
      intro t k mem
      rw [copied] at mem
      split at mem
      · exact mem
      · exact part t k mem
    have split : putTables ((name :: names).map fun t => (t, (read t).toList)) =
        putRows name (read name).toList ++ putTables (names.map fun t => (t, (read t).toList)) := rfl
    rw [split, Db.commit_append, ih still, copied]
    by_cases here : table = name
    · simp [here]
    · simp [here]

/-- A fresh file, all tables of `read` put into it. -/
theorem copy_whole (read : File) : File.empty.db.commit (putTables read.rows) = read.db := by
  funext table
  have part : ∀ t, ∀ k ∈ File.empty.db t, k ∈ read.db t := by
    intro t k mem
    exact absurd mem Std.ExtTreeMap.not_mem_empty
  rw [File.rows, commit_putTables part]
  split
  · rfl
  · exact (read.listed table ‹_›).symm

/-! ## The invariant -/

namespace Work

/-- What is still to be applied to the new file, the capture apart. -/
def ops : Work → WriteBatch
  | copying todo | checking todo => putTables todo
  | applying _ ops _ | finishing ops => ops
  | _ => []

/-- Whether commits are captured. -/
def captures : Work → Bool
  | finishing _ | reopening | moving | syncing | swapping => false
  | _ => true

/-- Whether the data path names the new file. -/
def renamed : Work → Bool
  | syncing | swapping => true
  | _ => false

end Work

def Phase.captures : Phase → Bool
  | .building _ work => work.captures
  | _ => true

theorem Phase.captures_of_free {phase : Phase} (free : phase.locked = false) :
    phase.captures = true := by
  cases phase with
  | building new work => cases work <;> first | rfl | cases free
  | _ => rfl

/-- The rewrite stopped before the rename. -/
def Stop.beforeRename : Stop → Bool
  | .failed .syncDir | .failed .sizeAfter => false
  | _ => true

/-- The captured commits, if there is a capture to be, take `target` to `current`. -/
def Caught (target current : Db) : (captures : Bool) → Option Capture → Prop
  | true, some captured => captured.abandoned = none → target.commit captured.ops = current
  | false, none => target = current
  | _, _ => False

/-- The data path and the handle are as they were when the engine was opened. -/
structure Unswitched (first c : Config) : Prop where
  handle : c.handle = first.handle
  path : c.path = c.handle

structure Building (first c : Config) (new : Nat) (work : Work) : Prop where
  other : new ≠ c.handle
  below : new < c.fresh
  old : c.handle = first.handle
  before : work.renamed = false → c.path = c.handle ∧ c.tmp = some new
  after : work.renamed = true → c.path = new
  caught : Caught ((c.files new).db.commit work.ops) c.db work.captures c.capture

def At (first c : Config) : Phase → Prop
  | .idle => Unswitched first c
  | .starting => Unswitched first c
  | .creating read => Unswitched first c ∧ Caught read.db c.db true c.capture
  | .building new work => Building first c new work
  | .measuring => c.path = c.handle
  | .returned (.ok ()) => c.path = c.handle
  | .returned (.error why) =>
    (c.path = c.handle ↔ why ≠ .failed .syncDir) ∧
      (why.beforeRename = true → c.handle = first.handle)

structure Inv (first c : Config) : Prop where
  content : c.db = first.db.commitAll c.commits
  below : c.handle < c.fresh
  requested : ∀ n ∈ c.requests, n ≤ c.commits.length
  shown : ∀ s ∈ c.served, ∃ k, s.1 ≤ k ∧ k ≤ c.commits.length ∧
    s.2 = first.db.commitAll (c.commits.take k)
  phase : At first c c.phase

variable {first c : Config} {new : Nat}

@[simp]
theorem Config.files_setFile_self (c : Config) (inode : Nat) (file : File) :
    (c.setFile inode file).files inode = file := Function.update_self ..

theorem Config.files_setFile_of_ne {inode other : Nat} (ne : other ≠ inode) (file : File) :
    (c.setFile inode file).files other = c.files other := Function.update_of_ne ne ..

theorem Start.inv (start : Start c) : Inv c c where
  content := by rw [start.noCommits]; rfl
  below := start.below
  requested := by rw [start.noRequests]; exact nofun
  shown := by rw [start.noSnapshots]; exact nofun
  phase := by rw [start.idle]; exact ⟨rfl, start.named⟩

/-! ### Commits and snapshots -/

/-- A step of another task: the rewrite's own files and names stay as they are. -/
theorem At.transfer {c' : Config} {phase : Phase} (at_ : At first c phase)
    (handle : c'.handle = c.handle) (path : c'.path = c.path) (tmp : c'.tmp = c.tmp)
    (fresh : c'.fresh = c.fresh) (files : ∀ inode ≠ c.handle, c'.files inode = c.files inode)
    (caught : ∀ target, Caught target c.db phase.captures c.capture →
      Caught target c'.db phase.captures c'.capture) : At first c' phase := by
  have unswitched (old : Unswitched first c) : Unswitched first c' :=
    ⟨handle.trans old.handle, by rw [path, handle, old.path]⟩
  cases phase with
  | idle => exact unswitched at_
  | starting => exact unswitched at_
  | creating read => exact ⟨unswitched at_.1, caught _ at_.2⟩
  | building new work =>
    have same := files new at_.other
    refine ⟨by rw [handle]; exact at_.other, by rw [fresh]; exact at_.below,
      by rw [handle]; exact at_.old, by rw [path, handle, tmp]; exact at_.before,
      by rw [path]; exact at_.after, ?_⟩
    rw [same]
    exact caught _ at_.caught
  | measuring =>
    show c'.path = c'.handle
    rw [path, handle]
    exact at_
  | returned result =>
    cases result with
    | ok _ =>
      show c'.path = c'.handle
      rw [path, handle]
      exact at_
    | error why =>
      show (c'.path = c'.handle ↔ _) ∧ (_ → c'.handle = first.handle)
      rw [path, handle]
      exact at_

theorem Capture.push_kept {captured : Capture} {batch : WriteBatch}
    (kept : (captured.push batch).abandoned = none) :
    captured.abandoned = none ∧ (captured.push batch).ops = captured.ops ++ batch := by
  by_cases abandoned : captured.abandoned.isSome
  · rw [Capture.push, if_pos abandoned] at kept
    rw [kept] at abandoned
    cases abandoned
  · refine ⟨Option.not_isSome_iff_eq_none.mp abandoned, ?_⟩
    simp only [Capture.push, if_neg abandoned] at kept ⊢
    split at kept
    · simp [Capture.abandon] at kept
    · rw [if_neg ‹_›]

theorem Caught.push {target current : Db} {capture : Option Capture} (batch : WriteBatch)
    (caught : Caught target current true capture) :
    Caught target (current.commit batch) true (capture.map (·.push batch)) := by
  cases capture with
  | none => exact caught
  | some captured =>
    show (captured.push batch).abandoned = none → _
    intro kept
    obtain ⟨open_, ops⟩ := Capture.push_kept kept
    show target.commit (captured.push batch).ops = _
    rw [ops, Db.commit_append, caught open_]

theorem Caught.abandon {target current : Db} {capture : Option Capture} (why : String)
    (current' : Db) (caught : Caught target current true capture) :
    Caught target current' true (capture.map (·.abandon why)) := by
  cases capture with
  | none => exact caught
  | some captured =>
    show (captured.abandon why).abandoned = none → _
    intro kept
    simp [Capture.abandon] at kept

/-- A commit on the file in use: what both kinds of commit leave. -/
theorem Inv.commits (inv : Inv first c) {batch : WriteBatch} {capture : Option Capture}
    (free : c.phase.locked = false)
    (kept : ∀ target, Caught target c.db true c.capture →
      Caught target (c.db.commit batch) true capture) :
    Inv first { c.write c.handle batch with
      capture := capture, commits := c.commits ++ [batch] } := by
  have db : ((c.write c.handle batch).files c.handle).db = c.db.commit batch := by
    rw [Config.write, Config.files_setFile_self, File.db_commit]
    rfl
  refine ⟨?_, inv.below, ?_, ?_, ?_⟩
  · show ((c.write c.handle batch).files c.handle).db = _
    rw [db, Db.commitAll_concat, inv.content]
  · intro n asked
    have le := inv.requested n asked
    show n ≤ (c.commits ++ [batch]).length
    rw [List.length_append]
    omega
  · intro s mem
    obtain ⟨k, le, upto, eq⟩ := inv.shown s mem
    refine ⟨k, le, ?_, ?_⟩
    · show k ≤ (c.commits ++ [batch]).length
      rw [List.length_append]
      omega
    · show s.2 = first.db.commitAll ((c.commits ++ [batch]).take k)
      rw [List.take_append_of_le_length upto, eq]
  · refine inv.phase.transfer rfl rfl rfl rfl (fun inode ne => Config.files_setFile_of_ne ne _) ?_
    intro target caught
    show Caught target ((c.write c.handle batch).files c.handle).db c.phase.captures capture
    rw [Phase.captures_of_free free] at caught ⊢
    rw [db]
    exact kept target caught

theorem Inv.commit (inv : Inv first c) (batch : WriteBatch) (free : c.phase.locked = false) :
    Inv first (c.commit batch) :=
  inv.commits free fun _ caught => caught.push batch

theorem Inv.commitStream (inv : Inv first c) (batch : WriteBatch) (free : c.phase.locked = false) :
    Inv first (c.commitStream batch) :=
  inv.commits free fun _ caught => caught.abandon _ _

theorem Inv.request (inv : Inv first c) :
    Inv first { c with requests := c.commits.length :: c.requests } := by
  refine ⟨inv.content, inv.below, ?_, inv.shown, ?_⟩
  · intro n asked
    obtain rfl | asked := List.mem_cons.mp asked
    · exact Nat.le_refl _
    · exact inv.requested n asked
  · exact inv.phase.transfer rfl rfl rfl rfl (fun _ _ => rfl) fun _ caught => caught

theorem Inv.serve (inv : Inv first c) {n : Nat} (asked : n ∈ c.requests) :
    Inv first { c with served := (n, c.db) :: c.served } := by
  refine ⟨inv.content, inv.below, inv.requested, ?_, ?_⟩
  · intro s mem
    obtain rfl | mem := List.mem_cons.mp mem
    · refine ⟨c.commits.length, inv.requested n asked, Nat.le_refl _, ?_⟩
      rw [List.take_length]
      exact inv.content
    · exact inv.shown s mem
  · exact inv.phase.transfer rfl rfl rfl rfl (fun _ _ => rfl) fun _ caught => caught

/-- A step that changes only the rewrite's own state. -/
theorem Inv.inPhase (inv : Inv first c) {c' : Config} (db : c'.db = c.db)
    (handle : c'.handle < c'.fresh) (commits : c'.commits = c.commits)
    (requests : c'.requests = c.requests) (served : c'.served = c.served)
    (at_ : At first c' c'.phase) : Inv first c' where
  content := by rw [db, commits]; exact inv.content
  below := handle
  requested := by rw [requests, commits]; exact inv.requested
  shown := by rw [served, commits]; exact inv.shown
  phase := at_

/-! ### The rewrite's steps -/

theorem Inv.building {work : Work} (inv : Inv first c) (phase : c.phase = .building new work) :
    Building first c new work := by
  have at_ := inv.phase
  rw [phase] at at_
  exact at_

theorem Building.unswitched {work : Work} (b : Building first c new work)
    (before : work.renamed = false) : Unswitched first c := ⟨b.old, (b.before before).1⟩

theorem Inv.stop (inv : Inv first c) (old : Unswitched first c) {why : Stop}
    (before : why.beforeRename = true) : Inv first (c.stop why) := by
  refine inv.inPhase rfl inv.below rfl rfl rfl ⟨iff_of_true old.path ?_, fun _ => old.handle⟩
  rintro rfl
  cases before

/-- A transaction of the new file, after which `work'` is left to do where `work` was before. -/
theorem Inv.write {work work' : Work} (inv : Inv first c) (phase : c.phase = .building new work)
    (file : File) (same : file.db.commit work'.ops = (c.files new).db.commit work.ops)
    (captures : work'.captures = work.captures) (renamed : work'.renamed = work.renamed) :
    Inv first ((c.setFile new file).at_ new work') := by
  have b := inv.building phase
  have db : ((c.setFile new file).files c.handle).db = c.db := by
    rw [Config.files_setFile_of_ne b.other.symm]
    rfl
  refine inv.inPhase db inv.below rfl rfl rfl ⟨b.other, b.below, b.old, ?_, ?_, ?_⟩
  · rw [renamed]
    exact b.before
  · rw [renamed]
    exact b.after
  · show Caught (((c.setFile new file).files new).db.commit work'.ops)
      ((c.setFile new file).files c.handle).db work'.captures c.capture
    rw [Config.files_setFile_self, db, same, captures]
    exact b.caught

/-- A step that leaves the new file as it is. -/
theorem Inv.next {work work' : Work} (inv : Inv first c) (phase : c.phase = .building new work)
    (ops : work'.ops = work.ops) (captures : work'.captures = work.captures)
    (renamed : work'.renamed = work.renamed) : Inv first (c.at_ new work') := by
  have same : c.setFile new (c.files new) = c := by
    rw [Config.setFile, Function.update_eq_self]
  have moved := inv.write phase (c.files new) (congrArg _ ops) captures renamed
  rw [same] at moved
  exact moved

theorem Config.takeCapture_cases {captured : Capture} (capture : c.capture = some captured)
    (next : WriteBatch → Nat → Work) (new : Nat) :
    (∃ why, c.takeCapture next new = c.stop (.abandoned why)) ∨
      captured.abandoned = none ∧ c.takeCapture next new =
        { c with capture := some { captured with ops := [], bytes := 0 } }.at_ new
          (next captured.ops captured.bytes) := by
  cases abandoned : captured.abandoned with
  | none =>
    refine .inr ⟨rfl, ?_⟩
    simp only [Config.takeCapture, capture, abandoned]
  | some why =>
    refine .inl ⟨why, ?_⟩
    simp only [Config.takeCapture, capture, abandoned]

/-- A pass takes the captured operations: what they would have done is left to do. -/
theorem Inv.take {work : Work} {next : WriteBatch → Nat → Work} (inv : Inv first c)
    (phase : c.phase = .building new work) (ops : work.ops = []) (captures : work.captures = true)
    (before : work.renamed = false) (nextOps : ∀ ops bytes, (next ops bytes).ops = ops)
    (nextCaptures : ∀ ops bytes, (next ops bytes).captures = true)
    (nextBefore : ∀ ops bytes, (next ops bytes).renamed = false) :
    Inv first (c.takeCapture next new) := by
  have b := inv.building phase
  have caught := b.caught
  rw [captures, ops] at caught
  cases capture : c.capture with
  | none =>
    rw [capture] at caught
    exact caught.elim
  | some captured =>
    rw [capture] at caught
    obtain ⟨why, stopped⟩ | ⟨kept, taken⟩ := Config.takeCapture_cases capture next new
    · rw [stopped]
      exact inv.stop (b.unswitched before) rfl
    · rw [taken]
      refine inv.inPhase rfl inv.below rfl rfl rfl ⟨b.other, b.below, b.old, ?_, ?_, ?_⟩
      · intro _
        exact b.before before
      · intro renamed
        rw [nextBefore] at renamed
        cases renamed
      · show Caught ((c.files new).db.commit (next captured.ops captured.bytes).ops) c.db
          (next captured.ops captured.bytes).captures (some _)
        rw [nextCaptures, nextOps]
        intro _
        exact caught kept

/-- The switch takes the last captured operations, and the capture ends: no commit is made until it
is over. -/
theorem Inv.takeLast (inv : Inv first c) (phase : c.phase = .building new .switching) :
    Inv first { c.takeCapture (fun ops _ => .finishing ops) new with capture := none } := by
  have b := inv.building phase
  have caught := b.caught
  cases capture : c.capture with
  | none =>
    rw [capture] at caught
    exact caught.elim
  | some captured =>
    rw [capture] at caught
    obtain ⟨why, stopped⟩ | ⟨kept, taken⟩ :=
      Config.takeCapture_cases capture (fun ops _ => .finishing ops) new
    · rw [stopped]
      exact inv.stop (b.unswitched rfl) rfl
    · rw [taken]
      exact inv.inPhase rfl inv.below rfl rfl rfl
        ⟨b.other, b.below, b.old, fun _ => b.before rfl, nofun, caught kept⟩

theorem Inv.copyChunk {table : String} {rows : List Row} {todo : List (String × List Row)}
    (inv : Inv first c) (phase : c.phase = .building new (.copying ((table, rows) :: todo))) :
    Inv first (c.build new (.copying ((table, rows) :: todo))) := by
  refine inv.write phase _ ?_ rfl rfl
  rw [File.db_commit]
  show ((c.files new).db.commit _).commit _ = _
  rw [← Db.commit_append]
  refine congrArg _ ?_
  have whole : putRows table rows = putRows table (chunk rewriteChunkBytes 0 rows).1 ++
      putRows table ((chunk rewriteChunkBytes 0 rows).2.getD []) := by
    nth_rewrite 1 [← chunk_append rewriteChunkBytes 0 rows]
    rw [putRows, putRows, putRows, List.map_append]
  show _ = putRows table rows ++ putTables todo
  rw [whole, List.append_assoc]
  cases (chunk rewriteChunkBytes 0 rows).2 <;> rfl

theorem Inv.build {work : Work} (inv : Inv first c) (phase : c.phase = .building new work) :
    Inv first (c.build new work) := by
  have b := inv.building phase
  cases work with
  | copying todo =>
    cases todo with
    | nil => exact inv.next phase rfl rfl rfl
    | cons t todo => exact inv.copyChunk phase
  | checking todo =>
    rw [Config.build]
    split
    · exact inv.stop (b.unswitched rfl) rfl
    · exact inv.next phase rfl rfl rfl
  | catching passes =>
    cases passes with
    | zero => exact inv.next phase rfl rfl rfl
    | succ passes => exact inv.take phase rfl rfl rfl (fun _ _ => rfl) (fun _ _ => rfl) fun _ _ => rfl
  | applying passes ops bytes =>
    rw [Config.build]
    split <;> exact inv.write phase _ (by rw [File.db_commit]; rfl) rfl rfl
  | settling => exact inv.write phase _ rfl rfl rfl
  | compacting => exact inv.next phase rfl rfl rfl
  | waiting => exact inv.next phase rfl rfl rfl
  | switching => exact inv.takeLast phase
  | finishing ops => exact inv.write phase _ (by rw [File.db_commit]; rfl) rfl rfl
  | reopening =>
    rw [Config.build, (b.before rfl).2]
    exact inv.next phase rfl rfl rfl
  | moving =>
    rw [Config.build, (b.before rfl).2]
    exact inv.inPhase rfl inv.below rfl rfl rfl
      ⟨b.other, b.below, b.old, nofun, fun _ => rfl, b.caught⟩
  | syncing => exact inv.next phase rfl rfl rfl
  | swapping =>
    have whole : (c.files new).db = c.db := by
      have caught := b.caught
      cases capture : c.capture with
      | none =>
        rw [capture] at caught
        exact caught
      | some captured =>
        rw [capture] at caught
        exact caught.elim
    exact inv.inPhase whole b.below rfl rfl rfl (b.after rfl)

theorem Inv.go (inv : Inv first c) : Inv first c.go := by
  have at_ := inv.phase
  rw [Config.go]
  cases phase : c.phase with
  | idle =>
    rw [phase] at at_
    exact inv.inPhase rfl inv.below rfl rfl rfl ⟨at_.handle, at_.path⟩
  | starting =>
    rw [phase] at at_
    exact inv.inPhase rfl inv.below rfl rfl rfl ⟨⟨at_.handle, at_.path⟩, fun _ => rfl⟩
  | creating read =>
    rw [phase] at at_
    have other : c.fresh ≠ c.handle := inv.below.ne'
    have db : ((c.setFile c.fresh .empty).files c.handle).db = c.db := by
      rw [Config.files_setFile_of_ne other.symm]
      rfl
    refine inv.inPhase db (Nat.lt_succ_of_lt inv.below) rfl rfl rfl
      ⟨other, Nat.lt_succ_self _, at_.1.handle, fun _ => ⟨at_.1.path, rfl⟩, nofun, ?_⟩
    show Caught (((c.setFile c.fresh .empty).files c.fresh).db.commit (putTables read.rows))
      ((c.setFile c.fresh .empty).files c.handle).db true c.capture
    rw [Config.files_setFile_self, copy_whole, db]
    exact at_.2
  | building new work => exact inv.build phase
  | measuring =>
    rw [phase] at at_
    exact inv.inPhase rfl inv.below rfl rfl rfl at_
  | returned result => exact inv

theorem Inv.fail (inv : Inv first c) {op : Op} (next : c.phase.op = some op) :
    Inv first (c.stop (.failed op)) := by
  have at_ := inv.phase
  cases phase : c.phase with
  | idle =>
    rw [phase] at at_ next
    cases next
    exact inv.stop at_ rfl
  | starting =>
    rw [phase] at at_ next
    cases next
    exact inv.stop at_ rfl
  | creating read =>
    rw [phase] at at_ next
    cases next
    exact inv.stop at_.1 rfl
  | building new work =>
    rw [phase] at at_ next
    cases work with
    | syncing =>
      cases next
      refine inv.inPhase rfl inv.below rfl rfl rfl ⟨iff_of_false ?_ fun ne => ne rfl, nofun⟩
      intro named
      exact at_.other ((at_.after rfl).symm.trans named)
    | checking _ | catching _ | waiting | switching | swapping => cases next
    | copying _ | applying _ _ _ | settling | compacting | finishing _ | reopening | moving =>
      cases next
      exact inv.stop (at_.unswitched rfl) rfl
  | measuring =>
    rw [phase] at at_ next
    cases next
    exact inv.inPhase rfl inv.below rfl rfl rfl ⟨iff_of_true at_ nofun, nofun⟩
  | returned result =>
    rw [phase] at next
    cases next

/-! ## Runs -/

theorem Step.inv {c' : Config} (step : Step c c') (inv : Inv first c) : Inv first c' := by
  cases step with
  | commit batch free => exact inv.commit batch free
  | commitStream batch free => exact inv.commitStream batch free
  | request => exact inv.request
  | serve n asked free => exact inv.serve asked
  | go => exact inv.go
  | fail op next => exact inv.fail next

theorem Steps.inv (start : Start first) (steps : Steps first c) : Inv first c := by
  induction steps with
  | refl => exact start.inv
  | tail _ step ih => exact step.inv ih

theorem Steps.goes (c : Config) (n : Nat) : Steps c (Config.go^[n] c) := by
  induction n with
  | zero => exact .refl
  | succ n ih =>
    rw [Function.iterate_succ_apply']
    exact ih.tail (.go _)

/-- A store that was just created and opened. -/
def created : Config where
  files _ := .empty
  fresh := 1
  path := 0
  tmp := none
  handle := 0
  capture := none
  phase := .idle
  commits := []
  requests := []
  served := []

theorem created_start : Start created := ⟨rfl, Nat.one_pos, rfl, rfl, rfl, rfl, rfl, rfl⟩

/-- A commit of one row. -/
def oneRow : WriteBatch := [.put "mvcc_kv" [1] [2]]

/-- The new file could not be created; a commit follows. -/
def uncreated : Config := ((Config.go^[2] created).stop (.failed .create)).commit oneRow

theorem uncreated_steps : Steps created uncreated :=
  ((Steps.goes created 2).tail (.fail _ .create rfl)).tail (.commit _ oneRow rfl)

/-- The directory could not be synced after the rename; a commit follows. -/
def unsynced : Config := ((Config.go^[13] created).stop (.failed .syncDir)).commit oneRow

theorem unsynced_steps : Steps created unsynced :=
  ((Steps.goes created 13).tail (.fail _ .syncDir rfl)).tail (.commit _ oneRow rfl)

/-- When a rewrite has returned `Err`, at once and after any commits since, the data path names the
file the handle writes to, and opening it again finds every commit, if and only if what failed was
not the sync of the directory after the rename. -/
theorem failed_rewrite_keeps_path (start : Start first) (steps : Steps first c) {why : Stop}
    (returned : c.phase = .returned (.error why)) :
    (c.path = c.handle ∧ c.reopened = first.db.commitAll c.commits) ↔ why ≠ .failed .syncDir := by
  have inv := Steps.inv start steps
  have at_ := inv.phase
  rw [returned] at at_
  constructor
  · rintro ⟨named, -⟩
    exact at_.1.mp named
  · intro other
    have named := at_.1.mpr other
    refine ⟨named, ?_⟩
    rw [Config.reopened, named]
    exact inv.content

theorem failed_rewrite_keeps_path_uncreated :
    uncreated.path = uncreated.handle ∧
      uncreated.reopened = created.db.commitAll uncreated.commits :=
  (failed_rewrite_keeps_path created_start uncreated_steps rfl).mpr nofun

/-- After a failed sync of the directory the commit is acknowledged by the old file, which nothing
names any more. -/
theorem unsynced_loses_commit :
    Start created ∧ Steps created unsynced ∧
      unsynced.phase = .returned (.error (.failed .syncDir)) ∧ unsynced.path ≠ unsynced.handle ∧
        unsynced.commits = [oneRow] ∧ unsynced.reopened.get "mvcc_kv" [1] = none := by
  refine ⟨created_start, unsynced_steps, rfl, ?_, rfl, ?_⟩
  · decide +kernel
  · decide +kernel

/-- A rewrite to its end with a commit during the copy, and a snapshot asked for before the commit and
taken after the switch. -/
def rewritten : Config :=
  let copying := { Config.go^[3] created with requests := [0] }.commit oneRow
  let switched := Config.go^[13] copying
  { switched with served := [(0, switched.db)] }

theorem rewritten_steps : Steps created rewritten := by
  have copying := ((Steps.goes created 3).tail (.request _)).tail (.commit _ oneRow rfl)
  exact (copying.trans (Steps.goes _ 13)).tail (.serve _ 0 (by decide +kernel) rfl)

end Rewrite

end Fastetcd.Storage
