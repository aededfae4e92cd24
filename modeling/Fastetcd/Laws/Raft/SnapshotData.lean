import Fastetcd.Raft.SnapshotData

/-!
# What is received is what was written

The same seeks and writes, applied to a cursor in memory, are the reference. A body that all calls
returned `Ok` on has the reference's bytes and position, in the file as in memory (`Tracks`). A
failed write left a part of its data behind; whatever writes the data again writes it at the same
position, over that part.
-/

namespace Fastetcd.Raft.Received

open Mvcc (Bytes)

/-- The calls on a buffer in memory. -/
def Cursor.call (c : Cursor) : Call → Except IoError Cursor
  | .seek target _ => c.seek target
  | .write data _ => .ok (c.put data)

def Cursor.run (c : Cursor) (calls : List Call) : Except IoError Cursor :=
  calls.foldlM Cursor.call c

/-- The body in a file or in memory is the buffer. -/
def Tracks : Body → Cursor → Prop
  | .incoming file _, c => file = c
  | .memory cursor, c => cursor = c
  | .retained _, _ => False

variable {b b' : Body} {c : Cursor} {data : Bytes} {pos : Nat} {faults : Faults}

/-- The file holds what it held before, and maybe a part of `data` at `pos`: writing `data` there
gives the same. -/
def Partly (before : Bytes) (pos : Nat) (data : Bytes) (file : Cursor) : Prop :=
  writeAt 0 file.bytes pos data = writeAt 0 before pos data

theorem ok_of_map {ε α β : Type} {f : α → β} {x : Except ε α} {y : β}
    (eq : f <$> x = .ok y) : ∃ a, x = .ok a ∧ y = f a := by
  cases x with
  | error e => cases eq
  | ok a =>
    cases eq
    exact ⟨a, rfl, rfl⟩

section

variable {before : Bytes} {file file' : Cursor} {fault : Option IoError} {discarded : Bool}

theorem Partly.put (partly : Partly before pos data file) (there : file.pos = pos) (part : Nat) :
    Partly before pos data (file.put (data.take part)) := by
  rw [Cursor.put]
  split
  · exact partly
  · show writeAt 0 (writeAt 0 file.bytes file.pos (data.take part)) pos data = _
    rw [there, writeAt_writeAt 0 (List.length_take_le' _ _)]
    exact partly

theorem Partly.write (partly : Partly before pos data file) (there : file.pos = pos) :
    file.write data = Cursor.write ⟨before, pos⟩ data := by
  rw [Cursor.write, there, partly]
  rfl

theorem seek_of_seekFile {target : SeekFrom} (sought : file.seekFile target fault = .ok file') :
    file.seek target = .ok file' := by
  cases fault with
  | some e => cases sought
  | none =>
    rw [Cursor.seekFile] at sought
    cases found : file.seek target with
    | error e =>
      rw [found] at sought
      cases sought
    | ok f =>
      rw [found] at sought
      by_cases small : f.pos < 2 ^ 63
      · simp only [bind, Except.bind, if_pos small] at sought
        exact sought
      · simp only [bind, Except.bind, if_neg small] at sought
        cases sought

theorem seek_start (sought : file.seek (.start pos) = .ok file') : file' = { file with pos } := by
  rw [Cursor.seek, Cursor.moveTo] at sought
  split at sought
  · exact (Except.ok.inj sought).symm
  · cases sought

/-- Falling back writes `data` at `pos` over what the file holds. -/
theorem Partly.fallBack {err : IoError} (partly : Partly before pos data file)
    (returned :
      (Body.incoming file discarded).fallBackToMemory err pos data faults = (b', .ok ())) :
    b' = .memory (Cursor.write ⟨before, pos⟩ data) := by
  rw [Body.fallBackToMemory] at returned
  cases fault : faults.readBack with
  | some e =>
    rw [fault] at returned
    cases returned
  | none =>
    rw [fault] at returned
    cases returned
    have rewound : Partly before pos data ⟨file.bytes, pos⟩ := partly
    rw [rewound.write rfl]

theorem Partly.recover {err : IoError} (partly : Partly before pos data file) (nonempty : data ≠ [])
    (returned : (Body.incoming file discarded).recoverWrite err pos data faults = (b', .ok ())) :
    Tracks b' (Cursor.write ⟨before, pos⟩ data) := by
  rw [Body.recoverWrite] at returned
  split at returned
  · cases sought : file.seekFile (.start pos) faults.retrySeek with
    | error e =>
      rw [sought] at returned
      rw [partly.fallBack returned]
      rfl
    | ok rewound =>
      obtain rfl := seek_start (seek_of_seekFile sought)
      have partly : Partly before pos data { file with pos } := partly
      rw [sought] at returned
      cases retry : faults.retry with
      | all =>
        simp only [retry, Cursor.writeAllFile] at returned
        cases returned
        rw [Cursor.put, if_neg nonempty]
        exact partly.write rfl
      | failed e part pos' =>
        simp only [retry, Cursor.writeAllFile] at returned
        have again : Partly before pos data
            { ({ file with pos } : Cursor).put (data.take part) with pos := pos' } :=
          partly.put rfl part
        rw [again.fallBack returned]
        rfl
  · rw [partly.fallBack returned]
    rfl

end

/-- A `poll_write` that returns `Ok` wrote all of the data. -/
theorem Tracks.pollWrite {n : Nat} (tracks : Tracks b c) (nonempty : data ≠ [])
    (returned : b.pollWrite data faults = (b', .ok n)) : Tracks b' (c.write data) := by
  cases b with
  | retained file => exact tracks.elim
  | memory cursor =>
    obtain rfl : cursor = c := tracks
    cases returned
    rfl
  | incoming file discarded =>
    obtain rfl : file = c := tracks
    rw [Body.pollWrite] at returned
    cases fault : faults.position with
    | some e =>
      rw [fault] at returned
      cases returned
    | none =>
      rw [fault] at returned
      cases wrote : faults.write with
      | all =>
        simp only [wrote, Cursor.writeAllFile] at returned
        cases returned
        exact if_neg nonempty
      | failed e part pos' =>
        simp only [wrote, Cursor.writeAllFile] at returned
        have partly : Partly file.bytes file.pos data
            { file.put (data.take part) with pos := pos' } := Partly.put rfl rfl part
        cases recovered : (Body.incoming { file.put (data.take part) with pos := pos' }
            discarded).recoverWrite e file.pos data faults with
        | mk after result =>
          rw [recovered] at returned
          cases result with
          | error e => cases returned
          | ok _ =>
            cases returned
            exact partly.recover nonempty recovered

theorem Tracks.call {call : Call} (tracks : Tracks b c) (returned : b.call call = .ok b') :
    ∃ c', c.call call = .ok c' ∧ Tracks b' c' := by
  cases call with
  | seek target fault =>
    cases b with
    | retained file => exact tracks.elim
    | memory cursor =>
      obtain rfl : cursor = c := tracks
      obtain ⟨c', sought, rfl⟩ := ok_of_map returned
      exact ⟨c', sought, rfl⟩
    | incoming file discarded =>
      obtain rfl : file = c := tracks
      obtain ⟨c', sought, rfl⟩ := ok_of_map returned
      exact ⟨c', seek_of_seekFile sought, rfl⟩
  | write data faults =>
    refine ⟨c.put data, rfl, ?_⟩
    have returned : b.writeAll data faults = .ok b' := returned
    rw [Body.writeAll] at returned
    rw [Cursor.put]
    by_cases empty : data = []
    · rw [if_pos empty] at returned ⊢
      cases returned
      exact tracks
    · rw [if_neg empty] at returned ⊢
      cases polled : b.pollWrite data faults with
      | mk after result =>
        rw [polled] at returned
        cases result with
        | error e => cases returned
        | ok n =>
          cases returned
          exact tracks.pollWrite empty polled

theorem Tracks.run {calls : List Call} (tracks : Tracks b c) (returned : b.run calls = .ok b') :
    ∃ c', c.run calls = .ok c' ∧ Tracks b' c' := by
  induction calls generalizing b c with
  | nil =>
    cases returned
    exact ⟨c, rfl, tracks⟩
  | cons call calls ih =>
    rw [Body.run, List.foldlM_cons] at returned
    cases called : b.call call with
    | error e =>
      rw [called] at returned
      cases returned
    | ok b₁ =>
      rw [called] at returned
      obtain ⟨c₁, referred, tracks₁⟩ := tracks.call called
      obtain ⟨c', rest, tracks'⟩ := ih tracks₁ returned
      refine ⟨c', ?_, tracks'⟩
      rw [Cursor.run, List.foldlM_cons, referred]
      exact rest

theorem Tracks.content (tracks : Tracks b c) : (b.intoContent true).bytes = c.bytes := by
  cases b with
  | retained file => exact tracks.elim
  | memory cursor =>
    obtain rfl : cursor = c := tracks
    rfl
  | incoming file discarded =>
    obtain rfl : file = c := tracks
    rfl

/-- However the file operations of the seeks and writes failed on the way: if they all returned
`Ok`, install gets what the same seeks and writes make of a buffer in memory. -/
theorem received_content (calls : List Call) (b : Body)
    (returned : Body.received.run calls = .ok b) :
    ∃ c, Cursor.run ⟨[], 0⟩ calls = .ok c ∧ (b.intoContent true).bytes = c.bytes := by
  have start : Tracks .received ⟨[], 0⟩ := rfl
  obtain ⟨c, referred, tracks⟩ := start.run returned
  exact ⟨c, referred, tracks.content⟩

/-- A chunk past the end fills the volume after its first byte. The retry fails too, and the rest
is received in memory. -/
def fullVolume : List Call :=
  [.write [1, 2, 3] ⟨none, .all, none, .all, none⟩,
    .seek (.start 5) none,
    .write [7, 8]
      ⟨none, .failed .outOfSpace 1 6, none, .failed .outOfSpace 0 5, none⟩,
    .seek (.start 1) none,
    .write [9] ⟨none, .all, none, .all, none⟩]

theorem received_content_fullVolume :
    Body.received.run fullVolume = .ok (.memory ⟨[1, 9, 3, 0, 0, 7, 8], 2⟩) ∧
      ∃ c, Cursor.run ⟨[], 0⟩ fullVolume = .ok c ∧
        ((Body.memory ⟨[1, 9, 3, 0, 0, 7, 8], 2⟩).intoContent true).bytes = c.bytes :=
  have ran : Body.received.run fullVolume = .ok (.memory ⟨[1, 9, 3, 0, 0, 7, 8], 2⟩) := by
    decide +kernel
  ⟨ran, received_content fullVolume _ ran⟩

end Fastetcd.Raft.Received
