import Fastetcd.Raft.SnapshotStream

/-!
# Cut snapshot bodies

A body cut before the end of its tables does not decode: the stream to the engine ends with an
error, and the transaction is dropped. `read_trailer` takes a stream that ends inside a trailer for
one that ends before it, so a body cut inside a trailer is installed as the body of a member older
than that trailer.
-/

namespace Fastetcd.Raft.Streamed

open Storage (Db BatchOp WriteBatch)
open StreamCodec (Codec Vec Cuts Sends Sender ReadError)

/-! ## The tables section -/

def putRows (table : String) (t : TableRows) : WriteBatch :=
  t.rows.map fun row => .put table row.1 row.2

theorem streamRows_sends (table : String) {n : Nat}
    (pairs : { pairs : List KvPair // pairs.length = n }) :
    Sends (streamRows table n) ((kvPair.array n).encode pairs)
      (pairs.1.map fun pair => .put table pair.row.1 pair.row.2) () := by
  induction n with
  | zero =>
    obtain ⟨pairs, length⟩ := pairs
    cases List.length_eq_zero_iff.mp length
    exact Sends.pure ()
  | succ n ih =>
    obtain ⟨_ | ⟨pair, pairs⟩, length⟩ := pairs
    · cases length
    · have others := ih ⟨pairs, Nat.succ.inj length⟩
      exact (Sends.read kvPair pair).bind ((Sends.send _).bind_nil others)

theorem streamTable_sends (table : String) (t : TableRows) :
    Sends (streamTable table) (kvPair.vec.encode t) (putRows table t) () := by
  rw [putRows, TableRows.rows, List.map_map]
  exact (Sends.read Codec.u64 t.1).bind (streamRows_sends table t.2)

section Headers

variable {LogId StoredMembership : Type} {logId : Codec LogId}
  {storedMembership : Codec StoredMembership} {body : Body LogId StoredMembership}

/-- What is sent before the trailers are read. -/
def Body.tableOps (body : Body LogId StoredMembership) : WriteBatch :=
  bodyTables.map (BatchOp.deleteRange · [] Mvcc.clearEnd) ++
    (putRows "mvcc_kv" body.kv ++ (putRows "mvcc_idx" body.idx ++ putRows "mvcc_meta" body.metaRows))

theorem streamTables_sends (body : Body LogId StoredMembership) :
    Sends (streamTables logId storedMembership) (body.tablesSection logId storedMembership)
      body.tableOps body.header := by
  have tables : Sends (bodyTables.forM streamTable) (body.tables.flatMap kvPair.vec.encode)
      (putRows "mvcc_kv" body.kv ++ (putRows "mvcc_idx" body.idx ++
        (putRows "mvcc_meta" body.metaRows ++ []))) () :=
    (streamTable_sends _ body.kv).bind ((streamTable_sends _ body.idx).bind
      ((streamTable_sends _ body.metaRows).bind (Sends.pure ())))
  have whole : Sends (bodyTables.forM streamTable >>= fun _ => pure body.header)
      (body.tables.flatMap kvPair.vec.encode ++ []) _ body.header :=
    tables.bind (Sends.pure body.header)
  rw [List.append_nil, List.append_nil, List.append_nil] at whole
  exact (Sends.read logId.option body.header.lastAppliedLogId).bind
    ((Sends.read storedMembership body.header.lastMembership).bind
      ((Sends.send _).bind_nil whole))

/-! ## The trailers -/

def Trailers.ops (current : CurrentLeases) : Trailers → WriteBatch
  | .none => []
  | .auth tables => tables.elim [] AuthTables.replaceInto
  | .both tables leases =>
    tables.elim [] AuthTables.replaceInto ++ leases.elim [] (·.replaceInto current)

/-- The trailers that are whole in the first `n` bytes of these, the last one apart. -/
def Trailers.kept (n : Nat) : Trailers → Trailers
  | .none => .none
  | .auth _ => .none
  | .both tables _ => if n < (authTrailerBytes tables).length then .none else .auth tables

theorem trailerOps_cut_auth {current : CurrentLeases} {tables : Option AuthTables} {q : List UInt8}
    (cut : Cuts q (authTrailerBytes tables)) :
    trailerOps current q = ([], .ok ([], [])) := by
  rw [trailerOps, Sender.bind_ok (Sender.readTrailer_cut snapshotTrailer cut)]
  rfl

theorem trailerOps_cut_lease {current : CurrentLeases} {tables : Option AuthTables}
    {leases : Option LeaseTables} {q : List UInt8} (cut : Cuts q (leaseTrailerBytes leases)) :
    trailerOps current (authTrailerBytes tables ++ q) =
      ([], .ok (tables.elim [] AuthTables.replaceInto, [])) := by
  have second : (Sender.readTrailer leaseTrailer : Sender BatchOp _) q = ([], .ok (none, [])) :=
    Sender.readTrailer_cut leaseTrailer cut
  rw [trailerOps, authTrailerBytes, Sender.bind_ok (Sender.readTrailer_whole snapshotTrailer _ q)]
  simp only [ne_eq, not_true_eq_false, if_false]
  rw [Sender.bind_ok second]
  rfl

/-- Trailers with their end cut off are read as those of an older member. -/
theorem trailerOps_cut {current : CurrentLeases} {t : Trailers} {q : List UInt8}
    (cut : Cuts q t.bytes.flatten) :
    trailerOps current q = ([], .ok ((t.kept q.length).ops current, [])) := by
  cases t with
  | none => exact absurd cut (StreamCodec.not_cuts_nil q)
  | auth tables =>
    rw [Trailers.bytes, List.flatten_singleton] at cut
    exact trailerOps_cut_auth cut
  | both tables leases =>
    rw [Trailers.bytes, List.flatten_cons, List.flatten_singleton] at cut
    obtain inAuth | ⟨q, rfl, inLease⟩ := cut.append
    · rw [Trailers.kept, if_pos (inAuth.length_lt)]
      exact trailerOps_cut_auth inAuth
    · rw [Trailers.kept, if_neg (by rw [List.length_append]; omega)]
      exact trailerOps_cut_lease inLease

/-! ## Installing -/

theorem commitStream_ops (db : Db) (ops : WriteBatch) :
    commitStream db (ops.map .op) = some (db.commit ops) := by
  induction ops generalizing db with
  | nil => rfl
  | cons op ops ih => exact ih (db.apply op)

theorem commitStream_abort (db : Db) (ops : WriteBatch) :
    commitStream db (ops.map .op ++ [.abort]) = none := by
  induction ops generalizing db with
  | nil => rfl
  | cons op ops ih => exact ih (db.apply op)

theorem installSnapshot_error {db : Db} {content : List UInt8} {e : ReadError}
    (h : (streamBody logId storedMembership (CurrentLeases.read db) content).2 = .error e) :
    installSnapshot logId storedMembership db content = (.error (.decode e), db) := by
  generalize answer : streamBody logId storedMembership (CurrentLeases.read db) content = streamed at h
  obtain ⟨ops, _⟩ := streamed
  subst h
  rw [installSnapshot, streamContent, answer]
  simp only [commitStream_abort, Option.getD_none]

theorem installSnapshot_ok {db : Db} {content rest : List UInt8} {ops : WriteBatch}
    {header : BodyHeader LogId StoredMembership}
    (h : streamBody logId storedMembership (CurrentLeases.read db) content =
      (ops, .ok (header, rest))) :
    installSnapshot logId storedMembership db content =
      (if reloads (db.commit ops) then .ok header else .error .rebuild, db.commit ops) := by
  rw [installSnapshot, streamContent, h]
  simp only [commitStream_ops, Option.getD_some]
  split <;> rfl

/-- Where the tables end, and each trailer. -/
def Body.ends (logId : Codec LogId) (storedMembership : Codec StoredMembership)
    (body : Body LogId StoredMembership) : List Nat :=
  (List.range (body.trailers.bytes.length + 1)).map fun k =>
    (body.tablesSection logId storedMembership ++ (body.trailers.bytes.take k).flatten).length

/-- What a body installs that was cut after its first `n` bytes, behind its tables. -/
def Body.opsBefore (logId : Codec LogId) (storedMembership : Codec StoredMembership)
    (body : Body LogId StoredMembership) (n : Nat) (current : CurrentLeases) : WriteBatch :=
  body.tableOps ++ (body.header.rows logId storedMembership ++
    (body.trailers.kept (n - (body.tablesSection logId storedMembership).length)).ops current)

theorem streamBody_cut_tables {current : CurrentLeases} {p : List UInt8}
    (cut : Cuts p (body.tablesSection logId storedMembership)) :
    (streamBody logId storedMembership current p).2 = .error .unexpectedEof :=
  Sender.bind_error ((streamTables_sends body).cut p cut)

theorem streamBody_cut_trailers {current : CurrentLeases} {q : List UInt8}
    (cut : Cuts q body.trailers.bytes.flatten) :
    streamBody logId storedMembership current (body.tablesSection logId storedMembership ++ q) =
      (body.opsBefore logId storedMembership
        (body.tablesSection logId storedMembership ++ q).length current,
       .ok (body.header, [])) := by
  rw [streamBody, Sender.bind_ok ((streamTables_sends body).whole q),
    Sender.bind_ok (trailerOps_cut cut), Body.opsBefore, List.length_append, Nat.add_sub_cancel_left]
  show (_ ++ ([] ++ (_ ++ [])), _) = _
  rw [List.nil_append, List.append_nil]
  rfl

/-- A body with its end cut off anywhere is refused with every table as it was if and only if the cut
is before the end of the tables. The second case is a store whose own tables no longer load and already
hold all that the cut body installs: there the reload fails, and nothing has changed. -/
theorem cut_body_rejected_iff (body : Body LogId StoredMembership) {db : Db} {p : List UInt8}
    (cut : Cuts p (body.bytes logId storedMembership)) :
    ((∃ e, (installSnapshot logId storedMembership db p).1 = .error e) ∧
        (installSnapshot logId storedMembership db p).2 = db) ↔
      p.length < (body.tablesSection logId storedMembership).length ∨
        (reloads db = false ∧ db.commit
          (body.opsBefore logId storedMembership p.length (CurrentLeases.read db)) = db) := by
  obtain inTables | ⟨q, rfl, inTrailers⟩ := cut.append
  · rw [installSnapshot_error (streamBody_cut_tables inTables)]
    exact iff_of_true ⟨⟨_, rfl⟩, rfl⟩ (.inl inTables.length_lt)
  · have reached : ¬ (body.tablesSection logId storedMembership ++ q).length <
        (body.tablesSection logId storedMembership).length := by
      rw [List.length_append]
      omega
    rw [installSnapshot_ok (streamBody_cut_trailers inTrailers), or_iff_right reached]
    constructor
    · rintro ⟨⟨e, refused⟩, unchanged⟩
      simp only at refused unchanged
      rw [unchanged] at refused
      refine ⟨?_, unchanged⟩
      split at refused
      · cases refused
      · exact Bool.eq_false_iff.mpr ‹_›
    · rintro ⟨broken, unchanged⟩
      simp only
      rw [unchanged, broken]
      exact ⟨⟨_, rfl⟩, rfl⟩

end Headers

/-! ## A cut inside the auth trailer -/

/-- openraft's `LogId`: the leader's term and node, and the index. -/
abbrev OpenraftLogId := (UInt64 × UInt64) × UInt64

def openraftLogId : Codec OpenraftLogId := (Codec.u64.pair Codec.u64).pair Codec.u64

/-- openraft's `StoredMembership`: its log id, the node ids of its configurations and the addresses
of its nodes. -/
abbrev OpenraftMembership := Option OpenraftLogId × Vec (Vec UInt64) × Vec (UInt64 × Vec UInt8)

def openraftMembership : Codec OpenraftMembership :=
  openraftLogId.option.pair (Codec.u64.vec.vec.pair (Codec.u64.pair Codec.byte.vec).vec)

/-- A body with one row of `mvcc_kv`, no users, no roles and no leases. -/
def oneRowBody : Body OpenraftLogId OpenraftMembership where
  header := ⟨none, none, ⟨0, [], rfl⟩, ⟨0, [], rfl⟩⟩
  kv := ⟨1, [(⟨1, [7], rfl⟩, ⟨1, [8], rfl⟩)], rfl⟩
  idx := ⟨0, [], rfl⟩
  metaRows := ⟨0, [], rfl⟩
  trailers := .both (some ⟨⟨0, [], rfl⟩, ⟨0, [], rfl⟩, ⟨0, [], rfl⟩⟩)
    (some ⟨⟨0, [], rfl⟩, ⟨0, [], rfl⟩⟩)

/-- A store that has one user and nothing else. -/
def oneUser : Db := Db.set (fun _ => ∅) "auth_users" ((∅ : Table _ _).insert [97] [1])

/-- Cut inside the tables, the body is refused. -/
theorem cut_body_rejected_iff_tables :
    Cuts ((oneRowBody.bytes openraftLogId openraftMembership).take 20)
        (oneRowBody.bytes openraftLogId openraftMembership) ∧
      (∃ e, (installSnapshot openraftLogId openraftMembership oneUser
          ((oneRowBody.bytes openraftLogId openraftMembership).take 20)).1 = .error e) ∧
        (installSnapshot openraftLogId openraftMembership oneUser
          ((oneRowBody.bytes openraftLogId openraftMembership).take 20)).2 = oneUser :=
  ⟨by decide +kernel,
    (cut_body_rejected_iff oneRowBody (by decide +kernel)).mpr (.inl (by decide +kernel))⟩

/-- Cut three bytes into the auth trailer, the body is installed: the row is put, and the user the
body does not have stays. -/
theorem cut_auth_trailer_installed :
    let bytes := oneRowBody.bytes openraftLogId openraftMembership
    let tables := (oneRowBody.tablesSection openraftLogId openraftMembership).length
    let installed := installSnapshot openraftLogId openraftMembership oneUser (bytes.take (tables + 3))
    Cuts (bytes.take (tables + 3)) bytes ∧
      (bytes.take (tables + 3)).length ∉ oneRowBody.ends openraftLogId openraftMembership ∧
      installed.1.isOk ∧ installed.2.get "mvcc_kv" [7] = some [8] ∧
        oneUser.get "mvcc_kv" [7] = none ∧ installed.2.get "auth_users" [97] = some [1] := by
  decide +kernel

end Fastetcd.Raft.Streamed
