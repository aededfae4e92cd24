import Fastetcd.Raft.Snapshot

/-!
# Tokens on a member (`storage/src/mvcc/auth.rs`, `raft/src/state_machine.rs`)

A member applies auth changes, installs snapshots and looks tokens up. A token is added when the
`Authenticate` that chose it is applied, and it names a user from then on: until it expires, until the
user is deleted or gets another password, or until tables without the user are adopted. Tokens are
not stored, and an installed snapshot leaves them as they are.

A token's timer is the member's own clock, so which tokens have run out is given with each look.
-/

namespace Fastetcd.Mvcc

/-- The user a token names. `expired` are the tokens whose timer has run out, and `purges` says that a
second has passed since tokens were last purged. -/
def AuthMemory.userForToken (mem : AuthMemory) (token : String) (expired : String → Bool)
    (purges : Bool) : Option String × AuthMemory :=
  let mem := if purges then { mem with tokens := mem.tokens.filter (!expired ·.1) } else mem
  match mem.tokens.find? (·.1 == token) with
  | none => (none, mem)
  | some (_, user) =>
    if expired token then (none, { mem with tokens := mem.tokens.filter (·.1 != token) })
    else (some user, mem)

/-- A user's password hash in the tables, if there is such a user. -/
def hashOf (users : Table Bytes Bytes) (name : String) : Option String :=
  match getRow users readUser name with
  | .ok (some u) => some u.passwordHash
  | _ => none

end Fastetcd.Mvcc

namespace Fastetcd.Raft

open Mvcc

/-- The `Authenticate` that created a token: the user, the hash the password was checked against, and
whether the user's hash was ever another since. -/
structure Issue where
  user : String
  hash : String
  broken : Bool

structure Member where
  store : Store
  /-- Not in the source: how each token was created last. -/
  issued : String → Option Issue

namespace Member

inductive Event where
  | auth (op : AuthOp) (engineOk : Bool)
  | install (body : SnapshotBody) (engineOk : Bool)
  | lookup (token : String) (expired : String → Bool) (purges : Bool)
  /-- What `insert_token` does before it adds a token. -/
  | purge (expired : String → Bool)

def users (m : Member) : Table Bytes Bytes := m.store.engine.auth .users

/-- Look at every user's hash after a change of the tables. -/
def settle (m : Member) : Member :=
  { m with issued := fun token => (m.issued token).map fun i =>
      { i with broken := i.broken || hashOf m.users i.user != some i.hash } }

def issue (issued : String → Option Issue) (op : AuthOp)
    (answer : Except MvccError (Int × Except AuthApplyError Unit)) : String → Option Issue :=
  match op, answer with
  | .authenticate user token hash, .ok (_, .ok ()) =>
    Function.update issued token (some ⟨user, hash, false⟩)
  | _, _ => issued

def step (m : Member) : Event → Member
  | .auth op engineOk =>
    let (answer, store) := m.store.applyAuth op engineOk
    settle { store, issued := issue m.issued op answer }
  | .install body engineOk =>
    settle { m with store := (installSnapshot m.store body engineOk).2 }
  | .lookup token expired purges =>
    { m with store := { m.store with auth := (m.store.auth.userForToken token expired purges).2 } }
  | .purge expired =>
    { m with store := { m.store with
        auth := { m.store.auth with tokens := m.store.auth.tokens.filter (!expired ·.1) } } }

def run (m : Member) (events : List Event) : Member := events.foldl step m

/-- Whoever a token names is a user whose hash is the one that was checked, and has been since. -/
def Sound (m : Member) : Prop :=
  ∀ token expired purges user, (m.store.auth.userForToken token expired purges).1 = some user →
    ∃ hash, m.issued token = some ⟨user, hash, false⟩ ∧ hashOf m.users user = some hash

/-! ## When tables are replaced with care -/

/-- Every row that decodes is the row of the user it names. -/
def WellKeyed (users : Table Bytes Bytes) : Prop :=
  ∀ (key bytes : Bytes) u rest, users[key]? = some bytes → readUser bytes = some (u, rest) →
    key = Bincode.asBytes u.name

/-- Replaced users are well keyed, and those that keep their tokens keep their hash. -/
def Keeps (users users' : Table Bytes Bytes) (named : String → Prop) : Prop :=
  WellKeyed users' ∧ ∀ user, named user → hashOf users' user = hashOf users user

/-- A user has a token. -/
def Named (m : Member) (user : String) : Prop := ∃ token, (token, user) ∈ m.store.auth.tokens

/-- What a run has to observe for tokens to be sound. A row's length is a `u64`. -/
def Careful (m : Member) : Event → Prop
  | .auth op _ =>
    (∀ effects batch, plan m.store.engine op = .ok (.ok (effects, batch)) →
      ∀ key value, BatchOp.putAuth .users key value ∈ batch → value.length < 256 ^ 8) ∧
    match op with
    | .adopt tables =>
      Keeps m.users ((m.store.engine.commit tables.replaceInto).auth .users) fun user =>
        m.Named user ∧ user ∈ tables.users.filterMap fun row => Bincode.fromUtf8 row.1
    | _ => True
  | .install body engineOk =>
    Keeps m.users ((installSnapshot m.store body engineOk).2.engine.auth .users) m.Named
  | .lookup .. | .purge _ => True

def CarefulRun (m : Member) : List Event → Prop
  | [] => True
  | event :: events => m.Careful event ∧ (m.step event).CarefulRun events

end Member

end Fastetcd.Raft
