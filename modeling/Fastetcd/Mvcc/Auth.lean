import Fastetcd.Data.Bincode
import Fastetcd.Mvcc.Engine

/-!
# Replicated auth (`storage/src/mvcc/auth.rs`)

Every auth change is a log entry, validated and applied by each member against its own auth
tables. `plan` reads the tables, stages the writes of one change in a batch and answers what to
do in memory once they are committed, or the refusal. A row that does not decode is a storage
error, which stops the member's apply.

What lives only in memory is the enabled flag and the tokens. A token's timer is each member's
own clock and is outside the model, and so is the digest members compare before replicating.
-/

namespace Fastetcd.Mvcc

open Bincode

structure StoredUser where
  name : String
  passwordHash : String
  roles : List String
  noPassword : Bool
deriving DecidableEq

inductive PermType where
  | read | write | readWrite
deriving DecidableEq

structure StoredPermission where
  permType : PermType
  key : Bytes
  rangeEnd : Bytes
deriving DecidableEq

structure StoredRole where
  name : String
  permissions : List StoredPermission
deriving DecidableEq

/-- The raw contents of the three auth tables, in key order. -/
structure AuthTables where
  users : List (Bytes × Bytes)
  roles : List (Bytes × Bytes)
  state : List (Bytes × Bytes)
deriving DecidableEq

/-- One auth change, as proposed through raft. -/
inductive AuthOp where
  | enable
  | disable
  | authenticate (user token checkedHash : String)
  | userAdd (name passwordHash : String) (noPassword : Bool)
  | userDelete (name : String)
  | userChangePassword (name passwordHash : String)
  | userGrantRole (user role : String)
  | userRevokeRole (name role : String)
  | roleAdd (name : String)
  | roleDelete (name : String)
  | roleGrantPermission (name : String) (perm : StoredPermission)
  | roleRevokePermission (name : String) (key rangeEnd : Bytes)
  | adopt (tables : AuthTables)
deriving DecidableEq

/-- Why an auth change was refused at apply. -/
inductive AuthApplyError where
  | notFound (message : String)
  | alreadyExists (message : String)
  | failedPrecondition (message : String)
deriving DecidableEq

/-- What applying an auth change does in memory after its batch commits. -/
structure AuthEffects where
  setEnabled : Option Bool := none
  addToken : Option (String × String) := none
  revokeUser : Option String := none
  keepOnlyUsers : Option (List String) := none
  adopted : Bool := false
deriving DecidableEq

/-- The in-memory half of auth: the enabled flag, the user each token names, and how many
`adopt` entries were applied. -/
structure AuthMemory where
  enabled : Bool := false
  tokens : List (String × String) := []
  adoptions : Nat := 0
deriving DecidableEq

/-- `META_AUTH_ENABLED`. -/
def metaAuthEnabled : Bytes := asBytes "enabled"

/-- The upper end of the range deletes that clear a table: `[0xFF; 64]`. -/
def clearEnd : Bytes := List.replicate 64 0xFF

/-! ## Encoded rows -/

def encodeUser (u : StoredUser) : Bytes :=
  encodeString u.name ++ encodeString u.passwordHash ++ encodeList encodeString u.roles ++
    encodeBool u.noPassword

def readUser : Reader StoredUser := fun bytes => do
  let (name, rest) ← readString bytes
  let (passwordHash, rest) ← readString rest
  let (roles, rest) ← readList readString rest
  let (noPassword, rest) ← readBool rest
  some (⟨name, passwordHash, roles, noPassword⟩, rest)

/-- The tag `bincode` writes for a `PermType`. -/
def PermType.tag : PermType → Nat
  | .read => 0
  | .write => 1
  | .readWrite => 2

def readPermType : Reader PermType := fun bytes => do
  match ← readNat 4 bytes with
  | (0, rest) => some (.read, rest)
  | (1, rest) => some (.write, rest)
  | (2, rest) => some (.readWrite, rest)
  | _ => none

def encodePermission (p : StoredPermission) : Bytes :=
  leBytes 4 p.permType.tag ++ encodeBytes p.key ++ encodeBytes p.rangeEnd

def readPermission : Reader StoredPermission := fun bytes => do
  let (permType, rest) ← readPermType bytes
  let (key, rest) ← readBytes rest
  let (rangeEnd, rest) ← readBytes rest
  some (⟨permType, key, rangeEnd⟩, rest)

def encodeRole (r : StoredRole) : Bytes :=
  encodeString r.name ++ encodeList encodePermission r.permissions

def readRole : Reader StoredRole := fun bytes => do
  let (name, rest) ← readString bytes
  let (permissions, rest) ← readList readPermission rest
  some (⟨name, permissions⟩, rest)

/-! ## Tables -/

/-- The whole contents of the auth tables. -/
def AuthTables.read (t : Tables) : AuthTables :=
  ⟨(t.auth .users).toList, (t.auth .roles).toList, (t.auth .state).toList⟩

/-- A state row's first byte is not `0`. -/
def isOn (value : Bytes) : Bool := value.head?.getD 0 != 0

def AuthTables.enabled (tables : AuthTables) : Bool :=
  tables.state.any fun row => row.1 == metaAuthEnabled && isOn row.2

/-- Replace the three tables with these contents. -/
def AuthTables.replaceInto (tables : AuthTables) : WriteBatch :=
  [AuthTable.users, .roles, .state].map (BatchOp.deleteRangeAuth · [] clearEnd) ++
    tables.users.map (fun row => .putAuth .users row.1 row.2) ++
    tables.roles.map (fun row => .putAuth .roles row.1 row.2) ++
    tables.state.map (fun row => .putAuth .state row.1 row.2)

/-- A row read back; one that does not decode is a storage error. -/
def getRow {α : Type} (table : Table Bytes Bytes) (read : Reader α) (name : String) :
    Except MvccError (Option α) :=
  match table[asBytes name]? with
  | none => .ok none
  | some bytes =>
    match read bytes with
    | some (row, _) => .ok (some row)
    | none => .error .storage

def getUser (t : Tables) (name : String) : Except MvccError (Option StoredUser) :=
  getRow (t.auth .users) readUser name

def getRole (t : Tables) (name : String) : Except MvccError (Option StoredRole) :=
  getRow (t.auth .roles) readRole name

def putUser (u : StoredUser) : BatchOp := .putAuth .users (asBytes u.name) (encodeUser u)

def putRole (r : StoredRole) : BatchOp := .putAuth .roles (asBytes r.name) (encodeRole r)

def userNotFound : AuthApplyError := .notFound "etcdserver: user name not found"

def roleNotFound : AuthApplyError := .notFound "etcdserver: role name not found"

/-! ## Planning a change -/

/-- What `plan` answers: the effects and the staged writes, or a refusal with nothing staged. -/
abbrev Planned := Except AuthApplyError (AuthEffects × WriteBatch)

/-- Run `change` on the user `name`, or refuse. -/
def withUser (t : Tables) (name : String)
    (change : StoredUser → Except MvccError Planned) : Except MvccError Planned := do
  match ← getUser t name with
  | none => return .error userNotFound
  | some u => change u

/-- Run `change` on the role `name`, or refuse. -/
def withRole (t : Tables) (name : String)
    (change : StoredRole → Except MvccError Planned) : Except MvccError Planned := do
  match ← getRole t name with
  | none => return .error roleNotFound
  | some r => change r

/-- The users a deleted role is taken from, rewritten. A row that does not decode is skipped. -/
def dropRole (t : Tables) (role : String) : WriteBatch :=
  (t.auth .users).toList.filterMap fun row =>
    match readUser row.2 with
    | none => none
    | some (u, _) =>
      let roles := u.roles.filter (· != role)
      if roles.length != u.roles.length then some (putUser { u with roles }) else none

/-- Validate `op` against the tables and stage its writes. -/
def plan (t : Tables) : AuthOp → Except MvccError Planned
  | .enable => do
    match ← getUser t "root" with
    | none => return .error (.failedPrecondition "etcdserver: root user does not exist")
    | some _ =>
      return .ok ({ setEnabled := some true }, [.putAuth .state metaAuthEnabled [1]])
  | .disable => return .ok ({ setEnabled := some false }, [.putAuth .state metaAuthEnabled [0]])
  | .authenticate user token checkedHash =>
    withUser t user fun u =>
      if u.passwordHash != checkedHash || u.noPassword then
        return .error (.failedPrecondition "etcdserver: revision of auth store is old")
      else return .ok ({ addToken := some (token, user) }, [])
  | .userAdd name passwordHash noPassword => do
    match ← getUser t name with
    | some _ => return .error (.alreadyExists "etcdserver: user name already exists")
    | none => return .ok ({}, [putUser ⟨name, passwordHash, [], noPassword⟩])
  | .userDelete name =>
    withUser t name fun _ =>
      return .ok ({ revokeUser := some name }, [.deleteAuth .users (asBytes name)])
  | .userChangePassword name passwordHash =>
    withUser t name fun u =>
      return .ok ({ revokeUser := some name },
        [putUser { u with passwordHash, noPassword := false }])
  | .userGrantRole user role =>
    withUser t user fun u => withRole t role fun _ =>
      let roles := if u.roles.contains role then u.roles else u.roles ++ [role]
      return .ok ({}, [putUser { u with roles }])
  | .userRevokeRole name role =>
    withUser t name fun u =>
      return .ok ({}, [putUser { u with roles := u.roles.filter (· != role) }])
  | .roleAdd name => do
    match ← getRole t name with
    | some _ => return .error (.alreadyExists "etcdserver: role name already exists")
    | none => return .ok ({}, [putRole ⟨name, []⟩])
  | .roleDelete name =>
    withRole t name fun _ =>
      return .ok ({}, .deleteAuth .roles (asBytes name) :: dropRole t name)
  | .roleGrantPermission name perm =>
    withRole t name fun r =>
      return .ok ({}, [putRole { r with permissions := r.permissions ++ [perm] }])
  | .roleRevokePermission name key rangeEnd =>
    withRole t name fun r =>
      let permissions := r.permissions.filter fun p => p.key != key || p.rangeEnd != rangeEnd
      return .ok ({}, [putRole { r with permissions }])
  | .adopt tables =>
    return .ok
      ({ setEnabled := some tables.enabled, adopted := true,
         keepOnlyUsers := some (tables.users.filterMap fun row => fromUtf8 row.1) },
       tables.replaceInto)

/-- The in-memory effects, in the source's order. -/
def AuthEffects.apply (fx : AuthEffects) (mem : AuthMemory) : AuthMemory :=
  let mem := match fx.setEnabled with
    | some enabled => { mem with enabled }
    | none => mem
  let mem := match fx.revokeUser with
    | some user => { mem with tokens := mem.tokens.filter (·.2 != user) }
    | none => mem
  let mem := match fx.keepOnlyUsers with
    | some keep => { mem with tokens := mem.tokens.filter fun t => keep.contains t.2 }
    | none => mem
  let mem := match fx.addToken with
    | some (token, user) =>
      { mem with tokens := (token, user) :: mem.tokens.filter (·.1 != token) }
    | none => mem
  if fx.adopted then { mem with adoptions := mem.adoptions + 1 } else mem

end Fastetcd.Mvcc
