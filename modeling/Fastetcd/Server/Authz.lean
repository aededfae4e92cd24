import Fastetcd.Mvcc.Maintenance
import Fastetcd.Server.Requests

/-!
# Who may do what (`server/src/authz.rs`, `server/src/kv.rs`)

A KV request is reduced to the key ranges it reads and writes, in whichever branch. It is authorized
if each of them lies in the range of one permission, of the right type, of one of the user's roles.
The user and the roles are read from one engine snapshot.
-/

namespace Fastetcd.Mvcc

def PermType.allowsRead : PermType → Bool
  | .read | .readWrite => true
  | .write => false

def PermType.allowsWrite : PermType → Bool
  | .write | .readWrite => true
  | .read => false

/-- `StoredPermission::covers`. -/
def StoredPermission.covers (p : StoredPermission) (key : Bytes) : Bool :=
  if p.rangeEnd = [] then decide (key = p.key)
  else if p.rangeEnd = [0] then decide (p.key ≤ key)
  else decide (p.key ≤ key) && decide (key < p.rangeEnd)

end Fastetcd.Mvcc

namespace Fastetcd.Server

open Mvcc

inductive RequiredPerm where
  | read | write
deriving DecidableEq

structure Access where
  perm : RequiredPerm
  key : Bytes
  rangeEnd : Bytes

/-- Why a request is not authorized; `internal` is a row that does not decode. -/
inductive Denial where
  | userEmpty
  | permissionDenied
  | internal
deriving DecidableEq

/-! ## Permissions -/

def PermType.allows (type : PermType) : RequiredPerm → Bool
  | .read => type.allowsRead
  | .write => type.allowsWrite

/-- `bounds_for`: one key is the range to its successor. -/
def boundsFor (key rangeEnd : Bytes) : Bound × Bound :=
  if rangeEnd = [] then (.included key, .excluded (key ++ [0]))
  else if rangeEnd = [0] then (.included key, .unbounded)
  else (.included key, .excluded rangeEnd)

/-- `perm_covers`. -/
def permCovers (p : StoredPermission) (required : RequiredPerm) (key rangeEnd : Bytes) : Bool :=
  if !PermType.allows p.permType required then false
  else
    let (reqLo, reqHi) := boundsFor key rangeEnd
    let (permLo, permHi) := boundsFor p.key p.rangeEnd
    let loOk := match permLo, reqLo with
      | .unbounded, _ => true
      | .included pv, .included rv => decide (pv ≤ rv)
      | _, _ => false
    let hiOk := match permHi, reqHi with
      | .unbounded, _ => true
      | _, .unbounded => false
      | .excluded pv, .excluded rv => decide (rv ≤ pv)
      | _, _ => false
    loOk && hiOk

/-- A row that does not decode is an internal error. -/
def readRow {α : Type} : Except MvccError α → Except Denial α
  | .ok a => .ok a
  | .error _ => .error .internal

/-- Every permission the roles hold; a role that is gone is skipped. -/
def rolePermissions (t : Tables) : List String → Except Denial (List StoredPermission)
  | [] => .ok []
  | role :: roles => do
    match ← readRow (getRole t role) with
    | none => rolePermissions t roles
    | some r =>
      let rest ← rolePermissions t roles
      return r.permissions ++ rest

/-- `authorize_all`. -/
def authorizeAll (t : Tables) (enabled : Bool) (user : Option String) (accesses : List Access) :
    Except Denial Unit :=
  if !enabled || accesses.isEmpty then .ok ()
  else
    match user with
    | none => .error .userEmpty
    | some name =>
      if name = "root" then .ok ()
      else do
        match ← readRow (getUser t name) with
        | none => .error .permissionDenied
        | some u =>
          if u.roles.any (· == "root") then .ok ()
          else
            let perms ← rolePermissions t u.roles
            if accesses.all fun a => perms.any (permCovers · a.perm a.key a.rangeEnd) then .ok ()
            else .error .permissionDenied

/-! ## What a request accesses -/

def putAccesses (p : PutRequest) : List Access :=
  ⟨.write, p.key, []⟩ :: if p.prevKv then [⟨.read, p.key, []⟩] else []

def deleteAccesses (d : DeleteRangeRequest) : List Access :=
  ⟨.write, d.key, d.rangeEnd⟩ :: if d.prevKv then [⟨.read, d.key, d.rangeEnd⟩] else []

def compareAccesses (compare : List CompareRequest) : List Access :=
  compare.map fun c => ⟨.read, c.key, c.rangeEnd⟩

mutual

def opAccesses : RequestOp → List Access
  | .missing => []
  | .range r => [⟨.read, r.key, r.rangeEnd⟩]
  | .put p => putAccesses p
  | .deleteRange d => deleteAccesses d
  | .txn compare success failure =>
    compareAccesses compare ++ opsAccesses success ++ opsAccesses failure

def opsAccesses : List RequestOp → List Access
  | [] => []
  | op :: ops => opAccesses op ++ opsAccesses ops

end

/-- `txn_accesses`. -/
def txnAccesses (t : TxnRequest) : List Access :=
  compareAccesses t.compare ++ opsAccesses t.success ++ opsAccesses t.failure

mutual

def opPutLeases : RequestOp → List LeaseId
  | .put p => if p.lease ≠ 0 then [p.lease] else []
  | .txn _ success failure => opsPutLeases success ++ opsPutLeases failure
  | .missing | .range _ | .deleteRange _ => []

def opsPutLeases : List RequestOp → List LeaseId
  | [] => []
  | op :: ops => opPutLeases op ++ opsPutLeases ops

end

/-- The keys attached to a put's leases, which it needs write on, too. -/
def leasePutKeys (t : Tables) : List LeaseId → Except Denial (List Bytes)
  | [] => .ok []
  | id :: ids => do
    let keys ← readRow (parseAttached (attachedRows t id))
    let rest ← leasePutKeys t ids
    return keys ++ rest

def writeAccesses (keys : List Bytes) : List Access := keys.map fun k => ⟨.write, k, []⟩

/-! ## Requests -/

namespace Request

def accesses : Request → List Access
  | .range r => [⟨.read, r.key, r.rangeEnd⟩]
  | .put p => putAccesses p
  | .deleteRange d => deleteAccesses d
  | .txn t => txnAccesses t

def putLeases : Request → List LeaseId
  | .put p => if p.lease ≠ 0 then [p.lease] else []
  | .txn t => opsPutLeases t.success ++ opsPutLeases t.failure
  | .range _ | .deleteRange _ => []

/-- The check a request passes before it is served. Leases are looked at once each, in order. -/
def authorize (t : Tables) (enabled : Bool) (user : Option String) (req : Request) :
    Except Denial Unit := do
  let keys ← if enabled then leasePutKeys t (req.putLeases.dedup.insertionSort (· ≤ ·)) else .ok []
  authorizeAll t enabled user (req.accesses ++ writeAccesses keys)

end Request

end Fastetcd.Server
