import Fastetcd.Raft.Precheck
import Fastetcd.Server.Authz

/-!
# LeaseTimeToLive with keys (`server/src/lease.rs`)

The call reads three times. `authorize_lease` reads the keys attached to the lease on the member
that serves it, then the user and the roles there. `lease_ttl` then reads the keys again, to list
them: on the same member if it leads or knows no leader (or the leader is too old to be asked), else
on the leader. Entries are committed and applied in between.

Members apply one log, each at its own pace; a batch entry stands as its sub-entries. A snapshot
installed on a member is a jump ahead in the log. What the response has beside the keys is left out.
-/

namespace Fastetcd.Server

open Mvcc Raft

/-- The store of a member that has applied the entries. -/
def applied (entries : List FastetcdLogEntry) : Store :=
  entries.foldl (fun s entry => (applyData s 0 true entry).2) (Store.open Tables.empty)

/-- `lease_ttl` with `include_keys`, the keys alone; `none` is a lease that does not exist. -/
def leaseTtlKeys (t : Tables) (id : LeaseId) : Except MvccError (Option (List Bytes)) :=
  match t.lease[leaseIdKey id]? with
  | none => .ok none
  | some _ => do
    let keys ← parseAttached (attachedRows t id)
    return some keys

/-- `authorize_keys` for reading. -/
def authorizeKeys (t : Tables) (enabled : Bool) (user : Option String) (keys : List Bytes) :
    Except Denial Unit :=
  authorizeAll t enabled user (keys.map fun k => ⟨.read, k, []⟩)

namespace LeaseCall

/-- Where a call is. `passed` keeps the tables the user and the roles were read from and the keys
that were checked; `answered` keeps the tables if the call was checked. -/
inductive Phase where
  | start
  | enabled
  | keysRead (keys : List Bytes)
  | passed (tables : Tables) (checked : List Bytes)
  | unchecked
  | refused
  | answered (tables : Option Tables) (keys : List Bytes)

structure Config (M : Type) where
  log : List FastetcdLogEntry
  /-- How many entries each member has applied. -/
  done : M → Nat
  phase : Phase

variable {M : Type} [DecidableEq M]

/-- The store of a member. -/
def Config.store (c : Config M) (member : M) : Store := applied (c.log.take (c.done member))

/-- `authorize_lease` up to the read of the keys: no check if auth is off, or for lease 0. -/
def looked (s : Store) (id : LeaseId) : Phase :=
  if !s.auth.enabled then .unchecked else if id = 0 then .passed s.engine [] else .enabled

def readKeys (s : Store) (id : LeaseId) : Phase :=
  match parseAttached (attachedRows s.engine id) with
  | .error _ => .refused
  | .ok keys => .keysRead keys

/-- `authorize_keys`, with auth as it is by then. -/
def authorized (s : Store) (user : Option String) (keys : List Bytes) : Phase :=
  match authorizeKeys s.engine s.auth.enabled user keys with
  | .error _ => .refused
  | .ok () => if s.auth.enabled then .passed s.engine keys else .unchecked

/-- `time_to_live` on a member that answers it. -/
def listed (s : Store) (id : LeaseId) (tables : Option Tables) : Phase :=
  match leaseTtlKeys s.engine id with
  | .error _ => .refused
  | .ok keys => .answered tables (keys.getD [])

/-- One step of the call at member `me`, or of the members: an entry is committed, or a member
applies entries of the log. `calm` steps list only keys that were checked. -/
inductive Step (calm : Prop) (me : M) (user : Option String) (id : LeaseId) :
    Config M → Config M → Prop
  | commit (c : Config M) (entry : FastetcdLogEntry) :
      Step calm me user id c { c with log := c.log ++ [entry] }
  | apply (c : Config M) (member : M) (n : Nat) (ahead : c.done member ≤ n)
      (there : n ≤ c.log.length) :
      Step calm me user id c { c with done := Function.update c.done member n }
  | look (c : Config M) (here : c.phase = .start) :
      Step calm me user id c { c with phase := looked (c.store me) id }
  | readKeys (c : Config M) (here : c.phase = .enabled) :
      Step calm me user id c { c with phase := LeaseCall.readKeys (c.store me) id }
  | authorize (c : Config M) {keys : List Bytes} (here : c.phase = .keysRead keys) :
      Step calm me user id c { c with phase := authorized (c.store me) user keys }
  | list (c : Config M) (lister : M) {tables : Tables} {checked : List Bytes}
      (here : c.phase = .passed tables checked)
      (kept : calm → ∀ keys, parseAttached (attachedRows (c.store lister).engine id) = .ok keys →
        keys ⊆ checked) :
      Step calm me user id c { c with phase := listed (c.store lister) id (some tables) }
  | listUnchecked (c : Config M) (lister : M) (here : c.phase = .unchecked) :
      Step calm me user id c { c with phase := listed (c.store lister) id none }

/-- A call from its start on, with any log and the members anywhere in it. -/
inductive Run (calm : Prop) (me : M) (user : Option String) (id : LeaseId) : Config M → Prop
  | start (log : List FastetcdLogEntry) (done : M → Nat) : Run calm me user id ⟨log, done, .start⟩
  | step {c c' : Config M} (run : Run calm me user id c) (step : Step calm me user id c c') :
      Run calm me user id c'

end LeaseCall

end Fastetcd.Server
