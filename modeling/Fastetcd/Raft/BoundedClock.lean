import Fastetcd.Raft.Lessor

/-!
# Deadlines on a clock that ends (`raft/src/lessor.rs`, `server/src/lease.rs`)

An `Instant` holds a bounded number of seconds, and adding a `Duration` to it panics if the sum is
past the last one. Here every addition of `lessor.rs` is made where the source makes it, so that a call
may panic. A panic while the deadlines are locked poisons the lock, and whoever takes it afterwards
panics, too.

The calls are those of `Lessor.Call`, one after the other, on what they read and write: the leases, the
instants they were applied at and the deadlines.
-/

namespace Fastetcd.Raft

open Mvcc (LeaseId)
open Lessor (Call)

/-- `MIN_LEASE_TTL_SECS`. -/
def minLeaseTtlSecs : Int := 2

/-- The TTL `lease_grant` proposes for the one requested. -/
def grantedTtl (requested : Int) : Int := if requested ≤ 0 then minLeaseTtlSecs else requested

/-- `ttl`. -/
def ttlOf (secs : Int) : Nat := (max secs 0).toNat

/-- `Ram`, in its lock. -/
structure Ram where
  promoted : Bool := false
  deadlines : Table LeaseId Nat := ∅
  poisoned : Bool := false

namespace Ram

variable (last : Nat)

/-- `Instant + Duration`; `none` is the panic. -/
def add (at_ ttl : Nat) : Option Nat := if at_ + ttl ≤ last then some (at_ + ttl) else none

/-- `promote` on a leader. An error is a panic, with what it leaves. -/
def promote (ram : Ram) (records : List (LeaseId × Nat)) (now : Nat) : Except Ram Ram :=
  if ram.poisoned then .error ram
  else if ram.promoted then .ok ram
  else
    -- the deadlines are computed with the lock held
    match records.mapM fun row => (add last now row.2).map (row.1, ·) with
    | none => .error { ram with poisoned := true }
    | some rows => .ok { ram with
        promoted := true
        deadlines := rows.foldl (fun deadlines row => deadlines.insert row.1 row.2) ∅ }

/-- `effective_deadline`. -/
def effectiveDeadline (ram : Ram) (id : LeaseId) (ttl now : Nat) (applied : Option Nat) :
    Except Ram (Nat × Ram) :=
  -- the TTL from when the lease was applied, before the lock
  match applied.mapM (add last · ttl) with
  | none => .error ram
  | some due =>
    if ram.poisoned then .error ram
    else
      -- the argument of `or_insert` is computed whether there is an entry or not
      match add last now ttl with
      | none => .error { ram with poisoned := true }
      | some fresh =>
        let (held, deadlines) :=
          match ram.deadlines[id]? with
          | some held => (held, ram.deadlines)
          | none => (due.getD fresh, ram.deadlines.insert id (due.getD fresh))
        .ok (due.elim held (max held ·), { ram with deadlines })

/-- `renew` of a lease that was found. -/
def renew (ram : Ram) (id : LeaseId) (ttl now : Nat) (applied : Option Nat) : Except Ram Ram := do
  let (deadline, ram) ← ram.effectiveDeadline last id ttl now applied
  if deadline ≤ now then return ram
  else if ram.poisoned then .error ram
  else
    match add last now ttl with
    | none => .error { ram with poisoned := true }
    | some fresh => return { ram with deadlines := ram.deadlines.insert id fresh }

/-- The leases found expired, one after the other. -/
def expiredAmong (now : Nat) (applied : Table LeaseId Nat) :
    List (LeaseId × Nat) → Ram → Except Ram (List LeaseId × Ram)
  | [], ram => .ok ([], ram)
  | (id, ttl) :: rest, ram => do
    let (deadline, ram) ← ram.effectiveDeadline last id ttl now applied[id]?
    let (found, ram) ← expiredAmong now applied rest ram
    return (if deadline ≤ now then id :: found else found, ram)

/-- `expired` on a leader that has its deadlines. -/
def expired (ram : Ram) (records : Table LeaseId Nat) (now : Nat) (applied : Table LeaseId Nat) :
    Except Ram (List LeaseId × Ram) :=
  if ram.poisoned then .error ram
  else
    let deadlines :=
      if ram.deadlines.size > records.size then
        ram.deadlines.filter fun id _ => records.contains id
      else ram.deadlines
    expiredAmong last now applied records.toList { ram with deadlines }

end Ram

/-- A leader's leases and deadlines. -/
structure Leader where
  clock : Nat
  leases : Table LeaseId Nat
  applied : Table LeaseId Nat := ∅
  ram : Ram := {}

namespace Leader

variable (last : Nat)

/-- What a call of the lessor does to the deadlines: it begins with `promote`. -/
def lessorCall (l : Leader) : Call → Except Ram Ram
  | .promote => l.ram.promote last l.leases.toList l.clock
  | .renew _ id => do
    let ram ← l.ram.promote last l.leases.toList l.clock
    match l.leases[id]? with
    | none => return ram
    | some ttl => ram.renew last id ttl l.clock l.applied[id]?
  | .timeToLive id => do
    let ram ← l.ram.promote last l.leases.toList l.clock
    match l.leases[id]? with
    | none => return ram
    | some ttl => return (← ram.effectiveDeadline last id ttl l.clock l.applied[id]?).2
  | .expired => do
    let ram ← l.ram.promote last l.leases.toList l.clock
    return (← ram.expired last l.leases l.clock l.applied).2
  | .pass _ | .grant .. | .keepAlive _ | .revoke _ | .elect => .ok l.ram

/-- A call, and whether it panics. What panics leaves the rest of the member as it is. -/
def call (l : Leader) (c : Call) : Leader × Bool :=
  match l.lessorCall last c with
  | .error ram => ({ l with ram }, true)
  | .ok ram =>
    let l := { l with ram }
    match c with
    | .pass d => ({ l with clock := l.clock + d }, false)
    | .grant id ttl =>
      (if 0 < ttl then
        { l with leases := l.leases.insert id ttl, applied := l.applied.insert id l.clock }
      else l, false)
    | .keepAlive id =>
      (if l.leases.contains id then { l with applied := l.applied.insert id l.clock } else l, false)
    | .revoke id =>
      (if l.leases.contains id then
        { l with leases := l.leases.erase id, applied := l.applied.erase id }
      else l, false)
    | .elect => ({ l with ram := { l.ram with promoted := false } }, false)
    | .promote | .renew .. | .timeToLive _ | .expired => (l, false)

/-- The grant a `LeaseGrant` request becomes. -/
def requested (id : LeaseId) (ttlSecs : Int) : Call := .grant id (ttlOf (grantedTtl ttlSecs))

/-- Calls one after the other, each with whether it panics. -/
def run (l : Leader) : List Call → Leader × List Bool
  | [] => (l, [])
  | c :: calls =>
    let (l, panics) := l.call last c
    let (l, rest) := l.run calls
    (l, panics :: rest)

end Leader

end Fastetcd.Raft
