import Fastetcd.Laws.Server.Authz
import Fastetcd.Server.LeaseTimeToLive

/-!
# The keys LeaseTimeToLive lists

A call that passed its check was checked for the keys the lease had on the serving member at that
time. If the list read later holds no other key, every key in it was checked, against permissions
the user had then. A key attached in between, or one that only the member asked for the list has, is
listed unchecked.
-/

namespace Fastetcd.Server.LeaseCall

open Mvcc Raft

variable {M : Type} [DecidableEq M] {calm : Prop} {me : M} {id : LeaseId} {user : String}

/-- The user may read these keys by the tables, or is root. -/
def Readable (user : String) (tables : Tables) (keys : List Bytes) : Prop :=
  NotRoot tables user → ∀ key ∈ keys, Permitted tables user .read key

/-- What a checked call was checked for, and what it answered, is readable. -/
def Phase.Sound (user : String) : Phase → Prop
  | .passed tables checked => Readable user tables checked
  | .answered (some tables) keys => Readable user tables keys
  | _ => True

theorem readable_of_authorizeKeys {tables : Tables} {keys : List Bytes}
    (accepted : authorizeKeys tables true (some user) keys = .ok ()) :
    Readable user tables keys := by
  intro notRoot key mem
  have within := permitted_of_authorizeAll accepted notRoot
  exact within _ (List.mem_map.mpr ⟨key, mem, rfl⟩) key (by simp [inRange])

theorem sound_authorized (s : Store) (keys : List Bytes) :
    (authorized s (some user) keys).Sound user := by
  unfold authorized
  cases accepted : authorizeKeys s.engine s.auth.enabled (some user) keys with
  | error e => trivial
  | ok _ =>
    cases on : s.auth.enabled with
    | false => trivial
    | true =>
      rw [on] at accepted
      exact readable_of_authorizeKeys accepted

theorem sound_listed {s : Store} {tables : Tables} {checked : List Bytes}
    (readable : Readable user tables checked)
    (kept : ∀ keys, parseAttached (attachedRows s.engine id) = .ok keys → keys ⊆ checked) :
    (listed s id (some tables)).Sound user := by
  unfold listed leaseTtlKeys
  cases s.engine.lease[leaseIdKey id]? with
  | none =>
    intro _ key mem
    cases mem
  | some rec =>
    cases read : parseAttached (attachedRows s.engine id) with
    | error e => trivial
    | ok keys =>
      intro notRoot key mem
      exact readable notRoot key (kept keys read mem)

theorem Step.sound {c c' : Config M} (step : Step True me (some user) id c c')
    (sound : c.phase.Sound user) : c'.phase.Sound user := by
  cases step with
  | commit | apply => exact sound
  | look =>
    simp only [looked]
    split
    · trivial
    · split
      · intro _ key mem
        cases mem
      · trivial
  | readKeys =>
    simp only [LeaseCall.readKeys]
    split <;> trivial
  | authorize => exact sound_authorized _ _
  | list _ here kept =>
    rw [here] at sound
    exact sound_listed sound (kept trivial)
  | listUnchecked =>
    simp only [listed]
    split <;> trivial

/-- Every key that a checked call lists is one the user could read when the call was authorized, if
no key is listed that was not there for the check. -/
theorem listed_keys_readable {c : Config M} (run : Run True me (some user) id c) {tables : Tables}
    {keys : List Bytes} (answered : c.phase = .answered (some tables) keys)
    (notRoot : NotRoot tables user) : ∀ key ∈ keys, Permitted tables user .read key := by
  have sound : c.phase.Sound user := by
    clear answered
    induction run with
    | start => trivial
    | step _ step ih => exact step.sound ih
  rw [answered] at sound
  exact sound notRoot

/-! ## A key attached in between -/

/-- Auth is on, alice may read `a`, and `a` is attached to lease 1. -/
def aliceReads : List FastetcdLogEntry :=
  [.auth (.userAdd "root" "h" false), .auth (.userAdd "alice" "h" false), .auth (.roleAdd "reader"),
    .auth (.roleGrantPermission "reader" ⟨.read, [97], []⟩),
    .auth (.userGrantRole "alice" "reader"), .auth .enable, .leaseGrant 1 60 0,
    .apply [.put [97] [1] 1 false false false]]

/-- The put that attaches a key alice may not read. -/
def putSecret : FastetcdLogEntry := .apply [.put [115] [1] 1 false false false]

theorem aliceReads_enabled : (applied aliceReads).auth.enabled = true := by decide +kernel

theorem aliceReads_keys : parseAttached (attachedRows (applied aliceReads).engine 1) = .ok [[97]] := by
  decide +kernel

theorem aliceReads_authorized :
    authorizeKeys (applied aliceReads).engine true (some "alice") [[97]] = .ok () := by
  decide +kernel

theorem aliceReads_user : getUser (applied aliceReads).engine "alice" =
    .ok (some ⟨"alice", "h", ["reader"], false⟩) := by
  decide +kernel

theorem aliceReads_role : getRole (applied aliceReads).engine "reader" =
    .ok (some ⟨"reader", [⟨.read, [97], []⟩]⟩) := by
  decide +kernel

theorem aliceReads_notRoot : NotRoot (applied aliceReads).engine "alice" := by
  refine ⟨by decide, fun u got => ?_⟩
  rw [aliceReads_user] at got
  cases got
  decide

/-- A member that has applied the whole log. -/
theorem store_current (log : List FastetcdLogEntry) {done : Unit → Nat} (phase : Phase)
    (all : done () = log.length) : (⟨log, done, phase⟩ : Config Unit).store () = applied log := by
  simp only [Config.store, all, List.take_length]

/-- The call of alice on the only member, when its check has passed. -/
theorem alice_passes (calm : Prop) : Run calm () (some "alice") 1
    ⟨aliceReads, fun _ => aliceReads.length, .passed (applied aliceReads).engine [[97]]⟩ := by
  have run : Run calm () (some "alice") 1 _ := .start aliceReads fun _ : Unit => aliceReads.length
  have run := run.step (.look _ rfl)
  rw [store_current aliceReads _ rfl, looked, aliceReads_enabled] at run
  have run := run.step (.readKeys _ rfl)
  rw [store_current aliceReads _ rfl, readKeys, aliceReads_keys] at run
  have run := run.step (.authorize _ rfl)
  rw [store_current aliceReads _ rfl, authorized, aliceReads_enabled, aliceReads_authorized] at run
  exact run

/-- The lists of the lease before and after the put. -/
theorem aliceReads_listed : leaseTtlKeys (applied aliceReads).engine 1 = .ok (some [[97]]) := by
  decide +kernel

theorem putSecret_listed :
    leaseTtlKeys (applied (aliceReads ++ [putSecret])).engine 1 = .ok (some [[97], [115]]) := by
  decide +kernel

theorem listed_keys_readable_alice :
    ∃ c : Config Unit, Run True () (some "alice") 1 c ∧
      c.phase = .answered (some (applied aliceReads).engine) [[97]] ∧
      ∀ key ∈ [[97]], Permitted (applied aliceReads).engine "alice" .read key := by
  have run := (alice_passes True).step (.list _ () rfl (by
    intro _ keys read
    rw [store_current aliceReads _ rfl, aliceReads_keys] at read
    cases read
    exact fun key mem => mem))
  rw [store_current aliceReads _ rfl, listed, aliceReads_listed] at run
  exact ⟨_, run, rfl, listed_keys_readable run rfl aliceReads_notRoot⟩

theorem key_attached_after_check :
    ∃ c : Config Unit, Run False () (some "alice") 1 c ∧
      c.phase = .answered (some (applied aliceReads).engine) [[97], [115]] ∧
      NotRoot (applied aliceReads).engine "alice" ∧
      ¬ Permitted (applied aliceReads).engine "alice" .read [115] := by
  have run := (alice_passes False).step (.commit _ putSecret)
  have run := run.step (.apply _ () (aliceReads ++ [putSecret]).length (by decide) (by decide))
  have run := run.step (.list _ () rfl False.elim)
  rw [store_current (aliceReads ++ [putSecret]) _ (Function.update_self _ _ _), listed,
    putSecret_listed] at run
  refine ⟨_, run, rfl, aliceReads_notRoot, ?_⟩
  rintro ⟨u, role, r, found, has, held, p, mem, -, covers⟩
  rw [aliceReads_user] at found
  cases found
  obtain rfl := List.mem_singleton.mp has
  rw [aliceReads_role] at held
  cases held
  obtain rfl := List.mem_singleton.mp mem
  revert covers
  decide

end Fastetcd.Server.LeaseCall
