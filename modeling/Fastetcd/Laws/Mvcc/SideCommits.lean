import Fastetcd.Mvcc.Maintenance

/-!
# Commits beside the keys

Leases, the cluster id, auth and the staged raft rows are written by commits of their own, each of
which takes the staged rows along. These are the operations as equations: what they answer, and the
one store that each leaves.
-/

namespace Fastetcd.Mvcc

open Bincode

variable {s : Store}

/-- The batch of a commit that also takes the staged raft rows. -/
def Store.folded (s : Store) (batch : WriteBatch) : WriteBatch :=
  batch ++ s.pendingRaftMeta.map (BatchOp.putMeta ∘ MetaRow.raft)

/-- The store after a commit of `batch` with the staged raft rows. -/
def Store.sideCommitted (s : Store) (batch : WriteBatch) : Store :=
  { s with
    engine := s.engine.commit (s.folded batch)
    commits := s.commits ++ [s.engine.commit (s.folded batch)]
    pendingRaftMeta := [] }

/-- The store after a commit that failed. -/
def Store.commitFailed (s : Store) : Store := { s with pendingRaftMeta := [] }

theorem applyLeaseGrant_eq (id : LeaseId) (ttlSecs nowUnix : Int) (engineOk : Bool) :
    s.applyLeaseGrant id ttlSecs nowUnix engineOk =
      if ttlSecs ≤ 0 then
        (.error (.refused (.invalidArgument s!"lease TTL must be positive, got {ttlSecs}")), s)
      else
        let (finalId, mark) := grantId id s.writeState.nextLeaseId
        let batch : WriteBatch := (if id = 0 ∨ id > s.writeState.nextLeaseId then
          [.putMeta (.nextLeaseId mark)] else []) ++
            [.putLease (leaseIdKey finalId) ⟨finalId, ttlSecs, saturatingAdd nowUnix ttlSecs⟩]
        if engineOk then
          (.ok ⟨finalId, ttlSecs, s.writeState.currentRev⟩,
            { s.sideCommitted batch with writeState := { s.writeState with nextLeaseId := mark } })
        else
          (.error .storage,
            { s.commitFailed with writeState := { s.writeState with nextLeaseId := mark } }) := by
  unfold Store.applyLeaseGrant
  split
  · rfl
  · cases engineOk <;> rfl

theorem applyLeaseKeepalive_eq (id : LeaseId) (nowUnix : Int) (engineOk : Bool) :
    s.applyLeaseKeepalive id nowUnix engineOk =
      match s.engine.lease[leaseIdKey id]? with
      | none => (.error (.refused .leaseNotFound), s)
      | some rec =>
        if engineOk then
          (.ok ⟨id, rec.ttlSecs, rec.ttlSecs⟩, s.sideCommitted [.putLease (leaseIdKey id)
            { rec with deadlineUnixSecs := saturatingAdd nowUnix rec.ttlSecs }])
        else (.error .storage, s.commitFailed) := by
  unfold Store.applyLeaseKeepalive
  cases s.engine.lease[leaseIdKey id]? with
  | none => rfl
  | some rec => cases engineOk <;> rfl

theorem applyClusterId_eq (id : UInt64) (engineOk : Bool) :
    s.applyClusterId id engineOk =
      if s.clusterId = 0 then
        if engineOk then
          (.ok id, { s.sideCommitted [.putMeta (.clusterId id)] with clusterId := id })
        else (.error .storage, s.commitFailed)
      else if s.pendingRaftMeta.isEmpty then (.ok s.clusterId, s)
      else if engineOk then (.ok s.clusterId, s.sideCommitted [])
      else (.error .storage, s.commitFailed) := by
  obtain ⟨engine, commits, writeState, view, index, values, pending, batched, clusterId, auth,
    broadcast⟩ := s
  unfold Store.applyClusterId
  by_cases first : clusterId = 0
  · subst first
    cases engineOk <;> rfl
  · simp only [Store.foldRaftMeta, first, if_false]
    cases pending with
    | nil => rfl
    | cons row rows => cases engineOk <;> rfl

theorem flushRaftMeta_eq (engineOk : Bool) :
    s.flushRaftMeta engineOk =
      if s.pendingRaftMeta.isEmpty then (.ok (), s)
      else if engineOk then (.ok (), s.sideCommitted [])
      else (.error .storage, s.commitFailed) := by
  obtain ⟨engine, commits, writeState, view, index, values, pending, batched, clusterId, auth,
    broadcast⟩ := s
  cases pending with
  | nil => rfl
  | cons row rows => cases engineOk <;> rfl

/-! ## Auth changes -/

/-- A change of a user that is planned finds the user. -/
theorem withUser_ok {t : Tables} {name : String} {change : StoredUser → Except MvccError Planned}
    {staged : AuthEffects × WriteBatch} (planned : withUser t name change = .ok (.ok staged)) :
    ∃ u, getUser t name = .ok (some u) ∧ change u = .ok (.ok staged) := by
  simp only [withUser, bind, Except.bind] at planned
  split at planned
  · cases planned
  · next found =>
    split at planned
    · cases planned
    · exact ⟨_, found, planned⟩

/-- A change of a role that is planned finds the role. -/
theorem withRole_ok {t : Tables} {name : String} {change : StoredRole → Except MvccError Planned}
    {staged : AuthEffects × WriteBatch} (planned : withRole t name change = .ok (.ok staged)) :
    ∃ r, getRole t name = .ok (some r) ∧ change r = .ok (.ok staged) := by
  simp only [withRole, bind, Except.bind] at planned
  split at planned
  · cases planned
  · next found =>
    split at planned
    · cases planned
    · exact ⟨_, found, planned⟩

/-- A change that is not refused: what it found in the tables, its effects and what it stages. -/
inductive Stages (t : Tables) : AuthOp → AuthEffects → WriteBatch → Prop
  | enable {u : StoredUser} (root : getUser t "root" = .ok (some u)) :
      Stages t .enable { setEnabled := some true } [.putAuth .state metaAuthEnabled [1]]
  | disable : Stages t .disable { setEnabled := some false } [.putAuth .state metaAuthEnabled [0]]
  | authenticate {user token : String} {u : StoredUser} (found : getUser t user = .ok (some u))
      (password : u.noPassword = false) :
      Stages t (.authenticate user token u.passwordHash) { addToken := some (token, user) } []
  | userAdd {name passwordHash : String} {noPassword : Bool} (absent : getUser t name = .ok none) :
      Stages t (.userAdd name passwordHash noPassword) {}
        [putUser ⟨name, passwordHash, [], noPassword⟩]
  | userDelete {name : String} {u : StoredUser} (found : getUser t name = .ok (some u)) :
      Stages t (.userDelete name) { revokeUser := some name } [.deleteAuth .users (asBytes name)]
  | userChangePassword {name passwordHash : String} {u : StoredUser}
      (found : getUser t name = .ok (some u)) :
      Stages t (.userChangePassword name passwordHash) { revokeUser := some name }
        [putUser { u with passwordHash, noPassword := false }]
  | userGrantRole {user role : String} {u : StoredUser} {r : StoredRole}
      (found : getUser t user = .ok (some u)) (there : getRole t role = .ok (some r)) :
      Stages t (.userGrantRole user role) {}
        [putUser { u with roles := if u.roles.contains role then u.roles else u.roles ++ [role] }]
  | userRevokeRole {name role : String} {u : StoredUser} (found : getUser t name = .ok (some u)) :
      Stages t (.userRevokeRole name role) {}
        [putUser { u with roles := u.roles.filter (· != role) }]
  | roleAdd {name : String} (absent : getRole t name = .ok none) :
      Stages t (.roleAdd name) {} [putRole ⟨name, []⟩]
  | roleDelete {name : String} {r : StoredRole} (found : getRole t name = .ok (some r)) :
      Stages t (.roleDelete name) {} (.deleteAuth .roles (asBytes name) :: dropRole t name)
  | roleGrantPermission {name : String} {perm : StoredPermission} {r : StoredRole}
      (found : getRole t name = .ok (some r)) :
      Stages t (.roleGrantPermission name perm) {}
        [putRole { r with permissions := r.permissions ++ [perm] }]
  | roleRevokePermission {name : String} {key rangeEnd : Bytes} {r : StoredRole}
      (found : getRole t name = .ok (some r)) :
      Stages t (.roleRevokePermission name key rangeEnd) {}
        [putRole { r with permissions :=
          r.permissions.filter fun p => p.key != key || p.rangeEnd != rangeEnd }]
  | adopt (tables : AuthTables) :
      Stages t (.adopt tables)
        { setEnabled := some tables.enabled
          adopted := true
          keepOnlyUsers := some (tables.users.filterMap fun row => fromUtf8 row.1) }
        tables.replaceInto

theorem stages_of_plan {t : Tables} {op : AuthOp} {effects : AuthEffects} {batch : WriteBatch}
    (planned : plan t op = .ok (.ok (effects, batch))) : Stages t op effects batch := by
  cases op with
  | enable =>
    simp only [plan, bind, Except.bind] at planned
    split at planned
    · cases planned
    next found =>
      split at planned <;> cases planned
      exact .enable found
  | disable =>
    cases planned
    exact .disable
  | authenticate name token checkedHash =>
    obtain ⟨u, found, planned⟩ := withUser_ok planned
    split at planned
    · cases planned
    next checked =>
      cases planned
      simp only [Bool.or_eq_true, bne_iff_ne, not_or, not_not, Bool.not_eq_true] at checked
      obtain ⟨rfl, password⟩ := checked
      exact .authenticate found password
  | userAdd name passwordHash noPassword =>
    simp only [plan, bind, Except.bind] at planned
    split at planned
    · cases planned
    next found =>
      split at planned <;> cases planned
      exact .userAdd found
  | userDelete name =>
    obtain ⟨u, found, planned⟩ := withUser_ok planned
    cases planned
    exact .userDelete found
  | userChangePassword name passwordHash =>
    obtain ⟨u, found, planned⟩ := withUser_ok planned
    cases planned
    exact .userChangePassword found
  | userGrantRole name roleName =>
    obtain ⟨u, found, planned⟩ := withUser_ok planned
    obtain ⟨r, there, planned⟩ := withRole_ok planned
    cases planned
    exact .userGrantRole found there
  | userRevokeRole name roleName =>
    obtain ⟨u, found, planned⟩ := withUser_ok planned
    cases planned
    exact .userRevokeRole found
  | roleAdd name =>
    simp only [plan, bind, Except.bind] at planned
    split at planned
    · cases planned
    next found =>
      split at planned <;> cases planned
      exact .roleAdd found
  | roleDelete name =>
    obtain ⟨r, found, planned⟩ := withRole_ok planned
    cases planned
    exact .roleDelete found
  | roleGrantPermission name perm =>
    obtain ⟨r, found, planned⟩ := withRole_ok planned
    cases planned
    exact .roleGrantPermission found
  | roleRevokePermission name key rangeEnd =>
    obtain ⟨r, found, planned⟩ := withRole_ok planned
    cases planned
    exact .roleRevokePermission found
  | adopt tables =>
    cases planned
    exact .adopt tables

theorem applyAuth_eq (op : AuthOp) (engineOk : Bool) :
    s.applyAuth op engineOk =
      match plan s.engine op with
      | .error e => (.error e, s)
      | .ok (.error refused) => (.ok (s.view.current, .error refused), s)
      | .ok (.ok (effects, batch)) =>
        if (s.folded batch).isEmpty then
          (.ok (s.view.current, .ok ()), { s with auth := effects.apply s.auth })
        else if engineOk then
          (.ok (s.view.current, .ok ()),
            { s.sideCommitted batch with auth := effects.apply s.auth })
        else (.error .storage, s.commitFailed) := by
  unfold Store.applyAuth
  match plan s.engine op with
  | .error e => rfl
  | .ok (.error refused) => rfl
  | .ok (.ok (effects, batch)) =>
    obtain ⟨engine, commits, writeState, view, index, values, pending, batched, clusterId, auth,
      broadcast⟩ := s
    cases pending with
    | cons row rows =>
      cases batch <;> cases engineOk <;> rfl
    | nil =>
      cases batch with
      | nil => rfl
      | cons => cases engineOk <;> rfl

end Fastetcd.Mvcc
