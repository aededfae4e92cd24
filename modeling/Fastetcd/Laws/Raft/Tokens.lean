import Fastetcd.Raft.Tokens
import Fastetcd.Laws.Mvcc.Moves
import Fastetcd.Laws.Raft.Snapshot

/-!
# Whom a token names

A change of the auth tables either leaves a user's password hash as it is or drops the user's tokens,
except where whole tables are replaced (`hashOf_plan`). So a token names a user with the hash it was
issued for, as long as replaced tables keep the hashes of users with tokens (`Member.run_sound`).

Adopting tables keeps the tokens of every user the new tables name, and installing a snapshot keeps
all of them, whatever hash a user has afterwards (`token_survives_install`).
-/

namespace Fastetcd.Mvcc

open Bincode Raft.Member

/-! ## A user's row -/

/-- The lengths of a user's strings and of its roles are `u64`s. -/
structure StoredUser.Fits (u : StoredUser) : Prop where
  name : (asBytes u.name).length < 256 ^ 8
  passwordHash : (asBytes u.passwordHash).length < 256 ^ 8
  roles : u.roles.length < 256 ^ 8
  role : ∀ role ∈ u.roles, (asBytes role).length < 256 ^ 8

theorem fits_of_length {u : StoredUser} (short : (encodeUser u).length < 256 ^ 8) : u.Fits := by
  have longer : ∀ role : String, (asBytes role).length < (encodeString role).length := by
    intro role
    simp [encodeString, encodeBytes, length_leBytes]
  obtain ⟨count, each⟩ := le_length_flatMap longer u.roles
  simp only [encodeUser, encodeString, encodeBytes, encodeList, List.length_append, length_leBytes]
    at short
  change ((((8 + _) + (8 + _)) + (8 + (u.roles.flatMap encodeString).length)) + _) < _ at short
  refine ⟨by omega, by omega, by omega, fun role mem => ?_⟩
  have := each role mem
  omega

theorem readUser_encodeUser {u : StoredUser} (fits : u.Fits) (rest : Bytes) :
    readUser (encodeUser u ++ rest) = some (u, rest) := by
  have roles := readList_encodeList fits.roles fun role mem =>
    readString_encodeString (fits.role role mem)
  simp [readUser, encodeUser, readString_encodeString fits.name,
    readString_encodeString fits.passwordHash, roles, readBool_encodeBool]

theorem readUser_encode {u : StoredUser} (fits : u.Fits) : readUser (encodeUser u) = some (u, []) := by
  simpa using readUser_encodeUser fits []

/-- Writing a user's row gives that user its hash, and leaves the others alone. -/
theorem hashOf_insert {users : Table Bytes Bytes} {u : StoredUser} (fits : u.Fits) (name : String) :
    hashOf (users.insert (asBytes u.name) (encodeUser u)) name =
      if name = u.name then some u.passwordHash else hashOf users name := by
  unfold hashOf getRow
  by_cases same : name = u.name
  · simp [same, readUser_encode fits]
  · have other : asBytes u.name ≠ asBytes name := fun eq => same (asBytes_injective eq).symm
    simp [Std.ExtTreeMap.getElem?_insert, other, same]

theorem wellKeyed_insert {users : Table Bytes Bytes} {u : StoredUser} (fits : u.Fits)
    (keyed : WellKeyed users) : WellKeyed (users.insert (asBytes u.name) (encodeUser u)) := by
  intro key bytes v rest found reads
  rw [Std.ExtTreeMap.getElem?_insert] at found
  split at found
  · next eq =>
    cases found
    rw [readUser_encode fits] at reads
    cases reads
    exact (Std.LawfulEqOrd.eq_of_compare eq).symm
  · exact keyed key bytes v rest found reads

theorem hashOf_erase {users : Table Bytes Bytes} {name user : String} (other : user ≠ name) :
    hashOf (users.erase (asBytes name)) user = hashOf users user := by
  have other : asBytes name ≠ asBytes user := fun eq => other (asBytes_injective eq).symm
  simp [hashOf, getRow, Std.ExtTreeMap.getElem?_erase, other]

theorem wellKeyed_erase {users : Table Bytes Bytes} {key : Bytes} (keyed : WellKeyed users) :
    WellKeyed (users.erase key) := by
  intro key' bytes u rest found reads
  rw [Std.ExtTreeMap.getElem?_erase] at found
  split at found
  · cases found
  · exact keyed key' bytes u rest found reads

/-- Users rewritten with the hash they have. -/
theorem hashOf_rewritten {users : Table Bytes Bytes} (us : List StoredUser) (keyed : WellKeyed users)
    (each : ∀ u ∈ us, u.Fits ∧ hashOf users u.name = some u.passwordHash) :
    WellKeyed (us.foldl (fun users u => users.insert (asBytes u.name) (encodeUser u)) users) ∧
      ∀ name, hashOf (us.foldl (fun users u => users.insert (asBytes u.name) (encodeUser u)) users)
        name = hashOf users name := by
  induction us generalizing users with
  | nil => exact ⟨keyed, fun _ => rfl⟩
  | cons u us ih =>
    obtain ⟨fits, same⟩ := each u List.mem_cons_self
    have hashes (name : String) : hashOf (users.insert (asBytes u.name) (encodeUser u)) name =
        hashOf users name := by
      rw [hashOf_insert fits]
      split
      · next eq => rw [eq, same]
      · rfl
    obtain ⟨keyed', hashes'⟩ := ih (wellKeyed_insert fits keyed) fun v mem => by
      obtain ⟨fits, same⟩ := each v (List.mem_cons_of_mem _ mem)
      exact ⟨fits, (hashes v.name).trans same⟩
    exact ⟨keyed', fun name => (hashes' name).trans (hashes name)⟩

/-! ## What a change does to the users -/

section Users

variable {t : Tables} {name : String} {u : StoredUser}

theorem hashOf_of_getUser (found : getUser t name = .ok (some u)) :
    hashOf (t.auth .users) name = some u.passwordHash := by
  rw [getUser] at found
  rw [hashOf, found]

theorem hashOf_of_getUser_none (found : getUser t name = .ok none) :
    hashOf (t.auth .users) name = none := by
  rw [getUser] at found
  rw [hashOf, found]

theorem name_of_getUser (keyed : WellKeyed (t.auth .users)) (found : getUser t name = .ok (some u)) :
    u.name = name := by
  rw [getUser, getRow] at found
  split at found
  · cases found
  · next bytes there =>
    split at found
    · next reads =>
      cases found
      exact (asBytes_injective (keyed _ bytes u _ there reads)).symm
    · cases found

theorem users_putUsers (t : Tables) (us : List StoredUser) : (t.commit (us.map putUser)).auth .users =
    us.foldl (fun users u => users.insert (asBytes u.name) (encodeUser u)) (t.auth .users) := by
  induction us generalizing t with
  | nil => rfl
  | cons u us ih =>
    rw [List.map_cons, Tables.commit_cons, ih]
    rfl

/-- The users a deleted role is taken from are those that had it. -/
theorem dropRole_spec (t : Tables) (role : String) :
    ∃ us : List StoredUser, dropRole t role = us.map putUser ∧ ∀ v, v ∈ us ↔
      ∃ (key bytes : Bytes) (u : StoredUser) (rest : Bytes), (t.auth .users)[key]? = some bytes ∧
        readUser bytes = some (u, rest) ∧ role ∈ u.roles ∧
          v = { u with roles := u.roles.filter (· != role) } := by
  refine ⟨(t.auth .users).toList.filterMap fun row =>
    (readUser row.2).bind fun read =>
      if (read.1.roles.filter (· != role)).length != read.1.roles.length then
        some { read.1 with roles := read.1.roles.filter (· != role) }
      else none, ?_, ?_⟩
  · rw [dropRole, List.map_filterMap]
    congr 1
    funext row
    cases readUser row.2 with
    | none => rfl
    | some u =>
      dsimp only [Option.bind_some]
      split <;> rfl
  · intro v
    have had : ∀ roles : List String,
        (roles.filter (· != role)).length ≠ roles.length ↔ role ∈ roles := by
      intro roles
      rw [ne_eq, List.length_filter_eq_length_iff]
      simp
    rw [List.mem_filterMap]
    constructor
    · rintro ⟨⟨key, bytes⟩, there, kept⟩
      have there := Std.ExtTreeMap.mem_toList_iff_getElem?_eq_some.mp there
      dsimp only at kept
      cases reads : readUser bytes with
      | none =>
        rw [reads] at kept
        cases kept
      | some read =>
        rw [reads] at kept
        obtain ⟨differ, ⟨⟩⟩ := Option.ite_none_right_eq_some.mp kept
        exact ⟨key, bytes, read.1, read.2, there, reads, (had _).mp (by simpa using differ), rfl⟩
    · rintro ⟨key, bytes, u, rest, there, reads, mem, rfl⟩
      refine ⟨(key, bytes), Std.ExtTreeMap.mem_toList_iff_getElem?_eq_some.mpr there, ?_⟩
      simp [reads, mem]

/-- They keep their hash. -/
theorem dropRole_users (keyed : WellKeyed (t.auth .users)) (role : String) :
    ∃ us : List StoredUser, dropRole t role = us.map putUser ∧
      ∀ u ∈ us, hashOf (t.auth .users) u.name = some u.passwordHash := by
  obtain ⟨us, dropped, mem_us⟩ := dropRole_spec t role
  refine ⟨us, dropped, ?_⟩
  intro v mem
  obtain ⟨key, bytes, u, rest, there, reads, -, rfl⟩ := (mem_us v).mp mem
  rw [keyed key bytes u rest there reads] at there
  simp [hashOf, getRow, there, reads]

end Users

/-- What a change that replaces no tables does to the users and their tokens. -/
structure Plans (t : Tables) (op : AuthOp) (fx : AuthEffects) (users : Table Bytes Bytes) : Prop where
  keyed : WellKeyed users
  hash : ∀ user hash, fx.revokeUser ≠ some user → hashOf (t.auth .users) user = some hash →
    hashOf users user = some hash
  token : ∀ token user, fx.addToken = some (token, user) →
    ∃ hash, op = .authenticate user token hash ∧ hashOf users user = some hash
  keep : fx.keepOnlyUsers = none

theorem plan_users {t : Tables} {op : AuthOp} {fx : AuthEffects} {batch : WriteBatch}
    (planned : plan t op = .ok (.ok (fx, batch))) (keyed : WellKeyed (t.auth .users))
    (fits : ∀ u : StoredUser, putUser u ∈ batch → u.Fits) (notAdopt : ∀ tables, op ≠ .adopt tables) :
    Plans t op fx ((t.commit batch).auth .users) := by
  -- a change that leaves the users alone
  have same {fx : AuthEffects} {users : Table Bytes Bytes} (users_eq : users = t.auth .users)
      (token : fx.addToken = none) (keep : fx.keepOnlyUsers = none) : Plans t op fx users := by
    subst users_eq
    refine ⟨keyed, fun _ _ _ hash => hash, fun _ _ added => ?_, keep⟩
    rw [token] at added
    cases added
  -- a change that rewrites users with the hash they have
  have rewrites (us : List StoredUser) (fits : ∀ u : StoredUser, putUser u ∈ us.map putUser → u.Fits)
      (hashes : ∀ u ∈ us, hashOf (t.auth .users) u.name = some u.passwordHash) {t' : Tables}
      (users_eq : t'.auth .users = t.auth .users) :
      Plans t op {} ((t'.commit (us.map putUser)).auth .users) := by
    obtain ⟨keyed, hashes⟩ := hashOf_rewritten us keyed fun u mem =>
      ⟨fits u (List.mem_map_of_mem mem), hashes u mem⟩
    rw [users_putUsers, users_eq]
    exact ⟨keyed, fun user hash _ before => (hashes user).trans before, nofun, rfl⟩
  have present {name : String} {u : StoredUser} (found : getUser t name = .ok (some u)) :
      hashOf (t.auth .users) u.name = some u.passwordHash := by
    rw [name_of_getUser keyed found]
    exact hashOf_of_getUser found
  cases stages_of_plan planned with
  | enable | disable | roleAdd | roleGrantPermission | roleRevokePermission => exact same rfl rfl rfl
  | authenticate found password =>
    refine ⟨keyed, fun _ _ _ hash => hash, ?_, rfl⟩
    rintro token user ⟨⟩
    exact ⟨_, rfl, hashOf_of_getUser found⟩
  | userAdd absent =>
    have fits := fits _ List.mem_cons_self
    refine ⟨wellKeyed_insert fits keyed, ?_, nofun, rfl⟩
    intro user hash _ before
    refine (hashOf_insert fits user).trans ?_
    rw [if_neg]
    · exact before
    · rintro rfl
      rw [hashOf_of_getUser_none absent] at before
      cases before
  | userDelete found =>
    refine ⟨wellKeyed_erase keyed, ?_, nofun, rfl⟩
    intro user hash kept before
    exact (hashOf_erase fun eq => kept (congrArg some eq.symm)).trans before
  | userChangePassword found =>
    have fits := fits _ List.mem_cons_self
    refine ⟨wellKeyed_insert fits keyed, ?_, nofun, rfl⟩
    intro user hash kept before
    refine (hashOf_insert fits user).trans ?_
    rw [if_neg]
    · exact before
    · rintro rfl
      exact kept (congrArg some (name_of_getUser keyed found).symm)
  | userGrantRole found | userRevokeRole found =>
    have hash := present found
    refine rewrites [_] fits ?_ rfl
    intro v mem
    cases List.mem_singleton.mp mem
    exact hash
  | roleDelete found =>
    obtain ⟨us, dropped, hashes⟩ := dropRole_users keyed _
    rw [dropped, Tables.commit_cons]
    exact rewrites us (fun u mem => fits u (List.mem_cons_of_mem _ (dropped ▸ mem))) hashes rfl
  | adopt tables => exact absurd rfl (notAdopt tables)

theorem addToken_authenticate {t : Tables} {user token hash : String} {fx : AuthEffects}
    {batch : WriteBatch} (planned : plan t (.authenticate user token hash) = .ok (.ok (fx, batch))) :
    fx.addToken = some (token, user) := by
  cases stages_of_plan planned
  rfl

end Fastetcd.Mvcc

namespace Fastetcd.Raft

open Mvcc Bincode

namespace Member

/-! ## Tokens -/

variable {m : Member}

/-- Every token there is was issued for the hash its user has. -/
structure Inv (m : Member) : Prop where
  keyed : WellKeyed m.users
  tokens : ∀ token user, (token, user) ∈ m.store.auth.tokens →
    ∃ hash, m.issued token = some ⟨user, hash, false⟩ ∧ hashOf m.users user = some hash

theorem mem_of_userForToken {mem : AuthMemory} {token user : String} {expired : String → Bool}
    {purges : Bool} (named : (mem.userForToken token expired purges).1 = some user) :
    (token, user) ∈ mem.tokens := by
  unfold AuthMemory.userForToken at named
  dsimp only at named
  split at named
  · cases named
  · next key found =>
    split at named
    · cases named
    · cases named
      have key_eq := List.find?_some found
      have kept := List.mem_of_find?_eq_some found
      cases eq_of_beq key_eq
      split at kept
      · exact (List.mem_filter.mp kept).1
      · exact kept

theorem tokens_userForToken (mem : AuthMemory) (token : String) (expired : String → Bool)
    (purges : Bool) : (mem.userForToken token expired purges).2.tokens ⊆ mem.tokens := by
  have purged : (if purges then { mem with tokens := mem.tokens.filter (!expired ·.1) }
      else mem).tokens ⊆ mem.tokens := by
    split
    · exact List.filter_subset_self _
    · exact List.Subset.refl _
  unfold AuthMemory.userForToken
  dsimp only
  split
  · exact purged
  · split
    · exact List.Subset.trans (List.filter_subset_self _) purged
    · exact purged

theorem Inv.sound (inv : m.Inv) : m.Sound :=
  fun token _ _ user named => inv.tokens token user (mem_of_userForToken named)

/-- A token whose user keeps its hash is not broken. -/
theorem settle_issued {token user hash : String} (issued : m.issued token = some ⟨user, hash, false⟩)
    (same : hashOf m.users user = some hash) :
    m.settle.issued token = some ⟨user, hash, false⟩ := by
  simp [settle, issued, same]

/-- Tables that leave the hash of every user with a token leave the tokens sound. -/
theorem Inv.settled (keyed : WellKeyed m.users)
    (tokens : ∀ token user, (token, user) ∈ m.store.auth.tokens →
      ∃ hash, m.issued token = some ⟨user, hash, false⟩ ∧ hashOf m.users user = some hash) :
    m.settle.Inv where
  keyed := keyed
  tokens token user mem := by
    obtain ⟨hash, issued, same⟩ := tokens token user mem
    exact ⟨hash, settle_issued issued same, same⟩

theorem tokens_apply (fx : AuthEffects) (mem : AuthMemory) : (fx.apply mem).tokens =
    let revoked := fx.revokeUser.elim mem.tokens fun user => mem.tokens.filter (·.2 != user)
    let kept := fx.keepOnlyUsers.elim revoked fun keep => revoked.filter (keep.contains ·.2)
    fx.addToken.elim kept fun added => added :: kept.filter (·.1 != added.1) := by
  obtain ⟨setEnabled, addToken, revokeUser, keepOnlyUsers, adopted⟩ := fx
  cases setEnabled <;> cases addToken <;> cases revokeUser <;> cases keepOnlyUsers <;>
    cases adopted <;> rfl

/-- Where a token comes from that is there once a change's effects have run. -/
theorem mem_tokens_apply {fx : AuthEffects} {mem : AuthMemory} {token user : String}
    (there : (token, user) ∈ (fx.apply mem).tokens) :
    fx.addToken = some (token, user) ∨
      (token, user) ∈ mem.tokens ∧ fx.revokeUser ≠ some user ∧
        (∀ keep, fx.keepOnlyUsers = some keep → user ∈ keep) ∧
        ∀ token' user', fx.addToken = some (token', user') → token' ≠ token := by
  rw [tokens_apply] at there
  have revoked : (token, user) ∈ (fx.revokeUser.elim mem.tokens fun user =>
      mem.tokens.filter (·.2 != user)) → (token, user) ∈ mem.tokens ∧ fx.revokeUser ≠ some user := by
    cases fx.revokeUser with
    | none => exact fun mem => ⟨mem, nofun⟩
    | some name =>
      intro mem
      obtain ⟨mem, other⟩ := List.mem_filter.mp mem
      refine ⟨mem, ?_⟩
      rintro ⟨⟩
      simp at other
  generalize (fx.revokeUser.elim mem.tokens fun user => mem.tokens.filter (·.2 != user)) = left
    at there revoked
  have kept : (token, user) ∈ (fx.keepOnlyUsers.elim left fun keep =>
      left.filter (keep.contains ·.2)) →
      (token, user) ∈ left ∧ ∀ keep, fx.keepOnlyUsers = some keep → user ∈ keep := by
    cases fx.keepOnlyUsers with
    | none => exact fun mem => ⟨mem, nofun⟩
    | some keep =>
      intro mem
      obtain ⟨mem, named⟩ := List.mem_filter.mp mem
      refine ⟨mem, ?_⟩
      rintro _ ⟨⟩
      simpa using named
  dsimp only at there
  generalize (fx.keepOnlyUsers.elim left fun keep => left.filter (keep.contains ·.2)) = rest
    at there kept
  cases added : fx.addToken with
  | none =>
    rw [added] at there
    exact .inr ⟨(revoked (kept there).1).1, (revoked (kept there).1).2, (kept there).2, nofun⟩
  | some new =>
    rw [added] at there
    obtain same | mem := List.mem_cons.mp there
    · exact .inl (congrArg some same.symm)
    · obtain ⟨mem, other⟩ := List.mem_filter.mp mem
      refine .inr ⟨(revoked (kept mem).1).1, (revoked (kept mem).1).2, (kept mem).2, ?_⟩
      rintro _ _ ⟨⟩ rfl
      simp at other

/-- A change that commits: its writes and its effects. -/
theorem Inv.committed (inv : m.Inv) {op : AuthOp} {fx : AuthEffects} {batch : WriteBatch}
    (planned : plan m.store.engine op = .ok (.ok (fx, batch))) {engineOk : Bool}
    (careful : m.Careful (.auth op engineOk)) {store : Store} {rev : Int}
    (engine : store.engine.auth .users = (m.store.engine.commit batch).auth .users)
    (auth : store.auth = fx.apply m.store.auth) :
    (settle { store, issued := issue m.issued op (.ok (rev, .ok ())) }).Inv := by
  obtain ⟨short, replaces⟩ := careful
  have fits (u : StoredUser) (mem : putUser u ∈ batch) : u.Fits :=
    fits_of_length (short fx batch planned _ _ mem)
  by_cases adopts : ∃ tables, op = .adopt tables
  · obtain ⟨tables, rfl⟩ := adopts
    cases planned
    obtain ⟨keyed, hashes⟩ := replaces
    refine .settled (by rw [users, engine]; exact keyed) fun token user mem => ?_
    rw [show store.auth = _ from auth] at mem
    obtain added | ⟨mem, -, keep, -⟩ := mem_tokens_apply mem
    · cases added
    · obtain ⟨hash, issued, same⟩ := inv.tokens token user mem
      refine ⟨hash, issued, ?_⟩
      rw [users, engine]
      exact (hashes user ⟨⟨token, mem⟩, keep _ rfl⟩).trans same
  · have plans := plan_users planned inv.keyed fits fun tables eq => adopts ⟨tables, eq⟩
    refine .settled (by rw [users, engine]; exact plans.keyed) fun token user mem => ?_
    rw [show store.auth = _ from auth] at mem
    obtain added | ⟨mem, revoked, -, other⟩ := mem_tokens_apply mem
    · obtain ⟨hash, rfl, same⟩ := plans.token token user added
      refine ⟨hash, Function.update_self .., ?_⟩
      rw [users, engine]
      exact same
    · obtain ⟨hash, issued, same⟩ := inv.tokens token user mem
      refine ⟨hash, ?_, ?_⟩
      · show issue m.issued op (.ok (rev, .ok ())) token = _
        cases op with
        | authenticate user' token' hash' =>
          have other : token ≠ token' := (other token' user' (addToken_authenticate planned)).symm
          exact (Function.update_of_ne other ..).trans issued
        | _ => exact issued
      · rw [users, engine]
        exact plans.hash user hash revoked same

theorem Inv.auth (inv : m.Inv) {op : AuthOp} {engineOk : Bool}
    (careful : m.Careful (.auth op engineOk)) : (m.step (.auth op engineOk)).Inv := by
  -- nothing is issued for a change that is refused or fails
  have unissued {answer : Except MvccError (Int × Except AuthApplyError Unit)} {store : Store}
      (failed : ∀ rev, answer ≠ .ok (rev, .ok ())) (engine : store.engine = m.store.engine)
      (auth : store.auth = m.store.auth) :
      (settle { store, issued := issue m.issued op answer }).Inv := by
    have same : issue m.issued op answer = m.issued := by
      unfold issue
      split
      · next rev => exact absurd rfl (failed rev)
      · rfl
    refine .settled (by rw [users, engine]; exact inv.keyed) fun token user mem => ?_
    rw [show store.auth = _ from auth] at mem
    rw [same, users, engine]
    exact inv.tokens token user mem
  rw [step, applyAuth_eq]
  cases planned : plan m.store.engine op with
  | error e => exact unissued nofun rfl rfl
  | ok answer =>
    cases answer with
    | error refused => exact unissued (fun _ eq => by cases eq) rfl rfl
    | ok staged =>
      obtain ⟨fx, batch⟩ := staged
      dsimp only
      split
      · next none =>
        have none : batch = [] := (List.append_eq_nil_iff.mp (List.isEmpty_iff.mp none)).1
        subst none
        exact inv.committed planned careful rfl rfl
      · cases engineOk with
        | false => exact unissued nofun rfl rfl
        | true =>
          refine inv.committed planned careful ?_ rfl
          show ((m.store.engine.commit (m.store.folded batch)).auth .users) = _
          rw [Store.folded, Tables.commit_append, commit_raftRows]

theorem Inv.step (inv : m.Inv) {event : Event} (careful : m.Careful event) : (m.step event).Inv := by
  cases event with
  | auth op engineOk => exact inv.auth careful
  | install body engineOk =>
    have same : (installSnapshot m.store body engineOk).2.auth.tokens = m.store.auth.tokens := by
      unfold installSnapshot
      split
      · rfl
      · cases engineOk <;> rfl
    refine .settled careful.1 fun token user mem => ?_
    have mem : (token, user) ∈ m.store.auth.tokens := same ▸ mem
    obtain ⟨hash, issued, before⟩ := inv.tokens token user mem
    exact ⟨hash, issued, (careful.2 user ⟨token, mem⟩).trans before⟩
  | lookup token expired purges =>
    refine ⟨inv.keyed, fun token' user mem => inv.tokens token' user ?_⟩
    exact tokens_userForToken _ _ _ _ mem
  | purge expired =>
    exact ⟨inv.keyed, fun token user mem => inv.tokens token user (List.mem_filter.mp mem).1⟩

theorem Inv.run (inv : m.Inv) {events : List Event} (careful : m.CarefulRun events) :
    (m.run events).Inv := by
  induction events generalizing m with
  | nil => exact inv
  | cons event events ih => exact ih (inv.step careful.1) careful.2

/-- A token a member accepts names a user whose password hash is the one the token was issued for. -/
theorem run_sound {store : Store} {events : List Event} (fresh : store.auth.tokens = [])
    (keyed : WellKeyed (store.engine.auth .users))
    (careful : CarefulRun ⟨store, fun _ => none⟩ events) :
    (run ⟨store, fun _ => none⟩ events).Sound := by
  have inv : Inv ⟨store, fun _ => none⟩ := by
    refine ⟨keyed, fun token user mem => ?_⟩
    rw [show store.auth.tokens = _ from fresh] at mem
    cases mem
  exact (inv.run careful).sound

/-- One user, and a token for it. -/
def authenticated : List Event :=
  [.auth (.userAdd "a" "h" false) true, .auth (.authenticate "a" "t" "h") true]

theorem run_sound_authenticated :
    ((run ⟨Store.open Tables.empty, fun _ => none⟩ authenticated).store.auth.userForToken
      "t" (fun _ => false) false).1 = some "a" ∧
    (run ⟨Store.open Tables.empty, fun _ => none⟩ authenticated).Sound := by
  refine ⟨by decide +kernel, run_sound rfl ?_ ⟨⟨?_, trivial⟩, ⟨?_, trivial⟩, trivial⟩⟩
  · intro key bytes u rest found
    rw [show (Store.open Tables.empty).engine.auth .users = ∅ from rfl,
      Std.ExtTreeMap.getElem?_empty] at found
    cases found
  · intro effects batch planned key value mem
    have staged : plan (Store.open Tables.empty).engine (.userAdd "a" "h" false) =
      .ok (.ok ({}, [putUser ⟨"a", "h", [], false⟩])) := rfl
    cases staged.symm.trans planned
    cases List.mem_singleton.mp mem
    decide +kernel
  · intro effects batch planned key value mem
    have none : batch = [] := by
      obtain ⟨u, -, planned⟩ := withUser_ok planned
      split at planned <;> cases planned
      rfl
    rw [none] at mem
    cases mem

/-- A snapshot without the user is installed. -/
def withoutUser : List Event :=
  authenticated ++
    [.install (writeBody (bodySource Tables.empty none ⟨none, []⟩)) true]

theorem token_survives_install :
    ¬ (run ⟨Store.open Tables.empty, fun _ => none⟩ withoutUser).Sound := by
  intro sound
  have named : ((run ⟨Store.open Tables.empty, fun _ => none⟩ withoutUser).store.auth.userForToken
      "t" (fun _ => false) false).1 = some "a" := by decide +kernel
  have gone : hashOf (run ⟨Store.open Tables.empty, fun _ => none⟩ withoutUser).users "a" = none := by
    decide +kernel
  obtain ⟨hash, -, there⟩ := sound "t" _ _ "a" named
  rw [gone] at there
  cases there

end Member

end Fastetcd.Raft
