import Fastetcd.Laws.Raft.Tokens

/-!
# The integrity of the auth tables

Every row is the row of the user or role it names, every role a user has exists, and the enabled flag
is the one stored. Every auth change keeps that (`Intact.plan`). While auth is enabled the user `root`
should exist, too, or nobody can turn auth off. `enable` asks for it, but nothing keeps `root` from
being deleted afterwards (`root_deleted_while_enabled`); as long as it is not, it is there
(`auth_tables_intact`).
-/

namespace Fastetcd.Mvcc

open Bincode Raft Std

/-! ## Names below the end of a clear -/

theorem asBytes_eq (s : String) : asBytes s = s.toList.flatMap String.utf8EncodeChar := by
  have bytes : s.toUTF8 = (s.toList.flatMap String.utf8EncodeChar).toByteArray := by
    conv_lhs => rw [← String.ofList_toList (s := s)]
    exact String.toByteArray_ofList
  rw [asBytes, bytes, List.data_toByteArray]

/-- The first byte of a character is never `0xFF`. -/
theorem head_utf8EncodeChar (c : Char) : ∃ b rest, String.utf8EncodeChar c = b :: rest ∧ b < 0xFF := by
  have small : ∀ {n : Nat}, n < 255 → UInt8.ofNat n < 0xFF := by
    intro n lt
    rw [UInt8.lt_iff_toNat_lt, UInt8.toNat_ofNat']
    exact Nat.lt_of_le_of_lt (Nat.mod_le ..) lt
  unfold String.utf8EncodeChar
  dsimp only
  split
  · exact ⟨_, _, rfl, small (by omega)⟩
  · split
    · exact ⟨_, _, rfl, small (by omega)⟩
    · split
      · exact ⟨_, _, rfl, small (by omega)⟩
      · exact ⟨_, _, rfl, small (by omega)⟩

/-- A clear removes every row that has a name for its key. -/
theorem asBytes_lt_clearEnd (s : String) : asBytes s < clearEnd := by
  rw [asBytes_eq]
  cases s.toList with
  | nil => decide
  | cons c cs =>
    obtain ⟨b, rest, eq, lt⟩ := head_utf8EncodeChar c
    rw [List.flatMap_cons, eq]
    exact List.Lex.rel lt

/-! ## A role's row -/

/-- The lengths of a role's strings and of its permissions are `u64`s. -/
structure StoredRole.Fits (r : StoredRole) : Prop where
  name : (asBytes r.name).length < 256 ^ 8
  permissions : r.permissions.length < 256 ^ 8
  key : ∀ p ∈ r.permissions, p.key.length < 256 ^ 8
  rangeEnd : ∀ p ∈ r.permissions, p.rangeEnd.length < 256 ^ 8

theorem readPermission_encodePermission {p : StoredPermission} (key : p.key.length < 256 ^ 8)
    (rangeEnd : p.rangeEnd.length < 256 ^ 8) (rest : Bytes) :
    readPermission (encodePermission p ++ rest) = some (p, rest) := by
  have type : readPermType (leBytes 4 p.permType.tag ++ (encodeBytes p.key ++
      (encodeBytes p.rangeEnd ++ rest))) = some (p.permType, encodeBytes p.key ++
      (encodeBytes p.rangeEnd ++ rest)) := by
    unfold readPermType
    cases p.permType with
    | read | write | readWrite => rw [readNat_leBytes (by decide)]; rfl
  simp [readPermission, encodePermission, type, readBytes_encodeBytes key,
    readBytes_encodeBytes rangeEnd]

theorem readRole_encode {r : StoredRole} (fits : r.Fits) : readRole (encodeRole r) = some (r, []) := by
  have permissions := readList_encodeList fits.permissions fun p mem =>
    readPermission_encodePermission (fits.key p mem) (fits.rangeEnd p mem)
  have permissions := permissions []
  rw [List.append_nil] at permissions
  simp [readRole, encodeRole, readString_encodeString fits.name, permissions]

theorem roleFits_of_length {r : StoredRole} (short : (encodeRole r).length < 256 ^ 8) : r.Fits := by
  have longer : ∀ p : StoredPermission,
      p.key.length + p.rangeEnd.length < (encodePermission p).length := by
    intro p
    simp only [encodePermission, encodeBytes, List.length_append, length_leBytes]
    omega
  obtain ⟨count, each⟩ := le_length_flatMap longer r.permissions
  simp only [encodeRole, encodeString, encodeBytes, encodeList, List.length_append, length_leBytes]
    at short
  refine ⟨by omega, by omega, ?_, ?_⟩
  · intro p mem
    have le := each p mem
    omega
  · intro p mem
    have le := each p mem
    omega

/-! ## Tables that are intact -/

/-- Every row is the row of what it names, and every role a user has exists. -/
structure Intact (t : Tables) : Prop where
  users : ∀ {key bytes : Bytes}, (t.auth .users)[key]? = some bytes →
    ∃ u rest, readUser bytes = some (u, rest) ∧ key = asBytes u.name ∧
      ∀ role ∈ u.roles, asBytes role ∈ t.auth .roles
  roles : ∀ {key bytes : Bytes}, (t.auth .roles)[key]? = some bytes →
    ∃ r rest, readRole bytes = some (r, rest) ∧ key = asBytes r.name

/-- Whether auth is enabled is stored, and while it is there is a user `root`. -/
structure Integrity (t : Tables) (enabled : Bool) : Prop extends Intact t where
  flag : authEnabled t = enabled
  root : enabled = true → asBytes "root" ∈ t.auth .users

section Intact

variable {t t' : Tables}

theorem mem_of_getRole {name : String} {r : StoredRole} (found : getRole t name = .ok (some r)) :
    asBytes name ∈ t.auth .roles := by
  rw [getRole, getRow] at found
  split at found
  · cases found
  next bytes there => exact ExtTreeMap.mem_iff_isSome_getElem?.mpr (by simp [there])

/-- A user that is found has its own row, and the roles it has exist. -/
theorem Intact.getUser (intact : Intact t) {name : String} {u : StoredUser}
    (found : getUser t name = .ok (some u)) :
    u.name = name ∧ asBytes name ∈ t.auth .users ∧ ∀ role ∈ u.roles, asBytes role ∈ t.auth .roles := by
  rw [Mvcc.getUser, getRow] at found
  split at found
  · cases found
  next bytes there =>
    obtain ⟨u', rest, reads, keyed, roles⟩ := intact.users there
    rw [reads] at found
    cases found
    exact ⟨(asBytes_injective keyed).symm, ExtTreeMap.mem_iff_isSome_getElem?.mpr (by simp [there]), roles⟩

theorem Intact.congr (intact : Intact t) (users : t'.auth .users = t.auth .users)
    (roles : t'.auth .roles = t.auth .roles) : Intact t' := by
  constructor
  · intro key bytes found
    rw [users] at found
    rw [roles]
    exact intact.users found
  · intro key bytes found
    rw [roles] at found
    exact intact.roles found

/-- A user is written whose roles exist. -/
theorem Intact.putUser (intact : Intact t) {u : StoredUser} (fits : u.Fits)
    (exist : ∀ role ∈ u.roles, asBytes role ∈ t.auth .roles) : Intact (t.commit [putUser u]) := by
  constructor
  · intro key bytes found
    change ((t.auth .users).insert (asBytes u.name) (encodeUser u))[key]? = some bytes at found
    rw [ExtTreeMap.getElem?_insert] at found
    split at found
    next same =>
      cases found
      exact ⟨u, [], readUser_encode fits, (LawfulEqOrd.eq_of_compare same).symm, exist⟩
    · exact intact.users found
  · intro key bytes found
    exact intact.roles found

theorem Intact.deleteUser (intact : Intact t) (key : Bytes) :
    Intact (t.commit [.deleteAuth .users key]) := by
  constructor
  · intro key' bytes found
    change ((t.auth .users).erase key)[key']? = some bytes at found
    rw [ExtTreeMap.getElem?_erase] at found
    split at found
    · cases found
    · exact intact.users found
  · intro key' bytes found
    exact intact.roles found

theorem Intact.putRole (intact : Intact t) {r : StoredRole} (fits : r.Fits) :
    Intact (t.commit [putRole r]) := by
  have kept : ∀ key : Bytes, key ∈ t.auth .roles →
      key ∈ (t.auth .roles).insert (asBytes r.name) (encodeRole r) := by
    intro key mem
    exact ExtTreeMap.mem_insert.mpr (.inr mem)
  constructor
  · intro key bytes found
    obtain ⟨u, rest, reads, keyed, roles⟩ := intact.users found
    exact ⟨u, rest, reads, keyed, fun role mem => kept _ (roles role mem)⟩
  · intro key bytes found
    change ((t.auth .roles).insert (asBytes r.name) (encodeRole r))[key]? = some bytes at found
    rw [ExtTreeMap.getElem?_insert] at found
    split at found
    next same =>
      cases found
      exact ⟨r, [], readRole_encode fits, (LawfulEqOrd.eq_of_compare same).symm⟩
    · exact intact.roles found

theorem other_putUsers (t : Tables) (us : List StoredUser) {table : AuthTable}
    (other : table ≠ .users) : (t.commit (us.map Mvcc.putUser)).auth table = t.auth table := by
  induction us generalizing t with
  | nil => rfl
  | cons u us ih =>
    rw [List.map_cons, Tables.commit_cons, ih]
    exact Function.update_of_ne other ..

/-- A row after users were written is one of theirs, or an old row of another user. -/
theorem getElem?_putUsers {us : List StoredUser} :
    ∀ {users : Table Bytes Bytes} {key bytes : Bytes},
      (us.foldl (fun users u => users.insert (asBytes u.name) (encodeUser u)) users)[key]? =
        some bytes →
      (∃ u ∈ us, key = asBytes u.name ∧ bytes = encodeUser u) ∨
        (users[key]? = some bytes ∧ ∀ u ∈ us, asBytes u.name ≠ key) := by
  induction us with
  | nil =>
    intro users key bytes found
    exact .inr ⟨found, nofun⟩
  | cons u us ih =>
    intro users key bytes found
    obtain ⟨v, mem, row⟩ | ⟨old, others⟩ := ih found
    · exact .inl ⟨v, List.mem_cons_of_mem _ mem, row⟩
    · rw [ExtTreeMap.getElem?_insert] at old
      split at old
      next same =>
        cases old
        exact .inl ⟨u, List.mem_cons_self, (LawfulEqOrd.eq_of_compare same).symm, rfl⟩
      next other =>
        refine .inr ⟨old, ?_⟩
        intro v mem
        obtain rfl | mem := List.mem_cons.mp mem
        · rintro rfl
          exact other ReflCmp.compare_self
        · exact others v mem

/-- A role is deleted, and taken from whoever has it. -/
theorem Intact.deleteRole (intact : Intact t) {name : String}
    (fits : ∀ u : StoredUser, Mvcc.putUser u ∈ dropRole t name → u.Fits) :
    Intact (t.commit (.deleteAuth .roles (asBytes name) :: dropRole t name)) := by
  obtain ⟨us, dropped, mem_us⟩ := dropRole_spec t name
  rw [dropped] at fits ⊢
  have roles_eq : (t.commit (.deleteAuth .roles (asBytes name) :: us.map Mvcc.putUser)).auth .roles =
      (t.auth .roles).erase (asBytes name) := by
    rw [Tables.commit_cons, other_putUsers _ us (by decide)]
    rfl
  have users_eq : (t.commit (.deleteAuth .roles (asBytes name) :: us.map Mvcc.putUser)).auth .users =
      us.foldl (fun users u => users.insert (asBytes u.name) (encodeUser u)) (t.auth .users) := by
    rw [Tables.commit_cons, users_putUsers]
    rfl
  -- a role other than the deleted one stays
  have stays : ∀ role, role ≠ name → asBytes role ∈ t.auth .roles →
      asBytes role ∈ (t.auth .roles).erase (asBytes name) := by
    intro role other mem
    refine ExtTreeMap.mem_erase.mpr ⟨?_, mem⟩
    intro same
    exact other (asBytes_injective (LawfulEqOrd.eq_of_compare same)).symm
  constructor
  · intro key bytes found
    rw [users_eq] at found
    rw [roles_eq]
    obtain ⟨v, mem, rfl, rfl⟩ | ⟨old, others⟩ := getElem?_putUsers found
    · obtain ⟨key, bytes, u, rest, there, reads, -, rfl⟩ := (mem_us v).mp mem
      obtain ⟨u', rest', reads', -, roles⟩ := intact.users there
      rw [reads] at reads'
      cases reads'
      refine ⟨_, [], readUser_encode (fits _ (List.mem_map_of_mem mem)), rfl, ?_⟩
      intro role kept
      obtain ⟨mem, other⟩ := List.mem_filter.mp kept
      exact stays role (by simpa using other) (roles role mem)
    · obtain ⟨u, rest, reads, keyed, roles⟩ := intact.users old
      refine ⟨u, rest, reads, keyed, ?_⟩
      intro role mem
      refine stays role ?_ (roles role mem)
      rintro rfl
      exact others _ ((mem_us _).mpr ⟨key, bytes, u, rest, old, reads, mem, rfl⟩) keyed.symm
  · intro key bytes found
    rw [roles_eq, ExtTreeMap.getElem?_erase] at found
    split at found
    · cases found
    · exact intact.roles found

end Intact

/-! ## Changes -/

section Changes

variable {t : Tables} {op : AuthOp} {fx : AuthEffects} {batch : WriteBatch} {enabled : Bool}

/-- What is adopted is the contents of tables that are intact. -/
def Adoptable : AuthOp → Prop
  | .adopt tables => ∃ src enabled, tables = AuthTables.read src ∧ Integrity src enabled
  | _ => True

/-- A row's length is a `u64`. -/
def BatchOp.isShort : BatchOp → Bool
  | .putAuth _ _ value => decide (value.length < 256 ^ 8)
  | _ => true

def Storable (batch : WriteBatch) : Prop := batch.all BatchOp.isShort = true

theorem Storable.user {u : StoredUser} (storable : Storable batch) (mem : putUser u ∈ batch) :
    u.Fits := by
  apply fits_of_length
  exact of_decide_eq_true (List.all_eq_true.mp storable _ mem)

theorem Storable.role {r : StoredRole} (storable : Storable batch) (mem : putRole r ∈ batch) :
    r.Fits := by
  apply roleFits_of_length
  exact of_decide_eq_true (List.all_eq_true.mp storable _ mem)

theorem enabled_read (src : Tables) : (AuthTables.read src).enabled = authEnabled src := by
  rw [AuthTables.enabled, AuthTables.read, authEnabled, Bool.eq_iff_iff, List.any_eq_true]
  constructor
  · rintro ⟨⟨key, value⟩, mem, on⟩
    obtain ⟨keyed, on⟩ := Bool.and_eq_true_iff.mp on
    have there := ExtTreeMap.mem_toList_iff_getElem?_eq_some.mp mem
    obtain rfl : key = metaAuthEnabled := eq_of_beq keyed
    rw [there]
    exact on
  · intro on
    cases there : (src.auth .state)[metaAuthEnabled]? with
    | none =>
      rw [there] at on
      cases on
    | some value =>
      rw [there] at on
      refine ⟨(metaAuthEnabled, value), ExtTreeMap.mem_toList_iff_getElem?_eq_some.mpr there, ?_⟩
      exact Bool.and_eq_true_iff.mpr ⟨beq_self_eq_true _, on⟩

/-- Adopted tables take the place of all rows there were. -/
theorem Intact.adopted (intact : Intact t) (src : Tables) :
    (t.commit (AuthTables.read src).replaceInto).auth .users = src.auth .users ∧
      (t.commit (AuthTables.read src).replaceInto).auth .roles = src.auth .roles ∧
      authEnabled (t.commit (AuthTables.read src).replaceInto) = authEnabled src := by
  rw [commit_replaceAuth]
  refine ⟨uncleared_overwrite_eq_iff.mpr ?_, uncleared_overwrite_eq_iff.mpr ?_, ?_⟩
  · intro key mem above
    obtain ⟨bytes, there⟩ := Option.isSome_iff_exists.mp (ExtTreeMap.mem_iff_isSome_getElem?.mp mem)
    obtain ⟨u, -, -, rfl, -⟩ := intact.users there
    exact absurd (asBytes_lt_clearEnd u.name) (List.not_lt.mpr above)
  · intro key mem above
    obtain ⟨bytes, there⟩ := Option.isSome_iff_exists.mp (ExtTreeMap.mem_iff_isSome_getElem?.mp mem)
    obtain ⟨r, -, -, rfl⟩ := intact.roles there
    exact absurd (asBytes_lt_clearEnd r.name) (List.not_lt.mpr above)
  · have cleared : (uncleared (t.auth .state))[metaAuthEnabled]? = none := by
      rw [uncleared, Table.getElem?_filter_key _ fun k => !inDeleteRange [] clearEnd k, if_neg]
      decide
    simp [authEnabled, cleared]

theorem Intact.stages (intact : Intact t) (stages : Stages t op fx batch)
    (storable : Storable batch) (adoptable : Adoptable op) : Intact (t.commit batch) := by
  cases stages with
  | enable | disable => exact intact.congr rfl rfl
  | authenticate => exact intact
  | userAdd => exact intact.putUser (storable.user List.mem_cons_self) nofun
  | userDelete => exact intact.deleteUser _
  | userChangePassword found =>
    exact intact.putUser (storable.user List.mem_cons_self) (intact.getUser found).2.2
  | userGrantRole found there =>
    refine intact.putUser (storable.user List.mem_cons_self) ?_
    intro name mem
    dsimp only at mem
    split at mem
    · exact (intact.getUser found).2.2 name mem
    · obtain old | new := List.mem_append.mp mem
      · exact (intact.getUser found).2.2 name old
      · rw [List.mem_singleton.mp new]
        exact mem_of_getRole there
  | userRevokeRole found =>
    refine intact.putUser (storable.user List.mem_cons_self) ?_
    intro name mem
    exact (intact.getUser found).2.2 name (List.mem_filter.mp mem).1
  | roleAdd | roleGrantPermission | roleRevokePermission =>
    exact intact.putRole (storable.role List.mem_cons_self)
  | roleDelete => exact intact.deleteRole fun u mem => storable.user (List.mem_cons_of_mem _ mem)
  | adopt tables =>
    obtain ⟨src, _, rfl, integrity⟩ := adoptable
    obtain ⟨users, roles, -⟩ := intact.adopted src
    exact integrity.toIntact.congr users roles

/-- The stored flag after a change is the one it sets in memory. -/
theorem Intact.flag (intact : Intact t) (stages : Stages t op fx batch) (adoptable : Adoptable op) :
    authEnabled (t.commit batch) = fx.setEnabled.getD (authEnabled t) := by
  have stored : ∀ value, authEnabled (t.commit [.putAuth .state metaAuthEnabled value]) = isOn value := by
    intro value
    have row : ((t.auth .state).insert metaAuthEnabled value)[metaAuthEnabled]? = some value :=
      ExtTreeMap.getElem?_insert_self
    exact congrArg (fun row => (row.map isOn).getD false) row
  cases stages with
  | enable | disable => exact stored _
  | roleDelete =>
    obtain ⟨us, dropped, -⟩ := dropRole_spec t _
    rw [dropped, Tables.commit_cons, authEnabled, other_putUsers _ us (by decide)]
    rfl
  | adopt tables =>
    obtain ⟨src, _, rfl, integrity⟩ := adoptable
    rw [(intact.adopted src).2.2, enabled_read]
    rfl
  | _ => rfl

/-- A user stays unless the change deletes it or replaces the tables. -/
theorem Stages.mem_users (stages : Stages t op fx batch) {name : String}
    (deletes : op ≠ .userDelete name) (adopts : ∀ tables, op ≠ .adopt tables)
    (mem : asBytes name ∈ t.auth .users) : asBytes name ∈ (t.commit batch).auth .users := by
  have kept : ∀ (us : List StoredUser) {users : Table Bytes Bytes}, asBytes name ∈ users →
      asBytes name ∈ us.foldl (fun users u => users.insert (asBytes u.name) (encodeUser u)) users := by
    intro us
    induction us with
    | nil => exact fun mem => mem
    | cons u us ih => exact fun mem => ih (ExtTreeMap.mem_insert.mpr (.inr mem))
  cases stages with
  | userAdd | userChangePassword | userGrantRole | userRevokeRole => exact kept [_] mem
  | userDelete =>
    refine ExtTreeMap.mem_erase.mpr ⟨?_, mem⟩
    intro same
    exact deletes (congrArg _ (asBytes_injective (LawfulEqOrd.eq_of_compare same)))
  | roleDelete =>
    obtain ⟨us, dropped, -⟩ := dropRole_spec t _
    rw [dropped, Tables.commit_cons, users_putUsers]
    exact kept us mem
  | adopt tables => exact absurd rfl (adopts tables)
  | _ => exact mem

/-- A change keeps the integrity of the tables, unless it deletes `root` while auth is enabled. -/
theorem Integrity.stages (integrity : Integrity t enabled) (stages : Stages t op fx batch)
    (storable : Storable batch) (adoptable : Adoptable op)
    (keeps : op = .userDelete "root" → enabled = false) :
    Integrity (t.commit batch) (fx.setEnabled.getD enabled) := by
  have intact := integrity.toIntact
  have flag := intact.flag stages adoptable
  rw [integrity.flag] at flag
  refine ⟨intact.stages stages storable adoptable, flag, ?_⟩
  intro on
  have old : enabled = true → (∀ tables, op ≠ .adopt tables) →
      asBytes "root" ∈ (t.commit batch).auth .users := by
    intro on adopts
    refine stages.mem_users ?_ adopts (integrity.root on)
    intro deletes
    rw [keeps deletes] at on
    cases on
  cases stages with
  | enable root => exact (intact.getUser root).2.1
  | disable => cases on
  | adopt tables =>
    obtain ⟨src, stored, rfl, adopted⟩ := adoptable
    rw [(intact.adopted src).1]
    refine adopted.root ?_
    rw [← adopted.flag, ← enabled_read]
    exact on
  | _ => exact old on nofun

end Changes

/-! ## Runs -/

/-- Auth changes one after the other, each with whether its engine commit succeeds. -/
def Store.applyAuths (s : Store) (ops : List (AuthOp × Bool)) : Store :=
  ops.foldl (fun s op => (s.applyAuth op.1 op.2).2) s

/-- What the changes of a run have to observe, each in the store it is applied to. -/
def Store.Observes (observed : Store → AuthOp → Prop) : Store → List (AuthOp × Bool) → Prop
  | _, [] => True
  | s, op :: ops => observed s op.1 ∧ Observes observed (s.applyAuth op.1 op.2).2 ops

/-- Rows have lengths that are `u64`s, and adopted tables are intact themselves. -/
def Store.Ordinary (s : Store) (op : AuthOp) : Prop :=
  (match plan s.engine op with
    | .ok (.ok (_, batch)) => Storable batch
    | _ => True) ∧ Adoptable op

/-- `root` is not deleted while auth is enabled. -/
def Store.KeepsRoot (s : Store) (op : AuthOp) : Prop :=
  op = .userDelete "root" → s.auth.enabled = false

theorem enabled_apply (fx : AuthEffects) (mem : AuthMemory) :
    (fx.apply mem).enabled = fx.setEnabled.getD mem.enabled := by
  obtain ⟨set, add, revoke, keep, adopted⟩ := fx
  cases set <;> cases revoke <;> cases keep <;> cases add <;> cases adopted <;> rfl

theorem Integrity.congr {t t' : Tables} {enabled : Bool} (integrity : Integrity t enabled)
    (auth : t'.auth = t.auth) : Integrity t' enabled := by
  refine ⟨integrity.toIntact.congr (congrFun auth _) (congrFun auth _), ?_, ?_⟩
  · rw [authEnabled, auth]
    exact integrity.flag
  · rw [auth]
    exact integrity.root

/-- The staged raft rows are no auth rows. -/
theorem auth_folded (s : Store) (batch : WriteBatch) :
    (s.engine.commit (s.folded batch)).auth = (s.engine.commit batch).auth := by
  rw [Store.folded, Tables.commit_append, commit_raftRows]

theorem Integrity.applyAuth {s : Store} {op : AuthOp} (integrity : Integrity s.engine s.auth.enabled)
    (ordinary : s.Ordinary op) (keeps : s.KeepsRoot op) (engineOk : Bool) :
    Integrity (s.applyAuth op engineOk).2.engine (s.applyAuth op engineOk).2.auth.enabled := by
  rw [applyAuth_eq]
  cases planned : plan s.engine op with
  | error e => exact integrity
  | ok answer =>
    cases answer with
    | error refused => exact integrity
    | ok staged =>
      obtain ⟨fx, batch⟩ := staged
      have storable := ordinary.1
      rw [planned] at storable
      have changed := integrity.stages (stages_of_plan planned) storable ordinary.2 keeps
      rw [← enabled_apply fx s.auth] at changed
      dsimp only
      split
      next nothing =>
        -- nothing is staged, so the tables stay as they are
        have empty : batch = [] := by
          rw [List.isEmpty_iff, Store.folded, List.append_eq_nil_iff] at nothing
          exact nothing.1
        subst empty
        exact changed
      · cases engineOk with
        | false => exact integrity
        | true => exact changed.congr (auth_folded s batch)

/-- After every sequence of auth changes from empty tables, every row is the row of what it names,
every role a user has exists, and while auth is enabled there is a user `root`, if `root` is not
deleted while it is. -/
theorem auth_tables_intact (s : Store) (empty : ∀ table, s.engine.auth table = ∅)
    (off : s.auth.enabled = false) (ops : List (AuthOp × Bool))
    (ordinary : Store.Observes Store.Ordinary s ops) (keeps : Store.Observes Store.KeepsRoot s ops) :
    Integrity (s.applyAuths ops).engine (s.applyAuths ops).auth.enabled := by
  have start : Integrity s.engine s.auth.enabled := by
    rw [off]
    refine ⟨⟨?_, ?_⟩, ?_, nofun⟩
    · intro key bytes found
      simp [empty] at found
    · intro key bytes found
      simp [empty] at found
    · simp [authEnabled, empty]
  clear empty off
  induction ops generalizing s with
  | nil => exact start
  | cons op ops ih =>
    exact ih _ ordinary.2 keeps.2 (start.applyAuth ordinary.1 keeps.1 op.2)

/-- Auth is enabled with a user `root`, and a role is granted and deleted. -/
def rootEnables : List (AuthOp × Bool) :=
  [(.roleAdd "r", true), (.userAdd "root" "h" false, true), (.userGrantRole "root" "r", true),
    (.enable, true), (.roleDelete "r", true)]

theorem auth_tables_intact_enabled :
    ((Store.open Tables.empty).applyAuths rootEnables).auth.enabled = true ∧
      Integrity ((Store.open Tables.empty).applyAuths rootEnables).engine
        ((Store.open Tables.empty).applyAuths rootEnables).auth.enabled := by
  have short : ∀ {s : Store} {op : AuthOp}, (match plan s.engine op with
      | .ok (.ok (_, batch)) => batch.all BatchOp.isShort
      | _ => true) = true → (∀ tables, op ≠ .adopt tables) → s.Ordinary op := by
    intro s op all other
    refine ⟨?_, ?_⟩
    · split
      next planned =>
        rw [planned] at all
        exact all
      · trivial
    · cases op with
      | adopt tables => exact absurd rfl (other tables)
      | _ => trivial
  refine ⟨by decide +kernel, auth_tables_intact _ (fun _ => rfl) rfl _ ?_ ?_⟩
  · exact .intro (short (by decide +kernel) nofun) (.intro (short (by decide +kernel) nofun)
      (.intro (short (by decide +kernel) nofun) (.intro (short (by decide +kernel) nofun)
        (.intro (short (by decide +kernel) nofun) trivial))))
  · exact .intro nofun (.intro nofun (.intro nofun (.intro nofun (.intro nofun trivial))))

/-- `root` enables auth and is deleted: auth is enabled, and nobody is there to disable it. -/
theorem root_deleted_while_enabled :
    let s := (Store.open Tables.empty).applyAuths
      [(.userAdd "root" "h" false, true), (.enable, true), (.userDelete "root", true)]
    s.auth.enabled = true ∧ authEnabled s.engine = true ∧ s.engine.auth .users = ∅ ∧
      ¬ Integrity s.engine s.auth.enabled := by
  have on : ((Store.open Tables.empty).applyAuths [(.userAdd "root" "h" false, true), (.enable, true),
      (.userDelete "root", true)]).auth.enabled = true := by decide +kernel
  have gone : asBytes "root" ∉ ((Store.open Tables.empty).applyAuths [(.userAdd "root" "h" false, true),
      (.enable, true), (.userDelete "root", true)]).engine.auth .users := by decide +kernel
  refine ⟨on, by decide +kernel, by decide +kernel, ?_⟩
  intro integrity
  exact gone (integrity.root on)

end Fastetcd.Mvcc
