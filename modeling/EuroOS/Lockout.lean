import EuroOS.UserPersist
import EuroOS.IdentityAudit
import EuroOS.CallMachine

/-!
# Login and the lockout after failed logins

An account is found by its name and counted and locked by its uid.  Among
accounts with different uids, five wrong passwords lock the account they were
tried on and no other one.  Two accounts may have one uid, and then the failures
of the second are counted on the first.
-/

namespace EuroOS.Euroid

open Function List

inductive AuthError
  | invalidCredentials
  | accountLocked
  | accountExpired
  | mustChangePassword
  deriving DecidableEq

structure Session where
  id : Digest
  uid : UserId
  username : Str
  caps : Caps
  startedAt : Timestamp
  lastActive : Timestamp
  tty : Str
  deriving DecidableEq

structure AuthResult where
  outcome : Except AuthError Session
  events : List AuditEvent

structure Login where
  username : Str
  password : Str
  now : Timestamp
  sessionId : Digest
  europolAllowed : Caps
  tty : Str

def maxFailed : UInt32 := 5

/-- The login sequence.  The checks against the dummy hash only take time and are left out. -/
def authenticate (argon2id : Argon2id) (db : UserDb) (groups : GroupDb) (login : Login) :
    UserDb × AuthResult :=
  let denied (error : AuthError) (reason : DenyReason) : UserDb × AuthResult :=
    (db, ⟨.error error, [.loginDenied login.username reason]⟩)
  match db.getByName login.username with
  | none => denied .invalidCredentials .unknownUser
  | some user =>
    match user.state with
    | .locked reason _ _ => denied .accountLocked (.accountLocked reason)
    | .expired _ => denied .accountExpired .accountExpired
    | .deleted _ _ => denied .invalidCredentials .accountDeleted
    | .active =>
      if !user.password.verify argon2id login.password.bytes then
        let (db, attempts) := db.recordFailedLogin user.uid
        let failed := AuditEvent.loginFailed user.uid login.username attempts
        if attempts ≥ maxFailed then
          let locked := AuditEvent.userLocked user.uid login.username .failedLoginThreshold system
          match db.lock user.uid .failedLoginThreshold system login.now with
          | .ok db => (db, ⟨.error .invalidCredentials, [failed, locked]⟩)
          | .error _ => (db, ⟨.error .invalidCredentials, [failed, locked]⟩)
        else (db, ⟨.error .invalidCredentials, [failed]⟩)
      else
        let db := db.resetFailedLogins user.uid
        -- there is an account with the uid, namely the one found by name
        let found := (db.get user.uid).getD user
        if found.password.mustChange then (db, ⟨.error .mustChangePassword, []⟩)
        else
          let caps := effectiveCaps found groups login.europolAllowed
          (db, ⟨.ok ⟨login.sessionId, user.uid, found.username, caps, login.now, login.now,
              login.tty⟩,
            [.loginSuccess user.uid found.username (hex login.sessionId.toList) caps
              login.tty]⟩)

/-! ## Updates by uid -/

structure KeepsIds (f : User → User) : Prop where
  username : ∀ u, (f u).username = u.username
  uid : ∀ u, (f u).uid = u.uid

theorem updateFirst_eq_map (h : (users.map User.uid).Nodup) :
    updateFirst (·.uid == uid) f users = users.map fun u => if u.uid = uid then f u else u := by
  induction users with
  | nil => rfl
  | cons u users ih =>
    rw [map_cons, nodup_cons] at h
    by_cases hu : u.uid = uid
    · have hrest : users.map (fun u => if u.uid = uid then f u else u) = users := by
        conv_rhs => rw [← map_id users]
        refine map_congr_left fun v hv => if_neg fun hvuid => h.1 ?_
        exact mem_map.mpr ⟨v, hv, hvuid.trans hu.symm⟩
      simp [updateFirst, hu, hrest]
    · simp [updateFirst, hu, ih h.2]

namespace UserDb

def DistinctUids (db : UserDb) : Prop := (db.users.map User.uid).Nodup

variable {db : UserDb}

theorem mem_of_getByName (h : db.getByName name = some u) : u ∈ db.users ∧ u.username = name :=
  ⟨mem_of_find?_eq_some h, by simpa using find?_some h⟩

variable (h : db.DistinctUids)
include h

theorem DistinctUids.eq_of_uid (hu : u ∈ db.users) (hv : v ∈ db.users) (huid : u.uid = v.uid) :
    u = v :=
  inj_on_of_nodup_map h hu hv huid

theorem DistinctUids.get_eq (hu : u ∈ db.users) : db.get u.uid = some u := by
  cases hget : db.get u.uid with
  | none =>
    have := find?_eq_none.mp hget u hu
    simp at this
  | some v =>
    have huid : v.uid = u.uid := by simpa using find?_some hget
    rw [h.eq_of_uid (mem_of_find?_eq_some hget) hu huid]

theorem users_getMut (hf : KeepsIds f) :
    (db.getMut uid f hf.username).users = db.users.map fun u => if u.uid = uid then f u else u :=
  updateFirst_eq_map h

theorem DistinctUids.getMut (hf : KeepsIds f) : (db.getMut uid f hf.username).DistinctUids := by
  have huid (u : User) : (if u.uid = uid then f u else u).uid = u.uid := by
    split_ifs
    · exact hf.uid u
    · rfl
  rw [DistinctUids, users_getMut h hf, map_map]
  simp only [comp_def, huid]
  exact h

theorem getByName_getMut (hf : KeepsIds f) (name : Str) :
    (db.getMut uid f hf.username).getByName name =
      (db.getByName name).map fun u => if u.uid = uid then f u else u := by
  have hname (u : User) : (if u.uid = uid then f u else u).username = u.username := by
    split_ifs
    · exact hf.username u
    · rfl
  rw [getByName, users_getMut h hf, find?_map]
  simp [getByName, hname]

theorem getByName_getMut_of_mem (hf : KeepsIds f) (hu : u ∈ db.users) (name : Str) :
    (db.getMut u.uid f hf.username).getByName name =
      if name = u.username then some (f u) else db.getByName name := by
  rw [getByName_getMut h hf]
  cases hget : db.getByName name with
  | none =>
    have hne : name ≠ u.username := by
      rintro rfl
      simpa using find?_eq_none.mp hget u hu
    simp [hne]
  | some v =>
    obtain ⟨hv, rfl⟩ := mem_of_getByName hget
    by_cases hname : v.username = u.username
    · have : v = u := inj_on_of_nodup_map db.distinct hv hu hname
      simp [this]
    · have huid : v.uid ≠ u.uid := fun huid => hname (by rw [h.eq_of_uid hv hu huid])
      simp [hname, huid]

/-- The store in which one account was changed by `f` and the others stayed as they were. -/
structure Updated (db : UserDb) (u : User) (f : User → User) (db' : UserDb) : Prop where
  distinct : db'.DistinctUids
  named : ∀ name, db'.getByName name = if name = u.username then some (f u) else db.getByName name
  texts : ∀ v ∈ db'.users, ∃ w ∈ db.users, v.texts = w.texts

theorem updated_getMut (hf : KeepsIds f) (htexts : ∀ u, (f u).texts = u.texts) (hu : u ∈ db.users) :
    Updated db u f (db.getMut u.uid f hf.username) where
  distinct := h.getMut hf
  named := getByName_getMut_of_mem h hf hu
  texts v hv := by
    rw [users_getMut h hf, mem_map] at hv
    obtain ⟨w, hw, rfl⟩ := hv
    refine ⟨w, hw, ?_⟩
    split_ifs
    · exact htexts w
    · rfl

omit h

variable {u : User}

theorem Updated.mem (h : Updated db u f db') : f u ∈ db'.users :=
  (mem_of_getByName (by rw [h.named, if_pos rfl])).1

theorem Updated.trans (h : Updated db u f db') (hf : KeepsIds f) (h' : Updated db' (f u) g db'') :
    Updated db u (fun u => g (f u)) db'' where
  distinct := h'.distinct
  named name := by
    rw [h'.named, h.named, hf.username]
    split_ifs <;> rfl
  texts v hv := by
    obtain ⟨w, hw, hvw⟩ := h'.texts v hv
    obtain ⟨x, hx, hwx⟩ := h.texts w hw
    exact ⟨x, hx, hvw.trans hwx⟩

end UserDb

/-! ## One login -/

def countFailure (u : User) : User := { u with failedLogins := u.failedLogins + 1 }

def setLocked (reason : LockReason) (lockedBy : UserId) (now : Timestamp) (u : User) : User :=
  { u with state := .locked reason now lockedBy }

def resetFailures (u : User) : User := { u with failedLogins := 0 }

def failOnce (now : Timestamp) (u : User) : User :=
  if u.failedLogins + 1 ≥ maxFailed then setLocked .failedLoginThreshold system now (countFailure u)
  else countFailure u

section Login

variable {db : UserDb} {u : User}

theorem keepsIds_countFailure : KeepsIds countFailure := ⟨fun _ => rfl, fun _ => rfl⟩

theorem keepsIds_setLocked (reason : LockReason) (lockedBy : UserId) (now : Timestamp) :
    KeepsIds (setLocked reason lockedBy now) := ⟨fun _ => rfl, fun _ => rfl⟩

theorem keepsIds_resetFailures : KeepsIds resetFailures := ⟨fun _ => rfl, fun _ => rfl⟩

theorem updated_recordFailedLogin (h : db.DistinctUids) (hu : u ∈ db.users) :
    UserDb.Updated db u countFailure (db.recordFailedLogin u.uid).1 ∧
      (db.recordFailedLogin u.uid).2 = u.failedLogins + 1 := by
  rw [UserDb.recordFailedLogin, h.get_eq hu]
  exact ⟨UserDb.updated_getMut h keepsIds_countFailure (fun _ => rfl) hu, rfl⟩

theorem updated_lock (h : db.DistinctUids) (hu : u ∈ db.users) (reason : LockReason)
    (lockedBy : UserId) (now : Timestamp) :
    ∃ db', db.lock u.uid reason lockedBy now = .ok db' ∧
      UserDb.Updated db u (setLocked reason lockedBy now) db' := by
  rw [UserDb.lock, h.get_eq hu]
  exact ⟨_, rfl, UserDb.updated_getMut h (keepsIds_setLocked ..) (fun _ => rfl) hu⟩

theorem updated_resetFailedLogins (h : db.DistinctUids) (hu : u ∈ db.users) :
    UserDb.Updated db u resetFailures (db.resetFailedLogins u.uid) :=
  UserDb.updated_getMut h keepsIds_resetFailures (fun _ => rfl) hu

theorem authenticate_of_not_active
    (h : ∀ u, db.getByName login.username = some u → u.state ≠ .active) :
    (authenticate argon2id db groups login).1 = db ∧
      ∃ error reason, (authenticate argon2id db groups login).2 =
        ⟨.error error, [.loginDenied login.username reason]⟩ := by
  unfold authenticate
  cases hget : db.getByName login.username with
  | none => exact ⟨rfl, _, _, rfl⟩
  | some u =>
    dsimp only
    cases hstate : u.state with
    | active => exact absurd hstate (h u hget)
    | locked reason lockedAt lockedBy => exact ⟨rfl, _, _, rfl⟩
    | expired expiredAt => exact ⟨rfl, _, _, rfl⟩
    | deleted deletedAt deletedBy => exact ⟨rfl, _, _, rfl⟩

theorem authenticate_of_wrong (h : db.DistinctUids) (hget : db.getByName login.username = some u)
    (hactive : u.state = .active) (hwrong : u.password.verify argon2id login.password.bytes = false) :
    UserDb.Updated db u (failOnce login.now) (authenticate argon2id db groups login).1 ∧
      (authenticate argon2id db groups login).2.outcome = .error .invalidCredentials := by
  have hu := (UserDb.mem_of_getByName hget).1
  obtain ⟨hcount, hattempts⟩ := updated_recordFailedLogin h hu
  obtain ⟨db', hlock, hlocked⟩ :=
    updated_lock hcount.distinct hcount.mem .failedLoginThreshold system login.now
  have huid : (countFailure u).uid = u.uid := rfl
  rw [huid] at hlock
  simp only [authenticate, hget, hactive, hwrong, Bool.not_false, if_true, hattempts, hlock]
  by_cases hmax : u.failedLogins + 1 ≥ maxFailed
  · rw [if_pos hmax]
    refine ⟨?_, rfl⟩
    have hboth := hcount.trans keepsIds_countFailure hlocked
    refine ⟨hboth.distinct, fun name => ?_, hboth.texts⟩
    rw [hboth.named, failOnce, if_pos hmax]
  · rw [if_neg hmax]
    refine ⟨⟨hcount.distinct, fun name => ?_, hcount.texts⟩, rfl⟩
    rw [hcount.named, failOnce, if_neg hmax]

theorem authenticate_of_right (h : db.DistinctUids) (hget : db.getByName login.username = some u)
    (hactive : u.state = .active) (hright : u.password.verify argon2id login.password.bytes = true)
    (hchange : u.password.mustChange = false) :
    UserDb.Updated db u resetFailures (authenticate argon2id db groups login).1 ∧
      ∃ session, (authenticate argon2id db groups login).2.outcome = .ok session := by
  have hu := (UserDb.mem_of_getByName hget).1
  have hreset := updated_resetFailedLogins h hu
  have hfound : (db.resetFailedLogins u.uid).get u.uid = some (resetFailures u) :=
    hreset.distinct.get_eq hreset.mem
  have hchange' : (resetFailures u).password.mustChange = false := hchange
  simp only [authenticate, hget, hactive, hright, Bool.not_true, hfound, Option.getD_some, hchange',
    Bool.false_eq_true, if_false]
  exact ⟨hreset, _, rfl⟩

end Login

/-! ## Runs -/

inductive StoreCall
  | insert (user : User)
  | reload
  | authenticate (login : Login)

/-- The store, and for each name how many wrong passwords were tried on its account since the
account was created or last logged in. -/
structure World where
  db : UserDb
  wrong : Str → Nat

def World.new : World := ⟨.new, fun _ => 0⟩

def checked (db : UserDb) (login : Login) : Option User :=
  (db.getByName login.username).filter (·.state = .active)

def triesWrong (argon2id : Argon2id) (db : UserDb) (login : Login) : Bool :=
  match checked db login with
  | some u => !u.password.verify argon2id login.password.bytes
  | none => false

def countWrong (argon2id : Argon2id) (w : World) (login : Login) (result : AuthResult) :
    Str → Nat :=
  if triesWrong argon2id w.db login then
    update w.wrong login.username (w.wrong login.username + 1)
  else
    match result.outcome with
    | .ok _ => update w.wrong login.username 0
    | .error _ => w.wrong

def store (argon2id : Argon2id) (groups : GroupDb) : CallMachine World StoreCall (Option AuthResult) where
  step w
    | .insert user =>
      match w.db.insert user with
      | .ok db => ({ w with db }, none)
      | .error _ => (w, none)
    | .reload =>
      match deserializeDb (serializeDb w.db) with
      | .ok db => ({ w with db }, none)
      | .error _ => (w, none)
    | .authenticate login =>
      let r := authenticate argon2id w.db groups login
      (⟨r.1, countWrong argon2id w login r.2⟩, some r.2)

/-- A new account has a uid of its own, texts without tabs and line feeds and a counter that can
still count; no account that has to change its password is logged in to. -/
def Separate (argon2id : Argon2id) (w : World) : StoreCall → Prop
  | .insert user => w.db.exists user.username = false →
      user.uid ∉ w.db.users.map User.uid ∧ user.Plain ∧ user.failedLogins ≠ 0xFFFFFFFF
  | .reload => True
  | .authenticate login => ∀ u ∈ checked w.db login,
      u.password.verify argon2id login.password.bytes = true → u.password.mustChange = false

instance (u : User) : Decidable u.Plain :=
  inferInstanceAs (Decidable (∀ text ∈ u.texts, '\t' ∉ text ∧ '\n' ∉ text))

instance (argon2id : Argon2id) (w : World) (call : StoreCall) :
    Decidable (Separate argon2id w call) :=
  match call with
  | .insert user => inferInstanceAs (Decidable (w.db.exists user.username = false →
      user.uid ∉ w.db.users.map User.uid ∧ user.Plain ∧ user.failedLogins ≠ 0xFFFFFFFF))
  | .reload => isTrue trivial
  | .authenticate login => inferInstanceAs (Decidable (∀ u ∈ checked w.db login,
      u.password.verify argon2id login.password.bytes = true → u.password.mustChange = false))

structure Guarded (argon2id : Argon2id) (groups : GroupDb) (w : World) : Prop where
  bounded : ∀ name, w.wrong name ≤ 5
  refused : ∀ login, w.wrong login.username = 5 → checked w.db login = none ∧
    ∃ error reason, (authenticate argon2id w.db groups login).2 =
      ⟨.error error, [.loginDenied login.username reason]⟩
  isolated : ∀ login, triesWrong argon2id w.db login = true → ∀ name ≠ login.username,
    (authenticate argon2id w.db groups login).1.getByName name = w.db.getByName name

structure Counted (w : World) : Prop where
  uids : w.db.DistinctUids
  plain : ∀ u ∈ w.db.users, u.Plain
  unknown : ∀ name, w.db.getByName name = none → w.wrong name = 0
  active : ∀ name u, w.db.getByName name = some u → u.state = .active →
    w.wrong name ≤ u.failedLogins.toNat ∧ w.wrong name < 5 ∧ u.failedLogins ≠ 0xFFFFFFFF
  bounded : ∀ name, w.wrong name ≤ 5

theorem checked_eq_some :
    checked db login = some u ↔ db.getByName login.username = some u ∧ u.state = .active := by
  simp [checked, Option.filter_eq_some_iff]

theorem checked_eq_none :
    checked db login = none ↔ ∀ u, db.getByName login.username = some u → u.state ≠ .active := by
  simp [checked, Option.filter_eq_none_iff]

theorem Counted.guarded (h : Counted w) : Guarded argon2id groups w where
  bounded := h.bounded
  refused login hfive := by
    have hnone : checked w.db login = none := by
      refine checked_eq_none.mpr fun u hget hactive => ?_
      have := (h.active _ u hget hactive).2.1
      omega
    exact ⟨hnone, (authenticate_of_not_active (checked_eq_none.mp hnone)).2⟩
  isolated login hwrong name hname := by
    unfold triesWrong at hwrong
    split at hwrong
    · rename_i u hu
      obtain ⟨hget, hactive⟩ := checked_eq_some.mp hu
      have hupdated : UserDb.Updated w.db u (failOnce login.now)
          (authenticate argon2id w.db groups login).1 :=
        (authenticate_of_wrong h.uids hget hactive (by simpa using hwrong)).1
      rw [hupdated.named, if_neg (by rwa [(UserDb.mem_of_getByName hget).2])]
    · cases hwrong

theorem Counted.insert (h : Counted w) (hinsert : w.db.insert user = .ok db)
    (huid : user.uid ∉ w.db.users.map User.uid) (hplain : user.Plain)
    (hmax : user.failedLogins ≠ 0xFFFFFFFF) : Counted { w with db } := by
  have husers := (UserDb.insert_ok hinsert).2
  have hnamed (name : Str) : db.getByName name =
      (w.db.getByName name).or (if user.username = name then some user else none) := by
    rw [UserDb.getByName, husers, find?_append, UserDb.getByName]
    by_cases hname : user.username = name <;> simp [hname]
  refine ⟨?_, ?_, fun name hnone => ?_, fun name u hget hactive => ?_, h.bounded⟩
  · rw [UserDb.DistinctUids, husers, map_append, map_singleton, nodup_append_comm]
    exact nodup_cons.mpr ⟨huid, h.uids⟩
  · rw [husers, forall_mem_append]
    exact ⟨h.plain, by simpa using hplain⟩
  · rw [hnamed, Option.or_eq_none_iff] at hnone
    exact h.unknown name hnone.1
  · rw [hnamed, Option.or_eq_some_iff] at hget
    rcases hget with hold | ⟨hnone, hget⟩
    · exact h.active name u hold hactive
    split_ifs at hget with hname
    cases hget
    have hzero : w.wrong name = 0 := h.unknown name hnone
    exact ⟨by dsimp only; omega, by dsimp only; omega, hmax⟩

theorem Counted.updated (h : Counted w) (hdb : UserDb.Updated w.db u f db) (hfive : n ≤ 5)
    (hactive : (f u).state = .active → n ≤ (f u).failedLogins.toNat ∧ n < 5 ∧
      (f u).failedLogins ≠ 0xFFFFFFFF) :
    Counted ⟨db, update w.wrong u.username n⟩ where
  uids := hdb.distinct
  plain v hv := by
    obtain ⟨x, hx, htexts⟩ := hdb.texts v hv
    rw [User.Plain, htexts]
    exact h.plain x hx
  unknown name hnone := by
    rw [hdb.named] at hnone
    split_ifs at hnone with hname
    dsimp only
    rw [update_of_ne hname]
    exact h.unknown name hnone
  active name v hv hstate := by
    rw [hdb.named] at hv
    dsimp only
    split_ifs at hv with hname
    · cases hv
      rw [hname, update_self]
      exact hactive hstate
    · rw [update_of_ne hname]
      exact h.active name v hv hstate
  bounded name := by
    dsimp only
    by_cases hname : name = u.username
    · rwa [hname, update_self]
    · rw [update_of_ne hname]
      exact h.bounded name

theorem failOnce_active (h : (failOnce now u).state = .active)
    (hmax : u.failedLogins ≠ 0xFFFFFFFF) :
    (failOnce now u).failedLogins.toNat = u.failedLogins.toNat + 1 ∧
      u.failedLogins.toNat + 1 < 5 := by
  have hlt : u.failedLogins.toNat + 1 < 2 ^ 32 := by
    have := u.failedLogins.toNat_lt
    have : u.failedLogins.toNat ≠ 0xFFFFFFFF := fun heq => hmax (UInt32.toNat_inj.mp heq)
    omega
  have hnext : (u.failedLogins + 1).toNat = u.failedLogins.toNat + 1 := by
    rw [UInt32.toNat_add]
    exact Nat.mod_eq_of_lt hlt
  unfold failOnce at h ⊢
  split_ifs at h ⊢ with hfive
  · cases h
  refine ⟨hnext, ?_⟩
  rw [ge_iff_le, UInt32.le_iff_toNat_le, hnext] at hfive
  exact Nat.lt_of_not_le hfive

theorem Counted.login (h : Counted w) {login : Login}
    (hchange : Separate argon2id w (.authenticate login)) :
    Counted ((store argon2id groups).step w (.authenticate login)).1 := by
  change Counted ⟨_, countWrong argon2id w login _⟩
  cases hchecked : checked w.db login with
  | none =>
    obtain ⟨hdb, error, reason, hresult⟩ : (authenticate argon2id w.db groups login).1 = w.db ∧
        ∃ error reason, (authenticate argon2id w.db groups login).2 =
          ⟨.error error, [.loginDenied login.username reason]⟩ :=
      authenticate_of_not_active (checked_eq_none.mp hchecked)
    have hwrong : triesWrong argon2id w.db login = false := by simp [triesWrong, hchecked]
    rw [hdb, hresult, countWrong, hwrong]
    exact h
  | some u =>
    obtain ⟨hget, hactive⟩ := checked_eq_some.mp hchecked
    have hname := (UserDb.mem_of_getByName hget).2
    have hwrong : triesWrong argon2id w.db login =
        !u.password.verify argon2id login.password.bytes := by simp [triesWrong, hchecked]
    obtain ⟨hcount, hfive, hmax⟩ := h.active _ u hget hactive
    rw [← hname] at hget hcount hfive
    cases hverify : u.password.verify argon2id login.password.bytes with
    | false =>
      have hdb : UserDb.Updated w.db u (failOnce login.now)
          (authenticate argon2id w.db groups login).1 :=
        (authenticate_of_wrong h.uids (hname ▸ hget) hactive hverify).1
      rw [countWrong, hwrong, hverify, ← hname]
      refine h.updated hdb (by omega) fun hstate => ?_
      obtain ⟨hfailed, hlt⟩ := failOnce_active hstate hmax
      refine ⟨by omega, by omega, fun heq => ?_⟩
      rw [heq] at hfailed
      change 0xFFFFFFFF = _ at hfailed
      omega
    | true =>
      obtain ⟨hdb, session, hok⟩ : UserDb.Updated w.db u resetFailures
            (authenticate argon2id w.db groups login).1 ∧
          ∃ session, (authenticate argon2id w.db groups login).2.outcome = .ok session :=
        authenticate_of_right h.uids (hname ▸ hget) hactive hverify
          (hchange u hchecked hverify)
      rw [countWrong, hwrong, hverify, hok, ← hname]
      exact h.updated hdb (by omega) fun _ => ⟨by simp, by simp, by simp [resetFailures]⟩

theorem Counted.step (h : Counted w) (hcall : Separate argon2id w call) :
    Counted ((store argon2id groups).step w call).1 := by
  cases call with
  | insert user =>
    simp only [store]
    cases hinsert : w.db.insert user with
    | error error => exact h
    | ok db =>
      obtain ⟨huid, hplain, hmax⟩ := hcall (UserDb.insert_ok hinsert).1
      exact h.insert hinsert huid hplain hmax
  | reload =>
    simp only [store, deserializeDb_serializeDb h.plain]
    exact h
  | authenticate login => exact h.login hcall

theorem counted_new : Counted World.new where
  uids := nodup_nil
  plain := by simp [World.new, UserDb.new]
  unknown _ _ := rfl
  active := by simp [World.new, UserDb.new, UserDb.getByName]
  bounded _ := Nat.zero_le _

/-- In a run whose calls are all separate, every state keeps the promises of the lockout. -/
theorem guarded_of_separate {calls : List StoreCall}
    (h : (store argon2id groups).Allowed (Separate argon2id) World.new calls) :
    Guarded argon2id groups ((store argon2id groups).run World.new calls) :=
  (CallMachine.run_invariant Counted (fun _ _ hw hcall => hw.step hcall) counted_new h).guarded

def account (uid : UserId) (name : Str) : User :=
  buildUser plainSupply 0 uid name name groupUsers [] 0 "Correct-Horse-9!".toList root

def wrongLogin (name : Str) : Login where
  username := name
  password := "guess".toList
  now := 9
  sessionId := Vector.replicate 32 0
  europolAllowed := capAll
  tty := "/dev/tty1".toList

theorem guarded_of_separate_alice :
    Guarded plainSupply.argon2id .withBuiltins ((store plainSupply.argon2id .withBuiltins).run .new
      (.insert (account 1000 "alice".toList) :: .reload ::
        replicate 5 (.authenticate (wrongLogin "alice".toList)))) :=
  guarded_of_separate (by decide +kernel)

/-- After the last system uid, the next one is the first regular uid, which an account has. -/
theorem nextUid_collides :
    let inserts := [StoreCall.insert (account 999 "svc".toList),
      .insert (account 1000 "alice".toList), .insert (account 1000 "backup".toList)]
    let M := store plainSupply.argon2id .withBuiltins
    let w := M.run .new (inserts ++ replicate 6 (.authenticate (wrongLogin "backup".toList)))
    (M.run .new (inserts.take 2)).db.nextUid true = 1000 ∧ w.wrong "backup".toList = 6 ∧
      (w.db.getByName "backup".toList).map User.state = some .active ∧
      (w.db.getByName "alice".toList).map User.state =
        some (.locked .failedLoginThreshold 9 system) := by decide +kernel

end EuroOS.Euroid
