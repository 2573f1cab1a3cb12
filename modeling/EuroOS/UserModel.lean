import EuroOS.TextNumbers

/-!
# Users and the user store

Accounts, their states and password records, and the in-memory store.  A store
never has two accounts of one name: `insert` refuses the second one.  Nothing
keeps two accounts from having one uid.
-/

namespace EuroOS.Euroid

abbrev UserId := UInt32
abbrev GroupId := UInt32
abbrev Timestamp := UInt64
abbrev Caps := UInt64

def system : UserId := 0
def root : UserId := 0
def firstRegular : UInt32 := 1000
def firstSystem : UInt32 := 100

def groupWheel : GroupId := 0
def groupAudit : GroupId := 1
def groupNet : GroupId := 2
def groupVault : GroupId := 3
def groupAgent : GroupId := 4
def groupUsers : GroupId := 100

def capBit (i : UInt64) : Caps := 1 <<< i

def capLogin : Caps := capBit 0
def capFileRead : Caps := capBit 1
def capFileWrite : Caps := capBit 2
def capFile : Caps := capFileRead ||| capFileWrite
def capNet : Caps := capBit 3
def capDisplay : Caps := capBit 4
def capAudio : Caps := capBit 5
def capVaultRead : Caps := capBit 6
def capVaultWrite : Caps := capBit 7
def capVault : Caps := capVaultRead ||| capVaultWrite
def capAgentSpawn : Caps := capBit 8
def capAuditRead : Caps := capBit 9
def capUserAdmin : Caps := capBit 10
def capImmutableAdmin : Caps := capBit 11
def capShutdown : Caps := capBit 12
def capAll : Caps := ~~~0

/-! ## Credentials -/

structure Params where
  mCost : UInt32
  tCost : UInt32
  pCost : UInt32
  tagLen : Nat
  deriving DecidableEq

abbrev Argon2id := Bytes → Bytes → Params → Bytes

structure Argon2idHash where
  salt : Bytes
  tag : Bytes
  mCost : UInt32
  tCost : UInt32
  pCost : UInt32
  deriving DecidableEq

def Argon2idHash.create (argon2id : Argon2id) (password salt : Bytes) (params : Params) :
    Argon2idHash where
  salt := salt
  tag := argon2id password salt params
  mCost := params.mCost
  tCost := params.tCost
  pCost := params.pCost

def Argon2idHash.verify (argon2id : Argon2id) (h : Argon2idHash) (password : Bytes) : Bool :=
  argon2id password h.salt ⟨h.mCost, h.tCost, h.pCost, h.tag.length⟩ == h.tag

structure PasswordRecord where
  hash : Argon2idHash
  changedAt : Timestamp
  expiresAt : Option Timestamp
  mustChange : Bool
  history : List Argon2idHash
  locked : Bool
  deriving DecidableEq

def PasswordRecord.hashPassword (argon2id : Argon2id) (password salt : Bytes) (params : Params)
    (now : Timestamp) : PasswordRecord where
  hash := .create argon2id password salt params
  changedAt := now
  expiresAt := none
  mustChange := false
  history := []
  locked := false

def PasswordRecord.verify (argon2id : Argon2id) (p : PasswordRecord) (password : Bytes) : Bool :=
  if p.locked || p.hash.tag.isEmpty then false else p.hash.verify argon2id password

inductive LockReason
  | adminLock
  | failedLoginThreshold
  | passwordExpired
  | inactivityTimeout
  deriving DecidableEq

def LockReason.tag : LockReason → Str
  | .adminLock => "admin-lock".toList
  | .failedLoginThreshold => "failed-login-threshold".toList
  | .passwordExpired => "password-expired".toList
  | .inactivityTimeout => "inactivity-timeout".toList

inductive UserState
  | active
  | locked (reason : LockReason) (lockedAt : Timestamp) (lockedBy : UserId)
  | expired (expiredAt : Timestamp)
  | deleted (deletedAt : Timestamp) (deletedBy : UserId)
  deriving DecidableEq

structure User where
  uid : UserId
  username : Str
  displayName : Str
  primaryGid : GroupId
  groups : List GroupId
  home : Str
  shell : Str
  state : UserState
  caps : Caps
  createdAt : Timestamp
  createdBy : UserId
  password : PasswordRecord
  tpmEnrolled : Bool
  failedLogins : UInt32
  deriving DecidableEq

structure Group where
  gid : GroupId
  name : Str
  caps : Caps

abbrev GroupDb := List Group

def GroupDb.get (db : GroupDb) (gid : GroupId) : Option Group := db.find? (·.gid == gid)

def GroupDb.withBuiltins : GroupDb :=
  [⟨groupWheel, "wheel".toList, capAll⟩,
   ⟨groupAudit, "audit".toList, capLogin ||| capAuditRead⟩,
   ⟨groupNet, "net".toList, capLogin ||| capNet⟩,
   ⟨groupVault, "vault".toList, capLogin ||| capVault⟩,
   ⟨groupAgent, "agent".toList, capLogin ||| capAgentSpawn⟩,
   ⟨groupUsers, "users".toList, capLogin ||| capFile ||| capDisplay⟩]

/-- The capabilities of a user and of the user's groups, within what the policy allows. -/
def effectiveCaps (user : User) (db : GroupDb) (europolAllowed : Caps) : Caps :=
  let groupCaps (caps : Caps) (gid : GroupId) : Caps :=
    match db.get gid with
    | some g => caps ||| g.caps
    | none => caps
  (user.primaryGid :: user.groups).foldl groupCaps user.caps &&& europolAllowed

/-! ## The user store -/

inductive UserError
  | alreadyExists (name : Str)
  | notFound (what : Str)
  deriving DecidableEq

structure UserDb where
  users : List User
  distinct : (users.map User.username).Nodup

def updateFirst (p : User → Bool) (f : User → User) : List User → List User
  | [] => []
  | u :: users => if p u then f u :: users else u :: updateFirst p f users

theorem map_username_updateFirst (hf : ∀ u, (f u).username = u.username) (users : List User) :
    (updateFirst p f users).map User.username = users.map User.username := by
  induction users with
  | nil => rfl
  | cons u users ih =>
    by_cases hp : p u
    · simp [updateFirst, hp, hf]
    · simp [updateFirst, hp, ih]

namespace UserDb

@[ext] theorem ext' {db db' : UserDb} (h : db.users = db'.users) : db = db' := by
  cases db
  cases db'
  cases h
  rfl

instance : DecidableEq UserDb := fun db db' =>
  decidable_of_iff (db.users = db'.users) ⟨ext', congrArg users⟩

def new : UserDb := ⟨[], by simp⟩

def «exists» (db : UserDb) (username : Str) : Bool := db.users.any (·.username == username)

def get (db : UserDb) (uid : UserId) : Option User := db.users.find? (·.uid == uid)

def getByName (db : UserDb) (username : Str) : Option User :=
  db.users.find? (·.username == username)

def getMut (db : UserDb) (uid : UserId) (f : User → User)
    (hf : ∀ u, (f u).username = u.username) : UserDb where
  users := updateFirst (·.uid == uid) f db.users
  distinct := by
    rw [map_username_updateFirst hf]
    exact db.distinct

/-- The uid after the largest one of the range, which may lie outside the range. -/
def nextUid (db : UserDb) (isSystem : Bool) : UserId :=
  let (floor, ceil) :=
    if isSystem then (firstSystem, firstRegular - 1) else (firstRegular, 0xFFFFFFFF)
  match ((db.users.map User.uid).filter fun x => floor ≤ x && x ≤ ceil).max? with
  | some m => m + 1
  | none => floor

theorem exists_eq_false_iff {db : UserDb} {username : Str} :
    db.exists username = false ↔ username ∉ db.users.map User.username := by simp [«exists»]

theorem distinct_push {db : UserDb} {user : User} (h : db.exists user.username = false) :
    ((db.users ++ [user]).map User.username).Nodup := by
  rw [List.map_append, List.map_singleton, List.nodup_append_comm]
  exact List.nodup_cons.mpr ⟨exists_eq_false_iff.mp h, db.distinct⟩

def insert (db : UserDb) (user : User) : Except UserError UserDb :=
  match h : db.exists user.username with
  | true => .error (.alreadyExists user.username)
  | false => .ok ⟨db.users ++ [user], distinct_push h⟩

def lock (db : UserDb) (uid : UserId) (reason : LockReason) (lockedBy : UserId)
    (now : Timestamp) : Except UserError UserDb :=
  match db.get uid with
  | none => .error (.notFound ("uid ".toList ++ Str.decimal uid.toNat))
  | some _ =>
    .ok (db.getMut uid (fun u => { u with state := .locked reason now lockedBy }) fun _ => rfl)

/-- One more failure on the first account with the uid; its new count, or 0. -/
def recordFailedLogin (db : UserDb) (uid : UserId) : UserDb × UInt32 :=
  match db.get uid with
  | none => (db, 0)
  | some u =>
    (db.getMut uid (fun u => { u with failedLogins := u.failedLogins + 1 }) fun _ => rfl,
      u.failedLogins + 1)

def resetFailedLogins (db : UserDb) (uid : UserId) : UserDb :=
  db.getMut uid (fun u => { u with failedLogins := 0 }) fun _ => rfl

theorem insert_ok {db db' : UserDb} {user : User} (h : db.insert user = .ok db') :
    db.exists user.username = false ∧ db'.users = db.users ++ [user] := by
  unfold insert at h
  split at h
  · cases h
  rename_i hnew
  cases h
  exact ⟨hnew, rfl⟩

theorem insert_of_new {db : UserDb} {user : User} (h : db.exists user.username = false) :
    db.insert user = .ok ⟨db.users ++ [user], distinct_push h⟩ := by
  unfold insert
  split
  · rename_i hold
    simp [h] at hold
  · rfl

end UserDb

/-! ## Names and passwords -/

structure PasswordPolicy where
  minLength : Nat := 12
  maxLength : Nat := 128
  requireUppercase : Bool := true
  requireLowercase : Bool := true
  requireDigit : Bool := true
  requireSpecial : Bool := true

inductive PolicyError
  | tooShort (min : Nat)
  | tooLong (max : Nat)
  | missingUppercase
  | missingLowercase
  | missingDigit
  | missingSpecial

def PolicyError.message : PolicyError → Str
  | .tooShort min =>
    "password too short (at least ".toList ++ Str.decimal min ++ " characters)".toList
  | .tooLong max =>
    "password too long (at most ".toList ++ Str.decimal max ++ " characters)".toList
  | .missingUppercase => "password is missing an uppercase letter".toList
  | .missingLowercase => "password is missing a lowercase letter".toList
  | .missingDigit => "password is missing a digit".toList
  | .missingSpecial => "password is missing a special character".toList

def validatePassword (pw : Str) (policy : PasswordPolicy) : Except PolicyError Unit :=
  if pw.length < policy.minLength then .error (.tooShort policy.minLength)
  else if pw.length > policy.maxLength then .error (.tooLong policy.maxLength)
  else if policy.requireUppercase && !pw.any Char.isUpper then .error .missingUppercase
  else if policy.requireLowercase && !pw.any Char.isLower then .error .missingLowercase
  else if policy.requireDigit && !pw.any Char.isDigit then .error .missingDigit
  else if policy.requireSpecial && !pw.any (!·.isAlphanum) then .error .missingSpecial
  else .ok ()

def usernameByte (b : UInt8) : Bool :=
  (97 ≤ b && b ≤ 122) || (48 ≤ b && b ≤ 57) || b == 95 || b == 45

def validateUsername (name : Str) : Except Str Unit :=
  match name.bytes with
  | [] => .error "username may not be empty".toList
  | first :: rest =>
    if (first :: rest).length > 32 then
      .error "username too long (at most 32 characters)".toList
    else if !((97 ≤ first && first ≤ 122) || first == 95) then
      .error "username must start with a lowercase letter or '_'".toList
    else if !(first :: rest).all usernameByte then
      .error "invalid character in username: only [a-z0-9_-] allowed".toList
    else .ok ()

theorem usernameByte_of_validateUsername (h : validateUsername name = .ok ()) :
    ∀ b ∈ name.bytes, usernameByte b := by
  unfold validateUsername at h
  split at h
  · cases h
  rename_i first rest hbytes
  split_ifs at h with hlong hfirst hall
  rw [hbytes]
  simpa using hall

theorem notMem_of_validateUsername (h : validateUsername name = .ok ())
    (hc : String.utf8EncodeChar c = [b]) (hb : usernameByte b = false) : c ∉ name := by
  intro hmem
  have hbyte : b ∈ name.bytes :=
    List.mem_flatMap.mpr ⟨c, hmem, by simp [hc]⟩
  simp [usernameByte_of_validateUsername h b hbyte] at hb

end EuroOS.Euroid
