import EuroOS.UserModel
import EuroOS.HashChain

/-!
# The identity audit log

Events are rendered as JSON, and each record is hashed with the hash of the
record before it.  The check of the chain binds sequence number, body and the two
hashes of every record.  It binds neither the event name and the time that a
record repeats beside its body, nor the root hash that the log stores beside its
records.
-/

namespace EuroOS.Euroid

open HashChain

/-! ## Events -/

def jsonChar (c : Char) : Str :=
  if c = '"' then ['\\', '"']
  else if c = '\\' then ['\\', '\\']
  else if c = '\n' then ['\\', 'n']
  else if c = '\r' then ['\\', 'r']
  else if c = '\t' then ['\\', 't']
  else if c.toNat < 0x20 then
    ['\\', 'u', '0', '0', hexDigit (c.toNat / 16), hexDigit (c.toNat % 16)]
  else [c]

def jsonStr (s : Str) : Str := '"' :: s.flatMap jsonChar ++ ['"']

def jsonArray (items : List Str) : Str := '[' :: [','].intercalate items ++ [']']

def jsonUidArray (gids : List GroupId) : Str := jsonArray (gids.map fun g => Str.decimal g.toNat)

def capTable : List (Str × Caps) :=
  [("CAP_LOGIN".toList, capLogin), ("CAP_FILE".toList, capFile),
   ("CAP_FILE_READ".toList, capFileRead), ("CAP_FILE_WRITE".toList, capFileWrite),
   ("CAP_NET".toList, capNet), ("CAP_DISPLAY".toList, capDisplay), ("CAP_AUDIO".toList, capAudio),
   ("CAP_VAULT".toList, capVault), ("CAP_VAULT_READ".toList, capVaultRead),
   ("CAP_VAULT_WRITE".toList, capVaultWrite), ("CAP_AGENT_SPAWN".toList, capAgentSpawn),
   ("CAP_AUDIT_READ".toList, capAuditRead), ("CAP_USER_ADMIN".toList, capUserAdmin),
   ("CAP_IMMUTABLE_ADMIN".toList, capImmutableAdmin), ("CAP_SHUTDOWN".toList, capShutdown)]

/-- The names of the set capabilities; a composite one is named when all its bits are set. -/
def capNames (caps : Caps) : List Str :=
  if caps = capAll then ["CAP_ALL".toList]
  else
    let composite := [("CAP_FILE".toList, capFile), ("CAP_VAULT".toList, capVault)]
    let named := composite.foldl (fun (out, shown) (name, bit) =>
      if caps &&& bit == bit then (out ++ [name], shown ||| bit) else (out, shown)) ([], 0)
    let all := capTable.foldl (fun (out, shown) (name, bit) =>
      if bit == capFile || bit == capVault then (out, shown)
      else if caps &&& bit != 0 && shown &&& bit == 0 then (out ++ [name], shown ||| bit)
      else (out, shown)) named
    all.1

def jsonCaps (caps : Caps) : Str := jsonArray ((capNames caps).map jsonStr)

def jsonBool (b : Bool) : Str := if b then "true".toList else "false".toList

inductive DenyReason
  | unknownUser
  | accountLocked (reason : LockReason)
  | accountExpired
  | accountDeleted
  deriving DecidableEq

def DenyReason.tag : DenyReason → Str
  | .unknownUser => "unknown-user".toList
  | .accountLocked reason => "account-locked:".toList ++ reason.tag
  | .accountExpired => "account-expired".toList
  | .accountDeleted => "account-deleted".toList

inductive AuditEvent
  | boot
  | systemInit
  | userCreated (uid : UserId) (username : Str) (createdBy : UserId) (groups : List GroupId)
      (caps : Caps)
  | userModified (uid : UserId) (username : Str) (modifiedBy : UserId) (change : Str)
  | userDeleted (uid : UserId) (username : Str) (deletedBy : UserId)
  | userLocked (uid : UserId) (username : Str) (reason : LockReason) (lockedBy : UserId)
  | userUnlocked (uid : UserId) (username : Str) (unlockedBy : UserId)
  | loginSuccess (uid : UserId) (username session : Str) (caps : Caps) (tty : Str)
  | loginFailed (uid : UserId) (username : Str) (attempt : UInt32)
  | loginDenied (username : Str) (reason : DenyReason)
  | logout (uid : UserId) (username session : Str) (durationSecs : UInt64)
  | passwordChanged (actor target : UserId) (adminReset : Bool)
  | passwordChangeFailed (actor target : UserId) (reason : Str)
  | sudoUsed (uid : UserId) (username command : Str) (success : Bool)
  | suSwitched (fromUid toUid : UserId) (session : Str)
  deriving DecidableEq

def AuditEvent.name : AuditEvent → Str
  | .boot => "Boot".toList
  | .systemInit => "SystemInit".toList
  | .userCreated .. => "UserCreated".toList
  | .userModified .. => "UserModified".toList
  | .userDeleted .. => "UserDeleted".toList
  | .userLocked .. => "UserLocked".toList
  | .userUnlocked .. => "UserUnlocked".toList
  | .loginSuccess .. => "LoginSuccess".toList
  | .loginFailed .. => "LoginFailed".toList
  | .loginDenied .. => "LoginDenied".toList
  | .logout .. => "Logout".toList
  | .passwordChanged .. => "PasswordChanged".toList
  | .passwordChangeFailed .. => "PasswordChangeFailed".toList
  | .sudoUsed .. => "SudoUsed".toList
  | .suSwitched .. => "SuSwitched".toList

def jsonField (name value : Str) : Str := ',' :: '"' :: name ++ '"' :: ':' :: value

def jsonNumber (name : Str) (n : Nat) : Str := jsonField name (Str.decimal n)

def jsonText (name text : Str) : Str := jsonField name (jsonStr text)

def AuditEvent.fieldsJson : AuditEvent → Str
  | .boot | .systemInit => []
  | .userCreated uid username createdBy groups caps =>
    jsonNumber "uid".toList uid.toNat ++ jsonText "username".toList username ++
      jsonNumber "created_by".toList createdBy.toNat ++
      jsonField "groups".toList (jsonUidArray groups) ++ jsonField "caps".toList (jsonCaps caps)
  | .userModified uid username modifiedBy change =>
    jsonNumber "uid".toList uid.toNat ++ jsonText "username".toList username ++
      jsonNumber "modified_by".toList modifiedBy.toNat ++ jsonText "change".toList change
  | .userDeleted uid username deletedBy =>
    jsonNumber "uid".toList uid.toNat ++ jsonText "username".toList username ++
      jsonNumber "deleted_by".toList deletedBy.toNat
  | .userLocked uid username reason lockedBy =>
    jsonNumber "uid".toList uid.toNat ++ jsonText "username".toList username ++
      jsonText "reason".toList reason.tag ++ jsonNumber "locked_by".toList lockedBy.toNat
  | .userUnlocked uid username unlockedBy =>
    jsonNumber "uid".toList uid.toNat ++ jsonText "username".toList username ++
      jsonNumber "unlocked_by".toList unlockedBy.toNat
  | .loginSuccess uid username session caps tty =>
    jsonNumber "uid".toList uid.toNat ++ jsonText "username".toList username ++
      jsonText "session".toList session ++ jsonField "caps_summary".toList (jsonCaps caps) ++
      jsonText "tty".toList tty
  | .loginFailed uid username attempt =>
    jsonNumber "uid".toList uid.toNat ++ jsonText "username".toList username ++
      jsonNumber "attempt_count".toList attempt.toNat
  | .loginDenied username reason =>
    jsonText "username".toList username ++ jsonText "reason".toList reason.tag
  | .logout uid username session durationSecs =>
    jsonNumber "uid".toList uid.toNat ++ jsonText "username".toList username ++
      jsonText "session".toList session ++
      jsonNumber "duration_secs".toList durationSecs.toNat
  | .passwordChanged actor target adminReset =>
    jsonNumber "actor".toList actor.toNat ++ jsonNumber "target".toList target.toNat ++
      jsonField "admin_reset".toList (jsonBool adminReset)
  | .passwordChangeFailed actor target reason =>
    jsonNumber "actor".toList actor.toNat ++ jsonNumber "target".toList target.toNat ++
      jsonText "reason".toList reason
  | .sudoUsed uid username command success =>
    jsonNumber "uid".toList uid.toNat ++ jsonText "username".toList username ++
      jsonText "command".toList command ++ jsonField "success".toList (jsonBool success)
  | .suSwitched fromUid toUid session =>
    jsonNumber "from_uid".toList fromUid.toNat ++ jsonNumber "to_uid".toList toUid.toNat ++
      jsonText "session".toList session

/-! ## Records -/

abbrev Digest := Vector UInt8 32

def zeroDigest : Digest := Vector.replicate 32 0

structure AuditEntry where
  seq : UInt64
  event : Str
  timestamp : Timestamp
  body : Str
  prevHash : Digest
  hash : Digest
  deriving DecidableEq

def seqMember (seq : UInt64) : Str :=
  '\x7b' :: '"' :: "seq".toList ++ '"' :: ':' :: Str.decimal seq.toNat

def renderBody (seq : UInt64) (event : AuditEvent) (ts : Timestamp) : Str :=
  seqMember seq ++ jsonText "event".toList event.name ++ event.fieldsJson ++
    jsonNumber "timestamp".toList ts.toNat ++ ['\x7d']

def hashInput (seq : UInt64) (prevHash : Digest) (body : Str) : Bytes :=
  le 8 seq.toNat ++ prevHash.toList ++ body.bytes

def computeHash (sha256 : Bytes → Digest) (seq : UInt64) (prevHash : Digest) (body : Str) :
    Digest :=
  sha256 (hashInput seq prevHash body)

def findText (pat : Str) : Str → Option Nat
  | [] => if pat.isEmpty then some 0 else none
  | c :: s => if pat.isPrefixOf (c :: s) then some 0 else (findText pat s).map (· + 1)

def rfindText (pat : Str) : Str → Option Nat
  | [] => if pat.isEmpty then some 0 else none
  | c :: s =>
    match rfindText pat s with
    | some i => some (i + 1)
    | none => if pat.isPrefixOf (c :: s) then some 0 else none

namespace AuditEntry

/-- The fields of the event, cut out of the body; `none` when a slice is out of range. -/
def fieldSuffix (e : AuditEntry) : Option Str :=
  match rfindText (',' :: '"' :: "timestamp".toList ++ ['"']) e.body,
      findText ('"' :: "event".toList ++ ['"', ':']) e.body with
  | some tsPos, some evPos =>
    if tsPos < evPos + 8 then none
    else
      match (e.body.drop (evPos + 8)).take (tsPos - (evPos + 8)) with
      | [] => none
      | first :: rest =>
        -- the slice from byte 1 has to start at a character
        if first.utf8Size ≠ 1 then none
        else
          match Str.splitOnce '"' rest with
          | some (_, fields) => some fields
          | none => some []
  | _, _ => some []

def line (e : AuditEntry) : Option Str :=
  e.fieldSuffix.map fun suffix =>
    seqMember e.seq ++ jsonText "event".toList e.event ++ suffix ++
      jsonNumber "timestamp".toList e.timestamp.toNat ++
      jsonField "prev_hash".toList ('"' :: "sha256:".toList ++ hex e.prevHash.toList ++ ['"']) ++
      jsonField "hash".toList ('"' :: "sha256:".toList ++ hex e.hash.toList ++ ['"']) ++ ['\x7d']

end AuditEntry

structure AuditLog where
  entries : List AuditEntry
  lastHash : Digest
  deriving DecidableEq

namespace AuditLog

variable (sha256 : Bytes → Digest)

def new : AuditLog := ⟨[], zeroDigest⟩

def append (log : AuditLog) (event : AuditEvent) (ts : Timestamp) : AuditLog :=
  let seq := UInt64.ofNat log.entries.length
  let body := renderBody seq event ts
  let hash := computeHash sha256 seq log.lastHash body
  { entries := log.entries ++ [⟨seq, event.name, ts, body, log.lastHash, hash⟩], lastHash := hash }

def appendAll (log : AuditLog) : List (AuditEvent × Timestamp) → AuditLog
  | [] => log
  | (event, ts) :: events => appendAll (append sha256 log event ts) events

def rootHash (log : AuditLog) : Digest := log.lastHash

/-- Check the records from the one after a hash on; an error names the broken record. -/
def verifyFrom : Digest → List AuditEntry → Except UInt64 Unit
  | _, [] => .ok ()
  | prev, e :: entries =>
    if e.prevHash ≠ prev then .error e.seq
    else if computeHash sha256 e.seq e.prevHash e.body ≠ e.hash then .error e.seq
    else verifyFrom e.hash entries

def verifyChain (log : AuditLog) : Except UInt64 Unit := verifyFrom sha256 zeroDigest log.entries

def lines (log : AuditLog) : Option (List Str) := log.entries.mapM AuditEntry.line

/-! ## What the check binds -/

theorem hashInput_inj (h : hashInput seq prev body = hashInput seq' prev' body') :
    seq = seq' ∧ prev = prev' ∧ body = body' := by
  obtain ⟨hhead, hbody⟩ := List.append_inj h (by simp)
  obtain ⟨hseq, hprev⟩ := List.append_inj hhead (by simp)
  exact ⟨le_uint64_inj hseq, Vector.toList_inj.mp hprev, Str.bytes_injective hbody⟩

def record (e : AuditEntry) : (UInt64 × Str) × Digest := ((e.seq, e.body), e.hash)

def link (prev : Digest) (payload : UInt64 × Str) : Digest :=
  computeHash sha256 payload.1 prev payload.2

/-- The previous hashes that the records store are the hashes of the records before them. -/
def PrevLinked : Digest → List AuditEntry → Prop
  | _, [] => True
  | prev, e :: entries => e.prevHash = prev ∧ PrevLinked e.hash entries

variable {sha256} {prev : Digest} {entries : List AuditEntry}

theorem verifyFrom_ok_iff : verifyFrom sha256 prev entries = .ok () ↔
    PrevLinked prev entries ∧ HashChain.Linked (link sha256) prev (entries.map record) := by
  induction entries generalizing prev with
  | nil => simp [verifyFrom, PrevLinked, HashChain.Linked]
  | cons e entries ih =>
    rw [verifyFrom, PrevLinked, List.map_cons, HashChain.Linked]
    by_cases hprev : e.prevHash = prev
    · by_cases hhash : computeHash sha256 e.seq e.prevHash e.body = e.hash
      · have hlink : e.hash = link sha256 prev (e.seq, e.body) := by rw [← hhash, hprev]; rfl
        rw [if_neg (by simpa using hprev), if_neg (by simpa using hhash), ih]
        exact ⟨fun h => ⟨⟨hprev, h.1⟩, hlink, h.2⟩, fun h => ⟨h.1.2, h.2.2⟩⟩
      · rw [if_neg (by simpa using hprev), if_pos hhash]
        refine ⟨fun h => (by cases h), fun h => absurd ?_ hhash⟩
        rw [hprev]
        exact h.2.1.symm
    · rw [if_pos hprev]
      exact ⟨fun h => (by cases h), fun h => absurd h.1.1 hprev⟩

def messages (log : AuditLog) : List Bytes :=
  log.entries.map fun e => hashInput e.seq e.prevHash e.body

theorem inputs_record (h : PrevLinked prev entries) :
    inputs prev (entries.map record) = entries.map fun e => (e.prevHash, e.seq, e.body) := by
  induction entries generalizing prev with
  | nil => rfl
  | cons e entries ih =>
    rw [List.map_cons, inputs, List.map_cons, ← h.1]
    exact congrArg (_ :: ·) (ih h.2)

theorem PrevLinked.map_prevHash (h : PrevLinked prev entries) :
    entries.map AuditEntry.prevHash = (inputs prev (entries.map record)).map Prod.fst := by
  rw [inputs_record h, List.map_map]
  rfl

def Rendered (e : AuditEntry) : Prop :=
  ∃ event : AuditEvent, e.event = event.name ∧ e.body = renderBody e.seq event e.timestamp

theorem jsonStr_name (event : AuditEvent) : jsonStr event.name = '"' :: event.name ++ ['"'] := by
  have hplain : event.name.flatMap jsonChar = event.name := by
    unfold AuditEvent.name
    cases event <;> dsimp only <;> decide +kernel
  rw [jsonStr, hplain]

theorem notMem_quote_name (event : AuditEvent) : '"' ∉ event.name := by
  unfold AuditEvent.name
  cases event <;> dsimp only <;> decide +kernel

theorem renderBody_inj (h : renderBody seq event ts = renderBody seq event' ts') :
    event.name = event'.name ∧ ts = ts' := by
  have hbody (event : AuditEvent) (ts : Timestamp) : renderBody seq event ts =
      (seqMember seq ++ ',' :: '"' :: "event".toList ++ ['"', ':', '"']) ++ (event.name ++ '"' ::
        (event.fieldsJson ++ jsonNumber "timestamp".toList ts.toNat ++ ['\x7d'])) := by
    simp [renderBody, jsonText, jsonField, jsonStr_name]
  rw [hbody, hbody] at h
  obtain ⟨hname, hrest⟩ := Str.append_cons_inj (notMem_quote_name event) (notMem_quote_name event')
    (List.append_cancel_left h)
  refine ⟨hname, ?_⟩
  -- read from the end, the time stands between the brace and the last colon
  have htail (event : AuditEvent) (ts : Timestamp) :
      (event.fieldsJson ++ jsonNumber "timestamp".toList ts.toNat ++ ['\x7d']).reverse =
        ('\x7d' :: (Str.decimal ts.toNat).reverse) ++ ':' ::
          (event.fieldsJson ++ ',' :: '"' :: "timestamp".toList ++ ['"']).reverse := by
    simp [jsonNumber, jsonField]
  have hcolon (ts : Timestamp) : ':' ∉ '\x7d' :: (Str.decimal ts.toNat).reverse := by
    simpa using Str.notMem_decimal (show ':'.isDigit = false by decide) ts.toNat
  have hreversed := congrArg List.reverse hrest
  rw [htail, htail] at hreversed
  have hdigits := (Str.append_cons_inj (hcolon ts) (hcolon ts') hreversed).1
  have hdecimal := List.reverse_injective (List.cons.inj hdigits).2
  exact UInt64.toNat_inj.mp (Str.decimal_injective hdecimal)

structure Sealed (sha256 : Bytes → Digest) (log : AuditLog) : Prop where
  prev : PrevLinked zeroDigest log.entries
  linked : HashChain.Linked (link sha256) zeroDigest (log.entries.map record)
  last : log.lastHash = endHash zeroDigest (log.entries.map record)
  rendered : ∀ e ∈ log.entries, Rendered e

theorem prevLinked_concat :
    PrevLinked prev (entries ++ [e]) ↔
    PrevLinked prev entries ∧ e.prevHash = endHash prev (entries.map record) := by
  induction entries generalizing prev with
  | nil => simp [PrevLinked]
  | cons first entries ih =>
    rw [List.cons_append, PrevLinked, PrevLinked, ih, List.map_cons, endHash_cons, and_assoc]
    rfl

theorem sealed_new : Sealed sha256 new := ⟨trivial, trivial, rfl, by simp [new]⟩

theorem Sealed.append (h : Sealed sha256 log) (event : AuditEvent) (ts : Timestamp) :
    Sealed sha256 (append sha256 log event ts) where
  prev := prevLinked_concat.mpr ⟨h.prev, h.last⟩
  linked := by
    rw [AuditLog.append, List.map_append, List.map_singleton]
    exact (linked_concat _ _).mpr ⟨h.linked, by rw [← h.last]; rfl⟩
  last := by
    rw [AuditLog.append, List.map_append, List.map_singleton, endHash_concat]
    rfl
  rendered e he := by
    rcases List.mem_append.mp he with he | he
    · exact h.rendered e he
    · rw [List.mem_singleton.mp he]
      exact ⟨event, rfl, rfl⟩

theorem Sealed.appendAll (h : Sealed sha256 log) (events : List (AuditEvent × Timestamp)) :
    Sealed sha256 (appendAll sha256 log events) := by
  induction events generalizing log with
  | nil => exact h
  | cons first events ih => exact ih (h.append first.1 first.2)

theorem Rendered.ext (h : Rendered e) (h' : Rendered e') (hrecord : record e = record e')
    (hprev : e.prevHash = e'.prevHash) : e = e' := by
  obtain ⟨event, hname, hbody⟩ := h
  obtain ⟨event', hname', hbody'⟩ := h'
  obtain ⟨hpayload, hhash⟩ := Prod.mk.inj hrecord
  obtain ⟨hseq, hbodies⟩ := Prod.mk.inj hpayload
  rw [hbody, hbody', ← hseq] at hbodies
  obtain ⟨hnames, hts⟩ := renderBody_inj hbodies
  cases e
  cases e'
  simp_all

theorem eq_of_rendered {log log' : List AuditEntry} (h : ∀ e ∈ log, Rendered e)
    (h' : ∀ e ∈ log', Rendered e) (hrecord : log.map record = log'.map record)
    (hprev : log.map AuditEntry.prevHash = log'.map AuditEntry.prevHash) : log = log' := by
  induction log generalizing log' with
  | nil => simpa using hrecord.symm
  | cons e log ih =>
    cases log' with
    | nil => simp at hrecord
    | cons e' log' =>
      rw [List.map_cons, List.map_cons, List.cons.injEq] at hrecord hprev
      rw [List.forall_mem_cons] at h h'
      rw [h.1.ext h'.1 hrecord.1 hprev.1, ih h.2 h'.2 hrecord.2 hprev.2]

theorem Sealed.verifyChain (h : Sealed sha256 log) : verifyChain sha256 log = .ok () :=
  verifyFrom_ok_iff.mpr ⟨h.prev, h.linked⟩

def headHash (log : AuditLog) : Digest :=
  (log.entries.getLast?.map AuditEntry.hash).getD zeroDigest

theorem headHash_eq (log : AuditLog) :
    headHash log = endHash zeroDigest (log.entries.map record) := by
  simp [headHash, endHash, List.getLast?_map, record, Function.comp_def]

theorem binding_of_messages {log' : AuditLog} (h : PrevLinked zeroDigest log.entries)
    (h' : PrevLinked zeroDigest log'.entries)
    (hinj : Set.InjOn sha256 {m | m ∈ messages log ++ messages log'})
    (hzero : ∀ m ∈ messages log ++ messages log', sha256 m ≠ zeroDigest) :
    HashChain.Binding (link sha256) zeroDigest
      (inputs zeroDigest (log.entries.map record) ++
        inputs zeroDigest (log'.entries.map record)) := by
  rw [inputs_record h, inputs_record h', ← List.map_append]
  have hmessage {x : Digest × UInt64 × Str}
      (hx : x ∈ (log.entries ++ log'.entries).map fun e => (e.prevHash, e.seq, e.body)) :
      hashInput x.2.1 x.1 x.2.2 ∈ messages log ++ messages log' := by
    obtain ⟨e, he, rfl⟩ := List.mem_map.mp hx
    rw [messages, messages, ← List.map_append]
    exact List.mem_map.mpr ⟨e, he, rfl⟩
  refine ⟨fun x hx y hy hlink => ?_, fun x hx => hzero _ (hmessage hx)⟩
  obtain ⟨hseq, hprev, hbody⟩ := hashInput_inj (hinj (hmessage hx) (hmessage hy) hlink)
  exact Prod.ext hprev (Prod.ext hseq hbody)

/-- A log that passes the check under the root of an appended log is that log exactly when its
root is the hash of its last record and its records repeat what their bodies say. -/
theorem entries_eq_iff {events : List (AuditEvent × Timestamp)} {log : AuditLog}
    (hroot : (appendAll sha256 new events).rootHash = log.rootHash)
    (hverify : verifyChain sha256 log = .ok ())
    (hinj : Set.InjOn sha256 {m | m ∈ messages (appendAll sha256 new events) ++ messages log})
    (hzero : ∀ m ∈ messages (appendAll sha256 new events) ++ messages log, sha256 m ≠ zeroDigest) :
    (appendAll sha256 new events).entries = log.entries ∧
        (appendAll sha256 new events).lines = log.lines ↔
      log.lastHash = headHash log ∧ ∀ e ∈ log.entries, Rendered e := by
  have hsealed : Sealed sha256 (appendAll sha256 new events) := sealed_new.appendAll events
  constructor
  · rintro ⟨hentries, -⟩
    refine ⟨?_, fun e he => hsealed.rendered e (hentries ▸ he)⟩
    rw [← rootHash, ← hroot, rootHash, hsealed.last, headHash_eq, hentries]
  · rintro ⟨hlast, hrendered⟩
    obtain ⟨hprev, hlinked⟩ := verifyFrom_ok_iff.mp hverify
    have hend : endHash zeroDigest ((appendAll sha256 new events).entries.map record) =
        endHash zeroDigest (log.entries.map record) := by
      rw [← hsealed.last, ← headHash_eq, ← hlast]
      exact hroot
    have hrecords := eq_of_endHash_eq hsealed.linked hlinked
      (binding_of_messages hsealed.prev hprev hinj hzero) hend
    have hentries : (appendAll sha256 new events).entries = log.entries := by
      refine eq_of_rendered hsealed.rendered hrendered hrecords ?_
      rw [hsealed.prev.map_prevHash, hprev.map_prevHash, hrecords]
    exact ⟨hentries, by rw [lines, lines, hentries]⟩

def sampleEvents : List (AuditEvent × Timestamp) :=
  [(.systemInit, 0), (.loginFailed 1000 "alice".toList 1, 20)]

def sampleLog : AuditLog := appendAll HashChain.checksum new sampleEvents

theorem checksum_sampleLog : ∀ m ∈ messages sampleLog ++ messages sampleLog,
    HashChain.checksum m ≠ zeroDigest ∧
      ∀ m' ∈ messages sampleLog ++ messages sampleLog,
        HashChain.checksum m = HashChain.checksum m' → m = m' := by
  decide +kernel

theorem entries_eq_iff_sample :
    (appendAll HashChain.checksum new sampleEvents).entries = sampleLog.entries := by
  have hroot : (appendAll HashChain.checksum new sampleEvents).rootHash = sampleLog.rootHash := rfl
  have hverify : verifyChain HashChain.checksum sampleLog = .ok () := (sealed_new.appendAll _).verifyChain
  have hiff := entries_eq_iff hroot hverify
    (fun m hm m' hm' => (checksum_sampleLog m hm).2 m' hm') fun m hm => (checksum_sampleLog m hm).1
  exact (hiff.mpr ⟨(sealed_new.appendAll _).last.trans (headHash_eq _).symm,
    (sealed_new.appendAll _).rendered⟩).1

/-- The log without its records, and the log with other event names and times beside the bodies. -/
def forgedLogs : List AuditLog :=
  [{ sampleLog with entries := [] },
   { sampleLog with
     entries := sampleLog.entries.map fun e => { e with event := "Boot".toList, timestamp := 99 } }]

theorem forgedLogs_verify : forgedLogs ≠ [] ∧ ∀ log ∈ forgedLogs,
    log.rootHash = sampleLog.rootHash ∧ verifyChain HashChain.checksum log = .ok () ∧
      (∀ m ∈ messages log, m ∈ messages sampleLog) ∧ log.entries ≠ sampleLog.entries := by
  decide +kernel

end AuditLog

end EuroOS.Euroid
