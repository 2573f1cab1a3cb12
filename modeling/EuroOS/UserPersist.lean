import EuroOS.UserModel

/-!
# The user store as a text

One line per account with tab-separated fields.  The fields that are free texts
are written as they are, so the store is read back exactly when none of them
contains a tab or a line feed.
-/

namespace EuroOS.Euroid

open List Str Argon2idHash

inductive PersistError
  | badHeader
  | badField
  deriving DecidableEq

def header : Str := "EUROID-DB-v1".toList

def flag (b : Bool) : Str := if b then ['1'] else ['0']

/-! ## Password hashes -/

def algorithm : Str := "argon2id".toList

def Argon2idHash.encode (h : Argon2idHash) : Str :=
  '$' :: algorithm ++ '$' :: 'm' :: '=' :: decimal h.mCost.toNat ++
    ',' :: 't' :: '=' :: decimal h.tCost.toNat ++
    ',' :: 'p' :: '=' :: decimal h.pCost.toNat ++ '$' :: hex h.salt ++ '$' :: hex h.tag

/-- The costs named in a list of settings; a later one replaces an earlier one. -/
def decodeCosts : UInt32 × UInt32 × UInt32 → List Str → Option (UInt32 × UInt32 × UInt32)
  | costs, [] => some costs
  | (m, t, p), kv :: kvs => do
      let (k, v) ← splitOnce '=' kv
      let n ← Str.parseU32 v
      if k = ['m'] then decodeCosts (n, t, p) kvs
      else if k = ['t'] then decodeCosts (m, n, p) kvs
      else if k = ['p'] then decodeCosts (m, t, n) kvs
      else none

def decodeHash (s : Str) : Option Argon2idHash :=
  match s.splitOn '$' with
  | [_, name, costs, salt, tag] =>
    if name ≠ algorithm then none
    else do
      let (m, t, p) ← decodeCosts (0, 0, 0) (costs.splitOn ',')
      let salt ← unhex salt
      let tag ← unhex tag
      return { salt, tag, mCost := m, tCost := t, pCost := p }
  | _ => none

/-! ## Account states -/

def activeWord : Str := "active".toList
def lockedWord : Str := "locked".toList
def expiredWord : Str := "expired".toList
def deletedWord : Str := "deleted".toList

def encodeState : UserState → Str
  | .active => activeWord
  | .locked reason lockedAt lockedBy =>
    lockedWord ++ ':' :: reason.tag ++ ':' :: decimal lockedAt.toNat ++
      ':' :: decimal lockedBy.toNat
  | .expired expiredAt => expiredWord ++ ':' :: decimal expiredAt.toNat
  | .deleted deletedAt deletedBy =>
    deletedWord ++ ':' :: decimal deletedAt.toNat ++ ':' :: decimal deletedBy.toNat

def reasonFromTag (t : Str) : Option LockReason :=
  [.adminLock, .failedLoginThreshold, .passwordExpired, .inactivityTimeout].find? (·.tag == t)

/-- The state of the fields; what follows the fields of a state is not read. -/
def decodeState (s : Str) : Option UserState :=
  let fields := s.splitOn ':'
  if fields[0]? = some activeWord then some .active
  else if fields[0]? = some lockedWord then do
    let reason ← fields[1]? >>= reasonFromTag
    let lockedAt ← fields[2]? >>= parseU64
    let lockedBy ← fields[3]? >>= Str.parseU32
    return .locked reason lockedAt lockedBy
  else if fields[0]? = some expiredWord then do
    let expiredAt ← fields[1]? >>= parseU64
    return .expired expiredAt
  else if fields[0]? = some deletedWord then do
    let deletedAt ← fields[1]? >>= parseU64
    let deletedBy ← fields[2]? >>= Str.parseU32
    return .deleted deletedAt deletedBy
  else none

def encodeExpires : Option Timestamp → Str
  | some t => decimal t.toNat
  | none => ['-']

def decodeExpires (s : Str) : Option (Option Timestamp) :=
  if s = ['-'] then some none else (parseU64 s).map some

def encodePw (p : PasswordRecord) : Str :=
  decimal p.changedAt.toNat ++ ';' :: encodeExpires p.expiresAt ++ ';' :: flag p.mustChange ++
    ';' :: flag p.locked ++ ';' :: p.hash.encode ++
    ';' :: [' '].intercalate (p.history.map encode)

def decodePw (s : Str) : Option PasswordRecord :=
  match splitN ';' 6 s with
  | [changedAt, expires, mustChange, locked, hash, history] => do
      let changedAt ← parseU64 changedAt
      let expiresAt ← decodeExpires expires
      let hash ← decodeHash hash
      let history ← ((history.splitOn ' ').filter (!·.isEmpty)).mapM decodeHash
      return { hash, changedAt, expiresAt, mustChange := mustChange == ['1'], history,
               locked := locked == ['1'] }
  | _ => none

/-! ## Accounts and the store -/

def User.fields (u : User) : List Str :=
  [decimal u.uid.toNat, u.username, u.displayName, decimal u.primaryGid.toNat,
   [','].intercalate (u.groups.map fun g => decimal g.toNat), u.home, u.shell,
   encodeState u.state, decimal u.caps.toNat, decimal u.createdAt.toNat,
   decimal u.createdBy.toNat, flag u.tpmEnrolled, decimal u.failedLogins.toNat,
   encodePw u.password]

def User.line (u : User) : Str := ['\t'].intercalate u.fields

def serializeDb (db : UserDb) : Str :=
  header ++ ['\n'] ++ db.users.flatMap fun u => u.line ++ ['\n']

def User.ofFields : List Str → Option User
  | [uid, username, displayName, primaryGid, groups, home, shell, state, caps, createdAt,
      createdBy, tpmEnrolled, failedLogins, password] => do
      let groups ← ((groups.splitOn ',').filter (!·.isEmpty)).mapM Str.parseU32
      let uid ← Str.parseU32 uid
      let primaryGid ← Str.parseU32 primaryGid
      let state ← decodeState state
      let caps ← parseU64 caps
      let createdAt ← parseU64 createdAt
      let createdBy ← Str.parseU32 createdBy
      let failedLogins ← Str.parseU32 failedLogins
      let password ← decodePw password
      return { uid, username, displayName, primaryGid, groups, home, shell, state, caps, createdAt,
               createdBy, password, tpmEnrolled := tpmEnrolled == ['1'], failedLogins }
  | _ => none

def loadUsers : UserDb → List Str → Except PersistError UserDb
  | db, [] => .ok db
  | db, line :: lines =>
    if line.isEmpty then loadUsers db lines
    else
      match User.ofFields (line.splitOn '\t') with
      | none => .error .badField
      | some user =>
        match db.insert user with
        | .error _ => .error .badField
        | .ok db => loadUsers db lines

def deserializeDb (data : Str) : Except PersistError UserDb :=
  match lines data with
  | [] => .error .badHeader
  | first :: lines => if first = header then loadUsers .new lines else .error .badHeader

/-! ## What was written is read back -/

variable {c : Char} {u : User}

theorem isDigit_eq_false (h : toDigit16 c = none) : c.isDigit = false := by
  unfold toDigit16 at h
  split_ifs at h with hdigit
  by_contra hc
  exact hdigit (by simpa [Char.isDigit, Char.le_def] using hc)

def Argon2idHash.costs (h : Argon2idHash) : List Str :=
  ['m' :: '=' :: decimal h.mCost.toNat, 't' :: '=' :: decimal h.tCost.toNat,
   'p' :: '=' :: decimal h.pCost.toNat]

def Argon2idHash.parts (h : Argon2idHash) : List Str :=
  [[], algorithm, [','].intercalate h.costs, hex h.salt, hex h.tag]

theorem encode_eq (h : Argon2idHash) : h.encode = ['$'].intercalate h.parts := by
  simp [encode, parts, costs, List.intercalate]

theorem notMem_encode (hhex : toDigit16 c = none) (halgorithm : c ∉ algorithm)
    (hc : c ∉ ['$', 'm', '=', ',', 't', 'p']) (h : Argon2idHash) : c ∉ h.encode := by
  have hdecimal := notMem_decimal (isDigit_eq_false hhex)
  have hbytes := notMem_hex hhex
  simp only [mem_cons, not_mem_nil, or_false, not_or] at hc
  simp [encode, hdecimal, hbytes, halgorithm, hc]

theorem decodeCosts_costs (h : Argon2idHash) :
    decodeCosts (0, 0, 0) h.costs = some (h.mCost, h.tCost, h.pCost) := by
  have hpair (k : Char) (hk : k ≠ '=') (n : Nat) :
      splitOnce '=' (k :: '=' :: decimal n) = some ([k], decimal n) :=
    splitOnce_append_cons (a := [k]) (by simpa using hk.symm) _
  have hm := hpair 'm' (by decide) h.mCost.toNat
  have ht := hpair 't' (by decide) h.tCost.toNat
  have hp := hpair 'p' (by decide) h.pCost.toNat
  simp [costs, decodeCosts, hm, ht, hp]

theorem decodeHash_encode (h : Argon2idHash) : decodeHash h.encode = some h := by
  have hdecimal {c : Char} (hc : c.isDigit = false) (n : Nat) := notMem_decimal hc n
  have hcosts : ∀ cost ∈ h.costs, ',' ∉ cost ∧ '$' ∉ cost := by
    simp [costs, hdecimal (show ','.isDigit = false by decide),
      hdecimal (show '$'.isDigit = false by decide)]
  have hjoined : '$' ∉ [','].intercalate h.costs := by
    intro hmem
    rcases mem_intercalate_singleton hmem with hcomma | ⟨cost, hcost, hmem⟩
    · exact absurd hcomma (by decide)
    · exact (hcosts cost hcost).2 hmem
  have hparts : ∀ part ∈ h.parts, '$' ∉ part := by
    simp only [parts, forall_mem_cons]
    exact ⟨by simp, by decide, hjoined, notMem_hex (by decide) _, notMem_hex (by decide) _, by simp⟩
  have hsplit : h.encode.splitOn '$' = h.parts := by
    rw [encode_eq, splitOn_intercalate '$' hparts (by simp [parts])]
  have hcommas : ([','].intercalate h.costs).splitOn ',' = h.costs :=
    splitOn_intercalate ',' (fun cost hcost => (hcosts cost hcost).1)
      (by simp [costs])
  rw [decodeHash, hsplit]
  simp [parts, hcommas, decodeCosts_costs]

theorem reasonFromTag_tag (reason : LockReason) : reasonFromTag reason.tag = some reason := by
  cases reason <;> decide

theorem notMem_tag (hc : c.isLower = false ∧ c ≠ '-') (reason : LockReason) : c ∉ reason.tag := by
  have hall : reason.tag.all fun c => c.isLower || c == '-' := by cases reason <;> decide
  intro hmem
  have := all_eq_true.mp hall c hmem
  simp [hc] at this

theorem decodeState_encodeState (state : UserState) :
    decodeState (encodeState state) = some state := by
  have hdecimal (n : Nat) : ':' ∉ decimal n := notMem_decimal (by decide) n
  have hsplit {pieces : List Str} (hne : pieces ≠ []) (h : ∀ piece ∈ pieces, ':' ∉ piece) :
      ([':'].intercalate pieces).splitOn ':' = pieces := splitOn_intercalate ':' h hne
  cases state with
  | active => decide
  | locked reason lockedAt lockedBy =>
    have hfields : encodeState (.locked reason lockedAt lockedBy) = [':'].intercalate
        [lockedWord, reason.tag, decimal lockedAt.toNat, decimal lockedBy.toNat] := by
      simp [encodeState, List.intercalate]
    have hword : lockedWord ≠ activeWord := by decide
    have htag : ':' ∉ reason.tag := notMem_tag (by decide) reason
    rw [decodeState, hfields, hsplit (by simp) (by
      simp only [forall_mem_cons]
      exact ⟨by decide, htag, hdecimal _, hdecimal _, by simp⟩)]
    simp [hword, reasonFromTag_tag]
  | expired expiredAt =>
    have hfields : encodeState (.expired expiredAt) = [':'].intercalate
        [expiredWord, decimal expiredAt.toNat] := by simp [encodeState, List.intercalate]
    have hactive : expiredWord ≠ activeWord := by decide
    have hlocked : expiredWord ≠ lockedWord := by decide
    rw [decodeState, hfields, hsplit (by simp) (by
      simp only [forall_mem_cons]
      exact ⟨by decide, hdecimal _, by simp⟩)]
    simp [hactive, hlocked]
  | deleted deletedAt deletedBy =>
    have hfields : encodeState (.deleted deletedAt deletedBy) = [':'].intercalate
        [deletedWord, decimal deletedAt.toNat, decimal deletedBy.toNat] := by
      simp [encodeState, List.intercalate]
    have hactive : deletedWord ≠ activeWord := by decide
    have hlocked : deletedWord ≠ lockedWord := by decide
    have hexpired : deletedWord ≠ expiredWord := by decide
    rw [decodeState, hfields, hsplit (by simp) (by
      simp only [forall_mem_cons]
      exact ⟨by decide, hdecimal _, hdecimal _, by simp⟩)]
    simp [hactive, hlocked, hexpired]

theorem flag_eq (b : Bool) : (flag b == ['1']) = b := by cases b <;> rfl

theorem notMem_flag (hc : c.isDigit = false) (b : Bool) : c ∉ flag b := by
  intro hmem
  have : ∀ c ∈ flag b, c.isDigit := forall_mem_of_all (by cases b <;> decide)
  simp [this c hmem] at hc

theorem encode_ne_nil (h : Argon2idHash) : h.encode ≠ [] := by simp [encode]

def pwFields (p : PasswordRecord) : List Str :=
  [decimal p.changedAt.toNat, encodeExpires p.expiresAt, flag p.mustChange, flag p.locked,
   p.hash.encode, [' '].intercalate (p.history.map encode)]

theorem encodePw_eq (p : PasswordRecord) : encodePw p = [';'].intercalate (pwFields p) := by
  simp [encodePw, pwFields, List.intercalate]

theorem notMem_encodeExpires (hc : c.isDigit = false ∧ c ≠ '-') (expires : Option Timestamp) :
    c ∉ encodeExpires expires := by
  cases expires with
  | none => simpa [encodeExpires] using hc.2
  | some t => exact notMem_decimal hc.1 _

theorem decodeExpires_encodeExpires (expires : Option Timestamp) :
    decodeExpires (encodeExpires expires) = some expires := by
  cases expires with
  | none => rfl
  | some t =>
    have hdash : decimal t.toNat ≠ ['-'] := by
      intro h
      exact notMem_decimal (show '-'.isDigit = false by decide) t.toNat (by simp [h])
    simp [decodeExpires, encodeExpires, hdash]

theorem decodePw_encodePw (p : PasswordRecord) : decodePw (encodePw p) = some p := by
  have hsplit : splitN ';' 6 (encodePw p) = pwFields p := by
    rw [encodePw_eq]
    have hne : pwFields p ≠ [] := by simp [pwFields]
    refine splitN_intercalate hne ?_
    simp only [pwFields, dropLast_cons_cons, dropLast_singleton, forall_mem_cons]
    exact ⟨notMem_decimal (by decide) _, notMem_encodeExpires (by decide) _,
      notMem_flag (by decide) _, notMem_flag (by decide) _,
      notMem_encode (by decide) (by decide) (by decide) _, by simp⟩
  have hhistory : (([' '].intercalate (p.history.map encode)).splitOn ' ').filter
      (!·.isEmpty) = p.history.map encode := by
    refine filter_splitOn_intercalate fun word hword => ?_
    obtain ⟨h, -, rfl⟩ := mem_map.mp hword
    exact ⟨notMem_encode (by decide) (by decide) (by decide) h, encode_ne_nil h⟩
  rw [decodePw, hsplit]
  simp only [pwFields, hhistory, mapM_map_of_readBack decodeHash_encode,
    decodeExpires_encodeExpires, parseU64_decimal, decodeHash_encode, flag_eq,
    Option.bind_eq_bind, Option.bind_some]
  rfl

theorem notMem_encodePw (hhex : toDigit16 c = none) (halgorithm : c ∉ algorithm)
    (hc : c ∉ ['$', 'm', '=', ',', 't', 'p', '-', ';', ' ']) (p : PasswordRecord) :
    c ∉ encodePw p := by
  have hdigit := isDigit_eq_false hhex
  simp only [mem_cons, not_mem_nil, or_false, not_or] at hc
  have hhash (h : Argon2idHash) : c ∉ h.encode :=
    notMem_encode hhex halgorithm (by simp [hc]) h
  have hhistory : c ∉ [' '].intercalate (p.history.map encode) := by
    intro hmem
    rcases mem_intercalate_singleton hmem with hspace | ⟨word, hword, hmem⟩
    · exact hc.2.2.2.2.2.2.2.2 hspace
    · obtain ⟨h, -, rfl⟩ := mem_map.mp hword
      exact hhash h hmem
  intro hmem
  rw [encodePw_eq] at hmem
  rcases mem_intercalate_singleton hmem with hsemicolon | ⟨piece, hpiece, hmem⟩
  · exact hc.2.2.2.2.2.2.2.1 hsemicolon
  simp only [pwFields, mem_cons, not_mem_nil, or_false] at hpiece
  rcases hpiece with rfl | rfl | rfl | rfl | rfl | rfl
  · exact notMem_decimal hdigit _ hmem
  · exact notMem_encodeExpires ⟨hdigit, hc.2.2.2.2.2.2.1⟩ _ hmem
  · exact notMem_flag hdigit _ hmem
  · exact notMem_flag hdigit _ hmem
  · exact hhash _ hmem
  · exact hhistory hmem

theorem notMem_encodeState (hlower : c.isLower = false) (hdigit : c.isDigit = false)
    (hc : c ≠ ':' ∧ c ≠ '-') (state : UserState) : c ∉ encodeState state := by
  have hdecimal := notMem_decimal hdigit
  have hword {word : Str} (h : word.all Char.isLower) : c ∉ word := by
    intro hmem
    simp [all_eq_true.mp h c hmem] at hlower
  have hactive : c ∉ activeWord := hword (by decide)
  have hlocked : c ∉ lockedWord := hword (by decide)
  have hexpired : c ∉ expiredWord := hword (by decide)
  have hdeleted : c ∉ deletedWord := hword (by decide)
  have htag (reason : LockReason) : c ∉ reason.tag := notMem_tag ⟨hlower, hc.2⟩ reason
  cases state <;> simp [encodeState, hdecimal, hactive, hlocked, hexpired, hdeleted, htag, hc.1]

/-! ## Accounts -/

def User.texts (u : User) : List Str := [u.username, u.displayName, u.home, u.shell]

def User.Plain (u : User) : Prop := ∀ text ∈ u.texts, '\t' ∉ text ∧ '\n' ∉ text

theorem notMem_fields (hc : c = '\t' ∨ c = '\n') (htexts : ∀ text ∈ u.texts, c ∉ text) :
    ∀ f ∈ u.fields, c ∉ f := by
  have hhex : toDigit16 c = none := by rcases hc with rfl | rfl <;> decide
  have hdigit := isDigit_eq_false hhex
  have hdecimal := notMem_decimal hdigit
  have hgroups : c ∉ [','].intercalate (u.groups.map fun g => decimal g.toNat) := by
    intro hmem
    rcases mem_intercalate_singleton hmem with hcomma | ⟨piece, hpiece, hmem⟩
    · rcases hc with rfl | rfl <;> exact absurd hcomma (by decide)
    · obtain ⟨g, -, rfl⟩ := mem_map.mp hpiece
      exact hdecimal _ hmem
  have hstate : c ∉ encodeState u.state := by
    rcases hc with rfl | rfl <;>
      exact notMem_encodeState (by decide) (by decide) (by decide) _
  have hpw : c ∉ encodePw u.password := by
    rcases hc with rfl | rfl <;> exact notMem_encodePw (by decide) (by decide) (by decide) _
  simp only [User.texts, forall_mem_cons] at htexts
  simp only [User.fields, forall_mem_cons]
  exact ⟨hdecimal _, htexts.1, htexts.2.1, hdecimal _, hgroups, htexts.2.2.1, htexts.2.2.2.1,
    hstate, hdecimal _, hdecimal _, hdecimal _, notMem_flag hdigit _, hdecimal _, hpw, by simp⟩

theorem ofFields_fields (u : User) : User.ofFields u.fields = some u := by
  have hgroups : (([','].intercalate (u.groups.map fun g => decimal g.toNat)).splitOn ',').filter
      (!·.isEmpty) = u.groups.map fun g => decimal g.toNat := by
    refine filter_splitOn_intercalate fun word hword => ?_
    obtain ⟨g, -, rfl⟩ := mem_map.mp hword
    exact ⟨notMem_decimal (by decide) _, decimal_ne_nil _⟩
  simp only [User.fields, User.ofFields, hgroups, mapM_map_of_readBack parseU32_decimal,
    parseU32_decimal, parseU64_decimal, decodeState_encodeState, decodePw_encodePw, flag_eq,
    Option.bind_eq_bind, Option.bind_some]
  rfl

theorem plain_of_ofFields (h : User.ofFields fields = some u)
    (hfields : ∀ f ∈ fields, '\t' ∉ f ∧ '\n' ∉ f) : u.Plain := by
  unfold User.ofFields at h
  split at h
  · simp only [Option.bind_eq_bind, Option.bind_eq_some_iff] at h
    obtain ⟨groups, -, uid, -, gid, -, state, -, caps, -, at', -, creator, -, failed, -, pw, -, h⟩ := h
    cases h
    simp only [forall_mem_cons] at hfields
    simp only [User.Plain, User.texts, forall_mem_cons]
    exact ⟨hfields.2.1, hfields.2.2.1, hfields.2.2.2.2.2.1, hfields.2.2.2.2.2.2.1, by simp⟩
  · cases h

theorem splitOn_line (h : u.Plain) : u.line.splitOn '\t' = u.fields :=
  splitOn_intercalate '\t' (notMem_fields (.inl rfl) fun text htext => (h text htext).1)
    (by simp [User.fields])

theorem notMem_feed_line (h : u.Plain) : '\n' ∉ u.line := by
  intro hmem
  rcases mem_intercalate_singleton hmem with htab | ⟨f, hf, hmem⟩
  · exact absurd htab (by decide)
  · exact notMem_fields (.inr rfl) (fun text htext => (h text htext).2) f hf hmem

theorem line_eq (u : User) :
    u.line = ['\t'].intercalate u.fields.dropLast ++ '\t' :: encodePw u.password := by
  simp [User.line, User.fields, List.intercalate]

theorem line_ne_nil (u : User) : u.line ≠ [] := by simp [line_eq]

theorem stripCr_line (u : User) : stripCr u.line = u.line := by
  rw [line_eq, stripCr_append_cons _ _ (by decide), stripCr_eq_self]
  exact notMem_encodePw (by decide) (by decide) (by decide) _

/-! ## The store -/

theorem loadUsers_lines (h : ∀ u ∈ users, u.Plain) (hdb : db'.users = db.users ++ users) :
    loadUsers db (users.map User.line) = .ok db' := by
  induction users generalizing db with
  | nil =>
    have : db = db' := UserDb.ext' (by simpa using hdb.symm)
    rw [this]
    rfl
  | cons u users ih =>
    have hnew : db.exists u.username = false := by
      have hdistinct := db'.distinct
      rw [hdb, map_append, map_cons, nodup_middle, nodup_cons] at hdistinct
      rw [UserDb.exists_eq_false_iff]
      exact fun hmem => hdistinct.1 (mem_append_left _ hmem)
    have hplain := forall_mem_cons.mp h
    rw [map_cons, loadUsers, if_neg (by simpa using line_ne_nil u), splitOn_line hplain.1,
      ofFields_fields]
    dsimp only
    rw [UserDb.insert_of_new hnew]
    exact ih hplain.2 (by simp [hdb])

theorem serializeDb_eq (db : UserDb) :
    serializeDb db = (header :: db.users.map User.line).flatMap (· ++ ['\n']) := by
  simp [serializeDb, flatMap_map]

theorem deserializeDb_serializeDb (h : ∀ u ∈ db.users, u.Plain) :
    deserializeDb (serializeDb db) = .ok db := by
  have hline (u : User) (hu : u ∈ db.users) :
      (u.line.splitOn '\n').map stripCr = [u.line] := by
    rw [splitOn_eq_singleton (notMem_feed_line (h u hu)), map_singleton, stripCr_line]
  have hheader : (header.splitOn '\n').map stripCr = [header] := by decide
  have hlines : lines (serializeDb db) = header :: db.users.map User.line := by
    rw [serializeDb_eq, lines_flatMap, flatMap_cons, map_append, hheader,
      map_flatMap, flatMap_map, flatMap_congr hline, ← map_eq_flatMap]
    rfl
  rw [deserializeDb, hlines]
  dsimp only
  rw [if_pos rfl]
  exact loadUsers_lines h rfl

theorem plain_of_loadUsers {lines : List Str} (hload : loadUsers db lines = .ok db')
    (hlines : ∀ line ∈ lines, '\n' ∉ line) (h : ∀ u ∈ db.users, u.Plain) :
    ∀ u ∈ db'.users, u.Plain := by
  induction lines generalizing db with
  | nil =>
    cases hload
    exact h
  | cons line lines ih =>
    rw [forall_mem_cons] at hlines
    rw [loadUsers] at hload
    split at hload
    · exact ih hload hlines.2 h
    split at hload
    · cases hload
    rename_i user huser
    split at hload
    · cases hload
    rename_i next hnext
    refine ih hload hlines.2 fun u hu => ?_
    rw [(UserDb.insert_ok hnext).2, mem_append, mem_singleton] at hu
    rcases hu with hu | rfl
    · exact h u hu
    exact plain_of_ofFields huser fun f hf =>
      ⟨fun hc => (mem_of_mem_splitOn hf hc).2 rfl, fun hc => hlines.1 (mem_of_mem_splitOn hf hc).1⟩

theorem plain_of_deserializeDb (h : deserializeDb data = .ok db) : ∀ u ∈ db.users, u.Plain := by
  unfold deserializeDb at h
  split at h
  · cases h
  rename_i first lines hlines
  split at h
  · refine plain_of_loadUsers h (fun line hline => ?_) (by simp [UserDb.new])
    exact notMem_of_mem_lines (hlines ▸ mem_cons_of_mem _ hline)
  · cases h

/-- A store of accounts with valid names is read back as it was exactly when no display name,
home or shell contains a tab or a line feed. -/
theorem deserializeDb_serializeDb_iff {db : UserDb}
    (hnames : ∀ u ∈ db.users, validateUsername u.username = .ok ()) :
    deserializeDb (serializeDb db) = .ok db ↔
      ∀ u ∈ db.users, ∀ text ∈ [u.displayName, u.home, u.shell], '\t' ∉ text ∧ '\n' ∉ text := by
  constructor
  · intro h u hu text htext
    exact plain_of_deserializeDb h u hu text (mem_cons_of_mem _ htext)
  · intro h
    refine deserializeDb_serializeDb fun u hu => forall_mem_cons.mpr ⟨?_, h u hu⟩
    exact ⟨notMem_of_validateUsername (hnames u hu) (b := 9) (by decide) (by decide),
      notMem_of_validateUsername (hnames u hu) (b := 10) (by decide) (by decide)⟩

/-! ## The account tools -/

def bootParams : Params := ⟨256, 1, 1, 32⟩

/-- What the kernel supplies to a tool: the password hash, random salts and the time. -/
structure Supply where
  argon2id : Argon2id
  salt : Nat → Bytes
  now : Timestamp

def buildUser (supply : Supply) (draw : Nat) (uid : UserId) (name display : Str)
    (primary : GroupId) (groups : List GroupId) (ownCaps : Caps) (password : Str)
    (createdBy : UserId) : User where
  uid := uid
  username := name
  displayName := display
  primaryGid := primary
  groups := groups
  home := "/home/".toList ++ name
  shell := "/bin/eurosh".toList
  state := .active
  caps := ownCaps
  createdAt := supply.now
  createdBy := createdBy
  password := .hashPassword supply.argon2id password.bytes (supply.salt draw) bootParams supply.now
  tpmEnrolled := false
  failedLogins := 0

def rootUser (supply : Supply) : User :=
  { buildUser supply 0 root "root".toList "System Administrator".toList groupWheel [] 0
      "*locked*".toList root with
    state := .locked .adminLock supply.now root }

def installDb (supply : Supply) (username display password : Str) : Except Str Str := do
  validateUsername username
  (validatePassword password {}).mapError PolicyError.message
  let users ← (UserDb.new.insert (rootUser supply)).mapError fun _ => "could not create root".toList
  let display := if (trim display).isEmpty then username else display
  let first := buildUser supply 1 firstRegular username display groupUsers [groupWheel, groupNet]
    capFile password root
  let users ← (users.insert first).mapError fun _ => "could not create the user".toList
  return serializeDb users

/-- A hash that gives back the password, cut or filled to the length of the tag. -/
def plainSupply : Supply where
  argon2id password _ params := (password ++ List.replicate params.tagLen 0).take params.tagLen
  salt draw := [UInt8.ofNat draw]
  now := 7

def aliceUsers (display : Str) : List User :=
  [rootUser plainSupply, buildUser plainSupply 1 firstRegular "alice".toList display groupUsers
    [groupWheel, groupNet] capFile "Correct-Horse-9!".toList root]

def aliceDb (display : Str) : UserDb where
  users := aliceUsers display
  distinct := show ["root".toList, "alice".toList].Nodup by decide

theorem validateUsername_aliceDb (display : Str) :
    ∀ u ∈ (aliceDb display).users, validateUsername u.username = .ok () := by
  have hroot : validateUsername "root".toList = .ok () := by decide
  have halice : validateUsername "alice".toList = .ok () := by decide
  simp only [aliceDb, aliceUsers, forall_mem_cons]
  exact ⟨hroot, halice, by simp⟩

theorem deserializeDb_serializeDb_iff_alice :
    deserializeDb (serializeDb (aliceDb "Alice Smith".toList)) = .ok (aliceDb "Alice Smith".toList) :=
  (deserializeDb_serializeDb_iff (validateUsername_aliceDb _)).mpr (by decide +kernel)

/-- A display name with a tab makes the installed store unreadable. -/
theorem installDb_tab_unreadable :
    installDb plainSupply "alice".toList "Alice\tSmith".toList "Correct-Horse-9!".toList =
        .ok (serializeDb (aliceDb "Alice\tSmith".toList)) ∧
      (∀ u ∈ (aliceDb "Alice\tSmith".toList).users, validateUsername u.username = .ok ()) ∧
      deserializeDb (serializeDb (aliceDb "Alice\tSmith".toList)) = .error .badField := by
  refine ⟨by decide +kernel, validateUsername_aliceDb _, by decide +kernel⟩

end EuroOS.Euroid
