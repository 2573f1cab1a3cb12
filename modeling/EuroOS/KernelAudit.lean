import EuroOS.ByteCodec
import EuroOS.HashChain

/-!
# The kernel audit log

Entries are numbered and chained from an anchor, and a rotated log goes on from
the head of its archive.  Entries that keep their hashes pass the check exactly
when they are a beginning of the log: the check compares neither the number of
entries nor the last hash with anything outside the entries.
-/

namespace EuroOS.Euroaudit

open HashChain HashChain

abbrev Digest := Vector UInt8 32

inductive Kind
  | boot
  | login
  | logout
  | capDenied
  | execve
  | connection
  | vaultAccess
  | immutableSet
  | policyViolation
  | agentTool
  deriving DecidableEq

def Kind.tag : Kind → UInt8
  | .boot => 0
  | .login => 1
  | .logout => 2
  | .capDenied => 3
  | .execve => 4
  | .connection => 5
  | .vaultAccess => 6
  | .immutableSet => 7
  | .policyViolation => 8
  | .agentTool => 9

theorem Kind.tag_injective : Function.Injective Kind.tag := by
  intro k k' h
  cases k <;> cases k' <;> first | rfl | exact absurd h (by decide)

structure Event where
  seq : UInt64
  ts : UInt64
  kind : Kind
  subject : Str
  deriving DecidableEq

structure Entry extends Event where
  hash : Digest
  deriving DecidableEq

def chainInput (prev : Digest) (e : Event) : Bytes :=
  prev.toList ++ le 8 e.seq.toNat ++ le 8 e.ts.toNat ++ [e.kind.tag] ++
    le 4 e.subject.bytes.length ++ e.subject.bytes

def chainHash (sha256 : Bytes → Digest) (prev : Digest) (e : Event) : Digest :=
  sha256 (chainInput prev e)

structure AuditLog where
  entries : List Entry
  anchor : Digest
  nextSeq : UInt64
  deriving DecidableEq

namespace AuditLog

variable (sha256 : Bytes → Digest)

def new : AuditLog := ⟨[], Vector.replicate 32 0, 0⟩

def continued (anchor : Digest) (nextSeq : UInt64) : AuditLog := ⟨[], anchor, nextSeq⟩

def head (log : AuditLog) : Digest := (log.entries.getLast?.map Entry.hash).getD log.anchor

def append (log : AuditLog) (ts : UInt64) (kind : Kind) (subject : Str) : AuditLog :=
  let event : Event := ⟨log.nextSeq, ts, kind, subject⟩
  { log with
    entries := log.entries ++ [⟨event, chainHash sha256 log.head event⟩]
    nextSeq := log.nextSeq + 1 }

/-- Check the entries from position `i` on against the first number and the hash so far. -/
def verifyFrom (first : UInt64) : Digest → Nat → List Entry → Bool
  | _, _, [] => true
  | prev, i, e :: entries =>
    if e.seq ≠ first + UInt64.ofNat i then false
    else if chainHash sha256 prev e.toEvent ≠ e.hash then false
    else verifyFrom first (chainHash sha256 prev e.toEvent) (i + 1) entries

def verify (log : AuditLog) : Bool :=
  match log.entries with
  | [] => true
  | e :: entries => verifyFrom sha256 e.seq log.anchor 0 (e :: entries)

def rotate (log : AuditLog) (max : Nat) : Option AuditLog :=
  if log.entries.length ≤ max then none else some (continued log.head log.nextSeq)

inductive Reached : AuditLog → Prop
  | new : Reached new
  | append {log : AuditLog} (h : Reached log) (ts : UInt64) (kind : Kind) (subject : Str) :
      Reached (append sha256 log ts kind subject)
  | rotate {log next : AuditLog} (h : Reached log) {max : Nat} (hnext : rotate log max = some next) :
      Reached next

def appendAll (log : AuditLog) : List (UInt64 × Kind × Str) → AuditLog
  | [] => log
  | (ts, kind, subject) :: events => appendAll (append sha256 log ts kind subject) events

/-! ## The check as numbering and chain -/

def record (e : Entry) : Event × Digest := (e.toEvent, e.hash)

def Numbered (first : UInt64) : Nat → List Entry → Prop
  | _, [] => True
  | i, e :: entries => e.seq = first + UInt64.ofNat i ∧ Numbered first (i + 1) entries

variable {sha256} {first : UInt64} {prev : Digest} {i : Nat} {entries entries' : List Entry}

theorem record_injective : Function.Injective record := by
  rintro ⟨event, hash⟩ ⟨event', hash'⟩ h
  obtain ⟨rfl, rfl⟩ := Prod.mk.inj h
  rfl

theorem verifyFrom_iff : verifyFrom sha256 first prev i entries = true ↔
    Numbered first i entries ∧ Linked (chainHash sha256) prev (entries.map record) := by
  induction entries generalizing prev i with
  | nil => simp [verifyFrom, Numbered, Linked]
  | cons e entries ih =>
    rw [verifyFrom, Numbered, List.map_cons, Linked]
    by_cases hseq : e.seq = first + UInt64.ofNat i
    · by_cases hhash : chainHash sha256 prev e.toEvent = e.hash
      · rw [if_neg (by simpa using hseq), if_neg (by simpa using hhash), ih, hhash]
        exact ⟨fun h => ⟨⟨hseq, h.1⟩, hhash.symm, h.2⟩, fun h => ⟨h.1.2, h.2.2⟩⟩
      · rw [if_neg (by simpa using hseq), if_pos hhash]
        exact ⟨fun h => (by cases h), fun h => absurd h.2.1.symm hhash⟩
    · rw [if_pos hseq]
      exact ⟨fun h => (by cases h), fun h => absurd h.1.1 hseq⟩

theorem Numbered.first_eq (h : Numbered first 0 (e :: entries)) : first = e.seq := by
  simpa using h.1.symm

theorem numbered_append : Numbered first i (entries ++ entries') ↔
    Numbered first i entries ∧ Numbered first (i + entries.length) entries' := by
  induction entries generalizing i with
  | nil => simp [Numbered]
  | cons e entries ih =>
    rw [List.cons_append, Numbered, Numbered, ih, List.length_cons, and_assoc,
      Nat.add_right_comm, Nat.add_assoc]

theorem numbered_add (k : Nat) :
    Numbered (first + UInt64.ofNat k) i entries ↔ Numbered first (k + i) entries := by
  induction entries generalizing i with
  | nil => simp [Numbered]
  | cons e entries ih =>
    rw [Numbered, Numbered, ih, UInt64.ofNat_add, ← UInt64.add_assoc, Nat.add_assoc]

theorem verify_of_numbered (hseq : Numbered first 0 log.entries)
    (hlinked : Linked (chainHash sha256) log.anchor (log.entries.map record)) :
    verify sha256 log = true := by
  unfold verify
  split
  · rfl
  rename_i e entries hentries
  rw [hentries] at hseq hlinked
  exact verifyFrom_iff.mpr ⟨hseq.first_eq ▸ hseq, hlinked⟩

theorem linked_of_verify (h : verify sha256 log = true) :
    Linked (chainHash sha256) log.anchor (log.entries.map record) := by
  unfold verify at h
  split at h
  · rename_i hentries
    rw [hentries]
    trivial
  · rename_i e entries hentries
    rw [hentries]
    exact (verifyFrom_iff.mp h).2

theorem chainInput_inj (h : chainInput prev e = chainInput prev' e') : prev = prev' ∧ e = e' := by
  obtain ⟨h, hsubject⟩ := List.append_inj h (by simp)
  obtain ⟨h, -⟩ := List.append_inj h (by simp)
  obtain ⟨h, hkind⟩ := List.append_inj h (by simp)
  obtain ⟨h, hts⟩ := List.append_inj h (by simp)
  obtain ⟨hprev, hseq⟩ := List.append_inj h (by simp)
  have hkinds : e.kind = e'.kind := Kind.tag_injective (List.singleton_inj.mp hkind)
  refine ⟨Vector.toList_inj.mp hprev, ?_⟩
  rw [Event.mk.injEq]
  exact ⟨le_uint64_inj hseq, le_uint64_inj hts, hkinds, Str.bytes_injective hsubject⟩

/-! ## Reached logs -/

/-- The entries count up from `first` and are chained from the anchor. -/
structure Intact (sha256 : Bytes → Digest) (first : UInt64) (log : AuditLog) : Prop where
  numbered : Numbered first 0 log.entries
  linked : Linked (chainHash sha256) log.anchor (log.entries.map record)
  next : log.nextSeq = first + UInt64.ofNat log.entries.length

theorem head_eq (log : AuditLog) : log.head = endHash log.anchor (log.entries.map record) := by
  simp [head, endHash, List.getLast?_map, record, Function.comp_def]

theorem intact_continued (sha256 : Bytes → Digest) (anchor : Digest) (nextSeq : UInt64) :
    Intact sha256 nextSeq (continued anchor nextSeq) :=
  ⟨trivial, trivial, by simp [continued]⟩

theorem Intact.append (h : Intact sha256 first log) (ts : UInt64) (kind : Kind) (subject : Str) :
    Intact sha256 first (append sha256 log ts kind subject) where
  numbered := numbered_append.mpr ⟨h.numbered, by simp [Numbered, h.next]⟩
  linked := by
    rw [AuditLog.append, List.map_append, List.map_singleton]
    exact (linked_concat _ _).mpr ⟨h.linked, by dsimp only; rw [← head_eq]; rfl⟩
  next := by simp [AuditLog.append, h.next, UInt64.ofNat_add, UInt64.add_assoc]

theorem Intact.appendAll (h : Intact sha256 first log) (events : List (UInt64 × Kind × Str)) :
    Intact sha256 first (appendAll sha256 log events) := by
  induction events generalizing log with
  | nil => exact h
  | cons event events ih => exact ih (h.append event.1 event.2.1 event.2.2)

@[simp] theorem anchor_appendAll (log : AuditLog) (events : List (UInt64 × Kind × Str)) :
    (appendAll sha256 log events).anchor = log.anchor := by
  induction events generalizing log with
  | nil => rfl
  | cons event events ih => exact ih _

theorem rotate_eq_some {next : AuditLog} {max : Nat} (h : rotate log max = some next) :
    next = continued log.head log.nextSeq := by
  unfold rotate at h
  split at h
  · cases h
  · exact (Option.some.inj h).symm

theorem Reached.intact (h : Reached sha256 log) : ∃ first, Intact sha256 first log := by
  induction h with
  | new => exact ⟨0, intact_continued _ _ 0⟩
  | append h ts kind subject ih =>
    obtain ⟨first, hintact⟩ := ih
    exact ⟨first, hintact.append ts kind subject⟩
  | rotate h hnext ih => exact ⟨_, rotate_eq_some hnext ▸ intact_continued _ _ _⟩

theorem verify_continuation {next : AuditLog} (h : Intact sha256 first log) {max : Nat}
    (hnext : rotate log max = some next) (events : List (UInt64 × Kind × Str)) :
    verify sha256 { log with entries := log.entries ++ (appendAll sha256 next events).entries } =
      true := by
  have hcont := (intact_continued sha256 log.head log.nextSeq).appendAll events
  rw [← rotate_eq_some hnext] at hcont
  have hnumbered : Numbered first 0 (log.entries ++ (appendAll sha256 next events).entries) := by
    refine numbered_append.mpr ⟨h.numbered, ?_⟩
    have hnumbers := hcont.numbered
    rw [h.next, numbered_add] at hnumbers
    simpa using hnumbers
  have hanchor : (appendAll sha256 next events).anchor = log.head := by
    rw [anchor_appendAll, rotate_eq_some hnext, continued]
  have hlinked := hcont.linked
  rw [hanchor, head_eq] at hlinked
  refine verify_of_numbered hnumbered ?_
  rw [List.map_append]
  exact (linked_append _ _).mpr ⟨h.linked, hlinked⟩

/-! ## Altered logs -/

def messages (log : AuditLog) : List Bytes :=
  (inputs log.anchor (log.entries.map record)).map fun x => chainInput x.1 x.2

theorem binding_of_messages (hinj : Set.InjOn sha256 {m | m ∈ messages log ++ messages log'})
    (hfresh : ∀ m ∈ messages log ++ messages log', sha256 m ≠ log.anchor)
    (hanchor : log'.anchor = log.anchor) :
    Binding (chainHash sha256) log.anchor
      (inputs log.anchor (log.entries.map record) ++
        inputs log.anchor (log'.entries.map record)) := by
  have hmessage {x : Digest × Event}
      (hx : x ∈ inputs log.anchor (log.entries.map record) ++
        inputs log.anchor (log'.entries.map record)) :
      chainInput x.1 x.2 ∈ messages log ++ messages log' := by
    rw [messages, messages, hanchor, ← List.map_append]
    exact List.mem_map.mpr ⟨x, hx, rfl⟩
  refine ⟨fun x hx y hy hlink => ?_, fun x hx => hfresh _ (hmessage hx)⟩
  obtain ⟨hprev, hevent⟩ := chainInput_inj (hinj (hmessage hx) (hmessage hy) hlink)
  exact Prod.ext hprev hevent

theorem Intact.verify_iff_isPrefix (h : Intact sha256 first log)
    (hkept : ∀ e' ∈ entries', ∃ e ∈ log.entries, e.hash = e'.hash)
    (hinj : Set.InjOn sha256 {m | m ∈ messages log ++ messages { log with entries := entries' }})
    (hfresh : ∀ m ∈ messages log ++ messages { log with entries := entries' },
      sha256 m ≠ log.anchor) :
    verify sha256 { log with entries := entries' } = true ↔ entries' <+: log.entries := by
  constructor
  · intro hverify
    have hlinked : Linked (chainHash sha256) log.anchor (entries'.map record) :=
      linked_of_verify hverify
    have hdigests : ∀ r' ∈ entries'.map record, ∃ r ∈ log.entries.map record, r.2 = r'.2 := by
      intro r' hr'
      obtain ⟨e', he', rfl⟩ := List.mem_map.mp hr'
      obtain ⟨e, he, hhash⟩ := hkept e' he'
      exact ⟨record e, List.mem_map.mpr ⟨e, he, rfl⟩, hhash⟩
    have hbinding : Binding (chainHash sha256) log.anchor
        (inputs log.anchor (log.entries.map record) ++
          inputs log.anchor (entries'.map record)) :=
      binding_of_messages hinj hfresh rfl
    have hrecords := isPrefix_of_digests h.linked hlinked hbinding hdigests
    rw [List.prefix_iff_eq_take, ← List.map_take, List.length_map] at hrecords
    exact List.prefix_iff_eq_take.mpr (List.map_injective_iff.mpr record_injective hrecords)
  · rintro ⟨rest, hentries⟩
    have hnumbered := h.numbered
    have hlinked := h.linked
    rw [← hentries] at hnumbered hlinked
    rw [List.map_append] at hlinked
    exact verify_of_numbered (numbered_append.mp hnumbered).1 ((linked_append _ _).mp hlinked).1

/-- Entries that keep hashes of a reached log are accepted only as the whole log, unless they are
the log with entries removed at its end; archives and their continuations are one chain. -/
theorem verify_detects_iff {log : AuditLog} (h : Reached sha256 log)
    (hkept : ∀ e' ∈ entries', ∃ e ∈ log.entries, e.hash = e'.hash)
    (hinj : Set.InjOn sha256 {m | m ∈ messages log ++ messages { log with entries := entries' }})
    (hfresh : ∀ m ∈ messages log ++ messages { log with entries := entries' },
      sha256 m ≠ log.anchor) :
    ((verify sha256 { log with entries := entries' } = true → entries' = log.entries) ↔
        (entries' <+: log.entries → entries' = log.entries)) ∧
      ∀ max next events, rotate log max = some next →
        verify sha256
          { log with entries := log.entries ++ (appendAll sha256 next events).entries } = true := by
  obtain ⟨first, hintact⟩ := h.intact
  rw [hintact.verify_iff_isPrefix hkept hinj hfresh]
  exact ⟨Iff.rfl, fun max next events hnext => verify_continuation hintact hnext events⟩

def sampleLog : AuditLog :=
  appendAll HashChain.checksum new
    [(100, .boot, "cold boot".toList), (101, .login, "alice tty1".toList),
     (102, .execve, "/bin/curl".toList)]

theorem reached_appendAll (h : Reached sha256 log) (events : List (UInt64 × Kind × Str)) :
    Reached sha256 (appendAll sha256 log events) := by
  induction events generalizing log with
  | nil => exact h
  | cons event events ih => exact ih (h.append event.1 event.2.1 event.2.2)

def withoutLogin : List Entry := sampleLog.entries.eraseIdx 1

theorem checksum_withoutLogin :
    ∀ m ∈ messages sampleLog ++ messages { sampleLog with entries := withoutLogin },
      HashChain.checksum m ≠ sampleLog.anchor ∧
        ∀ m' ∈ messages sampleLog ++ messages { sampleLog with entries := withoutLogin },
          HashChain.checksum m = HashChain.checksum m' → m = m' := by decide +kernel

theorem verify_detects_iff_withoutLogin : withoutLogin ≠ sampleLog.entries ∧
    (verify HashChain.checksum { sampleLog with entries := withoutLogin } = true →
      withoutLogin = sampleLog.entries) :=
  ⟨by decide +kernel, (verify_detects_iff (reached_appendAll .new _) (by decide +kernel)
    (fun m hm m' hm' => (checksum_withoutLogin m hm).2 m' hm')
    fun m hm => (checksum_withoutLogin m hm).1).1.mpr (by decide +kernel)⟩

/-- The log passes the check without its last entry. -/
theorem verify_without_last :
    verify HashChain.checksum { sampleLog with entries := sampleLog.entries.dropLast } = true ∧
      (∀ e' ∈ sampleLog.entries.dropLast, ∃ e ∈ sampleLog.entries, e.hash = e'.hash) ∧
      sampleLog.entries.dropLast ≠ sampleLog.entries := by decide +kernel

end AuditLog

end EuroOS.Euroaudit
