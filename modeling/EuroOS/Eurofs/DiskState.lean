import EuroOS.Eurofs.Superblock

/-!
# In-memory state, allocator and quota counters

The state of a mounted volume apart from the device, the object map and the
extents hint: what the allocator, the quota counters and the caches work on.
The abstract volume of a later module keeps the same record, so these functions
are shared by both levels.
-/

namespace EuroOS

open List

/-- State transformers that can fail; the state reached so far is kept. -/
def Action (σ α : Type) := σ → Except Fail α × σ

namespace Action

variable {σ τ α β : Type}

def pure (a : α) : Action σ α := fun s => (.ok a, s)

def bind (x : Action σ α) (f : α → Action σ β) : Action σ β := fun s =>
  match x s with
  | (.ok a, s') => f a s'
  | (.error e, s') => (.error e, s')

instance : Monad (Action σ) where
  pure := Action.pure
  bind := Action.bind

def fail (e : FsError) : Action σ α := fun s => (.error (.err e), s)

def get : Action σ σ := fun s => (.ok s, s)

def modify (f : σ → σ) : Action σ Unit := fun s => (.ok (), f s)

def read (f : σ → Except Fail α) : Action σ α := fun s => (f s, s)

@[simp] theorem pure_apply (a : α) (s : σ) : (Pure.pure a : Action σ α) s = (.ok a, s) := rfl

theorem bind_apply (x : Action σ α) (f : α → Action σ β) (s : σ) :
    (x >>= f) s = match x s with | (.ok a, s') => f a s' | (.error e, s') => (.error e, s') := rfl

@[simp] theorem fail_apply (e : FsError) (s : σ) : (fail e : Action σ α) s = (.error (.err e), s) :=
  rfl

@[simp] theorem get_apply (s : σ) : (get : Action σ σ) s = (.ok s, s) := rfl

@[simp] theorem modify_apply (f : σ → σ) (s : σ) : modify f s = (.ok (), f s) := rfl

@[simp] theorem read_apply (f : σ → Except Fail α) (s : σ) : read f s = (f s, s) := rfl

variable {x : Action σ α}

theorem bind_of_ok (h : x s = (.ok a, s')) (f : α → Action σ β) : (x >>= f) s = f a s' := by
  rw [bind_apply, h]

theorem bind_of_error (h : x s = (.error e, s')) (f : α → Action σ β) :
    (x >>= f) s = (.error e, s') := by rw [bind_apply, h]

theorem get_bind (f : σ → Action σ α) (s : σ) : (get >>= f) s = f s s := rfl

theorem modify_bind (g : σ → σ) (f : Unit → Action σ α) (s : σ) : (modify g >>= f) s = f () (g s) :=
  rfl

theorem read_bind (s : σ) (h : g s = .ok a) (f : α → Action σ β) : (read g >>= f) s = f a s :=
  bind_of_ok (by rw [read_apply, h]) f

theorem read_bind_of_error (s : σ) (h : g s = .error e) (f : α → Action σ β) :
    (read g >>= f) s = (.error e, s) :=
  bind_of_error (by rw [read_apply, h]) f

theorem bind_eq_ok {f : α → Action σ β} {s s' : σ} {b : β} (h : (x >>= f) s = (.ok b, s')) :
    ∃ a middle, x s = (.ok a, middle) ∧ f a middle = (.ok b, s') := by
  rw [bind_apply] at h
  cases hx : x s with
  | mk result middle =>
    rw [hx] at h
    cases result with
    | ok a => exact ⟨a, middle, rfl, h⟩
    | error e => cases h

theorem bind_keeps {P : σ → σ → Prop} (htrans : ∀ a b c, P a b → P b c → P a c)
    {f : α → Action σ β} (hx : ∀ s, P s (x s).2) (hf : ∀ a s, P s (f a s).2) (s : σ) :
    P s ((x >>= f) s).2 := by
  have hfirst := hx s
  rw [bind_apply]
  generalize x s = outcome at hfirst
  obtain ⟨result, s'⟩ := outcome
  cases result with
  | ok a => exact htrans s s' _ hfirst (hf a s')
  | error e => exact hfirst

/-- Started in a state of `pre`, the action ends with an answer in `post` or with an
error in `err`; nothing is said about a machine that stops. -/
def Ensures (pre : σ → Prop) (x : Action σ α) (post : α → σ → Prop) (err : σ → Prop) : Prop :=
  ∀ s, pre s →
    match x s with
    | (.ok a, s') => post a s'
    | (.error (.err _), s') => err s'
    | (.error (.stop _), _) => True

namespace Ensures

variable {pre : σ → Prop} {mid post : α → σ → Prop} {err : σ → Prop} {x : Action σ α}

variable {last : β → σ → Prop}

theorem bind (hx : Ensures pre x mid err) (hf : ∀ a, Ensures (mid a) (f a) last err) :
    Ensures pre (x >>= f) last err := by
  intro s hs
  have hfirst := hx s hs
  rw [bind_apply]
  generalize x s = outcome at hfirst
  obtain ⟨result, s'⟩ := outcome
  cases result with
  | ok a => exact hf a s' hfirst
  | error e =>
    cases e with
    | err e => exact hfirst
    | stop reason => trivial

theorem get_bind {f : σ → Action σ α} (hf : ∀ s, pre s → Ensures (· = s) (f s) post err) :
    Ensures pre (get >>= f) post err := by
  intro s hs
  rw [bind_of_ok (get_apply s)]
  exact hf s hs s rfl

theorem known_bind (hx : x s = (.ok a, s')) (hf : Ensures (· = s') (f a) last err) :
    Ensures (· = s) (x >>= f) last err := by
  rintro _ rfl
  rw [bind_of_ok hx]
  exact hf s' rfl

theorem read_bind {f : σ → Except Fail α} {next : α → Action σ β} {last : β → σ → Prop}
    (herr : ∀ s e, pre s → f s = .error (.err e) → err s)
    (hnext : ∀ a, Ensures (fun s => pre s ∧ f s = .ok a) (next a) last err) :
    Ensures pre (read f >>= next) last err := by
  intro s hs
  rw [bind_apply, read_apply]
  cases hread : f s with
  | ok a => exact hnext a s ⟨hs, hread⟩
  | error e =>
    cases e with
    | err e => exact herr s e hs hread
    | stop reason => trivial

theorem strengthen (hx : Ensures pre x post err) (hpre : ∀ s, pre' s → pre s) :
    Ensures pre' x post err :=
  fun s hs => hx s (hpre s hs)

theorem weaken (hx : Ensures pre x post err) (hpost : ∀ a s, post a s → post' a s) :
    Ensures pre x post' err := by
  intro s hs
  have hout := hx s hs
  generalize x s = outcome at hout
  obtain ⟨result, s'⟩ := outcome
  cases result with
  | ok a => exact hpost a s' hout
  | error e => cases e <;> exact hout

end Ensures

end Action

structure FsState where
  sb : EuroFsSuperblock
  /-- One flag per block: in use. -/
  used : List Bool
  nextOid : Oid
  now : UInt64
  snapshots : List SnapshotEntry
  nextSnapId : UInt64
  pendingTrim : List Nat
  pathCache : BTreeMap Str Oid
  ctxUid : UInt32
  quotaLimits : BTreeMap UInt32 UInt64
  usage : BTreeMap UInt32 Nat

def checkedSucc (n : UInt64) : Except Fail UInt64 :=
  if n.toNat + 1 < 2 ^ 64 then .ok (n + 1) else .error (.stop .halted)

/-! ## The allocator -/

def markRange (used : List Bool) (start count : Nat) : List Bool :=
  (List.range count).foldl (fun u k => u.set (start + k) true) used

def markExtents (used : List Bool) (extents : List (Nat × Nat)) : List Bool :=
  extents.foldl (fun u extent => markRange u extent.1 extent.2) used

def freeCount (used : List Bool) : Nat := (used.filter fun u => !u).length

def firstFree (used : List Bool) : Option Nat := used.findIdx? fun u => !u

def freeRunFrom (used : List Bool) (count : Nat) : Nat → Nat → Option Nat
  | 0, _ => none
  | fuel + 1, i =>
    if i + count ≤ used.length then
      match (List.range count).find? fun j => used.getD (i + j) false with
      | some j => freeRunFrom used count fuel (i + j + 1)
      | none => some i
    else none

def freeRun (used : List Bool) (count : Nat) : Option Nat :=
  freeRunFrom used count (used.length + 1) 0

def dataBlocksOf (inode : Inode) : Nat := (inode.extents.map Prod.snd).sum

/-- Data blocks that `len` bytes of content take: none when they fit the inode. -/
def blocksFor (len : Nat) : Nat := if len ≤ inlineCap then 0 else (len + (bs - 1)) / bs

namespace FsState

def allocBlock : Action FsState Nat := fun s =>
  match firstFree s.used with
  | some i => (.ok i, { s with used := s.used.set i true })
  | none => (.error (.err .noSpace), s)

def allocContiguous (count : Nat) : Action FsState Nat := fun s =>
  if count = 0 then (.error (.err .ioError), s)
  else
    match freeRun s.used count with
    | some i => (.ok i, { s with used := markRange s.used i count })
    | none => (.error (.err .noSpace), s)

/-- Take blocks for `len` bytes of content, one extent at most: the extent
counter on disk has 32 bits. -/
def allocData (len : Nat) : Action FsState (List (Nat × Nat)) :=
  if len ≤ inlineCap then pure []
  else if blocksFor len > 2 ^ 32 - 1 then Action.fail .noSpace
  else do
    let start ← allocContiguous (blocksFor len)
    pure [(start, blocksFor len)]

/-! ## Quota counters -/

def usageOf (s : FsState) (uid : UInt32) : Nat := s.usage[uid]?.getD 0

def usageAdd (s : FsState) (uid : UInt32) (blocks : Nat) : FsState :=
  if blocks > 0 then { s with usage := s.usage.insert uid (s.usageOf uid + blocks) } else s

def usageSub (s : FsState) (uid : UInt32) (blocks : Nat) : FsState :=
  if blocks > 0 then
    match s.usage[uid]? with
    | some u => { s with usage := s.usage.insert uid (u - blocks) }
    | none => s
  else s

def charge (s : FsState) (previous : Nat × UInt32) (uid : UInt32) (blocks : Nat) : FsState :=
  (s.usageSub previous.2 previous.1).usageAdd uid blocks

theorem usageAdd_eq (s : FsState) (uid : UInt32) (blocks : Nat) :
    ∃ usage, s.usageAdd uid blocks = { s with usage := usage } := by
  unfold usageAdd
  split
  · exact ⟨_, rfl⟩
  · exact ⟨s.usage, rfl⟩

theorem usageSub_eq (s : FsState) (uid : UInt32) (blocks : Nat) :
    ∃ usage, s.usageSub uid blocks = { s with usage := usage } := by
  unfold usageSub
  split
  · split
    · exact ⟨_, rfl⟩
    · exact ⟨s.usage, rfl⟩
  · exact ⟨s.usage, rfl⟩

theorem charge_eq (s : FsState) (previous : Nat × UInt32) (uid : UInt32) (blocks : Nat) :
    ∃ usage, s.charge previous uid blocks = { s with usage := usage } := by
  obtain ⟨credited, hsub⟩ := s.usageSub_eq previous.2 previous.1
  obtain ⟨usage, hadd⟩ := ({ s with usage := credited } : FsState).usageAdd_eq uid blocks
  exact ⟨usage, by rw [charge, hsub, hadd]⟩

/-- Whether the owner's limit admits a write that replaces `oldBlocks` of
`oldUid` by `newBlocks` of `uid`. -/
def quotaAdmits (s : FsState) (uid oldUid : UInt32) (oldBlocks newBlocks : Nat) : Bool :=
  if uid = 0 then true
  else
    match s.quotaLimits[uid]? with
    | none => true
    | some limit =>
      let base := if oldUid = uid then s.usageOf uid - oldBlocks else s.usageOf uid
      base + newBlocks ≤ limit.toNat

def snapshotEntry (s : FsState) (label : Str) (flags : UInt32) : SnapshotEntry where
  id := s.nextSnapId
  parent := s.sb.checkpointId
  timestamp := s.now
  objmapRoot := s.sb.objectMapRoot
  mapBlocks := s.sb.extentTreeRoot
  checkpointId := s.sb.checkpointId
  flags := flags
  label := label.take 28

end FsState

/-! ## What the allocator does -/

def Used (used : List Bool) (b : Nat) : Prop := used[b]? = some true

variable {used : List Bool} {i count : Nat}

theorem Used.lt (h : Used used b) : b < used.length := by
  obtain ⟨hlt, _⟩ := List.getElem?_eq_some_iff.mp h
  exact hlt

theorem used_set : Used (used.set b true) i ↔ Used used i ∨ (i = b ∧ b < used.length) := by
  unfold Used
  rw [getElem?_set]
  by_cases hib : b = i
  · subst hib
    by_cases hlt : b < used.length
    · simp [hlt]
    · simp [hlt]
  · have hne : i ≠ b := fun h => hib h.symm
    simp [hib, hne]

theorem length_markRange (used : List Bool) (start count : Nat) :
    (markRange used start count).length = used.length := by
  induction count with
  | zero => rfl
  | succ count ih =>
    rw [markRange, range_succ, foldl_append, foldl_cons, foldl_nil, length_set]
    exact ih

theorem used_markRange {start : Nat} : Used (markRange used start count) i ↔
      Used used i ∨ (start ≤ i ∧ i < start + count ∧ i < used.length) := by
  induction count with
  | zero =>
    have hnone : ¬(start ≤ i ∧ i < start + 0 ∧ i < used.length) := by omega
    simp only [hnone, or_false]
    rfl
  | succ count ih =>
    have hstep : markRange used start (count + 1) =
        (markRange used start count).set (start + count) true := by
      rw [markRange, range_succ, foldl_append, foldl_cons, foldl_nil]
      rfl
    rw [hstep, used_set, ih, length_markRange]
    constructor
    · rintro ((h | h) | h)
      · exact .inl h
      · exact .inr ⟨h.1, by omega, h.2.2⟩
      · exact .inr ⟨by omega, by omega, by omega⟩
    · rintro (h | h)
      · exact .inl (.inl h)
      · by_cases hlast : i = start + count
        · exact .inr ⟨hlast, by omega⟩
        · exact .inl (.inr ⟨h.1, by omega, h.2.2⟩)

theorem used_foldl {α : Type*} {mark : List Bool → α → List Bool} {Owns : α → Nat → Prop}
    (hlen : ∀ used x, (mark used x).length = used.length)
    (hmark : ∀ used x b, Used (mark used x) b ↔ Used used b ∨ (b < used.length ∧ Owns x b))
    (xs : List α) : (xs.foldl mark used).length = used.length ∧
      ∀ b, Used (xs.foldl mark used) b ↔ Used used b ∨ (b < used.length ∧ ∃ x ∈ xs, Owns x b) := by
  induction xs generalizing used with
  | nil => simp
  | cons x xs ih =>
    obtain ⟨hrest, hmem⟩ := @ih (mark used x)
    rw [foldl_cons]
    refine ⟨hrest.trans (hlen used x), fun b => ?_⟩
    rw [hmem b, hmark, hlen]
    simp only [mem_cons, exists_eq_or_imp, and_or_left, or_assoc]

theorem markExtents_spec (used : List Bool) (extents : List (Nat × Nat)) :
    (markExtents used extents).length = used.length ∧
      ∀ i, Used (markExtents used extents) i ↔
        Used used i ∨ (i < used.length ∧ ∃ e ∈ extents, e.1 ≤ i ∧ i < e.1 + e.2) := by
  refine used_foldl (fun used e => length_markRange used e.1 e.2) (fun used e b => ?_) extents
  rw [used_markRange, and_comm (a := b < used.length), and_assoc]

theorem firstFree_eq_some (h : firstFree used = some i) : i < used.length ∧ ¬Used used i := by
  rw [firstFree, findIdx?_eq_some_iff_getElem] at h
  obtain ⟨hlt, hfree, _⟩ := h
  refine ⟨hlt, fun hused => ?_⟩
  unfold Used at hused
  rw [getElem?_eq_getElem hlt, Option.some.injEq] at hused
  simp [hused] at hfree

theorem freeRunFrom_eq_some (h : freeRunFrom used count fuel start = some i) :
    i + count ≤ used.length ∧ ∀ j < count, ¬Used used (i + j) := by
  induction fuel generalizing start with
  | zero => simp [freeRunFrom] at h
  | succ fuel ih =>
    rw [freeRunFrom] at h
    split at h
    · rename_i hfit
      split at h
      · exact ih h
      rename_i hscan
      rw [Option.some.injEq] at h
      subst h
      refine ⟨hfit, fun j hj hused => ?_⟩
      have hfree := find?_eq_none.mp hscan j (mem_range.mpr hj)
      unfold Used at hused
      simp [getD_eq_getElem?_getD, hused] at hfree
    · simp at h

theorem freeRun_eq_some (h : freeRun used count = some i) :
    i + count ≤ used.length ∧ ∀ j < count, ¬Used used (i + j) :=
  freeRunFrom_eq_some h

namespace FsState

theorem allocBlock_cases (s : FsState) :
    allocBlock s = (.error (.err .noSpace), s) ∨
      ∃ i used, allocBlock s = (.ok i, { s with used := used }) ∧
        used.length = s.used.length ∧ (∀ b, Used s.used b → Used used b) ∧
        i < s.used.length ∧ ¬Used s.used i ∧ Used used i := by
  cases hfree : firstFree s.used with
  | none => exact .inl (by rw [allocBlock, hfree])
  | some i =>
    obtain ⟨hlt, hnot⟩ := firstFree_eq_some hfree
    refine .inr ⟨i, s.used.set i true, by rw [allocBlock, hfree], length_set, ?_, hlt,
      hnot, used_set.mpr (.inr ⟨rfl, hlt⟩)⟩
    intro b hb
    exact used_set.mpr (.inl hb)

theorem allocContiguous_cases {count : Nat} (hcount : 0 < count) (s : FsState) :
    allocContiguous count s = (.error (.err .noSpace), s) ∨
      ∃ start used, allocContiguous count s = (.ok start, { s with used := used }) ∧
        used.length = s.used.length ∧ (∀ b, Used s.used b → Used used b) ∧
        start + count ≤ s.used.length ∧
        ∀ b, start ≤ b → b < start + count → ¬Used s.used b ∧ Used used b := by
  have hne : count ≠ 0 := by omega
  cases hrun : freeRun s.used count with
  | none => exact .inl (by rw [allocContiguous, if_neg hne, hrun])
  | some start =>
    obtain ⟨hfit, hnot⟩ := freeRun_eq_some hrun
    refine .inr ⟨start, markRange s.used start count,
      by rw [allocContiguous, if_neg hne, hrun], length_markRange _ _ _, ?_, hfit, ?_⟩
    · intro b hb
      exact used_markRange.mpr (.inl hb)
    · intro b hle hlt
      refine ⟨?_, used_markRange.mpr (.inr ⟨hle, hlt, by omega⟩)⟩
      have hb := hnot (b - start) (by omega)
      rwa [Nat.add_sub_cancel' hle] at hb

theorem blocksFor_pos (h : inlineCap < len) : 0 < blocksFor len := by
  rw [blocksFor, if_neg (Nat.not_le.mpr h)]
  refine Nat.div_pos ?_ (by norm_num)
  have : 1 ≤ len := by omega
  omega

theorem allocData_cases (len : Nat) (s : FsState) :
    allocData len s = (.error (.err .noSpace), s) ∨
      (len ≤ inlineCap ∧ allocData len s = (.ok [], s)) ∨
      ∃ start used, inlineCap < len ∧ blocksFor len < 2 ^ 32 ∧
        allocData len s = (.ok [(start, blocksFor len)], { s with used := used }) ∧
        used.length = s.used.length ∧ (∀ b, Used s.used b → Used used b) ∧
        start + blocksFor len ≤ s.used.length ∧
        ∀ b, start ≤ b → b < start + blocksFor len → ¬Used s.used b ∧ Used used b := by
  by_cases hinline : len ≤ inlineCap
  · exact .inr (.inl ⟨hinline, by rw [allocData, if_pos hinline]; rfl⟩)
  by_cases hbig : blocksFor len > 2 ^ 32 - 1
  · exact .inl (by rw [allocData, if_neg hinline, if_pos hbig]; rfl)
  have hlen : inlineCap < len := Nat.not_le.mp hinline
  rcases allocContiguous_cases (blocksFor_pos hlen) s with herr | ⟨start, used, hok, hrest⟩
  · left
    rw [allocData, if_neg hinline, if_neg hbig, Action.bind_of_error herr]
  refine .inr (.inr ⟨start, used, hlen, by omega, ?_, hrest⟩)
  rw [allocData, if_neg hinline, if_neg hbig, Action.bind_of_ok hok]
  rfl

end FsState

end EuroOS
