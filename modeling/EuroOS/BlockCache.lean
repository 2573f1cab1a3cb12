import EuroOS.Interleaving
import EuroOS.ByteCodec

/-!
# The concurrent block cache

A write-through cache of block slots over a device.  `read_block` looks for a hit
under the read lock, and on a miss reads the device under its own lock before it
places the block under the write lock; `write_block` writes the device and then
updates or fills a slot.  So calls can meet the device and the slots in different
orders.
-/

namespace EuroOS

open List Function World

inductive BlockError
  | outOfBounds
  | ioError
  | notAligned
  deriving DecidableEq

namespace BlockCache

structure Slot where
  lba : UInt64
  data : Bytes
  valid : Bool
  dirty : Bool
  refbit : Bool
  deriving DecidableEq

/-- The device behind the cache.  A request that fails leaves it unchanged. -/
structure Backing where
  blockSize : Nat
  blockCount : Nat
  block : UInt64 → Bytes

namespace Backing

def readBlock (dev : Backing) (fails : Bool) (lba : UInt64) : Except BlockError Bytes :=
  if dev.blockCount ≤ lba.toNat then .error .outOfBounds
  else if fails then .error .ioError
  else .ok (dev.block lba)

def writeBlock (dev : Backing) (fails : Bool) (lba : UInt64) (data : Bytes) :
    Except BlockError Backing :=
  if dev.blockCount ≤ lba.toNat then .error .outOfBounds
  else if data.length ≠ dev.blockSize then .error .notAligned
  else if fails then .error .ioError
  else .ok { dev with block := update dev.block lba data }

end Backing

structure State where
  dev : Backing
  slots : List Slot
  hand : Nat

def fresh (dev : Backing) (capacity : Nat) : State where
  dev := dev
  slots := List.replicate (max capacity 1) ⟨UInt64.ofNat (2 ^ 64 - 1), [], false, false, false⟩
  hand := 0

def indexOf (slots : List Slot) (lba : UInt64) : Option Nat :=
  slots.findIdx? fun s => s.valid && s.lba = lba

def touch (slots : List Slot) (i : Nat) : List Slot :=
  slots.modify i fun s => { s with refbit := true }

/-- The sweep of the clock hand: a slot with its reference bit set gets a second
chance. -/
def sweep : Nat → List Slot → Nat → Option (Nat × List Slot × Nat)
  | 0, _, _ => none
  | fuel + 1, slots, hand =>
    if slots[hand]?.any Slot.refbit then
      sweep fuel (slots.modify hand fun s => { s with refbit := false })
        ((hand + 1) % slots.length)
    else some (hand, slots, (hand + 1) % slots.length)

/-- The slot to give up; an empty one first.  After one round of the sweep every
reference bit is clear. -/
def evictIndex (slots : List Slot) (hand : Nat) : Option (Nat × List Slot × Nat) :=
  match slots.findIdx? fun s => !s.valid with
  | some i => some (i, slots, hand)
  | none => sweep (slots.length + 1) slots hand

inductive Call
  | read (lba : UInt64)
  | write (lba : UInt64) (data : Bytes)
  deriving DecidableEq

/-- The sections: the hit lookup, the device read and the slot insertion of a
miss, the device write and the slot update of a write. -/
inductive Point
  | lookup (lba : UInt64)
  | load (lba : UInt64)
  | place (lba : UInt64) (buf : Bytes)
  | store (lba : UInt64) (data : Bytes)
  | update (lba : UInt64) (data : Bytes)
  deriving DecidableEq

inductive Result
  | data (bytes : Bytes)
  | written
  | failed (e : BlockError)
  deriving DecidableEq

def enter : Call → Point
  | .read lba => .lookup lba
  | .write lba data => .store lba data

def fill (fails : Bool) (s : State) (lba : UInt64) (data : Bytes) (victim : Nat)
    (slots : List Slot) (hand : Nat) : Except BlockError State :=
  let put := slots.set victim ⟨lba, data, true, false, true⟩
  match slots[victim]? with
  | some old =>
    if old.valid && old.dirty then
      match s.dev.writeBlock fails old.lba old.data with
      | .ok dev => .ok { dev := dev, slots := put, hand := hand }
      | .error e => .error e
    else .ok { dev := s.dev, slots := put, hand := hand }
  | none => .ok { dev := s.dev, slots := put, hand := hand }

/-- One section of a call; `fails` is whether the device fails its request. -/
def advance (fails : Bool) : Point → State → (Point ⊕ Result) × State
  | .lookup lba, s =>
    match indexOf s.slots lba with
    | some i =>
      (.inr (.data ((s.slots[i]?.map Slot.data).getD [])), { s with slots := touch s.slots i })
    | none => (.inl (.load lba), s)
  | .load lba, s =>
    match s.dev.readBlock fails lba with
    | .ok buf => (.inl (.place lba buf), s)
    | .error e => (.inr (.failed e), s)
  | .place lba buf, s =>
    match indexOf s.slots lba with
    | some i =>
      (.inr (.data ((s.slots[i]?.map Slot.data).getD [])), { s with slots := touch s.slots i })
    | none =>
      match evictIndex s.slots s.hand with
      | none => (.inl (.place lba buf), s)
      | some (victim, slots, hand) =>
        match fill fails s lba buf victim slots hand with
        | .ok s' => (.inr (.data buf), s')
        | .error e => (.inr (.failed e), { s with slots := slots, hand := hand })
  | .store lba data, s =>
    match s.dev.writeBlock fails lba data with
    | .ok dev => (.inl (.update lba data), { s with dev := dev })
    | .error e => (.inr (.failed e), s)
  | .update lba data, s =>
    match indexOf s.slots lba with
    | some i =>
      (.inr .written,
        { s with slots := s.slots.modify i fun s => { s with data := data, refbit := true } })
    | none =>
      match evictIndex s.slots s.hand with
      | none => (.inl (.update lba data), s)
      | some (victim, slots, hand) =>
        match fill fails s lba data victim slots hand with
        | .ok s' => (.inr .written, s')
        | .error e => (.inr (.failed e), { s with slots := slots, hand := hand })

abbrev cache : Sections where
  Shared := State
  Call := Call
  Point := Point
  Choice := Bool
  Result := Result
  enter := enter
  advance := advance

/-! ## Slots and what they hold -/

def content (s : Slot) : Slot := { s with refbit := false }

variable {slots : List Slot}

theorem contents_modify (hf : ∀ s, content (f s) = content s) (i : Nat) :
    (slots.modify i f).map content = slots.map content := by
  apply ext_getElem?
  intro j
  rw [getElem?_map, getElem?_map, getElem?_modify]
  cases slots[j]? with
  | none => rfl
  | some s =>
    by_cases hij : i = j
    · simp [hij, hf]
    · simp [hij]

theorem contents_touch (slots : List Slot) (i : Nat) :
    (touch slots i).map content = slots.map content := by
  apply contents_modify
  intro s
  rfl

variable {slots' : List Slot}

theorem contents_sweep (h : sweep fuel slots hand = some (victim, slots', hand')) :
    slots'.map content = slots.map content := by
  induction fuel generalizing slots hand with
  | zero => cases h
  | succ fuel ih =>
    rw [sweep] at h
    split at h
    · rw [ih h]
      apply contents_modify
      intro s
      rfl
    · cases h
      rfl

theorem contents_evictIndex (h : evictIndex slots hand = some (victim, slots', hand')) :
    slots'.map content = slots.map content := by
  rw [evictIndex] at h
  split at h
  · cases h
    rfl
  · exact contents_sweep h

theorem sweep_isSome (h : slots.countP Slot.refbit < fuel) (hand : Nat) :
    (sweep fuel slots hand).isSome = true := by
  induction fuel generalizing slots hand with
  | zero => omega
  | succ fuel ih =>
    rw [sweep]
    split
    · rename_i hset
      rw [Option.any_eq_true] at hset
      obtain ⟨s, hs, href⟩ := hset
      obtain ⟨hlt, hget⟩ := List.getElem?_eq_some_iff.mp hs
      apply ih
      have hpos : 0 < slots.countP Slot.refbit :=
        countP_pos_iff.mpr ⟨s, mem_of_getElem? hs, href⟩
      rw [modify_eq_set_get _ hlt, countP_set hlt, hget, href]
      simp only [if_true, Bool.false_eq_true, if_false]
      omega
    · rfl

theorem evictIndex_spec (slots : List Slot) (hand : Nat) : ∃ victim slots' hand',
    evictIndex slots hand = some (victim, slots', hand') ∧
      slots'.map content = slots.map content := by
  have hsome : (evictIndex slots hand).isSome = true := by
    rw [evictIndex]
    split
    · rfl
    · exact sweep_isSome (Nat.lt_succ_of_le countP_le_length) hand
  obtain ⟨⟨victim, slots', hand'⟩, hevict⟩ := Option.isSome_iff_exists.mp hsome
  exact ⟨victim, slots', hand', hevict, contents_evictIndex hevict⟩

theorem getElem?_of_contents {i : Nat} {s' : Slot} (h : slots'.map content = slots.map content)
    (hs : slots'[i]? = some s') :
    ∃ s, slots[i]? = some s ∧ s'.lba = s.lba ∧ s'.data = s.data ∧ s'.valid = s.valid ∧
      s'.dirty = s.dirty := by
  have hi := congrArg (fun l => l[i]?) h
  simp only [getElem?_map, hs, Option.map_some] at hi
  cases hslot : slots[i]? with
  | none =>
    rw [hslot] at hi
    cases hi
  | some s =>
    rw [hslot, Option.map_some, Option.some.injEq, content, content, Slot.mk.injEq] at hi
    exact ⟨s, rfl, hi.1, hi.2.1, hi.2.2.1, hi.2.2.2.1⟩

abbrev AllClean (slots : List Slot) : Prop :=
  ∀ (i : Nat) (s : Slot), slots[i]? = some s → s.dirty = false

theorem AllClean.of_contents (hclean : AllClean slots)
    (hsame : slots'.map content = slots.map content) : AllClean slots' := by
  intro i slot' hslot'
  obtain ⟨slot, hslot, -, -, -, hdirty⟩ := getElem?_of_contents hsame hslot'
  rw [hdirty, hclean i slot hslot]

/-- Slots are clean and hold each block at most once; a valid one agrees with the
device unless a write of its block is still to reach it. -/
structure SlotsOk (dev : Backing) (pending : UInt64 → Prop) (slots : List Slot) : Prop where
  clean : ∀ (i : Nat) (s : Slot), slots[i]? = some s → s.dirty = false
  unique : ∀ (i j : Nat) (a b : Slot), slots[i]? = some a → slots[j]? = some b →
    a.valid = true → b.valid = true → a.lba = b.lba → i = j
  agree : ∀ (i : Nat) (s : Slot), slots[i]? = some s → s.valid = true →
    s.data = dev.block s.lba ∨ pending s.lba

def Absent (slots : List Slot) (lba : UInt64) : Prop :=
  ∀ (i : Nat) (s : Slot), slots[i]? = some s → s.valid = true → s.lba ≠ lba

theorem absent_of_indexOf (h : indexOf slots lba = none) : Absent slots lba := by
  intro i s hs hvalid heq
  rw [indexOf, findIdx?_eq_none_iff] at h
  have hnot := h s (mem_of_getElem? hs)
  simp [hvalid, heq] at hnot

theorem present_of_indexOf (h : indexOf slots lba = some i) :
    ∃ s, slots[i]? = some s ∧ s.valid = true ∧ s.lba = lba := by
  rw [indexOf, findIdx?_eq_some_iff_getElem] at h
  obtain ⟨hlt, hfound, -⟩ := h
  rw [Bool.and_eq_true, decide_eq_true_eq] at hfound
  exact ⟨slots[i], getElem?_eq_getElem hlt, hfound.1, hfound.2⟩

section SlotsOk

variable {slots slots' : List Slot} {lba : UInt64} {data : Bytes}

theorem Absent.of_contents (h : Absent slots lba) (heq : slots'.map content = slots.map content) :
    Absent slots' lba := by
  intro i s' hs' hvalid hlba
  obtain ⟨s, hs, hl, -, hv, -⟩ := getElem?_of_contents heq hs'
  exact h i s hs (hv ▸ hvalid) (hl ▸ hlba)

variable (h : SlotsOk dev pending slots)
include h

theorem SlotsOk.of_contents
    (heq : slots'.map content = slots.map content) : SlotsOk dev pending slots' where
  clean := AllClean.of_contents h.clean heq
  unique := by
    intro i j a' b' ha' hb' hav hbv hab
    obtain ⟨a, ha, hla, -, hva, -⟩ := getElem?_of_contents heq ha'
    obtain ⟨b, hb, hlb, -, hvb, -⟩ := getElem?_of_contents heq hb'
    exact h.unique i j a b ha hb (hva ▸ hav) (hvb ▸ hbv) (hla ▸ hlb ▸ hab)
  agree := by
    intro i s' hs' hvalid
    obtain ⟨s, hs, hl, hd, hv, -⟩ := getElem?_of_contents heq hs'
    rw [hl, hd]
    exact h.agree i s hs (hv ▸ hvalid)

theorem SlotsOk.weaken
    (hkept : ∀ (i : Nat) (s : Slot), slots[i]? = some s → s.valid = true → pending s.lba →
      pending' s.lba) :
    SlotsOk dev pending' slots where
  __ := h
  agree := by
    intro i s hs hvalid
    rcases h.agree i s hs hvalid with hdata | hpending
    · exact .inl hdata
    · exact .inr (hkept i s hs hvalid hpending)

variable {i : Nat}

/-- All slots but one are those of `slots`, and that one now holds the device's block, which no
other slot does. -/
theorem SlotsOk.put {new : Slot}
    (hget : ∀ j s, slots'[j]? = some s → (j = i ∧ s = new) ∨ (j ≠ i ∧ slots[j]? = some s))
    (hother : ∀ j s, j ≠ i → slots[j]? = some s → s.valid = true → s.lba ≠ new.lba)
    (hclean : new.dirty = false) (hdata : new.data = dev.block new.lba)
    (hkept : ∀ l, l ≠ new.lba → pending l → pending' l) : SlotsOk dev pending' slots' := by
  constructor
  · intro j s hs
    rcases hget j s hs with ⟨-, rfl⟩ | ⟨-, hs⟩
    · exact hclean
    · exact h.clean j s hs
  · intro j k a b ha hb hav hbv hab
    rcases hget j a ha with ⟨hj, rfl⟩ | ⟨hj, ha⟩
    · rcases hget k b hb with ⟨hk, -⟩ | ⟨hk, hb⟩
      · rw [hj, hk]
      · exact absurd hab.symm (hother k b hk hb hbv)
    · rcases hget k b hb with ⟨-, rfl⟩ | ⟨-, hb⟩
      · exact absurd hab (hother j a hj ha hav)
      · exact h.unique j k a b ha hb hav hbv hab
  · intro j s hs hvalid
    rcases hget j s hs with ⟨-, rfl⟩ | ⟨hj, hs⟩
    · exact .inl hdata
    · exact (h.agree j s hs hvalid).imp_right (hkept s.lba (hother j s hj hs hvalid))

omit h in
theorem getElem?_set_cases {new : Slot} (h : (slots.set i new)[j]? = some s) :
    (j = i ∧ s = new) ∨ (j ≠ i ∧ slots[j]? = some s) := by
  rw [getElem?_set] at h
  split_ifs at h with hi hlt
  · exact .inl ⟨hi.symm, (Option.some.inj h).symm⟩
  · exact .inr ⟨fun heq => hi heq.symm, h⟩

omit h in
theorem getElem?_overwrite_cases
    (h : (slots.modify i fun s => { s with data := data, refbit := true })[j]? = some s) :
    ∃ old, slots[j]? = some old ∧
      ((j = i ∧ s = { old with data := data, refbit := true }) ∨ (j ≠ i ∧ s = old)) := by
  rw [getElem?_modify, Option.map_eq_map, Option.map_eq_some_iff] at h
  obtain ⟨old, hold, heq⟩ := h
  refine ⟨old, hold, ?_⟩
  split_ifs at heq with hi
  · exact .inl ⟨hi.symm, heq.symm⟩
  · exact .inr ⟨fun hj => hi hj.symm, heq.symm⟩

theorem SlotsOk.fill (habsent : Absent slots lba) (hdata : dev.block lba = data) (victim : Nat) :
    SlotsOk dev pending (slots.set victim ⟨lba, data, true, false, true⟩) :=
  h.put (fun _ _ => getElem?_set_cases) (fun j s _ => habsent j s) rfl hdata.symm fun _ _ => id

theorem SlotsOk.overwrite (hold : slots[i]? = some old) (hvalid : old.valid = true)
    (hlba : old.lba = lba) (hdata : dev.block lba = data)
    (hkept : ∀ l, l ≠ lba → pending l → pending' l) :
    SlotsOk dev pending' (slots.modify i fun s => { s with data := data, refbit := true }) := by
  subst hlba
  have hclean : { old with data := data, refbit := true : Slot }.dirty = false := h.clean i old hold
  refine h.put (i := i) ?_ ?_ hclean hdata.symm hkept
  · intro j s hs
    obtain ⟨before, hbefore, ⟨rfl, rfl⟩ | ⟨hj, rfl⟩⟩ := getElem?_overwrite_cases hs
    · cases hold.symm.trans hbefore
      exact .inl ⟨rfl, rfl⟩
    · exact .inr ⟨hj, hbefore⟩
  · intro j s hj hs hsv heq
    exact hj (h.unique j i s old hs hold hsv hvalid heq)

end SlotsOk

/-! ## What a section does -/

inductive Effect (s : State) : Point → Point ⊕ Result → State → Prop
  | missed (lba : UInt64) : Effect s (.lookup lba) (.inl (.load lba)) s
  | hit {point : Point} {lba : UInt64} {i : Nat} {slot : Slot} {slots : List Slot}
      (hpoint : point = .lookup lba ∨ ∃ buf, point = .place lba buf)
      (hslot : s.slots[i]? = some slot) (hvalid : slot.valid = true) (hlba : slot.lba = lba)
      (hsame : slots.map content = s.slots.map content) :
      Effect s point (.inr (.data slot.data)) { s with slots := slots }
  | loaded (lba : UInt64) : Effect s (.load lba) (.inl (.place lba (s.dev.block lba))) s
  | refused {point : Point} (e : BlockError) (hpoint : ∀ lba data, point ≠ .update lba data) :
      Effect s point (.inr (.failed e)) s
  | placed {lba : UInt64} {buf : Bytes} {slots : List Slot} (victim hand : Nat)
      (habsent : Absent s.slots lba) (hsame : slots.map content = s.slots.map content) :
      Effect s (.place lba buf) (.inr (.data buf))
        { dev := s.dev, slots := slots.set victim ⟨lba, buf, true, false, true⟩, hand := hand }
  | stored (lba : UInt64) (data : Bytes) :
      Effect s (.store lba data) (.inl (.update lba data))
        { s with dev := { s.dev with block := update s.dev.block lba data } }
  | caughtUp {lba : UInt64} {data : Bytes} {i : Nat} {slot : Slot} (hslot : s.slots[i]? = some slot)
      (hvalid : slot.valid = true) (hlba : slot.lba = lba) :
      Effect s (.update lba data) (.inr .written)
        { s with slots := s.slots.modify i fun s => { s with data := data, refbit := true } }
  | filled {lba : UInt64} {data : Bytes} {slots : List Slot} (victim hand : Nat)
      (habsent : Absent s.slots lba) (hsame : slots.map content = s.slots.map content) :
      Effect s (.update lba data) (.inr .written)
        { dev := s.dev, slots := slots.set victim ⟨lba, data, true, false, true⟩, hand := hand }

theorem fill_clean (hclean : AllClean slots) (fails : Bool) (lba : UInt64) (data : Bytes)
    (victim hand : Nat) :
    fill fails s lba data victim slots hand = .ok
      { dev := s.dev, slots := slots.set victim ⟨lba, data, true, false, true⟩, hand := hand } := by
  rw [fill]
  cases hold : slots[victim]? with
  | none => rfl
  | some old => simp [hclean victim old hold]

theorem Backing.readBlock_eq_ok {dev : Backing} {fails : Bool} {lba : UInt64} {buf : Bytes}
    (h : dev.readBlock fails lba = .ok buf) : buf = dev.block lba := by
  unfold Backing.readBlock at h
  split_ifs at h
  exact (Except.ok.inj h).symm

theorem Backing.writeBlock_eq_ok {dev dev' : Backing} {fails : Bool} {lba : UInt64} {data : Bytes}
    (h : dev.writeBlock fails lba data = .ok dev') :
    dev' = { dev with block := update dev.block lba data } := by
  unfold Backing.writeBlock at h
  split_ifs at h
  exact (Except.ok.inj h).symm

theorem advance_effect {s : State} (hclean : AllClean s.slots) (fails : Bool) (point : Point) :
    Effect s point (advance fails point s).1 (advance fails point s).2 := by
  obtain ⟨victim, slots, hand, hevict, hsame⟩ := evictIndex_spec s.slots s.hand
  have hfill := fun lba data => fill_clean (s := s) (hclean.of_contents hsame) fails lba data victim hand
  cases point with
  | lookup lba =>
    rw [advance]
    cases hindex : indexOf s.slots lba with
    | none => exact .missed lba
    | some i =>
      obtain ⟨slot, hslot, hvalid, hlba⟩ := present_of_indexOf hindex
      simp only [hslot, Option.map_some, Option.getD_some]
      exact .hit (.inl rfl) hslot hvalid hlba (contents_touch s.slots i)
  | load lba =>
    rw [advance]
    cases hread : s.dev.readBlock fails lba with
    | error e => exact .refused e (by simp)
    | ok buf =>
      rw [Backing.readBlock_eq_ok hread]
      exact .loaded lba
  | place lba buf =>
    rw [advance]
    cases hindex : indexOf s.slots lba with
    | some i =>
      obtain ⟨slot, hslot, hvalid, hlba⟩ := present_of_indexOf hindex
      simp only [hslot, Option.map_some, Option.getD_some]
      exact .hit (.inr ⟨buf, rfl⟩) hslot hvalid hlba (contents_touch s.slots i)
    | none =>
      simp only [hevict, hfill]
      exact .placed victim hand (absent_of_indexOf hindex) hsame
  | store lba data =>
    rw [advance]
    cases hwrite : s.dev.writeBlock fails lba data with
    | error e => exact .refused e (by simp)
    | ok dev =>
      rw [Backing.writeBlock_eq_ok hwrite]
      exact .stored lba data
  | update lba data =>
    rw [advance]
    cases hindex : indexOf s.slots lba with
    | some i =>
      obtain ⟨slot, hslot, hvalid, hlba⟩ := present_of_indexOf hindex
      exact .caughtUp hslot hvalid hlba
    | none =>
      simp only [hevict, hfill]
      exact .filled victim hand (absent_of_indexOf hindex) hsame

/-! ## Coherence -/

section Worlds

variable {Core : Type} {w : World cache Core}

/-- The call on the core has read or written the block and not reached the slots. -/
def Holds (w : World cache Core) (core : Core) (lba : UInt64) (buf : Bytes) : Prop :=
  ∃ call, w.running core = some (call, Point.place lba buf) ∨
    w.running core = some (call, Point.update lba buf)

/-- A write of the block has reached the device and not yet the slots. -/
def Pending (w : World cache Core) (lba : UInt64) : Prop :=
  ∃ core call data, w.running core = some (call, Point.update lba data)

/-- A device write comes at a time when no other call is between its device
access to the same block and its visit to the slots. -/
def Alone (w : World cache Core) : Move cache Core → Prop
  | .call _ _ => True
  | .run core _ => ∀ call lba data, w.running core = some (call, Point.store lba data) →
      ∀ other, other ≠ core → ∀ buf, ¬Holds w other lba buf

/-- Values on their way to the slots are the device's, and so is every valid slot
that no write is about to update. -/
structure Coherent (w : World cache Core) : Prop where
  slots : SlotsOk w.shared.dev (Pending w) w.shared.slots
  held : ∀ core lba buf, Holds w core lba buf → w.shared.dev.block lba = buf

variable [DecidableEq Core]

variable {core : Core} {call : Call} {point : Point} {next : Point ⊕ Result} {s : State}

variable {lba : UInt64}

theorem Holds.of_begin (h : Holds (w.begin core call) other lba buf) : Holds w other lba buf := by
  obtain ⟨call', hat⟩ := h
  refine ⟨call', ?_⟩
  rcases hat with hat | hat
  · rcases begin_running hat with ⟨-, -, henter⟩ | ⟨-, hat⟩
    · cases call <;> cases henter
    · exact .inl hat
  · rcases begin_running hat with ⟨-, -, henter⟩ | ⟨-, hat⟩
    · cases call <;> cases henter
    · exact .inr hat

theorem Coherent.begin (h : Coherent w) (hidle : w.running core = none) (call : Call) :
    Coherent (w.begin core call) where
  slots := by
    apply h.slots.weaken
    rintro i s - - ⟨other, call', data, hother⟩
    have hne : other ≠ core := by
      rintro rfl
      rw [hidle] at hother
      cases hother
    exact ⟨other, call', data, by rwa [begin_running_of_ne w call hne]⟩
  held := fun other lba buf hholds => h.held other lba buf hholds.of_begin

theorem Pending.settle (hat : w.running core = some (call, point))
    (outcome : (Point ⊕ Result) × State) (hpoint : ∀ data, point ≠ .update lba data)
    (h : Pending w lba) : Pending (w.settle core call outcome) lba := by
  obtain ⟨other, call', data, hother⟩ := h
  have hne : other ≠ core := by
    rintro rfl
    rw [hat, Option.some.injEq, Prod.mk.injEq] at hother
    exact hpoint data hother.2
  exact ⟨other, call', data, by rwa [settle_running_of_ne w call outcome hne]⟩

theorem Holds.of_settle (h : Holds (w.settle core call outcome) other lba buf) :
    (other = core ∧ (outcome.1 = .inl (.place lba buf) ∨ outcome.1 = .inl (.update lba buf))) ∨
      (other ≠ core ∧ Holds w other lba buf) := by
  obtain ⟨call', hat | hat⟩ := h
  · rcases settle_running hat with ⟨heq, -, hnext⟩ | ⟨hne, hat⟩
    · exact .inl ⟨heq, .inl hnext⟩
    · exact .inr ⟨hne, call', .inl hat⟩
  · rcases settle_running hat with ⟨heq, -, hnext⟩ | ⟨hne, hat⟩
    · exact .inl ⟨heq, .inr hnext⟩
    · exact .inr ⟨hne, call', .inr hat⟩

theorem Coherent.settle_of_slots (h : Coherent w) (hdev : s.dev = w.shared.dev)
    (hslots : SlotsOk w.shared.dev (Pending (w.settle core call (next, s))) s.slots)
    (hnext : ∀ lba buf, next = .inl (.place lba buf) ∨ next = .inl (.update lba buf) →
      w.shared.dev.block lba = buf) :
    Coherent (w.settle core call (next, s)) := by
  constructor
  · rwa [settle_shared, hdev]
  · intro other lba buf hholds
    rw [settle_shared, hdev]
    rcases Holds.of_settle hholds with ⟨-, hpoint⟩ | ⟨-, hholds⟩
    · exact hnext lba buf hpoint
    · exact h.held other lba buf hholds

theorem Coherent.settle (h : Coherent w) (hat : w.running core = some (call, point))
    (halone : Alone w (.run core choice)) :
    Coherent (w.settle core call (advance choice point w.shared)) := by
  have heffect := advance_effect h.slots.clean choice point
  generalize advance choice point w.shared = outcome at heffect
  obtain ⟨next, s⟩ := outcome
  have hkept : ∀ {slots}, (∀ lba data, point ≠ .update lba data) →
      SlotsOk w.shared.dev (Pending w) slots →
      SlotsOk w.shared.dev (Pending (w.settle core call (next, s))) slots := fun hpoint hslots =>
    hslots.weaken fun _ slot _ _ hpending => hpending.settle hat _ (hpoint slot.lba)
  cases heffect with
  | missed lba => exact h.settle_of_slots rfl (hkept (by simp) h.slots) (by simp)
  | hit hpoint hslot hvalid hlba hsame =>
    refine h.settle_of_slots rfl (hkept ?_ (h.slots.of_contents hsame)) (by simp)
    rcases hpoint with rfl | ⟨buf, rfl⟩ <;> simp
  | loaded lba =>
    refine h.settle_of_slots rfl (hkept (by simp) h.slots) ?_
    intro l buf hnext
    simp only [Sum.inl.injEq, Point.place.injEq, reduceCtorEq, or_false] at hnext
    rw [← hnext.1, hnext.2]
  | refused e hpoint => exact h.settle_of_slots rfl (hkept hpoint h.slots) (by simp)
  | @placed lba buf slots victim hand habsent hsame =>
    have hdata : w.shared.dev.block lba = buf := h.held core lba buf ⟨call, .inl hat⟩
    exact h.settle_of_slots rfl (hkept (by simp)
      ((h.slots.of_contents hsame).fill (habsent.of_contents hsame) hdata victim)) (by simp)
  | stored lba data =>
    constructor
    · refine ⟨h.slots.clean, h.slots.unique, fun i slot hslot hvalid => ?_⟩
      by_cases hlba : slot.lba = lba
      · exact .inr ⟨core, call, data, by rw [hlba]; exact update_self ..⟩
      refine (h.slots.agree i slot hslot hvalid).imp (fun hagree => ?_) fun hpending =>
        hpending.settle hat _ (by simp)
      rw [settle_shared]
      simp only [update_of_ne hlba]
      exact hagree
    · intro other l buf hholds
      rw [settle_shared]
      rcases Holds.of_settle hholds with ⟨-, hnext⟩ | ⟨hne, hholds'⟩
      · simp only [Sum.inl.injEq, reduceCtorEq, Point.update.injEq, false_or] at hnext
        rw [← hnext.1, ← hnext.2]
        exact update_self ..
      · have hl : l ≠ lba := by
          rintro rfl
          exact halone call l data hat other hne buf hholds'
        simp only [update_of_ne hl]
        exact h.held other l buf hholds'
  | @caughtUp lba data i slot hslot hvalid hlba =>
    have hdata : w.shared.dev.block lba = data := h.held core lba data ⟨call, .inr hat⟩
    refine h.settle_of_slots rfl (h.slots.overwrite hslot hvalid hlba hdata ?_) (by simp)
    exact fun l hl hpending => hpending.settle hat _ (by simp [hl.symm])
  | @filled lba data slots victim hand habsent hsame =>
    have hdata : w.shared.dev.block lba = data := h.held core lba data ⟨call, .inr hat⟩
    refine h.settle_of_slots rfl (((h.slots.weaken ?_).of_contents hsame).fill
      (habsent.of_contents hsame) hdata victim) (by simp)
    exact fun i slot hslot hvalid hpending =>
      hpending.settle hat _ (by simp [(habsent i slot hslot hvalid).symm])

omit [DecidableEq Core] in
theorem fresh_coherent (dev : Backing) (capacity : Nat) :
    Coherent (initial (fresh dev capacity) : World cache Core) := by
  have hslot : ∀ (i : Nat) (s : Slot), (fresh dev capacity).slots[i]? = some s →
      s.valid = false ∧ s.dirty = false := by
    intro i s hs
    have hmem := mem_of_getElem? hs
    rw [fresh, mem_replicate] at hmem
    rw [hmem.2]
    exact ⟨rfl, rfl⟩
  constructor
  · constructor
    · intro i s hs
      exact (hslot i s hs).2
    · intro i j a b ha hb hvalid
      rw [(hslot i a ha).1] at hvalid
      cases hvalid
    · intro i s hs hvalid
      rw [(hslot i s hs).1] at hvalid
      cases hvalid
  · rintro core lba buf ⟨call, hat | hat⟩
    · cases hat
    · cases hat

theorem reach_coherent (h : Reach Alone (initial (fresh dev capacity)) w) : Coherent w := by
  refine Reach.invariant (fresh_coherent dev capacity) ?_ ?_ h
  · intro w core call _ hidle hw
    exact hw.begin hidle call
  · intro w core choice call point halone hat hw
    exact hw.settle hat halone

/-! ## Reads after a quiet moment -/

/-- Since `w` the device has held `data` in the block at some moment. -/
def Seen (w w' : World cache Core) (lba : UInt64) (data : Bytes) : Prop :=
  ∃ middle, Reach Alone w middle ∧ Reach Alone middle w' ∧
    middle.shared.dev.block lba = data

theorem Seen.later (h : Seen w w' lba data) (hreach : Reach Alone w' w'') :
    Seen w w'' lba data := by
  obtain ⟨middle, hfirst, hsecond, hdata⟩ := h
  exact ⟨middle, hfirst, hsecond.trans hreach, hdata⟩

def Call.Visits : Call → Point → Prop
  | .read lba, point => point = .lookup lba ∨ point = .load lba ∨ ∃ buf, point = .place lba buf
  | .write lba data, point => point = .store lba data ∨ point = .update lba data

/-- Slots, values on their way and results of reads are contents that the device
has had since `w`. -/
structure Recent (w w' : World cache Core) : Prop where
  reach : Reach Alone w w'
  visits : ∀ core call point, w'.running core = some (call, point) → call.Visits point
  clean : ∀ (i : Nat) (s : Slot), w'.shared.slots[i]? = some s → s.dirty = false
  slots : ∀ (i : Nat) (s : Slot), w'.shared.slots[i]? = some s → s.valid = true →
    Seen w w' s.lba s.data
  held : ∀ core lba buf, Holds w' core lba buf → Seen w w' lba buf
  reads : ∃ recent, w'.log = recent ++ w.log ∧ ∀ core lba data,
    .ret core (.read lba) (.data data) ∈ recent → Seen w w' lba data

theorem Recent.begin (h : Recent w w') (hidle : w'.running core = none) (call : Call) :
    Recent w (w'.begin core call) := by
  have hstep : Reach Alone w' (w'.begin core call) :=
    .step (.call core call) .refl trivial (by rw [move, hidle])
  refine ⟨h.reach.trans hstep, ?_, h.clean, ?_, ?_, ?_⟩
  · intro other call' point hat
    rcases begin_running hat with ⟨-, rfl, rfl⟩ | ⟨-, hat⟩
    · cases call' with
      | read lba => exact .inl rfl
      | write lba data => exact .inl rfl
    · exact h.visits other call' point hat
  · intro i s hs hvalid
    exact (h.slots i s hs hvalid).later hstep
  · intro other lba buf hholds
    exact (h.held other lba buf hholds.of_begin).later hstep
  · obtain ⟨recent, hlog, hreads⟩ := h.reads
    refine ⟨.call core call :: recent, by rw [World.begin, hlog]; rfl, ?_⟩
    intro other lba data hmem
    rcases mem_cons.mp hmem with heq | hmem
    · cases heq
    · exact (hreads other lba data hmem).later hstep

/-- The parts of `Recent` that are the same for every section: what other cores
hold, and what the log had before. -/
theorem Recent.extend (h : Recent w w') (hstep : Reach Alone w' (w'.settle core call (next, s)))
    (hclean : AllClean s.slots)
    (hslots : ∀ (i : Nat) (slot : Slot), s.slots[i]? = some slot → slot.valid = true →
      Seen w (w'.settle core call (next, s)) slot.lba slot.data)
    (hvisits : ∀ point, next = .inl point → call.Visits point)
    (hheld : ∀ lba buf, next = .inl (.place lba buf) ∨ next = .inl (.update lba buf) →
      Seen w (w'.settle core call (next, s)) lba buf)
    (hread : ∀ lba data, call = .read lba → next = .inr (.data data) →
      Seen w (w'.settle core call (next, s)) lba data) :
    Recent w (w'.settle core call (next, s)) := by
  refine ⟨h.reach.trans hstep, ?_, by rwa [settle_shared], by rwa [settle_shared], ?_, ?_⟩
  · intro other call' point hat
    rcases settle_running hat with ⟨-, rfl, hnext⟩ | ⟨-, hat⟩
    · exact hvisits point hnext
    · exact h.visits other call' point hat
  · intro other lba buf hholds
    rcases Holds.of_settle hholds with ⟨-, hnext⟩ | ⟨-, hholds⟩
    · exact hheld lba buf hnext
    · exact (h.held other lba buf hholds).later hstep
  · obtain ⟨recent, hlog, hreads⟩ := h.reads
    cases next with
    | inl point =>
      refine ⟨recent, hlog, ?_⟩
      intro other lba data hmem
      exact (hreads other lba data hmem).later hstep
    | inr result =>
      refine ⟨.ret core call result :: recent, by rw [settle, hlog]; rfl, ?_⟩
      intro other lba data hmem
      rcases mem_cons.mp hmem with heq | hmem
      · cases heq
        exact hread lba data rfl rfl
      · exact (hreads other lba data hmem).later hstep

omit [DecidableEq Core] in
theorem Effect.clean {s' : State} (h : Effect s point next s') (hclean : AllClean s.slots) :
    AllClean s'.slots := by
  have hset : ∀ {slots : List Slot} (victim lba buf), slots.map content = s.slots.map content →
      AllClean (slots.set victim ⟨lba, buf, true, false, true⟩) := by
    intro slots victim lba buf hsame i slot hslot
    rcases getElem?_set_cases hslot with ⟨-, rfl⟩ | ⟨-, hslot⟩
    · rfl
    · exact hclean.of_contents hsame i slot hslot
  cases h with
  | missed | loaded | refused | stored => exact hclean
  | hit _ _ _ _ hsame => exact hclean.of_contents hsame
  | placed victim _ _ hsame => exact hset victim _ _ hsame
  | filled victim _ _ hsame => exact hset victim _ _ hsame
  | caughtUp hslot hvalid hlba =>
    intro j slot hget
    obtain ⟨old, hold, ⟨-, rfl⟩ | ⟨-, rfl⟩⟩ := getElem?_overwrite_cases hget
    · exact hclean j old hold
    · exact hclean j slot hold

theorem Effect.visits (h : Effect s point next s') (hvisits : call.Visits point) :
    ∀ point', next = .inl point' → call.Visits point' := by
  intro point' hnext
  cases h with
  | hit | refused | placed | caughtUp | filled => cases hnext
  | missed lba | loaded lba | stored lba data =>
    cases hnext
    cases call <;> simp_all [Call.Visits]

theorem Call.Visits.lba_eq (h : (Call.read lba).Visits point)
    (hpoint : point = .lookup lba' ∨ ∃ buf, point = .place lba' buf) : lba' = lba := by
  rcases hpoint with rfl | ⟨buf, rfl⟩ <;> simpa [Call.Visits] using h

theorem Recent.settle (h : Recent w w') (hat : w'.running core = some (call, point))
    {choice : Bool} (halone : Alone w' (.run core choice)) :
    Recent w (w'.settle core call (advance choice point w'.shared)) := by
  have hstep : Reach Alone w' (w'.settle core call (advance choice point w'.shared)) :=
    .step (.run core choice) .refl halone (by rw [move, hat])
  have heffect := advance_effect h.clean choice point
  have hvisits := h.visits core call point hat
  generalize advance choice point w'.shared = outcome at *
  obtain ⟨next, s⟩ := outcome
  have hold : ∀ (i : Nat) (slot : Slot), w'.shared.slots[i]? = some slot → slot.valid = true →
      Seen w (w'.settle core call (next, s)) slot.lba slot.data :=
    fun i slot hslot hvalid => (h.slots i slot hslot hvalid).later hstep
  -- replacing a slot by a value that was on its way, or only touching reference bits
  have hsame : ∀ slots : List Slot, slots.map content = w'.shared.slots.map content →
      ∀ (i : Nat) (slot : Slot), slots[i]? = some slot → slot.valid = true →
        Seen w (w'.settle core call (next, s)) slot.lba slot.data := by
    intro slots heq i slot hslot hvalid
    obtain ⟨old, hold', hlba, hdata, hv, -⟩ := getElem?_of_contents heq hslot
    rw [hlba, hdata]
    exact hold i old hold' (hv ▸ hvalid)
  have hput : ∀ (slots : List Slot) (victim : Nat) (lba : UInt64) (buf : Bytes),
      slots.map content = w'.shared.slots.map content → Holds w' core lba buf →
      ∀ (i : Nat) (slot : Slot), (slots.set victim ⟨lba, buf, true, false, true⟩)[i]? = some slot →
        slot.valid = true → Seen w (w'.settle core call (next, s)) slot.lba slot.data := by
    intro slots victim lba buf heq hholds i slot hslot hvalid
    rcases getElem?_set_cases hslot with ⟨-, rfl⟩ | ⟨-, hslot⟩
    · exact (h.held core lba buf hholds).later hstep
    · exact hsame slots heq i slot hslot hvalid
  have hclean := heffect.clean h.clean
  have hnow : ∀ lba, Seen w (w'.settle core call (next, s)) lba (w'.shared.dev.block lba) :=
    fun lba => ⟨w', h.reach, hstep, rfl⟩
  apply h.extend hstep hclean
  · cases heffect with
    | missed | loaded | refused | stored => exact hold
    | hit _ _ _ _ heq => exact hsame _ heq
    | placed victim _ _ heq => exact hput _ victim _ _ heq ⟨call, .inl hat⟩
    | filled victim _ _ heq => exact hput _ victim _ _ heq ⟨call, .inr hat⟩
    | @caughtUp lba data i slot hslot hvalid hlba =>
      intro j slot' hget hv
      obtain ⟨old, hold', ⟨rfl, rfl⟩ | ⟨-, rfl⟩⟩ := getElem?_overwrite_cases hget
      · cases hslot.symm.trans hold'
        rw [hlba]
        exact (h.held core lba data ⟨call, .inr hat⟩).later hstep
      · exact hold j slot' hold' hv
  · exact heffect.visits hvisits
  · intro lba buf hnext
    cases heffect with
    | missed | hit | refused | placed | caughtUp | filled => simp at hnext
    | loaded lba' =>
      simp only [Sum.inl.injEq, Point.place.injEq, reduceCtorEq, or_false] at hnext
      rw [← hnext.1, ← hnext.2]
      exact hnow lba'
    | stored lba' data =>
      simp only [Sum.inl.injEq, reduceCtorEq, Point.update.injEq, false_or] at hnext
      rw [← hnext.1, ← hnext.2]
      refine ⟨_, h.reach.trans hstep, .refl, ?_⟩
      rw [settle_shared]
      exact update_self ..
  · intro lba data hcall hnext
    subst hcall
    cases heffect with
    | missed | loaded | refused | stored | caughtUp | filled => simp at hnext
    | @hit _ lba' i slot slots hpoint hslot hvalid hlba heq =>
      simp only [Sum.inr.injEq, Result.data.injEq] at hnext
      have hseen := hold i slot hslot hvalid
      rw [hlba, hvisits.lba_eq hpoint] at hseen
      rwa [← hnext]
    | @placed lba' buf slots victim hand habsent heq =>
      simp only [Sum.inr.injEq, Result.data.injEq] at hnext
      have hlba : lba' = lba := hvisits.lba_eq (.inr ⟨buf, rfl⟩)
      subst hlba
      rw [← hnext]
      exact (h.held core lba' buf ⟨_, .inl hat⟩).later hstep

theorem Coherent.recent (h : Coherent w) (hquiet : w.Quiet) : Recent w w where
  reach := .refl
  visits := by
    intro core call point hat
    rw [hquiet core] at hat
    cases hat
  clean := h.slots.clean
  slots := by
    intro i s hs hvalid
    rcases h.slots.agree i s hs hvalid with hagree | ⟨core, call, data, hat⟩
    · exact ⟨w, .refl, .refl, hagree.symm⟩
    · rw [hquiet core] at hat
      cases hat
  held := by
    rintro core lba buf ⟨call, hat | hat⟩
    · rw [hquiet core] at hat
      cases hat
    · rw [hquiet core] at hat
      cases hat
  reads := ⟨[], rfl, by simp⟩

theorem Coherent.recent_reach (h : Coherent w) (hquiet : w.Quiet)
    (hreach : Reach Alone w w') : Recent w w' := by
  refine Reach.invariant (h.recent hquiet) ?_ ?_ hreach
  · intro w' core call _ hidle hw
    exact hw.begin hidle call
  · intro w' core choice call point halone hat hw
    exact hw.settle hat halone

end Worlds

def blankBacking : Backing := ⟨512, 4, fun _ => List.replicate 512 0⟩

end BlockCache

end EuroOS
