import EuroOS.ByteCodec
import EuroOS.CallMachine

/-!
# A/B boot slots

The persistent slot configuration of EuroUpdate: which of the two system slots
boots, how many attempts a new one has left, and the 32-byte block in which the
configuration survives a reboot.
-/

namespace EuroOS

inductive Slot
  | A
  | B
  deriving DecidableEq

namespace Slot

def other : Slot → Slot
  | A => B
  | B => A

def toU8 : Slot → UInt8
  | A => 0
  | B => 1

def fromU8 (v : UInt8) : Slot := if v = 1 then B else A

@[simp] theorem fromU8_toU8 (s : Slot) : fromU8 s.toU8 = s := by cases s <;> rfl

end Slot

inductive SlotState
  | empty
  | trying
  | good
  | failed
  deriving DecidableEq

namespace SlotState

def toU8 : SlotState → UInt8
  | empty => 0
  | trying => 1
  | good => 2
  | failed => 3

def fromU8 (v : UInt8) : SlotState :=
  if v = 1 then trying else if v = 2 then good else if v = 3 then failed else empty

@[simp] theorem fromU8_toU8 (s : SlotState) : fromU8 s.toU8 = s := by cases s <;> rfl

end SlotState

def defaultTries : UInt8 := 3

structure SlotConfig where
  active : Slot
  nextBoot : Slot
  tries : UInt8
  stateA : SlotState
  stateB : SlotState
  generation : UInt32
  deriving DecidableEq

namespace SlotConfig

def initial : SlotConfig where
  active := .A
  nextBoot := .A
  tries := 0
  stateA := .good
  stateB := .empty
  generation := 1

def state (c : SlotConfig) : Slot → SlotState
  | .A => c.stateA
  | .B => c.stateB

def setState (c : SlotConfig) : Slot → SlotState → SlotConfig
  | .A, st => { c with stateA := st }
  | .B, st => { c with stateB := st }

def inactive (c : SlotConfig) : Slot := c.active.other

def stageUpdate (c : SlotConfig) : SlotConfig :=
  let target := c.inactive
  { c.setState target .trying with
    nextBoot := target
    tries := defaultTries
    generation := c.generation + 1 }

def findGood (c : SlotConfig) : Slot :=
  if c.state c.nextBoot.other = .good then c.nextBoot.other
  else if c.state c.nextBoot = .good then c.nextBoot
  else .A

/-- What the boot loader does once per boot: the slot it loads is returned. -/
def onBoot (c : SlotConfig) : SlotConfig × Slot :=
  if 0 < c.tries then
    ({ c with tries := c.tries - 1, active := c.nextBoot }, c.nextBoot)
  else if c.state c.nextBoot = .trying then
    -- the attempts are used up and nobody confirmed the slot
    let c := c.setState c.nextBoot .failed
    ({ c with nextBoot := c.findGood, active := c.findGood }, c.findGood)
  else
    ({ c with active := c.nextBoot }, c.nextBoot)

def markGood (c : SlotConfig) : SlotConfig :=
  { c.setState c.active .good with tries := 0, nextBoot := c.active }

def rollback (c : SlotConfig) : SlotConfig × Bool :=
  if c.state c.active.other = .good then
    ({ c with nextBoot := c.active.other, tries := 0 }, true)
  else (c, false)

/-! ## The configuration block -/

def magic : Nat := 0x45555044

def configSize : Nat := 32

def checksum (data : Bytes) : UInt32 :=
  let sums := data.foldl
    (fun (s : UInt32 × UInt32) b =>
      let s1 := (s.1 + b.toUInt32) % 65535
      (s1, (s.2 + s1) % 65535))
    (0xFFFF, 0xFFFF)
  (sums.2 <<< 16) ||| sums.1

def fields (c : SlotConfig) : Bytes :=
  le 4 magic ++
    ([1, c.active.toU8, c.nextBoot.toU8, c.tries, c.stateA.toU8, c.stateB.toU8, 0, 0] ++
      (le 4 c.generation.toNat ++ List.replicate 12 0))

def serialize (c : SlotConfig) : Bytes :=
  c.fields ++ le 4 (checksum c.fields).toNat

def deserialize (b : Bytes) : Option SlotConfig :=
  if b.length < configSize then none
  else if rd 4 b 0 ≠ magic then none
  else if (checksum (b.take (configSize - 4))).toNat ≠ rd 4 b (configSize - 4) then none
  else some
    { active := .fromU8 (b.getD 5 0)
      nextBoot := .fromU8 (b.getD 6 0)
      tries := b.getD 7 0
      stateA := .fromU8 (b.getD 8 0)
      stateB := .fromU8 (b.getD 9 0)
      generation := UInt32.ofNat (rd 4 b 12) }

theorem length_fields (c : SlotConfig) : c.fields.length = configSize - 4 := by
  simp [fields, configSize]

theorem deserialize_serialize (c : SlotConfig) : deserialize c.serialize = some c := by
  have hlen : c.serialize.length = configSize := by simp [serialize, length_fields, configSize]
  have hmagic : rd 4 c.serialize 0 = magic := by
    rw [serialize, fields, List.append_assoc]
    exact rd_le_append_of_lt _ (by decide)
  have hsum : rd 4 c.serialize (configSize - 4) = (checksum c.fields).toNat := by
    rw [serialize, rd_append_right _ (length_fields c).le, length_fields, Nat.sub_self]
    simpa using rd_le_uint32 (checksum c.fields) []
  have hfields : c.serialize.take (configSize - 4) = c.fields := by
    rw [serialize, ← length_fields c, List.take_left]
  have hgen : rd 4 c.serialize 12 = c.generation.toNat := by
    have hsplit : c.serialize =
        (le 4 magic ++
          [1, c.active.toU8, c.nextBoot.toU8, c.tries, c.stateA.toU8, c.stateB.toU8, 0, 0]) ++
          (le 4 c.generation.toNat ++
            (List.replicate 12 0 ++ le 4 (checksum c.fields).toNat)) := by simp [serialize, fields]
    rw [hsplit, rd_append_right _ (by simp)]
    exact rd_le_uint32 c.generation _
  have hbytes : c.serialize[5]?.getD 0 = c.active.toU8 ∧ c.serialize[6]?.getD 0 = c.nextBoot.toU8 ∧
      c.serialize[7]?.getD 0 = c.tries ∧ c.serialize[8]?.getD 0 = c.stateA.toU8 ∧
      c.serialize[9]?.getD 0 = c.stateB.toU8 := by
    have hfour : le 4 magic = [0x44, 0x50, 0x55, 0x45] := by decide
    simp [serialize, fields, hfour]
  simp [deserialize, hlen, hmagic, hsum, hfields, hgen, hbytes]

/-! ## Runs -/

/-- The events of an installed system.  `reload` is the configuration going to
disk and coming back. -/
inductive BootCall
  | stageUpdate
  | onBoot
  | markGood
  | rollback
  | reload
  deriving DecidableEq

inductive BootResult
  | done
  | selected (slot : Slot)
  | rolledBack (changed : Bool)
  deriving DecidableEq

def bootMachine : CallMachine SlotConfig BootCall BootResult where
  step c
    | .stageUpdate => (c.stageUpdate, .done)
    | .onBoot => (c.onBoot.1, .selected c.onBoot.2)
    | .markGood => (c.markGood, .done)
    | .rollback => (c.rollback.1, .rolledBack c.rollback.2)
    | .reload => ((deserialize c.serialize).getD initial, .done)

/-- The boots of a run that load a slot on trial, up to the first boot that loads
a good slot. -/
def tryingBoots (c : SlotConfig) : List BootCall → Nat
  | [] => 0
  | .onBoot :: calls =>
    match c.onBoot.1.state c.onBoot.2 with
    | .good => 0
    | .trying => tryingBoots c.onBoot.1 calls + 1
    | _ => tryingBoots c.onBoot.1 calls
  | call :: calls => tryingBoots (bootMachine.step c call).1 calls

/-- The promise of the two slots about the run `calls` of a fresh install. -/
structure AlwaysBootable (calls : List BootCall) : Prop where
  someGood : ∀ earlier, earlier <+: calls →
    ∃ slot, (bootMachine.run initial earlier).state slot = .good
  selects : ∀ earlier, earlier ++ [.onBoot] <+: calls →
    ∀ boot, (bootMachine.run initial earlier).onBoot = boot →
      boot.1.state boot.2 ≠ .empty ∧ boot.1.state boot.2 ≠ .failed
  attempts : ∀ earlier stretch, earlier ++ stretch <+: calls →
    (∀ call ∈ stretch, call ≠ .markGood ∧ call ≠ .stageUpdate) →
    tryingBoots (bootMachine.run initial earlier) stretch ≤ defaultTries.toNat

/-- An update is staged from a confirmed system: the slot it leaves alone is good. -/
def StagesFromGood (c : SlotConfig) (call : BootCall) : Prop :=
  call = .stageUpdate → c.state c.active = .good

structure Bootable (c : SlotConfig) : Prop where
  next : c.state c.nextBoot = .good ∨
    c.state c.nextBoot = .trying ∧ c.state c.nextBoot.other = .good
  tries_le : c.tries ≤ defaultTries

theorem bootable_initial : Bootable initial :=
  ⟨.inl rfl, by decide⟩

variable {c : SlotConfig}

theorem Bootable.someGood (h : Bootable c) : ∃ slot, c.state slot = .good := by
  obtain hgood | ⟨-, hother⟩ := h.next
  · exact ⟨_, hgood⟩
  · exact ⟨_, hother⟩

theorem Bootable.stageUpdate (hgood : c.state c.active = .good) : Bootable c.stageUpdate := by
  have hstates : c.stageUpdate.state c.inactive = .trying ∧
      c.stageUpdate.state c.inactive.other = .good := by
    cases hactive : c.active <;> simp_all [SlotConfig.stageUpdate, inactive, Slot.other, setState, state]
  exact ⟨.inr hstates, UInt8.le_refl _⟩

theorem Bootable.markGood (c : SlotConfig) : Bootable c.markGood := by
  refine ⟨.inl ?_, by simp [SlotConfig.markGood]⟩
  cases hactive : c.active <;> simp [SlotConfig.markGood, hactive, setState, state]

theorem Bootable.rollback (h : Bootable c) : Bootable c.rollback.1 := by
  unfold SlotConfig.rollback
  split
  · rename_i hgood
    exact ⟨.inl (by cases hother : c.active.other <;> simp_all [state]), by simp⟩
  · exact h

/-- What the boot loader does with a bootable configuration: it spends an attempt
on the slot on trial, or it loads a good slot. -/
theorem Bootable.onBoot_cases (h : Bootable c) :
    (0 < c.tries ∧ c.onBoot = ({ c with tries := c.tries - 1, active := c.nextBoot }, c.nextBoot)) ∨
    (c.tries = 0 ∧ c.onBoot.1.state c.onBoot.2 = .good ∧ c.onBoot.1.nextBoot = c.onBoot.2 ∧
      c.onBoot.1.tries = 0) := by
  by_cases htries : 0 < c.tries
  · exact .inl ⟨htries, by simp [onBoot, htries]⟩
  have hzero : c.tries = 0 := by simpa using htries
  refine .inr ⟨hzero, ?_⟩
  obtain hgood | ⟨htrying, hother⟩ := h.next
  · cases hnext : c.nextBoot <;> simp_all [onBoot, state]
  · cases hnext : c.nextBoot <;> simp_all [onBoot, findGood, setState, state, Slot.other]

theorem Bootable.onBoot (h : Bootable c) : Bootable c.onBoot.1 := by
  obtain ⟨htries, heq⟩ | ⟨-, hgood, hnext, hzero⟩ := h.onBoot_cases
  · rw [heq]
    have hle : c.tries - 1 ≤ defaultTries := by
      have := h.tries_le
      simp only [UInt8.le_iff_toNat_le, UInt8.lt_iff_toNat_lt, UInt8.toNat_sub] at *
      simp [defaultTries] at *
      omega
    exact ⟨by cases hnext : c.nextBoot <;> simpa [state, hnext, Slot.other] using h.next, hle⟩
  · exact ⟨.inl (by rw [hnext, hgood]), by simp [hzero]⟩

theorem Bootable.step (h : Bootable c) (hcall : StagesFromGood c call) :
    Bootable (bootMachine.step c call).1 := by
  cases call with
  | stageUpdate => exact Bootable.stageUpdate (hcall rfl)
  | onBoot => exact h.onBoot
  | markGood => exact Bootable.markGood c
  | rollback => exact h.rollback
  | reload => simpa [bootMachine, deserialize_serialize] using h

theorem Bootable.tryingBoots_le (h : Bootable c)
    (hcalls : ∀ call ∈ calls, call ≠ .markGood ∧ call ≠ .stageUpdate) :
    tryingBoots c calls ≤ c.tries.toNat := by
  induction calls generalizing c with
  | nil => simp [tryingBoots]
  | cons call calls ih =>
    have hrest : ∀ call ∈ calls, call ≠ .markGood ∧ call ≠ .stageUpdate :=
      fun call hmem => hcalls call (List.mem_cons_of_mem _ hmem)
    cases call with
    | stageUpdate => simp at hcalls
    | markGood => simp at hcalls
    | onBoot =>
      have hafter := ih h.onBoot hrest
      obtain ⟨htries, heq⟩ | ⟨-, hgood, -, -⟩ := h.onBoot_cases
      · have hspent : c.onBoot.1.tries.toNat + 1 = c.tries.toNat := by
          rw [heq]
          simp only [UInt8.lt_iff_toNat_lt, UInt8.toNat_sub] at *
          have := c.tries.toNat_lt
          simp at *
          omega
        unfold tryingBoots
        split <;> omega
      · simp [tryingBoots, hgood]
    | rollback =>
      have hafter := ih h.rollback hrest
      have hle : c.rollback.1.tries.toNat ≤ c.tries.toNat := by
        unfold SlotConfig.rollback
        split <;> simp
      exact hafter.trans hle
    | reload =>
      have hsame : (bootMachine.step c .reload).1 = c := by
        simp [bootMachine, deserialize_serialize]
      simpa [tryingBoots, hsame] using ih h hrest

theorem Bootable.selects (h : Bootable c) :
    c.onBoot.1.state c.onBoot.2 ≠ .empty ∧ c.onBoot.1.state c.onBoot.2 ≠ .failed := by
  obtain ⟨-, heq⟩ | ⟨-, hgood, -, -⟩ := h.onBoot_cases
  · have hstate : c.onBoot.1.state c.onBoot.2 = c.state c.nextBoot := by
      rw [heq]
      cases c.nextBoot <;> rfl
    obtain hgood | ⟨htrying, -⟩ := h.next
    · simp [hstate, hgood]
    · simp [hstate, htrying]
  · simp [hgood]

theorem bootable_of_earlier (hearlier : earlier <+: calls)
    (hallowed : bootMachine.Allowed StagesFromGood initial calls) :
    Bootable (bootMachine.run initial earlier) := by
  obtain ⟨later, rfl⟩ := hearlier
  rw [CallMachine.allowed_append] at hallowed
  exact CallMachine.run_invariant Bootable (fun c call h hcall => h.step hcall)
    bootable_initial hallowed.1

theorem no_good_of_stage (h : c.state c.active ≠ .good) (slot : Slot) :
    c.stageUpdate.state slot ≠ .good := by
  cases hactive : c.active <;> cases slot <;>
    simp_all [SlotConfig.stageUpdate, inactive, Slot.other, setState, state]

/-- The promise holds in exactly the runs that stage every update from a confirmed
system. -/
theorem alwaysBootable_iff (calls : List BootCall) :
    AlwaysBootable calls ↔ bootMachine.Allowed StagesFromGood initial calls := by
  constructor
  · intro h
    refine (CallMachine.allowed_iff _ _).mpr fun earlier call hearlier hstage => ?_
    subst hstage
    by_contra hactive
    obtain ⟨slot, hslot⟩ := h.someGood _ hearlier
    rw [CallMachine.run_append] at hslot
    exact no_good_of_stage hactive slot hslot
  · intro hallowed
    refine ⟨fun earlier hearlier => (bootable_of_earlier hearlier hallowed).someGood, ?_, ?_⟩
    · rintro earlier hearlier boot rfl
      exact (bootable_of_earlier ((List.prefix_append _ _).trans hearlier) hallowed).selects
    · intro earlier stretch hearlier hstretch
      have hboot : Bootable (bootMachine.run initial earlier) :=
        bootable_of_earlier ((List.prefix_append _ _).trans hearlier) hallowed
      exact (hboot.tryingBoots_le hstretch).trans (UInt8.le_iff_toNat_le.mp hboot.tries_le)

/-- Two updates in a row, the second from the unconfirmed first one, overwrite the
only good slot; four boots later a failed slot is loaded. -/
theorem staged_from_trial_not_bootable :
    ¬ AlwaysBootable [.stageUpdate, .onBoot, .stageUpdate] ∧
      ∃ c, bootMachine.run initial
          [.stageUpdate, .onBoot, .stageUpdate, .onBoot, .onBoot, .onBoot] = c ∧
        c.onBoot.2 = .A ∧ c.onBoot.1.stateA = .failed ∧ c.onBoot.1.stateB = .trying := by
  refine ⟨fun h => ?_, _, rfl, by decide⟩
  obtain ⟨slot, hslot⟩ := h.someGood _ (List.prefix_refl _)
  revert hslot
  cases slot <;> decide

end SlotConfig

end EuroOS
