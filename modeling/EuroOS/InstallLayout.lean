import EuroOS.TextFields

/-!
# The partitions of an installation

`validate` accepts a disk that holds the sum of the minimal partitions, while
`partition_layout` of `euroinstall` divides it by fractions.  The sizes for which the
layout keeps every minimum are an unbounded range and four short ones below it.
-/

namespace EuroOS.Install

def sector : Nat := 512
def mib : Nat := 1024 * 1024
def espBytes : Nat := 256 * mib
def slotMinBytes : Nat := 512 * mib
def varMinBytes : Nat := 256 * mib

structure Disk where
  totalBytes : UInt64

structure Config where
  disk : Disk
  locale : Str
  keymap : Str
  hostname : Str
  username : Str
  password : Str
  live : Bool

structure PartitionPlan where
  label : String
  startLba : Nat
  sectors : Nat
  deriving DecidableEq

inductive PlanError where
  | diskTooSmall (needBytes haveBytes : Nat)
  | badUsername
  | badHostname
  | badLocale
  | badKeymap
  | badPassword

def minimumDiskBytes : Nat := espBytes + 2 * slotMinBytes + varMinBytes

def isLower (b : UInt8) : Bool := 97 ≤ b && b ≤ 122

def validUsername (u : Str) : Bool :=
  !u.isEmpty && u.bytes.length ≤ 32 &&
    u.bytes.all (fun b => isLower b || (48 ≤ b && b ≤ 57) || b == 95 || b == 45) &&
    u.bytes.head?.any isLower

/-- `knownLang` says which tags `eurolocale` knows as a language. -/
def validate (knownLang : Str → Bool) (cfg : Config) : Except PlanError Unit :=
  if !knownLang cfg.locale then .error .badLocale
  else if cfg.keymap.trim.isEmpty then .error .badKeymap
  else if cfg.hostname.trim.isEmpty then .error .badHostname
  else if !validUsername cfg.username then .error .badUsername
  else if cfg.live then .ok ()
  else if cfg.password.isEmpty then .error .badPassword
  else if cfg.disk.totalBytes.toNat < minimumDiskBytes then
    .error (.diskTooSmall minimumDiskBytes cfg.disk.totalBytes.toNat)
  else .ok ()

/-- A `u64` subtraction; `none` where it would underflow. -/
def sub (a b : Nat) : Option Nat := if b ≤ a then some (a - b) else none

/-- Sums and products stay below `2 ^ 64`, since there are fewer than `2 ^ 55` sectors. -/
def partitionLayout (disk : Disk) : Option (List PartitionPlan) := do
  let align := mib / sector
  let totalSectors := disk.totalBytes.toNat / sector
  let first := align
  let lastUsable ← sub totalSectors 34
  let esp := espBytes / sector
  let remaining ← sub (← sub lastUsable first) esp
  let slot := remaining * 3 / 8 / align * align
  let swap := max (remaining * 8 / 100) (64 * mib / sector) / align * align
  let cur := first + esp + slot + slot + swap
  let var := (← sub lastUsable cur) / align * align
  return [⟨"EuroESP", first, esp⟩, ⟨"EuroOS-A", first + esp, slot⟩,
    ⟨"EuroOS-B", first + esp + slot, slot⟩, ⟨"EuroSwap", first + esp + slot + slot, swap⟩,
    ⟨"EuroVar", cur, var⟩]

/-- What the layout promises for a disk of `total` sectors. -/
structure Fits (total : Nat) (esp a b swap var : PartitionPlan) : Prop where
  aligned : ∀ p ∈ [esp, a, b, swap, var], p.startLba * sector % mib = 0
  disjoint : [esp, a, b, swap, var].Pairwise fun p q => p.startLba + p.sectors ≤ q.startLba
  usable : ∀ p ∈ [esp, a, b, swap, var], 34 ≤ p.startLba ∧ p.startLba + p.sectors + 33 ≤ total
  slots : a.sectors = b.sectors ∧ slotMinBytes ≤ a.sectors * sector
  swap_ge : 64 * mib ≤ swap.sectors * sector
  var_ge : varMinBytes ≤ var.sectors * sector

/-- The numbers of sectors that leave `EuroVar` its minimum. -/
def Roomy (total : Nat) : Prop :=
  3602466 ≤ total ∨ 3596322 ≤ total ∧ total < 3601101 ∨ 3592226 ≤ total ∧ total < 3595640 ∨
    3588130 ≤ total ∧ total < 3590178 ∨ 3584034 ≤ total ∧ total < 3584717

/-- The division of `remaining` sectors keeps the minima exactly on the roomy sizes. -/
theorem minima_iff {remaining slot swap : Nat} (hmin : 2619358 ≤ remaining)
    (hslot : slot = remaining * 3 / 8 / 2048) (hswap : swap = remaining * 8 / 100 / 2048) :
    512 ≤ slot ∧ 524288 ≤ remaining - 4096 * slot - 2048 * swap ↔ Roomy (remaining + 526370) := by
  rw [Roomy]
  rcases Nat.lt_or_ge remaining 3047906 with hsmall | hsmall
  · omega
  rcases Nat.lt_or_ge remaining 3084048 with hlarge | hlarge
  · have hslots : 558 ≤ slot ∧ slot ≤ 564 := by omega
    have hswaps : 118 ≤ swap ∧ swap ≤ 120 := by omega
    obtain ⟨hslot₁, hslot₂⟩ := hslots
    obtain ⟨hswap₁, hswap₂⟩ := hswaps
    interval_cases slot <;> interval_cases swap <;> omega
  · omega

theorem minimum_of_validate {knownLang : Str → Bool} {cfg : Config}
    (h : validate knownLang cfg = .ok ()) (hlive : cfg.live = false) :
    minimumDiskBytes ≤ cfg.disk.totalBytes.toNat := by
  simp only [validate, hlive, Bool.false_eq_true, if_false] at h
  split_ifs at h with _ _ _ _ _ hsize
  exact Nat.not_lt.1 hsize

theorem partitionLayout_eq {disk : Disk} {total slot swap : Nat}
    (htotal : disk.totalBytes.toNat / sector = total) (hmin : 3145728 ≤ total)
    (hslot : slot = (total - 526370) * 3 / 8 / 2048)
    (hswap : swap = (total - 526370) * 8 / 100 / 2048) :
    partitionLayout disk = some [⟨"EuroESP", 2048, 524288⟩, ⟨"EuroOS-A", 526336, slot * 2048⟩,
      ⟨"EuroOS-B", 526336 + slot * 2048, slot * 2048⟩,
      ⟨"EuroSwap", 526336 + slot * 2048 + slot * 2048, swap * 2048⟩,
      ⟨"EuroVar", 526336 + slot * 2048 + slot * 2048 + swap * 2048,
        (total - 34 - (526336 + slot * 2048 + slot * 2048 + swap * 2048)) / 2048 * 2048⟩] := by
  have hsub {a b : Nat} (h : b ≤ a) : sub a b = some (a - b) := if_pos h
  have hmax : max ((total - 526370) * 8 / 100) 131072 / 2048 = swap := by
    rw [Nat.max_eq_left (by omega), hswap]
  have hremaining : total - 34 - 2048 - 524288 = total - 526370 := by omega
  have halign : mib / sector = 2048 := rfl
  have hesp : espBytes / sector = 524288 := rfl
  have hleast : 64 * mib / sector = 131072 := rfl
  simp only [partitionLayout, htotal, halign, hesp, hleast]
  rw [hsub (by omega), Option.bind_eq_bind, Option.bind_some, hsub (by omega), Option.bind_some,
    hsub (by omega), Option.bind_some, hremaining, hmax, ← hslot, hsub (by omega)]
  rfl

theorem layout_fits_iff {knownLang : Str → Bool} {cfg : Config}
    (hok : validate knownLang cfg = .ok ()) (hlive : cfg.live = false) :
    (∃ esp a b swap var, partitionLayout cfg.disk = some [esp, a, b, swap, var] ∧
      Fits (cfg.disk.totalBytes.toNat / sector) esp a b swap var) ↔
        Roomy (cfg.disk.totalBytes.toNat / sector) := by
  have hmin := minimum_of_validate hok hlive
  generalize htotal : cfg.disk.totalBytes.toNat / sector = total
  have hmin : 3145728 ≤ total := by
    simp only [minimumDiskBytes, espBytes, slotMinBytes, varMinBytes, mib, sector] at hmin htotal
    omega
  obtain ⟨slot, hslot⟩ : ∃ slot, slot = (total - 526370) * 3 / 8 / 2048 := ⟨_, rfl⟩
  obtain ⟨swap, hswap⟩ : ∃ swap, swap = (total - 526370) * 8 / 100 / 2048 := ⟨_, rfl⟩
  have hminima := minima_iff (by omega) hslot hswap
  rw [Nat.sub_add_cancel (by omega)] at hminima
  rw [partitionLayout_eq htotal hmin hslot hswap, ← hminima]
  constructor
  · rintro ⟨_, _, _, _, _, heq, hfits⟩
    cases heq
    have hslots := hfits.slots.2
    have hvar := hfits.var_ge
    simp only [slotMinBytes, varMinBytes, mib, sector] at hslots hvar
    omega
  · intro h
    refine ⟨_, _, _, _, _, rfl, ?_, ?_, ?_, ⟨rfl, ?_⟩, ?_, ?_⟩ <;>
      simp [slotMinBytes, varMinBytes, mib, sector] <;> omega

def sampleLang (tag : Str) : Bool := tag == "nl-BE".toList

def sampleConfig (totalBytes : UInt64) : Config :=
  ⟨⟨totalBytes⟩, "nl-BE".toList, "be".toList, "euro".toList, "anke".toList, "pw".toList, false⟩

theorem layout_fits_eightGib :
    ∃ esp a b swap var, partitionLayout ⟨8589934592⟩ = some [esp, a, b, swap, var] ∧
      Fits 16777216 esp a b swap var :=
  (@layout_fits_iff sampleLang (sampleConfig 8589934592) rfl rfl).mpr (.inl (by decide))

/-- An accepted disk of 1.5 GiB: both slots and `EuroVar` stay below their minima. -/
theorem smallest_disk_too_small :
    validate sampleLang (sampleConfig 1610612736) = .ok () ∧
      (partitionLayout ⟨1610612736⟩).map (·.map fun p => (p.label, p.sectors * sector / mib)) =
        some [("EuroESP", 256), ("EuroOS-A", 479), ("EuroOS-B", 479), ("EuroSwap", 102),
          ("EuroVar", 218)] ∧
      slotMinBytes / mib = 512 ∧ varMinBytes / mib = 256 := ⟨rfl, rfl, rfl, rfl⟩

end EuroOS.Install
