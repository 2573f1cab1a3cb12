import EuroOS.CertChain
import Mathlib.Tactic

/-!
# The times of a certificate

`parse_asn1_time` and the closed form of the day number.  The day number agrees
with counting the days of the months one after the other; what the parser misses
is that the shorter months have fewer than 31 days.
-/

namespace EuroOS.Tls

def daysFromCivil (y m d : Int) : Int :=
  let y := if m ≤ 2 then y - 1 else y
  let era := (if 0 ≤ y then y else y - 399).tdiv 400
  let yoe := y - era * 400
  let mp := if 2 < m then m - 3 else m + 9
  let doy := (153 * mp + 2) / 5 + d - 1
  let doe := yoe * 365 + yoe / 4 - yoe / 100 + doy
  era * 146097 + doe - 719468

def num (b : Bytes) : Except X509Error Nat :=
  b.foldlM (fun v c => if 48 ≤ c ∧ c ≤ 57 then .ok (v * 10 + (c - 48).toNat)
    else .error .badTime) 0

def readYear (tag : UInt8) (content : Bytes) : Except X509Error (Nat × Bytes) :=
  if tag = 0x17 then
    if content.length ≠ 13 ∨ content[12]? ≠ some 90 then .error .badTime
    else do
      let yy ← num (slice content 0 2)
      return (if yy < 50 then 2000 + yy else 1900 + yy, slice content 2 10)
  else if tag = 0x18 then
    if content.length ≠ 15 ∨ content[14]? ≠ some 90 then .error .badTime
    else return (← num (slice content 0 4), slice content 4 10)
  else .error .unexpectedTag

structure TimeFields where
  (year mo da hh mi ss : Nat)

def readFields (tag : UInt8) (content : Bytes) : Except X509Error TimeFields := do
  let (year, rest) ← readYear tag content
  return ⟨year, ← num (slice rest 0 2), ← num (slice rest 2 2), ← num (slice rest 4 2),
    ← num (slice rest 6 2), ← num (slice rest 8 2)⟩

def TimeFields.InRange (t : TimeFields) : Prop :=
  1 ≤ t.mo ∧ t.mo ≤ 12 ∧ 1 ≤ t.da ∧ t.da ≤ 31 ∧ t.hh ≤ 23 ∧ t.mi ≤ 59 ∧ t.ss ≤ 60

instance (t : TimeFields) : Decidable t.InRange := inferInstanceAs (Decidable (_ ∧ _))

def parseAsn1Time (tag : UInt8) (content : Bytes) : Except X509Error Int := do
  let t ← readFields tag content
  if t.InRange then
    return daysFromCivil t.year t.mo t.da * 86400 + t.hh * 3600 + t.mi * 60 + t.ss
  else .error .badTime

/-! ## The calendar -/

def Leap (year : Nat) : Prop := year % 4 = 0 ∧ (year % 100 ≠ 0 ∨ year % 400 = 0)

instance (year : Nat) : Decidable (Leap year) := inferInstanceAs (Decidable (_ ∧ _))

def monthDays (year month : Nat) : Nat :=
  if month = 2 then if Leap year then 29 else 28
  else if month = 4 ∨ month = 6 ∨ month = 9 ∨ month = 11 then 30 else 31

/-- The days of the first `months` months, counted from January of the year 0. -/
def daysBefore : Nat → Nat
  | 0 => 0
  | months + 1 => daysBefore months + monthDays (months / 12) (months % 12 + 1)

def TimeFields.seconds (t : TimeFields) : Int :=
  (daysBefore (12 * t.year + (t.mo - 1)) + (t.da - 1) - daysBefore (12 * 1970)) * 86400 +
    t.hh * 3600 + t.mi * 60 + t.ss

/-- The fields denote an existing date and a time of day. -/
def TimeFields.Exists (t : TimeFields) : Prop := t.InRange ∧ t.da ≤ monthDays t.year t.mo

theorem daysFromCivil_eq (y m d : Nat) : daysFromCivil y m d =
    let z : Int := if m ≤ 2 then y - 1 else y
    365 * z + z / 4 - z / 100 + z / 400 + (153 * (if m ≤ 2 then m + 9 else m - 3 : Int) + 2) / 5 +
      d - 719469 := by
  have hera (z : Int) (hz : -1 ≤ z) : (if 0 ≤ z then z else z - 399).tdiv 400 = z / 400 := by
    split_ifs with h
    · exact Int.tdiv_eq_ediv_of_nonneg h
    · obtain rfl : z = -1 := by omega
      rfl
  simp only [daysFromCivil]
  rw [hera _ (by split_ifs <;> omega)]
  split_ifs <;> omega

theorem daysFromCivil_next_month (y : Nat) {m : Nat} (hm : 1 ≤ m) (hm' : m ≤ 11) :
    daysFromCivil y (m + 1 : Nat) (1 : Nat) = daysFromCivil y m (1 : Nat) + monthDays y m := by
  rw [daysFromCivil_eq, daysFromCivil_eq]
  by_cases hleap : Leap y <;> interval_cases m <;> simp [monthDays, hleap] <;>
    simp only [Leap] at hleap <;> omega

theorem daysFromCivil_next_year (y : Nat) :
    daysFromCivil (y + 1 : Nat) (1 : Nat) (1 : Nat) =
      daysFromCivil y (11 + 1 : Nat) (1 : Nat) + monthDays y (11 + 1) := by
  rw [daysFromCivil_eq, daysFromCivil_eq, monthDays]
  simp
  omega

theorem daysBefore_eq (n : Nat) : (daysBefore n : Int) =
    daysFromCivil (n / 12 : Nat) (n % 12 + 1 : Nat) (1 : Nat) + 719528 := by
  induction n with
  | zero => rfl
  | succ n ih =>
    rw [daysBefore, Nat.cast_add, ih]
    rcases Nat.lt_or_ge (n % 12) 11 with hlast | hlast
    · have hnext := daysFromCivil_next_month (n / 12) (Nat.le_add_left 1 (n % 12)) (by omega)
      rw [show (n + 1) / 12 = n / 12 by omega, show (n + 1) % 12 = n % 12 + 1 by omega, hnext]
      ring
    · have hnext := daysFromCivil_next_year (n / 12)
      rw [show (n + 1) / 12 = n / 12 + 1 by omega, show (n + 1) % 12 = 0 by omega, hnext,
        show n % 12 = 11 by omega]
      ring

theorem TimeFields.seconds_eq {t : TimeFields} (h : t.InRange) : t.seconds =
    daysFromCivil t.year t.mo t.da * 86400 + t.hh * 3600 + t.mi * 60 + t.ss := by
  obtain ⟨hmo, hmo', -⟩ := h
  have hepoch : daysFromCivil (12 * 1970 / 12 : Nat) (12 * 1970 % 12 + 1 : Nat) (1 : Nat) = 0 := rfl
  have hmonth := daysBefore_eq (12 * t.year + (t.mo - 1))
  rw [show (12 * t.year + (t.mo - 1)) / 12 = t.year by omega,
    show (12 * t.year + (t.mo - 1)) % 12 + 1 = t.mo by omega, daysFromCivil_eq] at hmonth
  rw [seconds, hmonth, daysBefore_eq (12 * 1970), hepoch, daysFromCivil_eq]
  ring

theorem parseAsn1Time_eq_ok {tag : UInt8} {content : Bytes} {seconds : Int} :
    parseAsn1Time tag content = .ok seconds ↔
      ∃ t, readFields tag content = .ok t ∧ t.InRange ∧ t.seconds = seconds := by
  rw [parseAsn1Time]
  cases readFields tag content with
  | error e => simp [bind, Except.bind]
  | ok t =>
    by_cases h : t.InRange
    · simp [bind, Except.bind, pure, Except.pure, h, TimeFields.seconds_eq h]
    · simp [bind, Except.bind, h]

theorem parse_exact_iff (tag : UInt8) (content : Bytes) :
    (∀ seconds, parseAsn1Time tag content = .ok seconds ↔
        ∃ t, readFields tag content = .ok t ∧ t.Exists ∧ t.seconds = seconds) ↔
      ∀ t, readFields tag content = .ok t → t.InRange → t.da ≤ monthDays t.year t.mo := by
  constructor
  · intro h t hread hrange
    obtain ⟨t', hread', hexists, -⟩ :=
      (h t.seconds).1 (parseAsn1Time_eq_ok.2 ⟨t, hread, hrange, rfl⟩)
    obtain rfl : t = t' := by simpa [hread] using hread'
    exact hexists.2
  · intro h seconds
    rw [parseAsn1Time_eq_ok]
    refine exists_congr fun t => and_congr_right fun hread => and_congr_left fun _ => ?_
    exact ⟨fun hrange => ⟨hrange, h t hread hrange⟩, And.left⟩

def february31 : Bytes := "240231000000Z".toList.map fun c => UInt8.ofNat c.toNat

theorem february31_accepted :
    readFields 0x17 february31 = .ok ⟨2024, 2, 31, 0, 0, 0⟩ ∧ monthDays 2024 2 = 29 ∧
      parseAsn1Time 0x17 february31 = .ok 1709337600 := ⟨rfl, rfl, rfl⟩

end EuroOS.Tls
