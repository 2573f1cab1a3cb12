import Mathlib.Tactic

/-!
# Bitmaps of 64-bit words

A list of words as a set of numbers: bit `i % 64` of word `i / 64` says whether `i`
is in it.  Setting and clearing a bit, finding the first set bit of a word, and
looking at a window of a word are described on the members.
-/

namespace EuroOS

abbrev Bitmap := List (BitVec 64)

namespace Bitmap

variable {m : Bitmap} {i j : Nat}

def test (m : Bitmap) (i : Nat) : Bool := (m.getD (i / 64) 0).getLsbD (i % 64)

def setBit (m : Bitmap) (i : Nat) : Bitmap := m.modify (i / 64) (· ||| (1#64 <<< (i % 64)))

def clearBit (m : Bitmap) (i : Nat) : Bitmap := m.modify (i / 64) (· &&& ~~~(1#64 <<< (i % 64)))

@[simp] theorem length_setBit (m : Bitmap) (i : Nat) : (m.setBit i).length = m.length := by
  simp [setBit]

@[simp] theorem length_clearBit (m : Bitmap) (i : Nat) : (m.clearBit i).length = m.length := by
  simp [clearBit]

theorem getLsbD_bit (ha : a < 64) (hb : b < 64) : (1#64 <<< a).getLsbD b = decide (a = b) := by
  rw [BitVec.getLsbD_shiftLeft]
  by_cases hab : a = b
  · subst hab
    simp [ha]
  by_cases hlt : b < a
  · simp [hlt, hab]
  · have : b - a ≠ 0 := by omega
    simp [hb, hab, hlt, BitVec.getLsbD_one, this]

theorem eq_iff_div_mod : i = j ↔ i / 64 = j / 64 ∧ i % 64 = j % 64 := by omega

theorem test_setBit (hi : i / 64 < m.length) (j : Nat) :
    (m.setBit i).test j = (decide (i = j) || m.test j) := by
  have hmod : i % 64 < 64 ∧ j % 64 < 64 := by omega
  by_cases hword : i / 64 = j / 64
  · have hj : j / 64 < m.length := hword ▸ hi
    have heq : i = j ↔ i % 64 = j % 64 := by rw [eq_iff_div_mod]; tauto
    simp [test, setBit, hword, hj, getLsbD_bit hmod.1 hmod.2, heq, Bool.or_comm]
  · have hne : i ≠ j := fun he => hword (by rw [he])
    simp [test, setBit, hword, hne]

theorem test_clearBit (m : Bitmap) (i j : Nat) :
    (m.clearBit i).test j = (!decide (i = j) && m.test j) := by
  have hmod : i % 64 < 64 ∧ j % 64 < 64 := by omega
  by_cases hword : i / 64 = j / 64
  · have heq : i = j ↔ i % 64 = j % 64 := by rw [eq_iff_div_mod]; tauto
    by_cases hj : j / 64 < m.length
    · have hget : (m.clearBit i).getD (j / 64) 0 =
          m.getD (j / 64) 0 &&& ~~~(1#64 <<< (i % 64)) := by simp [clearBit, hword, hj]
      rw [test, test, hget, BitVec.getLsbD_and, BitVec.getLsbD_not, getLsbD_bit hmod.1 hmod.2]
      simp [hmod.2, heq, Bool.and_comm]
    · simp [test, clearBit, hword, hj]
  · have hne : i ≠ j := fun he => hword (by rw [he])
    simp [test, clearBit, hword, hne]

@[simp] theorem length_foldl_setBit (l : List Nat) (m : Bitmap) :
    (l.foldl setBit m).length = m.length := by
  induction l generalizing m with
  | nil => rfl
  | cons i l ih => simp [ih]

@[simp] theorem length_foldl_clearBit (l : List Nat) (m : Bitmap) :
    (l.foldl clearBit m).length = m.length := by
  induction l generalizing m with
  | nil => rfl
  | cons i l ih => simp [ih]

theorem test_foldl_setBit {l : List Nat} (hl : ∀ i ∈ l, i / 64 < m.length) (j : Nat) :
    (l.foldl setBit m).test j = (decide (j ∈ l) || m.test j) := by
  induction l generalizing m with
  | nil => simp
  | cons i l ih =>
    have hrest : ∀ k ∈ l, k / 64 < (m.setBit i).length := fun k hk => by
      simpa using hl k (by simp [hk])
    rw [List.foldl_cons, ih hrest, test_setBit (hl i (by simp))]
    by_cases hij : j = i
    · simp [hij]
    · simp [hij, Ne.symm hij]

theorem test_foldl_clearBit (l : List Nat) (m : Bitmap) (j : Nat) :
    (l.foldl clearBit m).test j = (!decide (j ∈ l) && m.test j) := by
  induction l generalizing m with
  | nil => simp
  | cons i l ih =>
    rw [List.foldl_cons, ih, test_clearBit]
    by_cases hij : j = i
    · simp [hij]
    · simp [hij, Ne.symm hij]

end Bitmap

/-! ## The first set bit -/

def trailingZeros (w : BitVec 64) : Nat :=
  ((List.range 64).find? fun i => w.getLsbD i).getD 64

def trailingOnes (w : BitVec 64) : Nat := trailingZeros (~~~w)

theorem trailingZeros_spec (h : w ≠ 0) :
    trailingZeros w < 64 ∧ w.getLsbD (trailingZeros w) ∧
      ∀ j < trailingZeros w, w.getLsbD j = false := by
  unfold trailingZeros
  cases hfind : (List.range 64).find? fun i => w.getLsbD i with
  | none =>
    have hzero : w = 0 := by
      refine BitVec.eq_of_getLsbD_eq fun i hi => ?_
      simpa using List.find?_eq_none.mp hfind i (List.mem_range.mpr hi)
    exact absurd hzero h
  | some i =>
    obtain ⟨hbit, hlt, hbelow⟩ := List.find?_range_eq_some.mp hfind
    exact ⟨List.mem_range.mp hlt, hbit, fun j hj => by simpa using hbelow j hj⟩

theorem trailingOnes_spec (h : w ≠ BitVec.allOnes 64) :
    trailingOnes w < 64 ∧ w.getLsbD (trailingOnes w) = false := by
  have hne : ~~~w ≠ 0 := by
    intro hzero
    refine h (BitVec.eq_of_getLsbD_eq fun i hi => ?_)
    have hbit : (~~~w).getLsbD i = false := by simp [hzero]
    have hset : w.getLsbD i = true := by simpa [hi] using hbit
    rw [hset, BitVec.getLsbD_allOnes, decide_eq_true hi]
  obtain ⟨hlt, hbit, -⟩ := trailingZeros_spec hne
  exact ⟨hlt, by simpa [trailingOnes, hlt] using hbit⟩

def wordWindow (w : BitVec 64) (lo hi : Nat) : BitVec 64 :=
  if hi < 64 then (w >>> lo) &&& ((1#64 <<< (hi - lo)) - 1) else w >>> lo

theorem getLsbD_wordWindow (hhi : hi ≤ 64) (hlo : lo < hi) (j : Nat) :
    (wordWindow w lo hi).getLsbD j = (decide (lo + j < hi) && w.getLsbD (lo + j)) := by
  unfold wordWindow
  split_ifs with hlt
  · have hmask : (1#64 <<< (hi - lo)) - 1 = BitVec.ofNat 64 (2 ^ (hi - lo) - 1) := by
      have hpow : 2 ^ (hi - lo) < 2 ^ 64 := Nat.pow_lt_pow_right (by omega) (by omega)
      have hpos : 0 < 2 ^ (hi - lo) := Nat.two_pow_pos _
      refine BitVec.eq_of_toNat_eq ?_
      have hone : (1#64 <<< (hi - lo)).toNat = 2 ^ (hi - lo) := by
        rw [BitVec.toNat_shiftLeft, Nat.shiftLeft_eq, BitVec.toNat_ofNat,
          Nat.one_mod_two_pow (by decide),
          Nat.one_mul, Nat.mod_eq_of_lt hpow]
      have hle : 1#64 ≤ 1#64 <<< (hi - lo) := by
        rw [BitVec.le_def, hone]
        exact hpos
      rw [show (1 : BitVec 64) = 1#64 from rfl, BitVec.toNat_sub_of_le hle, hone,
        BitVec.toNat_ofNat, BitVec.toNat_ofNat]
      omega
    rw [BitVec.getLsbD_and, BitVec.getLsbD_ushiftRight, hmask, BitVec.getLsbD_ofNat,
      Nat.testBit_two_pow_sub_one, Bool.and_comm]
    have hiff : (j < 64 ∧ j < hi - lo) ↔ lo + j < hi := by omega
    simp [← Bool.decide_and, hiff]
  · obtain rfl : hi = 64 := by omega
    rw [BitVec.getLsbD_ushiftRight]
    by_cases hj : lo + j < 64
    · simp [hj]
    · simp [hj, BitVec.getLsbD_of_ge w (lo + j) (by omega)]

end EuroOS
