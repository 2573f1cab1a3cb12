import Mathlib.Tactic

/-!
# Sequence numbers modulo 2^32

A stream position is a natural number; its sequence number is that many steps after
the base, modulo 2^32.  Two positions less than 2^32 apart are told apart by the
wrap-around difference of their numbers.
-/

namespace EuroOS

namespace SeqNum

def ofPos (base : UInt32) (pos : Nat) : UInt32 := base + UInt32.ofNat pos

variable {base : UInt32} {a b : Nat}

@[simp] theorem ofPos_zero (base : UInt32) : ofPos base 0 = base := UInt32.add_zero base

theorem ofPos_add (base : UInt32) (a n : Nat) :
    ofPos base a + UInt32.ofNat n = ofPos base (a + n) := by
  unfold ofPos
  rw [UInt32.ofNat_add, UInt32.add_assoc]

theorem ofPos_succ (base : UInt32) (a : Nat) : ofPos base a + 1 = ofPos base (a + 1) :=
  ofPos_add base a 1

theorem toNat_ofPos (base : UInt32) (a : Nat) :
    (ofPos base a).toNat = (base.toNat + a) % 2 ^ 32 := by
  unfold ofPos
  rw [UInt32.toNat_add, UInt32.toNat_ofNat', Nat.add_mod_mod]

theorem toNat_sub_of_le (hle : b ≤ a) (hlt : a - b < 2 ^ 32) :
    (ofPos base a - ofPos base b).toNat = a - b := by
  rw [UInt32.toNat_sub, toNat_ofPos, toNat_ofPos]
  omega

theorem toNat_sub_of_lt (hlt : a < b) (hnear : b - a < 2 ^ 32) :
    (ofPos base a - ofPos base b).toNat = 2 ^ 32 - (b - a) := by
  rw [UInt32.toNat_sub, toNat_ofPos, toNat_ofPos]
  omega

theorem ofPos_inj (hab : a < b + 2 ^ 32) (hba : b < a + 2 ^ 32) :
    ofPos base a = ofPos base b ↔ a = b := by
  constructor
  · intro h
    have hnat := congrArg UInt32.toNat h
    rw [toNat_ofPos, toNat_ofPos] at hnat
    omega
  · intro h
    rw [h]

theorem sub_eq_zero_iff (hab : a < b + 2 ^ 32) (hba : b < a + 2 ^ 32) :
    ofPos base a - ofPos base b = 0 ↔ a = b := by
  have ha := (ofPos base a).toNat_lt
  have hb := (ofPos base b).toNat_lt
  rw [← UInt32.toNat_inj, UInt32.toNat_sub, UInt32.toNat_zero]
  constructor
  · intro h
    apply (@ofPos_inj base a b hab hba).mp
    apply UInt32.toNat_inj.mp
    omega
  · rintro rfl
    omega

theorem exists_ofPos (base x : UInt32) (a : Nat) :
    ∃ d < 2 ^ 32, x = ofPos base (a + d) ∧ (x - ofPos base a).toNat = d := by
  refine ⟨(x - ofPos base a).toNat, UInt32.toNat_lt _, ?_, rfl⟩
  apply UInt32.toNat_inj.mp
  have hx := x.toNat_lt
  rw [toNat_ofPos, UInt32.toNat_sub, toNat_ofPos]
  omega

end SeqNum

end EuroOS
