import EuroOS.FatSlots
import Mathlib

/-!
# The entries of a new name

The driver makes a named entry, preceded by fragments if the name is not a plain
short one.
-/

namespace EuroOS.Fat

open List

/-! ## Short names -/

theorem length_overlay (h : off + bytes.length ≤ out.length) :
    (overlay out off bytes).length = out.length := by
  simp only [overlay, length_append, length_take, length_drop]
  omega

theorem getElem?_overlay_of_lt (hi : i < off) (h : off ≤ out.length) :
    (overlay out off bytes)[i]? = out[i]? := by
  rw [overlay, append_assoc, getElem?_append_left (by simp; omega), getElem?_take_of_lt hi]

theorem getElem?_overlay_self (hi : i < bytes.length) (h : off ≤ out.length) :
    (overlay out off bytes)[off + i]? = bytes[i]? := by
  have htake : (out.take off).length = off := by simpa using h
  rw [overlay, append_assoc, getElem?_append_right (by omega), htake,
    Nat.add_sub_cancel_left, getElem?_append_left hi]

theorem utf8_of_lt (h : c.toNat < 128) : String.utf8EncodeChar c = [UInt8.ofNat c.toNat] := by
  have hsize : c.utf8Size = 1 := by
    rw [Char.utf8Size_eq_one_iff]
    rw [UInt32.le_iff_toNat_le]
    change c.toNat ≤ 127
    omega
  rw [String.utf8EncodeChar_eq_singleton hsize]
  rfl

theorem ascii_forall {P : Char → Prop} (h : ∀ n < 128, P (Char.ofNat n)) (hc : c.toNat < 128) :
    P c := by
  have hchar := h c.toNat hc
  rwa [Char.ofNat_toNat] at hchar

theorem lt_of_validShort (h : validShort c = true) : c.toNat < 128 := by
  simp only [validShort, Bool.or_eq_true] at h
  rcases h with (h | h) | h
  · simp only [isUpper, Bool.and_eq_true, decide_eq_true_eq, Char.le_def,
      UInt32.le_iff_toNat_le] at h
    exact h.2.trans_lt (by decide)
  · simp only [Char.isDigit, Bool.and_eq_true, decide_eq_true_eq, UInt32.le_iff_toNat_le] at h
    exact h.2.trans_lt (by decide)
  · have hmem : c ∈ shortPunctuation := contains_iff_mem.mp h
    have hall : ∀ c ∈ shortPunctuation, c.toNat < 128 :=
      forall_mem_of_all (by decide)
    exact hall c hmem

def StartsName (b : UInt8) : Prop := Entry.isFree b = false ∧ b ≠ 0x2E

instance (b : UInt8) : Decidable (StartsName b) := inferInstanceAs (Decidable (_ ∧ _))

theorem startsName_of_validShort (h : validShort c = true) : StartsName (UInt8.ofNat c.toNat) := by
  have hall : ∀ n < 128, validShort (Char.ofNat n) = true →
      StartsName (UInt8.ofNat (Char.ofNat n).toNat) := by decide +kernel
  exact ascii_forall (P := fun c => validShort c = true → StartsName (UInt8.ofNat c.toNat)) hall
    (lt_of_validShort h) h

theorem bytes_of_ascii {s : Str} (h : ∀ c ∈ s, c.toNat < 128) :
    s.bytes = s.map fun c => UInt8.ofNat c.toNat := by
  induction s with
  | nil => rfl
  | cons c s ih =>
    rw [Str.bytes_cons, utf8_of_lt (h c (mem_cons_self ..)),
      ih fun d hd => h d (mem_cons_of_mem _ hd)]
    rfl

theorem length_blanks : blanks.length = 11 := rfl

structure PlainShort (base ext : Str) : Prop where
  base_ne : base ≠ []
  base_length : base.length ≤ 8
  ext_length : ext.length ≤ 3
  base_valid : ∀ c ∈ base, validShort c = true

def charBytes (s : Str) : Bytes := s.map fun c => UInt8.ofNat c.toNat

theorem short83_eq_some {short : Bytes} (h : short83 name = some short) :
    ∃ base ext, PlainShort base ext ∧
      short = overlay (overlay blanks 0 (charBytes base)) 8 (charBytes ext) := by
  unfold short83 at h
  generalize baseExt name = parts at h
  obtain ⟨base, ext⟩ := parts
  dsimp only at h
  split_ifs at h with hsizes hchars
  cases h
  simp only [Bool.or_eq_true, List.isEmpty_iff, decide_eq_true_eq, not_or, not_lt] at hsizes
  simp only [Bool.or_eq_true, Bool.not_eq_true', all_eq_false, not_or, not_exists, not_and,
    Bool.not_eq_true, Bool.not_eq_false] at hchars
  obtain ⟨⟨hbase, hbaseLength⟩, hextLength⟩ := hsizes
  obtain ⟨hbaseValid, hextValid⟩ := hchars
  have hbaseBytes : base.bytes = charBytes base :=
    bytes_of_ascii fun c hc => lt_of_validShort (hbaseValid c hc)
  have hextBytes : ext.bytes = charBytes ext :=
    bytes_of_ascii fun c hc => lt_of_validShort (hextValid c hc)
  rw [hbaseBytes, charBytes, length_map] at hbaseLength
  rw [hextBytes, charBytes, length_map] at hextLength
  rw [hbaseBytes, hextBytes]
  exact ⟨base, ext, ⟨hbase, hbaseLength, hextLength, hbaseValid⟩, rfl⟩

/-- The bytes of a short name: eleven, and a first one that only such names have. -/
def ShortName (short : Bytes) : Prop := short.length = 11 ∧ StartsName (short[0]?.getD 0)

theorem shortName_overlay (hfront : front ≠ []) (hlength : front.length ≤ 11)
    (hext : ext.length ≤ 3) (hstart : StartsName (front[0]?.getD 0)) :
    ShortName (overlay (overlay blanks 0 front) 8 ext) := by
  have hlower : (overlay blanks 0 front).length = 11 := by
    rw [length_overlay (by rw [length_blanks]; omega), length_blanks]
  refine ⟨by rw [length_overlay (by omega), hlower], ?_⟩
  have hself : (overlay blanks 0 front)[0 + 0]? = front[0]? :=
    getElem?_overlay_self (length_pos_of_ne_nil hfront) (by simp)
  rw [Nat.add_zero] at hself
  rw [getElem?_overlay_of_lt (by decide) (by omega), hself]
  exact hstart

theorem shortName_short83 (h : short83 name = some short) : ShortName short := by
  obtain ⟨base, ext, hplain, rfl⟩ := short83_eq_some h
  cases base with
  | nil => exact absurd rfl hplain.base_ne
  | cons c base =>
    have hlength : (charBytes (c :: base)).length ≤ 8 := by
      simpa [charBytes] using hplain.base_length
    have hext : (charBytes ext).length ≤ 3 := by simpa [charBytes] using hplain.ext_length
    refine shortName_overlay (by simp [charBytes]) (by omega) hext ?_
    exact startsName_of_validShort (hplain.base_valid c (mem_cons_self ..))

theorem startsName_of_mem_cleanShort {s : Str} {b : UInt8} (h : b ∈ cleanShort s) : StartsName b := by
  obtain ⟨c, hc, rfl⟩ := mem_map.mp h
  have halnum : c.isAlphanum = true := (mem_filter.mp hc).2
  have hascii : c.toNat < 128 := by
    simp only [Char.isAlphanum, Char.isAlpha, Char.isUpper, Char.isLower, Char.isDigit,
      Bool.or_eq_true, Bool.and_eq_true, decide_eq_true_eq, UInt32.le_iff_toNat_le] at halnum
    rcases halnum with (halnum | halnum) | halnum <;> exact halnum.2.trans_lt (by decide)
  have hall : ∀ n < 128, (Char.ofNat n).isAlphanum = true →
      StartsName (UInt8.ofNat (Char.ofNat n).toUpper.toNat) := by decide +kernel
  exact ascii_forall (P := fun c => c.isAlphanum = true → StartsName (UInt8.ofNat c.toUpper.toNat))
    hall hascii halnum

theorem overlay_overlay_adjacent (out a b : Bytes) :
    overlay (overlay out 0 a) a.length b = overlay out 0 (a ++ b) := by simp [overlay, drop_append]

theorem shortName_mangle83 {n : Nat} (hn : n < 10 ^ 10) : ShortName (mangle83 name n) := by
  unfold mangle83
  generalize baseExt name = parts
  obtain ⟨base, ext⟩ := parts
  dsimp only
  have hdigits : (Str.decimal n).length ≤ 10 := Nat.toDigits_length 10 n 10 (by decide) hn
  have hsuffix : Str.bytes ('~' :: Str.decimal n) = charBytes ('~' :: Str.decimal n) := by
    refine bytes_of_ascii fun c hc => ?_
    rcases mem_cons.mp hc with rfl | hc
    · decide
    have hdigit := Str.isDigit_of_mem_decimal hc
    simp only [Char.isDigit, Bool.and_eq_true, decide_eq_true_eq, UInt32.le_iff_toNat_le] at hdigit
    exact hdigit.2.trans_lt (by decide)
  have hlength : (Str.bytes ('~' :: Str.decimal n)).length = (Str.decimal n).length + 1 := by
    rw [hsuffix]
    simp [charBytes]
  rw [overlay_overlay_adjacent]
  refine shortName_overlay ?_ ?_ (by simp) ?_
  · rw [hsuffix]
    simp [charBytes]
  · rw [length_append, length_take]
    omega
  · cases hfront : (cleanShort base).take (8 - (Str.bytes ('~' :: Str.decimal n)).length) with
    | nil =>
      rw [hsuffix]
      exact (by decide : StartsName 0x7E)
    | cons b front =>
      have hmem : b ∈ cleanShort base := mem_of_mem_take (hfront ▸ mem_cons_self ..)
      exact startsName_of_mem_cleanShort hmem

theorem shortName_uniqueShortFrom (h : n + fuel < 10 ^ 10) :
    ShortName (uniqueShortFrom name used fuel n) := by
  induction fuel generalizing n with
  | zero => exact shortName_mangle83 (by omega)
  | succ fuel ih =>
    unfold uniqueShortFrom
    split_ifs
    · exact ih (by omega)
    · exact shortName_mangle83 (by omega)

theorem shortName_uniqueShort (name : Str) (used : List Bytes) : ShortName (uniqueShort name used) := by
  unfold uniqueShort
  split
  next short hshort =>
    split_ifs
    · exact shortName_uniqueShortFrom (by norm_num)
    · exact shortName_short83 hshort
  next => exact shortName_uniqueShortFrom (by norm_num)

/-! ## Made entries -/

section Made

theorem length_sfnEntry (h : short.length = 11) : (sfnEntry short attr first size).length = 32 := by
  simp [sfnEntry, h]

theorem sfnEntry_eq (short : Bytes) (attr : UInt8) (first size : Nat) :
    sfnEntry short attr first size = short ++ ([attr, 0, 0, 0, 0] ++ (le 2 date1980 ++
      (le 2 date1980 ++ (le 2 (first / 2 ^ 16) ++ ([0, 0] ++ (le 2 date1980 ++
        (le 2 first ++ le 4 size))))))) := by simp [sfnEntry, append_assoc]

theorem byte_sfnEntry_of_lt (h : i < short.length) :
    (sfnEntry short attr first size).byte i = short[i]?.getD 0 := by
  rw [sfnEntry_eq, Entry.byte, getElem?_append_left h]

theorem byte_sfnEntry_attr (h : short.length = 11) : (sfnEntry short attr first size).byte 11 = attr := by
  rw [sfnEntry_eq, Entry.byte, getElem?_append_right h.le, h]
  rfl

theorem first_sfnEntry (h : short.length = 11) (hfirst : first < 2 ^ 32) :
    (sfnEntry short attr first size).first = first := by
  unfold Entry.first
  rw [sfnEntry_eq]
  simp (disch := simp [h]) only [rd_append_right, rd_field]
  omega

theorem size_sfnEntry (h : short.length = 11) (hsize : size < 2 ^ 32) :
    (sfnEntry short attr first size).size = size := by
  unfold Entry.size
  rw [sfnEntry_eq, ← append_nil (le 4 size)]
  simp (disch := simp [h]) only [rd_append_right, rd_field]
  omega

def IsKind (attr : UInt8) : Prop := attr = 0 ∨ attr = attrDir

theorem byte_zero_sfnEntry (hshort : ShortName short) :
    (sfnEntry short attr first size).byte 0 ≠ 0x2E := by
  obtain ⟨hlength, -, hdot⟩ := hshort
  rw [byte_sfnEntry_of_lt (by omega)]
  exact hdot

theorem isDir_sfnEntry (hshort : short.length = 11) (hattr : IsKind attr) :
    (sfnEntry short attr first size).isDir = decide (attr = attrDir) := by
  rw [Entry.isDir, byte_sfnEntry_attr hshort]
  rcases hattr with rfl | rfl <;> decide

theorem length_lfnEntry (order chksum : UInt8) (units : Units) (start : Nat) :
    (lfnEntry order chksum units start).length = 32 := by simp [lfnEntry, length_flatMap]

theorem isFragment_lfnEntry (order chksum : UInt8) (units : Units) (start : Nat) :
    (lfnEntry order chksum units start).isFragment = true := by rfl

theorem makeEntries_eq (name : Str) (short : Bytes) (attr : UInt8) (first size : Nat)
    (needLfn : Bool) :
    ∃ fragments, makeEntries name short attr first size needLfn =
      fragments ++ [sfnEntry short attr first size] ∧
      ∀ e ∈ fragments, e.length = 32 ∧ e.isFragment = true := by
  refine ⟨_, rfl, fun e he => ?_⟩
  split_ifs at he
  · obtain ⟨g, -, rfl⟩ := mem_map.mp he
    exact ⟨length_lfnEntry .., isFragment_lfnEntry ..⟩
  · cases he

end Made

end EuroOS.Fat
