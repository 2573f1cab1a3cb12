import Mathlib.Tactic

/-!
# Byte strings, little-endian fields and UTF-8

The library under every on-disk format: numbers stored least significant byte
first, fields read at an offset, tables of records of one size, and text as the
UTF-8 encoding of a list of characters.  Round trips are assembled from
`rd_append_left`, `rd_append_right` and `parse_records`.
-/

namespace EuroOS

open List

abbrev Bytes := List UInt8

-- Machine words and characters can be enumerated: a bounded quantifier over them is decided over
-- the list alone only when it is written as `List.all`.
theorem forall_mem_of_all {α : Type} {p : α → Prop} [DecidablePred p] {l : List α}
    (h : (l.all fun a => decide (p a)) = true) : ∀ a ∈ l, p a := fun a ha =>
  of_decide_eq_true (all_eq_true.mp h a ha)

def le : Nat → Nat → Bytes
  | 0, _ => []
  | width + 1, n => UInt8.ofNat n :: le width (n / 256)

def leNat : Bytes → Nat
  | [] => 0
  | b :: bs => b.toNat + 256 * leNat bs

@[simp] theorem length_le (width n : Nat) : (le width n).length = width := by
  induction width generalizing n with
  | zero => rfl
  | succ width ih => simp [le, ih]

theorem leNat_le (width n : Nat) : leNat (le width n) = n % 256 ^ width := by
  induction width generalizing n with
  | zero => simp [le, leNat, Nat.mod_one]
  | succ width ih =>
    have hsplit : n % (256 * 256 ^ width) = n % 256 + 256 * (n / 256 % 256 ^ width) :=
      Nat.mod_mul
    have hbyte : (UInt8.ofNat n).toNat = n % 256 := UInt8.toNat_ofNat'
    rw [le, leNat, ih, hbyte, pow_succ', hsplit]

theorem leNat_lt (bs : Bytes) : leNat bs < 256 ^ bs.length := by
  induction bs with
  | nil => simp [leNat]
  | cons b bs ih =>
    have hb := b.toNat_lt
    simp only [leNat, length_cons, Nat.pow_succ']
    omega

/-! ## Fields at an offset -/

def rd (width : Nat) (b : Bytes) (o : Nat) : Nat :=
  leNat ((b.drop o).take width)

theorem rd_lt (width : Nat) (b : Bytes) (o : Nat) : rd width b o < 256 ^ width := by
  refine (leNat_lt _).trans_le (Nat.pow_le_pow_right (by omega) ?_)
  simp

variable {a : Bytes}

theorem rd_append_left (b : Bytes) (h : o + width ≤ a.length) :
    rd width (a ++ b) o = rd width a o := by
  unfold rd
  rw [drop_append_of_le_length (by omega), take_append_of_le_length (by simp; omega)]

theorem rd_append_right (b : Bytes) (h : a.length ≤ o) :
    rd width (a ++ b) o = rd width b (o - a.length) := by
  unfold rd
  rw [drop_append, drop_eq_nil_of_le h, nil_append]

theorem rd_drop (width : Nat) (b : Bytes) (k o : Nat) :
    rd width (b.drop k) o = rd width b (k + o) := by simp [rd, drop_drop]

theorem rd_le_append (width n : Nat) (b : Bytes) :
    rd width (le width n ++ b) 0 = n % 256 ^ width := by
  rw [rd_append_left b (by simp), rd, drop_zero, take_of_length_le (by simp), leNat_le]

/-- For `simp`, which leaves the position as a difference. -/
theorem rd_field (b : Bytes) (h : o = 0) : rd width (le width n ++ b) o = n % 256 ^ width := by
  rw [h, rd_le_append]

theorem rd_le_append_of_lt (b : Bytes) (h : n < 256 ^ width) :
    rd width (le width n ++ b) 0 = n := by rw [rd_le_append, Nat.mod_eq_of_lt h]

theorem rd_le_uint64 (x : UInt64) (b : Bytes) : rd 8 (le 8 x.toNat ++ b) 0 = x.toNat :=
  rd_le_append_of_lt b x.toNat_lt

theorem rd_le_uint32 (x : UInt32) (b : Bytes) : rd 4 (le 4 x.toNat ++ b) 0 = x.toNat :=
  rd_le_append_of_lt b x.toNat_lt

theorem rd_le_uint16 (x : UInt16) (b : Bytes) : rd 2 (le 2 x.toNat ++ b) 0 = x.toNat :=
  rd_le_append_of_lt b x.toNat_lt

theorem rd_le_uint8 (x : UInt8) (b : Bytes) : rd 1 (le 1 x.toNat ++ b) 0 = x.toNat :=
  rd_le_append_of_lt b x.toNat_lt

theorem le_uint64_inj {x y : UInt64} (h : le 8 x.toNat = le 8 y.toNat) : x = y := by
  have hx := rd_le_uint64 x []
  rw [h, rd_le_uint64] at hx
  exact (UInt64.toNat_inj.mp hx).symm

def slice (b : Bytes) (o n : Nat) : Bytes := (b.drop o).take n

theorem length_slice (h : o + n ≤ b.length) : (slice b o n).length = n := by
  simp [slice]
  omega

theorem slice_append_right (b : Bytes) (h : a.length ≤ o) :
    slice (a ++ b) o n = slice b (o - a.length) n := by
  unfold slice
  rw [drop_append, drop_eq_nil_of_le h, nil_append]

theorem slice_append_left (b : Bytes) (h : o + n ≤ a.length) :
    slice (a ++ b) o n = slice a o n := by
  unfold slice
  rw [drop_append_of_le_length (by omega), take_append_of_le_length (by simp; omega)]

theorem slice_zero_length_append (a b : Bytes) : slice (a ++ b) 0 a.length = a := by simp [slice]

def padTo (n : Nat) (b : Bytes) : Bytes := b ++ List.replicate (n - b.length) 0

theorem length_padTo (h : b.length ≤ n) : (padTo n b).length = n := by
  simp [padTo]
  omega

/-! ## Tables of records -/

section Records

variable {α β : Type} {enc : α → Bytes} {d : Bytes → β} {f : α → β} {size : Nat}
  {l : List α}

variable (hsize : ∀ a ∈ l, (enc a).length = size)
include hsize

theorem length_flatMap_records : (l.flatMap enc).length = l.length * size := by
  induction l with
  | nil => simp
  | cons a l ih =>
    rw [flatMap_cons, length_append, hsize a (by simp),
      ih fun b hb => hsize b (by simp [hb]), length_cons, Nat.succ_mul,
      Nat.add_comm]

theorem drop_flatMap_records (i : Nat) :
    (l.flatMap enc).drop (i * size) = (l.drop i).flatMap enc := by
  induction l generalizing i with
  | nil => simp
  | cons a l ih =>
    have htail : ∀ b ∈ l, (enc b).length = size := fun b hb => hsize b (by simp [hb])
    cases i with
    | zero => simp
    | succ i =>
      rw [flatMap_cons, Nat.succ_mul, Nat.add_comm, ← hsize a (by simp), ← drop_drop, drop_left,
        hsize a (by simp), ih htail, drop_succ_cons]

/-- Reading every record of a table, between a header and what follows the
table, gives what one record reads back as, in the order of the table. -/
theorem parse_records (hdec : ∀ a ∈ l, ∀ rest, d (enc a ++ rest) = f a) (header rest : Bytes) :
    (List.range l.length).map
        (fun i => d ((header ++ (l.flatMap enc ++ rest)).drop
          (header.length + i * size))) = l.map f := by
  apply ext_getElem
  · simp
  · intro i hi hil
    rw [length_map, length_range] at hi
    have hdrop : (header ++ (l.flatMap enc ++ rest)).drop
        (header.length + i * size) = enc l[i] ++ ((l.drop (i + 1)).flatMap enc ++ rest) := by
      rw [← drop_drop, drop_left, drop_append_of_le_length,
        drop_flatMap_records hsize, drop_eq_getElem_cons hi,
        flatMap_cons, append_assoc]
      rw [length_flatMap_records hsize]
      exact Nat.mul_le_mul_right _ hi.le
    rw [getElem_map, getElem_range, hdrop, getElem_map]
    exact hdec _ (getElem_mem hi) _

def table (magic : Nat) (enc : α → Bytes) (l : List α) : Bytes :=
  le 4 magic ++ (le 4 l.length ++ l.flatMap enc)

theorem length_table (magic : Nat) : (table magic enc l).length = 8 + l.length * size := by
  rw [table, length_append, length_append, length_flatMap_records hsize,
    length_le, length_le, ← Nat.add_assoc]

omit hsize in
theorem table_magic (hmagic : magic < 256 ^ 4) (rest : Bytes) :
    rd 4 (table magic enc l ++ rest) 0 = magic := by
  rw [table, append_assoc, rd_le_append_of_lt _ hmagic]

omit hsize in
theorem table_count (magic : Nat) (hcount : l.length < 256 ^ 4) (rest : Bytes) :
    rd 4 (table magic enc l ++ rest) 4 = l.length := by
  rw [table, append_assoc, rd_append_right _ (by simp), length_le, Nat.sub_self,
    append_assoc, rd_le_append_of_lt _ hcount]

theorem table_rows (hdec : ∀ a ∈ l, ∀ rest, d (enc a ++ rest) = f a) (magic : Nat) (rest : Bytes) :
    (List.range l.length).map
      (fun i => d ((table magic enc l ++ rest).drop (8 + i * size))) = l.map f := by
  have hrows := parse_records hsize hdec (le 4 magic ++ le 4 l.length) rest
  simpa only [length_append, length_le, table, append_assoc] using hrows

end Records

/-! ## Text -/

abbrev Str := List Char

instance : LawfulBEq Str := inferInstance

def Str.bytes (s : Str) : Bytes := s.flatMap String.utf8EncodeChar

@[simp] theorem Str.bytes_nil : Str.bytes [] = [] := rfl

@[simp] theorem Str.bytes_cons (c : Char) (s : Str) :
    Str.bytes (c :: s) = String.utf8EncodeChar c ++ Str.bytes s := rfl

def fromUtf8 (b : Bytes) : Option Str :=
  b.toByteArray.utf8Decode?.map Array.toList

theorem fromUtf8_bytes (s : Str) : fromUtf8 s.bytes = some s := by
  have hencode : s.bytes.toByteArray = List.utf8Encode s := rfl
  simp [fromUtf8, hencode]

theorem Str.bytes_injective : Function.Injective Str.bytes := by
  intro s t h
  have hdecode := congrArg fromUtf8 h
  rwa [fromUtf8_bytes, fromUtf8_bytes, Option.some.injEq] at hdecode

/-- How many bytes of an ill-formed sequence one replacement character stands
for: the lead byte and the continuation bytes that were still acceptable. -/
def brokenLength : Bytes → Nat
  | [] => 1
  | lead :: rest =>
    let cont : Nat → UInt8 → UInt8 → Bool := fun i lo hi =>
      match rest[i]? with
      | some b => lo ≤ b && b ≤ hi
      | none => false
    if 0xE0 ≤ lead && lead ≤ 0xEF then
      let lo : UInt8 := if lead = 0xE0 then 0xA0 else 0x80
      let hi : UInt8 := if lead = 0xED then 0x9F else 0xBF
      if cont 0 lo hi then 2 else 1
    else if 0xF0 ≤ lead && lead ≤ 0xF4 then
      let lo : UInt8 := if lead = 0xF0 then 0x90 else 0x80
      let hi : UInt8 := if lead = 0xF4 then 0x8F else 0xBF
      if cont 0 lo hi then (if cont 1 0x80 0xBF then 3 else 2) else 1
    else 1

def fromUtf8LossyFrom : Nat → Bytes → Str
  | 0, _ => []
  | _ + 1, [] => []
  | fuel + 1, b :: bs =>
    match (b :: bs).toByteArray.utf8DecodeChar? 0 with
    | some c => c :: fromUtf8LossyFrom fuel ((b :: bs).drop c.utf8Size)
    | none => Char.ofNat 0xFFFD ::
        fromUtf8LossyFrom fuel ((b :: bs).drop (brokenLength (b :: bs)))

def fromUtf8Lossy (b : Bytes) : Str := fromUtf8LossyFrom b.length b

theorem fromUtf8LossyFrom_bytes (s : Str) (hfuel : s.bytes.length ≤ fuel) :
    fromUtf8LossyFrom fuel s.bytes = s := by
  induction s generalizing fuel with
  | nil => cases fuel <;> rfl
  | cons c s ih =>
    have hpos := c.utf8Size_pos
    have hlen : (String.utf8EncodeChar c).length = c.utf8Size :=
      String.length_utf8EncodeChar c
    rw [Str.bytes_cons, length_append, hlen] at hfuel
    cases fuel with
    | zero => omega
    | succ fuel =>
      have hdecode : (Str.bytes (c :: s)).toByteArray.utf8DecodeChar? 0 = some c := by
        rw [Str.bytes_cons, toByteArray_append]
        exact ByteArray.utf8DecodeChar?_utf8EncodeChar_append
      have hdrop : (Str.bytes (c :: s)).drop c.utf8Size = Str.bytes s := by
        rw [Str.bytes_cons, ← hlen, drop_left]
      cases hbytes : Str.bytes (c :: s) with
      | nil =>
        rw [Str.bytes_cons, append_eq_nil_iff] at hbytes
        exact absurd hbytes.1 String.utf8EncodeChar_ne_nil
      | cons b bs =>
        rw [hbytes] at hdecode hdrop
        simp only [fromUtf8LossyFrom, hdecode, hdrop]
        rw [ih (by omega)]

theorem fromUtf8Lossy_bytes (s : Str) : fromUtf8Lossy s.bytes = s :=
  fromUtf8LossyFrom_bytes s le_rfl

end EuroOS
