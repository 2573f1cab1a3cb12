import EuroOS.ByteCodec
import EuroOS.CallMachine

/-!
# The VPN tunnel

Packets carry the counter that their nonce is made of.  The receiver keeps the
highest accepted counter and a mask of the 64 counters up to it.  The cipher is
a parameter.  The mask is tied to the set of all accepted counters, which shows
what is accepted and what is rejected on every sequence of packets.
-/

namespace EuroOS.Vpn

open List

structure Aead (Key : Type) where
  encrypt : Key → Bytes → Bytes → Option Bytes
  decrypt : Key → Bytes → Bytes → Option Bytes

structure Tunnel (Key : Type) where
  sendKey : Key
  recvKey : Key
  sendCtr : UInt64
  recvCtr : UInt64
  /-- Bit `k` tells whether `recvCtr - 1 - k` has been seen. -/
  replayWindow : BitVec 64

variable {Key : Type}

/-- The tunnel that a handshake ends with, from the material of the key derivation. -/
def derive (expand : Bytes → Bytes → Key) (ikm : Bytes) (initiator : Bool) : Tunnel Key :=
  let i2r := expand ikm [0x69, 0x32, 0x72]
  let r2i := expand ikm [0x72, 0x32, 0x69]
  if initiator then ⟨i2r, r2i, 0, 0, 0⟩ else ⟨r2i, i2r, 0, 0, 0⟩

def ctrNonce (ctr : UInt64) : Bytes := List.replicate 4 0 ++ le 8 ctr.toNat

namespace Tunnel

/-- Encrypt an outgoing packet; a packet that the cipher refuses is sent without contents. -/
def encrypt (A : Aead Key) (T : Tunnel Key) (plaintext : Bytes) : Tunnel Key × Bytes :=
  let nonce := ctrNonce T.sendCtr
  let T := { T with sendCtr := T.sendCtr + 1 }
  let ct := (A.encrypt T.sendKey nonce plaintext).getD []
  (T, le 8 (T.sendCtr - 1).toNat ++ ct)

def counter (packet : Bytes) : UInt64 := UInt64.ofNat (rd 8 packet 0)

/-- The check of an authentic counter against the window; `none` rejects. -/
def accept (T : Tunnel Key) (ctr : UInt64) : Option (Tunnel Key) :=
  let top := T.recvCtr
  if ctr + 1 > top then
    -- New highest counter: shift the window.
    let shift := ctr + 1 - top
    let window := if shift ≥ 64 then 0 else T.replayWindow <<< shift.toNat
    some { T with replayWindow := window ||| 1, recvCtr := ctr + 1 }
  else
    let offset := top - 1 - ctr
    if offset ≥ 64 then none
    else
      let bit := 1#64 <<< offset.toNat
      if T.replayWindow &&& bit ≠ 0 then none
      else some { T with replayWindow := T.replayWindow ||| bit }

/-- Decrypt an incoming packet; only authentic packets reach the window. -/
def decrypt (A : Aead Key) (T : Tunnel Key) (packet : Bytes) : Tunnel Key × Option Bytes :=
  if packet.length < 8 then (T, none)
  else
    let ctr := counter packet
    match A.decrypt T.recvKey (ctrNonce ctr) (packet.drop 8) with
    | none => (T, none)
    | some pt =>
      match T.accept ctr with
      | none => (T, none)
      | some T' => (T', some pt)

end Tunnel

/-! ## Runs -/

inductive Call
  | encrypt (plaintext : Bytes)
  | decrypt (packet : Bytes)

inductive Result
  | sent (packet : Bytes)
  | received (plaintext : Option Bytes)
  deriving DecidableEq

def machine (A : Aead Key) : CallMachine (Tunnel Key) Call Result where
  step T
    | .encrypt plaintext => ((T.encrypt A plaintext).1, .sent (T.encrypt A plaintext).2)
    | .decrypt packet => ((T.decrypt A packet).1, .received (T.decrypt A packet).2)

def nonces (A : Aead Key) (T : Tunnel Key) : List Call → List Bytes
  | [] => []
  | .encrypt plaintext :: calls =>
    ctrNonce T.sendCtr :: nonces A ((machine A).step T (.encrypt plaintext)).1 calls
  | .decrypt packet :: calls => nonces A ((machine A).step T (.decrypt packet)).1 calls

def packets (A : Aead Key) (T : Tunnel Key) : List Call → List Bytes
  | [] => []
  | .encrypt plaintext :: calls =>
    (T.encrypt A plaintext).2 :: packets A ((machine A).step T (.encrypt plaintext)).1 calls
  | .decrypt packet :: calls => packets A ((machine A).step T (.decrypt packet)).1 calls

def accepted (A : Aead Key) (T : Tunnel Key) : List Call → List UInt64
  | [] => []
  | .encrypt plaintext :: calls => accepted A ((machine A).step T (.encrypt plaintext)).1 calls
  | .decrypt packet :: calls =>
    (if (T.decrypt A packet).2.isSome then [Tunnel.counter packet] else []) ++
      accepted A ((machine A).step T (.decrypt packet)).1 calls

/-! ## The window and the accepted counters -/

structure Window (T : Tunnel Key) (seen : List UInt64) : Prop where
  below : ∀ a ∈ seen, a.toNat < T.recvCtr.toNat
  top : T.recvCtr ≠ 0 → T.recvCtr - 1 ∈ seen
  bits : ∀ k < 64, T.replayWindow.getLsbD k = true ↔ ∃ a ∈ seen, a.toNat + k + 1 = T.recvCtr.toNat

variable {T T' : Tunnel Key} {seen : List UInt64} {ctr : UInt64}

theorem window_nil (hctr : T.recvCtr = 0) (hwindow : T.replayWindow = 0) : Window T [] := by
  refine ⟨by simp, fun hne => absurd hctr hne, fun k _ => ?_⟩
  rw [hwindow]
  simp

theorem toNat_succ (hctr : ctr.toNat < 2 ^ 64 - 1) : (ctr + 1).toNat = ctr.toNat + 1 := by
  rw [UInt64.toNat_add, UInt64.toNat_one]
  omega

theorem and_bit_eq_zero (w : BitVec 64) (ho : o < 64) :
    w &&& (1#64 <<< o) = 0 ↔ w.getLsbD o = false := by
  rw [← BitVec.twoPow_eq, BitVec.and_twoPow]
  cases hbit : w.getLsbD o with
  | false => simp
  | true =>
    have hne : BitVec.twoPow 64 o ≠ 0#64 := by
      intro hzero
      have hget := congrArg (BitVec.getLsbD · o) hzero
      simp [ho] at hget
    simpa using hne

theorem Window.push_top (h : Window T seen) (hctr : ctr.toNat < 2 ^ 64 - 1)
    (htop : T.recvCtr.toNat ≤ ctr.toNat)
    (hwindow : ∀ k < 64, window.getLsbD k = true ↔ ctr.toNat + 1 - T.recvCtr.toNat ≤ k ∧
      T.replayWindow.getLsbD (k - (ctr.toNat + 1 - T.recvCtr.toNat)) = true) :
    Window { T with replayWindow := window ||| 1, recvCtr := ctr + 1 } (ctr :: seen) := by
  have hsucc := toNat_succ hctr
  refine ⟨?_, ?_, ?_⟩
  · intro a ha
    rw [hsucc]
    rcases mem_cons.mp ha with rfl | ha
    · exact Nat.lt_succ_self _
    · have hlt := h.below a ha
      omega
  · intro _
    simp
  · intro k hk
    have hone : (1 : BitVec 64).getLsbD k = true ↔ k = 0 := by
      rw [show (1 : BitVec 64) = BitVec.twoPow 64 0 from rfl, BitVec.getLsbD_twoPow]
      simp [eq_comm]
    rw [hsucc, BitVec.getLsbD_or, Bool.or_eq_true, hwindow k hk, hone]
    constructor
    · rintro (⟨hle, hbit⟩ | rfl)
      · obtain ⟨a, ha, heq⟩ := (h.bits _ (by omega)).mp hbit
        exact ⟨a, mem_cons_of_mem _ ha, by omega⟩
      · exact ⟨ctr, mem_cons_self .., by omega⟩
    · rintro ⟨a, ha, heq⟩
      rcases mem_cons.mp ha with rfl | ha
      · exact .inr (by omega)
      · have hlt := h.below a ha
        exact .inl ⟨by omega, (h.bits _ (by omega)).mpr ⟨a, ha, by omega⟩⟩

theorem Window.push_below (h : Window T seen) (hbelow : ctr.toNat < T.recvCtr.toNat)
    (ho : ctr.toNat + o + 1 = T.recvCtr.toNat) (ho' : o < 64) :
    Window { T with replayWindow := T.replayWindow ||| 1#64 <<< o } (ctr :: seen) := by
  refine ⟨?_, fun hne => mem_cons_of_mem _ (h.top hne), ?_⟩
  · intro a ha
    rcases mem_cons.mp ha with rfl | ha
    · exact hbelow
    · exact h.below a ha
  · intro k hk
    have hone : (1#64 <<< o).getLsbD k = true ↔ k = o := by
      rw [← BitVec.twoPow_eq, BitVec.getLsbD_twoPow]
      simp only [ho', decide_true, Bool.true_and, decide_eq_true_eq]
      exact eq_comm
    rw [BitVec.getLsbD_or, Bool.or_eq_true, h.bits k hk, hone]
    constructor
    · rintro (⟨a, ha, heq⟩ | rfl)
      · exact ⟨a, mem_cons_of_mem _ ha, heq⟩
      · exact ⟨ctr, mem_cons_self .., ho⟩
    · rintro ⟨a, ha, heq⟩
      dsimp only at heq
      rcases mem_cons.mp ha with rfl | ha
      · exact .inr (by omega)
      · exact .inl ⟨a, ha, heq⟩

theorem accept_cases (T : Tunnel Key) (hctr : ctr.toNat < 2 ^ 64 - 1) :
    (T.recvCtr.toNat ≤ ctr.toNat ∧ ∃ window : BitVec 64, T.accept ctr =
        some { T with replayWindow := window ||| 1, recvCtr := ctr + 1 } ∧
        ∀ k < 64, window.getLsbD k = true ↔ ctr.toNat + 1 - T.recvCtr.toNat ≤ k ∧
          T.replayWindow.getLsbD (k - (ctr.toNat + 1 - T.recvCtr.toNat)) = true) ∨
      ∃ o, ctr.toNat + o + 1 = T.recvCtr.toNat ∧
        ((64 ≤ o ∧ T.accept ctr = none) ∨
          (o < 64 ∧ T.replayWindow.getLsbD o = true ∧ T.accept ctr = none) ∨
          (o < 64 ∧ T.replayWindow.getLsbD o = false ∧
            T.accept ctr = some { T with replayWindow := T.replayWindow ||| 1#64 <<< o })) := by
  have hsucc := toNat_succ hctr
  unfold Tunnel.accept
  dsimp only
  by_cases hnew : ctr + 1 > T.recvCtr
  · have hlt : T.recvCtr.toNat < ctr.toNat + 1 := hsucc ▸ UInt64.lt_iff_toNat_lt.mp hnew
    have hshift : (ctr + 1 - T.recvCtr).toNat = ctr.toNat + 1 - T.recvCtr.toNat := by
      rw [UInt64.toNat_sub_of_le _ _ (UInt64.le_of_lt hnew), hsucc]
    rw [if_pos hnew]
    refine .inl ⟨by omega, _, rfl, fun k hk => ?_⟩
    by_cases hfar : ctr + 1 - T.recvCtr ≥ 64
    · have hfar' : 64 ≤ ctr.toNat + 1 - T.recvCtr.toNat := hshift ▸ UInt64.le_iff_toNat_le.mp hfar
      rw [if_pos hfar]
      simp only [BitVec.ofNat_eq_ofNat, BitVec.getLsbD_zero, Bool.false_eq_true, false_iff]
      omega
    · rw [if_neg hfar, hshift, BitVec.getLsbD_shiftLeft]
      simp [hk]
  · have hle : ctr.toNat + 1 ≤ T.recvCtr.toNat :=
      hsucc ▸ UInt64.le_iff_toNat_le.mp (UInt64.not_lt.mp hnew)
    have hoffset : (T.recvCtr - 1 - ctr).toNat = T.recvCtr.toNat - 1 - ctr.toNat := by
      rw [UInt64.toNat_sub, UInt64.toNat_sub, UInt64.toNat_one]
      have hlt := T.recvCtr.toNat_lt
      omega
    rw [if_neg hnew]
    refine .inr ⟨T.recvCtr.toNat - 1 - ctr.toNat, by omega, ?_⟩
    by_cases hold : T.recvCtr - 1 - ctr ≥ 64
    · exact .inl ⟨hoffset ▸ UInt64.le_iff_toNat_le.mp hold, if_pos hold⟩
    have hnear : T.recvCtr.toNat - 1 - ctr.toNat < 64 :=
      hoffset ▸ UInt64.lt_iff_toNat_lt.mp (UInt64.not_le.mp hold)
    rw [if_neg hold, hoffset]
    cases hbit : T.replayWindow.getLsbD (T.recvCtr.toNat - 1 - ctr.toNat) with
    | true =>
      refine .inr (.inl ⟨hnear, rfl, if_pos fun hzero => ?_⟩)
      rw [(and_bit_eq_zero _ hnear).mp hzero] at hbit
      cases hbit
    | false =>
      exact .inr (.inr ⟨hnear, rfl, if_neg (not_not.mpr ((and_bit_eq_zero _ hnear).mpr hbit))⟩)

theorem accept_some (h : Window T seen) (hctr : ctr.toNat < 2 ^ 64 - 1)
    (haccept : T.accept ctr = some T') : ctr ∉ seen ∧ Window T' (ctr :: seen) := by
  rcases accept_cases T hctr with ⟨htop, window, heq, hbits⟩ | ⟨o, ho, ⟨-, heq⟩ | ⟨-, -, heq⟩ |
    ⟨ho', hbit, heq⟩⟩
  · rw [heq, Option.some_inj] at haccept
    refine ⟨fun hmem => ?_, haccept ▸ h.push_top hctr htop hbits⟩
    have hlt := h.below ctr hmem
    omega
  · rw [heq] at haccept
    cases haccept
  · rw [heq] at haccept
    cases haccept
  · rw [heq, Option.some_inj] at haccept
    refine ⟨fun hmem => ?_, haccept ▸ h.push_below (by omega) ho ho'⟩
    rw [(h.bits o ho').mpr ⟨ctr, hmem, ho⟩] at hbit
    cases hbit

theorem accept_none (h : Window T seen) (hctr : ctr.toNat < 2 ^ 64 - 1) (haccept : T.accept ctr = none) :
    ctr ∈ seen ∨ ∃ high ∈ seen, (∀ a ∈ seen, a.toNat ≤ high.toNat) ∧ ctr.toNat + 64 ≤ high.toNat := by
  rcases accept_cases T hctr with ⟨-, window, heq, -⟩ | ⟨o, ho, ⟨hold, -⟩ | ⟨ho', hbit, -⟩ | ⟨-, -, heq⟩⟩
  · rw [heq] at haccept
    cases haccept
  · right
    have hne : T.recvCtr ≠ 0 := by
      intro hzero
      rw [hzero, UInt64.toNat_zero] at ho
      omega
    have hhigh : (T.recvCtr - 1).toNat = T.recvCtr.toNat - 1 := by
      rw [UInt64.toNat_sub, UInt64.toNat_one]
      have hlt := T.recvCtr.toNat_lt
      omega
    refine ⟨T.recvCtr - 1, h.top hne, fun a ha => ?_, by omega⟩
    have hlt := h.below a ha
    omega
  · left
    obtain ⟨a, ha, heq⟩ := (h.bits o ho').mp hbit
    have hsame : a = ctr := UInt64.toNat_inj.mp (by omega)
    rw [← hsame]
    exact ha
  · rw [heq] at haccept
    cases haccept

/-! ## Receiving -/

/-- The cipher accepts the packet under the counter that the packet carries. -/
def Tunnel.Opens (A : Aead Key) (T : Tunnel Key) (packet : Bytes) : Prop :=
  8 ≤ packet.length ∧
    (A.decrypt T.recvKey (ctrNonce (Tunnel.counter packet)) (packet.drop 8)).isSome = true

theorem decrypt_cases (A : Aead Key) (T : Tunnel Key) (packet : Bytes) :
    (T.decrypt A packet = (T, none) ∧
        (T.Opens A packet → T.accept (Tunnel.counter packet) = none)) ∨
      ∃ T' pt, T.decrypt A packet = (T', some pt) ∧ T.Opens A packet ∧
        T.accept (Tunnel.counter packet) = some T' := by
  unfold Tunnel.decrypt Tunnel.Opens
  split_ifs with hshort
  · exact .inl ⟨rfl, fun hopens => by omega⟩
  dsimp only
  cases hopen : A.decrypt T.recvKey (ctrNonce (Tunnel.counter packet)) (packet.drop 8) with
  | none => exact .inl ⟨rfl, fun hopens => absurd hopens.2 (by simp)⟩
  | some pt =>
    cases haccept : T.accept (Tunnel.counter packet) with
    | none => exact .inl ⟨rfl, fun _ => rfl⟩
    | some T' => exact .inr ⟨T', pt, rfl, ⟨by omega, rfl⟩, rfl⟩

theorem accept_keeps (haccept : T.accept ctr = some T') :
    T'.recvKey = T.recvKey ∧ T'.sendCtr = T.sendCtr := by
  unfold Tunnel.accept at haccept
  dsimp only at haccept
  split_ifs at haccept <;> cases haccept <;> exact ⟨rfl, rfl⟩

theorem recvKey_step (A : Aead Key) (T : Tunnel Key) (call : Call) :
    ((machine A).step T call).1.recvKey = T.recvKey := by
  cases call with
  | encrypt plaintext => rfl
  | decrypt packet =>
    show (T.decrypt A packet).1.recvKey = T.recvKey
    rcases decrypt_cases A T packet with ⟨heq, -⟩ | ⟨T', pt, heq, -, haccept⟩
    · rw [heq]
    · rw [heq]
      exact (accept_keeps haccept).1

theorem recvKey_run (A : Aead Key) (T : Tunnel Key) (calls : List Call) :
    ((machine A).run T calls).recvKey = T.recvKey := by
  induction calls generalizing T with
  | nil => rfl
  | cons call calls ih => rw [CallMachine.run_cons, ih, recvKey_step]

theorem Window.encrypt (h : Window T seen) (plaintext : Bytes) :
    Window ((machine A).step T (.encrypt plaintext)).1 seen := ⟨h.below, h.top, h.bits⟩

theorem window_run (hbound : ∀ packet, T.Opens A packet → (Tunnel.counter packet).toNat < 2 ^ 64 - 1)
    (h : Window T seen) (hnodup : seen.Nodup) (calls : List Call) :
    Window ((machine A).run T calls) ((accepted A T calls).reverse ++ seen) ∧
      ((accepted A T calls).reverse ++ seen).Nodup := by
  induction calls generalizing T seen with
  | nil => exact ⟨h, hnodup⟩
  | cons call calls ih =>
    have hbound' : ∀ packet, ((machine A).step T call).1.Opens A packet →
        (Tunnel.counter packet).toNat < 2 ^ 64 - 1 := by
      intro packet hopens
      unfold Tunnel.Opens at hopens
      rw [recvKey_step] at hopens
      exact hbound packet hopens
    rw [CallMachine.run_cons]
    cases call with
    | encrypt plaintext => exact ih hbound' (h.encrypt plaintext) hnodup
    | decrypt packet =>
      have hstep : ((machine A).step T (.decrypt packet)).1 = (T.decrypt A packet).1 := rfl
      unfold accepted
      rcases decrypt_cases A T packet with ⟨heq, -⟩ | ⟨T', pt, heq, hopens, haccept⟩
      · rw [hstep, heq] at hbound' ⊢
        exact ih hbound' h hnodup
      obtain ⟨hnew, hwindow⟩ := accept_some h (hbound packet hopens) haccept
      rw [hstep, heq] at hbound' ⊢
      simpa using ih hbound' hwindow (nodup_cons.mpr ⟨hnew, hnodup⟩)

/-! ## Sending -/

def encrypts : List Call → Nat
  | [] => 0
  | .encrypt _ :: calls => encrypts calls + 1
  | .decrypt _ :: calls => encrypts calls

theorem ctrNonce_inj (h : ctrNonce c = ctrNonce c') : c = c' :=
  le_uint64_inj (append_cancel_left h)

theorem sendCtr_decrypt (A : Aead Key) (T : Tunnel Key) (packet : Bytes) :
    (T.decrypt A packet).1.sendCtr = T.sendCtr := by
  rcases decrypt_cases A T packet with ⟨heq, -⟩ | ⟨T', pt, heq, -, haccept⟩
  · rw [heq]
  · rw [heq]
    exact (accept_keeps haccept).2

theorem counter_encrypt (A : Aead Key) (T : Tunnel Key) (plaintext : Bytes) :
    Tunnel.counter (T.encrypt A plaintext).2 = T.sendCtr := by
  unfold Tunnel.counter Tunnel.encrypt
  rw [rd_le_uint64, UInt64.ofNat_toNat]
  simp

theorem sent_eq (A : Aead Key) (T : Tunnel Key) (calls : List Call) :
    nonces A T calls = (List.range (encrypts calls)).map (fun i => ctrNonce (T.sendCtr + UInt64.ofNat i)) ∧
      (packets A T calls).map Tunnel.counter =
        (List.range (encrypts calls)).map fun i => T.sendCtr + UInt64.ofNat i := by
  induction calls generalizing T with
  | nil => exact ⟨rfl, rfl⟩
  | cons call calls ih =>
    cases call with
    | encrypt plaintext =>
      obtain ⟨hnonces, hpackets⟩ := ih ((machine A).step T (.encrypt plaintext)).1
      have hctr : ((machine A).step T (.encrypt plaintext)).1.sendCtr = T.sendCtr + 1 := rfl
      have hshift : ∀ i, T.sendCtr + 1 + UInt64.ofNat i = T.sendCtr + UInt64.ofNat (i + 1) := by
        intro i
        rw [UInt64.ofNat_add, UInt64.add_assoc, UInt64.add_comm 1]
        rfl
      rw [nonces, packets, encrypts, range_succ_eq_map, hnonces, map_cons (f := Tunnel.counter),
        hpackets, counter_encrypt, hctr]
      simp [Function.comp_def, hshift]
    | decrypt packet =>
      obtain ⟨hnonces, hpackets⟩ := ih ((machine A).step T (.decrypt packet)).1
      have hctr : ((machine A).step T (.decrypt packet)).1.sendCtr = T.sendCtr :=
        sendCtr_decrypt A T packet
      rw [nonces, packets, encrypts, hnonces, hpackets, hctr]
      exact ⟨rfl, rfl⟩

theorem nodup_nonces (A : Aead Key) (T : Tunnel Key) (hcalls : encrypts calls < 2 ^ 64) :
    (nonces A T calls).Nodup := by
  rw [(sent_eq A T calls).1]
  refine List.Nodup.map_on (fun i hi j hj hsame => ?_) nodup_range
  have hlt := mem_range.mp hi
  have hlt' := mem_range.mp hj
  have heq := (UInt64.add_right_inj _).mp (ctrNonce_inj hsame)
  have hnat := congrArg UInt64.toNat heq
  rw [UInt64.toNat_ofNat_of_lt' (hlt.trans hcalls), UInt64.toNat_ofNat_of_lt' (hlt'.trans hcalls)]
    at hnat
  exact hnat

theorem counter_lt_of_mem_packets (hctr : T.sendCtr = 0) (hcalls : encrypts calls < 2 ^ 64)
    (hmem : packet ∈ packets A T calls) : (Tunnel.counter packet).toNat < encrypts calls := by
  have hcounter := mem_map_of_mem (f := Tunnel.counter) hmem
  rw [(sent_eq A T calls).2, hctr] at hcounter
  obtain ⟨i, hi, heq⟩ := mem_map.mp hcounter
  have hlt := mem_range.mp hi
  rw [← heq, UInt64.zero_add, UInt64.toNat_ofNat_of_lt' (hlt.trans hcalls)]
  exact hlt

/-! ## The window is exact -/

theorem derive_counters (expand : Bytes → Bytes → Key) (ikm : Bytes) (initiator : Bool) :
    (derive expand ikm initiator).sendCtr = 0 ∧ (derive expand ikm initiator).recvCtr = 0 ∧
      (derive expand ikm initiator).replayWindow = 0 := by cases initiator <;> exact ⟨rfl, rfl, rfl⟩

def twoPackets : Aead Bytes where
  encrypt _ _ plaintext := some plaintext
  decrypt _ nonce ct :=
    if nonce = ctrNonce 0 ∧ ct = [7] ∨ nonce = ctrNonce 1 ∧ ct = [8] then some ct else none

theorem packet_eq (hlen : 8 ≤ packet.length) :
    packet = le 8 (Tunnel.counter packet).toNat ++ packet.drop 8 := by
  have hle : ∀ bs : Bytes, le bs.length (leNat bs) = bs := by
    intro bs
    induction bs with
    | nil => rfl
    | cons b bs ih =>
      have hdiv : (b.toNat + 256 * leNat bs) / 256 = leNat bs := by
        have hb := b.toNat_lt
        omega
      simp [le, leNat, hdiv, ih]
  have hlt := rd_lt 8 packet 0
  have htake : (packet.take 8).length = 8 := by simp [hlen]
  unfold Tunnel.counter
  rw [UInt64.toNat_ofNat_of_lt' hlt, rd, drop_zero]
  nth_rewrite 1 [← htake]
  rw [hle, take_append_drop]

theorem opens_twoPackets (T : Tunnel Bytes) (packet : Bytes) :
    T.Opens twoPackets packet ↔ packet ∈ [le 8 0 ++ [7], le 8 1 ++ [8]] := by
  constructor
  · rintro ⟨hlen, hopen⟩
    have hpacket := packet_eq hlen
    simp only [twoPackets, Option.isSome_ite] at hopen
    rcases hopen with ⟨hctr, hct⟩ | ⟨hctr, hct⟩
    · rw [ctrNonce_inj hctr, hct] at hpacket
      simp [hpacket]
    · rw [ctrNonce_inj hctr, hct] at hpacket
      simp [hpacket]
  · intro hmem
    rcases mem_pair.mp hmem with rfl | rfl <;> exact ⟨by decide, rfl⟩

end EuroOS.Vpn
