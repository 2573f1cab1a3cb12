import EuroOS.Tcp

/-!
# Sending without forgetting

Positions count the bytes passed to `sendNowait`; the FIN comes after the last one.
The retransmission buffer is a chain of pieces that reaches from at most the first
unacknowledged position to the end.  This holds as long as no acknowledgement beyond
what was sent is accepted and nothing is sent after the FIN.
-/

namespace EuroOS

open List

namespace Tcp

open SeqNum

/-! ## The retransmission buffer -/

/-- The pieces follow each other from `pos` to the end of the data, each at its own
number. -/
def Chain (base : UInt32) (data : Bytes) : Nat → List (UInt32 × Bytes) → Prop
  | pos, [] => pos = data.length
  | pos, kept :: rest =>
    kept.1 = ofPos base pos ∧ kept.2 ≠ [] ∧ kept.2 <+: data.drop pos ∧
      Chain base data (pos + kept.2.length) rest

section Chains

variable {base : UInt32} {data : Bytes} {pos una : Nat}

theorem Chain.le (h : Chain base data pos l) : pos ≤ data.length := by
  induction l generalizing pos with
  | nil => exact le_of_eq h
  | cons kept rest ih =>
    have hrest := ih h.2.2.2
    omega

theorem Chain.append (h : Chain base data pos l) (hne : piece ≠ []) :
    Chain base (data ++ piece) pos (l ++ [(ofPos base data.length, piece)]) := by
  induction l generalizing pos with
  | nil =>
    have hpos : pos = data.length := h
    subst hpos
    refine ⟨rfl, hne, ?_, ?_⟩
    · rw [drop_left]
    · exact (length_append).symm
  | cons kept rest ih =>
    obtain ⟨hseq, hkept, hpart, hrest⟩ := h
    have hle := hrest.le
    refine ⟨hseq, hkept, ?_, ih hrest⟩
    rw [drop_append_of_le_length (by omega)]
    exact hpart.trans (prefix_append _ _)

def keeps (una : UInt32) (kept : UInt32 × Bytes) : Bool :=
  decide (kept.1 + UInt32.ofNat kept.2.length - una ≠ 0 ∧
    kept.1 + UInt32.ofNat kept.2.length - una < 0x80000000)

theorem keeps_iff (hseq : kept.1 = ofPos base pos) (hne : kept.2 ≠ [])
    (hstop : pos + kept.2.length ≤ data.length) (hshort : data.length < 2 ^ 31)
    (huna : una ≤ data.length + 1) :
    keeps (ofPos base una) kept = true ↔ una < pos + kept.2.length := by
  unfold keeps
  rw [hseq, ofPos_add, decide_eq_true_eq, Ne, sub_eq_zero_iff (by omega) (by omega),
    UInt32.lt_iff_toNat_lt, show (0x80000000 : UInt32).toNat = 2 ^ 31 from rfl]
  by_cases hlt : una < pos + kept.2.length
  · rw [toNat_sub_of_le (le_of_lt hlt) (by omega)]
    omega
  by_cases heq : pos + kept.2.length = una
  · omega
  · rw [toNat_sub_of_lt (by omega) (by omega)]
    omega

theorem Chain.filter_eq_self (h : Chain base data pos l) (hpos : una ≤ pos)
    (hshort : data.length < 2 ^ 31) : l.filter (keeps (ofPos base una)) = l := by
  induction l generalizing pos with
  | nil => rfl
  | cons kept rest ih =>
    obtain ⟨hseq, hne, -, hrest⟩ := h
    have hlen := length_pos_of_ne_nil hne
    have hle := hrest.le
    have hkeep : keeps (ofPos base una) kept = true :=
      (keeps_iff hseq hne hle hshort (by omega)).mpr (by omega)
    rw [filter_cons_of_pos hkeep, ih hrest (by omega)]

theorem Chain.filter (h : Chain base data pos l) (hpos : pos ≤ una)
    (huna : una ≤ data.length + 1) (hshort : data.length < 2 ^ 31) :
    ∃ start ≤ una, Chain base data start (l.filter (keeps (ofPos base una))) := by
  induction l generalizing pos with
  | nil => exact ⟨pos, hpos, h⟩
  | cons kept rest ih =>
    obtain ⟨hseq, hne, hpart, hrest⟩ := h
    have hle := hrest.le
    have hkeeps := keeps_iff hseq hne hle hshort huna
    by_cases hlt : una < pos + kept.2.length
    · refine ⟨pos, hpos, ?_⟩
      rw [filter_cons_of_pos (hkeeps.mpr hlt), hrest.filter_eq_self (le_of_lt hlt) hshort]
      exact ⟨hseq, hne, hpart, hrest⟩
    · rw [filter_cons_of_neg (mt hkeeps.mp hlt)]
      exact ih hrest (by omega)

end Chains

/-! ## What is on the wire -/

section Wire

variable {base : UInt32} {data : Bytes} {seg : TcpSegment}

/-- Data is emitted at its own number, and a FIN at the end of the data. -/
structure Bound (base : UInt32) (data : Bytes) (fin : Bool) (seg : TcpSegment) : Prop where
  bytes : seg.payload ≠ [] → ∃ pos, seg.seq = ofPos base pos ∧ seg.payload <+: data.drop pos
  finAt : seg.has FIN = true → fin = true ∧ seg.seq = ofPos base data.length

theorem Bound.append (h : Bound base data false seg) (piece : Bytes) :
    Bound base (data ++ piece) false seg where
  bytes hne := by
    obtain ⟨pos, hseq, hpart⟩ := h.bytes hne
    refine ⟨pos, hseq, hpart.trans ?_⟩
    rw [drop_append]
    exact prefix_append _ _
  finAt hfin := by cases (h.finAt hfin).1

theorem Bound.of_ack {ack : UInt32} :
    Bound base data fin ⟨sport, dport, seq, ack, ACK, 64240, []⟩ where
  bytes hne := absurd rfl hne
  finAt hfin := by
    have hnot : ¬ (ACK &&& FIN != 0) = true := by decide
    exact absurd hfin hnot

theorem Bound.of_data {ack : UInt32} (hpart : piece <+: data.drop pos) :
    Bound base data fin ⟨sport, dport, ofPos base pos, ack, PSH ||| ACK, 64240, piece⟩ where
  bytes _ := ⟨pos, rfl, hpart⟩
  finAt hfin := by
    have hnot : ¬ ((PSH ||| ACK) &&& FIN != 0) = true := by decide
    exact absurd hfin hnot

theorem Bound.of_fin {ack : UInt32} :
    Bound base data true ⟨sport, dport, ofPos base data.length, ack, FIN ||| ACK, 64240, []⟩ where
  bytes hne := absurd rfl hne
  finAt _ := ⟨rfl, rfl⟩

end Wire

/-! ## The send side -/

/-- The send side after `data` was sent and the positions before `una` were
acknowledged by segments that were seen. -/
structure Sending (base : UInt32) (data : Bytes) (seen : List TcpSegment) (c : TcpConn)
    (una : Nat) : Prop where
  mySeq : c.mySeq = ofPos base (data.length + c.finSent.toNat)
  sndUna : c.sndUna = ofPos base una
  una_le : una ≤ data.length + c.finSent.toNat
  acked : una = 0 ∨ ∃ seg ∈ seen, seg.has ACK = true ∧ seg.ack = ofPos base una
  retx : ∃ start ≤ una, Chain base data start c.retx
  wire : ∀ seg ∈ c.wire, Bound base data c.finSent seg
  queue : ∀ seg ∈ c.queue, seg ∈ seen

/-- The acknowledgement of the segment, if it counts, is not beyond what was sent. -/
def AckOk (c : TcpConn) (seg : TcpSegment) : Prop :=
  seg.has RST = false → seg.has ACK = true →
    seg.ack - c.sndUna ≤ c.mySeq - c.sndUna ∨ 0x80000000 ≤ seg.ack - c.sndUna

section Steps

variable {base : UInt32} {data : Bytes} {seen : List TcpSegment} {c : TcpConn} {una : Nat}
  {seg : TcpSegment}

theorem Sending.total_le (_h : Sending base data seen c una) (hshort : data.length < 2 ^ 31) :
    data.length + c.finSent.toNat ≤ 2 ^ 31 := by
  have hfin := Bool.toNat_le c.finSent
  omega

variable (h : Sending base data seen c una)
include h

theorem Sending.congr (hmy : c'.mySeq = c.mySeq) (huna : c'.sndUna = c.sndUna)
    (hretx : c'.retx = c.retx) (hfin : c'.finSent = c.finSent)
    (hqueue : ∀ seg ∈ c'.queue, seg ∈ seen)
    (hwire : ∀ seg ∈ c'.wire, Bound base data c.finSent seg) : Sending base data seen c' una where
  mySeq := by rw [hmy, hfin, h.mySeq]
  sndUna := by rw [huna, h.sndUna]
  una_le := by rw [hfin]; exact h.una_le
  acked := h.acked
  retx := by rw [hretx]; exact h.retx
  wire := by rw [hfin]; exact hwire
  queue := hqueue

theorem Sending.emit
    (hbound : Bound base data c.finSent ⟨c.sport, c.dport, c.mySeq, c.theirSeq, flags, 64240, payload⟩) :
    Sending base data seen (c.emit flags payload) una := by
  refine h.congr rfl rfl rfl rfl h.queue ?_
  intro seg hmem
  rcases mem_append.mp hmem with hold | hnew
  · exact h.wire seg hold
  · rw [mem_singleton.mp hnew]
    exact hbound

theorem Sending.ackUpto (hshort : data.length < 2 ^ 31)
    (hseen : seg ∈ seen) (hack : seg.has ACK = true)
    (hok : seg.ack - c.sndUna ≤ c.mySeq - c.sndUna ∨ 0x80000000 ≤ seg.ack - c.sndUna) :
    ∃ una', una ≤ una' ∧ Sending base data seen (c.ackUpto seg.ack) una' := by
  have htotal := h.total_le hshort
  have hle := h.una_le
  obtain ⟨start, hstart, hchain⟩ := h.retx
  obtain ⟨d, hd, hpos, hdist⟩ := exists_ofPos base seg.ack una
  rw [UInt32.le_iff_toNat_le, UInt32.le_iff_toNat_le, h.sndUna, h.mySeq, hdist,
    toNat_sub_of_le hle (by omega), show (0x80000000 : UInt32).toNat = 2 ^ 31 from rfl] at hok
  have hfin := Bool.toNat_le c.finSent
  by_cases hnew : seg.ack - c.sndUna < 0x80000000 ∧ seg.ack ≠ c.sndUna
  · have hsmall : d < 2 ^ 31 := by
      have hlt := hnew.1
      rwa [UInt32.lt_iff_toNat_lt, h.sndUna, hdist] at hlt
    obtain ⟨start', hstart', hchain'⟩ :=
      @Chain.filter base data start (una + d) c.retx hchain (by omega) (by omega) hshort
    refine ⟨una + d, by omega, ?_⟩
    unfold TcpConn.ackUpto
    rw [if_pos hnew, hpos]
    exact ⟨h.mySeq, rfl, by change una + d ≤ data.length + c.finSent.toNat; omega,
      .inr ⟨seg, hseen, hack, hpos⟩, ⟨start', hstart', hchain'⟩, h.wire, h.queue⟩
  · obtain ⟨start', hstart', hchain'⟩ := hchain.filter hstart (by omega) hshort
    refine ⟨una, le_refl una, ?_⟩
    unfold TcpConn.ackUpto
    rw [if_neg hnew, h.sndUna]
    exact ⟨h.mySeq, rfl, h.una_le, h.acked, ⟨start', hstart', hchain'⟩, h.wire, h.queue⟩

theorem Sending.handlePayload : Sending base data seen (c.handlePayload seg) una := by
  obtain ⟨t, r, o, hframe⟩ := TcpConn.place_frame c seg
  unfold TcpConn.handlePayload
  rw [hframe]
  apply Sending.emit _ Bound.of_ack
  exact h.congr rfl rfl rfl rfl h.queue h.wire

theorem Sending.handleFin : Sending base data seen (c.handleFin seg).2 una := by
  unfold TcpConn.handleFin
  dsimp only
  split
  · split
    · exact h.emit Bound.of_ack
    · exact h
  split
  · exact h
  have hnext : Sending base data seen { c with theirSeq := c.theirSeq + 1 } una :=
    h.congr rfl rfl rfl rfl h.queue h.wire
  have hemit := hnext.emit (@Bound.of_ack base data c.finSent c.sport c.dport c.mySeq
    (c.theirSeq + 1))
  exact hemit.congr rfl rfl rfl rfl hemit.queue hemit.wire

theorem Sending.handleSeg (hshort : data.length < 2 ^ 31) (hseen : seg ∈ seen) (hok : AckOk c seg) :
    ∃ una', una ≤ una' ∧ Sending base data seen (c.handleSeg seg).2 una' := by
  unfold TcpConn.handleSeg
  cases hreset : seg.has RST with
  | true =>
    rw [if_pos rfl]
    refine ⟨una, le_refl una, ?_⟩
    split
    · exact h
    · exact h.congr rfl rfl rfl rfl h.queue h.wire
  | false =>
    rw [if_neg Bool.false_ne_true]
    have hack : ∃ una', una ≤ una' ∧ Sending base data seen
        (if seg.has ACK then c.ackUpto seg.ack else c) una' := by
      by_cases hflag : seg.has ACK = true
      · rw [if_pos hflag]
        exact h.ackUpto hshort hseen hflag (hok hreset hflag)
      · rw [if_neg hflag]
        exact ⟨una, le_refl una, h⟩
    generalize (if seg.has ACK then c.ackUpto seg.ack else c) = c₁ at hack ⊢
    obtain ⟨una', huna', hacked⟩ := hack
    have hpayload : Sending base data seen
        (if seg.payload ≠ [] then c₁.handlePayload seg else c₁) una' := by
      split
      · exact hacked.handlePayload
      · exact hacked
    dsimp only
    generalize (if seg.payload ≠ [] then c₁.handlePayload seg else c₁) = c₂ at hpayload ⊢
    refine ⟨una', huna', ?_⟩
    split
    · exact hpayload.handleFin
    · exact hpayload

/-! ## Operations -/

/-- The segments that a pump handles are in order with what was sent. -/
def PumpOk : List TcpSegment → TcpConn → Prop
  | [], _ => True
  | seg :: rest, c => AckOk c seg ∧
      ((c.handleSeg seg).1 = true → (c.handleSeg seg).2.rx.length ≤ TcpConn.rxBound →
        PumpOk rest (c.handleSeg seg).2)

theorem Sending.setQueue {queue : List TcpSegment} (hqueue : ∀ seg ∈ queue, seg ∈ seen) :
    Sending base data seen { c with queue := queue } una :=
  h.congr rfl rfl rfl rfl hqueue h.wire

omit h in
theorem Sending.pumpFrom (hshort : data.length < 2 ^ 31) {segs : List TcpSegment}
    (hsegs : ∀ seg ∈ segs, seg ∈ seen) (hok : PumpOk segs c) (h : Sending base data seen c una) :
    ∃ una', una ≤ una' ∧ Sending base data seen (TcpConn.pumpFrom segs c) una' := by
  induction segs generalizing c una with
  | nil => exact ⟨una, le_refl una, h.setQueue hsegs⟩
  | cons seg rest ih =>
    have hrest : ∀ seg ∈ rest, seg ∈ seen :=
      fun seg hmem => hsegs seg (mem_cons_of_mem _ hmem)
    obtain ⟨una₁, hle₁, hnext⟩ := h.handleSeg hshort (hsegs seg mem_cons_self) hok.1
    unfold TcpConn.pumpFrom
    dsimp only
    split
    · exact ⟨una₁, hle₁, hnext.setQueue hrest⟩
    rename_i hgo
    rw [not_or, Bool.not_eq_false, not_lt] at hgo
    obtain ⟨una₂, hle₂, hrec⟩ := ih hrest (hok.2 hgo.1 hgo.2) hnext
    exact ⟨una₂, le_trans hle₁ hle₂, hrec⟩

theorem Sending.pumpNowait (hshort : data.length < 2 ^ 31) (hok : PumpOk c.queue c) :
    ∃ una', una ≤ una' ∧ Sending base data seen c.pumpNowait una' :=
  h.pumpFrom hshort h.queue hok

theorem Sending.sendChunk (hopen : c.finSent = false) (hne : piece ≠ []) :
    Sending base (data ++ piece) seen (c.sendChunk piece) una := by
  have hmy : c.mySeq = ofPos base data.length := by
    rw [h.mySeq, hopen]
    rfl
  have hle := h.una_le
  rw [hopen] at hle
  obtain ⟨start, hstart, hchain⟩ := h.retx
  constructor
  · change c.mySeq + UInt32.ofNat piece.length = ofPos base (_ + c.finSent.toNat)
    rw [hmy, ofPos_add, hopen, length_append]
    rfl
  · exact h.sndUna
  · change una ≤ (data ++ piece).length + c.finSent.toNat
    rw [length_append, hopen]
    exact le_trans hle (Nat.le_add_right _ _)
  · exact h.acked
  · refine ⟨start, hstart, ?_⟩
    change Chain base (data ++ piece) start (c.retx ++ [(c.mySeq, piece)])
    rw [hmy]
    exact hchain.append hne
  · change ∀ seg ∈ c.wire ++ [_], Bound base (data ++ piece) c.finSent seg
    rw [hopen]
    intro seg hmem
    rcases mem_append.mp hmem with hold | hnew
    · have hbound := h.wire seg hold
      rw [hopen] at hbound
      exact hbound.append piece
    · rw [mem_singleton.mp hnew, hmy]
      apply Bound.of_data
      rw [drop_left]
  · exact h.queue

omit h in
theorem chunks_flatten_take (data : Bytes) (k : Nat) :
    ((List.range k).map fun i => (data.drop (1024 * i)).take 1024).flatten =
      data.take (1024 * k) := by
  induction k with
  | zero => rfl
  | succ k ih =>
    rw [range_succ, map_append, flatten_append, ih, map_singleton,
      flatten_singleton, Nat.mul_add_one, take_add]

omit h in
theorem chunks_flatten (data : Bytes) : (TcpConn.chunks data).flatten = data := by
  unfold TcpConn.chunks
  rw [chunks_flatten_take]
  exact take_of_length_le (by omega)

omit h in
theorem chunks_ne_nil (h : piece ∈ TcpConn.chunks data) : piece ≠ [] := by
  obtain ⟨i, hi, rfl⟩ := mem_map.mp h
  rw [mem_range] at hi
  apply ne_nil_of_length_pos
  rw [length_take, length_drop]
  omega

theorem Sending.sendNowait (hopen : c.finSent = true → more = []) :
    Sending base (data ++ more) seen (c.sendNowait more) una := by
  unfold TcpConn.sendNowait
  cases hfin : c.finSent with
  | true =>
    rw [hopen hfin, append_nil]
    exact h
  | false =>
    suffices hpieces : ∀ (pieces : List Bytes), (∀ piece ∈ pieces, piece ≠ []) →
        ∀ (c : TcpConn) (data : Bytes), Sending base data seen c una → c.finSent = false →
          Sending base (data ++ pieces.flatten) seen (pieces.foldl TcpConn.sendChunk c) una by
      have hall := hpieces (TcpConn.chunks more) (fun _ hmem => chunks_ne_nil hmem) c data h hfin
      rwa [chunks_flatten] at hall
    intro pieces
    induction pieces with
    | nil =>
      intro _ c data h _
      rw [flatten_nil, append_nil]
      exact h
    | cons piece pieces ih =>
      intro hne c data h hfin
      rw [flatten_cons, ← append_assoc]
      exact ih (fun p hmem => hne p (mem_cons_of_mem _ hmem)) _ _
        (h.sendChunk hfin (hne piece mem_cons_self)) hfin

theorem Sending.sendFin : Sending base data seen c.sendFin una := by
  unfold TcpConn.sendFin
  split
  · exact h.congr rfl rfl rfl rfl h.queue h.wire
  rename_i hgo
  have hopen : c.finSent = false := by
    rw [not_or] at hgo
    exact Bool.eq_false_iff.mpr hgo.1
  have hmy : c.mySeq = ofPos base data.length := by
    rw [h.mySeq, hopen]
    rfl
  have hle := h.una_le
  rw [hopen] at hle
  refine ⟨?_, h.sndUna, le_trans hle (Nat.le_add_right _ _), h.acked, h.retx, ?_, h.queue⟩
  · change c.mySeq + 1 = _
    rw [hmy, ofPos_succ]
    rfl
  · intro seg hmem
    rcases mem_append.mp hmem with hold | hnew
    · have hbound := h.wire seg hold
      rw [hopen] at hbound
      refine ⟨hbound.bytes, fun hfin => ?_⟩
      cases (hbound.finAt hfin).1
    · rw [mem_singleton.mp hnew, hmy]
      exact Bound.of_fin

omit h in
theorem Chain.mem (h : Chain base data pos l) (hmem : kept ∈ l) :
    ∃ pos, kept.1 = ofPos base pos ∧ kept.2 <+: data.drop pos := by
  induction l generalizing pos with
  | nil => cases hmem
  | cons first rest ih =>
    rcases mem_cons.mp hmem with rfl | hrest
    · exact ⟨pos, h.1, h.2.2.1⟩
    · exact ih h.2.2.2 hrest

theorem Sending.retransmitUnacked : Sending base data seen c.retransmitUnacked una := by
  rw [TcpConn.retransmitUnacked_frame]
  refine h.congr rfl rfl rfl rfl h.queue ?_
  intro seg hmem
  rcases mem_append.mp hmem with hold | hnew
  · exact h.wire seg hold
  obtain ⟨kept, hkept, rfl⟩ := mem_map.mp hnew
  obtain ⟨start, -, hchain⟩ := h.retx
  obtain ⟨pos, hseq, hpart⟩ := hchain.mem hkept
  rw [hseq]
  exact Bound.of_data hpart

theorem Sending.resendFin (hfin : c.finSent = true) :
    Sending base data seen (c.emitAt (c.mySeq - 1) (FIN ||| ACK) []) una := by
  rw [TcpConn.emitAt_frame]
  refine h.congr rfl rfl rfl rfl h.queue ?_
  intro seg hmem
  rcases mem_append.mp hmem with hold | hnew
  · exact h.wire seg hold
  have hseq : c.mySeq - 1 = ofPos base data.length := by
    rw [h.mySeq, hfin, Bool.toNat_true, ← ofPos_succ, UInt32.add_sub_cancel]
  rw [mem_singleton.mp hnew, hseq, hfin]
  exact Bound.of_fin

theorem Sending.tick (hshort : data.length < 2 ^ 31)
    (hok : PumpOk c.queue c) : ∃ una', una ≤ una' ∧ Sending base data seen c.tick una' := by
  obtain ⟨una', hle, hpumped⟩ := h.pumpNowait hshort hok
  refine ⟨una', hle, ?_⟩
  unfold TcpConn.tick
  generalize c.pumpNowait = c at hpumped ⊢
  have hcongr (rounds : Nat) (still : Bool) : Sending base data seen
      { c with staleRounds := rounds, isOpen := still } una' :=
    hpumped.congr rfl rfl rfl rfl hpumped.queue hpumped.wire
  dsimp only
  split
  · exact hpumped
  split
  · exact hcongr _ _
  split
  · exact hpumped
  split
  · exact hcongr _ _
  have hdata : Sending base data seen
      (if (!c.retx.isEmpty && (c.isOpen || c.finSent)) = true then
        TcpConn.retransmitUnacked { c with staleRounds := c.staleRounds + 1 }
      else { c with staleRounds := c.staleRounds + 1 }) una' := by
    split
    · exact (hcongr _ _).retransmitUnacked
    · exact hcongr _ _
  split
  · rename_i hpending
    apply hdata.resendFin
    rw [Bool.and_eq_true] at hpending
    split
    · rw [TcpConn.retransmitUnacked_frame]
      exact hpending.1
    · exact hpending.1
  · exact hdata

/-- The operation accepts no acknowledgement beyond what was sent, and sends nothing
after the FIN. -/
def Op.Heeds (c : TcpConn) : Op → Prop
  | .arrive _ => True
  | .handle seg => AckOk c seg
  | .recv _ => PumpOk c.queue c
  | .peek _ => PumpOk c.queue c
  | .tick => PumpOk c.queue c
  | .send more => c.finSent = true → more = []
  | .close => True

def Op.sends : Op → Bytes
  | .send more => more
  | _ => []

def Op.sees : Op → List TcpSegment
  | .arrive seg => [seg]
  | .handle seg => [seg]
  | _ => []

theorem Sending.see (more : List TcpSegment) : Sending base data (seen ++ more) c una where
  __ := h
  acked := by
    rcases h.acked with hzero | ⟨seg, hmem, hack⟩
    · exact .inl hzero
    · exact .inr ⟨seg, mem_append_left _ hmem, hack⟩
  queue seg hmem := mem_append_left _ (h.queue seg hmem)

theorem Sending.apply {op : Op} (hok : op.Heeds c) (hshort : (data ++ op.sends).length < 2 ^ 31) :
    ∃ una', una ≤ una' ∧ Sending base (data ++ op.sends) (seen ++ op.sees) (op.apply c) una' := by
  cases op with
  | arrive seg =>
    refine ⟨una, le_refl una, ?_⟩
    rw [show data ++ Op.sends (.arrive seg) = data from append_nil data]
    apply (h.see [seg]).setQueue
    intro seg' hmem
    rcases mem_append.mp hmem with hold | hnew
    · exact mem_append_left _ (h.queue seg' hold)
    · exact mem_append_right _ hnew
  | handle seg =>
    rw [show data ++ Op.sends (.handle seg) = data from append_nil data] at hshort ⊢
    exact (h.see [seg]).handleSeg hshort (mem_append_right _ mem_cons_self) hok
  | recv max =>
    rw [show data ++ Op.sends (.recv max) = data from append_nil data] at hshort ⊢
    obtain ⟨una', hle, hpumped⟩ := (h.see []).pumpNowait hshort hok
    exact ⟨una', hle, hpumped.congr rfl rfl rfl rfl hpumped.queue hpumped.wire⟩
  | peek max =>
    rw [show data ++ Op.sends (.peek max) = data from append_nil data] at hshort ⊢
    exact (h.see []).pumpNowait hshort hok
  | send more => exact ⟨una, le_refl una, (h.see []).sendNowait hok⟩
  | close =>
    refine ⟨una, le_refl una, ?_⟩
    rw [show data ++ Op.sends .close = data from append_nil data]
    exact (h.see []).sendFin
  | tick =>
    rw [show data ++ Op.sends .tick = data from append_nil data] at hshort ⊢
    exact (h.see []).tick hshort hok

def Heeding : TcpConn → List Op → Prop
  | _, [] => True
  | c, op :: ops => op.Heeds c ∧ Heeding (op.apply c) ops

omit h in
theorem Sending.run (hok : Heeding c ops)
    (hshort : (data ++ ops.flatMap Op.sends).length < 2 ^ 31) (h : Sending base data seen c una) :
    ∃ una', una ≤ una' ∧ Sending base (data ++ ops.flatMap Op.sends)
      (seen ++ ops.flatMap Op.sees) (Tcp.run c ops).2 una' := by
  induction ops generalizing c data seen una with
  | nil =>
    rw [flatMap_nil, flatMap_nil, append_nil, append_nil]
    exact ⟨una, le_refl una, h⟩
  | cons op ops ih =>
    rw [flatMap_cons, ← append_assoc] at hshort ⊢
    rw [flatMap_cons, ← append_assoc]
    have hfirst : (data ++ op.sends).length < 2 ^ 31 := by
      rw [length_append] at hshort
      omega
    obtain ⟨una₁, hle₁, hnext⟩ := h.apply hok.1 hfirst
    obtain ⟨una₂, hle₂, hlast⟩ := ih hok.2 hshort hnext
    exact ⟨una₂, le_trans hle₁ hle₂, hlast⟩

omit h in
theorem established_sending (dport sport : UInt16) (isn irs : UInt32) :
    Sending (isn + 1) [] [] (established dport sport isn irs) 0 where
  mySeq := (ofPos_zero _).symm
  sndUna := (ofPos_zero _).symm
  una_le := le_refl _
  acked := .inl rfl
  retx := ⟨0, le_refl 0, rfl⟩
  wire seg hmem := by cases hmem
  queue seg hmem := by cases hmem

def SameBytes (wire : List TcpSegment) : Prop :=
  ∀ seg ∈ wire, ∀ seg' ∈ wire, ∀ i i' : Nat, i < seg.payload.length → i' < seg'.payload.length →
    seg.seq + UInt32.ofNat i = seg'.seq + UInt32.ofNat i' → seg.payload[i]? = seg'.payload[i']?

omit h in
theorem Bound.byte (h : Bound base data fin seg) (hi : i < seg.payload.length) :
    ∃ pos < data.length, seg.seq + UInt32.ofNat i = ofPos base pos ∧
      seg.payload[i]? = data[pos]? := by
  obtain ⟨pos, hseq, rest, hrest⟩ := h.bytes (ne_nil_of_length_pos (by omega))
  have hlen := congrArg List.length hrest
  rw [length_append, length_drop] at hlen
  refine ⟨pos + i, by omega, by rw [hseq, ofPos_add], ?_⟩
  rw [← getElem?_drop, ← hrest, getElem?_append_left hi]

theorem Sending.sameBytes (hshort : data.length < 2 ^ 31) : SameBytes c.wire := by
  intro seg hseg seg' hseg' i i' hi hi' hnum
  obtain ⟨pos, hpos, hseq, hbyte⟩ := (h.wire seg hseg).byte hi
  obtain ⟨pos', hpos', hseq', hbyte'⟩ := (h.wire seg' hseg').byte hi'
  rw [hseq, hseq', ofPos_inj (by omega) (by omega)] at hnum
  rw [hbyte, hbyte', hnum]

end Steps

/-- In a run that accepts no acknowledgement beyond what was sent and sends nothing
after the FIN, the retransmission buffer holds every byte from the first
unacknowledged one on, what is emitted is bound to its number, and the FIN comes
after all data. -/
theorem run_sending {dport sport : UInt16} {isn irs : UInt32} {ops : List Op}
    (hok : Heeding (established dport sport isn irs) ops)
    (hshort : (ops.flatMap Op.sends).length < 2 ^ 31) :
    SameBytes (run (established dport sport isn irs) ops).2.wire ∧
      ∃ una, Sending (isn + 1) (ops.flatMap Op.sends) (ops.flatMap Op.sees)
        (run (established dport sport isn irs) ops).2 una := by
  obtain ⟨una, -, h⟩ := (established_sending dport sport isn irs).run hok hshort
  rw [nil_append, nil_append] at h
  exact ⟨h.sameBytes hshort, una, h⟩

/-- Two bytes are sent and the first acknowledged, then the FIN goes out and is sent
again with the piece that is still waiting. -/
theorem half_acked_sending :
    ∃ ops, Heeding (established 80 5000 6 9) ops ∧ ops.flatMap Op.sends = [1, 2] ∧
      (run (established 80 5000 6 9) ops).2.retx = [(7, [1, 2])] ∧
      SameBytes (run (established 80 5000 6 9) ops).2.wire ∧
      ∃ una, Sending (6 + 1) (ops.flatMap Op.sends) (ops.flatMap Op.sees)
        (run (established 80 5000 6 9) ops).2 una := by
  have hok : Heeding (established 80 5000 6 9)
      [.send [1, 2], .handle ⟨80, 5000, 10, 8, ACK, 0, []⟩, .close, .tick] := by
    refine ⟨fun h => ?_, fun _ _ => ?_, trivial, trivial, trivial⟩
    · cases h
    · left
      decide +kernel
  exact ⟨_, hok, rfl, by decide +kernel, run_sending hok (by decide)⟩

/-- A forged acknowledgement far beyond what was sent empties the buffer and takes
`sndUna` past `mySeq`; and data goes out above the number of the FIN. -/
theorem forged_ack_forgets :
    (∃ c, c = (run (established 80 5000 6 9)
        [.send [1, 2, 3], .handle ⟨80, 5000, 10, 500, ACK, 0, []⟩]).2 ∧
      c.retx = [] ∧ c.sndUna = 500 ∧ c.mySeq = 10) ∧
    (run (established 80 5000 6 9) [.close, .send [1]]).2.wire =
      [⟨5000, 80, 7, 10, FIN ||| ACK, 64240, []⟩, ⟨5000, 80, 8, 10, PSH ||| ACK, 64240, [1]⟩] := by
  refine ⟨⟨_, rfl, ?_⟩, ?_⟩
  · decide +kernel
  · decide +kernel

end Tcp

end EuroOS
