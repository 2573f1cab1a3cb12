import EuroOS.Tcp

/-!
# Receiving the peer's byte stream

The peer sends a byte string and then a FIN, in segments that each carry a part of
the string at its sequence number; segments may be lost, repeated, reordered and cut
differently.  What the connection has buffered is always a prefix of the string.
-/

namespace EuroOS

open List

namespace Tcp

open SeqNum

section Parts

variable {stream : Bytes} {base : UInt32} {kept : UInt32 × Bytes} {pos stop n : Nat}

structure Part (stream : Bytes) (base : UInt32) (kept : UInt32 × Bytes) (pos stop : Nat) :
    Prop where
  lt : pos < stop
  le : stop ≤ stream.length
  seq : kept.1 = ofPos base pos
  data : kept.2 = (stream.take stop).drop pos

theorem Part.length (h : Part stream base kept pos stop) : kept.2.length = stop - pos := by
  rw [h.data, length_drop, length_take, min_eq_left h.le]

theorem half_toNat : (0x80000000 : UInt32).toNat = 2 ^ 31 := rfl

theorem sub_lt_half_iff (hpos : pos ≤ stream.length) (hn : n ≤ stream.length)
    (hshort : stream.length < 2 ^ 31) : ofPos base n - ofPos base pos < 0x80000000 ↔ pos ≤ n := by
  rw [UInt32.lt_iff_toNat_lt, half_toNat]
  by_cases hle : pos ≤ n
  · rw [toNat_sub_of_le hle (by omega)]
    omega
  · rw [toNat_sub_of_lt (by omega) (by omega)]
    omega

theorem reaches_iff (h : Part stream base kept pos stop) (hn : n ≤ stream.length)
    (hshort : stream.length < 2 ^ 31) :
    TcpConn.reaches (ofPos base n) kept = true ↔ pos ≤ n ∧ n < stop := by
  have hlt := h.lt
  have hle := h.le
  unfold TcpConn.reaches
  rw [h.length, h.seq, Bool.or_eq_true, Bool.and_eq_true, decide_eq_true_eq, decide_eq_true_eq,
    sub_lt_half_iff (by omega) hn hshort, beq_iff_eq,
    sub_eq_zero_iff (by omega) (by omega)]
  constructor
  · rintro (heq | ⟨hpn, hstop⟩)
    · omega
    · rw [toNat_sub_of_le hpn (by omega)] at hstop
      omega
  · rintro ⟨hpn, hstop⟩
    right
    refine ⟨hpn, ?_⟩
    rw [toNat_sub_of_le hpn (by omega)]
    omega

theorem behind_iff (h : Part stream base kept pos stop) (hn : n ≤ stream.length)
    (hshort : stream.length < 2 ^ 31) : TcpConn.behind (ofPos base n) kept = true ↔ stop ≤ n := by
  have hlt := h.lt
  have hle := h.le
  unfold TcpConn.behind
  rw [h.length, h.seq, Bool.and_eq_true, decide_eq_true_eq, decide_eq_true_eq,
    sub_lt_half_iff (by omega) hn hshort]
  constructor
  · rintro ⟨hpn, hstop⟩
    rw [toNat_sub_of_le hpn (by omega)] at hstop
    omega
  · intro hstop
    have hpn : pos ≤ n := by omega
    refine ⟨hpn, ?_⟩
    rw [toNat_sub_of_le hpn (by omega)]
    omega

theorem take_append_part (hn : pos ≤ n) (hstop : n ≤ stop) :
    stream.take n ++ ((stream.take stop).drop pos).drop (n - pos) = stream.take stop := by
  rw [drop_drop, Nat.add_sub_cancel' hn]
  have hsplit := take_append_drop n (stream.take stop)
  rw [take_take, min_eq_left hstop] at hsplit
  exact hsplit

end Parts

/-! ## Buffering -/

section Buffer

variable {stream : Bytes} {base : UInt32} {n : Nat}

/-- What was delivered before and is buffered now is the prefix of length `n`, and
the store holds parts of the stream. -/
structure Aligned (stream : Bytes) (base : UInt32) (before : Bytes) (c : TcpConn) (n : Nat) :
    Prop where
  le : n ≤ stream.length
  seq : c.theirSeq = ofPos base n
  bytes : before ++ c.rx = stream.take n
  parts : ∀ kept ∈ c.ooo, ∃ pos stop, Part stream base kept pos stop

theorem Aligned.extend (h : Aligned stream base before c n) (hpos : pos ≤ n) (hstop : n ≤ stop)
    (hle : stop ≤ stream.length) :
    Aligned stream base before (c.extend (((stream.take stop).drop pos).drop (n - pos))) stop where
  le := hle
  seq := by
    have hlen : (((stream.take stop).drop pos).drop (n - pos)).length = stop - n := by
      rw [length_drop, length_drop, length_take, min_eq_left hle]
      omega
    unfold TcpConn.extend
    rw [h.seq, ofPos_add, hlen, Nat.add_sub_cancel' hstop]
  bytes := by
    unfold TcpConn.extend
    rw [← append_assoc, h.bytes, take_append_part hpos hstop]
  parts := h.parts

theorem splice_aligned (hshort : stream.length < 2 ^ 31) (fuel : Nat) :
    ∀ (c : TcpConn) (n : Nat), Aligned stream base before c n → c.ooo.length ≤ fuel →
      ∃ n', n ≤ n' ∧ Aligned stream base before (TcpConn.splice fuel c) n' ∧
        ∀ kept ∈ (TcpConn.splice fuel c).ooo,
          TcpConn.reaches (TcpConn.splice fuel c).theirSeq kept = false := by
  induction fuel with
  | zero =>
    intro c n h hfuel
    refine ⟨n, le_refl n, h, ?_⟩
    intro kept hmem
    have hnil : c.ooo = [] := length_eq_zero_iff.mp (Nat.le_zero.mp hfuel)
    rw [TcpConn.splice, hnil] at hmem
    cases hmem
  | succ fuel ih =>
    intro c n h hfuel
    unfold TcpConn.splice
    cases hfind : c.ooo.find? (TcpConn.reaches c.theirSeq) with
    | none =>
      refine ⟨n, le_refl n, h, ?_⟩
      intro kept hmem
      exact Bool.eq_false_iff.mpr (find?_eq_none.mp hfind kept hmem)
    | some kept =>
      have hmem := mem_of_find?_eq_some hfind
      have hreaches := find?_some hfind
      obtain ⟨pos, stop, hpart⟩ := h.parts kept hmem
      rw [h.seq, reaches_iff hpart h.le hshort] at hreaches
      -- the part is taken out of the store and its new bytes are buffered
      have herased : Aligned stream base before
          { c with ooo := c.ooo.eraseP (TcpConn.reaches c.theirSeq) } n :=
        ⟨h.le, h.seq, h.bytes, fun kept' hkept => h.parts kept' (mem_of_mem_eraseP hkept)⟩
      have hskip : (c.theirSeq - kept.1).toNat = n - pos := by
        rw [h.seq, hpart.seq]
        exact toNat_sub_of_le hreaches.1 (by have := h.le; omega)
      have hnext := herased.extend hreaches.1 (by omega) hpart.le
      rw [← hpart.data, ← hskip] at hnext
      have hlen : (c.ooo.eraseP (TcpConn.reaches c.theirSeq)).length ≤ fuel := by
        rw [length_eraseP_of_mem hmem (find?_some hfind)]
        omega
      obtain ⟨n', hn', haligned, hdone⟩ := ih _ stop hnext hlen
      exact ⟨n', by omega, haligned, hdone⟩

theorem accept_aligned (hshort : stream.length < 2 ^ 31) (h : Aligned stream base before c n)
    (hpos : pos ≤ n) (hstop : n ≤ stop) (hle : stop ≤ stream.length) :
    ∃ n', stop ≤ n' ∧
      Aligned stream base before (c.accept (((stream.take stop).drop pos).drop (n - pos))) n' ∧
      ∀ kept ∈ (c.accept (((stream.take stop).drop pos).drop (n - pos))).ooo,
        ∃ pos' stop', Part stream base kept pos' stop' ∧ n' < pos' := by
  obtain ⟨n', hn', haligned, hdone⟩ :=
    splice_aligned hshort c.ooo.length _ stop (h.extend hpos hstop hle) (le_refl _)
  refine ⟨n', hn', ⟨haligned.le, haligned.seq, haligned.bytes, ?_⟩, ?_⟩
  · intro kept hmem
    exact haligned.parts kept (mem_of_mem_filter hmem)
  · intro kept hmem
    obtain ⟨hmem', hnot⟩ := mem_filter.mp hmem
    obtain ⟨pos', stop', hpart⟩ := haligned.parts kept hmem'
    refine ⟨pos', stop', hpart, ?_⟩
    have hreaches := hdone kept hmem'
    rw [Bool.not_eq_true', haligned.seq, Bool.eq_false_iff, Ne,
      behind_iff hpart haligned.le hshort] at hnot
    rw [haligned.seq, Bool.eq_false_iff, Ne, reaches_iff hpart haligned.le hshort] at hreaches
    omega

end Buffer

/-! ## Segments of the stream -/

section Segments

variable {stream : Bytes} {base : UInt32} {n : Nat}

/-- The segment carries the part of the stream from `pos` to `stop`, and a FIN only
at the end of the stream. -/
structure CarriesAt (stream : Bytes) (base : UInt32) (seg : TcpSegment) (pos stop : Nat) :
    Prop where
  noReset : seg.has RST = false
  le : pos ≤ stop
  stop_le : stop ≤ stream.length
  seq : seg.seq = ofPos base pos
  data : seg.payload = (stream.take stop).drop pos
  fin : seg.has FIN = true → stop = stream.length

def Carries (stream : Bytes) (base : UInt32) (seg : TcpSegment) : Prop :=
  ∃ pos stop, CarriesAt stream base seg pos stop

variable {pos stop : Nat}

theorem CarriesAt.length (h : CarriesAt stream base seg pos stop) :
    seg.payload.length = stop - pos := by
  rw [h.data, length_drop, length_take, min_eq_left h.stop_le]

theorem CarriesAt.part (h : CarriesAt stream base seg pos stop) (hne : seg.payload ≠ []) :
    Part stream base (seg.seq, seg.payload) pos stop where
  __ := h
  lt := by
    have hlen := h.length
    have hpos := length_pos_of_ne_nil hne
    omega
  le := h.stop_le

/-- A stored part is ahead of the prefix.  The one exception: a stream of 2^31 - 1
bytes whose first bytes come again after its FIN. -/
def Ahead (stream : Bytes) (finished : Bool) (n pos : Nat) : Prop :=
  n < pos ∨ (finished = true ∧ stream.length + 1 = 2 ^ 31 ∧ pos = 0)

structure Receiving (stream : Bytes) (base : UInt32) (before : Bytes) (c : TcpConn) (n : Nat) :
    Prop where
  le : n ≤ stream.length
  bytes : before ++ c.rx = stream.take n
  seq : c.theirSeq = ofPos base (n + c.peerFin.toNat)
  fin : c.peerFin = true → n = stream.length
  store : ∀ kept ∈ c.ooo, ∃ pos stop, Part stream base kept pos stop ∧
    Ahead stream c.peerFin n pos
  queue : ∀ seg ∈ c.queue, Carries stream base seg

variable (h : Receiving stream base before c n)

include h

theorem Receiving.congr (hrx : c'.rx = c.rx) (hseq : c'.theirSeq = c.theirSeq)
    (hfin : c'.peerFin = c.peerFin) (hooo : c'.ooo = c.ooo) (hqueue : c'.queue = c.queue) :
    Receiving stream base before c' n where
  le := h.le
  bytes := by rw [hrx, h.bytes]
  seq := by rw [hseq, hfin, h.seq]
  fin := by rw [hfin]; exact h.fin
  store := by rw [hooo, hfin]; exact h.store
  queue := by rw [hqueue]; exact h.queue

theorem Receiving.aligned (hopen : c.peerFin = false) : Aligned stream base before c n where
  __ := h
  seq := by
    rw [h.seq, hopen]
    rfl
  parts kept hmem := by
    obtain ⟨pos, stop, hpart, -⟩ := h.store kept hmem
    exact ⟨pos, stop, hpart⟩

theorem Receiving.keep (hpart : Part stream base (seg.seq, seg.payload) pos stop)
    (hahead : Ahead stream c.peerFin n pos) : Receiving stream base before (c.keep seg) n := by
  unfold TcpConn.keep
  split
  · refine ⟨h.le, h.bytes, h.seq, h.fin, ?_, h.queue⟩
    intro kept hmem
    rcases mem_append.mp hmem with hold | hnew
    · exact h.store kept hold
    · rw [mem_singleton.mp hnew]
      exact ⟨pos, stop, hpart, hahead⟩
  · exact h

theorem Receiving.setQueue {queue : List TcpSegment}
    (hqueue : ∀ seg ∈ queue, Carries stream base seg) :
    Receiving stream base before { c with queue := queue } n :=
  ⟨h.le, h.bytes, h.seq, h.fin, h.store, hqueue⟩

theorem Receiving.sendNowait (data : Bytes) :
    Receiving stream base before (c.sendNowait data) n := by
  unfold TcpConn.sendNowait
  generalize TcpConn.chunks data = pieces
  induction pieces generalizing c with
  | nil => exact h
  | cons piece pieces ih => exact ih (h.congr rfl rfl rfl rfl rfl)

theorem Receiving.sendFin : Receiving stream base before c.sendFin n := by
  unfold TcpConn.sendFin
  split <;> exact h.congr rfl rfl rfl rfl rfl

theorem Receiving.rx_prefix (h' : Receiving stream base before c' n') (hn : n ≤ n') :
    c.rx <+: c'.rx := by
  have htake : before ++ c.rx <+: before ++ c'.rx := by
    rw [h.bytes, h'.bytes]
    exact take_prefix_take_left hn
  exact (prefix_append_right_inj before).mp htake

variable (hshort : stream.length < 2 ^ 31)

include hshort

theorem Receiving.accept (hopen : c.peerFin = false) (hpos : pos ≤ n) (hstop : n ≤ stop)
    (hle : stop ≤ stream.length) :
    ∃ n', stop ≤ n' ∧ Receiving stream base before
      (c.accept (((stream.take stop).drop pos).drop (n - pos))) n' := by
  obtain ⟨n', hn', haligned, hahead⟩ :=
    accept_aligned hshort (h.aligned hopen) hpos hstop hle
  obtain ⟨t, r, o, hframe⟩ :=
    TcpConn.accept_frame c (((stream.take stop).drop pos).drop (n - pos))
  rw [hframe] at haligned hahead ⊢
  refine ⟨n', hn', haligned.le, haligned.bytes, ?_, ?_, ?_, h.queue⟩
  · rw [haligned.seq, hopen]
    rfl
  · intro hfin
    rw [hopen] at hfin
    cases hfin
  · intro kept hmem
    obtain ⟨pos', stop', hpart, hlt⟩ := hahead kept hmem
    exact ⟨pos', stop', hpart, .inl hlt⟩

theorem Receiving.place_open (hopen : c.peerFin = false)
    (hseg : CarriesAt stream base seg pos stop) (hne : seg.payload ≠ []) :
    ∃ n', n ≤ n' ∧ Receiving stream base before (c.place seg) n' := by
  have hpart := hseg.part hne
  have hlt := hpart.lt
  have hstop := hpart.le
  have hn := h.le
  have hseq := (h.aligned hopen).seq
  have hzero : seg.seq - c.theirSeq = 0 ↔ pos = n := by
    rw [hseg.seq, hseq]
    exact sub_eq_zero_iff (by omega) (by omega)
  have hback : 0x80000000 < seg.seq - c.theirSeq ↔ pos < n := by
    rw [hseg.seq, hseq, UInt32.lt_iff_toNat_lt, half_toNat]
    by_cases hold : pos < n
    · rw [toNat_sub_of_lt hold (by omega)]
      omega
    · rw [toNat_sub_of_le (by omega) (by omega)]
      omega
  have hoff (hold : pos ≤ n) : (c.theirSeq - seg.seq).toNat = n - pos := by
    rw [hseg.seq, hseq]
    exact toNat_sub_of_le hold (by omega)
  unfold TcpConn.place
  by_cases heq : pos = n
  · rw [if_pos (hzero.mpr heq), hseg.data]
    obtain ⟨n', hn', hrec⟩ := h.accept hshort hopen (le_of_eq heq) (by omega) hstop
    rw [heq, Nat.sub_self, drop_zero] at hrec
    exact ⟨n', by omega, by rw [heq]; exact hrec⟩
  rw [if_neg (mt hzero.mp heq)]
  by_cases hold : pos < n
  · rw [if_pos (hback.mpr hold), hoff (le_of_lt hold), hseg.length]
    by_cases hnew : n - pos < stop - pos
    · rw [if_pos hnew, hseg.data]
      obtain ⟨n', hn', hrec⟩ := h.accept hshort hopen (le_of_lt hold) (by omega) hstop
      exact ⟨n', by omega, hrec⟩
    · rw [if_neg hnew]
      exact ⟨n, le_refl n, h⟩
  · rw [if_neg (mt hback.mp hold)]
    exact ⟨n, le_refl n, h.keep hpart (.inl (by omega))⟩

theorem Receiving.place_finished (hfin : c.peerFin = true)
    (hseg : CarriesAt stream base seg pos stop) (hne : seg.payload ≠ []) :
    Receiving stream base before (c.place seg) n := by
  have hpart := hseg.part hne
  have hlt := hpart.lt
  have hstop := hpart.le
  have hn := h.fin hfin
  have hseq : c.theirSeq = ofPos base (n + 1) := by
    rw [h.seq, hfin]
    rfl
  have hzero : ¬ seg.seq - c.theirSeq = 0 := by
    rw [hseg.seq, hseq, sub_eq_zero_iff (by omega) (by omega)]
    omega
  have hback : 0x80000000 < seg.seq - c.theirSeq ↔ n + 1 - pos < 2 ^ 31 := by
    rw [hseg.seq, hseq, UInt32.lt_iff_toNat_lt, half_toNat, toNat_sub_of_lt (by omega) (by omega)]
    omega
  have hoff : (c.theirSeq - seg.seq).toNat = n + 1 - pos := by
    rw [hseg.seq, hseq]
    exact toNat_sub_of_le (by omega) (by omega)
  unfold TcpConn.place
  rw [if_neg hzero]
  by_cases hnear : n + 1 - pos < 2 ^ 31
  · rw [if_pos (hback.mpr hnear), hoff, hseg.length, if_neg (by omega)]
    exact h
  rw [if_neg (mt hback.mp hnear)]
  apply h.keep hpart
  exact .inr ⟨hfin, by omega, by omega⟩

theorem Receiving.handlePayload (hseg : Carries stream base seg) (hne : seg.payload ≠ []) :
    ∃ n', n ≤ n' ∧ Receiving stream base before (c.handlePayload seg) n' := by
  obtain ⟨pos, stop, hseg⟩ := hseg
  cases hfin : c.peerFin with
  | false =>
    obtain ⟨n', hn', hrec⟩ := h.place_open hshort hfin hseg hne
    exact ⟨n', hn', hrec.congr rfl rfl rfl rfl rfl⟩
  | true => exact ⟨n, le_refl n, (h.place_finished hshort hfin hseg hne).congr rfl rfl rfl rfl rfl⟩

theorem Receiving.handleFin (hseg : Carries stream base seg) (hfin : seg.has FIN = true) :
    Receiving stream base before (c.handleFin seg).2 n := by
  obtain ⟨pos, stop, hseg⟩ := hseg
  have hn := h.le
  have hend : seg.seq + UInt32.ofNat seg.payload.length = ofPos base stream.length := by
    have hle := hseg.le
    rw [hseg.seq, ofPos_add, hseg.length, Nat.add_sub_cancel' hle, hseg.fin hfin]
  unfold TcpConn.handleFin
  rw [hend]
  cases hclosed : c.peerFin with
  | true =>
    rw [if_pos rfl]
    split
    · exact h.congr rfl rfl rfl rfl rfl
    · exact h
  | false =>
    have hseq := (h.aligned hclosed).seq
    have hthere : ofPos base stream.length = c.theirSeq ↔ stream.length = n := by
      rw [hseq]
      exact ofPos_inj (by omega) (by omega)
    rw [if_neg Bool.false_ne_true]
    by_cases heq : stream.length = n
    · rw [if_neg (not_not.mpr (hthere.mpr heq)), hseq]
      refine ⟨h.le, h.bytes, ofPos_succ base n, fun _ => heq.symm, ?_, h.queue⟩
      -- nothing is ahead of the whole stream
      intro kept hmem
      obtain ⟨pos', stop', hpart, hahead⟩ := h.store kept hmem
      refine ⟨pos', stop', hpart, ?_⟩
      rcases hahead with hlt | ⟨hf, -, -⟩
      · exact .inl hlt
      · rw [hclosed] at hf
        cases hf
    · rw [if_pos (mt hthere.mp heq)]
      exact h

theorem Receiving.handleSeg (hseg : Carries stream base seg) :
    ∃ n', n ≤ n' ∧ Receiving stream base before (c.handleSeg seg).2 n' := by
  have hnoReset : seg.has RST = false := by
    obtain ⟨pos, stop, hat⟩ := hseg
    exact hat.noReset
  have hack : Receiving stream base before (if seg.has ACK then c.ackUpto seg.ack else c) n := by
    split
    · exact h.congr rfl rfl rfl rfl rfl
    · exact h
  unfold TcpConn.handleSeg
  rw [hnoReset, if_neg Bool.false_ne_true]
  generalize (if seg.has ACK then c.ackUpto seg.ack else c) = c₁ at hack ⊢
  have hpayload : ∃ n', n ≤ n' ∧ Receiving stream base before
      (if seg.payload ≠ [] then c₁.handlePayload seg else c₁) n' := by
    by_cases hne : seg.payload ≠ []
    · rw [if_pos hne]
      exact hack.handlePayload hshort hseg hne
    · rw [if_neg hne]
      exact ⟨n, le_refl n, hack⟩
  dsimp only
  generalize (if seg.payload ≠ [] then c₁.handlePayload seg else c₁) = c₂ at hpayload ⊢
  obtain ⟨n', hn', hrec⟩ := hpayload
  refine ⟨n', hn', ?_⟩
  by_cases hfin : seg.has FIN = true
  · rw [if_pos hfin]
    exact hrec.handleFin hshort hseg hfin
  · rw [if_neg hfin]
    exact hrec

/-! ## Operations -/

theorem Receiving.pumpFrom {segs : List TcpSegment}
    (hsegs : ∀ seg ∈ segs, Carries stream base seg) :
    ∃ n', n ≤ n' ∧ Receiving stream base before (TcpConn.pumpFrom segs c) n' := by
  induction segs generalizing c n with
  | nil => exact ⟨n, le_refl n, h.setQueue hsegs⟩
  | cons seg rest ih =>
    have hrest : ∀ seg ∈ rest, Carries stream base seg :=
      fun seg hmem => hsegs seg (mem_cons_of_mem _ hmem)
    obtain ⟨n₁, hn₁, hrec⟩ := h.handleSeg hshort (hsegs seg mem_cons_self)
    unfold TcpConn.pumpFrom
    dsimp only
    split
    · exact ⟨n₁, hn₁, hrec.setQueue hrest⟩
    · obtain ⟨n₂, hn₂, hrec₂⟩ := ih hrec hrest
      exact ⟨n₂, le_trans hn₁ hn₂, hrec₂⟩

theorem Receiving.pumpNowait : ∃ n', n ≤ n' ∧ Receiving stream base before c.pumpNowait n' :=
  h.pumpFrom hshort h.queue

theorem Receiving.recvNowait (max : Nat) :
    ∃ n', n ≤ n' ∧
      Receiving stream base (before ++ (c.recvNowait max).1) (c.recvNowait max).2 n' := by
  obtain ⟨n', hn', hrec⟩ := h.pumpNowait hshort
  refine ⟨n', hn', hrec.le, ?_, hrec.seq, hrec.fin, hrec.store, hrec.queue⟩
  unfold TcpConn.recvNowait
  rw [append_assoc, take_append_drop, hrec.bytes]

theorem Receiving.tick : ∃ n', n ≤ n' ∧ Receiving stream base before c.tick n' := by
  obtain ⟨n', hn', hrec⟩ := h.pumpNowait hshort
  obtain ⟨rounds, still, more, hframe⟩ := c.tick_frame
  rw [hframe]
  exact ⟨n', hn', hrec.congr rfl rfl rfl rfl rfl⟩

/-- The segments that the operation brings in are segments of the stream. -/
def Op.Feeds (stream : Bytes) (base : UInt32) : Op → Prop
  | .arrive seg => Carries stream base seg
  | .handle seg => Carries stream base seg
  | _ => True

theorem Receiving.apply {op : Op} (hop : op.Feeds stream base) :
    ∃ n', n ≤ n' ∧ Receiving stream base (before ++ op.delivers c) (op.apply c) n' := by
  have hsilent (hnone : op.delivers c = [])
      (hrec : ∃ n', n ≤ n' ∧ Receiving stream base before (op.apply c) n') :
      ∃ n', n ≤ n' ∧ Receiving stream base (before ++ op.delivers c) (op.apply c) n' := by
    rw [hnone, append_nil]
    exact hrec
  cases op with
  | arrive seg =>
    refine hsilent rfl ⟨n, le_refl n, h.setQueue ?_⟩
    intro seg' hmem
    rcases mem_append.mp hmem with hold | hnew
    · exact h.queue seg' hold
    · rw [mem_singleton.mp hnew]
      exact hop
  | handle seg => exact hsilent rfl (h.handleSeg hshort hop)
  | recv max => exact h.recvNowait hshort max
  | peek max => exact hsilent rfl (h.pumpNowait hshort)
  | send data => exact hsilent rfl ⟨n, le_refl n, h.sendNowait data⟩
  | close => exact hsilent rfl ⟨n, le_refl n, h.sendFin⟩
  | tick => exact hsilent rfl (h.tick hshort)

theorem Receiving.run (hops : ∀ op ∈ ops, op.Feeds stream base) :
    ∃ n', n ≤ n' ∧ Receiving stream base (before ++ (Tcp.run c ops).1) (Tcp.run c ops).2 n' := by
  induction ops generalizing c n before with
  | nil =>
    refine ⟨n, le_refl n, ?_⟩
    rw [Tcp.run, append_nil]
    exact h
  | cons op ops ih =>
    obtain ⟨n₁, hn₁, hrec⟩ := h.apply hshort (hops op mem_cons_self)
    obtain ⟨n₂, hn₂, hrec₂⟩ :=
      ih hrec fun op hmem => hops op (mem_cons_of_mem _ hmem)
    refine ⟨n₂, le_trans hn₁ hn₂, ?_⟩
    rw [Tcp.run, ← append_assoc]
    exact hrec₂

omit h hshort in
theorem established_receiving (stream : Bytes) (dport sport : UInt16) (isn irs : UInt32) :
    Receiving stream (irs + 1) [] (established dport sport isn irs) 0 where
  le := Nat.zero_le _
  bytes := rfl
  seq := (ofPos_zero _).symm
  fin hfin := by cases hfin
  store kept hmem := by cases hmem
  queue seg hmem := by cases hmem

omit h in
theorem Ahead.half_le (hahead : Ahead stream c.peerFin n pos)
    (hrec : Receiving stream base before c n) (hpart : Part stream base kept pos stop) :
    0x80000000 ≤ c.theirSeq - kept.1 := by
  have hlt := hpart.lt
  have hle := hpart.le
  rw [UInt32.le_iff_toNat_le, half_toNat, hrec.seq, hpart.seq]
  rcases hahead with hpos | ⟨hfin, hedge, hzero⟩
  · cases hfin : c.peerFin with
    | false =>
      rw [Bool.toNat_false, toNat_sub_of_lt (by omega) (by omega)]
      omega
    | true =>
      -- after the FIN nothing is ahead of the prefix
      have hall := hrec.fin hfin
      omega
  · have hall := hrec.fin hfin
    rw [hfin, Bool.toNat_true, toNat_sub_of_le (by omega) (by omega)]
    omega

/-! ## The stream is received -/

/-- What a connection has delivered and buffered of the peer's stream, and what its
next reads return. -/
structure Delivered (stream : Bytes) (base : UInt32) (out : Bytes) (c : TcpConn) : Prop where
  bytes : out ++ c.rx <+: stream
  seq : c.theirSeq = base + UInt32.ofNat (out ++ c.rx).length + UInt32.ofNat c.peerFin.toNat
  fin : c.peerFin = true → out ++ c.rx = stream
  store : ∀ kept ∈ c.ooo, 0x80000000 ≤ c.theirSeq - kept.1 ∧
    (stream.length + 1 < 2 ^ 31 → ∃ pos, kept.1 = ofPos base pos ∧ (out ++ c.rx).length < pos)
  peek : ∀ max, (c.peekNowait max).1 = (c.recvNowait max).1
  peekNext : ∀ max later, (∀ op ∈ later, op.Feeds stream base) →
    (Tcp.run (c.peekNowait max).2 later).1 = [] →
      (c.peekNowait max).1 <+: ((Tcp.run (c.peekNowait max).2 later).2.recvNowait max).1
  peekSame : ∀ max, (c.peekNowait max).2.queue = [] →
    (c.peekNowait max).1 = ((c.peekNowait max).2.recvNowait max).1

theorem Receiving.delivered : Delivered stream base before c := by
  have hlen : (before ++ c.rx).length = n := by rw [h.bytes, length_take, min_eq_left h.le]
  constructor
  · rw [h.bytes]
    exact take_prefix n stream
  · rw [hlen, h.seq, ← ofPos_add]
    rfl
  · intro hfin
    rw [h.bytes, h.fin hfin, take_length]
  · intro kept hmem
    obtain ⟨pos, stop, hpart, hahead⟩ := h.store kept hmem
    refine ⟨hahead.half_le hshort h hpart, fun hlong => ⟨pos, hpart.seq, ?_⟩⟩
    rw [hlen]
    rcases hahead with hlt | ⟨-, hedge, -⟩
    · exact hlt
    · omega
  · intro max
    rfl
  · intro max later hlater hnone
    rw [TcpConn.peekNowait_snd] at hnone ⊢
    obtain ⟨n₁, hn₁, hpumped⟩ := h.pumpNowait hshort
    obtain ⟨n₂, hn₂, hrun⟩ := hpumped.run hshort hlater
    rw [hnone, append_nil] at hrun
    obtain ⟨n₃, hn₃, hagain⟩ := hrun.pumpNowait hshort
    obtain ⟨more, hmore⟩ := hpumped.rx_prefix hagain (le_trans hn₂ hn₃)
    rw [TcpConn.peekNowait_fst, TcpConn.recvNowait_fst, ← hmore, take_append]
    exact prefix_append _ _
  · intro max hempty
    rw [TcpConn.peekNowait_snd] at hempty ⊢
    have hsame : c.pumpNowait.pumpNowait.rx = c.pumpNowait.rx := by
      rw [TcpConn.pumpNowait, hempty]
      rfl
    rw [TcpConn.peekNowait_fst, TcpConn.recvNowait_fst, hsame]

end Segments

/-! ## A peek that is followed by a longer read -/

section Peek

variable {count : Nat}

def zeroSeg (size i : Nat) : TcpSegment :=
  ⟨80, 5000, ofPos (0 + 1) (size * i), 0, PSH, 0, List.replicate size 0⟩

theorem zeroSeg_flags (size i : Nat) : (zeroSeg size i).has RST = false ∧
    (zeroSeg size i).has ACK = false ∧ (zeroSeg size i).has FIN = false := by
  simp only [zeroSeg, TcpSegment.has]
  decide

theorem zeroSeg_carries (hi : i < count) :
    Carries (List.replicate (size * count) 0) (0 + 1) (zeroSeg size i) := by
  obtain ⟨hreset, -, hfin⟩ := zeroSeg_flags size i
  have hle : size * (i + 1) ≤ size * count := Nat.mul_le_mul_left size hi
  have hsucc : size * (i + 1) = size * i + size := Nat.mul_add_one size i
  refine ⟨size * i, size * (i + 1), hreset, by omega, ?_, rfl, ?_, ?_⟩
  · rw [length_replicate]
    exact hle
  · rw [take_replicate, drop_replicate, min_eq_left hle, hsucc, Nat.add_sub_cancel_left]
    rfl
  · intro h
    rw [hfin] at h
    cases h

structure InOrder (size : Nat) (c : TcpConn) (i : Nat) : Prop where
  seq : c.theirSeq = ofPos (0 + 1) (size * i)
  store : c.ooo = []
  length : c.rx.length = size * i

theorem InOrder.handleSeg (h : InOrder size c i) (hsize : 0 < size) :
    (c.handleSeg (zeroSeg size i)).1 = true ∧
      InOrder size (c.handleSeg (zeroSeg size i)).2 (i + 1) := by
  have haccept : c.accept (zeroSeg size i).payload = c.extend (zeroSeg size i).payload := by
    simp only [TcpConn.accept, TcpConn.extend, h.store, length_nil, TcpConn.splice, filter_nil]
  have hplace : c.place (zeroSeg size i) = c.extend (zeroSeg size i).payload := by
    unfold TcpConn.place
    rw [if_pos, haccept]
    rw [h.seq]
    exact (sub_eq_zero_iff (by omega) (by omega)).mpr rfl
  have hseg : c.handleSeg (zeroSeg size i) = (true, c.handlePayload (zeroSeg size i)) := by
    obtain ⟨hreset, hack, hfin⟩ := zeroSeg_flags size i
    have hne : (zeroSeg size i).payload ≠ [] := by
      apply ne_nil_of_length_pos
      exact lt_of_lt_of_eq hsize length_replicate.symm
    simp [TcpConn.handleSeg, hreset, hack, hfin, hne]
  have hlen : (zeroSeg size i).payload.length = size := length_replicate
  rw [hseg, TcpConn.handlePayload, hplace]
  refine ⟨rfl, ?_, h.store, ?_⟩
  · change c.theirSeq + UInt32.ofNat (zeroSeg size i).payload.length = _
    rw [h.seq, hlen, ofPos_add, Nat.mul_add_one]
  · change (c.rx ++ (zeroSeg size i).payload).length = _
    rw [length_append, h.length, hlen, Nat.mul_add_one]

theorem InOrder.pumpFrom (hsize : 0 < size) (rest : List TcpSegment) (k : Nat)
    (h : InOrder size c i) (hle : size * (i + k) ≤ TcpConn.rxBound) :
    ∃ c', InOrder size c' (i + k) ∧
      TcpConn.pumpFrom ((List.range' i k).map (zeroSeg size) ++ rest) c =
        TcpConn.pumpFrom rest c' := by
  induction k generalizing i c with
  | zero => exact ⟨c, h, rfl⟩
  | succ k ih =>
    obtain ⟨htrue, hnext⟩ := h.handleSeg hsize
    rw [← Nat.add_assoc, Nat.add_right_comm] at hle ⊢
    obtain ⟨c', hc', hpump⟩ := ih hnext hle
    refine ⟨c', hc', ?_⟩
    have hsmall : size * (i + 1) ≤ TcpConn.rxBound :=
      le_trans (Nat.mul_le_mul_left size (Nat.le_add_right _ k)) hle
    rw [range'_succ, map_cons, cons_append, TcpConn.pumpFrom, if_neg, hpump]
    rw [htrue, hnext.length]
    rintro (hfalse | hbig)
    · cases hfalse
    · exact absurd hbig (not_lt.mpr hsmall)

theorem InOrder.pump_stops (hsize : 0 < size) (rest : List TcpSegment) (h : InOrder size c i)
    (hbig : TcpConn.rxBound < size * (i + 1)) : ∃ c', InOrder size c' (i + 1) ∧
      TcpConn.pumpFrom (zeroSeg size i :: rest) c = { c' with queue := rest } := by
  obtain ⟨-, hnext⟩ := h.handleSeg hsize
  refine ⟨_, hnext, ?_⟩
  rw [TcpConn.pumpFrom, if_pos]
  right
  rw [hnext.length]
  exact hbig

theorem run_arrive (c : TcpConn) (segs : List TcpSegment) :
    (run c (segs.map .arrive)).2 = { c with queue := c.queue ++ segs } := by
  induction segs generalizing c with
  | nil =>
    rw [append_nil]
    rfl
  | cons seg segs ih =>
    rw [map_cons, run, ih, Op.apply, append_assoc]
    rfl

/-- With `n` segments up to the bound and two more waiting, a peek handles one of the
two and the read after it the other. -/
theorem peek_then_recv_length {max : Nat} (hsize : 0 < size) (h : InOrder size c 0)
    (hqueue : c.queue =
      (List.range' 0 n).map (zeroSeg size) ++ [zeroSeg size n, zeroSeg size (n + 1)])
    (hle : size * n ≤ TcpConn.rxBound) (hbig : TcpConn.rxBound < size * (n + 1))
    (hmax : size * (n + 2) ≤ max) :
    (c.peekNowait max).1.length = size * (n + 1) ∧
      ((c.peekNowait max).2.recvNowait max).1.length = size * (n + 2) := by
  have hmul : size * (n + 1) ≤ size * (n + 2) := Nat.mul_le_mul_left size (by omega)
  obtain ⟨c₁, h₁, hpump₁⟩ := h.pumpFrom hsize [zeroSeg size n, zeroSeg size (n + 1)] n
    (by rw [Nat.zero_add]; exact hle)
  rw [Nat.zero_add] at h₁
  obtain ⟨c₂, h₂, hpump₂⟩ := h₁.pump_stops hsize [zeroSeg size (n + 1)] hbig
  have hpeek : c.pumpNowait = { c₂ with queue := [zeroSeg size (n + 1)] } := by
    rw [TcpConn.pumpNowait, hqueue, hpump₁, hpump₂]
  have h₂' : InOrder size { c₂ with queue := [zeroSeg size (n + 1)] } (n + 1) :=
    ⟨h₂.seq, h₂.store, h₂.length⟩
  obtain ⟨c₃, h₃, hpump₃⟩ := h₂'.pump_stops hsize [] (lt_of_lt_of_le hbig hmul)
  have hrecv : c.pumpNowait.pumpNowait = { c₃ with queue := [] } := by
    rw [hpeek]
    exact hpump₃
  rw [TcpConn.peekNowait_snd, TcpConn.peekNowait_fst, TcpConn.recvNowait_fst, hrecv, hpeek,
    length_take, length_take, h₂.length, h₃.length]
  exact ⟨min_eq_right (le_trans hmul hmax), min_eq_right hmax⟩

end Peek

end Tcp

end EuroOS
