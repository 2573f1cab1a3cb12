import EuroOS.Tcp

/-!
# When a connection is given up

`tick` counts its rounds that find data unacknowledged, and takes the count back to zero in a
round that finds none.  An acknowledgement in between does not change the count, so a
connection with data always under way is given up in its ninth round.
-/

namespace EuroOS.Tcp

def TcpSegment.Plain (seg : TcpSegment) : Prop := seg.has RST = false ∧ seg.has FIN = false

def Op.Ordinary : Op → Prop
  | .arrive seg | .handle seg => seg.Plain
  | .close => False
  | _ => True

/-- An open connection that nobody closes. -/
structure Steady (c : TcpConn) : Prop where
  isOpen : c.isOpen = true
  finSent : c.finSent = false
  reset : c.reset = false
  queue : ∀ seg ∈ c.queue, seg.Plain

/-- What a step that is no timer round leaves as it was. -/
structure Untimed (c c' : TcpConn) : Prop where
  steady : Steady c → Steady c'
  rounds : c'.staleRounds = c.staleRounds

theorem Untimed.trans (h : Untimed c c') (h' : Untimed c' c'') : Untimed c c'' :=
  ⟨h'.steady ∘ h.steady, h'.rounds.trans h.rounds⟩

theorem untimed_handleSeg (c : TcpConn) (hseg : seg.Plain) : Untimed c (c.handleSeg seg).2 := by
  unfold TcpConn.handleSeg
  rw [if_neg (by simp [hseg.1])]
  dsimp only
  rw [if_neg (by simp [hseg.2])]
  obtain ⟨t, r, o, hplace⟩ := TcpConn.place_frame
    (if seg.has ACK then c.ackUpto seg.ack else c) seg
  rw [TcpConn.handlePayload, hplace]
  split_ifs <;> exact ⟨fun h => ⟨h.isOpen, h.finSent, h.reset, h.queue⟩, rfl⟩

theorem untimed_pumpFrom (hsegs : ∀ seg ∈ segs, seg.Plain) (c : TcpConn) :
    Untimed c (TcpConn.pumpFrom segs c) := by
  induction segs generalizing c with
  | nil => exact ⟨fun h => ⟨h.isOpen, h.finSent, h.reset, by simp [TcpConn.pumpFrom]⟩, rfl⟩
  | cons seg segs ih =>
    obtain ⟨hseg, hsegs⟩ := List.forall_mem_cons.mp hsegs
    have hhandled := untimed_handleSeg c hseg
    unfold TcpConn.pumpFrom
    dsimp only
    split
    · exact hhandled.trans ⟨fun h => ⟨h.isOpen, h.finSent, h.reset, hsegs⟩, rfl⟩
    · exact hhandled.trans (ih hsegs _)

theorem Steady.untimed_pump (h : Steady c) : Untimed c c.pumpNowait := untimed_pumpFrom h.queue c

theorem untimed_send (data : Bytes) (c : TcpConn) : Untimed c (c.sendNowait data) := by
  unfold TcpConn.sendNowait
  induction TcpConn.chunks data generalizing c with
  | nil => exact ⟨id, rfl⟩
  | cons chunk chunks ih =>
    have hchunk : Untimed c (c.sendChunk chunk) :=
      ⟨fun h => ⟨h.isOpen, h.finSent, h.reset, h.queue⟩, rfl⟩
    exact hchunk.trans (ih _)

theorem Steady.untimed_apply (h : Steady c) {op : Op} (hop : op.Ordinary) (htick : op ≠ .tick) :
    Untimed c (op.apply c) := by
  cases op with
  | arrive seg =>
    refine ⟨fun h => ⟨h.isOpen, h.finSent, h.reset, fun s hs => ?_⟩, rfl⟩
    rcases List.mem_append.mp hs with hs | hs
    · exact h.queue s hs
    · exact List.mem_singleton.mp hs ▸ hop
  | handle seg => exact untimed_handleSeg c hop
  | recv max =>
    exact h.untimed_pump.trans ⟨fun h => ⟨h.isOpen, h.finSent, h.reset, h.queue⟩, rfl⟩
  | peek max => exact h.untimed_pump
  | send data => exact untimed_send data c
  | close => cases hop
  | tick => exact absurd rfl htick

/-! ## Rounds -/

def TcpConn.unacked (c : TcpConn) : List TcpSegment :=
  c.retx.map fun kept => ⟨c.sport, c.dport, kept.1, c.theirSeq, PSH ||| ACK, 64240, kept.2⟩

/-- A round leaves the connection open and sends exactly what is unacknowledged again. -/
def Persists (c : TcpConn) : Prop :=
  c.tick.isOpen = true ∧ (c.pumpNowait.retx ≠ [] →
    c.tick.wire = c.pumpNowait.wire ++ c.pumpNowait.unacked)

/-- The states in which a run calls `tick`, each with the number of rounds just before it that
found data unacknowledged, of which there were `n` before the run. -/
def ticks (n : Nat) (c : TcpConn) : List Op → List (Nat × TcpConn)
  | [] => []
  | .tick :: ops => (n, c) :: ticks (if c.pumpNowait.retx = [] then 0 else n + 1) c.tick ops
  | op :: ops => ticks n (op.apply c) ops

theorem Steady.tick_eq (h : Steady c) : c.tick =
    if c.pumpNowait.retx = [] then { c.pumpNowait with staleRounds := 0 }
    else if 8 < c.staleRounds then c.pumpNowait
    else if 8 < c.staleRounds + 1 then
      { c.pumpNowait with staleRounds := c.staleRounds + 1, isOpen := false }
    else { c.pumpNowait with
      staleRounds := c.staleRounds + 1, wire := c.pumpNowait.wire ++ c.pumpNowait.unacked } := by
  have hsteady := h.untimed_pump.steady h
  rw [← h.untimed_pump.rounds]
  unfold TcpConn.tick
  generalize c.pumpNowait = p at *
  by_cases hnil : p.retx = []
  · simp [hsteady.reset, hsteady.finSent, hnil]
  · simp [hsteady.reset, hsteady.finSent, hsteady.isOpen, hnil, TcpConn.unacked,
      TcpConn.retransmitUnacked_frame]

theorem Steady.persists_iff (h : Steady c) :
    Persists c ↔ (c.pumpNowait.retx ≠ [] → c.staleRounds < 8) := by
  have hopen := (h.untimed_pump.steady h).isOpen
  rw [Persists, h.tick_eq]
  by_cases hnil : c.pumpNowait.retx = []
  · simp [hnil, hopen]
  have hsent : c.pumpNowait.unacked ≠ [] := by simpa [TcpConn.unacked] using hnil
  rw [if_neg hnil]
  split_ifs <;> simp_all <;> omega

theorem Steady.tick (h : Steady c) (hrounds : c.pumpNowait.retx ≠ [] → c.staleRounds < 8) :
    Steady c.tick ∧
      c.tick.staleRounds = if c.pumpNowait.retx = [] then 0 else c.staleRounds + 1 := by
  have hsteady := h.untimed_pump.steady h
  rw [h.tick_eq]
  by_cases hnil : c.pumpNowait.retx = []
  · rw [if_pos hnil, if_pos hnil]
    exact ⟨⟨hsteady.isOpen, hsteady.finSent, hsteady.reset, hsteady.queue⟩, rfl⟩
  · have hlt := hrounds hnil
    rw [if_neg hnil, if_neg hnil, if_neg (by omega), if_neg (by omega)]
    exact ⟨⟨hsteady.isOpen, hsteady.finSent, hsteady.reset, hsteady.queue⟩, rfl⟩

def steadyAcks : List Op :=
  .send [0] :: (List.range 9).flatMap fun k =>
    [.send [1], .arrive ⟨80, 5000, 1, UInt32.ofNat (k + 2), ACK, 0, []⟩, .tick]

end EuroOS.Tcp
