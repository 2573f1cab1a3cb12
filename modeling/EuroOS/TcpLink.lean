import EuroOS.TcpReceive
import EuroOS.TcpSend

/-!
# Two ends of a connection

What one end emits of its data is a stream in segments.  Whatever of it the network
brings to the other end, how often and in which order, that end reads a beginning of
what was sent, and all of it when it has the FIN.
-/

namespace EuroOS.Tcp

open List SeqNum

theorem Bound.carries (h : Bound base data fin seg) (hshort : data.length < 2 ^ 31)
    (hreset : seg.has RST = false) (hfull : seg.payload ≠ [] ∨ seg.has FIN = true) :
    Carries data base seg := by
  by_cases hempty : seg.payload = []
  · have hseq := (h.finAt (hfull.resolve_left (absurd hempty))).2
    exact ⟨data.length, data.length, hreset, le_refl _, le_refl _, hseq, by simp [hempty],
      fun _ => rfl⟩
  obtain ⟨pos, hseq, hpart⟩ := h.bytes hempty
  have hlen := hpart.length_le
  have hpos := length_pos_of_ne_nil hempty
  rw [length_drop] at hlen
  refine ⟨pos, pos + seg.payload.length, hreset, by omega, by omega, hseq, ?_, fun hfin => ?_⟩
  · rw [drop_take, Nat.add_sub_cancel_left]
    exact prefix_iff_eq_take.mp hpart
  · -- A FIN with data would stand at two positions of the stream.
    have hsame := hseq.symm.trans (h.finAt hfin).2
    rw [ofPos_inj (by omega) (by omega)] at hsame
    omega

/-- One end sends in a run that heeds the acknowledgements; the other end is brought any of the
segments with data or a FIN that the first one emits, and does anything else besides. -/
theorem sent_delivered {dport sport : UInt16} {isn irs : UInt32} {ops ops' : List Op}
    (hok : Heeding (established dport sport isn irs) ops)
    (hshort : (ops.flatMap Op.sends).length < 2 ^ 31)
    (hnetwork : ∀ seg ∈ ops'.flatMap Op.sees,
      seg ∈ (run (established dport sport isn irs) ops).2.wire ∧ seg.has RST = false ∧
        (seg.payload ≠ [] ∨ seg.has FIN = true)) :
    Delivered (ops.flatMap Op.sends) (isn + 1) (run (established sport dport irs isn) ops').1
      (run (established sport dport irs isn) ops').2 := by
  obtain ⟨una, -, hsending⟩ := (established_sending dport sport isn irs).run hok hshort
  have hcarries : ∀ seg ∈ ops'.flatMap Op.sees,
      Carries (ops.flatMap Op.sends) (isn + 1) seg := by
    intro seg hmem
    obtain ⟨hwire, hreset, hfull⟩ := hnetwork seg hmem
    exact (hsending.wire seg hwire).carries hshort hreset hfull
  have hfeeds : ∀ op ∈ ops', op.Feeds (ops.flatMap Op.sends) (isn + 1) := by
    intro op hop
    cases op with
    | arrive seg => exact hcarries seg (mem_flatMap.mpr ⟨_, hop, mem_singleton_self seg⟩)
    | handle seg => exact hcarries seg (mem_flatMap.mpr ⟨_, hop, mem_singleton_self seg⟩)
    | _ => trivial
  obtain ⟨n, -, hreceiving⟩ :=
    (established_receiving (ops.flatMap Op.sends) sport dport irs isn).run hshort hfeeds
  exact hreceiving.delivered hshort

/-- The FIN comes before the data, which comes twice. -/
theorem sent_delivered_reordered :
    ∃ ops ops' : List Op, ops.flatMap Op.sends = [1, 2] ∧
      (run (established 5000 80 9 6) ops').1 = [1, 2] ∧
      Delivered (ops.flatMap Op.sends) (6 + 1) (run (established 5000 80 9 6) ops').1
        (run (established 5000 80 9 6) ops').2 := by
  have hok : Heeding (established 80 5000 6 9) [.send [1, 2], .close] := by
    refine ⟨fun h => ?_, trivial, trivial⟩
    cases h
  refine ⟨_, [.handle ⟨5000, 80, 9, 10, FIN ||| ACK, 64240, []⟩,
    .arrive ⟨5000, 80, 7, 10, PSH ||| ACK, 64240, [1, 2]⟩,
    .arrive ⟨5000, 80, 7, 10, PSH ||| ACK, 64240, [1, 2]⟩, .recv 9], rfl, by decide +kernel,
    sent_delivered hok (by decide) ?_⟩
  decide +kernel

end EuroOS.Tcp
