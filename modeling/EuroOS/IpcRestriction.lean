import EuroOS.IpcDelivery

/-!
# The sender restriction of a port

A send checks the restriction of its channel before it queues its message.  A
`setOnlyFrom` that returns between the two does not stop the message.  Where no
send is between its check and its queue section when the restriction is stored,
and the channel is still the port's, the restriction holds from then on.
-/

namespace EuroOS

open List Option

namespace Ipc

open World

section Restriction

variable {Core : Type} [DecidableEq Core]

/-- The sender of a send that is past its check and about to queue on the channel. -/
def pastCheck (ch : Nat) : Option (Call × Point) → Option UInt64
  | some (_, .push ch' sender _) => if ch' = ch then some sender else none
  | _ => none

/-- The port, the sender and the channel of a `setOnlyFrom` before its last store. -/
def lastStore : Option (Call × Point) → Option (UInt32 × UInt64 × Nat)
  | some (.setOnlyFrom port p, .storeRestricted ch) => some (port, p, ch)
  | _ => none

/-- The last section of `setOnlyFrom` finds the channel of the port as the call
left it, and no send of another process past its check. -/
def Settled (w : World ipc Core) : Move ipc Core → Prop
  | .call _ _ => True
  | .run core _ => ∀ store ∈ lastStore (w.running core), ∀ ch ∈ w.shared.listed,
      portOf w.shared.heap ch = some store.1 →
        (∀ c ∈ w.shared.heap[ch]?,
          (ch = store.2.2 ∨ c.restricted = true) ∧ c.onlyFrom = store.2.1) ∧
        ∀ core', ∀ sender ∈ pastCheck ch (w.running core'), sender = store.2.1

/-- The next section of the call does not give the port another restriction: it is
none of a `setOnlyFrom` with another sender, and does not claim the port anew. -/
def Retains (port : UInt32) (p : UInt64) (s : State) : Option (Call × Point) → Prop
  | some (.setOnlyFrom port' q, _) => port' = port → q = p
  | some (_, .claim _ port' _) =>
    port' = port → ∃ ch ∈ s.listed, portOf s.heap ch = some port
  | _ => True

instance (port : UInt32) (p : UInt64) (s : State) : DecidablePred (Retains port p s) := by
  intro running
  unfold Retains
  split <;> infer_instance

def Keeps (port : UInt32) (p : UInt64) (w : World ipc Core) : Move ipc Core → Prop
  | .call _ _ => True
  | .run core _ => Retains port p w.shared (w.running core)

instance (port : UInt32) (p : UInt64) (w : World ipc Core) :
    DecidablePred (Keeps port p w)
  | .call _ _ => inferInstanceAs (Decidable True)
  | .run core _ => inferInstanceAs (Decidable (Retains port p w.shared (w.running core)))

def Enqueues (w w' : World ipc Core) (sender : UInt64) (port : UInt32) : Prop :=
  ∃ ch ∈ w.shared.listed, portOf w.shared.heap ch = some port ∧
    ∃ data, queueOf w'.shared.heap ch = queueOf w.shared.heap ch ++ [(sender, data)]

def restrictionOf (heap : List Channel) (ch : Nat) : Option (Bool × UInt64) :=
  heap[ch]?.map fun c => (c.restricted, c.onlyFrom)

theorem restrictionOf_eq (hport : portOf heap ch = some port)
    (h : ∀ c, heap[ch]? = some c → c.restricted = true ∧ c.onlyFrom = p) :
    restrictionOf heap ch = some (true, p) := by
  have hlt := lt_of_portOf hport
  have hc := h heap[ch] (getElem?_eq_getElem hlt)
  simp [restrictionOf, hlt, hc.1, hc.2]

/-- The channel of the port takes messages of `p` only, and no other message is on
its way past the check. -/
def Guarded (port : UInt32) (p : UInt64) (w : World ipc Core) : Prop :=
  ∀ ch ∈ w.shared.listed, portOf w.shared.heap ch = some port →
    restrictionOf w.shared.heap ch = some (true, p) ∧
      ∀ core, ∀ sender ∈ pastCheck ch (w.running core), sender = p

variable {point : Point} {next : Point ⊕ Result} {ch : Nat} {port : UInt32} {p : UInt64}

theorem restrictionOf_append (c : Channel) (hlt : ch < heap.length) :
    restrictionOf (heap ++ [c]) ch = restrictionOf heap ch := by
  simp [restrictionOf, getElem?_append_left hlt]

theorem Effect.restrictionOf (h : Effect s point next s')
    (hr : restrictionOf s.heap ch = some (true, p)) (hlt : ch < s.heap.length)
    (hstore : ∀ q, point = .storeOnlyFrom ch q → q = p) :
    Ipc.restrictionOf s'.heap ch = some (true, p) := by
  cases h with
  | claimed _ _ _ _ _ hheap | taken _ _ _ _ hheap => rw [hheap, restrictionOf_append _ hlt, hr]
  | removed _ hheap _ => rw [hheap, hr]
  | storedOnlyFrom ch' q _ hheap =>
    by_cases heq : ch' = ch
    · subst heq
      have hq : q = p := hstore q rfl
      have hc : s.heap[ch'].restricted = true ∧ s.heap[ch'].onlyFrom = p := by
        simpa [Ipc.restrictionOf, hlt] using hr
      simp [Ipc.restrictionOf, hheap, hlt, hq, hc.1]
    · unfold Ipc.restrictionOf at hr ⊢
      rw [hheap, getElem?_modify]
      simpa [heq] using hr
  | storedRestricted ch' _ hheap =>
    unfold Ipc.restrictionOf at hr ⊢
    rw [hheap, getElem?_modify]
    cases hc : s.heap[ch]? with
    | none => simp [hc] at hr
    | some c =>
      by_cases heq : ch' = ch <;> simp_all
  | pushed _ _ _ _ _ hheap | popped _ _ _ _ _ hheap =>
    rw [hheap]
    exact (getElem?_modify_map _ _ (by intro; rfl)).trans hr
  | _ => exact hr

variable {w w₁ w₂ w₃ : World ipc Core}

variable {sender : UInt64} {data : Bytes}

theorem pastCheck_eq_some {running : Option (Call × Point)}
    (h : pastCheck ch running = some sender) :
    ∃ call data, running = some (call, .push ch sender data) := by
  unfold pastCheck at h
  split at h
  · rename_i call ch' sender' data
    split at h
    · rename_i heq
      cases h
      exact ⟨call, data, by rw [heq]⟩
    · cases h
  · cases h

theorem pastCheck_push {running : Option (Call × Point)}
    (h : running = some (call, .push ch sender data)) : sender ∈ pastCheck ch running := by
  rw [h, pastCheck, if_pos rfl]
  rfl

theorem Guarded.begin (h : Guarded port p w) (core : Core) (call : Call) :
    Guarded port p (w.begin core call) := by
  intro ch hmem hport
  refine ⟨(h ch hmem hport).1, ?_⟩
  intro core' sender hsender
  obtain ⟨call', data, hrun⟩ := pastCheck_eq_some hsender
  rcases begin_running hrun with ⟨-, -, hpoint⟩ | ⟨-, hold⟩
  · cases call <;> cases hpoint
  · exact (h ch hmem hport).2 core' sender (pastCheck_push hold)

theorem Effect.push_sender (h : Effect s point (.inl (.push ch sender data)) s')
    (hr : Ipc.restrictionOf s.heap ch = some (true, p)) : sender = p := by
  cases hc : s.heap[ch]? with
  | none => simp [Ipc.restrictionOf, hc] at hr
  | some c =>
    have hres : c.restricted = true ∧ c.onlyFrom = p := by simpa [Ipc.restrictionOf, hc] using hr
    cases h with
    | unrestricted _ _ _ hopen =>
      have hfalse := hopen c hc
      rw [hres.1] at hfalse
      cases hfalse
    | admitted _ _ _ hfrom => rw [← hfrom c hc, hres.2]

theorem Guarded.settle (h : Guarded port p w) (hs : Sound w)
    (hrun : w.running core = some (call, point)) (hkeeps : Keeps port p w (.run core cpu)) :
    Guarded port p (w.settle core call (advance cpu point w.shared)) := by
  have heff := advance_effect hs.uniform cpu point
  have hk := hs.knows core call point hrun
  rw [Keeps, hrun] at hkeeps
  intro ch hmem hport
  rw [settle_shared] at hmem hport ⊢
  rcases heff.of_mem_listed hmem with hold | ⟨pid, port', onlyFrom, hpoint, rfl, hheap, hfree⟩
  · -- the channel was the port's before, and its guard stands
    have hport' : portOf w.shared.heap ch = some port := by
      obtain ⟨port', hport'⟩ := exists_portOf (hs.listed ch hold)
      have hlater : portOf (advance cpu point w.shared).2.heap ch = some port' :=
        heff.portOf hport'
      have hsame : some port' = some port := hlater.symm.trans hport
      rw [hport', hsame]
    obtain ⟨hres, hpush⟩ := h ch hold hport'
    refine ⟨heff.restrictionOf hres (hs.listed ch hold) ?_, ?_⟩
    · intro q hpoint
      subst hpoint
      obtain ⟨port', hcall, hown⟩ := hk
      rw [hport'] at hown
      subst hcall
      exact hkeeps (some.inj hown).symm
    · intro core' sender hsender
      obtain ⟨call', data, hrun'⟩ := pastCheck_eq_some hsender
      rcases settle_running hrun' with ⟨-, -, hnext⟩ | ⟨-, hold'⟩
      · rw [hnext] at heff
        exact heff.push_sender hres
      · exact hpush core' sender (pastCheck_push hold')
  · -- the port is not claimed anew
    have hown : portOf (advance cpu point w.shared).2.heap w.shared.heap.length = some port' := by
      rw [hheap]
      exact portOf_append_self _
    have hsame : port' = port := some.inj (hown.symm.trans hport)
    subst hsame
    subst hpoint
    have hclaimed : ∃ ch ∈ w.shared.listed, portOf w.shared.heap ch = some port' := by
      rcases hk with rfl | ⟨q, rfl⟩ <;> exact hkeeps rfl
    obtain ⟨ch, hch, hclaimed⟩ := hclaimed
    exact absurd hclaimed (hfree ch hch)

omit [DecidableEq Core] in
theorem Knows.of_setOnlyFrom {log : List (CallEvent ipc Core)}
    (h : Knows s log (.setOnlyFrom port p) point) :
    point = .findRestricted port p ∨ (∃ ch, point = .storeOnlyFrom ch p) ∨
      ∃ ch, point = .storeRestricted ch := by cases point <;> simp_all [Knows]

theorem guarded_of_settled (hs : Sound w)
    (hcall : w.running core = some (.setOnlyFrom port p, point))
    (hsettled : Settled w (.run core cpu)) (hmove : w.move (.run core cpu) = some w₁)
    (hret : w₁.running core = none) : Guarded port p w₁ := by
  have hk := hs.knows core _ point hcall
  have hw₁ : w₁ = w.settle core (.setOnlyFrom port p) (advance cpu point w.shared) := by
    rw [World.move, hcall] at hmove
    exact (some.inj hmove).symm
  subst hw₁
  rcases Knows.of_setOnlyFrom hk with rfl | ⟨stored, rfl⟩ | ⟨stored, rfl⟩
  · -- the port was not on the table
    have hnone : byPort w.shared cpu port = none := by
      cases hfind : byPort w.shared cpu port with
      | none => rfl
      | some ch => simp [advance, hfind, World.settle] at hret
    intro ch hmem hport
    rw [settle_shared] at hmem hport
    simp only [advance, hnone] at hmem hport
    exact absurd hport (byPort_none hs.uniform hnone ch hmem)
  · simp [advance, World.settle] at hret
  · intro ch hmem hport
    have hport' : portOf w.shared.heap ch = some port := by
      rw [← hport]
      exact (portOf_modify _ (by intro; rfl)).symm
    have hstore : (port, p, stored) ∈ lastStore (w.running core) := by
      rw [hcall]
      rfl
    obtain ⟨hstored, hpush⟩ := hsettled _ hstore ch hmem hport'
    refine ⟨restrictionOf_eq hport ?_, ?_⟩
    · intro c hc
      have hlt := lt_of_portOf hport'
      have hold := hstored w.shared.heap[ch] (getElem?_eq_getElem hlt)
      have hc' : (w.shared.heap.modify stored fun c => { c with restricted := true })[ch]? =
          some c := hc
      rw [getElem?_modify, getElem?_eq_getElem hlt] at hc'
      by_cases heq : stored = ch
      · simp only [heq, if_true, Option.map_eq_map, map_some, some.injEq] at hc'
        subst hc'
        exact ⟨rfl, hold.2⟩
      · simp only [heq, if_false, Option.map_eq_map, map_some, some.injEq] at hc'
        subst hc'
        exact ⟨hold.1.resolve_left (Ne.symm heq), hold.2⟩
    · intro core' sender hsender
      obtain ⟨call, data, hrun'⟩ := pastCheck_eq_some hsender
      rcases settle_running hrun' with ⟨-, -, hnext⟩ | ⟨-, hold⟩
      · cases hnext
      · exact hpush core' sender (pastCheck_push hold)

theorem Guarded.reach (hs : Sound w₁) (h : Guarded port p w₁)
    (hreach : Reach (Keeps port p) w₁ w₂) : Sound w₂ ∧ Guarded port p w₂ := by
  apply hreach.invariant ⟨hs, h⟩
  · intro w core call _ _ hinv
    exact ⟨hinv.1.begin core call, hinv.2.begin core call⟩
  · intro w core cpu call point hkeeps hrun hinv
    exact ⟨hinv.1.settle hrun, hinv.2.settle hinv.1 hrun hkeeps⟩

theorem Effect.push_of_queue (h : Effect s point next s')
    (hq : queueOf s'.heap ch = queueOf s.heap ch ++ [(sender, data)]) :
    point = .push ch sender data := by
  have hgrown : (queueOf s'.heap ch).length = (queueOf s.heap ch).length + 1 := by
    rw [hq, length_append, length_singleton]
  have hsame (heq : queueOf s'.heap ch = queueOf s.heap ch) : point = .push ch sender data := by
    rw [heq] at hgrown
    omega
  cases h with
  | claimed _ _ _ _ _ hheap | taken _ _ _ _ hheap =>
    exact hsame (by rw [hheap, queueOf_append _ rfl])
  | removed _ hheap _ => exact hsame (by rw [hheap])
  | storedOnlyFrom _ _ _ hheap | storedRestricted _ _ hheap =>
    exact hsame (by rw [hheap, queueOf_modify _ (by intro; rfl)])
  | pushed ch' sender' data' _ _ hheap =>
    by_cases heq : ch = ch'
    · subst heq
      by_cases hlt : ch < s.heap.length
      · rw [hheap, queueOf_modify_self _ hlt] at hq
        simp only [queueOf, getElem?_eq_getElem hlt, map_some, getD_some,
          append_cancel_left_eq, List.cons.injEq, Prod.mk.injEq, and_true] at hq
        rw [hq.1, hq.2]
      · simp [hheap, queueOf, getElem?_eq_none (not_lt.mp hlt)] at hgrown
    · exact hsame (by rw [hheap, queueOf_modify_of_ne _ heq])
  | popped ch' m rest hhead _ hheap =>
    by_cases heq : ch = ch'
    · subst heq
      by_cases hlt : ch < s.heap.length
      · rw [hheap, queueOf_modify_self _ hlt, length_tail] at hgrown
        simp [queueOf, hlt] at hgrown
      · simp [queueOf, getElem?_eq_none (not_lt.mp hlt)] at hhead
    · exact hsame (by rw [hheap, queueOf_modify_of_ne _ heq])
  | _ => exact hsame rfl

theorem Guarded.enqueues (hs : Sound w) (h : Guarded port p w) (hmove : w.move m = some w₁)
    (henq : Enqueues w w₁ sender port) : sender = p := by
  obtain ⟨ch, hmem, hport, data, hq⟩ := henq
  rcases move_cases hmove with
    ⟨core', call, rfl, -, rfl⟩ | ⟨core', cpu, call, point, rfl, hrun, rfl⟩
  · have hlen := congrArg List.length hq
    simp [World.begin] at hlen
  rw [settle_shared] at hq
  have hpoint := (advance_effect hs.uniform cpu point).push_of_queue hq
  subst hpoint
  exact (h ch hmem hport).2 core' sender (pastCheck_push hrun)

/-- Once a `setOnlyFrom` has returned whose last section was settled, only messages
of its sender are queued on the port until it gets another restriction. -/
theorem restricted_port_takes_only {m : Move ipc Core} {core : Core} {cpu : Fin shards}
    {sender : UInt64} (hw : Reachable (initial empty) w)
    (hcall : w.running core = some (.setOnlyFrom port p, point))
    (hsettled : Settled w (.run core cpu)) (hmove : w.move (.run core cpu) = some w₁)
    (hret : w₁.running core = none) (hlater : Reach (Keeps port p) w₁ w₂)
    (hmove' : w₂.move m = some w₃) (henq : Enqueues w₂ w₃ sender port) : sender = p := by
  have hs := Reach.sound hw
  have hs₁ := Reach.sound (Reach.step _ hw trivial hmove)
  obtain ⟨hs₂, hguarded⟩ := (guarded_of_settled hs hcall hsettled hmove hret).reach hs₁ hlater
  exact hguarded.enqueues hs₂ hmove' henq

/-- Process 1 claims port 5 and restricts it to process 7, which then sends. -/
theorem restricted_port_takes_seven :
    ∃ w w₁ w₂ w₃ : World ipc (Fin 2), Reachable (initial empty) w ∧
      w.running 0 = some (.setOnlyFrom 5 7, .storeRestricted 0) ∧ Settled w (.run 0 0) ∧
      w.move (.run 0 0) = some w₁ ∧ w₁.running 0 = none ∧ Reach (Keeps 5 7) w₁ w₂ ∧
      w₂.move (.run 1 3) = some w₃ ∧ ∃ sender, Enqueues w₂ w₃ sender 5 ∧ sender = 7 := by
  have hplay : ((initial empty : World ipc (Fin 2)).play
      [.call 0 (.register 1 5), .run 0 0, .call 0 (.setOnlyFrom 5 7), .run 0 0, .run 0 0]).any
      (fun w => w.running 0 = some (.setOnlyFrom 5 7, .storeRestricted 0) ∧
        (∀ ch ∈ w.shared.listed, (∀ c ∈ w.shared.heap[ch]?, ch = 0 ∧ c.onlyFrom = 7) ∧
          ∀ core, pastCheck ch (w.running core) = none) ∧
        (w.move (.run 0 0)).any fun w₁ => w₁.running 0 = none ∧
          (w₁.playIf (Keeps 5 7)
            [.call 1 (.send 7 5 [1]), .run 1 3, .run 1 3, .run 1 3]).any fun w₂ =>
              (w₂.move (.run 1 3)).any fun w₃ => 0 ∈ w₂.shared.listed ∧
                portOf w₂.shared.heap 0 = some 5 ∧
                queueOf w₃.shared.heap 0 = queueOf w₂.shared.heap 0 ++ [(7, [1])]) = true := by
    decide +kernel
  obtain ⟨w, hw, htest⟩ := exists_of_play hplay
  obtain ⟨hrun, hchannel, hrest⟩ := of_decide_eq_true htest
  obtain ⟨w₁, hmove, htest₁⟩ := (Option.any_eq_true ..).mp hrest
  obtain ⟨hret, hrest₁⟩ := of_decide_eq_true htest₁
  obtain ⟨w₂, hlater, htest₂⟩ := (Option.any_eq_true ..).mp hrest₁
  obtain ⟨w₃, hmove', htest₃⟩ := (Option.any_eq_true ..).mp htest₂
  obtain ⟨hmem, hport, hq⟩ := of_decide_eq_true htest₃
  have hsettled : Settled w (.run 0 0) := by
    intro store hstore ch hch _
    rw [hrun] at hstore
    cases hstore
    refine ⟨fun c hc => ⟨.inl ((hchannel ch hch).1 c hc).1, ((hchannel ch hch).1 c hc).2⟩, ?_⟩
    intro core sender hsender
    rw [(hchannel ch hch).2 core] at hsender
    cases hsender
  have henq : Enqueues w₂ w₃ 7 5 := ⟨0, hmem, hport, [1], hq⟩
  have hreach := reach_of_playIf hlater
  exact ⟨w, w₁, w₂, w₃, hw, hrun, hsettled, hmove, hret, hreach, hmove', 7, henq,
    restricted_port_takes_only hw hrun hsettled hmove hret hreach hmove' henq⟩

/-- Process 9 passes the check, the port is restricted to process 7, and then the
message of process 9 is queued. -/
theorem late_message_enqueued :
    ∃ w w₁ w₂ : World ipc (Fin 2), Reachable (initial empty) w ∧
      w.running 0 = some (.setOnlyFrom 5 7, .storeRestricted 0) ∧
      w.move (.run 0 0) = some w₁ ∧ w₁.running 0 = none ∧
      w₁.move (.run 1 0) = some w₂ ∧ Enqueues w₁ w₂ 9 5 := by
  have hplay : ((initial empty : World ipc (Fin 2)).play
      [.call 0 (.register 1 5), .run 0 0, .call 1 (.send 9 5 [1]), .run 1 0, .run 1 0,
        .call 0 (.setOnlyFrom 5 7), .run 0 0, .run 0 0]).any
      (fun w => w.running 0 = some (.setOnlyFrom 5 7, .storeRestricted 0) ∧
        (w.move (.run 0 0)).any fun w₁ => w₁.running 0 = none ∧
          (w₁.move (.run 1 0)).any fun w₂ => 0 ∈ w₁.shared.listed ∧
            portOf w₁.shared.heap 0 = some 5 ∧
            queueOf w₂.shared.heap 0 = queueOf w₁.shared.heap 0 ++ [(9, [1])]) = true := by
    decide +kernel
  obtain ⟨w, hw, htest⟩ := exists_of_play hplay
  obtain ⟨hrun, hrest⟩ := of_decide_eq_true htest
  obtain ⟨w₁, hmove, htest₁⟩ := (Option.any_eq_true ..).mp hrest
  obtain ⟨hret, hrest₁⟩ := of_decide_eq_true htest₁
  obtain ⟨w₂, hmove', htest₂⟩ := (Option.any_eq_true ..).mp hrest₁
  obtain ⟨hmem, hport, hq⟩ := of_decide_eq_true htest₂
  exact ⟨w, w₁, w₂, hw, hrun, hmove, hret, hmove', 0, hmem, hport, [1], hq⟩

end Restriction

end Ipc

end EuroOS
