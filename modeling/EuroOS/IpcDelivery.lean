import EuroOS.Ipc

/-!
# Delivery of messages under interleaving

Each channel keeps a ledger: the messages accepted on it are those handed out so
far followed by those still queued.  The ledger, the table's form and what a call
in progress knows about its channel are kept by every section of every call.
-/

namespace EuroOS

open List

namespace Ipc

open World

def portOf (heap : List Channel) (channel : Nat) : Option UInt32 :=
  heap[channel]?.map Channel.port

def ownerOf (heap : List Channel) (channel : Nat) : Option UInt64 :=
  heap[channel]?.map Channel.owner

def queueOf (heap : List Channel) (channel : Nat) : List (UInt64 × Bytes) :=
  (heap[channel]?.map Channel.queue).getD []

section Heap

variable {heap : List Channel} {channel channel' : Nat} {port : UInt32}

theorem hasPort_iff : hasPort heap port channel = true ↔ portOf heap channel = some port := by
  unfold hasPort portOf
  cases heap[channel]? <;> simp

theorem hasOwner_iff : hasOwner heap pid channel = true ↔ ownerOf heap channel = some pid := by
  unfold hasOwner ownerOf
  cases heap[channel]? <;> simp

theorem lt_of_portOf (h : portOf heap channel = some port) : channel < heap.length := by
  unfold portOf at h
  by_contra hge
  rw [getElem?_eq_none (by omega)] at h
  cases h

theorem exists_portOf (h : channel < heap.length) : ∃ port, portOf heap channel = some port :=
  ⟨heap[channel].port, by simp [portOf, h]⟩

theorem portOf_append (c : Channel) (h : channel < heap.length) :
    portOf (heap ++ [c]) channel = portOf heap channel := by simp [portOf, getElem?_append_left h]

theorem portOf_append_self (c : Channel) : portOf (heap ++ [c]) heap.length = some c.port := by
  simp [portOf]

theorem ownerOf_append (c : Channel) (h : ownerOf heap channel = some pid) :
    ownerOf (heap ++ [c]) channel = some pid := by
  unfold ownerOf at h ⊢
  have hlt : channel < heap.length := by
    by_contra hge
    rw [getElem?_eq_none (by omega)] at h
    cases h
  rw [getElem?_append_left hlt, h]

theorem getElem?_modify_map {β : Type} (g : Channel → β) (f : Channel → Channel)
    (hf : ∀ c, g (f c) = g c) :
    (heap.modify channel' f)[channel]?.map g = heap[channel]?.map g := by
  rw [getElem?_modify]
  by_cases h : channel' = channel <;> cases heap[channel]? <;> simp [h, hf]

variable (f : Channel → Channel)

theorem portOf_modify (hf : ∀ c, (f c).port = c.port) :
    portOf (heap.modify channel' f) channel = portOf heap channel :=
  getElem?_modify_map Channel.port f hf

theorem ownerOf_modify (hf : ∀ c, (f c).owner = c.owner) :
    ownerOf (heap.modify channel' f) channel = ownerOf heap channel :=
  getElem?_modify_map Channel.owner f hf

theorem queueOf_modify (hf : ∀ c, (f c).queue = c.queue) :
    queueOf (heap.modify channel' f) channel = queueOf heap channel :=
  congrArg (Option.getD · []) (getElem?_modify_map Channel.queue f hf)

theorem queueOf_modify_of_ne (hne : channel ≠ channel') :
    queueOf (heap.modify channel' f) channel = queueOf heap channel := by
  unfold queueOf
  rw [getElem?_modify]
  simp [Ne.symm hne]

theorem queueOf_modify_self (h : channel < heap.length) :
    queueOf (heap.modify channel f) channel = (f heap[channel]).queue := by simp [queueOf, h]

theorem queueOf_append (c : Channel) (hc : c.queue = []) :
    queueOf (heap ++ [c]) channel = queueOf heap channel := by
  unfold queueOf
  rcases Nat.lt_trichotomy channel heap.length with hlt | heq | hgt
  · rw [getElem?_append_left hlt]
  · subst heq
    simp [hc]
  · rw [getElem?_eq_none (by simp; omega), getElem?_eq_none (by omega)]

end Heap

/-! ## What a section does -/

abbrev State.listed (s : State) : List Nat := s.table.value

def Result.Plain : Result → Prop
  | .sent _ _ | .message _ _ _ => False
  | _ => True

inductive Effect (s : State) : Point → Point ⊕ Result → State → Prop
  | claimed {s' : State} (pid : UInt64) (port : UInt32) (onlyFrom : Option UInt64)
      (hfree : ∀ ch ∈ s.listed, portOf s.heap ch ≠ some port)
      (hlisted : s'.listed = s.listed ++ [s.heap.length])
      (hheap : s'.heap = s.heap ++ [newChannel pid port onlyFrom]) :
      Effect s (.claim pid port onlyFrom) (.inr (.claimed true)) s'
  | taken {s' : State} (pid : UInt64) (port : UInt32) (onlyFrom : Option UInt64)
      (hlisted : s'.listed = s.listed)
      (hheap : s'.heap = s.heap ++ [newChannel pid port onlyFrom]) :
      Effect s (.claim pid port onlyFrom) (.inr (.claimed false)) s'
  | removed {s' : State} (port : UInt32) (hheap : s'.heap = s.heap)
      (hlisted : s'.listed = s.listed.eraseP (hasPort s.heap port)) :
      Effect s (.remove port) (.inr .done) s'
  | answered {point : Point} (r : Result) (hr : r.Plain) : Effect s point (.inr r) s
  | foundRestricted {port : UInt32} {ch : Nat} (onlyFrom : UInt64) (hmem : ch ∈ s.listed)
      (hport : portOf s.heap ch = some port) :
      Effect s (.findRestricted port onlyFrom) (.inl (.storeOnlyFrom ch onlyFrom)) s
  | storedOnlyFrom {s' : State} (ch : Nat) (onlyFrom : UInt64) (hlisted : s'.listed = s.listed)
      (hheap : s'.heap = s.heap.modify ch fun c => { c with onlyFrom := onlyFrom }) :
      Effect s (.storeOnlyFrom ch onlyFrom) (.inl (.storeRestricted ch)) s'
  | storedRestricted {s' : State} (ch : Nat) (hlisted : s'.listed = s.listed)
      (hheap : s'.heap = s.heap.modify ch fun c => { c with restricted := true }) :
      Effect s (.storeRestricted ch) (.inr .done) s'
  | foundPort {port : UInt32} {ch : Nat} (sender : UInt64) (data : Bytes) (hmem : ch ∈ s.listed)
      (hport : portOf s.heap ch = some port) :
      Effect s (.findPort sender port data) (.inl (.loadRestricted ch sender data)) s
  | isRestricted (ch : Nat) (sender : UInt64) (data : Bytes) :
      Effect s (.loadRestricted ch sender data) (.inl (.loadOnlyFrom ch sender data)) s
  | unrestricted (ch : Nat) (sender : UInt64) (data : Bytes)
      (hopen : ∀ c, s.heap[ch]? = some c → c.restricted = false) :
      Effect s (.loadRestricted ch sender data) (.inl (.push ch sender data)) s
  | admitted (ch : Nat) (sender : UInt64) (data : Bytes)
      (hfrom : ∀ c, s.heap[ch]? = some c → c.onlyFrom = sender) :
      Effect s (.loadOnlyFrom ch sender data) (.inl (.push ch sender data)) s
  | pushed {s' : State} (ch : Nat) (sender : UInt64) (data : Bytes)
      (hroom : (queueOf s.heap ch).length < maxQueue) (hlisted : s'.listed = s.listed)
      (hheap : s'.heap = s.heap.modify ch fun c =>
        { c with queue := c.queue ++ [(sender, data)] }) :
      Effect s (.push ch sender data) (.inr (.sent ch data.length)) s'
  | foundTaken {port : UInt32} {ch : Nat} (hport : portOf s.heap ch = some port) :
      Effect s (.findTaken port) (.inl (.pop ch)) s
  | foundOwned {pid : UInt64} {ch : Nat} (howner : ownerOf s.heap ch = some pid) :
      Effect s (.findOwned pid) (.inl (.pop ch)) s
  | popped {s' : State} (ch : Nat) (m : UInt64 × Bytes) (rest : List (UInt64 × Bytes))
      (hhead : queueOf s.heap ch = m :: rest) (hlisted : s'.listed = s.listed)
      (hheap : s'.heap = s.heap.modify ch fun c => { c with queue := c.queue.tail }) :
      Effect s (.pop ch) (.inr (.message ch m.1 m.2)) s'
  | foundQueued {port : UInt32} {ch : Nat} (hport : portOf s.heap ch = some port) :
      Effect s (.findQueued port) (.inl (.count ch)) s

section Lookup

variable {cpu : Fin shards} {ch : Nat}

theorem byPort_some (hu : s.table.Uniform) (h : byPort s cpu port = some ch) :
    ch ∈ s.listed ∧ portOf s.heap ch = some port := by
  unfold byPort at h
  rw [hu.read cpu] at h
  exact ⟨mem_of_find?_eq_some h, hasPort_iff.mp (find?_some h)⟩

theorem byPort_none (hu : s.table.Uniform) (h : byPort s cpu port = none) :
    ∀ ch ∈ s.listed, portOf s.heap ch ≠ some port := by
  intro ch hmem hport
  unfold byPort at h
  rw [hu.read cpu] at h
  exact find?_eq_none.mp h ch hmem (hasPort_iff.mpr hport)

theorem byOwner_some (h : byOwner s cpu pid = some ch) : ownerOf s.heap ch = some pid :=
  hasOwner_iff.mp (find?_some h)

end Lookup

theorem advance_effect (hu : s.table.Uniform) (cpu : Fin shards) (point : Point) :
    Effect s point (advance cpu point s).1 (advance cpu point s).2 := by
  cases point with
  | claim pid port onlyFrom =>
    by_cases hany : s.listed.any (hasPort s.heap port) = true
    · have hr : (s.table.write (claimIn s.heap port s.heap.length)).1 = false := by
        rw [hu.write_result, claimIn, if_pos hany]
      have hv : (s.table.write (claimIn s.heap port s.heap.length)).2.value = s.listed := by
        rw [ReadMostly.value_write, claimIn, if_pos hany]
      simp only [advance, hr]
      exact .taken pid port onlyFrom hv rfl
    · have hr : (s.table.write (claimIn s.heap port s.heap.length)).1 = true := by
        rw [hu.write_result, claimIn, if_neg hany]
      have hv : (s.table.write (claimIn s.heap port s.heap.length)).2.value =
          s.listed ++ [s.heap.length] := by rw [ReadMostly.value_write, claimIn, if_neg hany]
      have hfree : ∀ ch ∈ s.listed, portOf s.heap ch ≠ some port := by
        intro ch hmem hport
        exact hany (any_eq_true.mpr ⟨ch, hmem, hasPort_iff.mpr hport⟩)
      simp only [advance, hr]
      exact .claimed pid port onlyFrom hfree hv rfl
  | findRestricted port onlyFrom =>
    simp only [advance]
    cases hfind : byPort s cpu port with
    | none => exact .answered _ trivial
    | some ch => exact .foundRestricted onlyFrom (byPort_some hu hfind).1 (byPort_some hu hfind).2
  | storeOnlyFrom ch onlyFrom => exact .storedOnlyFrom ch onlyFrom rfl rfl
  | storeRestricted ch => exact .storedRestricted ch rfl rfl
  | remove port => exact .removed port rfl rfl
  | findPort sender port data =>
    simp only [advance]
    cases hfind : byPort s cpu port with
    | none => exact .answered _ trivial
    | some ch => exact .foundPort sender data (byPort_some hu hfind).1 (byPort_some hu hfind).2
  | loadRestricted ch sender data =>
    simp only [advance]
    split
    · exact .isRestricted ch sender data
    rename_i hopen
    apply Effect.unrestricted
    intro c hc
    simpa [hc] using hopen
  | loadOnlyFrom ch sender data =>
    simp only [advance]
    split
    · exact .answered _ trivial
    rename_i hfrom
    apply Effect.admitted
    intro c hc
    simpa [hc] using hfrom
  | push ch sender data =>
    simp only [advance]
    split
    · exact .answered _ trivial
    rename_i hroom
    have hlen : (queueOf s.heap ch).length < maxQueue := by
      cases hc : s.heap[ch]? with
      | none => simp [queueOf, hc]
      | some c => simpa [queueOf, hc] using hroom
    exact .pushed ch sender data hlen rfl rfl
  | findTaken port =>
    simp only [advance]
    cases hfind : byPort s cpu port with
    | none => exact .answered _ trivial
    | some ch => exact .foundTaken (byPort_some hu hfind).2
  | findOwned pid =>
    simp only [advance]
    cases hfind : byOwner s cpu pid with
    | none => exact .answered _ trivial
    | some ch => exact .foundOwned (byOwner_some hfind)
  | pop ch =>
    simp only [advance]
    cases hc : s.heap[ch]? with
    | none => exact .answered _ trivial
    | some c =>
      cases hq : c.queue with
      | nil =>
        simp only [Option.bind_some, hq, head?_nil]
        exact .answered _ trivial
      | cons m rest =>
        simp only [Option.bind_some, hq, head?_cons]
        have hhead : queueOf s.heap ch = m :: rest := by simp [queueOf, hc, hq]
        exact .popped ch m rest hhead rfl rfl
  | findQueued port =>
    simp only [advance]
    cases hfind : byPort s cpu port with
    | none => exact .answered _ trivial
    | some ch => exact .foundQueued (byPort_some hu hfind).2
  | count ch => exact .answered _ trivial

namespace Effect

variable {s' : State} {point : Point} {next : Point ⊕ Result} {ch : Nat} {port : UInt32}

variable (h : Effect s point next s')
include h

theorem heap_cases :
    (∃ c, c.queue = [] ∧ s'.heap = s.heap ++ [c]) ∨
      ∃ ch f, s'.heap = s.heap.modify ch f ∧ (∀ c, (f c).port = c.port ∧ (f c).owner = c.owner) ∧
        ∀ c, s.heap[ch]? = some c → c.queue.length ≤ maxQueue → (f c).queue.length ≤ maxQueue := by
  cases h with
  | claimed _ _ _ _ _ hheap | taken _ _ _ _ hheap => exact .inl ⟨_, rfl, hheap⟩
  | removed _ hheap _ =>
    exact .inr ⟨0, id, by rw [hheap, modify_id], by simp, fun _ _ hle => hle⟩
  | storedOnlyFrom _ _ _ hheap | storedRestricted _ _ hheap =>
    exact .inr ⟨_, _, hheap, fun _ => ⟨rfl, rfl⟩, fun _ _ hle => hle⟩
  | pushed _ _ _ hroom _ hheap =>
    refine .inr ⟨_, _, hheap, fun _ => ⟨rfl, rfl⟩, fun c hc _ => ?_⟩
    simp only [queueOf, hc, Option.map_some, Option.getD_some] at hroom
    simpa using hroom
  | popped _ _ _ _ _ hheap =>
    refine .inr ⟨_, _, hheap, fun _ => ⟨rfl, rfl⟩, fun c _ hle => ?_⟩
    exact (length_tail ▸ Nat.sub_le ..).trans hle
  | _ => exact .inr ⟨0, id, by rw [modify_id], by simp, fun _ _ hle => hle⟩

theorem listed_cases :
    s'.listed = s.listed ∨
      (∃ port, point = .remove port ∧ s'.listed = s.listed.eraseP (hasPort s.heap port)) ∨
      ∃ pid port onlyFrom, point = .claim pid port onlyFrom ∧
        s'.listed = s.listed ++ [s.heap.length] ∧
        s'.heap = s.heap ++ [newChannel pid port onlyFrom] ∧
        ∀ ch ∈ s.listed, Ipc.portOf s.heap ch ≠ some port := by
  cases h with
  | claimed pid port onlyFrom hfree hlisted hheap =>
    exact .inr (.inr ⟨pid, port, onlyFrom, rfl, hlisted, hheap, hfree⟩)
  | removed port _ hlisted => exact .inr (.inl ⟨port, rfl, hlisted⟩)
  | taken _ _ _ hlisted _ | storedOnlyFrom _ _ hlisted _ | storedRestricted _ hlisted _
  | pushed _ _ _ _ hlisted _ | popped _ _ _ _ hlisted _ => exact .inl hlisted
  | _ => exact .inl rfl

theorem of_mem_listed (hmem : ch ∈ s'.listed) :
    ch ∈ s.listed ∨ ∃ pid port onlyFrom, point = .claim pid port onlyFrom ∧
      ch = s.heap.length ∧ s'.heap = s.heap ++ [newChannel pid port onlyFrom] ∧
      ∀ ch ∈ s.listed, Ipc.portOf s.heap ch ≠ some port := by
  rcases h.listed_cases with hlisted | ⟨_, -, hlisted⟩ | ⟨pid, port, onlyFrom, rfl, hlisted, hrest⟩
  · exact .inl (hlisted ▸ hmem)
  · exact .inl (mem_of_mem_eraseP (hlisted ▸ hmem))
  · rw [hlisted, mem_append, mem_singleton] at hmem
    exact hmem.imp_right fun hnew => ⟨pid, port, onlyFrom, rfl, hnew, hrest⟩

theorem portOf (hport : portOf s.heap ch = some port) : Ipc.portOf s'.heap ch = some port := by
  rcases h.heap_cases with ⟨c, -, hheap⟩ | ⟨ch', f, hheap, hf, -⟩
  · rw [hheap, portOf_append _ (lt_of_portOf hport), hport]
  · rw [hheap, portOf_modify _ fun c => (hf c).1, hport]

theorem ownerOf (howner : ownerOf s.heap ch = some pid) : Ipc.ownerOf s'.heap ch = some pid := by
  rcases h.heap_cases with ⟨c, -, hheap⟩ | ⟨ch', f, hheap, hf, -⟩
  · rw [hheap, ownerOf_append _ howner]
  · rw [hheap, ownerOf_modify _ fun c => (hf c).2, howner]

theorem mem_listed (hmem : ch ∈ s.listed) (hport : Ipc.portOf s.heap ch = some port)
    (hpoint : point ≠ .remove port) : ch ∈ s'.listed := by
  rcases h.listed_cases with hlisted | ⟨port', rfl, hlisted⟩ | ⟨pid, port', onlyFrom, rfl, hlisted, -⟩
  · exact hlisted ▸ hmem
  · rw [hlisted]
    apply (mem_eraseP_of_neg _).mpr hmem
    intro hhas
    apply hpoint
    rw [hasPort_iff.mp hhas] at hport
    rw [Option.some.inj hport]
  · rw [hlisted]
    exact mem_append_left _ hmem

end Effect

theorem advance_uniform (hu : s.table.Uniform) (cpu : Fin shards) (point : Point) :
    (advance cpu point s).2.table.Uniform := by
  cases point with
  | claim | remove => exact hu.write _
  | storeOnlyFrom | storeRestricted | count => exact hu
  | _ => simp only [advance]; split <;> exact hu

/-! ## The record of a run -/

section Record

variable {Core : Type}

def acceptedOn (channel : Nat) : CallEvent ipc Core → Option (UInt64 × Bytes)
  | .ret _ (.send sender _ data) (.sent ch _) => if ch = channel then some (sender, data) else none
  | _ => none

def deliveredOn (channel : Nat) : CallEvent ipc Core → Option (UInt64 × Bytes)
  | .ret _ _ (.message ch sender data) => if ch = channel then some (sender, data) else none
  | _ => none

/-- The messages accepted on a channel, in the order of their enqueue sections. -/
def accepted (log : List (CallEvent ipc Core)) (channel : Nat) : List (UInt64 × Bytes) :=
  log.reverse.filterMap (acceptedOn channel)

def delivered (log : List (CallEvent ipc Core)) (channel : Nat) : List (UInt64 × Bytes) :=
  log.reverse.filterMap (deliveredOn channel)

theorem accepted_cons (e : CallEvent ipc Core) (log : List (CallEvent ipc Core)) (channel : Nat) :
    accepted (e :: log) channel = accepted log channel ++ (acceptedOn channel e).toList := by
  unfold accepted
  rw [reverse_cons, filterMap_append]
  cases h : acceptedOn channel e <;> simp [h]

theorem delivered_cons (e : CallEvent ipc Core) (log : List (CallEvent ipc Core)) (channel : Nat) :
    delivered (e :: log) channel = delivered log channel ++ (deliveredOn channel e).toList := by
  unfold delivered
  rw [reverse_cons, filterMap_append]
  cases h : deliveredOn channel e <;> simp [h]

def Unregistered (log : List (CallEvent ipc Core)) (port : UInt32) : Prop :=
  ∃ core r, .ret core (.unregister port) r ∈ log

/-- The channel belongs to the port, and is still on the table unless the port was
unregistered. -/
def Serves (s : State) (log : List (CallEvent ipc Core)) (port : UInt32) (ch : Nat) : Prop :=
  portOf s.heap ch = some port ∧ (¬ Unregistered log port → ch ∈ s.listed)

def Recorded (s : State) (log : List (CallEvent ipc Core)) : CallEvent ipc Core → Prop
  | .ret _ (.send _ port data) (.sent ch n) => Serves s log port ch ∧ n = data.length
  | .ret _ (.take port) (.message ch _ _) => portOf s.heap ch = some port
  | .ret _ (.recv pid) (.message ch _ _) => ownerOf s.heap ch = some pid
  | .ret _ _ r => r.Plain
  | .call _ _ => True

def Knows (s : State) (log : List (CallEvent ipc Core)) (call : Call) : Point → Prop
  | .claim pid port _ =>
    call = .register pid port ∨ ∃ onlyFrom, call = .registerRestricted pid port onlyFrom
  | .findRestricted port onlyFrom => call = .setOnlyFrom port onlyFrom
  | .storeOnlyFrom ch onlyFrom =>
    ∃ port, call = .setOnlyFrom port onlyFrom ∧ portOf s.heap ch = some port
  | .storeRestricted ch =>
    ∃ port onlyFrom, call = .setOnlyFrom port onlyFrom ∧ portOf s.heap ch = some port
  | .remove port => call = .unregister port
  | .findPort sender port data => call = .send sender port data
  | .loadRestricted ch sender data | .loadOnlyFrom ch sender data | .push ch sender data =>
    ∃ port, call = .send sender port data ∧ Serves s log port ch
  | .findTaken port => call = .take port
  | .findOwned pid => call = .recv pid
  | .pop ch =>
    (∃ port, call = .take port ∧ portOf s.heap ch = some port) ∨
      ∃ pid, call = .recv pid ∧ ownerOf s.heap ch = some pid
  | .findQueued port => call = .queued port
  | .count _ => ∃ port, call = .queued port

theorem knows_enter (s : State) (log : List (CallEvent ipc Core)) (call : Call) :
    Knows s log call (enter call) := by cases call <;> simp [enter, Knows]

/-! ## What one section keeps -/

variable {s' : State} {log : List (CallEvent ipc Core)} {point : Point} {next : Point ⊕ Result}
  {call : Call}

/-- A later moment of a run: channels keep their port and owner, and leave the
table only when their port is unregistered. -/
structure Later (s s' : State) (log log' : List (CallEvent ipc Core)) : Prop where
  port {ch : Nat} {port : UInt32} :
    portOf s.heap ch = some port → portOf s'.heap ch = some port
  owner {ch : Nat} {pid : UInt64} :
    ownerOf s.heap ch = some pid → ownerOf s'.heap ch = some pid
  serves {ch : Nat} {port : UInt32} : Serves s log port ch → Serves s' log' port ch

theorem Later.refl_of_subset (hlog : log ⊆ log') : Later s s log log' where
  port h := h
  owner h := h
  serves h := by
    refine ⟨h.1, fun hkept => h.2 fun hgone => hkept ?_⟩
    obtain ⟨core, r, hmem⟩ := hgone
    exact ⟨core, r, hlog hmem⟩

theorem Effect.later (h : Effect s point next s') (hlog : log ⊆ log')
    (hremove : ∀ port, point = .remove port → Unregistered log' port) : Later s s' log log' where
  port := h.portOf
  owner := h.ownerOf
  serves := by
    intro ch port hserves
    refine ⟨h.portOf hserves.1, fun hkept => ?_⟩
    have hmem : ch ∈ s.listed := by
      apply hserves.2
      intro hgone
      obtain ⟨core, r, hr⟩ := hgone
      exact hkept ⟨core, r, hlog hr⟩
    exact h.mem_listed hmem hserves.1 fun hpoint => hkept (hremove port hpoint)

theorem Knows.later (hl : Later s s' log log') (h : Knows s log call point) :
    Knows s' log' call point := by
  cases point with
  | storeOnlyFrom ch onlyFrom =>
    obtain ⟨port, hcall, hport⟩ := h
    exact ⟨port, hcall, hl.port hport⟩
  | storeRestricted ch =>
    obtain ⟨port, onlyFrom, hcall, hport⟩ := h
    exact ⟨port, onlyFrom, hcall, hl.port hport⟩
  | loadRestricted | loadOnlyFrom | push =>
    obtain ⟨port, hcall, hserves⟩ := h
    exact ⟨port, hcall, hl.serves hserves⟩
  | pop ch =>
    rcases h with ⟨port, hcall, hport⟩ | ⟨pid, hcall, howner⟩
    · exact .inl ⟨port, hcall, hl.port hport⟩
    · exact .inr ⟨pid, hcall, hl.owner howner⟩
  | _ => exact h

theorem Recorded.later (hl : Later s s' log log') (h : Recorded s log e) : Recorded s' log' e := by
  unfold Recorded at h ⊢
  split at h
  · exact ⟨hl.serves h.1, h.2⟩
  · exact hl.port h
  · exact hl.owner h
  · exact h
  · trivial

variable {r : Result}

theorem Recorded.of_plain (hr : r.Plain) (core : Core) : Recorded s log (.ret core call r) := by
  cases r with
  | sent ch n => exact hr.elim
  | message ch sender data => exact hr.elim
  | _ => cases call <;> trivial

theorem Effect.knows (h : Effect s point (.inl point') s') (hl : Later s s' log log')
    (hk : Knows s log call point) : Knows s' log' call point' := by
  cases h with
  | foundRestricted onlyFrom hmem hport => exact ⟨_, hk, hport⟩
  | storedOnlyFrom ch onlyFrom _ _ =>
    obtain ⟨port, hcall, hport⟩ := hk
    exact ⟨port, onlyFrom, hcall, hl.port hport⟩
  | foundPort sender data hmem hport => exact ⟨_, hk, hl.serves ⟨hport, fun _ => hmem⟩⟩
  | isRestricted | unrestricted | admitted => exact Knows.later hl hk
  | foundTaken hport => exact .inl ⟨_, hk, hport⟩
  | foundOwned howner => exact .inr ⟨_, hk, howner⟩
  | foundQueued _ => exact ⟨_, hk⟩

theorem Effect.recorded (h : Effect s point (.inr r) s') (hl : Later s s' log log')
    (hk : Knows s log call point) (core : Core) : Recorded s' log' (.ret core call r) := by
  cases h with
  | answered _ hr => exact .of_plain hr core
  | pushed ch sender data _ _ _ =>
    obtain ⟨port, hcall, hserves⟩ := hk
    subst hcall
    exact ⟨hl.serves hserves, rfl⟩
  | popped ch m rest _ _ _ =>
    rcases hk with ⟨port, rfl, hport⟩ | ⟨pid, rfl, howner⟩
    · exact hl.port hport
    · exact hl.owner howner
  | _ =>
    apply Recorded.of_plain
    trivial

/-! ## The ledger -/

theorem acceptedOn_of_plain (hr : r.Plain) (core : Core) (channel : Nat) :
    acceptedOn channel (.ret core call r : CallEvent ipc Core) = none := by
  cases r with
  | sent ch n => exact hr.elim
  | _ => cases call <;> rfl

theorem deliveredOn_of_plain (hr : r.Plain) (core : Core) (channel : Nat) :
    deliveredOn channel (.ret core call r : CallEvent ipc Core) = none := by
  cases r with
  | message ch sender data => exact hr.elim
  | _ => rfl

theorem Effect.queueOf_inl (h : Effect s point (.inl point') s') (ch : Nat) :
    queueOf s'.heap ch = queueOf s.heap ch := by
  cases h with
  | storedOnlyFrom _ _ _ hheap => rw [hheap, queueOf_modify _ (by intro; rfl)]
  | _ => rfl

theorem Effect.queueOf_inr (h : Effect s point (.inr r) s') (hk : Knows s log call point)
    (core : Core) (ch : Nat) :
    queueOf s.heap ch ++ (acceptedOn ch (.ret core call r : CallEvent ipc Core)).toList =
      (deliveredOn ch (.ret core call r : CallEvent ipc Core)).toList ++ queueOf s'.heap ch := by
  have hplain (hr : r.Plain) (hq : queueOf s'.heap ch = queueOf s.heap ch) :
      queueOf s.heap ch ++ (acceptedOn ch (.ret core call r : CallEvent ipc Core)).toList =
        (deliveredOn ch (.ret core call r : CallEvent ipc Core)).toList ++ queueOf s'.heap ch := by
    rw [acceptedOn_of_plain hr, deliveredOn_of_plain hr, hq]
    simp
  cases h with
  | claimed _ _ _ _ _ hheap | taken _ _ _ _ hheap =>
    exact hplain trivial (by rw [hheap, queueOf_append _ rfl])
  | removed _ hheap _ => exact hplain trivial (by rw [hheap])
  | answered _ hr => exact hplain hr rfl
  | storedRestricted _ _ hheap =>
    exact hplain trivial (by rw [hheap, queueOf_modify _ (by intro; rfl)])
  | pushed ch' sender data _ _ hheap =>
    obtain ⟨port, rfl, hserves⟩ := hk
    by_cases heq : ch' = ch
    · subst heq
      have hlt := lt_of_portOf hserves.1
      rw [hheap, queueOf_modify_self _ hlt]
      simp [acceptedOn, deliveredOn, queueOf, hlt]
    · rw [hheap, queueOf_modify_of_ne _ (Ne.symm heq)]
      simp [acceptedOn, deliveredOn, heq]
  | popped ch' m rest hhead _ hheap =>
    have hacc : acceptedOn ch (.ret core call (.message ch' m.1 m.2) : CallEvent ipc Core) =
        none := by cases call <;> rfl
    rw [hacc]
    by_cases heq : ch' = ch
    · subst heq
      have hlt : ch' < s.heap.length := by
        by_contra hge
        simp [queueOf, getElem?_eq_none (by omega : s.heap.length ≤ ch')] at hhead
      have hq : s.heap[ch'].queue = m :: rest := by simpa [queueOf, hlt] using hhead
      rw [hheap, queueOf_modify_self _ hlt, hhead]
      simp [deliveredOn, hq]
    · rw [hheap, queueOf_modify_of_ne _ (Ne.symm heq)]
      simp [deliveredOn, heq]

theorem Effect.queue_le (h : Effect s point next s') (hle : (queueOf s.heap ch).length ≤ maxQueue) :
    (queueOf s'.heap ch).length ≤ maxQueue := by
  rcases h.heap_cases with ⟨c, hc, hheap⟩ | ⟨ch', f, hheap, -, hf⟩
  · rwa [hheap, queueOf_append _ hc]
  rw [hheap]
  by_cases heq : ch = ch'
  · subst heq
    by_cases hlt : ch < s.heap.length
    · rw [queueOf_modify_self _ hlt]
      exact hf _ (getElem?_eq_getElem hlt) (by simpa [queueOf, hlt] using hle)
    · simp [queueOf, getElem?_eq_none (not_lt.mp hlt)]
  · rwa [queueOf_modify_of_ne _ heq]

theorem Effect.listed_lt (h : Effect s point next s')
    (hlt : ∀ ch ∈ s.listed, ch < s.heap.length) : ∀ ch ∈ s'.listed, ch < s'.heap.length := by
  intro ch hmem
  rcases h.of_mem_listed hmem with hold | ⟨pid, port, onlyFrom, -, rfl, hheap, -⟩
  · obtain ⟨port, hport⟩ := exists_portOf (hlt ch hold)
    exact lt_of_portOf (h.portOf hport)
  · rw [hheap, length_append, length_singleton]
    exact Nat.lt_succ_self _

theorem Effect.ports_nodup (h : Effect s point next s')
    (hlt : ∀ ch ∈ s.listed, ch < s.heap.length) (hn : (s.listed.map (Ipc.portOf s.heap)).Nodup) :
    (s'.listed.map (Ipc.portOf s'.heap)).Nodup := by
  -- no section changes the port of a channel that is there
  have hmap : ∀ l ⊆ s.listed, l.map (Ipc.portOf s'.heap) = l.map (Ipc.portOf s.heap) := by
    intro l hl
    apply map_congr_left
    intro ch hmem
    obtain ⟨port, hport⟩ := exists_portOf (hlt ch (hl hmem))
    rw [h.portOf hport, hport]
  rcases h.listed_cases with hlisted | ⟨port, -, hlisted⟩ |
    ⟨pid, port, onlyFrom, -, hlisted, hheap, hfree⟩
  · rw [hlisted, hmap _ (List.Subset.refl _)]
    exact hn
  · rw [hlisted, hmap _ (eraseP_subset)]
    exact hn.sublist (eraseP_sublist.map _)
  rw [hlisted, map_append, hmap _ (List.Subset.refl _), hheap]
  apply hn.append (nodup_singleton _)
  rw [portOf_append_self, disjoint_singleton]
  intro hmem
  obtain ⟨ch, hch, hport⟩ := mem_map.mp hmem
  exact hfree ch hch hport

end Record

/-! ## Whole runs -/

section Run

variable {Core : Type}

/-- The messages accepted on a channel are those handed out, in the same order,
followed by those still queued; answers are about the channel of their port or
owner, which is on the table unless its port was unregistered; queues are bounded,
ports have one owner, and the copies of the table are equal. -/
structure Delivers (w : World ipc Core) : Prop where
  ledger : ∀ ch, accepted w.log ch = delivered w.log ch ++ queueOf w.shared.heap ch
  recorded : ∀ e ∈ w.log, Recorded w.shared w.log e
  bounded : ∀ ch, (queueOf w.shared.heap ch).length ≤ maxQueue
  oneOwner : ∀ cpu, ((w.shared.table.read cpu).map (portOf w.shared.heap)).Nodup
  copies : w.shared.table.Uniform

structure Sound (w : World ipc Core) : Prop where
  uniform : w.shared.table.Uniform
  listed : ∀ ch ∈ w.shared.listed, ch < w.shared.heap.length
  ports : (w.shared.listed.map (portOf w.shared.heap)).Nodup
  bounded : ∀ ch, (queueOf w.shared.heap ch).length ≤ maxQueue
  ledger : ∀ ch, accepted w.log ch = delivered w.log ch ++ queueOf w.shared.heap ch
  recorded : ∀ e ∈ w.log, Recorded w.shared w.log e
  knows : ∀ core call point, w.running core = some (call, point) →
    Knows w.shared w.log call point

theorem Sound.delivers {w : World ipc Core} (h : Sound w) : Delivers w where
  __ := h
  oneOwner cpu := by
    rw [h.uniform.read cpu]
    exact h.ports
  copies := h.uniform

theorem Sound.initial : Sound (initial empty : World ipc Core) where
  uniform := ReadMostly.ofValue_uniform _
  listed ch hmem := by cases hmem
  ports := nodup_nil
  bounded ch := Nat.zero_le _
  ledger ch := rfl
  recorded e hmem := by cases hmem
  knows core call point hrun := by cases hrun

variable [DecidableEq Core] {w : World ipc Core}

theorem Sound.begin (h : Sound w) (core : Core) (call : Call) : Sound (w.begin core call) where
  __ := h
  ledger ch := by
    rw [World.begin, accepted_cons, delivered_cons]
    simpa [acceptedOn, deliveredOn] using h.ledger ch
  recorded e hmem := by
    rcases mem_cons.mp hmem with rfl | hold
    · trivial
    · exact (h.recorded e hold).later (Later.refl_of_subset (subset_cons_self _ _))
  knows core' call' point hrun := by
    rcases begin_running hrun with ⟨-, rfl, rfl⟩ | ⟨-, hold⟩
    · exact knows_enter _ _ call'
    · exact (h.knows core' call' point hold).later
        (Later.refl_of_subset (subset_cons_self _ _))

theorem Sound.settle (h : Sound w) (hrun : w.running core = some (call, point)) :
    Sound (w.settle core call (advance cpu point w.shared)) := by
  have huniform := advance_uniform h.uniform cpu point
  have heff := advance_effect h.uniform cpu point
  have hk := h.knows core call point hrun
  generalize advance cpu point w.shared = outcome at huniform heff
  obtain ⟨next, s'⟩ := outcome
  cases next with
  | inl point' =>
    have hl : Later w.shared s' w.log w.log := by
      apply heff.later (List.Subset.refl _)
      intro port hpoint
      subst hpoint
      cases heff
    refine ⟨huniform, heff.listed_lt h.listed, heff.ports_nodup h.listed h.ports,
      fun ch => heff.queue_le (h.bounded ch), fun ch => ?_,
      fun e hmem => (h.recorded e hmem).later hl, fun core' call' point'' hrun' => ?_⟩
    · change accepted w.log ch = delivered w.log ch ++ queueOf s'.heap ch
      rw [heff.queueOf_inl ch]
      exact h.ledger ch
    · rcases settle_running hrun' with ⟨-, rfl, hnext⟩ | ⟨-, hold⟩
      · cases hnext
        exact heff.knows hl hk
      · exact (h.knows core' call' point'' hold).later hl
  | inr r =>
    have hl : Later w.shared s' w.log (.ret core call r :: w.log) := by
      apply heff.later (subset_cons_self _ _)
      intro port hpoint
      subst hpoint
      have hcall : call = .unregister port := hk
      subst hcall
      exact ⟨core, r, mem_cons_self⟩
    refine ⟨huniform, heff.listed_lt h.listed, heff.ports_nodup h.listed h.ports,
      fun ch => heff.queue_le (h.bounded ch), fun ch => ?_, fun e hmem => ?_,
      fun core' call' point'' hrun' => ?_⟩
    · change accepted (.ret core call r :: w.log) ch =
        delivered (.ret core call r :: w.log) ch ++ queueOf s'.heap ch
      rw [accepted_cons, delivered_cons, h.ledger ch, append_assoc, append_assoc,
        heff.queueOf_inr hk core ch]
    · rcases mem_cons.mp hmem with rfl | hold
      · exact heff.recorded hl hk core
      · exact (h.recorded e hold).later hl
    · rcases settle_running hrun' with ⟨-, -, hnext⟩ | ⟨-, hold⟩
      · cases hnext
      · exact (h.knows core' call' point'' hold).later hl

theorem Reach.sound {allowed : World ipc Core → Move ipc Core → Prop}
    (h : Reach allowed (initial empty) w) : Sound w := by
  apply h.invariant Sound.initial
  · intro w core call _ _ hs
    exact hs.begin core call
  · intro w core cpu call point _ hrun hs
    exact hs.settle hrun

/-- However the sections of any calls on any cores are interleaved, messages are
delivered. -/
theorem reachable_delivers (h : Reachable (initial empty) w) : Delivers w :=
  (Reach.sound h).delivers

/-- Two cores: a port is claimed, two messages are sent to it and one is received. -/
theorem crossing_sends_delivered :
    ∃ w : World ipc (Fin 2), Reachable (initial empty) w ∧
      accepted w.log 0 = [(7, [2]), (9, [1])] ∧ delivered w.log 0 = [(7, [2])] ∧ Delivers w := by
  have hplay : ((initial empty : World ipc (Fin 2)).play
      [.call 0 (.register 4 5), .run 0 0, .call 0 (.send 9 5 [1]), .run 0 3,
        .call 1 (.send 7 5 [2]), .run 1 6, .run 1 6, .run 1 6, .run 0 3, .run 0 3,
        .call 1 (.recv 4), .run 1 6, .run 1 6]).any (fun w =>
          accepted w.log 0 = [(7, [2]), (9, [1])] ∧ delivered w.log 0 = [(7, [2])]) = true := by
    decide +kernel
  obtain ⟨w, hw, htest⟩ := exists_of_play hplay
  have hlogs := of_decide_eq_true htest
  exact ⟨w, hw, hlogs.1, hlogs.2, reachable_delivers hw⟩

end Run

end Ipc

end EuroOS
