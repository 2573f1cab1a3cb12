import EuroOS.UnixIds
import EuroOS.Switchboard

/-!
# Connections that nobody can accept

A connection is referred to by the queue of a listener until it is accepted.  No
connection is orphaned as long as listeners are not removed with open connections
in their queue and connection ids do not wrap.
-/

namespace EuroOS

open List UnixSocket

namespace Switchboard

structure Recorded where
  board : Switchboard
  accepted : List Endpoint

namespace Recorded

def initial : Recorded := ⟨.new, []⟩

def record (accepted : List Endpoint) : Result → List Endpoint
  | .accepted (some ep) => ep :: accepted
  | _ => accepted

def machine : CallMachine Recorded Request Result where
  step s req :=
    let next := Switchboard.machine.step s.board req
    (⟨next.1, record s.accepted next.2⟩, next.2)

end Recorded

def Accepted (accepted : List Endpoint) (i : Nat) : Prop := ∃ ep ∈ accepted, ep.conn.toNat = i

/-- The server side of the connection waits in the queue of the listener on the path. -/
def PendingOn (b : Switchboard) (i : Nat) (path : String) : Prop :=
  ∃ l, b.listeners path = some l ∧ ∃ ep ∈ l.pending, ep.side = .B ∧ ep.conn.toNat = i

structure NoOrphans (s : Recorded) : Prop where
  queued : ∀ i c, s.board.conns[i]? = some (some c) → c.bOpen = true → ¬ Accepted s.accepted i →
    ∃! path, s.board.PendingOn i path
  /-- A client that can no longer be accepted is at the end of the stream once it has read what
  there is. -/
  eof : ∀ ep : Endpoint, ep.side = .A → ¬ Accepted s.accepted ep.conn.toNat →
    (∀ path, ¬ s.board.PendingOn ep.conn.toNat path) →
    (s.board.recv ep (s.board.available ep)).1.atEof ep = true

/-- A listener is removed without open connections in its queue, and a new connection gets an id
of its own. -/
def MayCall (b : Switchboard) : Request → Prop
  | .unbind path => ∀ l, b.listeners path = some l → ∀ ep ∈ l.pending, ∀ c,
      b.connAt ep = some c → c.bOpen = false
  | .connect path => ∀ l, b.listeners path = some l → l.pending.length < l.backlog →
      b.conns.length < 2 ^ 32
  | _ => True

/-! ## The invariant -/

/-- Every connection with an open server side that was not accepted waits in one queue, and the
queues hold nothing else. -/
structure Queues (s : Recorded) : Prop where
  length : s.board.conns.length ≤ 2 ^ 32
  accepted : ∀ ep ∈ s.accepted, ep.conn.toNat < s.board.conns.length
  server : ∀ path l, s.board.listeners path = some l → ∀ ep ∈ l.pending, ep.side = .B
  waiting : ∀ path i, s.board.PendingOn i path →
    i < s.board.conns.length ∧ ¬ Accepted s.accepted i
  nodup : ∀ path l, s.board.listeners path = some l → (l.pending.map (·.conn)).Nodup
  once : ∀ path path' i, s.board.PendingOn i path → s.board.PendingOn i path' → path = path'
  queued : ∀ (i : Nat) (c : Conn), s.board.conns[i]? = some (some c) → c.bOpen = true →
    ¬ Accepted s.accepted i → ∃ path, s.board.PendingOn i path

theorem queues_initial : Queues .initial where
  length := by simp [Recorded.initial, new]
  accepted := by simp [Recorded.initial]
  server := by simp [Recorded.initial, new]
  waiting := by simp [PendingOn, Recorded.initial, new]
  nodup := by simp [Recorded.initial, new]
  once := by simp [PendingOn, Recorded.initial, new]
  queued := by simp [Recorded.initial, new]

variable {s : Recorded} {b : Switchboard}

/-! ## What the calls do -/

theorem connAt_eq_some : b.connAt ep = some c ↔ b.conns[ep.conn.toNat]? = some (some c) :=
  Option.join_eq_some_iff

structure OnlyCloses (b b' : Switchboard) : Prop where
  listeners : b'.listeners = b.listeners
  length : b'.conns.length = b.conns.length
  conns : ∀ (i : Nat) (c' : Conn), b'.conns[i]? = some (some c') →
    ∃ c, b.conns[i]? = some (some c) ∧ (c'.bOpen = true → c.bOpen = true)

theorem OnlyCloses.refl (b : Switchboard) : OnlyCloses b b :=
  ⟨rfl, rfl, fun _ c hc => ⟨c, hc, id⟩⟩

theorem onlyCloses_setConn (h : b.connAt ep = some c)
    (ho : ∀ c', o = some c' → c'.bOpen = true → c.bOpen = true) :
    OnlyCloses b (b.setConn ep o) where
  listeners := rfl
  length := by simp [setConn]
  conns := by
    intro i c' hc'
    by_cases hi : ep.conn.toNat = i
    · subst hi
      have hslot := connAt_eq_some.mp h
      have hlt := (List.getElem?_eq_some_iff.mp hslot).1
      simp only [setConn, getElem?_set_self hlt, Option.some.injEq] at hc'
      exact ⟨c, hslot, ho c' hc'⟩
    · simp only [setConn, getElem?_set_ne hi] at hc'
      exact ⟨c', hc', id⟩

theorem onlyCloses_access (b : Switchboard) (ep : Endpoint) (op : Access) :
    OnlyCloses b (b.access ep op).1 := by
  cases hconn : b.connAt ep with
  | none =>
    cases op <;>
      simp [access, send, recv, close, hconn, OnlyCloses.refl]
  | some c =>
    cases op with
    | send data =>
      simp only [access, send, hconn]
      split_ifs
      · refine onlyCloses_setConn hconn ?_
        rintro c' hc'
        cases hc'
        cases ep.side <;> exact id
      · exact .refl b
    | recv max =>
      simp only [access, recv, hconn]
      refine onlyCloses_setConn hconn ?_
      rintro c' hc'
      cases hc'
      cases ep.side <;> exact id
    | readable => exact .refl b
    | atEof => exact .refl b
    | available => exact .refl b
    | close =>
      simp only [access, close, hconn]
      refine onlyCloses_setConn hconn ?_
      intro c' hc' hopen
      split_ifs at hc'
      cases hc'
      cases hside : ep.side with
      | A => simpa [Conn.shut, hside] using hopen
      | B => simp [Conn.shut, hside] at hopen

theorem Queues.of_onlyCloses (h : Queues s) (hb : OnlyCloses s.board b') :
    Queues ⟨b', s.accepted⟩ where
  length := by simpa [hb.length] using h.length
  accepted := by simpa [hb.length] using h.accepted
  server := by simpa only [hb.listeners] using h.server
  waiting := by simpa only [PendingOn, hb.length, hb.listeners] using h.waiting
  nodup := by simpa only [hb.listeners] using h.nodup
  once := by simpa only [PendingOn, hb.listeners] using h.once
  queued := by
    intro i c' hc' hopen haccepted
    obtain ⟨c, hc, himp⟩ := hb.conns i c' hc'
    simpa only [PendingOn, hb.listeners] using h.queued i c hc (himp hopen) haccepted

theorem pendingOn_update (b : Switchboard) (path : String) (l : Option Listener)
    (conns : List (Option Conn)) (i : Nat) (path' : String) :
    PendingOn ⟨Function.update b.listeners path l, conns⟩ i path' ↔
      if path' = path then ∃ l', l = some l' ∧ ∃ ep ∈ l'.pending, ep.side = .B ∧ ep.conn.toNat = i
      else b.PendingOn i path' := by
  by_cases hpath : path' = path
  · subst hpath
    simp [PendingOn]
  · simp [PendingOn, hpath]

theorem Queues.bindListen (h : Queues s) (path : String) (backlog : Nat) :
    Queues ⟨(s.board.bindListen path backlog).1, s.accepted⟩ := by
  unfold Switchboard.bindListen
  cases hl : s.board.listeners path with
  | some l => exact h
  | none =>
    have hpending (i : Nat) (path' : String) :
        PendingOn ⟨Function.update s.board.listeners path (some ⟨max backlog 1, []⟩),
          s.board.conns⟩ i path' ↔ s.board.PendingOn i path' := by
      rw [pendingOn_update]
      by_cases hpath : path' = path
      · subst hpath
        simp [PendingOn, hl]
      · simp [hpath]
    refine ⟨h.length, h.accepted, ?_, by simpa only [hpending] using h.waiting, ?_, ?_, ?_⟩
    · intro path' l' hl' ep hep
      obtain ⟨-, hnew⟩ | ⟨-, hold⟩ := Book.update_eq_some hl'
      · simp [← Option.some.inj hnew] at hep
      · exact h.server path' l' hold ep hep
    · intro path' l' hl'
      obtain ⟨-, hnew⟩ | ⟨-, hold⟩ := Book.update_eq_some hl'
      · simp [← Option.some.inj hnew]
      · exact h.nodup path' l' hold
    · simpa only [hpending] using h.once
    · simpa only [hpending] using h.queued

theorem Queues.unbind (h : Queues s) (hmay : s.board.MayCall (.unbind path)) :
    Queues ⟨(s.board.unbind path).1, s.accepted⟩ := by
  have hpending (i : Nat) (path' : String) : (s.board.unbind path).1.PendingOn i path' ↔
      path' ≠ path ∧ s.board.PendingOn i path' := by
    simp only [Switchboard.unbind, pendingOn_update]
    by_cases hpath : path' = path <;> simp [hpath]
  refine ⟨h.length, h.accepted, ?_, ?_, ?_, ?_, ?_⟩
  · intro path' l hl ep hep
    exact h.server path' l (Book.update_none_eq_some hl).2 ep hep
  · exact fun path' i hp => h.waiting path' i ((hpending _ _).mp hp).2
  · intro path' l hl
    exact h.nodup path' l (Book.update_none_eq_some hl).2
  · intro path₁ path₂ i h₁ h₂
    exact h.once path₁ path₂ i ((hpending _ _).mp h₁).2 ((hpending _ _).mp h₂).2
  · intro i c hc hopen haccepted
    obtain ⟨path', hpath'⟩ := h.queued i c hc hopen haccepted
    refine ⟨path', (hpending _ _).mpr ⟨?_, hpath'⟩⟩
    -- the removed queue held closed connections only
    rintro rfl
    obtain ⟨l, hl, ep, hep, -, rfl⟩ := hpath'
    have := hmay l hl ep hep c (connAt_eq_some.mpr hc)
    simp [hopen] at this

theorem Queues.accept (h : Queues s) (path : String) :
    Queues ⟨(s.board.accept path).1, Recorded.record s.accepted (.accepted (s.board.accept path).2)⟩ := by
  unfold Switchboard.accept
  cases hl : s.board.listeners path with
  | none => exact h
  | some l =>
    cases hpend : l.pending with
    | nil =>
      have hsame : Function.update s.board.listeners path (some { l with pending := [].tail }) =
          s.board.listeners := by rw [Function.update_eq_self_iff, hl, tail_nil, ← hpend]
      simpa only [hpend, hsame, head?_nil, Recorded.record] using h
    | cons ep rest =>
      have hmem : ep ∈ l.pending := by simp [hpend]
      have hside := h.server path l hl ep hmem
      have hwaits : s.board.PendingOn ep.conn.toNat path := ⟨l, hl, ep, hmem, hside, rfl⟩
      have hnodup := h.nodup path l hl
      rw [hpend, map_cons, nodup_cons] at hnodup
      have hne {ep' : Endpoint} (hep' : ep' ∈ rest) : ep'.conn.toNat ≠ ep.conn.toNat := by
        intro heq
        exact hnodup.1 (mem_map.mpr ⟨ep', hep', UInt32.toNat_inj.mp heq⟩)
      have hpending (i : Nat) (path' : String) :
          PendingOn ⟨Function.update s.board.listeners path (some { l with pending := rest }),
            s.board.conns⟩ i path' ↔ s.board.PendingOn i path' ∧ i ≠ ep.conn.toNat := by
        rw [pendingOn_update]
        by_cases hpath : path' = path
        · subst hpath
          simp only [if_true, Option.some.injEq, exists_eq_left', PendingOn, hl, hpend,
            mem_cons, exists_eq_or_imp]
          constructor
          · rintro ⟨ep', hep', hside', rfl⟩
            exact ⟨.inr ⟨ep', hep', hside', rfl⟩, hne hep'⟩
          · rintro ⟨⟨-, rfl⟩ | hrest, hi⟩
            · exact absurd rfl hi
            · exact hrest
        · simp only [if_neg hpath]
          refine ⟨fun hp => ⟨hp, ?_⟩, fun hp => hp.1⟩
          rintro rfl
          exact hpath (h.once path' path _ hp hwaits)
      simp only [hpend, tail_cons, head?_cons, Recorded.record]
      refine ⟨h.length, ?_, ?_, ?_, ?_, ?_, ?_⟩
      · simpa [(h.waiting path _ hwaits).1] using h.accepted
      · intro path' l' hl' ep' hep'
        obtain ⟨-, hnew⟩ | ⟨-, hold⟩ := Book.update_eq_some hl'
        · rw [← Option.some.inj hnew] at hep'
          exact h.server path l hl ep' (by simp [hpend, hep'])
        · exact h.server path' l' hold ep' hep'
      · intro path' i hp
        obtain ⟨hp, hi⟩ := (hpending _ _).mp hp
        rw [Accepted, exists_mem_cons_iff, not_or]
        exact ⟨(h.waiting path' i hp).1, Ne.symm hi, (h.waiting path' i hp).2⟩
      · intro path' l' hl'
        obtain ⟨-, hnew⟩ | ⟨-, hold⟩ := Book.update_eq_some hl'
        · rw [← Option.some.inj hnew]
          exact hnodup.2
        · exact h.nodup path' l' hold
      · intro path₁ path₂ i h₁ h₂
        exact h.once path₁ path₂ i ((hpending _ _).mp h₁).1 ((hpending _ _).mp h₂).1
      · intro i c hc hopen haccepted
        rw [Accepted, exists_mem_cons_iff, not_or] at haccepted
        obtain ⟨path', hpath'⟩ := h.queued i c hc hopen haccepted.2
        exact ⟨path', (hpending _ _).mpr ⟨hpath', Ne.symm haccepted.1⟩⟩

theorem Queues.connect (h : Queues s) (hmay : s.board.MayCall (.connect path)) :
    Queues ⟨(s.board.connect path).1, s.accepted⟩ := by
  unfold Switchboard.connect
  cases hl : s.board.listeners path with
  | none => exact h
  | some l =>
    by_cases hfull : l.backlog ≤ l.pending.length
    · simpa only [if_pos hfull] using h
    have hroom : s.board.conns.length < 2 ^ 32 := hmay l hl (Nat.lt_of_not_le hfull)
    have hid := Book.toNat_ofNat_length hroom
    have hpending (i : Nat) (path' : String) :
        PendingOn ⟨Function.update s.board.listeners path (some { l with pending :=
          l.pending ++ [⟨UInt32.ofNat s.board.conns.length, .B⟩] }),
          s.board.conns ++ [some .new]⟩ i path' ↔
        s.board.PendingOn i path' ∨ (path' = path ∧ i = s.board.conns.length) := by
      rw [pendingOn_update]
      by_cases hpath : path' = path
      · subst hpath
        simp only [if_true, Option.some.injEq, exists_eq_left', PendingOn, hl, mem_append,
          mem_singleton, or_and_right, exists_or, exists_eq_left, hid, true_and,
          eq_comm]
      · simp [hpath]
    -- the new connection is in no queue yet
    have hfresh (path' : String) : ¬ s.board.PendingOn s.board.conns.length path' :=
      fun hp => lt_irrefl _ (h.waiting path' _ hp).1
    simp only [if_neg hfull]
    refine ⟨?_, ?_, ?_, ?_, ?_, ?_, ?_⟩
    · simpa using hroom
    · intro ep hep
      rw [length_append]
      exact (h.accepted ep hep).trans_le (Nat.le_add_right _ _)
    · intro path' l' hl' ep hep
      obtain ⟨-, hnew⟩ | ⟨-, hold⟩ := Book.update_eq_some hl'
      · rw [← Option.some.inj hnew, mem_append, mem_singleton] at hep
        rcases hep with hep | rfl
        · exact h.server path l hl ep hep
        · rfl
      · exact h.server path' l' hold ep hep
    · intro path' i hp
      rw [length_append, length_singleton]
      rcases (hpending _ _).mp hp with hp | ⟨-, rfl⟩
      · exact ⟨(h.waiting path' i hp).1.trans (Nat.lt_succ_self _), (h.waiting path' i hp).2⟩
      refine ⟨Nat.lt_succ_self _, ?_⟩
      rintro ⟨ep, hep, heq⟩
      exact absurd (h.accepted ep hep) (by simp [heq])
    · intro path' l' hl'
      obtain ⟨-, hnew⟩ | ⟨-, hold⟩ := Book.update_eq_some hl'
      · rw [← Option.some.inj hnew, map_append, map_singleton]
        refine (h.nodup path l hl).append (nodup_singleton _) ?_
        rw [disjoint_singleton]
        intro hmem
        obtain ⟨ep, hep, heq⟩ := mem_map.mp hmem
        exact hfresh path ⟨l, hl, ep, hep, h.server path l hl ep hep, by rw [heq, hid]⟩
      · exact h.nodup path' l' hold
    · intro path₁ path₂ i h₁ h₂
      rcases (hpending _ _).mp h₁ with h₁ | ⟨rfl, rfl⟩
      · rcases (hpending _ _).mp h₂ with h₂ | ⟨-, rfl⟩
        · exact h.once path₁ path₂ i h₁ h₂
        · exact absurd h₁ (hfresh path₁)
      · rcases (hpending _ _).mp h₂ with h₂ | ⟨rfl, -⟩
        · exact absurd h₂ (hfresh path₂)
        · rfl
    · intro i c hc hopen haccepted
      rcases Nat.lt_or_ge i s.board.conns.length with hlt | hge
      · rw [getElem?_append_left hlt] at hc
        obtain ⟨path', hpath'⟩ := h.queued i c hc hopen haccepted
        exact ⟨path', (hpending _ _).mpr (.inl hpath')⟩
      · have hi : i = s.board.conns.length := by
          have := (List.getElem?_eq_some_iff.mp hc).1
          rw [length_append, length_singleton] at this
          omega
        exact ⟨path, (hpending _ _).mpr (.inr ⟨rfl, hi⟩)⟩

theorem record_answer {α : Type} {found : α → Result} (accepted : List Endpoint)
    (hfound : ∀ a, Recorded.record accepted (found a) = accepted) (x : Except UnixError α) :
    Recorded.record accepted (answer found x) = accepted := by
  cases x with
  | ok a => exact hfound a
  | error e => rfl

theorem record_access (accepted : List Endpoint) (b : Switchboard) (ep : Endpoint) (op : Access) :
    Recorded.record accepted (b.access ep op).2 = accepted := by
  cases op with
  | send data => exact record_answer accepted (fun _ => rfl) _
  | recv max => exact record_answer accepted (fun _ => rfl) _
  | readable => rfl
  | atEof => rfl
  | available => rfl
  | close => rfl

theorem Queues.step (h : Queues s) {req : Request} (hmay : s.board.MayCall req) :
    Queues (Recorded.machine.step s req).1 := by
  cases req with
  | bindListen path backlog =>
    have hsame : Recorded.record s.accepted
        (answer (fun _ => .done) (s.board.bindListen path backlog).2) = s.accepted :=
      record_answer _ (fun _ => rfl) _
    simpa only [Recorded.machine, machine, hsame] using h.bindListen path backlog
  | unbind path => exact h.unbind hmay
  | isListening path => exact h
  | connect path =>
    have hsame : Recorded.record s.accepted (answer .connected (s.board.connect path).2) =
        s.accepted := record_answer _ (fun _ => rfl) _
    simpa only [Recorded.machine, machine, hsame] using h.connect hmay
  | accept path => exact h.accept path
  | pending path => exact h
  | access ep op =>
    simp only [Recorded.machine, machine, record_access]
    exact h.of_onlyCloses (onlyCloses_access s.board ep op)

/-! ## No orphans -/

theorem atEof_of_closed (hside : ep.side = .A) (h : ∀ c, b.connAt ep = some c → c.bOpen = false) :
    (b.recv ep (b.available ep)).1.atEof ep = true := by
  cases hconn : b.connAt ep with
  | none => simp [recv, atEof, hconn]
  | some c =>
    have hlt := (List.getElem?_eq_some_iff.mp (connAt_eq_some.mp hconn)).1
    have hrecv : (b.recv ep (b.available ep)).1 =
        b.setConn ep (some (c.drain (c.incoming .A).length .A)) := by
      simp [recv, available, hconn, hside]
    have hafter : (b.setConn ep (some (c.drain (c.incoming .A).length .A))).connAt ep =
        some (c.drain (c.incoming .A).length .A) := by simp [connAt, setConn, hlt]
    rw [hrecv, atEof, hafter]
    simp [hside, Conn.drain, Conn.incoming, Conn.peerOpen, h c hconn]

theorem Queues.noOrphans (h : Queues s) : NoOrphans s where
  queued := by
    intro i c hc hopen haccepted
    obtain ⟨path, hpath⟩ := h.queued i c hc hopen haccepted
    exact ⟨path, hpath, fun path' hpath' => h.once path' path i hpath' hpath⟩
  eof := by
    intro ep hside haccepted hpending
    refine atEof_of_closed hside fun c hc => ?_
    by_contra hopen
    obtain ⟨path, hpath⟩ := h.queued _ c (connAt_eq_some.mp hc) (by simpa using hopen) haccepted
    exact hpending path hpath

theorem Queues.mayCall (h : Queues s) (hafter : NoOrphans (Recorded.machine.step s req).1) :
    s.board.MayCall req := by
  cases req with
  | unbind path =>
    intro l hl ep hep c hc
    by_contra hopen
    have hwaits : s.board.PendingOn ep.conn.toNat path :=
      ⟨l, hl, ep, hep, h.server path l hl ep hep, rfl⟩
    obtain ⟨path', ⟨l', hl', hmem⟩, -⟩ := hafter.queued _ c (connAt_eq_some.mp hc)
      (by simpa using hopen) (h.waiting path _ hwaits).2
    obtain ⟨hne, hold⟩ := Book.update_none_eq_some hl'
    exact hne (h.once path' path _ ⟨l', hold, hmem⟩ hwaits)
  | connect path =>
    intro l hl hroom
    by_contra hfull
    have hid (ep : Endpoint) : ep.conn.toNat ≠ s.board.conns.length := by
      have := ep.conn.toNat_lt
      omega
    -- the new connection has an id that no endpoint can name
    have hconn : (Recorded.machine.step s (.connect path)).1.board.conns[s.board.conns.length]? =
        some (some .new) := by
      simp [Recorded.machine, machine, Switchboard.connect, hl, Nat.not_le.mpr hroom]
    obtain ⟨path', ⟨l', -, ep, -, -, hep⟩, -⟩ := hafter.queued _ _ hconn rfl
      (by rintro ⟨ep, -, hep⟩; exact hid ep hep)
    exact hid ep hep
  | bindListen path backlog => trivial
  | isListening path => trivial
  | accept path => trivial
  | pending path => trivial
  | access ep op => trivial

/-- No connection is orphaned in any state of a run exactly if every call is made under the
condition. -/
theorem noOrphans_iff (reqs : List Request) :
    (∀ earlier, earlier <+: reqs → NoOrphans (Recorded.machine.run .initial earlier)) ↔
      Recorded.machine.Allowed (fun s req => s.board.MayCall req) .initial reqs := by
  have hstep (s : Recorded) (req : Request) (h : Queues s) (hmay : s.board.MayCall req) :
      Queues (Recorded.machine.step s req).1 := h.step hmay
  constructor
  · intro h
    refine CallMachine.allowed_of_forced hstep (fun s req hq hafter => hq.mayCall hafter)
      queues_initial fun earlier req hearlier => ?_
    exact h _ hearlier
  · rintro hallowed earlier ⟨later, rfl⟩
    rw [CallMachine.allowed_append] at hallowed
    exact (CallMachine.run_invariant Queues hstep queues_initial hallowed.1).noOrphans

/-- A listener is removed while a client waits in its queue: nobody can accept the connection, and
the client never reads an end of file. -/
theorem unbound_client_orphaned :
    ¬ NoOrphans (Recorded.machine.run .initial
        [.bindListen "/run/a" 8, .connect "/run/a", .unbind "/run/a"]) ∧
      machine.results .new
          [.bindListen "/run/a" 8, .connect "/run/a", .unbind "/run/a",
            .access ⟨0, .A⟩ .atEof, .access ⟨0, .A⟩ .readable] =
        [.done, .connected ⟨0, .A⟩, .flag true, .flag false, .flag false] := by
  refine ⟨fun h => ?_, by decide⟩
  obtain ⟨path, ⟨l, hl, -⟩, -⟩ := h.queued 0 .new (by decide) rfl (by rintro ⟨ep, hep, -⟩; cases hep)
  have hnone : (Recorded.machine.run .initial
      [.bindListen "/run/a" 8, .connect "/run/a", .unbind "/run/a"]).board.listeners path = none := by
    by_cases hpath : path = "/run/a" <;>
      simp [Recorded.machine, machine, Recorded.initial, new, bindListen, connect, unbind, hpath]
  rw [hnone] at hl
  cases hl

end Switchboard

end EuroOS
