import EuroOS.SynQueue

/-!
# Passive opens

What the kernel does with the SYNs for its listeners, and with its half-open
connections in each round of the network loop.  Beside the state stand, for every
key, the SYN-ACKs sent since its entry was inserted and the time of that.
-/

namespace EuroOS.PassiveOpen

open List Function SynQueue

structure ConnKey where
  lport : UInt16
  peer : UInt32
  pport : UInt16
  deriving DecidableEq

inductive Owner
  | listen
  | httpd

structure HttpdConn where
  key : ConnKey
  answered : Bool

/-- A segment in the receive queue of a connection. -/
structure Segment where
  rst : Bool
  ack : Bool
  seqNum : UInt32
  ackNum : UInt32

structure Passive where
  synq : SynQueue ConnKey Owner
  httpd : List HttpdConn
  now : Nat
  sent : ConnKey → Nat
  born : ConnKey → Nat

namespace Passive

def httpdPort : UInt16 := 80
def httpdMax : Nat := 32

def initial : Passive := ⟨new 64, [], 0, fun _ => 0, fun _ => 0⟩

def emitSynAck (p : Passive) (key : ConnKey) : Passive :=
  { p with sent := match p.synq.get key with
      | some _ => update p.sent key (p.sent key + 1)
      | none => p.sent }

def resend (p : Passive) (key : ConnKey) : Passive :=
  { p.emitSynAck key with synq := p.synq.sentAgain key p.now }

/-- The httpd's connections once a SYN for the key is admitted: an answered connection of the
same key gives way, one that is not stays and takes the SYN. -/
def makeWay (httpd : List HttpdConn) (key : ConnKey) : Option (List HttpdConn) :=
  match httpd.findIdx? (·.key = key) with
  | none => some httpd
  | some i => if (httpd[i]?).any (·.answered) then some (swapRemove httpd i) else none

/-- A SYN, with the backlog and the queue length of the listener on its port and the sequence
number a new connection takes.  False when nothing listens there. -/
def onSyn (p : Passive) (serverOn : Bool) (listener : Option (Nat × Nat)) (key : ConnKey)
    (seq iss : UInt32) : Passive × Bool :=
  let httpd := serverOn && key.lport = httpdPort
  if !httpd && listener.isNone then (p, false)
  else
    match if httpd then makeWay p.httpd key else some p.httpd with
    | none => (p, true)
    | some conns =>
      let (owner, room) : Owner × Bool := match if httpd then none else listener with
        | none => (.httpd, conns.length + p.synq.count (·.lport = httpdPort) < httpdMax)
        | some (backlog, queued) => (.listen, queued + p.synq.count (·.lport = key.lport) < backlog)
      let (synq, action) := p.synq.onSyn key seq p.now room (iss, owner)
      let p' : Passive := { p with synq := synq, httpd := conns }
      match action with
      | .new =>
        let inserted : Passive := { p' with
          sent := update p.sent key 0, born := update p.born key p.now }
        (inserted.emitSynAck key, true)
      | .retransmit => (p'.resend key, true)
      | .full => (p', true)

/-- The segments that came in for a half-open connection, up to the one that ends it. -/
def drain (key : ConnKey) : List Segment → Passive → Passive
  | [], p => p
  | seg :: segs, p =>
    if seg.rst then
      match p.synq.onRst key seg.seqNum with
      | (synq, some _) => { p with synq := synq }
      | (synq, none) => drain key segs { p with synq := synq }
    else if seg.ack then
      match p.synq.onAck key seg.ackNum with
      | (synq, some e) => { p with
          synq := synq
          httpd := match e.data with
            | .httpd => p.httpd ++ [⟨key, false⟩]
            | .listen => p.httpd }
      | (synq, none) => drain key segs { p with synq := synq }
    else drain key segs p

/-- One round: the segments of each half-open connection, the timers, and what becomes of the
httpd's connections. -/
def step (p : Passive) (queues : ConnKey → List Segment)
    (retire : List HttpdConn → List HttpdConn) : Passive :=
  if p.synq.entries.isEmpty && p.httpd.isEmpty then p
  else
    let p := p.synq.keys.foldl (fun p key => drain key (queues key) p) p
    let (synq, again, _) := p.synq.due p.now
    let p := again.foldl resend { p with synq := synq }
    { p with httpd := retire p.httpd }

inductive Call
  | onSyn (serverOn : Bool) (listener : Option (Nat × Nat)) (key : ConnKey) (seq iss : UInt32)
  | step (queues : ConnKey → List Segment) (retire : List HttpdConn → List HttpdConn)

def perform (p : Passive) : Call → Passive
  | .onSyn serverOn listener key seq iss => (p.onSyn serverOn listener key seq iss).1
  | .step queues retire => p.step queues retire

def machine : CallMachine Passive (Nat × Call) Unit where
  step p call := (({ p with now := call.1 } : Passive).perform call.2, ())

/-! ## The bound on one attempt -/

variable {p : Passive} {key : ConnKey} {e : Embryo ConnKey Owner}

theorem sent_emitSynAck_of_ne {key' : ConnKey} (hne : key' ≠ key) :
    (p.emitSynAck key).sent key' = p.sent key' := by
  unfold emitSynAck
  cases p.synq.get key with
  | none => rfl
  | some e => exact update_of_ne hne ..

theorem sent_emitSynAck (he : e ∈ p.synq.entries) :
    (p.emitSynAck e.key).sent e.key = p.sent e.key + 1 := by
  unfold emitSynAck
  cases hget : p.synq.get e.key with
  | none => exact absurd (mem_map_of_mem he) (key_of_get_none hget)
  | some _ => exact update_self ..

theorem deadline_eq {now tries : Nat} (hclock : now + 1600 < 2 ^ 64) (hpos : 1 ≤ tries)
    (hle : tries ≤ maxTries) : deadline now tries = now + 100 * 2 ^ (tries - 1) := by
  have hle : tries ≤ 4 := hle
  interval_cases tries <;> simp [deadline, rto] <;> omega

/-- The entry has sent the SYN-ACKs it counts, and waits for no longer than they allow. -/
structure Within (p : Passive) (e : Embryo ConnKey Owner) : Prop where
  sent : p.sent e.key = e.tries
  pos : 1 ≤ e.tries
  le : e.tries ≤ maxTries
  now_le : p.now ≤ e.due
  due_le : e.due ≤ p.born e.key + 100 * (2 ^ e.tries - 1)

structure Timed (p : Passive) : Prop where
  sound : Sound 64 p.synq
  clock : p.now + 1600 < 2 ^ 64
  within : ∀ e ∈ p.synq.entries, Within p e

theorem Timed.of_perm (h : Timed p) {synq : SynQueue ConnKey Owner}
    {out : List (Embryo ConnKey Owner)} (hperm : (out ++ synq.entries).Perm p.synq.entries)
    (hcap : synq.cap = p.synq.cap) (httpd : List HttpdConn) :
    Timed { p with synq := synq, httpd := httpd } where
  sound := h.sound.of_perm hperm hcap
  clock := h.clock
  within e he :=
    { h.within e (hperm.subset (mem_append_right out he)) with }

theorem Timed.resend (h : Timed p)
    (hfew : ∀ e ∈ p.synq.entries, e.key = key → e.tries < maxTries) : Timed (p.resend key) where
  sound := (step_spec h.sound (.sentAgain key p.now)).1
  clock := h.clock
  within e he := by
    rcases mem_edit h.sound.keys he with ⟨hold, hne⟩ | ⟨old, hold, rfl, rfl⟩
    · exact { h.within e hold with
        sent := (sent_emitSynAck_of_ne hne).trans (h.within e hold).sent }
    have hw := h.within old hold
    have hlt := hfew old hold rfl
    have htries : min (old.tries + 1) 255 = old.tries + 1 := by
      unfold maxTries at hlt
      omega
    have hdue := deadline_eq h.clock (Nat.le_add_left 1 old.tries) hlt
    have hle := hw.due_le
    have hnow := hw.now_le
    rw [Nat.add_sub_cancel] at hdue
    have hrearm : rearm p.now old =
        { old with tries := old.tries + 1, due := p.now + 100 * 2 ^ old.tries } := by
      rw [rearm, htries, hdue]
    rw [hrearm]
    constructor
    · exact (sent_emitSynAck hold).trans (congrArg (· + 1) hw.sent)
    · exact Nat.le_add_left 1 old.tries
    · exact hlt
    · exact Nat.le_add_right ..
    · change p.now + 100 * 2 ^ old.tries ≤ p.born old.key + 100 * (2 ^ (old.tries + 1) - 1)
      omega

theorem Timed.resendAll {again : List ConnKey} (hnodup : again.Nodup) (h : Timed p)
    (hfew : ∀ e ∈ p.synq.entries, e.key ∈ again → e.tries < maxTries) :
    Timed (again.foldl Passive.resend p) := by
  induction again generalizing p with
  | nil => exact h
  | cons key again ih =>
    obtain ⟨hnew, hnodup⟩ := nodup_cons.mp hnodup
    refine ih hnodup (h.resend fun e he hkey => hfew e he (hkey ▸ mem_cons_self)) ?_
    intro e he hmem
    rcases mem_edit h.sound.keys he with ⟨hold, -⟩ | ⟨old, -, rfl, rfl⟩
    · exact hfew e hold (mem_cons_of_mem key hmem)
    · exact absurd hmem hnew

theorem Timed.drain (h : Timed p) (key : ConnKey) (segs : List Segment) :
    Timed (drain key segs p) := by
  induction segs generalizing p with
  | nil => exact h
  | cons seg segs ih =>
    have hrst := takeIf_perm (fun e => seg.seqNum = e.irs + 1) p.synq key
    have hack := takeIf_perm (fun e => seg.ackNum = e.iss + 1) p.synq key
    rw [Passive.drain]
    split
    · split
      all_goals
        rename_i heq
        rw [← onRst, heq] at hrst
      · exact h.of_perm hrst.1 hrst.2 p.httpd
      · exact ih (h.of_perm hrst.1 hrst.2 p.httpd)
    · split
      · split
        all_goals
          rename_i heq
          rw [← onAck, heq] at hack
        · exact h.of_perm hack.1 hack.2 _
        · exact ih (h.of_perm hack.1 hack.2 p.httpd)
      · exact ih h

theorem Timed.step (h : Timed p) (queues : ConnKey → List Segment)
    (retire : List HttpdConn → List HttpdConn) : Timed (p.step queues retire) := by
  unfold Passive.step
  split
  · exact h
  have hdrained : Timed (p.synq.keys.foldl (fun p key => Passive.drain key (queues key) p) p) :=
    List.foldlRecOn _ _ h fun p hp key _ => hp.drain key (queues key)
  generalize p.synq.keys.foldl (fun p key => Passive.drain key (queues key) p) p = p at hdrained
  have hscan := p.synq.due_spec p.now
  have hdue := hdrained.of_perm (p.synq.due_perm p.now) rfl p.httpd
  have hagain : (p.synq.due p.now).2.1.Nodup :=
    hscan.again.nodup_iff.mpr (hdrained.sound.keys.sublist (filter_sublist.map _))
  have hfew : ∀ e ∈ (p.synq.due p.now).1.entries, e.key ∈ (p.synq.due p.now).2.1 →
      e.tries < maxTries := by
    intro e he hmem
    obtain ⟨e', he', hkey⟩ := mem_map.mp (hscan.again.subset hmem)
    obtain ⟨hmem', hfew⟩ := mem_filter.mp he'
    have hold := (mem_filter.mp (hscan.kept.subset he)).1
    obtain rfl := inj_on_of_nodup_map hdrained.sound.keys hmem' hold hkey
    simp only [Bool.and_eq_true, decide_eq_true_eq] at hfew
    exact hfew.2
  exact (hdue.resendAll hagain hfew).of_perm (List.Perm.refl ([] ++ _)) rfl _

theorem Timed.onSyn (h : Timed p) (serverOn : Bool) (listener : Option (Nat × Nat)) (iss : UInt32)
    (hfew : ∀ e ∈ p.synq.entries, e.key = key → e.irs = seq → e.tries < maxTries) :
    Timed (p.onSyn serverOn listener key seq iss).1 := by
  unfold Passive.onSyn
  dsimp only
  split
  · exact h
  split
  · exact h
  rename_i conns _
  generalize (match if (serverOn && decide (key.lport = httpdPort)) = true then none else listener with
    | none => (Owner.httpd, decide (conns.length + p.synq.count (·.lport = httpdPort) < httpdMax))
    | some (backlog, queued) =>
      (Owner.listen, decide (queued + p.synq.count (·.lport = key.lport) < backlog))) = admitted
  obtain ⟨owner, room⟩ := admitted
  have hsound := (step_spec h.sound (.onSyn key seq p.now room (iss, owner))).1
  have hsame := h.of_perm (List.Perm.refl ([] ++ _)) rfl conns
  rcases onSyn_cases h.sound.keys key seq p.now room (iss, owner) with
    ⟨e, hget, hirs, heq⟩ | heq | ⟨q, heq, hentries⟩
  · rw [heq]
    refine hsame.resend fun e' he' hkey => hfew e' he' hkey ?_
    obtain ⟨he, hkey'⟩ := mem_of_get hget
    obtain rfl := inj_on_of_nodup_map h.sound.keys he he' (hkey'.trans hkey.symm)
    exact hirs
  · rw [heq]
    exact hsame
  · simp only [SynQueue.machine, heq] at hsound ⊢
    refine ⟨hsound, h.clock, fun e he => ?_⟩
    rcases hentries e he with ⟨hold, hne⟩ | rfl
    · refine { h.within e hold with sent := ?_, due_le := ?_ }
      · refine (sent_emitSynAck_of_ne hne).trans ?_
        exact (update_of_ne hne ..).trans (h.within e hold).sent
      · change _ ≤ update p.born key p.now e.key + _
        rw [update_of_ne hne]
        exact (h.within e hold).due_le
    · have hdue := deadline_eq h.clock (Nat.le_refl 1) (by decide)
      have hsent := sent_emitSynAck (p := ⟨q, conns, p.now, update p.sent key 0,
        update p.born key p.now⟩) he
      have hzero : update p.sent key 0 key = 0 := update_self ..
      refine ⟨hsent.trans (congrArg (· + 1) hzero), Nat.le_refl 1, Nat.le_of_ble_eq_true rfl, ?_, ?_⟩
      · change p.now ≤ deadline p.now 1
        rw [hdue]
        exact Nat.le_add_right ..
      · change deadline p.now 1 ≤ update p.born key p.now key + 100 * (2 ^ 1 - 1)
        rw [update_self, hdue]
        omega

/-! ## Runs -/

def Call.repeats : Call → Embryo ConnKey Owner → Bool
  | .onSyn _ _ key seq _, e => e.key = key && e.irs = seq
  | .step _ _, _ => false

/-- A call no later than the next deadline, and no SYN again for an entry whose tries are used
up. -/
def Prompt (p : Passive) (call : Nat × Call) : Prop :=
  call.1 + 1600 < 2 ^ 64 ∧ (∀ e ∈ p.synq.entries, call.1 ≤ e.due) ∧
    ∀ e ∈ p.synq.entries, call.2.repeats e → e.tries < maxTries

theorem Timed.call (h : Timed p) {call : Nat × Call} (hprompt : Prompt p call) :
    Timed (machine.step p call).1 := by
  obtain ⟨now, call⟩ := call
  obtain ⟨hclock, hdue, hcall⟩ := hprompt
  have hnow : Timed { p with now := now } :=
    { h with
      clock := hclock
      within := fun e he => { h.within e he with now_le := hdue e he } }
  cases call with
  | onSyn serverOn listener key seq iss =>
    refine hnow.onSyn serverOn listener iss fun e he hkey hirs => hcall e he ?_
    simp [Call.repeats, hkey, hirs]
  | step queues retire => exact hnow.step queues retire

def knock : ConnKey := ⟨22, 7, 40000⟩

def knockAt (now : Nat) : Nat × Call := (now, .onSyn false (some (8, 0)) knock 500 9000)

end Passive

end EuroOS.PassiveOpen
