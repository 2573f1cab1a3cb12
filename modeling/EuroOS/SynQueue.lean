import EuroOS.CallMachine
import Mathlib.Data.List.Perm.Subperm

/-!
# Half-open connections

The table of connections whose SYN was answered and whose handshake is not yet
complete.  Entries are found by their key, removed by moving the last entry into
their place, and carry the timer of their own SYN-ACK.
-/

namespace EuroOS

open List

/-- What a SYN opens: the peer's and our own first sequence number, and the caller's data. -/
structure Opening (K T : Type) where
  key : K
  iss : UInt32
  irs : UInt32
  data : T
  deriving DecidableEq

structure Embryo (K T : Type) extends Opening K T where
  tries : Nat
  due : Nat
  deriving DecidableEq

inductive SynAction
  | new
  | retransmit
  | full
  deriving DecidableEq

structure SynQueue (K T : Type) where
  entries : List (Embryo K T)
  cap : Nat
  deriving DecidableEq

/-- `Vec::swap_remove`: the last element takes the place of the removed one. -/
def swapRemove {α : Type} (l : List α) (i : Nat) : List α :=
  match l.getLast? with
  | none => []
  | some last => (l.set i last).dropLast

theorem swapRemove_eq {α : Type} (before : List α) (a : α) (after : List α) :
    ∃ after', swapRemove (before ++ a :: after) before.length = before ++ after' ∧
      after'.Perm after := by
  rcases eq_nil_or_concat' after with rfl | ⟨middle, last, rfl⟩
  · exact ⟨[], by simp [swapRemove], .nil⟩
  refine ⟨last :: middle, ?_, (perm_append_singleton last middle).symm⟩
  have hlast : (before ++ a :: (middle ++ [last])).getLast? = some last := by
    rw [← cons_append, ← append_assoc, getLast?_concat]
  have hset : (before ++ a :: (middle ++ [last])).set before.length last =
      (before ++ last :: middle) ++ [last] := by simp
  simp only [swapRemove, hlast]
  rw [hset, dropLast_concat]

theorem swapRemove_perm {α : Type} {l : List α} {i : Nat} {a : α} (h : l[i]? = some a) :
    (a :: swapRemove l i).Perm l := by
  obtain ⟨hi, rfl⟩ := List.getElem?_eq_some_iff.mp h
  obtain ⟨after, heq, hperm⟩ := swapRemove_eq (l.take i) l[i] (l.drop (i + 1))
  rw [length_take_of_le hi.le] at heq
  have hl : l = l.take i ++ l[i] :: l.drop (i + 1) := by simp
  have hremoved : swapRemove l i = l.take i ++ after := by
    conv_lhs => rw [hl]
    exact heq
  rw [hremoved]
  nth_rewrite 3 [hl]
  exact perm_middle.symm.trans ((hperm.cons l[i]).append_left (l.take i))

namespace SynQueue

variable {K T : Type}

def maxTries : Nat := 4

def new (cap : Nat) : SynQueue K T := ⟨[], cap⟩

/-! ## Timers -/

def dueFrom (now : Nat) : (rounds : Nat) → List (Embryo K T) → Nat → List K →
    List (Embryo K T) → List (Embryo K T) × List K × List (Embryo K T)
  | 0, entries, _, again, expired => (entries, again, expired)
  | rounds + 1, entries, i, again, expired =>
    match entries[i]? with
    | none => (entries, again, expired)
    | some e =>
      if e.due ≤ now then
        if maxTries ≤ e.tries then
          dueFrom now rounds (swapRemove entries i) i again (expired ++ [e])
        else dueFrom now rounds entries (i + 1) (again ++ [e.key]) expired
      else dueFrom now rounds entries (i + 1) again expired

-- every round moves on by one entry or removes one
def due (q : SynQueue K T) (now : Nat) : SynQueue K T × List K × List (Embryo K T) :=
  let (entries, again, expired) := dueFrom now q.entries.length q.entries 0 [] []
  ({ q with entries := entries }, again, expired)

/-- What a scan of the entries for their timers finds. -/
structure Scanned (now : Nat) (entries kept expired : List (Embryo K T)) (again : List K) : Prop where
  kept : kept.Perm (entries.filter fun e => !(e.due ≤ now && maxTries ≤ e.tries))
  expired : expired.Perm (entries.filter fun e => e.due ≤ now && maxTries ≤ e.tries)
  again : again.Perm ((entries.filter fun e => e.due ≤ now && e.tries < maxTries).map (·.key))

theorem Scanned.of_perm {now : Nat} {l l' kept expired : List (Embryo K T)} {again : List K}
    (h : Scanned now l kept expired again) (hl : l.Perm l') : Scanned now l' kept expired again where
  kept := h.kept.trans (hl.filter _)
  expired := h.expired.trans (hl.filter _)
  again := h.again.trans ((hl.filter _).map _)

/-- The scan looks at every entry once, also at the one that was moved into the place of a
removed one. -/
theorem dueFrom_spec (now : Nat) {after : List (Embryo K T)} (hrounds : after.length ≤ rounds)
    (before : List (Embryo K T)) (again : List K) (expired : List (Embryo K T)) :
    ∃ kept expired' again', dueFrom now rounds (before ++ after) before.length again expired =
        (before ++ kept, again ++ again', expired ++ expired') ∧
      Scanned now after kept expired' again' := by
  induction rounds generalizing after before again expired with
  | zero =>
    obtain rfl := length_eq_zero_iff.mp (Nat.le_zero.mp hrounds)
    exact ⟨[], [], [], by simp [dueFrom], ⟨.nil, .nil, .nil⟩⟩
  | succ rounds ih =>
    cases after with
    | nil => exact ⟨[], [], [], by simp [dueFrom], ⟨.nil, .nil, .nil⟩⟩
    | cons e after =>
      have hget : (before ++ e :: after)[before.length]? = some e := by simp
      have hnext : before ++ e :: after = (before ++ [e]) ++ after := by simp
      have hlen : (before ++ [e]).length = before.length + 1 := by simp
      have hafter : after.length ≤ rounds := Nat.le_of_succ_le_succ hrounds
      rw [dueFrom, hget]
      simp only
      split
      · rename_i hdue
        split
        · rename_i hspent
          obtain ⟨after', hremoved, hperm⟩ := swapRemove_eq before e after
          obtain ⟨kept, expired', again', heq, hscan⟩ :=
            ih (hperm.length_eq.trans_le hafter) before again (expired ++ [e])
          refine ⟨kept, e :: expired', again', by rw [hremoved, heq]; simp, ?_⟩
          have hscan := hscan.of_perm hperm
          constructor
          · simpa [hdue, hspent] using hscan.kept
          · simpa [hdue, hspent] using hscan.expired
          · simpa [hdue, hspent] using hscan.again
        · rename_i hspent
          obtain ⟨kept, expired', again', heq, hscan⟩ :=
            ih hafter (before ++ [e]) (again ++ [e.key]) expired
          refine ⟨e :: kept, expired', e.key :: again', by rw [hnext, ← hlen, heq]; simp, ?_⟩
          constructor
          · simpa [hdue, hspent] using hscan.kept
          · simpa [hdue, hspent] using hscan.expired
          · simpa [hdue, Nat.lt_of_not_le hspent] using hscan.again
      · rename_i hdue
        obtain ⟨kept, expired', again', heq, hscan⟩ := ih hafter (before ++ [e]) again expired
        refine ⟨e :: kept, expired', again', by rw [hnext, ← hlen, heq]; simp, ?_⟩
        constructor
        · simpa [hdue] using hscan.kept
        · simpa [hdue] using hscan.expired
        · simpa [hdue] using hscan.again

theorem due_spec (q : SynQueue K T) (now : Nat) :
    Scanned now q.entries (q.due now).1.entries (q.due now).2.2 (q.due now).2.1 := by
  obtain ⟨kept, expired, again, heq, hscan⟩ := dueFrom_spec now (Nat.le_refl q.entries.length) [] [] []
  simp only [nil_append, length_nil] at heq
  rw [due, heq]
  exact hscan

theorem due_perm (q : SynQueue K T) (now : Nat) :
    ((q.due now).2.2 ++ (q.due now).1.entries).Perm q.entries := by
  have hscan := q.due_spec now
  exact (hscan.expired.append hscan.kept).trans (filter_append_perm _ _)

/-! ## Edits and removals -/

variable {cap : Nat} {q q' : SynQueue K T}

structure Sound (cap : Nat) (q : SynQueue K T) : Prop where
  keys : (q.entries.map (·.key)).Nodup
  room : q.entries.length ≤ q.cap
  cap_eq : q.cap = cap

theorem Sound.of_perm (h : Sound cap q) (hperm : (out ++ q'.entries).Perm q.entries)
    (hcap : q'.cap = q.cap) : Sound cap q' where
  keys := by
    have hnodup := (hperm.map (·.key)).nodup_iff.mpr h.keys
    rw [map_append] at hnodup
    exact hnodup.of_append_right
  room := by
    have hlen := hperm.length_eq
    rw [length_append] at hlen
    have hroom := h.room
    omega
  cap_eq := hcap.trans h.cap_eq

theorem Sound.of_keys (h : Sound cap q) (hkeys : q'.entries.map (·.key) = q.entries.map (·.key))
    (hcap : q'.cap = q.cap) : Sound cap q' where
  keys := hkeys ▸ h.keys
  room := by
    have hlen := congrArg List.length hkeys
    rw [length_map, length_map] at hlen
    rw [hlen, hcap]
    exact h.room
  cap_eq := hcap.trans h.cap_eq

variable [DecidableEq K]

def count (q : SynQueue K T) (pred : K → Bool) : Nat := q.entries.countP fun e => pred e.key

def get (q : SynQueue K T) (key : K) : Option (Embryo K T) := q.entries.find? (·.key = key)

def keys (q : SynQueue K T) : List K := q.entries.map (·.key)

def rto (tries : Nat) : Nat := 100 <<< min (tries - 1) 4

def deadline (now tries : Nat) : Nat := (now + rto tries) % 2 ^ 64

def edit (key : K) (f : Embryo K T → Embryo K T) : List (Embryo K T) → List (Embryo K T)
  | [] => []
  | e :: entries => if e.key = key then f e :: entries else e :: edit key f entries

def fresh (key : K) (irs : UInt32) (now : Nat) (made : UInt32 × T) : Embryo K T :=
  ⟨⟨key, made.1, irs, made.2⟩, 1, deadline now 1⟩

def onSyn (q : SynQueue K T) (key : K) (irs : UInt32) (now : Nat) (room : Bool)
    (made : UInt32 × T) : SynQueue K T × SynAction :=
  match q.get key with
  | some e =>
    if e.irs = irs then (q, .retransmit)
    -- the peer gave up the old attempt
    else ({ q with entries := edit key (fun _ => fresh key irs now made) q.entries }, .new)
  | none =>
    if !room || q.cap ≤ q.entries.length then (q, .full)
    else ({ q with entries := q.entries ++ [fresh key irs now made] }, .new)

def rearm (now : Nat) (e : Embryo K T) : Embryo K T :=
  { e with tries := min (e.tries + 1) 255, due := deadline now (min (e.tries + 1) 255) }

def sentAgain (q : SynQueue K T) (key : K) (now : Nat) : SynQueue K T :=
  { q with entries := edit key (rearm now) q.entries }

def takeIf (accept : Embryo K T → Bool) (q : SynQueue K T) (key : K) :
    SynQueue K T × Option (Embryo K T) :=
  match q.entries.findIdx? (·.key = key) with
  | none => (q, none)
  | some i =>
    match q.entries[i]? with
    | none => (q, none)
    | some e =>
      if accept e then ({ q with entries := swapRemove q.entries i }, some e) else (q, none)

def onAck (q : SynQueue K T) (key : K) (ack : UInt32) : SynQueue K T × Option (Embryo K T) :=
  q.takeIf (fun e => ack = e.iss + 1) key

def onRst (q : SynQueue K T) (key : K) (seq : UInt32) : SynQueue K T × Option (Embryo K T) :=
  q.takeIf (fun e => seq = e.irs + 1) key

def remove (q : SynQueue K T) (key : K) : SynQueue K T × Option (Embryo K T) :=
  q.takeIf (fun _ => true) key

theorem keys_edit (entries : List (Embryo K T)) (hf : ∀ e, e.key = key → (f e).key = key) :
    (edit key f entries).map (·.key) = entries.map (·.key) := by
  induction entries with
  | nil => rfl
  | cons e entries ih =>
    rw [edit]
    split
    · rename_i hkey
      rw [map_cons, map_cons, hf e hkey, hkey]
    · rw [map_cons, map_cons, ih]

theorem openings_edit (entries : List (Embryo K T)) (hf : ∀ e, (f e).toOpening = e.toOpening) :
    (edit key f entries).map (·.toOpening) = entries.map (·.toOpening) := by
  induction entries with
  | nil => rfl
  | cons e entries ih =>
    rw [edit]
    split
    · rw [map_cons, map_cons, hf e]
    · rw [map_cons, map_cons, ih]

theorem mem_edit {key : K} {entries : List (Embryo K T)} (hkeys : (entries.map (·.key)).Nodup)
    {e : Embryo K T} (h : e ∈ edit key f entries) :
    (e ∈ entries ∧ e.key ≠ key) ∨ ∃ old ∈ entries, old.key = key ∧ e = f old := by
  induction entries with
  | nil => cases h
  | cons a entries ih =>
    obtain ⟨hnew, hrest⟩ := nodup_cons.mp hkeys
    rw [edit] at h
    split at h
    · rename_i hkey
      rcases mem_cons.mp h with rfl | hmem
      · exact .inr ⟨a, mem_cons_self, hkey, rfl⟩
      · refine .inl ⟨mem_cons_of_mem a hmem, fun heq => hnew ?_⟩
        exact mem_map.mpr ⟨e, hmem, heq.trans hkey.symm⟩
    · rename_i hkey
      rcases mem_cons.mp h with rfl | hmem
      · exact .inl ⟨mem_cons_self, hkey⟩
      rcases ih hrest hmem with ⟨hold, hne⟩ | ⟨old, hold, hrest⟩
      · exact .inl ⟨mem_cons_of_mem a hold, hne⟩
      · exact .inr ⟨old, mem_cons_of_mem a hold, hrest⟩

theorem openings_restart (key : K) (new : Embryo K T) (entries : List (Embryo K T)) :
    ((edit key (fun _ => new) entries).map (·.toOpening)).Subperm
      (entries.map (·.toOpening) ++ [new.toOpening]) := by
  induction entries with
  | nil => exact nil_subperm
  | cons e entries ih =>
    rw [edit]
    split
    · refine (sublist_cons_self e.toOpening _).subperm.trans ?_
      exact ((perm_append_singleton new.toOpening _).symm.cons e.toOpening).subperm
    · exact (subperm_cons e.toOpening).mpr ih

theorem mem_of_get (h : q.get key = some e) : e ∈ q.entries ∧ e.key = key :=
  ⟨mem_of_find?_eq_some h, by simpa using find?_some h⟩

theorem key_of_get_none {q : SynQueue K T} {key : K} (h : q.get key = none) :
    key ∉ q.entries.map (·.key) := by
  rw [mem_map]
  rintro ⟨e, hmem, hkey⟩
  simpa [hkey] using find?_eq_none.mp h e hmem

theorem onSyn_cases (h : (q.entries.map (·.key)).Nodup) (key : K) (irs : UInt32) (now : Nat)
    (room : Bool) (made : UInt32 × T) :
    (∃ e, q.get key = some e ∧ e.irs = irs ∧ q.onSyn key irs now room made = (q, .retransmit)) ∨
      q.onSyn key irs now room made = (q, .full) ∨
      ∃ q', q.onSyn key irs now room made = (q', .new) ∧
        ∀ e ∈ q'.entries, (e ∈ q.entries ∧ e.key ≠ key) ∨ e = fresh key irs now made := by
  unfold onSyn
  cases hget : q.get key with
  | some e =>
    simp only
    split
    · rename_i hirs
      exact .inl ⟨e, rfl, hirs, rfl⟩
    · refine .inr (.inr ⟨_, rfl, fun e' he' => ?_⟩)
      exact (mem_edit h he').imp_right fun ⟨_, _, _, heq⟩ => heq
  | none =>
    simp only
    split
    · exact .inr (.inl rfl)
    refine .inr (.inr ⟨_, rfl, fun e he => ?_⟩)
    rcases mem_append.mp he with hold | hnew
    · exact .inl ⟨hold, fun hkey => key_of_get_none hget (hkey ▸ mem_map_of_mem hold)⟩
    · exact .inr (mem_singleton.mp hnew)

theorem takeIf_perm (accept : Embryo K T → Bool) (q : SynQueue K T) (key : K) :
    ((q.takeIf accept key).2.toList ++ (q.takeIf accept key).1.entries).Perm q.entries ∧
      (q.takeIf accept key).1.cap = q.cap := by
  unfold takeIf
  split
  · exact ⟨.refl _, rfl⟩
  split
  · exact ⟨.refl _, rfl⟩
  rename_i e hget
  split
  · exact ⟨swapRemove_perm hget, rfl⟩
  · exact ⟨.refl _, rfl⟩

/-! ## Runs -/

inductive Call (K T : Type)
  | onSyn (key : K) (irs : UInt32) (now : Nat) (room : Bool) (made : UInt32 × T)
  | sentAgain (key : K) (now : Nat)
  | onAck (key : K) (ack : UInt32)
  | onRst (key : K) (seq : UInt32)
  | remove (key : K)
  | due (now : Nat)

inductive Result (K T : Type)
  | syn (action : SynAction)
  | done
  | taken (e : Option (Embryo K T))
  | timers (again : List K) (expired : List (Embryo K T))

def machine : CallMachine (SynQueue K T) (Call K T) (Result K T) where
  step q
    | .onSyn key irs now room made => ((q.onSyn key irs now room made).1,
        .syn (q.onSyn key irs now room made).2)
    | .sentAgain key now => (q.sentAgain key now, .done)
    | .onAck key ack => ((q.onAck key ack).1, .taken (q.onAck key ack).2)
    | .onRst key seq => ((q.onRst key seq).1, .taken (q.onRst key seq).2)
    | .remove key => ((q.remove key).1, .taken (q.remove key).2)
    | .due now => ((q.due now).1, .timers (q.due now).2.1 (q.due now).2.2)

def Result.left : Result K T → List (Opening K T)
  | .taken e => e.toList.map (·.toOpening)
  | .timers _ expired => expired.map (·.toOpening)
  | _ => []

def Call.inserted : Call K T × Result K T → List (Opening K T)
  | (.onSyn key irs _ _ made, .syn .new) => [⟨key, made.1, irs, made.2⟩]
  | _ => []

def left (q : SynQueue K T) (calls : List (Call K T)) : List (Opening K T) :=
  (machine.results q calls).flatMap Result.left

def inserted (q : SynQueue K T) (calls : List (Call K T)) : List (Opening K T) :=
  (calls.zip (machine.results q calls)).flatMap Call.inserted

theorem step_spec (h : Sound cap q) (call : Call K T) :
    Sound cap (machine.step q call).1 ∧
      ((machine.step q call).2.left ++ (machine.step q call).1.entries.map (·.toOpening)).Subperm
        (q.entries.map (·.toOpening) ++ Call.inserted (call, (machine.step q call).2)) := by
  -- a removal only splits the entries
  have hout {out kept : List (Embryo K T)} (hperm : (out ++ kept).Perm q.entries) :
      (out.map (·.toOpening) ++ kept.map (·.toOpening)).Subperm
        (q.entries.map (·.toOpening) ++ []) := by
    rw [append_nil, ← map_append]
    exact (hperm.map _).subperm
  cases call with
  | onSyn key irs now room made =>
    simp only [machine, onSyn, Result.left, nil_append]
    cases hget : q.get key with
    | some e =>
      simp only
      split
      · exact ⟨h, (sublist_append_left _ _).subperm⟩
      · refine ⟨h.of_keys (keys_edit _ fun _ _ => rfl) rfl, ?_⟩
        exact openings_restart key (fresh key irs now made) q.entries
    | none =>
      simp only
      split
      · exact ⟨h, (sublist_append_left _ _).subperm⟩
      rename_i hroom
      simp only [Bool.or_eq_true, not_or, decide_eq_true_eq] at hroom
      refine ⟨⟨?_, ?_, h.cap_eq⟩, ?_⟩
      · rw [map_append]
        exact h.keys.append (nodup_singleton _)
          (disjoint_singleton.mpr (key_of_get_none hget))
      · rw [length_append, length_singleton]
        exact Nat.lt_of_not_le hroom.2
      · rw [map_append]
        exact List.Subperm.refl _
  | sentAgain key now =>
    refine ⟨h.of_keys (keys_edit _ fun _ hkey => hkey) rfl, ?_⟩
    change (List.map (·.toOpening) (edit key (rearm now) q.entries)).Subperm _
    rw [openings_edit (f := rearm now) _ fun _ => rfl]
    exact (sublist_append_left _ _).subperm
  | onAck key ack =>
    obtain ⟨hperm, hcap⟩ := takeIf_perm (fun e => ack = e.iss + 1) q key
    exact ⟨h.of_perm hperm hcap, hout hperm⟩
  | onRst key seq =>
    obtain ⟨hperm, hcap⟩ := takeIf_perm (fun e => seq = e.irs + 1) q key
    exact ⟨h.of_perm hperm hcap, hout hperm⟩
  | remove key =>
    obtain ⟨hperm, hcap⟩ := takeIf_perm (fun _ => true) q key
    exact ⟨h.of_perm hperm hcap, hout hperm⟩
  | due now => exact ⟨h.of_perm (q.due_perm now) rfl, hout (q.due_perm now)⟩

theorem run_spec (h : Sound cap q) (calls : List (Call K T)) :
    Sound cap (machine.run q calls) ∧
      (q.left calls ++ (machine.run q calls).entries.map (·.toOpening)).Subperm
        (q.entries.map (·.toOpening) ++ q.inserted calls) := by
  induction calls generalizing q with
  | nil => exact ⟨h, by simpa [left, inserted, CallMachine.results] using List.Subperm.refl _⟩
  | cons call calls ih =>
    obtain ⟨hsound, hstep⟩ := step_spec h call
    obtain ⟨hsound', hrun⟩ := ih hsound
    refine ⟨hsound', ?_⟩
    have hleft : q.left (call :: calls) =
        (machine.step q call).2.left ++ (machine.step q call).1.left calls := by
      simp [left, CallMachine.results]
    have hinserted : q.inserted (call :: calls) = Call.inserted (call, (machine.step q call).2) ++
        (machine.step q call).1.inserted calls := by simp [inserted, CallMachine.results]
    rw [hleft, hinserted, append_assoc, ← append_assoc (q.entries.map _)]
    refine ((List.Subperm.refl _).append hrun).trans ?_
    rw [← append_assoc]
    exact hstep.append (List.Subperm.refl _)

/-- In every run the keys are distinct and within the capacity, the entries that left and
those that are there were each inserted, as often as they are counted, and a scan of the timers
reports every entry that is due once and keeps the others as they are. -/
theorem bookkeeping (cap : Nat) (calls : List (Call K T)) :
    let q : SynQueue K T := machine.run (new cap) calls
    (q.entries.map (·.key)).Nodup ∧ q.entries.length ≤ cap ∧
      ((new cap).left calls ++ q.entries.map (·.toOpening)).Subperm ((new cap).inserted calls) ∧
      ∀ now, Scanned now q.entries (q.due now).1.entries (q.due now).2.2 (q.due now).2.1 := by
  have hnew : Sound cap (new cap : SynQueue K T) := ⟨nodup_nil, Nat.zero_le cap, rfl⟩
  obtain ⟨hsound, hbooks⟩ := run_spec hnew calls
  exact ⟨hsound.keys, hsound.room.trans_eq hsound.cap_eq, hbooks, fun now => due_spec _ now⟩

end SynQueue

end EuroOS
