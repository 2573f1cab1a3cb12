import EuroOS.UnixSocket

/-!
# The life of a connection id

An id is in flight while the connect that created its connection has not decided;
then it is connected or undone.  A connected id waits at its listener until it is
accepted or the listener goes away.  The book of ids follows the table and the
calls, as long as fewer than 2^32 connections have been created.
-/

namespace EuroOS

open List Function

namespace UnixSocket

@[ext]
structure Book (Core : Type) where
  table : List (Option Nat)
  flight : Core → Option UInt32
  waiting : String → List UInt32
  connected : List UInt32
  undone : List UInt32
  accepted : List UInt32

namespace Book

variable {Core : Type}

structure Distinct (b : Book Core) : Prop where
  issued_nodup : (b.connected ++ b.undone).Nodup
  issued_lt : ∀ id ∈ b.connected ++ b.undone, id.toNat < b.table.length
  flight_lt : ∀ core id, b.flight core = some id → id.toNat < b.table.length
  flight_new : ∀ core id, b.flight core = some id → id ∉ b.connected ++ b.undone
  flight_inj : ∀ core core' id, b.flight core = some id → b.flight core' = some id → core = core'
  waiting_mem : ∀ path, ∀ id ∈ b.waiting path, id ∈ b.connected ∧ id ∉ b.accepted
  waiting_nodup : ∀ path, (b.waiting path).Nodup
  waiting_path : ∀ path path', ∀ id ∈ b.waiting path, id ∈ b.waiting path' → path = path'
  accepted_mem : ∀ id ∈ b.accepted, id ∈ b.connected
  accepted_nodup : b.accepted.Nodup
  slot_self : ∀ k ref : Nat, b.table[k]? = some (some ref) → ref = k
  slot_open : ∀ k ref : Nat, b.table[k]? = some (some ref) →
    (∃ core id, b.flight core = some id ∧ id.toNat = k) ∨ ∃ id ∈ b.connected, id.toNat = k
  slot_undone : ∀ id ∈ b.undone, b.table[id.toNat]? = some none

variable [DecidableEq Core]

def create (b : Book Core) (core : Core) : Book Core :=
  { b with
    table := b.table ++ [some b.table.length]
    flight := update b.flight core (some (UInt32.ofNat b.table.length)) }

def connect (b : Book Core) (core : Core) (path : String) (id : UInt32) : Book Core :=
  { b with
    flight := update b.flight core none
    waiting := update b.waiting path (b.waiting path ++ [id])
    connected := id :: b.connected }

def undo (b : Book Core) (core : Core) (id : UInt32) : Book Core :=
  { b with
    table := b.table.set id.toNat none
    flight := update b.flight core none
    undone := id :: b.undone }

def free (b : Book Core) (id : UInt32) : Book Core :=
  { b with table := b.table.set id.toNat none }

def accept (b : Book Core) (path : String) (id : UInt32) (rest : List UInt32) : Book Core :=
  { b with
    waiting := update b.waiting path rest
    accepted := id :: b.accepted }

def clear (b : Book Core) (path : String) : Book Core :=
  { b with waiting := update b.waiting path [] }

theorem connect_waiting (b : Book Core) (core : Core) (path : String) (id : UInt32) :
    (b.connect core path id).waiting = update b.waiting path (b.waiting path ++ [id]) := rfl

omit [DecidableEq Core] in
theorem accept_waiting (b : Book Core) (path : String) (id : UInt32) (rest : List UInt32) :
    (b.accept path id rest).waiting = update b.waiting path rest := rfl

omit [DecidableEq Core] in
theorem clear_waiting (b : Book Core) (path : String) :
    (b.clear path).waiting = update b.waiting path [] := rfl

inductive Step (core : Core) (b : Book Core) : Book Core → Prop
  | same : Step core b b
  | create (hidle : b.flight core = none) (hroom : b.table.length < 2 ^ 32) :
      Step core b (b.create core)
  | connect (path : String) {id : UInt32} (hflight : b.flight core = some id) :
      Step core b (b.connect core path id)
  | undo {id : UInt32} (hflight : b.flight core = some id) : Step core b (b.undo core id)
  | free (id : UInt32) : Step core b (b.free id)
  | accept (path : String) {id : UInt32} {rest : List UInt32}
      (hwaiting : b.waiting path = id :: rest) : Step core b (b.accept path id rest)
  | clear (path : String) : Step core b (b.clear path)

theorem Step.of_eq {core : Core} {b b' b'' : Book Core} (heq : b'' = b')
    (hstep : Step core b b') : Step core b b'' := by
  rw [heq]
  exact hstep

section Preserved

variable {b : Book Core} {core : Core}

theorem getElem?_set_none {t : List (Option Nat)} {i k ref : Nat}
    (h : (t.set i none)[k]? = some (some ref)) : i ≠ k ∧ t[k]? = some (some ref) := by
  rw [getElem?_set] at h
  by_cases heq : i = k
  · rw [if_pos heq] at h
    split at h <;> cases h
  · rw [if_neg heq] at h
    exact ⟨heq, h⟩

theorem getElem?_set_none_of_none {t : List (Option Nat)} {i k : Nat}
    (h : t[k]? = some none) : (t.set i none)[k]? = some none := by
  rw [getElem?_set]
  by_cases heq : i = k
  · have hlt : k < t.length := (List.getElem?_eq_some_iff.mp h).1
    rw [if_pos heq, heq, if_pos hlt]
  · rw [if_neg heq, h]

theorem toNat_ofNat_length {n : Nat} (h : n < 2 ^ 32) : (UInt32.ofNat n).toNat = n := by
  rw [UInt32.toNat_ofNat']
  exact Nat.mod_eq_of_lt h

omit [DecidableEq Core] in
theorem update_eq_some {κ β : Type} [DecidableEq κ] {f : κ → Option β} {k k' : κ} {v : Option β}
    {x : β} (h : update f k v k' = some x) : (k' = k ∧ v = some x) ∨ (k' ≠ k ∧ f k' = some x) := by
  by_cases heq : k' = k
  · subst heq
    rw [update_self] at h
    exact .inl ⟨rfl, h⟩
  · rw [update_of_ne heq] at h
    exact .inr ⟨heq, h⟩

theorem update_none_eq_some {κ β : Type} [DecidableEq κ] {f : κ → Option β} {k k' : κ} {x : β}
    (h : update f k none k' = some x) : k' ≠ k ∧ f k' = some x := by
  rcases update_eq_some h with ⟨-, hnone⟩ | hold
  · cases hnone
  · exact hold

variable (h : Distinct b)
include h

theorem Distinct.create (hidle : b.flight core = none) (hroom : b.table.length < 2 ^ 32) :
    Distinct (b.create core) := by
  have hid := toNat_ofNat_length hroom
  have hflight : ∀ {core' id}, (b.create core).flight core' = some id →
      (core' = core ∧ id.toNat = b.table.length) ∨ b.flight core' = some id := by
    intro core' id hf
    rcases update_eq_some hf with ⟨hcore, hnew⟩ | hold
    · cases hnew
      exact .inl ⟨hcore, hid⟩
    · exact .inr hold.2
  have hlen : (b.create core).table.length = b.table.length + 1 := length_append
  have hslot : ∀ {k ref : Nat}, (b.create core).table[k]? = some (some ref) →
      b.table[k]? = some (some ref) ∨ (k = b.table.length ∧ ref = k) := by
    intro k ref hk
    rcases Nat.lt_or_ge k b.table.length with hlt | hge
    · exact .inl ((getElem?_append_left hlt).symm.trans hk)
    have hone := (getElem?_append_right hge).symm.trans hk
    rw [getElem?_singleton] at hone
    split_ifs at hone
    cases hone
    exact .inr ⟨by omega, by omega⟩
  exact { h with
    issued_lt := fun id hmem => hlen ▸ Nat.lt_succ_of_lt (h.issued_lt id hmem)
    flight_lt := by
      intro core' id hf
      rw [hlen]
      rcases hflight hf with ⟨-, hnew⟩ | hold
      · omega
      · exact Nat.lt_succ_of_lt (h.flight_lt core' id hold)
    flight_new := by
      intro core' id hf hmem
      rcases hflight hf with ⟨-, hnew⟩ | hold
      · have hlt := h.issued_lt id hmem
        omega
      · exact h.flight_new core' id hold hmem
    flight_inj := by
      intro core₁ core₂ id hf₁ hf₂
      rcases hflight hf₁ with ⟨h₁, hnew₁⟩ | hold₁ <;> rcases hflight hf₂ with ⟨h₂, hnew₂⟩ | hold₂
      · rw [h₁, h₂]
      · exact absurd hnew₁ (h.flight_lt core₂ id hold₂).ne
      · exact absurd hnew₂ (h.flight_lt core₁ id hold₁).ne
      · exact h.flight_inj core₁ core₂ id hold₁ hold₂
    slot_self := by
      intro k ref hk
      exact (hslot hk).elim (h.slot_self k ref) And.right
    slot_open := by
      intro k ref hk
      rcases hslot hk with hold | ⟨hnew, -⟩
      · refine (h.slot_open k ref hold).imp_left ?_
        rintro ⟨core', id, hf, hk'⟩
        have hne : core' ≠ core := by
          rintro rfl
          cases hidle.symm.trans hf
        exact ⟨core', id, (update_of_ne hne ..).trans hf, hk'⟩
      · exact .inl ⟨core, _, update_self .., hid.trans hnew.symm⟩
    slot_undone := by
      intro id hmem
      have hold := h.slot_undone id hmem
      exact (getElem?_append_left (List.getElem?_eq_some_iff.mp hold).1).trans hold }

theorem Distinct.connect (path : String) {id : UInt32}
    (hflight : b.flight core = some id) : Distinct (b.connect core path id) := by
  have hnew := h.flight_new core id hflight
  have hwaiting : ∀ {path' id'}, id' ∈ (b.connect core path id).waiting path' →
      id' ∈ b.waiting path' ∨ (id' = id ∧ path' = path) := by
    intro path' id' hmem
    rw [connect_waiting, update_apply] at hmem
    split_ifs at hmem with heq
    · simpa [heq] using hmem
    · exact .inl hmem
  have hnot : ∀ path', id ∉ b.waiting path' := fun path' hmem =>
    hnew (mem_append_left _ (h.waiting_mem path' id hmem).1)
  exact { h with
    issued_nodup := nodup_cons.mpr ⟨hnew, h.issued_nodup⟩
    issued_lt := forall_mem_cons.mpr ⟨h.flight_lt core _ hflight, h.issued_lt⟩
    flight_lt := fun core' id' hf => h.flight_lt core' id' (update_none_eq_some hf).2
    flight_new := by
      intro core' id' hf hmem
      obtain ⟨hne, hf'⟩ := update_none_eq_some hf
      rcases mem_cons.mp hmem with rfl | hold
      · exact hne (h.flight_inj core' core _ hf' hflight)
      · exact h.flight_new core' id' hf' hold
    flight_inj := fun core₁ core₂ id' hf₁ hf₂ =>
      h.flight_inj core₁ core₂ id' (update_none_eq_some hf₁).2 (update_none_eq_some hf₂).2
    waiting_mem := by
      intro path' id' hmem
      rcases hwaiting hmem with hold | ⟨rfl, -⟩
      · exact (h.waiting_mem path' id' hold).imp_left (mem_cons_of_mem _)
      · exact ⟨mem_cons_self, fun hacc =>
          hnew (mem_append_left _ (h.accepted_mem _ hacc))⟩
    waiting_nodup := by
      intro path'
      rw [connect_waiting, update_apply]
      split_ifs
      · apply (h.waiting_nodup path).append (nodup_singleton _)
        rw [disjoint_singleton]
        exact hnot path
      · exact h.waiting_nodup path'
    waiting_path := by
      intro path₁ path₂ id' hm₁ hm₂
      rcases hwaiting hm₁ with hold₁ | ⟨hid₁, hp₁⟩ <;> rcases hwaiting hm₂ with hold₂ | ⟨hid₂, hp₂⟩
      · exact h.waiting_path path₁ path₂ id' hold₁ hold₂
      · exact absurd (hid₂ ▸ hold₁) (hnot path₁)
      · exact absurd (hid₁ ▸ hold₂) (hnot path₂)
      · rw [hp₁, hp₂]
    accepted_mem := fun id' hmem => mem_cons_of_mem _ (h.accepted_mem id' hmem)
    slot_open := by
      intro k ref hk
      rcases h.slot_open k ref hk with ⟨core', id', hf, hk'⟩ | ⟨id', hmem, hk'⟩
      · by_cases heq : core' = core
        · subst heq
          cases hf.symm.trans hflight
          exact .inr ⟨_, mem_cons_self, hk'⟩
        · exact .inl ⟨core', id', (update_of_ne heq ..).trans hf, hk'⟩
      · exact .inr ⟨id', mem_cons_of_mem _ hmem, hk'⟩ }

theorem Distinct.undo {id : UInt32} (hflight : b.flight core = some id) :
    Distinct (b.undo core id) := by
  have hnew := h.flight_new core id hflight
  have hlen : (b.undo core id).table.length = b.table.length := length_set
  have hperm : (b.connected ++ id :: b.undone).Perm (id :: (b.connected ++ b.undone)) :=
    perm_middle
  exact { h with
    issued_nodup := hperm.nodup_iff.mpr (nodup_cons.mpr ⟨hnew, h.issued_nodup⟩)
    issued_lt := by
      intro id' hmem
      rw [hlen]
      rcases mem_cons.mp (hperm.mem_iff.mp hmem) with rfl | hold
      · exact h.flight_lt core _ hflight
      · exact h.issued_lt id' hold
    flight_lt := fun core' id' hf => hlen ▸ h.flight_lt core' id' (update_none_eq_some hf).2
    flight_new := by
      intro core' id' hf hmem
      obtain ⟨hne, hf'⟩ := update_none_eq_some hf
      rcases mem_cons.mp (hperm.mem_iff.mp hmem) with rfl | hold
      · exact hne (h.flight_inj core' core _ hf' hflight)
      · exact h.flight_new core' id' hf' hold
    flight_inj := fun core₁ core₂ id' hf₁ hf₂ =>
      h.flight_inj core₁ core₂ id' (update_none_eq_some hf₁).2 (update_none_eq_some hf₂).2
    slot_self := fun k ref hk => h.slot_self k ref (getElem?_set_none hk).2
    slot_open := by
      intro k ref hk
      obtain ⟨hne, hk'⟩ := getElem?_set_none hk
      refine (h.slot_open k ref hk').imp_left ?_
      rintro ⟨core', id', hf, hidk⟩
      have hcore : core' ≠ core := by
        rintro rfl
        cases hf.symm.trans hflight
        exact hne hidk
      exact ⟨core', id', (update_of_ne hcore ..).trans hf, hidk⟩
    slot_undone := forall_mem_cons.mpr ⟨getElem?_set_self (h.flight_lt core _ hflight),
      fun id' hold => getElem?_set_none_of_none (h.slot_undone id' hold)⟩ }

omit [DecidableEq Core] in
theorem Distinct.free (id : UInt32) : Distinct (b.free id) := by
  have hlen : (b.free id).table.length = b.table.length := length_set
  exact { h with
    issued_lt := fun id' hmem => hlen ▸ h.issued_lt id' hmem
    flight_lt := fun core id' hf => hlen ▸ h.flight_lt core id' hf
    slot_self := fun k ref hk => h.slot_self k ref (getElem?_set_none hk).2
    slot_open := fun k ref hk => h.slot_open k ref (getElem?_set_none hk).2
    slot_undone := fun id' hmem => getElem?_set_none_of_none (h.slot_undone id' hmem) }

omit [DecidableEq Core] in
theorem Distinct.accept (path : String) {id : UInt32} (hwaiting : b.waiting path = id :: rest) :
    Distinct (b.accept path id rest) := by
  have hid : id ∈ b.waiting path := by rw [hwaiting]; exact mem_cons_self
  have hnodup : id ∉ rest ∧ rest.Nodup := by
    rw [← nodup_cons, ← hwaiting]
    exact h.waiting_nodup path
  -- the ids that still wait waited before, and are not the accepted one
  have hold : ∀ {path' id'}, id' ∈ (b.accept path id rest).waiting path' →
      id' ∈ b.waiting path' ∧ id' ≠ id := by
    intro path' id' hmem
    rw [accept_waiting, update_apply] at hmem
    split_ifs at hmem with heq
    · rw [heq, hwaiting]
      exact ⟨mem_cons_of_mem _ hmem, ne_of_mem_of_not_mem hmem hnodup.1⟩
    refine ⟨hmem, ?_⟩
    rintro rfl
    exact heq (h.waiting_path path' path _ hmem hid)
  exact { h with
    waiting_mem := by
      intro path' id' hmem
      obtain ⟨hmem', hne⟩ := hold hmem
      obtain ⟨hconnected, hacc⟩ := h.waiting_mem path' id' hmem'
      exact ⟨hconnected, not_mem_cons_of_ne_of_not_mem hne hacc⟩
    waiting_nodup := by
      intro path'
      rw [accept_waiting, update_apply]
      split_ifs
      · exact hnodup.2
      · exact h.waiting_nodup path'
    waiting_path := fun path₁ path₂ id' hm₁ hm₂ =>
      h.waiting_path path₁ path₂ id' (hold hm₁).1 (hold hm₂).1
    accepted_mem := forall_mem_cons.mpr ⟨(h.waiting_mem path _ hid).1, h.accepted_mem⟩
    accepted_nodup := nodup_cons.mpr ⟨(h.waiting_mem path id hid).2, h.accepted_nodup⟩ }

omit [DecidableEq Core] in
theorem Distinct.clear (path : String) : Distinct (b.clear path) := by
  have hold : ∀ path', ((b.clear path).waiting path').Sublist (b.waiting path') := by
    intro path'
    rw [clear_waiting, update_apply]
    split_ifs
    · exact nil_sublist _
    · exact List.Sublist.refl _
  exact { h with
    waiting_mem := fun path' id' hmem => h.waiting_mem path' id' ((hold path').subset hmem)
    waiting_nodup := fun path' => (h.waiting_nodup path').sublist (hold path')
    waiting_path := fun path₁ path₂ id' hm₁ hm₂ =>
      h.waiting_path path₁ path₂ id' ((hold path₁).subset hm₁) ((hold path₂).subset hm₂) }

omit h in
theorem Step.distinct (hstep : Step core b b') (h : Distinct b) : Distinct b' := by
  cases hstep with
  | same => exact h
  | create hidle hroom => exact h.create hidle hroom
  | connect path hflight => exact h.connect path hflight
  | undo hflight => exact h.undo hflight
  | free id => exact h.free id
  | accept path hwaiting => exact h.accept path hwaiting
  | clear path => exact h.clear path

end Preserved

end Book

end UnixSocket

end EuroOS
