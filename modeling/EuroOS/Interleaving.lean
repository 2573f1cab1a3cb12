import Mathlib.Tactic

/-!
# Calls made of atomic sections

A concurrent component is given by its calls: each is a sequence of sections that
run under a lock and are atomic, with local values carried from one to the next.
Any number of cores make calls; each move of a run begins a call on an idle core
or runs the next section of a call in progress.  The log records when calls begin
and what they return, with their last section.
-/

namespace EuroOS

open Function

/-- The calls of a component.  `Point` is the place between two sections together
with the local values there, `Choice` what the environment decides at a section. -/
structure Sections where
  Shared : Type
  Call : Type
  Point : Type
  Choice : Type
  Result : Type
  enter : Call → Point
  advance : Choice → Point → Shared → (Point ⊕ Result) × Shared

inductive CallEvent (P : Sections) (Core : Type)
  | call (core : Core) (call : P.Call)
  | ret (core : Core) (call : P.Call) (result : P.Result)

inductive Move (P : Sections) (Core : Type)
  | call (core : Core) (call : P.Call)
  | run (core : Core) (choice : P.Choice)

/-- The shared state, the call in progress on each core, and what happened so
far, newest first. -/
structure World (P : Sections) (Core : Type) where
  shared : P.Shared
  running : Core → Option (P.Call × P.Point)
  log : List (CallEvent P Core)

namespace World

variable {P : Sections} {Core : Type}

def Quiet (w : World P Core) : Prop := ∀ core, w.running core = none

def initial (shared : P.Shared) : World P Core where
  shared := shared
  running := fun _ => none
  log := []

variable [DecidableEq Core]

def begin (w : World P Core) (core : Core) (call : P.Call) : World P Core where
  shared := w.shared
  running := update w.running core (some (call, P.enter call))
  log := .call core call :: w.log

def settle (w : World P Core) (core : Core) (call : P.Call) :
    (P.Point ⊕ P.Result) × P.Shared → World P Core
  | (.inl point, shared) =>
    { shared := shared
      running := update w.running core (some (call, point))
      log := w.log }
  | (.inr result, shared) =>
    { shared := shared
      running := update w.running core none
      log := .ret core call result :: w.log }

def move (w : World P Core) : Move P Core → Option (World P Core)
  | .call core call =>
    match w.running core with
    | none => some (w.begin core call)
    | some _ => none
  | .run core choice =>
    match w.running core with
    | none => none
    | some (call, point) => some (w.settle core call (P.advance choice point w.shared))

def play (w : World P Core) (moves : List (Move P Core)) : Option (World P Core) :=
  moves.foldlM move w

/-- The worlds reached by moves that are allowed where they are made. -/
inductive Reach (allowed : World P Core → Move P Core → Prop) (w₀ : World P Core) :
    World P Core → Prop
  | refl : Reach allowed w₀ w₀
  | step {w w' : World P Core} (m : Move P Core) (hreach : Reach allowed w₀ w)
      (hallowed : allowed w m) (hmove : w.move m = some w') : Reach allowed w₀ w'

abbrev Reachable (w₀ w : World P Core) : Prop := Reach (fun _ _ => True) w₀ w

variable {allowed : World P Core → Move P Core → Prop} {w₀ w w' : World P Core}

theorem Reach.trans (h : Reach allowed w₀ w) (h' : Reach allowed w w') : Reach allowed w₀ w' := by
  induction h' with
  | refl => exact h
  | step m _ hallowed hmove ih => exact .step m ih hallowed hmove

theorem Reach.mono (himp : ∀ w m, allowed w m → allowed' w m) (h : Reach allowed w₀ w) :
    Reach allowed' w₀ w := by
  induction h with
  | refl => exact .refl
  | step m _ hallowed hmove ih => exact .step m ih (himp _ m hallowed) hmove

variable {moves : List (Move P Core)}

theorem reach_of_play (h : w₀.play moves = some w) : Reachable w₀ w := by
  induction moves generalizing w₀ with
  | nil =>
    rw [play, List.foldlM_nil] at h
    cases h
    exact .refl
  | cons m moves ih =>
    rw [play, List.foldlM_cons] at h
    cases hm : w₀.move m with
    | none =>
      rw [hm] at h
      cases h
    | some w₁ =>
      rw [hm] at h
      exact Reach.trans (.step m .refl trivial hm) (ih h)

theorem exists_of_play (h : (w₀.play moves).any test = true) :
    ∃ w, Reachable w₀ w ∧ test w = true := by
  cases hplay : w₀.play moves with
  | none =>
    rw [hplay] at h
    cases h
  | some w =>
    rw [hplay] at h
    exact ⟨w, reach_of_play hplay, h⟩

def playIf (allowed : World P Core → Move P Core → Prop) [∀ w m, Decidable (allowed w m)]
    (w : World P Core) (moves : List (Move P Core)) : Option (World P Core) :=
  moves.foldlM (fun w m => if allowed w m then w.move m else none) w

theorem reach_of_playIf [∀ w m, Decidable (allowed w m)] (h : w₀.playIf allowed moves = some w) :
    Reach allowed w₀ w := by
  induction moves generalizing w₀ with
  | nil =>
    rw [playIf, List.foldlM_nil] at h
    cases h
    exact .refl
  | cons m moves ih =>
    rw [playIf, List.foldlM_cons] at h
    by_cases hallowed : allowed w₀ m
    · rw [if_pos hallowed] at h
      cases hm : w₀.move m with
      | none =>
        rw [hm] at h
        cases h
      | some w₁ =>
        rw [hm] at h
        exact Reach.trans (.step m .refl hallowed hm) (ih h)
    · rw [if_neg hallowed] at h
      cases h

theorem move_cases (h : w.move m = some w') :
    (∃ core call, m = .call core call ∧ w.running core = none ∧ w' = w.begin core call) ∨
    ∃ core choice call point, m = .run core choice ∧ w.running core = some (call, point) ∧
      w' = w.settle core call (P.advance choice point w.shared) := by
  cases m with
  | call core call =>
    rw [move] at h
    cases hrun : w.running core with
    | none =>
      rw [hrun] at h
      exact .inl ⟨core, call, rfl, hrun, (Option.some.inj h).symm⟩
    | some p =>
      rw [hrun] at h
      cases h
  | run core choice =>
    rw [move] at h
    cases hrun : w.running core with
    | none =>
      rw [hrun] at h
      cases h
    | some p =>
      rw [hrun] at h
      exact .inr ⟨core, choice, p.1, p.2, rfl, hrun, (Option.some.inj h).symm⟩

theorem Reach.invariant {inv : World P Core → Prop} (hinit : inv w₀)
    (hbegin : ∀ w core call, allowed w (.call core call) → w.running core = none → inv w →
      inv (w.begin core call))
    (hrun : ∀ w core choice call point, allowed w (.run core choice) →
      w.running core = some (call, point) → inv w →
      inv (w.settle core call (P.advance choice point w.shared)))
    (h : Reach allowed w₀ w) : inv w := by
  induction h with
  | refl => exact hinit
  | step m _ hallowed hmove ih =>
    rcases move_cases hmove with
      ⟨core, call, rfl, hidle, rfl⟩ | ⟨core, choice, call, point, rfl, hat, rfl⟩
    · exact hbegin _ core call hallowed hidle ih
    · exact hrun _ core choice call point hallowed hat ih

/-! ## The calls in progress after a move -/

theorem begin_running_self (w : World P Core) (core : Core) (call : P.Call) :
    (w.begin core call).running core = some (call, P.enter call) :=
  update_self ..

variable {core : Core}

theorem begin_running_of_ne (w : World P Core) (call : P.Call) (hne : core' ≠ core) :
    (w.begin core call).running core' = w.running core' :=
  update_of_ne hne ..

theorem settle_running_of_ne (w : World P Core) (call : P.Call)
    (outcome : (P.Point ⊕ P.Result) × P.Shared) (hne : core' ≠ core) :
    (w.settle core call outcome).running core' = w.running core' := by
  obtain ⟨next, shared⟩ := outcome
  cases next with
  | inl point => exact update_of_ne hne ..
  | inr result => exact update_of_ne hne ..

theorem settle_shared (w : World P Core) (core : Core) (call : P.Call)
    (outcome : (P.Point ⊕ P.Result) × P.Shared) :
    (w.settle core call outcome).shared = outcome.2 := by
  obtain ⟨next, shared⟩ := outcome
  cases next with
  | inl point => rfl
  | inr result => rfl

theorem settle_running (h : (w.settle core call outcome).running core' = some (call', point)) :
    (core' = core ∧ call' = call ∧ outcome.1 = .inl point) ∨
      (core' ≠ core ∧ w.running core' = some (call', point)) := by
  by_cases hne : core' = core
  · subst hne
    obtain ⟨next, shared⟩ := outcome
    cases next with
    | inl point' =>
      have hself : (w.settle core' call (.inl point', shared)).running core' =
          some (call, point') := update_self ..
      rw [hself, Option.some.injEq, Prod.mk.injEq] at h
      exact .inl ⟨rfl, h.1.symm, by rw [h.2]⟩
    | inr result =>
      have hself : (w.settle core' call (.inr result, shared)).running core' = none :=
        update_self ..
      rw [hself] at h
      cases h
  · rw [settle_running_of_ne w call outcome hne] at h
    exact .inr ⟨hne, h⟩

theorem begin_running (h : (w.begin core call).running core' = some (call', point)) :
    (core' = core ∧ call' = call ∧ point = P.enter call) ∨
      (core' ≠ core ∧ w.running core' = some (call', point)) := by
  by_cases hne : core' = core
  · subst hne
    rw [begin_running_self, Option.some.injEq, Prod.mk.injEq] at h
    exact .inl ⟨rfl, h.1.symm, h.2.symm⟩
  · rw [begin_running_of_ne w call hne] at h
    exact .inr ⟨hne, h⟩

end World

end EuroOS
