import Mathlib.Tactic

/-!
# Loops that consume a buffer

A loop that takes one item from its state at a time, until no complete item is
left or handling one fails.  What the items put out is collected; a failure
drops the output and keeps the state the failing step left.  The loop is driven
by fuel; where every item takes bytes from a buffer, its length is enough.
-/

namespace EuroOS.StepLoop

variable {σ ε β : Type*}

/-- What one step leaves: the new state, and the output or the error. -/
abbrev Outcome (σ ε β : Type*) := σ × Except ε (List β)

def Outcome.after (out : List β) (r : Outcome σ ε β) : Outcome σ ε β :=
  match r.2 with
  | .ok more => (r.1, .ok (out ++ more))
  | .error e => (r.1, .error e)

def drive (step : σ → Option (Outcome σ ε β)) : Nat → σ → Outcome σ ε β
  | 0, s => (s, .ok [])
  | fuel + 1, s =>
    match step s with
    | none => (s, .ok [])
    | some (s', .error e) => (s', .error e)
    | some (s', .ok out) => (drive step fuel s').after out

def Along (P : σ → Prop) (step : σ → Option (Outcome σ ε β)) : Nat → σ → Prop
  | 0, _ => True
  | fuel + 1, s =>
    match step s with
    | none => True
    | some (_, .error _) => P s
    | some (s', .ok _) => P s ∧ Along P step fuel s'

instance decidableAlong (P : σ → Prop) [DecidablePred P]
    (step : σ → Option (Outcome σ ε β)) : (fuel : Nat) → (s : σ) →
    Decidable (Along P step fuel s)
  | 0, _ => .isTrue trivial
  | fuel + 1, s =>
    match hstep : step s with
    | none => .isTrue (by simp [Along, hstep])
    | some (_, .error _) =>
      decidable_of_iff (P s) (by simp [Along, hstep])
    | some (s', .ok _) =>
      have : Decidable (Along P step fuel s') := decidableAlong P step fuel s'
      decidable_of_iff (P s ∧ Along P step fuel s') (by simp [Along, hstep])

/-- The outcome is fine: `good` of the state after success, `bad` after an error. -/
def Outcome.Ends (good bad : σ → Prop) (r : Outcome σ ε β) : Prop :=
  match r.2 with
  | .ok _ => good r.1
  | .error _ => bad r.1

@[simp] theorem Outcome.ends_ok (good bad : σ → Prop) (s : σ) (out : List β) :
    Outcome.Ends good bad ((s, .ok out) : Outcome σ ε β) ↔ good s := Iff.rfl

@[simp] theorem Outcome.ends_error (good bad : σ → Prop) (s : σ) (e : ε) :
    Outcome.Ends good bad ((s, .error e) : Outcome σ ε β) ↔ bad s := Iff.rfl

theorem Outcome.ends_after (good bad : σ → Prop) (out : List β) (r : Outcome σ ε β) :
    (r.after out).Ends good bad ↔ r.Ends good bad := by
  obtain ⟨s, res⟩ := r
  cases res <;> simp [Outcome.after]

theorem along_true (step : σ → Option (Outcome σ ε β)) (fuel : Nat) (s : σ) :
    Along (fun _ => True) step fuel s := by
  induction fuel generalizing s with
  | zero => trivial
  | succ fuel ih =>
    unfold Along
    cases step s with
    | none => trivial
    | some r =>
      obtain ⟨s', res⟩ := r
      cases res with
      | error e => trivial
      | ok out => exact ⟨trivial, ih s'⟩

theorem Outcome.ends_imp {p good bad : σ → Prop} {r : Outcome σ ε β}
    (h : p r.1 → r.Ends (fun s => p s → good s) (fun s => p s → bad s)) :
    r.Ends (fun s => p s → good s) (fun s => p s → bad s) := by
  obtain ⟨s, res⟩ := r
  cases res with
  | ok out => exact fun hp => h hp hp
  | error e => exact fun hp => h hp hp

theorem drive_ends {step : σ → Option (Outcome σ ε β)} {P good bad : σ → Prop}
    (hstep : ∀ s r, good s → P s → step s = some r → r.Ends good bad) (fuel : Nat) (s : σ)
    (hs : good s) (halong : Along P step fuel s) : (drive step fuel s).Ends good bad := by
  induction fuel generalizing s with
  | zero => exact hs
  | succ fuel ih =>
    unfold drive
    unfold Along at halong
    cases hr : step s with
    | none => exact hs
    | some r =>
      obtain ⟨s', res⟩ := r
      cases res with
      | error e =>
        simp only [hr] at halong
        exact hstep s _ hs halong hr
      | ok out =>
        simp only [hr] at halong
        have hs' : good s' := hstep s _ hs halong.1 hr
        exact (Outcome.ends_after good bad out _).mpr (ih s' hs' halong.2)

end EuroOS.StepLoop
