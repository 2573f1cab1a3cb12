import Mathlib.Tactic

/-!
# Components driven by calls

A component holds a state, and each call changes the state and returns a result.
A run is a list of calls.  What one call preserves holds in every state of every
run (`run_invariant`), also when the calls have to respect a condition on the
state they are made in (`Allowed`).
-/

namespace EuroOS

structure CallMachine (State Call Result : Type) where
  step : State → Call → State × Result

namespace CallMachine

variable {State Call Result : Type} {M : CallMachine State Call Result}
variable {allowed : State → Call → Prop}

def run (M : CallMachine State Call Result) (s : State) : List Call → State
  | [] => s
  | call :: calls => M.run (M.step s call).1 calls

def results (M : CallMachine State Call Result) (s : State) : List Call → List Result
  | [] => []
  | call :: calls => (M.step s call).2 :: M.results (M.step s call).1 calls

def Allowed (M : CallMachine State Call Result) (allowed : State → Call → Prop) (s : State) :
    List Call → Prop
  | [] => True
  | call :: calls => allowed s call ∧ M.Allowed allowed (M.step s call).1 calls

variable (s : State)

@[simp] theorem run_nil : M.run s [] = s := rfl

@[simp] theorem run_cons (call : Call) (calls : List Call) :
    M.run s (call :: calls) = M.run (M.step s call).1 calls := rfl

@[simp] theorem allowed_nil : M.Allowed allowed s [] := trivial

@[simp] theorem allowed_cons (call : Call) (calls : List Call) :
    M.Allowed allowed s (call :: calls) ↔
      allowed s call ∧ M.Allowed allowed (M.step s call).1 calls := Iff.rfl

instance decidableAllowed [∀ s call, Decidable (allowed s call)] (s : State)
    (calls : List Call) : Decidable (M.Allowed allowed s calls) :=
  match calls with
  | [] => isTrue trivial
  | call :: calls =>
    have := decidableAllowed (M.step s call).1 calls
    inferInstanceAs (Decidable (allowed s call ∧ M.Allowed allowed (M.step s call).1 calls))

theorem run_append (calls calls' : List Call) :
    M.run s (calls ++ calls') = M.run (M.run s calls) calls' := by
  induction calls generalizing s with
  | nil => simp
  | cons call calls ih => simp [ih]

theorem allowed_append (calls calls' : List Call) :
    M.Allowed allowed s (calls ++ calls') ↔
      M.Allowed allowed s calls ∧ M.Allowed allowed (M.run s calls) calls' := by
  induction calls generalizing s with
  | nil => simp
  | cons call calls ih => simp [ih, and_assoc]

theorem run_invariant (inv : State → Prop)
    (hstep : ∀ s call, inv s → allowed s call → inv (M.step s call).1)
    {s : State} {calls : List Call} (hinv : inv s) (hallowed : M.Allowed allowed s calls) :
    inv (M.run s calls) := by
  induction calls generalizing s with
  | nil => simpa using hinv
  | cons call calls ih =>
    rw [allowed_cons] at hallowed
    exact ih (hstep s call hinv hallowed.1) hallowed.2

theorem allowed_iff (calls : List Call) :
    M.Allowed allowed s calls ↔
      ∀ earlier call, earlier ++ [call] <+: calls → allowed (M.run s earlier) call := by
  induction calls generalizing s with
  | nil => simp
  | cons first calls ih =>
    rw [allowed_cons, ih]
    constructor
    · rintro ⟨hfirst, hrest⟩ earlier call hearlier
      cases earlier with
      | nil =>
        have : call = first := by simpa using hearlier
        simpa [this] using hfirst
      | cons first' earlier =>
        rw [List.cons_append, List.cons_prefix_cons] at hearlier
        simpa [hearlier.1] using hrest earlier call hearlier.2
    · intro h
      exact ⟨h [] first (by simp), fun earlier call hearlier =>
        h (first :: earlier) call (by simpa using hearlier)⟩

theorem allowed_of_forced {inv good : State → Prop}
    (hstep : ∀ s call, inv s → allowed s call → inv (M.step s call).1)
    (hforced : ∀ s call, inv s → good (M.step s call).1 → allowed s call)
    {s : State} (hinv : inv s) {calls : List Call}
    (hgood : ∀ earlier call, earlier ++ [call] <+: calls → good (M.run s (earlier ++ [call]))) :
    M.Allowed allowed s calls := by
  induction calls generalizing s with
  | nil => exact allowed_nil s
  | cons call calls ih =>
    have hfirst := hforced s call hinv (hgood [] call (by simp))
    refine ⟨hfirst, ih (hstep s call hinv hfirst) fun earlier next hearlier => ?_⟩
    exact hgood (call :: earlier) next (by simpa using hearlier)

theorem forall_prefix_iff {good : List Call → Prop} {s : State} (hnil : good [])
    (hstep : ∀ earlier call, good earlier → (good (earlier ++ [call]) ↔
      allowed (M.run s earlier) call))
    (calls : List Call) :
    (∀ earlier, earlier <+: calls → good earlier) ↔ M.Allowed allowed s calls := by
  induction calls using List.reverseRecOn with
  | nil => simpa using hnil
  | append_singleton calls call ih =>
    rw [allowed_append, ← ih, allowed_cons]
    constructor
    · intro h
      have hbefore : ∀ earlier, earlier <+: calls → good earlier :=
        fun earlier he => h earlier (he.trans (List.prefix_append ..))
      exact ⟨hbefore, (hstep calls call (hbefore calls List.prefix_rfl)).mp (h _ List.prefix_rfl),
        allowed_nil _⟩
    · rintro ⟨hbefore, hcall, -⟩ earlier he
      obtain rfl | he := List.prefix_concat_iff.mp he
      · exact (hstep calls call (hbefore calls List.prefix_rfl)).mpr hcall
      · exact hbefore earlier he

end CallMachine

end EuroOS
