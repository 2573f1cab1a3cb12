import Mathlib.Tactic

/-!
# Programs over a set of commands

A program is a tree of commands: each node names a command and says how to
continue with its answer.  A handler gives the commands a meaning on a state
type, and `run` executes a program under it.  What is proved about a handler one
command at a time (an invariant, a simulation) then holds for every program.

Errors are ordinary answers of a command, so a program can catch them.  A command
may also stop the machine for good.
-/

namespace EuroOS

@[simp] theorem ok_bind {ε α β : Type} (a : α) (f : α → Except ε β) : (Except.ok a >>= f) = f a :=
  rfl

@[simp] theorem error_bind {ε α β : Type} (e : ε) (f : α → Except ε β) :
    (Except.error e >>= f) = .error e := rfl

structure Signature where
  Cmd : Type
  Err : Type
  Ans : Cmd → Type

/-- The two ways in which a run has no result.  `halted` is a program that does
not return (a panic, an endless loop); `lost` marks a step that a handler gives
no meaning to. -/
inductive Stop
  | halted
  | lost
  deriving DecidableEq

inductive Tree (S : Signature) (α : Type) : Type
  | pure (a : α)
  | stop (reason : Stop)
  | call (cmd : S.Cmd) (next : Except S.Err (S.Ans cmd) → Tree S α)

namespace Tree

variable {S : Signature} {α β γ : Type}

def bind : Tree S α → (α → Tree S β) → Tree S β
  | .pure a, f => f a
  | .stop reason, _ => .stop reason
  | .call cmd next, f => .call cmd fun answer => (next answer).bind f

instance : Monad (Tree S) where
  pure := Tree.pure
  bind := Tree.bind

end Tree

abbrev Program (S : Signature) (α : Type) := ExceptT S.Err (Tree S) α

abbrev Handler (S : Signature) (σ : Type) :=
  (cmd : S.Cmd) → σ → Except Stop (Except S.Err (S.Ans cmd) × σ)

namespace Program

variable {S : Signature} {α β : Type}

def call (cmd : S.Cmd) : Program S (S.Ans cmd) :=
  ExceptT.mk (.call cmd .pure)

def stop (reason : Stop) : Program S α :=
  ExceptT.mk (.stop reason)

def attempt (x : Program S α) : Program S (Except S.Err α) :=
  ExceptT.mk (x.run.bind fun outcome => .pure (.ok outcome))

end Program

section Run

variable {S : Signature} {σ τ α β : Type}

def runTree (h : Handler S σ) : Tree S α → σ → Except Stop (α × σ)
  | .pure a, s => .ok (a, s)
  | .stop reason, _ => .error reason
  | .call cmd next, s =>
    match h cmd s with
    | .error reason => .error reason
    | .ok (answer, s') => runTree h (next answer) s'

def run (h : Handler S σ) (x : Program S α) (s : σ) :
    Except Stop (Except S.Err α × σ) :=
  runTree h x.run s

/-! ## Rules for whole programs -/

def Tree.Meets (h : Handler S σ) (P : S.Cmd → σ → Prop) : Tree S α → σ → Prop
  | .pure _, _ => True
  | .stop _, _ => True
  | .call cmd next, s =>
    P cmd s ∧
      match h cmd s with
      | .error _ => True
      | .ok (answer, s') => (next answer).Meets h P s'

def Meets (h : Handler S σ) (P : S.Cmd → σ → Prop) (x : Program S α) (s : σ) : Prop :=
  x.run.Meets h P s

variable {h : Handler S σ} {P : S.Cmd → σ → Prop} {inv : σ → Prop} {s s' : σ}
  {result : Except S.Err α}

theorem run_preserves_of_meets
    (hstep : ∀ cmd s answer s', inv s → P cmd s → h cmd s = .ok (answer, s') → inv s')
    (hinv : inv s) (hmeets : Meets h P x s) (hrun : run h x s = .ok (result, s')) : inv s' := by
  unfold Meets at hmeets
  unfold run at hrun
  generalize x.run = tree at hmeets hrun
  induction tree generalizing s with
  | pure a =>
    simp only [runTree, Except.ok.injEq, Prod.mk.injEq] at hrun
    exact hrun.2 ▸ hinv
  | stop reason => simp [runTree] at hrun
  | call cmd next ih =>
    simp only [runTree] at hrun
    simp only [Tree.Meets] at hmeets
    cases hcmd : h cmd s with
    | error reason => simp [hcmd] at hrun
    | ok answer =>
      rw [hcmd] at hrun hmeets
      exact ih answer.1 (hstep cmd s answer.1 answer.2 hinv hmeets.1 hcmd) hmeets.2 hrun

/-- A sequence of programs run one after the other, whatever each of them returns,
whose commands meet `P`. -/
inductive CallSequence {Op : Type} (h : Handler S σ) (P : S.Cmd → σ → Prop)
    (program : Op → Program S α) (s : σ) : List Op → σ → Prop
  | start : CallSequence h P program s [] s
  | step {ops : List Op} {s' s'' : σ} {op : Op} {result : Except S.Err α}
      (before : CallSequence h P program s ops s') (meets : Meets h P (program op) s')
      (runs : run h (program op) s' = .ok (result, s'')) :
      CallSequence h P program s (ops ++ [op]) s''

theorem CallSequence.preserves {Op : Type} {program : Op → Program S α}
    (hstep : ∀ cmd s answer s', inv s → P cmd s → h cmd s = .ok (answer, s') → inv s')
    {ops : List Op} (hsession : CallSequence h P program s ops s') (hinv : inv s) : inv s' := by
  induction hsession with
  | start => exact hinv
  | step before meets runs ih => exact run_preserves_of_meets hstep ih meets runs

theorem meets_of_invariant (hstep : ∀ cmd s answer s', inv s → h cmd s = .ok (answer, s') → inv s')
    (hmeets : ∀ cmd s, inv s → P cmd s) (x : Program S α) (hinv : inv s) : Meets h P x s := by
  unfold Meets
  generalize x.run = tree
  induction tree generalizing s with
  | pure a => trivial
  | stop reason => trivial
  | call cmd next ih =>
    rw [Tree.Meets]
    refine ⟨hmeets cmd s hinv, ?_⟩
    split
    · trivial
    · rename_i answer s' heq
      exact ih answer (hstep cmd s answer s' hinv heq)

theorem run_preserves (hstep : ∀ cmd s answer s', inv s → h cmd s = .ok (answer, s') → inv s')
    (hinv : inv s) (hrun : run h x s = .ok (result, s')) : inv s' :=
  run_preserves_of_meets (fun cmd s answer s' hs _ => hstep cmd s answer s' hs) hinv
    (meets_of_invariant hstep (fun _ _ _ => trivial) x hinv) hrun

/-! ### Programs of one command -/

theorem run_tree_map_call (cmd : S.Cmd) (f : S.Ans cmd → α) :
    (f <$> (Program.call cmd : Program S (S.Ans cmd))).run =
      .call cmd fun answer => .pure (f <$> answer) := by
  change Tree.call cmd _ = _
  congr 1
  funext answer
  cases answer <;> rfl

theorem meets_map_call (f : S.Ans cmd → α) (hmeets : P cmd s) :
    Meets h P (f <$> (Program.call cmd : Program S (S.Ans cmd))) s := by
  rw [Meets, run_tree_map_call, Tree.Meets]
  refine ⟨hmeets, ?_⟩
  split <;> trivial

theorem run_map_call_eq_ok {cmd : S.Cmd} {f : S.Ans cmd → α}
    (hrun : run h (f <$> (Program.call cmd : Program S (S.Ans cmd))) s = .ok (result, s')) :
    ∃ answer, h cmd s = .ok (answer, s') := by
  rw [run, run_tree_map_call, runTree] at hrun
  split at hrun
  · cases hrun
  rename_i answer s₁ heq
  cases hrun
  exact ⟨answer, heq⟩

def runCalls {Op : Type} (h : Handler S σ) (program : Op → Program S α) :
    List Op → σ → Except Stop σ
  | [], s => .ok s
  | op :: ops, s =>
    match run h (program op) s with
    | .ok (_, s') => runCalls h program ops s'
    | .error reason => .error reason

theorem CallSequence.runCalls {Op : Type} {program : Op → Program S α}
    (hstep : ∀ cmd s answer s', inv s → h cmd s = .ok (answer, s') → inv s')
    (hmeets : ∀ cmd s, inv s → P cmd s) {s'' : σ} {before ops : List Op}
    (hbefore : CallSequence h P program s before s') (hinv : inv s')
    (hrun : EuroOS.runCalls h program ops s' = .ok s'') :
    CallSequence h P program s (before ++ ops) s'' := by
  induction ops generalizing before s' with
  | nil =>
    simp only [EuroOS.runCalls, Except.ok.injEq] at hrun
    rw [List.append_nil, ← hrun]
    exact hbefore
  | cons op ops ih =>
    simp only [EuroOS.runCalls] at hrun
    split at hrun
    · rename_i result middle hop
      have hnext : CallSequence h P program s (before ++ [op]) middle :=
        .step hbefore (meets_of_invariant hstep hmeets (program op) hinv) hop
      have hrest := ih hnext (run_preserves hstep hinv hop) hrun
      rwa [List.append_assoc] at hrest
    · cases hrun

end Run

end EuroOS
