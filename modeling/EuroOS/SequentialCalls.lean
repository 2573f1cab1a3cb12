import EuroOS.Interleaving
import EuroOS.CallMachine

/-!
# Calls of sections made one after the other

A call that is not interrupted runs its sections to the end.  When every such
call ends in one way, and that way follows a machine with one step per call,
sequences of calls return what the machine returns.
-/

namespace EuroOS

namespace Sections

variable {P : Sections}

inductive Finishes (P : Sections) : P.Point → P.Shared → P.Result → P.Shared → Prop
  | last {point : P.Point} {s s' : P.Shared} {r : P.Result} (choice : P.Choice)
      (h : P.advance choice point s = (.inr r, s')) : Finishes P point s r s'
  | next {point point' : P.Point} {s s₁ s' : P.Shared} {r : P.Result} (choice : P.Choice)
      (h : P.advance choice point s = (.inl point', s₁)) (rest : Finishes P point' s₁ r s') :
      Finishes P point s r s'

inductive Sequence (P : Sections) : P.Shared → List P.Call → List P.Result → P.Shared → Prop
  | nil (s : P.Shared) : Sequence P s [] [] s
  | cons {call : P.Call} {calls : List P.Call} {r : P.Result} {rs : List P.Result}
      {s s₁ s' : P.Shared} (first : Finishes P (P.enter call) s r s₁)
      (rest : Sequence P s₁ calls rs s') : Sequence P s (call :: calls) (r :: rs) s'

theorem finishes_iff_of_result (P : Sections) [Nonempty P.Choice] {point : P.Point}
    {s s₁ s' : P.Shared} {r r' : P.Result}
    (h : ∀ choice, P.advance choice point s = (.inr r', s₁)) :
    P.Finishes point s r s' ↔ r = r' ∧ s' = s₁ := by
  constructor
  · intro hfin
    cases hfin with
    | last choice hlast =>
      rw [h choice, Prod.mk.injEq, Sum.inr.injEq] at hlast
      exact ⟨hlast.1.symm, hlast.2.symm⟩
    | next choice hnext => simp [h choice] at hnext
  · rintro ⟨rfl, rfl⟩
    exact .last (Classical.arbitrary _) (h _)

theorem finishes_iff_of_point (P : Sections) [Nonempty P.Choice] {point point' : P.Point}
    {s s₁ s' : P.Shared} {r : P.Result}
    (h : ∀ choice, P.advance choice point s = (.inl point', s₁)) :
    P.Finishes point s r s' ↔ P.Finishes point' s₁ r s' := by
  constructor
  · intro hfin
    cases hfin with
    | last choice hlast => simp [h choice] at hlast
    | next choice hnext rest =>
      rw [h choice, Prod.mk.injEq, Sum.inl.injEq] at hnext
      obtain ⟨rfl, rfl⟩ := hnext
      exact rest
  · exact .next (Classical.arbitrary _) (h _)

section refinement

variable {State Request : Type} {M : CallMachine State Request P.Result}
  {call : Request → P.Call} {R : P.Shared → State → Prop}

theorem sequence_iff
    (hstep : ∀ s a req, R s a → ∃ s₁, R s₁ (M.step a req).1 ∧
      ∀ r s', P.Finishes (P.enter (call req)) s r s' ↔ r = (M.step a req).2 ∧ s' = s₁)
    (h : R s a) (reqs : List Request) (rs : List P.Result) :
    (∃ s', P.Sequence s (reqs.map call) rs s') ↔ rs = M.results a reqs := by
  induction reqs generalizing s a rs with
  | nil =>
    constructor
    · rintro ⟨s', hseq⟩
      cases hseq
      rfl
    · rintro rfl
      exact ⟨s, .nil s⟩
  | cons req reqs ih =>
    obtain ⟨s₁, hafter, hfin⟩ := hstep s a req h
    constructor
    · rintro ⟨s', hseq⟩
      cases hseq with
      | cons first rest =>
        obtain ⟨rfl, rfl⟩ := (hfin _ _).mp first
        rw [(ih hafter _).mp ⟨s', rest⟩]
        rfl
    · rintro rfl
      obtain ⟨s', hrest⟩ := (ih hafter _).mpr rfl
      exact ⟨s', .cons ((hfin _ _).mpr ⟨rfl, rfl⟩) hrest⟩

end refinement

end Sections

end EuroOS
