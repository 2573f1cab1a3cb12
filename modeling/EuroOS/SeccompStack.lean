import EuroOS.SeccompFilter

/-!
# Stacks of seccomp filters

All installed filters are run, newest first, and the strongest return value wins.
Two tables interpret a return value: `precedence` compares it with others, and
`actionOf` says what the kernel does.  They agree on the defined actions.  An
undefined action wins like a kill, and is then carried out as `ENOSYS`.
-/

namespace EuroOS

open List

namespace Bpf

abbrev retKillThread : UInt32 := 0x00000000
abbrev retTrap : UInt32 := 0x00030000
abbrev retErrno : UInt32 := 0x00050000
abbrev retUserNotif : UInt32 := 0x7fc00000
abbrev retTrace : UInt32 := 0x7ff00000
abbrev retLog : UInt32 := 0x7ffc0000
abbrev retAllow : UInt32 := 0x7fff0000
abbrev retActionFull : UInt32 := 0xffff0000
abbrev retData : UInt32 := 0x0000ffff

def precedence (ret : UInt32) : Nat :=
  let action := ret &&& retActionFull
  if action = retKillProcess then 0
  else if action = retKillThread then 1
  else if action = retTrap then 2
  else if action = retErrno then 3
  else if action = retUserNotif then 4
  else if action = retTrace then 5
  else if action = retLog then 6
  else if action = retAllow then 7
  else 0

/-- The stronger of two return values; the one that was there first on a tie. -/
def stronger (best ret : UInt32) : UInt32 := if precedence ret < precedence best then ret else best

def verdicts (filters : List Filter) (data : SeccompData) : List UInt32 :=
  filters.reverse.map (·.run data)

def strongest (rets : List UInt32) : UInt32 := rets.foldl stronger retAllow

def evaluate (filters : List Filter) (data : SeccompData) : UInt32 :=
  strongest (verdicts filters data)

inductive Action
  | allow
  | log
  | errno (e : UInt16)
  | trap
  | killThread
  | killProcess
  | enosys
  deriving DecidableEq

def actionOf (ret : UInt32) : Action :=
  let action := ret &&& retActionFull
  if action = retAllow then .allow
  else if action = retLog then .log
  else if action = retErrno then .errno (ret &&& retData).toUInt16
  else if action = retTrap then .trap
  else if action = retKillThread then .killThread
  else if action = retKillProcess then .killProcess
  else .enosys

/-- The order of the actions, the most restrictive first.  The place of a trace, 4, stays free:
without a tracer it is carried out as `ENOSYS`. -/
def Action.rank : Action → Nat
  | .killProcess => 0
  | .killThread => 1
  | .trap => 2
  | .errno _ | .enosys => 3
  | .log => 5
  | .allow => 6

def Undefined (ret : UInt32) : Prop :=
  ret &&& retActionFull ∉ [retKillProcess, retKillThread, retTrap, retErrno, retUserNotif, retTrace,
    retLog, retAllow]

/-! ## The two tables -/

theorem precedence_of_undefined (h : Undefined ret) :
    precedence ret = 0 ∧ actionOf ret = .enosys := by
  simp only [Undefined, mem_cons, not_mem_nil, or_false, not_or] at h
  simp [precedence, actionOf, h]

theorem precedence_of_defined (h : ¬ Undefined ret) : (precedence ret, (actionOf ret).rank) ∈
      [(0, 0), (1, 1), (2, 2), (3, 3), (4, 3), (5, 3), (6, 5), (7, 6)] := by
  simp only [Undefined, not_not, mem_cons, not_mem_nil, or_false] at h
  rcases h with h | h | h | h | h | h | h | h <;>
    simp +decide [precedence, actionOf, Action.rank, h]

theorem precedence_le (ret : UInt32) : precedence ret ≤ 7 := by
  unfold precedence
  dsimp only
  split_ifs <;> omega

theorem rank_mono (h : ¬ Undefined ret) (hle : precedence ret ≤ precedence best) :
    (actionOf ret).rank ≤ (actionOf best).rank := by
  have hret := precedence_of_defined h
  by_cases hbest : Undefined best
  · obtain ⟨hzero, haction⟩ := precedence_of_undefined hbest
    simp only [mem_cons, Prod.mk.injEq, not_mem_nil, or_false] at hret
    omega
  · have hbest' := precedence_of_defined hbest
    simp only [mem_cons, Prod.mk.injEq, not_mem_nil, or_false] at hret hbest'
    omega

theorem actionOf_eq_killProcess_iff (h : precedence ret = 0) :
    actionOf ret = .killProcess ↔ ¬ Undefined ret := by
  constructor
  · intro haction hundefined
    simp [(precedence_of_undefined hundefined).2] at haction
  · intro hdefined
    have hrank := precedence_of_defined hdefined
    simp only [h, mem_cons, Prod.mk.injEq, not_mem_nil, or_false] at hrank
    cases haction : actionOf ret <;> simp_all [Action.rank]

/-! ## The fold over the stack -/

theorem precedence_retAllow : precedence retAllow = 7 := by decide

theorem precedence_stronger (best ret : UInt32) :
    precedence (stronger best ret) = min (precedence ret) (precedence best) := by
  unfold stronger
  split <;> omega

theorem foldl_stronger (best : UInt32) (rets : List UInt32) :
    rets.foldl stronger best = stronger best (strongest rets) := by
  have hallow := precedence_retAllow
  unfold strongest
  induction rets generalizing best with
  | nil =>
    have hle := precedence_le best
    rw [foldl_nil, foldl_nil, stronger, if_neg (by omega)]
  | cons ret rets ih =>
    rw [foldl_cons, foldl_cons, ih, ih (stronger retAllow ret)]
    -- a value that `retAllow` is kept over is as weak as `retAllow`
    have hbest := precedence_le best
    unfold stronger
    split_ifs <;> first | rfl | omega

theorem strongest_cons (ret : UInt32) (rets : List UInt32) :
    strongest (ret :: rets) = stronger (stronger retAllow ret) (strongest rets) := by
  rw [strongest, foldl_cons, foldl_stronger]

theorem le_precedence_strongest_iff (hn : n ≤ 7) (rets : List UInt32) :
    n ≤ precedence (strongest rets) ↔ ∀ ret ∈ rets, n ≤ precedence ret := by
  have hallow := precedence_retAllow
  induction rets with
  | nil => simpa [strongest, hallow] using hn
  | cons ret rets ih =>
    rw [strongest_cons, precedence_stronger, precedence_stronger, forall_mem_cons]
    constructor
    · intro h
      exact ⟨by omega, ih.mp (by omega)⟩
    · rintro ⟨hret, hrest⟩
      have hstrongest := ih.mpr hrest
      omega

theorem strongest_mem (rets : List UInt32) : strongest rets ∈ retAllow :: rets := by
  induction rets with
  | nil => simp [strongest]
  | cons ret rets ih =>
    rw [strongest_cons, stronger, stronger]
    rcases mem_cons.mp ih with hallow | hmem
    · split_ifs <;> simp [hallow]
    · split_ifs <;> simp [hmem]

def firstKill (rets : List UInt32) : Option UInt32 := rets.find? fun ret => precedence ret = 0

theorem strongest_of_firstKill (h : firstKill rets = some ret) : strongest rets = ret := by
  have hallow := precedence_retAllow
  unfold firstKill at h
  induction rets with
  | nil => simp at h
  | cons first rets ih =>
    rw [strongest_cons]
    by_cases hfirst : precedence first = 0
    · rw [find?_cons_of_pos (by simpa using hfirst), Option.some.injEq] at h
      subst h
      simp [stronger, hfirst, hallow]
    rw [find?_cons_of_neg (by simpa using hfirst)] at h
    have hzero : precedence ret = 0 := by simpa using find?_some h
    have hweaker : precedence ret < precedence (stronger retAllow first) := by
      rw [precedence_stronger]
      omega
    rw [ih h, stronger, if_pos hweaker]

theorem evaluate_append (filters : List Filter) (new : Filter) (data : SeccompData) :
    evaluate (filters ++ [new]) data =
      stronger (stronger retAllow (new.run data)) (evaluate filters data) := by
  have hverdicts : verdicts (filters ++ [new]) data = new.run data :: verdicts filters data := by
    simp [verdicts]
  rw [evaluate, hverdicts, strongest_cons, evaluate]

theorem mem_verdicts : ret ∈ verdicts filters data ↔ ∃ f ∈ filters, f.run data = ret := by
  simp [verdicts]

/-- An undefined action weakens the stack unless it already acts on an undefined one, or nothing in
it kills or traps. -/
theorem three_le_rank_evaluate_iff (filters : List Filter) (data : SeccompData) :
    3 ≤ (actionOf (evaluate filters data)).rank ↔
      (∃ ret, firstKill (verdicts filters data) = some ret ∧ Undefined ret) ∨
        ∀ f ∈ filters, 3 ≤ precedence (f.run data) := by
  have hweak : (∀ f ∈ filters, 3 ≤ precedence (f.run data)) ↔
      3 ≤ precedence (evaluate filters data) := by
    rw [evaluate, le_precedence_strongest_iff (by omega)]
    simp [verdicts]
  rw [hweak]
  cases hkill : firstKill (verdicts filters data) with
  | some ret =>
    have hzero : precedence ret = 0 := by simpa using find?_some hkill
    have hret : evaluate filters data = ret := strongest_of_firstKill hkill
    rw [hret]
    by_cases hundefined : Undefined ret
    · simp [precedence_of_undefined hundefined, Action.rank, hundefined]
    · simp [(actionOf_eq_killProcess_iff hzero).mpr hundefined, Action.rank, hundefined, hzero]
  | none =>
    -- nothing wins like a kill, so the winner is a defined action
    have hpos : 1 ≤ precedence (evaluate filters data) := by
      rw [evaluate, le_precedence_strongest_iff (by omega)]
      intro ret hret
      have hnot := find?_eq_none.mp hkill ret hret
      simp only [decide_eq_true_eq] at hnot
      omega
    have hdefined : ¬ Undefined (evaluate filters data) := by
      intro hundefined
      have hzero := (precedence_of_undefined hundefined).1
      omega
    have hranks := precedence_of_defined hdefined
    simp only [mem_cons, Prod.mk.injEq, not_mem_nil, or_false] at hranks
    simp only [reduceCtorEq, false_and, exists_false, false_or]
    omega

/-- A further filter keeps the stack at least as restrictive unless it returns an undefined action
over a stack that kills or traps; and a filter that returns `KILL_PROCESS` decides unless a newer one
returns an undefined action. -/
theorem evaluate_restricts_iff (filters : List Filter) (new : Filter) (data : SeccompData) :
    ((actionOf (evaluate (filters ++ [new]) data)).rank ≤
        (actionOf (evaluate filters data)).rank ↔
      (Undefined (new.run data) →
        (∃ ret, firstKill (verdicts filters data) = some ret ∧ Undefined ret) ∨
          ∀ f ∈ filters, 3 ≤ precedence (f.run data))) ∧
    (((∃ f ∈ filters, f.run data &&& retActionFull = retKillProcess) →
        actionOf (evaluate filters data) = .killProcess) ↔
      ((∃ f ∈ filters, f.run data &&& retActionFull = retKillProcess) →
        ∃ ret, firstKill (verdicts filters data) = some ret ∧ ¬ Undefined ret)) := by
  constructor
  · rw [evaluate_append]
    by_cases hundefined : Undefined (new.run data)
    · obtain ⟨hzero, haction⟩ := precedence_of_undefined hundefined
      have hallow := precedence_retAllow
      have hnew : stronger (stronger retAllow (new.run data)) (evaluate filters data) =
          new.run data := by simp [stronger, hzero, hallow]
      rw [hnew, haction, ← three_le_rank_evaluate_iff]
      simp [hundefined, Action.rank]
    · simp only [hundefined, false_imp_iff, iff_true]
      by_cases hold : precedence (evaluate filters data) <
          precedence (stronger retAllow (new.run data))
      · rw [stronger, if_pos hold]
      rw [stronger, if_neg hold]
      refine rank_mono ?_ (by omega)
      rw [stronger]
      split
      · exact hundefined
      · simp +decide [Undefined]
  · refine imp_congr_right fun ⟨f, hf, hkill⟩ => ?_
    have hzero : precedence (f.run data) = 0 := by simp [precedence, hkill]
    have hsome : (firstKill (verdicts filters data)).isSome := by
      rw [firstKill, find?_isSome]
      exact ⟨f.run data, mem_verdicts.mpr ⟨f, hf, rfl⟩, by simpa using hzero⟩
    obtain ⟨ret, hret⟩ := Option.isSome_iff_exists.mp hsome
    have hretZero : precedence ret = 0 := by simpa using find?_some hret
    have hwinner : evaluate filters data = ret := strongest_of_firstKill hret
    rw [hwinner, actionOf_eq_killProcess_iff hretZero, hret]
    simp

def constFilter (ret : UInt32) : Filter where
  insns := [⟨0x06, 0, 0, ret⟩]
  valid := by simp +decide [validate, checkFrom, checkInsn, Insn.cls]

theorem run_constFilter (ret : UInt32) (data : SeccompData) : (constFilter ret).run data = ret := by
  simp +decide [Filter.run, Filter.ending, constFilter, loop, step, execute, Insn.cls,
    Machine.initial, Ending.verdict]

/-- The undefined action `0x00010000` turns a killed thread, and even a killed process, into a
failed call. -/
theorem undefined_action_weakens : ∃ data : SeccompData,
    actionOf (evaluate [constFilter retKillThread] data) = .killThread ∧
      actionOf (evaluate [constFilter retKillThread, constFilter 0x00010000] data) = .enosys ∧
      actionOf (evaluate [constFilter retKillProcess, constFilter 0x00010000] data) = .enosys := by
  refine ⟨⟨0, 0, 0, Vector.replicate 6 0⟩, ?_⟩
  simp only [evaluate, verdicts, reverse_cons, reverse_nil, nil_append,
    cons_append, map_cons, map_nil, run_constFilter]
  decide

/-- Among filters that return defined actions only, neither order nor repetition counts, and more
filters restrict more. -/
theorem rank_evaluate_of_subset (hsub : filters ⊆ filters') (data : SeccompData)
    (hdefined : ∀ f ∈ filters', ¬ Undefined (f.run data)) :
    (actionOf (evaluate filters' data)).rank ≤ (actionOf (evaluate filters data)).rank := by
  refine rank_mono ?_ ?_
  · rcases mem_cons.mp (strongest_mem (verdicts filters' data)) with hallow | hmem
    · rw [evaluate, hallow]
      simp +decide [Undefined]
    · obtain ⟨f, hf, hrun⟩ := mem_verdicts.mp hmem
      rw [evaluate, ← hrun]
      exact hdefined f hf
  · refine (le_precedence_strongest_iff (precedence_le _) _).mpr fun ret hret => ?_
    obtain ⟨f, hf, hrun⟩ := mem_verdicts.mp hret
    exact (le_precedence_strongest_iff (precedence_le _) _).mp le_rfl ret
      (mem_verdicts.mpr ⟨f, hsub hf, hrun⟩)

theorem rank_evaluate_swapped : ∃ data,
    (actionOf (evaluate [constFilter retTrap, constFilter retAllow] data)).rank ≤
      (actionOf (evaluate [constFilter retAllow, constFilter retTrap] data)).rank :=
  ⟨⟨0, 0, 0, Vector.replicate 6 0⟩,
    rank_evaluate_of_subset (by simp) _ (by simp +decide [Undefined])⟩

end Bpf

end EuroOS
