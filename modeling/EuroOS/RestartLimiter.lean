import EuroOS.CallMachine

/-!
# The restart limiter of a driver

`Tracker::on_death` of `eurodrv` keeps at most sixteen deaths, and of those in the
window the oldest.  As long as no window holds more, what it keeps is the window
itself; beyond that the later deaths are missing once the oldest have aged out.
-/

namespace EuroOS.Restart

open List

structure Policy where
  maxRestarts : Nat
  windowTicks : Nat
  backoffTicks : Nat
  maxBackoffTicks : Nat

inductive Decision where
  | restartAt (tick : Nat)
  | giveUp
  deriving DecidableEq

def u64Max : Nat := 2 ^ 64 - 1

def keepLen : Nat := 16

variable (p : Policy) (earlier : List Nat) (now : Nat)

def answer (k : Nat) : Decision :=
  if k > p.maxRestarts then .giveUp
  else
    let exp := min (k - 1) 32
    let delay := if exp = 0 then 0 else
      min (min (p.backoffTicks * 2 ^ (exp - 1)) u64Max) p.maxBackoffTicks
    .restartAt (min (now + delay) u64Max)

/-- The tracker is the list of the deaths it holds. -/
def onDeath (deaths : List Nat) (now : Nat) : List Nat × Decision :=
  let since := now - p.windowTicks
  let keep := (deaths.filter (since ≤ ·)).take (keepLen - 1) ++ [now]
  (keep, answer p now keep.length)

def tracker : CallMachine (List Nat) Nat Decision := ⟨onDeath p⟩

/-! ## The sliding window -/

def inWindow : List Nat := earlier.filter fun death => now ≤ death + p.windowTicks

def backoff (further : Nat) : Nat :=
  if further = 0 then 0 else min (p.backoffTicks * 2 ^ (further - 1)) p.maxBackoffTicks

def expected : Decision :=
  if (inWindow p earlier now).length + 1 > p.maxRestarts then .giveUp
  else .restartAt (now + backoff p (inWindow p earlier now).length)

variable {p earlier now}

/-- No window that ends with a death holds more deaths than the tracker keeps. -/
def Sparse (p : Policy) (times : List Nat) : Prop :=
  ∀ earlier now, earlier ++ [now] <+: times → (inWindow p earlier now).length < keepLen

/-- The tracker holds every death that a later window can see. -/
theorem kept_eq (hsorted : earlier.Pairwise (· ≤ ·)) (hsparse : Sparse p earlier)
    (hlater : ∀ death ∈ earlier, death ≤ now) :
    ((tracker p).run [] earlier).filter (now - p.windowTicks ≤ ·) = inWindow p earlier now := by
  induction earlier using reverseRecOn generalizing now with
  | nil => rfl
  | append_singleton earlier last ih =>
    rw [pairwise_append] at hsorted
    rw [forall_mem_append, forall_mem_singleton] at hlater
    have hkept := ih hsorted.1 (fun a t h => hsparse a t (h.trans (prefix_append _ _)))
      (hsorted.2.2 · · last mem_cons_self)
    rw [CallMachine.run_append]
    simp only [CallMachine.run_cons, CallMachine.run_nil, tracker]
    rw [← tracker, onDeath, hkept,
      take_of_length_le (Nat.le_sub_one_of_lt (hsparse earlier last prefix_rfl)), inWindow,
      inWindow, filter_append, filter_append, filter_filter]
    congr 1 <;> refine filter_congr fun death hdeath => Bool.eq_iff_iff.mpr ?_ <;>
      simp only [Bool.and_eq_true, decide_eq_true_eq] <;> omega

theorem answer_eq (hn : n < keepLen) (hfit : now + p.maxBackoffTicks < 2 ^ 64) :
    answer p now (n + 1) =
      if n + 1 > p.maxRestarts then .giveUp else .restartAt (now + backoff p n) := by
  have hexp : min n 32 = n := Nat.min_eq_left (hn.le.trans (by decide))
  have hcap (x : Nat) : min (min x u64Max) p.maxBackoffTicks = min x p.maxBackoffTicks := by
    rw [u64Max]
    omega
  have hback : backoff p n ≤ p.maxBackoffTicks := by
    rw [backoff]
    split <;> simp
  simp only [answer, Nat.add_sub_cancel, hexp, hcap]
  rw [← backoff, Nat.min_eq_left (by rw [u64Max]; omega)]

theorem decisions_exact {times : List Nat} (hsorted : times.Pairwise (· ≤ ·))
    (hsparse : Sparse p times) (hticks : ∀ t ∈ times, t + p.maxBackoffTicks < 2 ^ 64) :
    ∀ earlier now, earlier ++ [now] <+: times →
      ((tracker p).step ((tracker p).run [] earlier) now).2 = expected p earlier now := by
  intro earlier now hpre
  have hpair := pairwise_append.1 (hsorted.sublist hpre.sublist)
  have hkept := kept_eq hpair.1
    (fun a t h => hsparse a t (h.trans ((prefix_append _ _).trans hpre)))
    (hpair.2.2 · · now mem_cons_self)
  have hfew := hsparse earlier now hpre
  have hfit := hticks now (hpre.subset (by simp))
  simp only [tracker, onDeath]
  rw [← tracker, hkept, take_of_length_le (Nat.le_sub_one_of_lt hfew), length_append, expected]
  exact answer_eq hfew hfit

def samplePolicy : Policy := ⟨5, 100, 2, 200⟩

theorem decisions_exact_aged :
    ((tracker samplePolicy).step ((tracker samplePolicy).run [] [0, 50]) 120).2 =
      expected samplePolicy [0, 50] 120 :=
  @decisions_exact samplePolicy [0, 50, 120] (by decide)
    (fun earlier now h => (length_filter_le _ _).trans_lt (Nat.lt_of_succ_le
      ((length_append ▸ h.length_le).trans (by decide)))) (by decide) [0, 50] 120 prefix_rfl

def crashLoop : List Nat := replicate 15 0 ++ replicate 10 90

theorem crashLoop_restarted :
    ((tracker samplePolicy).step ((tracker samplePolicy).run [] crashLoop) 150).2 =
        .restartAt 152 ∧
      expected samplePolicy crashLoop 150 = .giveUp := by decide

end EuroOS.Restart
