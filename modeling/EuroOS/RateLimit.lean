import EuroOS.CallMachine

/-!
# The token bucket of the error messages

The bucket holds thousandths of a token and is refilled at each call for the time
since the call before, rounded down.  It never lets through more than it should.
What a refill rounds away is lost, so a caller that asks often enough in vain can
wait a full refill period and still be refused.
-/

namespace EuroOS

open List

structure TokenRate where
  capacity : Nat
  refillPerSec : Nat
  ticksPerSec : Nat

/-- `tokens` counts thousandths. -/
structure TokenBucket extends TokenRate where
  tokens : Nat
  lastTicks : Nat

namespace TokenBucket

def scale : Nat := 1000

def new (capacity refillPerSec ticksPerSec : Nat) : TokenBucket where
  capacity := capacity
  refillPerSec := refillPerSec
  ticksPerSec := if ticksPerSec = 0 then 1 else ticksPerSec
  tokens := capacity * scale
  lastTicks := 0

/-- What the time up to `now` is worth, before it is cut to 64 bits. -/
def earned (b : TokenBucket) (now : Nat) : Nat :=
  (now - b.lastTicks) * b.refillPerSec * scale / b.ticksPerSec

def refill (b : TokenBucket) (now : Nat) : TokenBucket :=
  if now ≤ b.lastTicks then
    if b.lastTicks = 0 then { b with lastTicks := now } else b
  else
    { b with
      tokens := min ((b.tokens + b.earned now % 2 ^ 64) % 2 ^ 64) (b.capacity * scale)
      lastTicks := now }

def allow (b : TokenBucket) (now : Nat) : TokenBucket × Bool :=
  let b := b.refill now
  if scale ≤ b.tokens then ({ b with tokens := b.tokens - scale }, true) else (b, false)

def machine : CallMachine TokenBucket Nat Bool := ⟨allow⟩

/-! ## One call -/

structure Sound (rate : TokenRate) (b : TokenBucket) : Prop where
  rate_eq : b.toTokenRate = rate
  tokens_le : b.tokens ≤ rate.capacity * scale
  ticks_pos : 0 < rate.ticksPerSec

variable {rate : TokenRate} {b : TokenBucket} {now start : Nat} {times : List Nat}

theorem sound_new (capacity refillPerSec ticksPerSec : Nat) :
    Sound (new capacity refillPerSec ticksPerSec).toTokenRate
      (new capacity refillPerSec ticksPerSec) := by
  refine ⟨rfl, le_rfl, ?_⟩
  unfold new
  dsimp only
  split_ifs <;> omega

variable (h : Sound rate b)
include h

theorem refill_spec (hnow : b.lastTicks ≤ now) :
    Sound rate (b.refill now) ∧ (b.refill now).lastTicks = now ∧
      (b.refill now).tokens ≤ b.tokens + b.earned now := by
  obtain ⟨rfl, htokens, hpos⟩ := h
  unfold refill
  split_ifs with hsame hzero
  · exact ⟨⟨rfl, htokens, hpos⟩, rfl, Nat.le_add_right ..⟩
  · exact ⟨⟨rfl, htokens, hpos⟩, by omega, Nat.le_add_right ..⟩
  refine ⟨⟨rfl, min_le_right .., hpos⟩, rfl, ?_⟩
  exact (min_le_left ..).trans (by omega)

theorem allow_spec (hnow : b.lastTicks ≤ now) :
    Sound rate (b.allow now).1 ∧ (b.allow now).1.lastTicks = now ∧
      (b.allow now).1.tokens + (if (b.allow now).2 then scale else 0) = (b.refill now).tokens := by
  obtain ⟨hsound, hlast, -⟩ := refill_spec h hnow
  by_cases hroom : scale ≤ (b.refill now).tokens
  · have hallow : b.allow now =
        ({ b.refill now with tokens := (b.refill now).tokens - scale }, true) := if_pos hroom
    rw [hallow]
    exact ⟨⟨hsound.rate_eq, (Nat.sub_le ..).trans hsound.tokens_le, hsound.ticks_pos⟩, hlast,
      Nat.sub_add_cancel hroom⟩
  · have hallow : b.allow now = (b.refill now, false) := if_neg hroom
    rw [hallow]
    exact ⟨hsound, hlast, rfl⟩

/-! ## Runs -/

theorem run_spec (hsorted : (b.lastTicks :: times).Pairwise (· ≤ ·)) :
    Sound rate (machine.run b times) ∧
      (machine.run b times).lastTicks = times.getLastD b.lastTicks := by
  induction times generalizing b with
  | nil => exact ⟨h, rfl⟩
  | cons now times ih =>
    obtain ⟨hfirst, hrest⟩ := pairwise_cons.mp hsorted
    obtain ⟨hsound, hlast, -⟩ := allow_spec h (hfirst now mem_cons_self)
    have hih := ih hsound (hlast.symm ▸ hrest)
    rw [getLastD_cons]
    rwa [hlast] at hih

theorem run_append_spec (hsorted : (b.lastTicks :: (times ++ rest)).Pairwise (· ≤ ·)) :
    Sound rate (machine.run b times) ∧
      ((machine.run b times).lastTicks :: rest).Pairwise (· ≤ ·) := by
  rw [← cons_append, pairwise_append] at hsorted
  obtain ⟨hbefore, hrest, hacross⟩ := hsorted
  obtain ⟨hsound, hlast⟩ := run_spec h hbefore
  rw [hlast]
  exact ⟨hsound, pairwise_cons.mpr ⟨hacross _ (getLastD_mem_cons ..), hrest⟩⟩

omit h in
theorem le_getLastD (hsorted : (start :: times).Pairwise (· ≤ ·)) : start ≤ times.getLastD start := by
  induction times generalizing start with
  | nil => exact le_rfl
  | cons now times ih =>
    obtain ⟨hfirst, hrest⟩ := pairwise_cons.mp hsorted
    rw [getLastD_cons]
    exact (hfirst now mem_cons_self).trans (ih hrest)

omit h in
theorem count_results_cons (b : TokenBucket) (now : Nat) (times : List Nat) :
    (machine.results b (now :: times)).count true * scale =
      (machine.results (b.allow now).1 times).count true * scale +
        if (b.allow now).2 then scale else 0 := by
  rw [CallMachine.results, count_cons, Nat.add_mul]
  cases hallowed : (b.allow now).2 <;> simp [machine, hallowed]

/-- The packets of a run cost no more than what the bucket held and the time is worth. -/
theorem count_results_le (hsorted : (b.lastTicks :: times).Pairwise (· ≤ ·)) :
    (machine.results b times).count true * scale ≤ b.tokens +
      (times.getLastD b.lastTicks - b.lastTicks) * rate.refillPerSec * scale / rate.ticksPerSec := by
  induction times generalizing b with
  | nil => simp [CallMachine.results]
  | cons now times ih =>
    obtain ⟨hfirst, hrest⟩ := pairwise_cons.mp hsorted
    have hnow := hfirst now mem_cons_self
    obtain ⟨hsound, hlast, hcost⟩ := allow_spec h hnow
    have hworth := (refill_spec h hnow).2.2
    have hih := hlast ▸ ih hsound (hlast.symm ▸ hrest)
    have hsplit : b.earned now +
        (times.getLastD now - now) * rate.refillPerSec * scale / rate.ticksPerSec ≤
          (times.getLastD now - b.lastTicks) * rate.refillPerSec * scale / rate.ticksPerSec := by
      rw [earned, h.rate_eq]
      refine (Nat.div_add_div_le_add_div ..).trans_eq ?_
      rw [← Nat.add_mul, ← Nat.add_mul]
      have := le_getLastD hrest
      congr 3
      omega
    rw [getLastD_cons, count_results_cons]
    omega

theorem withinRate (hsorted : (b.lastTicks :: first :: window).Pairwise (· ≤ ·)) :
    (machine.results b (first :: window)).count true ≤
      rate.capacity + (window.getLastD first - first) * rate.refillPerSec / rate.ticksPerSec + 1 := by
  obtain ⟨hfirst, hrest⟩ := pairwise_cons.mp hsorted
  have hnow := hfirst first mem_cons_self
  obtain ⟨hsound, hlast, hcost⟩ := allow_spec h hnow
  have hcap := (refill_spec h hnow).1.tokens_le
  have hcount := hlast ▸ count_results_le hsound (hlast.symm ▸ hrest)
  have htotal := count_results_cons b first window
  generalize (window.getLastD first - first) * rate.refillPerSec = worth at hcount ⊢
  have hwhole : worth * scale / rate.ticksPerSec < (worth / rate.ticksPerSec + 1) * scale := by
    apply Nat.div_lt_of_lt_mul
    rw [← Nat.mul_assoc]
    exact Nat.mul_lt_mul_of_pos_right (Nat.lt_mul_div_succ worth h.ticks_pos) (by decide)
  have hscaled : (machine.results b (first :: window)).count true * scale <
      (rate.capacity + worth / rate.ticksPerSec + 1) * scale := by
    rw [htotal, Nat.add_assoc rate.capacity, Nat.add_mul rate.capacity]
    omega
  exact (Nat.lt_of_mul_lt_mul_right hscaled).le

/-! ## Refills without loss -/

def Exact (b : TokenBucket) (now : Nat) : Prop :=
  b.ticksPerSec ∣ (now - b.lastTicks) * b.refillPerSec * scale ∧
    b.capacity * scale + b.earned now < 2 ^ 64

instance (b : TokenBucket) (now : Nat) : Decidable (Exact b now) :=
  inferInstanceAs (Decidable (_ ∧ _))

theorem tokens_refill (hexact : Exact b now) :
    (b.refill now).tokens = min (b.tokens + b.earned now) (rate.capacity * scale) := by
  obtain ⟨rfl, htokens, -⟩ := h
  have hfits := hexact.2
  by_cases hsame : now ≤ b.lastTicks
  · have hearned : b.earned now = 0 := by simp [earned, Nat.sub_eq_zero_of_le hsame]
    rw [hearned, Nat.add_zero, min_eq_left htokens, refill, if_pos hsame]
    split_ifs <;> rfl
  · rw [refill, if_neg hsame]
    dsimp only
    rw [Nat.mod_eq_of_lt (by omega : b.earned now < 2 ^ 64), Nat.mod_eq_of_lt (by omega)]

/-- The time since `start` is worth no more than what the bucket holds. -/
def Credited (rate : TokenRate) (b : TokenBucket) (start : Nat) : Prop :=
  start ≤ b.lastTicks ∧
    (b.lastTicks - start) * rate.refillPerSec * scale ≤ b.tokens * rate.ticksPerSec

omit h in
theorem Credited.refill (hcredit : Credited rate b start) (h : Sound rate b)
    (hcap : 0 < rate.capacity) (hnow : b.lastTicks ≤ now) (hexact : Exact b now) :
    scale ≤ (b.refill now).tokens ∨ Credited rate (b.refill now) start := by
  obtain ⟨-, hlast, -⟩ := refill_spec h hnow
  unfold Credited
  rw [tokens_refill h hexact, hlast]
  by_cases hroom : rate.capacity * scale ≤ b.tokens + b.earned now
  · rw [min_eq_right hroom]
    exact .inl (Nat.le_mul_of_pos_left scale hcap)
  right
  have hearned : b.earned now * rate.ticksPerSec =
      (now - b.lastTicks) * rate.refillPerSec * scale := by
    rw [← h.rate_eq]
    exact Nat.div_mul_cancel hexact.1
  have hsplit : now - start = b.lastTicks - start + (now - b.lastTicks) := by
    have := hcredit.1
    omega
  rw [min_eq_left (by omega), hsplit, Nat.add_mul, Nat.add_mul, Nat.add_mul, hearned]
  exact ⟨hcredit.1.trans hnow, Nat.add_le_add_right hcredit.2 _⟩

omit h in
theorem Credited.run (hcredit : Credited rate b start) (h : Sound rate b) (hcap : 0 < rate.capacity)
    (hsorted : (b.lastTicks :: times).Pairwise (· ≤ ·)) (hexact : machine.Allowed Exact b times)
    (hrefused : ∀ passed ∈ machine.results b times, passed = false) :
    Credited rate (machine.run b times) start := by
  induction times generalizing b with
  | nil => exact hcredit
  | cons now times ih =>
    obtain ⟨hfirst, hrest⟩ := pairwise_cons.mp hsorted
    have hnow := hfirst now mem_cons_self
    obtain ⟨hsound, hlast, -⟩ := allow_spec h hnow
    obtain ⟨hpassed, hothers⟩ := forall_mem_cons.mp hrefused
    have hnot : ¬ scale ≤ (b.refill now).tokens := by
      intro hroom
      cases (congrArg Prod.snd (if_pos hroom)).symm.trans hpassed
    have hsame : (machine.step b now).1 = b.refill now := congrArg Prod.fst (if_neg hnot)
    refine ih ?_ hsound (hlast.symm ▸ hrest) hexact.2 hothers
    rw [hsame]
    exact (hcredit.refill h hcap hnow hexact.1).resolve_left hnot

theorem served (hcap : 0 < rate.capacity)
    (hsorted : (b.lastTicks :: first :: (times ++ [now])).Pairwise (· ≤ ·))
    (hexact : machine.Allowed Exact b (first :: (times ++ [now])))
    (hrefused : ∀ passed ∈ machine.results (b.allow first).1 times, passed = false)
    (hperiod : rate.ticksPerSec ≤ (now - first) * rate.refillPerSec) :
    ((machine.run (b.allow first).1 times).allow now).2 = true := by
  obtain ⟨hfirst, hrest⟩ := pairwise_cons.mp hsorted
  obtain ⟨hsound, hlast, -⟩ := allow_spec h (hfirst first mem_cons_self)
  rw [← hlast] at hrest
  obtain ⟨hexactRefused, hexactNow⟩ := (CallMachine.allowed_append _ times [now]).mp hexact.2
  obtain ⟨hsound', hnow⟩ := run_append_spec hsound hrest
  replace hnow := (pairwise_cons.mp hnow).1 now (mem_singleton_self now)
  have hcredit : Credited rate (b.allow first).1 first :=
    ⟨hlast.ge, by simp [hlast]⟩
  have hcredit' := hcredit.run hsound hcap
    (hrest.sublist ((sublist_append_left times [now]).cons_cons _)) hexactRefused hrefused
  apply congrArg Prod.snd (if_pos _)
  apply (hcredit'.refill hsound' hcap hnow hexactNow.1).elim id
  rintro ⟨-, hworth⟩
  rw [(refill_spec hsound' hnow).2.1] at hworth
  refine Nat.le_of_mul_le_mul_right ?_ h.ticks_pos
  rw [Nat.mul_comm]
  exact (Nat.mul_le_mul_right scale hperiod).trans hworth

omit h

/-- The packets let through in a window are at most the capacity, what the window is worth, and
one.  If no refill rounds anything away, then a packet that comes a full refill period after the
last one that was let through is not refused. -/
theorem conforms (capacity refillPerSec ticksPerSec : Nat) {before window : List Nat}
    {first : Nat} (hsorted : (before ++ first :: window).Pairwise (· ≤ ·)) :
    let full := new capacity refillPerSec ticksPerSec
    let b := machine.run full before
    (machine.results b (first :: window)).count true ≤
        capacity + (window.getLastD first - first) * refillPerSec / full.ticksPerSec + 1 ∧
      ∀ refused now, window = refused ++ [now] → 0 < capacity →
        machine.Allowed Exact full (before ++ first :: window) → (b.allow first).2 = true →
        (∀ passed ∈ machine.results (b.allow first).1 refused, passed = false) →
        full.ticksPerSec ≤ (now - first) * refillPerSec →
        ((machine.run (b.allow first).1 refused).allow now).2 = true := by
  intro full b
  have hstart : (full.lastTicks :: (before ++ first :: window)).Pairwise (· ≤ ·) :=
    pairwise_cons.mpr ⟨fun now _ => Nat.zero_le now, hsorted⟩
  obtain ⟨hsound, hrest⟩ := run_append_spec (sound_new ..) hstart
  refine ⟨withinRate hsound hrest, ?_⟩
  rintro refused now rfl hcap hexact - hrefused hperiod
  exact served hsound hcap hrest ((CallMachine.allowed_append ..).mp hexact).2 hrefused hperiod

/-- At a hundred ticks a second every refill of ten tokens a second is exact. -/
theorem conforms_hundredTicks :
    (machine.results (new 1 10 100) [0, 3, 7, 10]) = [true, false, false, true] ∧
      ((machine.run ((new 1 10 100).allow 0).1 [3, 7]).allow 10).2 = true :=
  ⟨by decide, (@conforms 1 10 100 [] [3, 7, 10] 0 (by decide)).2 [3, 7] 10 rfl (by decide)
    (by decide) (by decide) (by decide) (by decide)⟩

/-- The two refills after the first packet lose a thousandth between them. -/
theorem refused_after_period :
    machine.results (new 1 1 10000000) [0, 4999999, 10000000] = [true, false, false] ∧
      (new 1 1 10000000).ticksPerSec ≤ (10000000 - 0) * 1 := by decide

end TokenBucket

end EuroOS
