import EuroOS.BootSlots

/-!
# Loader and kernel in one boot

The boot loader runs `on_boot` on the slot configuration of the EFI system
partition and starts the image of the slot it gets.  The kernel runs `on_boot` on
the same copy once more, so a boot costs two attempts: the second boot of an
unconfirmed slot ends in the kernel's rollback while its image is running.
-/

namespace EuroOS

structure Boot where
  marksGood : Bool
  stages : Bool
  deriving DecidableEq

def Boot.Plain (b : Boot) : Prop := b.marksGood = false ∧ b.stages = false

/-- The slot whose image runs, and the active slot that is recorded after `boot_init`. -/
structure Started where
  image : Slot
  recorded : Slot
  deriving DecidableEq

namespace SlotConfig

def decideSlot (esp : Bytes) : Option (Bytes × Slot) :=
  (deserialize esp).map fun c => (c.onBoot.1.serialize, c.onBoot.2)

def load (esp : Bytes) : SlotConfig := (deserialize esp).getD initial

/-- The kernel's part: what it keeps in memory is also what it writes back. -/
def bootInit (esp : Bytes) : SlotConfig := (load esp).onBoot.1

def markBootGood (b : Boot) (c : SlotConfig) : SlotConfig := if b.marksGood then c.markGood else c

def stageImage (b : Boot) (c : SlotConfig) : SlotConfig := if b.stages then c.stageUpdate else c

/-- One boot, from the copy on the system partition to the copy that it leaves there. -/
def espMachine : CallMachine Bytes Boot Started where
  step esp b :=
    let (esp, image) := (decideSlot esp).getD (esp, .A)
    let c := bootInit esp
    ((stageImage b (markBootGood b c)).serialize, ⟨image, c.active⟩)

def handover (c : SlotConfig) (b : Boot) : SlotConfig :=
  stageImage b (markBootGood b c.onBoot.1.onBoot.1)

@[simp] theorem load_serialize (c : SlotConfig) : load c.serialize = c := by
  simp [load, deserialize_serialize]

theorem step_serialize (c : SlotConfig) (b : Boot) :
    espMachine.step c.serialize b =
      ((c.handover b).serialize, ⟨c.onBoot.2, c.onBoot.1.onBoot.1.active⟩) := by
  simp [espMachine, decideSlot, bootInit, handover, deserialize_serialize]

/-- The configuration after some boots; the copy on the system partition is this one. -/
def afterBoots (c : SlotConfig) (boots : List Boot) : SlotConfig := boots.foldl handover c

theorem run_serialize (c : SlotConfig) (boots : List Boot) :
    espMachine.run c.serialize boots = (c.afterBoots boots).serialize := by
  induction boots generalizing c with
  | nil => rfl
  | cons b boots ih =>
    rw [CallMachine.run_cons, step_serialize, ih]
    rfl

theorem afterBoots_concat (c : SlotConfig) (boots : List Boot) (b : Boot) :
    c.afterBoots (boots ++ [b]) = (c.afterBoots boots).handover b := by simp [afterBoots]

/-- Loader and kernel agree in all boots: the recorded slot is the running one, and a staged slot
that nobody confirms gets its attempts and is then given up. -/
structure SlotsAgree (boots : List Boot) : Prop where
  running : ∀ earlier b, earlier ++ [b] <+: boots →
    ∀ s, (espMachine.step (espMachine.run initial.serialize earlier) b).2 = s → s.recorded = s.image
  attempts : ∀ earlier b stretch, earlier ++ b :: stretch <+: boots → b.stages = true →
    (∀ b' ∈ stretch, b'.Plain) →
    ∀ staged after, load (espMachine.run initial.serialize (earlier ++ [b])) = staged →
      load (espMachine.run initial.serialize (earlier ++ b :: stretch)) = after →
      (stretch.length ≤ defaultTries.toNat → after.state staged.nextBoot = .trying ∧
        ∀ s ∈ espMachine.results staged.serialize stretch, s.image = staged.nextBoot) ∧
      (stretch.length = defaultTries.toNat + 1 → after.state staged.nextBoot = .failed)

/-- A boot with one attempt left is the second one of an unconfirmed slot.  The kernel takes its
attempts for used up, which is harmless only if it falls back to the running slot A for want of a
good slot, and the slot is confirmed or replaced in this boot. -/
def LeavesAttempt (esp : Bytes) (b : Boot) : Prop :=
  (load esp).tries = 1 → (load esp).nextBoot = .A ∧ (load esp).stateB ≠ .good ∧ ¬ b.Plain

/-! ## One boot -/

/-- Between boots: no attempt is used up without a verdict, and only a slot on trial has attempts. -/
structure BetweenBoots (c : SlotConfig) : Prop where
  tries : c.tries = 0 ∨ c.tries = 1 ∨ c.tries = 3
  trying : c.tries = 0 ↔ c.state c.nextBoot ≠ .trying

theorem betweenBoots_initial : BetweenBoots initial := ⟨by decide, by decide⟩

variable {c : SlotConfig} {b : Boot}

theorem onBoot_onBoot (h : BetweenBoots c) : c.onBoot.2 = c.nextBoot ∧
    (c.tries = 0 ∧ c.onBoot.1.onBoot.1 = { c with active := c.nextBoot } ∨
      c.tries = 3 ∧ c.onBoot.1.onBoot.1 = { c with tries := 1, active := c.nextBoot } ∨
      c.tries = 1 ∧ ∃ good, good = (c.setState c.nextBoot .failed).findGood ∧
        c.onBoot.1.onBoot.1 =
          { c.setState c.nextBoot .failed with tries := 0, nextBoot := good, active := good }) := by
  obtain ⟨active, nextBoot, tries, stateA, stateB, generation⟩ := c
  obtain ⟨htries, htrying⟩ := h
  rcases htries with rfl | rfl | rfl
  · cases nextBoot <;> simp_all [onBoot, state]
  · cases nextBoot <;> simp_all [onBoot, state, setState, findGood, Slot.other]
  · cases nextBoot <;> simp_all [onBoot, state]

theorem findGood_eq_nextBoot_iff (c : SlotConfig) :
    (c.setState c.nextBoot .failed).findGood = c.nextBoot ↔ c.nextBoot = .A ∧ c.stateB ≠ .good := by
  cases hnext : c.nextBoot <;> simp [findGood, setState, state, Slot.other, hnext]

theorem betweenBoots_markGood (c : SlotConfig) : BetweenBoots c.markGood := by
  constructor
  · exact .inl rfl
  · cases hactive : c.active <;> simp [markGood, hactive, setState, state]

theorem betweenBoots_stageUpdate (c : SlotConfig) : BetweenBoots c.stageUpdate := by
  constructor
  · exact .inr (.inr rfl)
  · cases hactive : c.active <;>
      simp [stageUpdate, inactive, hactive, Slot.other, setState, state, defaultTries]

theorem handover_of_plain (h : b.Plain) : c.handover b = c.onBoot.1.onBoot.1 := by
  simp [handover, stageImage, markBootGood, h.1, h.2]

theorem handover_cases (c : SlotConfig) (b : Boot) :
    (b.stages = true ∧ ∃ c' : SlotConfig, c.handover b = c'.stageUpdate) ∨
      (∃ c' : SlotConfig, c.handover b = c'.markGood) ∨ b.Plain := by
  cases hstages : b.stages with
  | true =>
    left
    refine ⟨rfl, markBootGood b c.onBoot.1.onBoot.1, ?_⟩
    simp [handover, stageImage, hstages]
  | false =>
    right
    cases hmarks : b.marksGood with
    | true =>
      left
      refine ⟨c.onBoot.1.onBoot.1, ?_⟩
      simp [handover, stageImage, markBootGood, hstages, hmarks]
    | false => exact .inr ⟨hmarks, hstages⟩

variable (h : BetweenBoots c)
include h

theorem handover_first (hplain : b.Plain) (htries : c.tries = 3) :
    c.handover b = { c with tries := 1, active := c.nextBoot } := by
  rw [handover_of_plain hplain]
  obtain ⟨-, ⟨hzero, -⟩ | ⟨-, heq⟩ | ⟨hone, -⟩⟩ := onBoot_onBoot h
  · simp [htries] at hzero
  · exact heq
  · simp [htries] at hone

theorem BetweenBoots.handover (hb : c.tries = 1 → ¬ b.Plain) : BetweenBoots (c.handover b) := by
  obtain ⟨-, c', heq⟩ | ⟨c', heq⟩ | hplain := handover_cases c b
  · exact heq ▸ betweenBoots_stageUpdate c'
  · exact heq ▸ betweenBoots_markGood c'
  rw [handover_of_plain hplain]
  obtain ⟨-, ⟨hzero, heq⟩ | ⟨htries, heq⟩ | ⟨hone, -⟩⟩ := onBoot_onBoot h
  · rw [heq]
    refine ⟨.inl hzero, ?_⟩
    have hstate := h.trying
    cases hnext : c.nextBoot <;> simpa [state, hnext] using hstate
  · rw [heq]
    refine ⟨.inr (.inl rfl), ?_⟩
    have hstate : c.state c.nextBoot = .trying := by
      by_contra hstate
      simp [h.trying.mpr hstate] at htries
    cases hnext : c.nextBoot <;> simpa [state, hnext] using hstate
  · exact absurd hplain (hb hone)

theorem BetweenBoots.first_of_tries (hone : (c.handover b).tries = 1) : b.Plain ∧ c.tries = 3 := by
  obtain ⟨-, c', heq⟩ | ⟨c', heq⟩ | hplain := handover_cases c b
  · simp [heq, stageUpdate, defaultTries] at hone
  · simp [heq, markGood] at hone
  refine ⟨hplain, ?_⟩
  rw [handover_of_plain hplain] at hone
  obtain ⟨-, ⟨hzero, heq⟩ | ⟨htries, -⟩ | ⟨-, good, -, heq⟩⟩ := onBoot_onBoot h
  · simp [heq, hzero] at hone
  · exact htries
  · simp [heq] at hone

theorem BetweenBoots.stages_of_tries (hall : (c.handover b).tries = 3) : b.stages = true := by
  obtain ⟨hstages, -⟩ | ⟨c', heq⟩ | hplain := handover_cases c b
  · exact hstages
  · simp [heq, markGood] at hall
  rw [handover_of_plain hplain] at hall
  obtain ⟨-, ⟨hzero, heq⟩ | ⟨-, heq⟩ | ⟨-, good, -, heq⟩⟩ := onBoot_onBoot h
  · simp [heq, hzero] at hall
  · simp [heq] at hall
  · simp [heq] at hall

theorem BetweenBoots.running_iff : c.onBoot.1.onBoot.1.active = c.onBoot.2 ↔
      (c.tries = 1 → c.nextBoot = .A ∧ c.stateB ≠ .good) := by
  obtain ⟨himage, ⟨hzero, heq⟩ | ⟨htries, heq⟩ | ⟨hone, good, hgood, heq⟩⟩ := onBoot_onBoot h
  · simp [himage, heq, hzero]
  · simp [himage, heq, htries]
  · rw [himage, heq, hgood, ← findGood_eq_nextBoot_iff]
    simp [hone]

theorem BetweenBoots.failed_of_second (hplain : b.Plain) (hone : c.tries = 1) :
    (c.handover b).state c.nextBoot = .failed := by
  rw [handover_of_plain hplain]
  obtain ⟨-, ⟨hzero, -⟩ | ⟨htries, -⟩ | ⟨-, good, -, heq⟩⟩ := onBoot_onBoot h
  · simp [hone] at hzero
  · simp [hone] at htries
  · rw [heq]
    cases hnext : c.nextBoot <;> simp [setState, state]

omit h

/-! ## Runs -/

theorem leavesAttempt_afterBoots (boots : List Boot) (b : Boot) :
    LeavesAttempt (espMachine.run initial.serialize boots) b ↔
      ((initial.afterBoots boots).tries = 1 → (initial.afterBoots boots).nextBoot = .A ∧
        (initial.afterBoots boots).stateB ≠ .good ∧ ¬ b.Plain) := by
  rw [LeavesAttempt, run_serialize, load_serialize]

theorem allowed_concat_iff (boots : List Boot) (b : Boot) :
    espMachine.Allowed LeavesAttempt initial.serialize (boots ++ [b]) ↔
      espMachine.Allowed LeavesAttempt initial.serialize boots ∧
        LeavesAttempt (espMachine.run initial.serialize boots) b := by
  rw [CallMachine.allowed_append, CallMachine.allowed_cons]
  simp

theorem betweenBoots_of_allowed (h : espMachine.Allowed LeavesAttempt initial.serialize boots) :
    BetweenBoots (initial.afterBoots boots) := by
  induction boots using List.reverseRecOn with
  | nil => exact betweenBoots_initial
  | append_singleton boots b ih =>
    obtain ⟨hearlier, hb⟩ := (allowed_concat_iff boots b).mp h
    rw [leavesAttempt_afterBoots] at hb
    rw [afterBoots_concat]
    exact (ih hearlier).handover fun hone => (hb hone).2.2

theorem running_of_allowed (h : espMachine.Allowed LeavesAttempt initial.serialize (boots ++ [b])) :
    (initial.afterBoots boots).onBoot.1.onBoot.1.active = (initial.afterBoots boots).onBoot.2 := by
  obtain ⟨hearlier, hb⟩ := (allowed_concat_iff boots b).mp h
  rw [leavesAttempt_afterBoots] at hb
  rw [(betweenBoots_of_allowed hearlier).running_iff]
  exact fun hone => ⟨(hb hone).1, (hb hone).2.1⟩

theorem failed_after_two (hearlier : espMachine.Allowed LeavesAttempt initial.serialize boots)
    (hone : (initial.afterBoots boots).tries = 1) (hplain : b.Plain) :
    ∃ earlier staging first, boots = earlier ++ [staging, first] ∧ staging.stages = true ∧
      first.Plain ∧ ((initial.afterBoots boots).handover b).state
        (initial.afterBoots (earlier ++ [staging])).nextBoot = .failed := by
  cases boots using List.reverseRecOn with
  | nil => simp [afterBoots, initial] at hone
  | append_singleton boots first =>
    have hboots := ((allowed_concat_iff boots first).mp hearlier).1
    have hbetween := betweenBoots_of_allowed hboots
    have hfailed := (betweenBoots_of_allowed hearlier).failed_of_second hplain hone
    rw [afterBoots_concat] at hone
    obtain ⟨hfirst, hall⟩ := hbetween.first_of_tries hone
    have hnext : (initial.afterBoots (boots ++ [first])).nextBoot =
        (initial.afterBoots boots).nextBoot := by
      rw [afterBoots_concat, handover_first hbetween hfirst hall]
    rw [hnext] at hfailed
    cases boots using List.reverseRecOn with
    | nil => simp [afterBoots, initial] at hall
    | append_singleton boots staging =>
      have hstages := ((betweenBoots_of_allowed
        ((allowed_concat_iff boots staging).mp hboots).1).stages_of_tries
          (by rwa [afterBoots_concat] at hall))
      exact ⟨boots, staging, first, by simp, hstages, hfirst, hfailed⟩

theorem tries_of_stages (c : SlotConfig) (h : b.stages = true) : (c.handover b).tries = 3 := by
  simp [handover, stageImage, h, stageUpdate, defaultTries]

/-- Where every boot is allowed, a staged slot is decided on in its first boot, if not in the last
one of the run. -/
theorem stretch_of_allowed
    (h : espMachine.Allowed LeavesAttempt initial.serialize (earlier ++ staging :: stretch))
    (hstages : staging.stages = true) (hplain : ∀ b ∈ stretch, b.Plain) :
    stretch = [] ∨ ∃ b, stretch = [b] := by
  match stretch with
  | [] => exact .inl rfl
  | [b] => exact .inr ⟨b, rfl⟩
  | first :: second :: rest =>
    exfalso
    have hsplit : earlier ++ staging :: first :: second :: rest =
        (earlier ++ [staging, first] ++ [second]) ++ rest := by simp
    rw [hsplit, CallMachine.allowed_append, allowed_concat_iff, leavesAttempt_afterBoots] at h
    obtain ⟨⟨hboots, hsecond⟩, -⟩ := h
    have hstaged : earlier ++ [staging, first] = (earlier ++ [staging]) ++ [first] := by simp
    rw [hstaged] at hboots hsecond
    have hbetween := betweenBoots_of_allowed ((allowed_concat_iff _ _).mp hboots).1
    have hall : (initial.afterBoots (earlier ++ [staging])).tries = 3 := by
      rw [afterBoots_concat]
      exact tries_of_stages _ hstages
    have hone : (initial.afterBoots ((earlier ++ [staging]) ++ [first])).tries = 1 := by
      rw [afterBoots_concat, handover_first hbetween (hplain first (by simp)) hall]
    exact (hsecond hone).2.2 (hplain second (by simp))

/-- Loader and kernel agree in exactly the runs in which no boot starts with one attempt left, but
for boots of slot A for want of a good slot B that decide on the slot. -/
theorem slotsAgree_iff (boots : List Boot) :
    SlotsAgree boots ↔ espMachine.Allowed LeavesAttempt initial.serialize boots := by
  constructor
  · intro h
    suffices hall : ∀ earlier, earlier <+: boots →
        espMachine.Allowed LeavesAttempt initial.serialize earlier from hall boots (List.prefix_refl _)
    intro earlier
    induction earlier using List.reverseRecOn with
    | nil => exact fun _ => CallMachine.allowed_nil _
    | append_singleton earlier b ih =>
      intro hb
      have hearlier := ih ((List.prefix_append _ _).trans hb)
      refine (allowed_concat_iff earlier b).mpr ⟨hearlier, ?_⟩
      rw [leavesAttempt_afterBoots]
      intro hone
      have hrunning := h.running earlier b hb _ rfl
      rw [run_serialize, step_serialize] at hrunning
      obtain ⟨hnext, hgood⟩ := (betweenBoots_of_allowed hearlier).running_iff.mp hrunning hone
      refine ⟨hnext, hgood, fun hplain => ?_⟩
      obtain ⟨start, staging, first, rfl, hstages, hfirst, hfailed⟩ :=
        failed_after_two hearlier hone hplain
      have hstretch : ∀ b' ∈ [first, b], b'.Plain := by simp [hfirst, hplain]
      have hsplit : start ++ staging :: [first, b] = start ++ [staging, first] ++ [b] := by simp
      obtain ⟨hkept, -⟩ := (h.attempts start staging [first, b] (hsplit ▸ hb) hstages hstretch
        _ _ rfl rfl).1 (by simp [defaultTries])
      rw [hsplit, run_serialize, run_serialize, load_serialize, load_serialize, afterBoots_concat,
        hfailed] at hkept
      cases hkept
  · intro h
    have hallowed {earlier : List Boot} (hearlier : earlier <+: boots) :
        espMachine.Allowed LeavesAttempt initial.serialize earlier := by
      obtain ⟨later, rfl⟩ := hearlier
      exact ((CallMachine.allowed_append _ _ _).mp h).1
    constructor
    · rintro earlier b hb s rfl
      rw [run_serialize, step_serialize]
      exact running_of_allowed (hallowed hb)
    · rintro earlier staging stretch hstretch hstages hplain staged after rfl rfl
      have hboots := hallowed hstretch
      have hbetween : BetweenBoots (initial.afterBoots (earlier ++ [staging])) := by
        refine betweenBoots_of_allowed (hallowed (List.IsPrefix.trans ?_ hstretch))
        exact ⟨stretch, by simp⟩
      have hall : (initial.afterBoots (earlier ++ [staging])).tries = 3 := by
        rw [afterBoots_concat]
        exact tries_of_stages _ hstages
      have htrying : (initial.afterBoots (earlier ++ [staging])).state
          (initial.afterBoots (earlier ++ [staging])).nextBoot = .trying := by
        by_contra hstate
        simp [hbetween.trying.mpr hstate] at hall
      obtain rfl | ⟨b, rfl⟩ := stretch_of_allowed hboots hstages hplain
      · rw [run_serialize, load_serialize]
        exact ⟨fun _ => ⟨htrying, by simp [CallMachine.results]⟩, by simp [defaultTries]⟩
      have hsplit : earlier ++ [staging, b] = (earlier ++ [staging]) ++ [b] := by simp
      have hafter := handover_first hbetween (hplain b (by simp)) hall
      rw [hsplit, run_serialize, run_serialize, load_serialize, load_serialize, afterBoots_concat,
        hafter]
      refine ⟨fun _ => ⟨?_, ?_⟩, by simp [defaultTries]⟩
      · cases hnext : (initial.afterBoots (earlier ++ [staging])).nextBoot <;>
          simpa [state, hnext] using htrying
      · simp [CallMachine.results, step_serialize, (onBoot_onBoot hbetween).1]

/-- An update is staged in the first boot, and nobody confirms it in the second one: in the third
boot the image of slot B runs while the kernel records slot A. -/
theorem kernel_records_other_slot :
    ¬ SlotsAgree [⟨false, true⟩, ⟨false, false⟩, ⟨false, false⟩] ∧
      espMachine.results initial.serialize [⟨false, true⟩, ⟨false, false⟩, ⟨false, false⟩] =
        [⟨.A, .A⟩, ⟨.B, .B⟩, ⟨.B, .A⟩] := by
  have hresults : espMachine.results initial.serialize
      [⟨false, true⟩, ⟨false, false⟩, ⟨false, false⟩] = [⟨.A, .A⟩, ⟨.B, .B⟩, ⟨.B, .A⟩] := by
    decide +kernel
  refine ⟨fun h => ?_, hresults⟩
  have hrunning := h.running [⟨false, true⟩, ⟨false, false⟩] ⟨false, false⟩ (List.prefix_refl _) _ rfl
  exact absurd hrunning (by decide +kernel)

end SlotConfig

end EuroOS
