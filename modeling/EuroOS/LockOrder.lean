import EuroOS.CallMachine

/-!
# Lock order

Each execution context (a core, with its interrupt levels) has an `OrderTracker`
that records the classes of the locks it holds and refuses a class whose rank is
not above all of them.  A world has any number of contexts and lock instances; a
context waits for an instance only when its tracker agreed.
-/

namespace EuroOS

open List Function

theorem not_transGen_self {α : Type} {r : α → α → Prop} (rank : α → Nat)
    (h : ∀ a b c, r a b → r b c → rank a < rank b) (a : α) : ¬ Relation.TransGen r a a := by
  have hgrows {a b : α} (hab : Relation.TransGen r a b) : ∀ c, r b c → rank a < rank b := by
    induction hab with
    | single hr => exact fun c hc => h _ _ _ hr hc
    | tail _ hr ih => exact fun c hc => (ih _ hr).trans (h _ _ _ hr hc)
  intro hcycle
  obtain ⟨b, hb, -⟩ := Relation.TransGen.head'_iff.mp hcycle
  exact lt_irrefl _ (hgrows hcycle b hb)

inductive LockClass
  | sched
  | runQueue
  | process
  | fsMountTable
  | fs
  | blockCache
  | vault
  | net
  | netSocket
  | unixTable
  | unixConn
  | ipcTable
  | ipcChannel
  | agent
  | firewall
  | audit
  | serial
  | heap
  | testOuter
  | testInner
  deriving DecidableEq

def LockClass.rank : LockClass → Nat
  | sched => 10
  | runQueue => 15
  | process => 20
  | fsMountTable => 28
  | fs => 30
  | blockCache => 35
  | vault => 40
  | net => 50
  | netSocket => 52
  | unixTable => 54
  | unixConn => 56
  | ipcTable => 57
  | ipcChannel => 58
  | agent => 60
  | firewall => 70
  | audit => 80
  | serial => 90
  | heap => 95
  | testOuter => 200
  | testInner => 201

structure Inversion where
  holding : LockClass
  acquiring : LockClass
  deriving DecidableEq

def maxDepth : Nat := 16

/-- The held classes, oldest first: `held[..depth]` of the source's array. -/
structure OrderTracker where
  held : List LockClass
  bounded : held.length ≤ maxDepth

namespace OrderTracker

def new : OrderTracker := ⟨[], by simp⟩

def pushUnchecked (t : OrderTracker) (c : LockClass) : OrderTracker :=
  if h : t.held.length < maxDepth then ⟨t.held ++ [c], by simpa using h⟩ else t

def acquire (t : OrderTracker) (c : LockClass) : Except Inversion OrderTracker :=
  match t.held.find? fun h => c.rank ≤ h.rank with
  | some h => .error ⟨h, c⟩
  | none => .ok (t.pushUnchecked c)

def release (t : OrderTracker) (c : LockClass) : OrderTracker where
  held := (t.held.reverse.erase c).reverse
  bounded := by
    have h := (erase_sublist (a := c) (l := t.held.reverse)).length_le
    rw [length_reverse] at h ⊢
    exact h.trans t.bounded

theorem held_pushUnchecked {t : OrderTracker} (h : t.held.length < maxDepth) (c : LockClass) :
    (t.pushUnchecked c).held = t.held ++ [c] := by simp [pushUnchecked, h]

theorem acquire_ok {t t' : OrderTracker} {c : LockClass} (h : t.acquire c = .ok t') :
    t' = t.pushUnchecked c ∧ ∀ c' ∈ t.held, c'.rank < c.rank := by
  unfold acquire at h
  split at h
  · simp at h
  rename_i hnone
  refine ⟨by simpa using h.symm, fun c' hc' => ?_⟩
  simpa using find?_eq_none.mp hnone c' hc'

theorem release_perm (t : OrderTracker) (c : LockClass) :
    (t.release c).held.Perm (t.held.erase c) :=
  (reverse_perm _).trans ((reverse_perm t.held).erase c)

end OrderTracker

/-! ## Contexts and lock instances -/

structure LockWorld (Context Lock : Type) where
  tracker : Context → OrderTracker
  holder : Lock → Option Context
  waiting : Context → Option Lock
  holds : Context → List Lock

/-- `request` starts to wait when the tracker agrees; `grant` ends the wait when the
lock is free; `take` gets a free lock without waiting, after an inversion with
`push_unchecked`; `release` gives a lock back. -/
inductive LockMove (Context Lock : Type)
  | request (c : Context) (l : Lock)
  | grant (c : Context)
  | take (c : Context) (l : Lock)
  | release (c : Context) (l : Lock)

section World

variable {Context Lock : Type} [DecidableEq Context] [DecidableEq Lock]

namespace LockWorld

def initial : LockWorld Context Lock where
  tracker _ := .new
  holder _ := none
  waiting _ := none
  holds _ := []

def gain (w : LockWorld Context Lock) (c : Context) (l : Lock) (t : OrderTracker) :
    LockWorld Context Lock where
  tracker := update w.tracker c t
  holder := update w.holder l (some c)
  waiting := update w.waiting c none
  holds := update w.holds c (w.holds c ++ [l])

def move (cls : Lock → LockClass) (w : LockWorld Context Lock) :
    LockMove Context Lock → Option (LockWorld Context Lock)
  | .request c l =>
    if w.waiting c ≠ none then none
    else
      match (w.tracker c).acquire (cls l) with
      | .error _ => none
      | .ok t =>
        some { w with
          tracker := update w.tracker c t
          waiting := update w.waiting c (some l) }
  | .grant c =>
    match w.waiting c with
    | none => none
    | some l => if w.holder l ≠ none then none else some (w.gain c l (w.tracker c))
  | .take c l =>
    if w.waiting c ≠ none ∨ w.holder l ≠ none then none
    else
      match (w.tracker c).acquire (cls l) with
      | .error _ => some (w.gain c l ((w.tracker c).pushUnchecked (cls l)))
      | .ok t => some (w.gain c l t)
  | .release c l =>
    if w.holder l ≠ some c then none
    else some
      { w with
        tracker := update w.tracker c ((w.tracker c).release (cls l))
        holder := update w.holder l none
        holds := update w.holds c ((w.holds c).erase l) }

end LockWorld

def lockMachine (cls : Lock → LockClass) :
    CallMachine (LockWorld Context Lock) (LockMove Context Lock) Bool where
  step w m :=
    match w.move cls m with
    | none => (w, false)
    | some w' => (w', true)

def LockWorld.WaitsFor (w : LockWorld Context Lock) (a b : Context) : Prop :=
  ∃ l, w.waiting a = some l ∧ w.holder l = some b

def LockWorld.Deadlocked (w : LockWorld Context Lock) : Prop :=
  ∃ a, Relation.TransGen w.WaitsFor a a

/-- The tracker has room for the lock it is told about.  A full tracker agrees to any
class above the recorded ones and forgets it. -/
def HasRoom (w : LockWorld Context Lock) : LockMove Context Lock → Prop
  | .request c _ => (w.tracker c).held.length < maxDepth
  | .take c _ => (w.tracker c).held.length < maxDepth
  | _ => True

instance (w : LockWorld Context Lock) (m : LockMove Context Lock) : Decidable (HasRoom w m) :=
  match m with
  | .request c _ => inferInstanceAs (Decidable ((w.tracker c).held.length < maxDepth))
  | .take c _ => inferInstanceAs (Decidable ((w.tracker c).held.length < maxDepth))
  | .grant _ => isTrue trivial
  | .release _ _ => isTrue trivial

namespace LockWorld

variable {cls : Lock → LockClass} {w w' : LockWorld Context Lock} {m : LockMove Context Lock}

theorem move_cases (h : w.move cls m = some w') :
    (∃ c l, m = .request c l ∧ w.waiting c = none ∧
      (∀ k ∈ (w.tracker c).held, k.rank < (cls l).rank) ∧
      w' = { w with
        tracker := update w.tracker c ((w.tracker c).pushUnchecked (cls l))
        waiting := update w.waiting c (some l) }) ∨
    (∃ c l, m = .grant c ∧ w.waiting c = some l ∧ w.holder l = none ∧
      w' = w.gain c l (w.tracker c)) ∨
    (∃ c l, m = .take c l ∧ w.waiting c = none ∧ w.holder l = none ∧
      w' = w.gain c l ((w.tracker c).pushUnchecked (cls l))) ∨
    (∃ c l, m = .release c l ∧ w.holder l = some c ∧
      w' = { w with
        tracker := update w.tracker c ((w.tracker c).release (cls l))
        holder := update w.holder l none
        holds := update w.holds c ((w.holds c).erase l) }) := by
  cases m with
  | request c l =>
    simp only [move] at h
    split_ifs at h with hwait
    cases hacquire : (w.tracker c).acquire (cls l) with
    | error e => simp [hacquire] at h
    | ok t =>
      obtain ⟨rfl, hranks⟩ := OrderTracker.acquire_ok hacquire
      left
      exact ⟨c, l, rfl, by simpa using hwait, hranks, by simpa [hacquire] using h.symm⟩
  | grant c =>
    simp only [move] at h
    cases hwait : w.waiting c with
    | none => simp [hwait] at h
    | some l =>
      simp only [hwait] at h
      split_ifs at h with hfree
      right; left
      exact ⟨c, l, rfl, hwait, by simpa using hfree, by simpa using h.symm⟩
  | take c l =>
    simp only [move] at h
    split_ifs at h with hbusy
    simp only [not_or, not_not] at hbusy
    right; right; left
    cases hacquire : (w.tracker c).acquire (cls l) with
    | error e => exact ⟨c, l, rfl, hbusy.1, hbusy.2, by simpa [hacquire] using h.symm⟩
    | ok t =>
      obtain ⟨rfl, -⟩ := OrderTracker.acquire_ok hacquire
      exact ⟨c, l, rfl, hbusy.1, hbusy.2, by simpa [hacquire] using h.symm⟩
  | release c l =>
    simp only [move] at h
    split_ifs at h with hholder
    right; right; right
    exact ⟨c, l, rfl, by simpa using hholder, by simpa using h.symm⟩

/-- Every tracker holds exactly the classes of the locks its context holds or waits
for, and a context waits above everything it holds. -/
structure Ordered (cls : Lock → LockClass) (w : LockWorld Context Lock) : Prop where
  records : ∀ c, (w.tracker c).held.Perm ((w.holds c ++ (w.waiting c).toList).map cls)
  holds_of : ∀ l c, w.holder l = some c → l ∈ w.holds c
  below : ∀ c l, w.waiting c = some l → ∀ l' ∈ w.holds c, (cls l').rank < (cls l).rank

omit [DecidableEq Context] [DecidableEq Lock] in
theorem ordered_initial (cls : Lock → LockClass) :
    Ordered cls (initial : LockWorld Context Lock) where
  records c := by simp [initial, OrderTracker.new]
  holds_of l c h := by simp [initial] at h
  below c l h := by simp [initial] at h

variable {c : Context} {l : Lock}

omit [DecidableEq Lock] in
theorem Ordered.request (h : Ordered cls w) (hwait : w.waiting c = none)
    (hranks : ∀ k ∈ (w.tracker c).held, k.rank < (cls l).rank)
    (hroom : (w.tracker c).held.length < maxDepth) : Ordered cls { w with
      tracker := update w.tracker c ((w.tracker c).pushUnchecked (cls l))
      waiting := update w.waiting c (some l) } where
  records c' := by
    by_cases hc : c' = c
    · subst hc
      have hrecords := h.records c'
      simp only [hwait, Option.toList_none, append_nil] at hrecords
      simpa [OrderTracker.held_pushUnchecked hroom] using hrecords.append_right [cls l]
    · simpa [hc] using h.records c'
  holds_of := h.holds_of
  below c' l' hl' k hk := by
    by_cases hc : c' = c
    · subst hc
      obtain rfl : l = l' := by simpa using hl'
      refine hranks _ ((h.records c').mem_iff.mpr ?_)
      exact mem_map_of_mem (mem_append_left _ hk)
    · exact h.below c' l' (by simpa [hc] using hl') k hk

/-- A context that gets `l` has its tracker record exactly one more class than the
locks it held: that of `l`. -/
theorem Ordered.gain (h : Ordered cls w) {t : OrderTracker}
    (ht : t.held.Perm ((w.holds c ++ [l]).map cls)) : Ordered cls (w.gain c l t) where
  records c' := by
    by_cases hc : c' = c
    · subst hc
      simpa [LockWorld.gain] using ht
    · simpa [LockWorld.gain, hc] using h.records c'
  holds_of l' c' hl' := by
    by_cases hl : l' = l
    · subst hl
      obtain rfl : c = c' := by simpa [LockWorld.gain] using hl'
      simp [LockWorld.gain]
    · have hmem := h.holds_of l' c' (by simpa [LockWorld.gain, hl] using hl')
      by_cases hc : c' = c
      · subst hc
        simp [LockWorld.gain, hmem]
      · simpa [LockWorld.gain, hc] using hmem
  below c' l' hl' k hk := by
    by_cases hc : c' = c
    · subst hc
      simp [LockWorld.gain] at hl'
    · exact h.below c' l' (by simpa [LockWorld.gain, hc] using hl') k
        (by simpa [LockWorld.gain, hc] using hk)

theorem Ordered.release (h : Ordered cls w) (hholder : w.holder l = some c) : Ordered cls { w with
      tracker := update w.tracker c ((w.tracker c).release (cls l))
      holder := update w.holder l none
      holds := update w.holds c ((w.holds c).erase l) } where
  records c' := by
    by_cases hc : c' = c
    · subst hc
      have hmem := h.holds_of l c' hholder
      -- with the class of `l` put back in front, both sides are the old records
      have hback : (cls l :: ((w.holds c').erase l ++ (w.waiting c').toList).map cls).Perm
          (w.tracker c').held := by
        refine List.Perm.trans ?_ (h.records c').symm
        rw [← map_cons, ← cons_append]
        exact ((perm_cons_erase hmem).symm.append_right _).map cls
      have hclass : cls l ∈ (w.tracker c').held := hback.mem_iff.mp (by simp)
      have herase := ((perm_cons_erase hclass).symm.trans hback.symm).cons_inv
      simpa using (OrderTracker.release_perm _ _).trans herase
    · simpa [hc] using h.records c'
  holds_of l' c' hl' := by
    have hne : l' ≠ l := by
      rintro rfl
      simp at hl'
    have hmem := h.holds_of l' c' (by simpa [hne] using hl')
    by_cases hc : c' = c
    · subst hc
      simpa [mem_erase_of_ne hne] using hmem
    · simpa [hc] using hmem
  below c' l' hl' k hk := by
    refine h.below c' l' hl' k ?_
    by_cases hc : c' = c
    · subst hc
      exact mem_of_mem_erase (by simpa using hk)
    · simpa [hc] using hk

theorem Ordered.step (h : Ordered cls w) (hroom : HasRoom w m) :
    Ordered cls ((lockMachine cls).step w m).1 := by
  unfold lockMachine
  dsimp only
  split
  · exact h
  rename_i w' hmove
  obtain ⟨c, l, rfl, hwait, hranks, rfl⟩ | ⟨c, l, rfl, hwait, hfree, rfl⟩ |
    ⟨c, l, rfl, hwait, hfree, rfl⟩ | ⟨c, l, rfl, hholder, rfl⟩ := move_cases hmove
  · exact h.request hwait hranks hroom
  · exact h.gain (by simpa [hwait] using h.records c)
  · have hrecords := h.records c
    simp only [hwait, Option.toList_none, append_nil] at hrecords
    refine h.gain ?_
    rw [OrderTracker.held_pushUnchecked hroom]
    simpa using hrecords.append_right [cls l]
  · exact h.release hholder

omit [DecidableEq Context] [DecidableEq Lock] in
theorem Ordered.not_deadlocked (h : Ordered cls w) : ¬ w.Deadlocked := by
  rintro ⟨a, hcycle⟩
  -- along the cycle the rank of the awaited lock grows
  refine not_transGen_self (fun c => (w.waiting c).elim 0 fun l => (cls l).rank) ?_ a
    hcycle
  rintro a b c ⟨l, hl, hb⟩ ⟨l', hl', -⟩
  simpa [hl, hl'] using h.below b l' hl' l (h.holds_of l b hb)

/-- No run in which the trackers have room for what they are told ever deadlocks. -/
theorem not_deadlocked_of_room (cls : Lock → LockClass) (moves : List (LockMove Context Lock))
    (hroom : (lockMachine cls).Allowed HasRoom initial moves) :
    ¬ ((lockMachine cls).run initial moves).Deadlocked :=
  (CallMachine.run_invariant (Ordered cls) (fun _ _ h hm => h.step hm) (ordered_initial cls)
    hroom).not_deadlocked

/-- The context does not wait, or the lock that it waits for is free. -/
def CanGoOn (w : LockWorld Context Lock) (c : Context) : Prop :=
  ∀ l, w.waiting c = some l → w.holder l = none

omit [DecidableEq Context] [DecidableEq Lock] in
theorem Ordered.leads_on (h : Ordered cls w) (n : Nat) (hwait : w.waiting c = some l)
    (hn : 256 ≤ (cls l).rank + n) : ∃ d, Relation.ReflTransGen w.WaitsFor c d ∧ w.CanGoOn d := by
  induction n generalizing c l with
  | zero => exact absurd hn (by cases cls l <;> decide)
  | succ n ih =>
    cases hholder : w.holder l with
    | none => exact ⟨c, .refl, fun k hk => by rwa [← Option.some_inj.mp (hwait.symm.trans hk)]⟩
    | some b =>
      cases hb : w.waiting b with
      | none => exact ⟨b, .single ⟨l, hwait, hholder⟩, fun k hk => by simp [hb] at hk⟩
      | some k =>
        -- The holder waits for a lock of a higher rank, and ranks are bounded.
        have hrank := h.below b k hb l (h.holds_of l b hholder)
        obtain ⟨d, hchain, hd⟩ := ih hb (by omega)
        exact ⟨d, .head ⟨l, hwait, hholder⟩ hchain, hd⟩

/-- In a run with room every waiting context waits, through others or not, for one that can go on. -/
theorem waits_for_canGoOn (cls : Lock → LockClass) (moves : List (LockMove Context Lock))
    (hroom : (lockMachine cls).Allowed HasRoom initial moves) (c : Context) :
    ∃ d, Relation.ReflTransGen ((lockMachine cls).run initial moves).WaitsFor c d ∧
      ((lockMachine cls).run initial moves).CanGoOn d := by
  have hordered : Ordered cls ((lockMachine cls).run initial moves) := CallMachine.run_invariant
    (Ordered cls) (fun _ _ h hm => h.step hm) (ordered_initial cls) hroom
  cases hwait : ((lockMachine cls).run initial moves).waiting c with
  | none => exact ⟨c, .refl, fun l hl => by simp [hwait] at hl⟩
  | some l => exact hordered.leads_on 256 hwait (by omega)

end LockWorld

end World

/-- Two contexts compete for one file system lock; the winner goes on to the heap. -/
theorem contended_fs_not_deadlocked :
    let moves : List (LockMove Bool (LockClass × Nat)) :=
      [.request false (.fs, 0), .grant false, .request true (.fs, 0),
        .request false (.heap, 0), .grant false, .release false (.fs, 0)]
    (lockMachine Prod.fst).Allowed HasRoom LockWorld.initial moves ∧
      ((lockMachine Prod.fst).run LockWorld.initial moves).waiting true = some (.fs, 0) ∧
      ¬ ((lockMachine Prod.fst).run LockWorld.initial moves).Deadlocked :=
  ⟨by decide +kernel, by decide +kernel,
    LockWorld.not_deadlocked_of_room Prod.fst _ (by decide +kernel)⟩

theorem waits_for_canGoOn_contended :
    ∃ d, Relation.ReflTransGen ((lockMachine Prod.fst).run LockWorld.initial
      [.request false (LockClass.fs, 0), .grant false, .request true (.fs, 0)]).WaitsFor true d ∧
      LockWorld.CanGoOn ((lockMachine Prod.fst).run LockWorld.initial
        [.request false (LockClass.fs, 0), .grant false, .request true (.fs, 0)]) d :=
  LockWorld.waits_for_canGoOn Prod.fst _ (by decide +kernel) true

def outerClasses : List LockClass :=
  [.sched, .runQueue, .process, .fsMountTable, .fs, .blockCache, .vault, .net, .netSocket,
    .unixTable, .unixConn, .ipcTable, .ipcChannel, .agent, .firewall, .audit]

/-- Two contexts, each with sixteen locks of its own, take the heap and the serial port
in opposite order: neither tracker has room to record the first of the two. -/
theorem full_trackers_deadlock :
    let nest (c : Bool) : List (LockMove Bool (LockClass × Bool)) :=
      outerClasses.flatMap fun k => [.request c (k, c), .grant c]
    ((lockMachine Prod.fst).run LockWorld.initial
      (nest false ++ nest true ++
        [.request false (.heap, true), .grant false, .request true (.serial, true), .grant true,
          .request false (.serial, true), .request true (.heap, true)])).Deadlocked := by
  refine ⟨false, .tail (b := true) (.single ⟨(.serial, true), ?_⟩) ⟨(.heap, true), ?_⟩⟩
  all_goals decide +kernel

end EuroOS
