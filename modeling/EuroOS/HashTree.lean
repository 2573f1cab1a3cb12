import Mathlib.Tactic

/-!
# Trees of hashes

The levels of a binary tree in which the node above two neighbours is computed
from them, and a last node without a neighbour is paired with itself.  A climb
combines a value with siblings, going left or right by the bits of an index.
When the node function is injective, a climb that ends at the root started in the
level that its length tells, and at the position that the index tells if the
level has it.
-/

namespace EuroOS.HashTree

open List

variable {α : Type} {node : α → α → α}

def pairUp (node : α → α → α) : List α → List α
  | [] => []
  | [a] => [node a a]
  | a :: b :: rest => node a b :: pairUp node rest

def climb (node : α → α → α) : α → Nat → List α → α
  | x, _, [] => x
  | x, i, sibling :: rest =>
    climb node (if i % 2 = 0 then node x sibling else node sibling x) (i / 2) rest

/-- The neighbour of a position; a last one without a neighbour is its own. -/
def sibling (level : List α) (i : Nat) : Option α :=
  if i % 2 = 0 then (if i + 1 < level.length then level[i + 1]? else level[i]?) else level[i - 1]?

theorem length_pairUp (node : α → α → α) (l : List α) : (pairUp node l).length = (l.length + 1) / 2 := by
  fun_induction pairUp node l with
  | case1 => simp
  | case2 a => simp
  | case3 a b rest ih =>
    simp only [length_cons, ih]
    omega

theorem getElem?_pairUp (node : α → α → α) (l : List α) (e : Nat) :
    (pairUp node l)[e]? = l[2 * e]?.map fun a => node a (l[2 * e + 1]?.getD a) := by
  fun_induction pairUp node l generalizing e with
  | case1 => simp
  | case2 a =>
    cases e with
    | zero => rfl
    | succ e => simp [show 2 * (e + 1) = 2 * e + 1 + 1 by omega]
  | case3 a b rest ih =>
    cases e with
    | zero => rfl
    | succ e =>
      have hdouble : 2 * (e + 1) = 2 * e + 2 := by omega
      rw [getElem?_cons_succ, ih, hdouble]
      rfl

theorem above (node : α → α → α) (hx : l[i]? = some x) :
    ∃ s, sibling l i = some s ∧
      (pairUp node l)[i / 2]? = some (if i % 2 = 0 then node x s else node s x) := by
  obtain ⟨hlt, -⟩ := List.getElem?_eq_some_iff.mp hx
  rw [getElem?_pairUp]
  unfold sibling
  rcases Nat.mod_two_eq_zero_or_one i with heven | hodd
  · have hdouble : 2 * (i / 2) = i := by omega
    rw [if_pos heven, hdouble, hx]
    by_cases hnext : i + 1 < l.length
    · exact ⟨l[i + 1], by simp [hnext], by simp [hnext, heven]⟩
    refine ⟨x, by simp [hnext], ?_⟩
    rw [getElem?_eq_none (by omega)]
    simp [heven]
  · have hdouble : 2 * (i / 2) = i - 1 := by omega
    have hlow : i - 1 < l.length := by omega
    have hback : i - 1 + 1 = i := by omega
    refine ⟨l[i - 1], by simp [hodd, hlow], ?_⟩
    rw [hdouble, hback, hx, getElem?_eq_getElem hlow]
    simp [hodd]

theorem mem_pairUp (h : y ∈ pairUp node l) : ∃ a b, a ∈ l ∧ b ∈ l ∧ y = node a b := by
  obtain ⟨e, he⟩ := mem_iff_getElem?.mp h
  rw [getElem?_pairUp, Option.map_eq_some_iff] at he
  obtain ⟨a, ha, rfl⟩ := he
  have hmem := mem_of_getElem? ha
  cases hnext : l[2 * e + 1]? with
  | none => exact ⟨a, a, hmem, hmem, rfl⟩
  | some b => exact ⟨a, b, hmem, mem_of_getElem? hnext, rfl⟩

inductive Levels (node : α → α → α) : List (List α) → α → Prop
  | root (x : α) : Levels node [[x]] x
  | level {l : List α} {rest : List (List α)} {x : α} : Levels node (pairUp node l :: rest) x →
      Levels node (l :: pairUp node l :: rest) x

/-- The siblings on the way from a position to the root; `none` outside of the tree. -/
def siblings : List (List α) → Nat → Option (List α)
  | [], _ => some []
  | [_], _ => some []
  | level :: above :: rest, i => do
      let s ← sibling level i
      let more ← siblings (above :: rest) (i / 2)
      return s :: more

variable {ls rest : List (List α)} {l : List α} {x y : α}

theorem Levels.exists_concat (h : Levels node ls x) : ∃ front, ls = front ++ [[x]] := by
  induction h with
  | root x => exact ⟨[], rfl⟩
  | level _ ih =>
    obtain ⟨front, hfront⟩ := ih
    exact ⟨_ :: front, by rw [hfront]; rfl⟩

theorem Levels.next {above : List α} (h : Levels node (front ++ l :: above :: rest) x) :
    above = pairUp node l := by
  induction front with
  | nil =>
    cases h with
    | level _ => rfl
  | cons first front ih =>
    refine ih ?_
    cases front with
    | nil => cases h with | level h => exact h
    | cons _ _ => cases h with | level h => exact h

/-- A climb to the root started in the level that its length tells, or some member of the lowest
level is itself a node. -/
theorem Levels.mem_of_climb (h : Levels node ls x)
    (hinj : ∀ a b c d, node a b = node c d → a = c ∧ b = d) (hclimb : climb node y i p = x) :
    (∃ front l rest, ls = front ++ l :: rest ∧ rest.length = p.length ∧ y ∈ l) ∨
      ∃ leaf ∈ ls.headD [], ∃ a b, leaf = node a b := by
  induction p generalizing y i with
  | nil =>
    obtain ⟨front, hfront⟩ := h.exists_concat
    exact .inl ⟨front, [x], [], hfront, rfl, mem_singleton.mpr hclimb⟩
  | cons s p ih =>
    rcases ih hclimb with ⟨front, l, rest, hls, hlength, hmem⟩ | hleaf
    · have hnode : ∃ a b, (if i % 2 = 0 then node y s else node s y) = node a b := by
        split_ifs
        · exact ⟨y, s, rfl⟩
        · exact ⟨s, y, rfl⟩
      rcases eq_nil_or_concat' front with rfl | ⟨front, below, rfl⟩
      · refine .inr ⟨_, ?_, hnode⟩
        rw [hls]
        exact hmem
      rw [append_assoc, singleton_append] at hls
      have hnext : l = pairUp node below := Levels.next (hls ▸ h)
      rw [hnext] at hmem
      obtain ⟨a, b, ha, hb, hab⟩ := mem_pairUp hmem
      refine .inl ⟨front, below, l :: rest, hls, by simp [hlength], ?_⟩
      split_ifs at hab
      · rw [(hinj _ _ _ _ hab).1]
        exact ha
      · rw [(hinj _ _ _ _ hab).2]
        exact hb
    · exact .inr hleaf

theorem Levels.eq_of_climb (h : Levels node (l :: rest) x)
    (hinj : ∀ a b c d, node a b = node c d → a = c ∧ b = d) (hclimb : climb node y i p = x)
    (hlength : p.length = rest.length) (hi : i < l.length) :
    l[i]? = some y ∧ siblings (l :: rest) i = some p := by
  generalize hls : l :: rest = ls at h
  induction h generalizing l rest y i p with
  | root x =>
    cases hls
    obtain rfl := length_eq_zero_iff.mp hlength
    obtain rfl : y = x := hclimb
    obtain rfl : i = 0 := by simpa using hi
    exact ⟨rfl, rfl⟩
  | @level l' rest' x h ih =>
    cases hls
    cases p with
    | nil => cases hlength
    | cons s p =>
      have hstep : climb node (if i % 2 = 0 then node y s else node s y) (i / 2) p = x := hclimb
      obtain ⟨hpos, hsiblings⟩ := ih hstep (by simpa using hlength)
        (by rw [length_pairUp]; omega) rfl
      obtain ⟨s', hs', habove⟩ := above node (getElem?_eq_getElem hi)
      rw [habove, Option.some_inj] at hpos
      have hboth : l'[i] = y ∧ s' = s := by
        split_ifs at hpos
        · exact hinj _ _ _ _ hpos
        · exact (hinj _ _ _ _ hpos).symm
      refine ⟨by rw [getElem?_eq_getElem hi, hboth.1], ?_⟩
      simp [siblings, hs', hsiblings, hboth.2]

theorem Levels.climb_siblings (h : Levels node (l :: rest) x) (hy : l[i]? = some y) :
    ∃ p, siblings (l :: rest) i = some p ∧ climb node y i p = x := by
  generalize hls : l :: rest = ls at h
  induction h generalizing l rest y i with
  | root x =>
    cases hls
    obtain ⟨rfl, rfl⟩ : i = 0 ∧ x = y := by
      cases i with
      | zero => simpa using hy
      | succ i => simp at hy
    exact ⟨[], rfl, rfl⟩
  | @level l' rest' x h ih =>
    cases hls
    obtain ⟨s, hs, habove⟩ := above node hy
    obtain ⟨p, hsiblings, hclimb⟩ := ih habove rfl
    exact ⟨s :: p, by simp [siblings, hs, hsiblings], hclimb⟩

theorem Levels.exists_climb (h : Levels node (l :: rest) x) (i : Nat) :
    ∃ y ∈ l, ∃ p, climb node y i p = x := by
  generalize hls : l :: rest = ls at h
  induction h generalizing l rest i with
  | root x =>
    cases hls
    exact ⟨x, mem_singleton_self x, [], rfl⟩
  | @level l' rest' x h ih =>
    cases hls
    obtain ⟨y, hy, p, hclimb⟩ := ih (i / 2) rfl
    obtain ⟨a, b, ha, hb, rfl⟩ := mem_pairUp hy
    rcases Nat.mod_two_eq_zero_or_one i with heven | hodd
    · exact ⟨a, ha, b :: p, by rw [climb, if_pos heven]; exact hclimb⟩
    · exact ⟨b, hb, a :: p, by rw [climb, if_neg (by omega)]; exact hclimb⟩

end EuroOS.HashTree
