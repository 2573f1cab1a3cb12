import Mathlib.Tactic

/-!
# Chains in a table of links

A table gives every node the next one; some values are nodes, some end a chain.
A chain is determined by its first node, visits no node twice, and depends only
on the links of its own nodes.
-/

namespace EuroOS

variable {α : Type*} {isNode isEnd : α → Prop} {next next' : α → α} {a b z : α} {l l' : List α}

/-- The nodes from `a` to the end of its chain are those of the list. -/
inductive Chain (isNode isEnd : α → Prop) (next : α → α) : α → List α → Prop
  | nil {a : α} : isEnd a → Chain isNode isEnd next a []
  | cons {a : α} {l : List α} : isNode a → Chain isNode isEnd next (next a) l →
      Chain isNode isEnd next a (a :: l)

namespace Chain

theorem isNode_of_mem (h : Chain isNode isEnd next a l) (hb : b ∈ l) : isNode b := by
  induction h with
  | nil _ => cases hb
  | cons hnode _ ih =>
    rcases List.mem_cons.mp hb with rfl | hb
    · exact hnode
    · exact ih hb

theorem congr (h : Chain isNode isEnd next a l) (hnext : ∀ b ∈ l, next' b = next b) :
    Chain isNode isEnd next' a l := by
  induction h with
  | nil hend => exact .nil hend
  | cons hnode _ ih =>
    refine .cons hnode ?_
    rw [hnext _ (List.mem_cons_self ..)]
    exact ih fun b hb => hnext b (List.mem_cons_of_mem _ hb)

theorem unique (hdisjoint : ∀ a, isNode a → ¬ isEnd a) (h : Chain isNode isEnd next a l)
    (h' : Chain isNode isEnd next a l') : l = l' := by
  induction h generalizing l' with
  | nil hend =>
    cases h' with
    | nil _ => rfl
    | cons hnode _ => exact absurd hend (hdisjoint _ hnode)
  | cons hnode _ ih =>
    cases h' with
    | nil hend => exact absurd hend (hdisjoint _ hnode)
    | cons _ hrest => rw [ih hrest]

theorem suffix_of_mem (h : Chain isNode isEnd next a l) (hb : b ∈ l) :
    ∃ front back, l = front ++ b :: back ∧ Chain isNode isEnd next b (b :: back) := by
  induction h with
  | nil _ => cases hb
  | @cons c l hnode hrest ih =>
    rcases List.mem_cons.mp hb with rfl | hb
    · exact ⟨[], l, rfl, .cons hnode hrest⟩
    · obtain ⟨front, back, rfl, hchain⟩ := ih hb
      exact ⟨c :: front, back, rfl, hchain⟩

theorem nodup (hdisjoint : ∀ a, isNode a → ¬ isEnd a) (h : Chain isNode isEnd next a l) :
    l.Nodup := by
  induction h with
  | nil _ => exact List.nodup_nil
  | @cons a l hnode hrest ih =>
    refine List.nodup_cons.mpr ⟨fun hmem => ?_, ih⟩
    -- Met again, `a` would start a shorter chain than it does.
    obtain ⟨front, back, rfl, hagain⟩ := hrest.suffix_of_mem hmem
    have hsame := hagain.unique hdisjoint (.cons hnode hrest)
    have hlength := congrArg List.length hsame
    simp only [List.length_cons, List.length_append] at hlength
    omega

theorem append_of_relinked (h : Chain isNode isEnd next a (l ++ [z]))
    (hkept : ∀ b ∈ l, next' b = next b) (hnode : isNode b) (hlink : next' z = b)
    (hlast : isEnd (next' b)) : Chain isNode isEnd next' a (l ++ [z, b]) := by
  induction l generalizing a with
  | nil =>
    cases h with
    | cons hz _ =>
      refine .cons hz ?_
      rw [hlink]
      exact .cons hnode (.nil hlast)
  | cons c l ih =>
    cases h with
    | cons hc hrest =>
      refine .cons hc ?_
      rw [hkept _ (List.mem_cons_self ..)]
      exact ih hrest fun b hb => hkept b (List.mem_cons_of_mem _ hb)

end Chain

end EuroOS
