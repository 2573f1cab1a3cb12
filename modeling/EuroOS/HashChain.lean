import Mathlib.Tactic

/-!
# Records linked by hashes

Each record of a chain carries a digest of the digest before it and of its own
payload.  If no two of the hashed pairs collide and no digest is the anchor, the
last digest determines the whole chain, and a chain made of digests of another
one is the beginning of that other chain.
-/

namespace EuroOS.HashChain

variable {D M : Type} {link : D → M → D} {a : D}

def Linked (link : D → M → D) : D → List (M × D) → Prop
  | _, [] => True
  | a, r :: rs => r.2 = link a r.1 ∧ Linked link r.2 rs

def endHash (a : D) (rs : List (M × D)) : D := (rs.getLast?.map Prod.snd).getD a

def inputs : D → List (M × D) → List (D × M)
  | _, [] => []
  | a, r :: rs => (a, r.1) :: inputs r.2 rs

/-- No two of the hashed pairs have one digest, and none has the anchor as its digest. -/
structure Binding (link : D → M → D) (a : D) (pairs : List (D × M)) : Prop where
  inj : ∀ x ∈ pairs, ∀ y ∈ pairs, link x.1 x.2 = link y.1 y.2 → x = y
  fresh : ∀ x ∈ pairs, link x.1 x.2 ≠ a

theorem Binding.mono (h : Binding link a pairs) (hsub : pairs' ⊆ pairs) :
    Binding link a pairs' where
  inj x hx y hy := h.inj x (hsub hx) y (hsub hy)
  fresh x hx := h.fresh x (hsub hx)

@[simp] theorem endHash_nil : endHash a ([] : List (M × D)) = a := rfl

@[simp] theorem endHash_concat (rs : List (M × D)) (r : M × D) : endHash a (rs ++ [r]) = r.2 := by
  simp [endHash]

theorem endHash_cons (r : M × D) (rs : List (M × D)) : endHash a (r :: rs) = endHash r.2 rs := by
  cases rs using List.reverseRecOn with
  | nil => rfl
  | append_singleton rs last => rw [← List.cons_append, endHash_concat, endHash_concat]

theorem linked_append (rs rs' : List (M × D)) :
    Linked link a (rs ++ rs') ↔ Linked link a rs ∧ Linked link (endHash a rs) rs' := by
  induction rs generalizing a with
  | nil => simp [Linked]
  | cons r rs ih => rw [List.cons_append, Linked, Linked, ih, endHash_cons, and_assoc]

theorem inputs_append (rs rs' : List (M × D)) :
    inputs a (rs ++ rs') = inputs a rs ++ inputs (endHash a rs) rs' := by
  induction rs generalizing a with
  | nil => simp [inputs]
  | cons r rs ih => rw [List.cons_append, inputs, inputs, ih, endHash_cons, List.cons_append]

theorem linked_concat (rs : List (M × D)) (r : M × D) :
    Linked link a (rs ++ [r]) ↔ Linked link a rs ∧ r.2 = link (endHash a rs) r.1 := by
  simp [linked_append, Linked]

theorem inputs_concat (rs : List (M × D)) (r : M × D) :
    inputs a (rs ++ [r]) = inputs a rs ++ [(endHash a rs, r.1)] := by simp [inputs_append, inputs]

theorem endHash_concat_ne (h : Linked link a (rs ++ [r]))
    (hb : Binding link a (inputs a (rs ++ [r]))) : endHash a (rs ++ [r]) ≠ a := by
  rw [endHash_concat, ((linked_concat _ _).mp h).2]
  exact hb.fresh (endHash a rs, r.1) (by simp [inputs_concat])

theorem eq_of_endHash_eq (h : Linked link a rs) (h' : Linked link a rs')
    (hb : Binding link a (inputs a rs ++ inputs a rs')) (hend : endHash a rs = endHash a rs') :
    rs = rs' := by
  induction rs using List.reverseRecOn generalizing rs' with
  | nil =>
    cases rs' using List.reverseRecOn with
    | nil => rfl
    | append_singleton rs' r' =>
      exact absurd hend.symm (endHash_concat_ne h' (hb.mono (by simp)))
  | append_singleton rs r ih =>
    cases rs' using List.reverseRecOn with
    | nil => exact absurd hend (endHash_concat_ne h (hb.mono (by simp)))
    | append_singleton rs' r' =>
      obtain ⟨hrs, hr⟩ := (linked_concat _ _).mp h
      obtain ⟨hrs', hr'⟩ := (linked_concat _ _).mp h'
      rw [endHash_concat, endHash_concat] at hend
      rw [inputs_concat, inputs_concat] at hb
      -- the two last digests are one, so the pairs hashed for them are one
      have hpair : (endHash a rs, r.1) = (endHash a rs', r'.1) :=
        hb.inj _ (by simp) _ (by simp) (by rw [← hr, ← hr', hend])
      obtain ⟨hends, hpayload⟩ := Prod.mk.inj hpair
      have hbefore : rs = rs' := ih hrs hrs' (hb.mono (by grind)) hends
      rw [hbefore, Prod.ext hpayload hend]

theorem isPrefix_of_digests (h : Linked link a rs) (h' : Linked link a rs')
    (hb : Binding link a (inputs a rs ++ inputs a rs')) (hkept : ∀ r' ∈ rs', ∃ r ∈ rs, r.2 = r'.2) :
    rs' <+: rs := by
  induction rs' using List.reverseRecOn with
  | nil => exact List.nil_prefix
  | append_singleton init last ih =>
    obtain ⟨hinit, hlast⟩ := (linked_concat _ _).mp h'
    rw [inputs_concat] at hb
    obtain ⟨r, hr, hdigest⟩ := hkept last (by simp)
    obtain ⟨pre, post, rfl⟩ := List.append_of_mem hr
    have hlinked := (linked_append _ _).mp h
    have hinputs : inputs a (pre ++ r :: post) =
        inputs a pre ++ (endHash a pre, r.1) :: inputs r.2 post := by
      rw [inputs_append]
      rfl
    rw [hinputs] at hb
    have hpair : (endHash a pre, r.1) = (endHash a init, last.1) :=
      hb.inj _ (by simp) _ (by simp) (by rw [← hlinked.2.1, ← hlast, hdigest])
    obtain ⟨hends, hpayload⟩ := Prod.mk.inj hpair
    -- the record of the same digest stands where the shorter chain ends
    have hsame : pre = init :=
      eq_of_endHash_eq hlinked.1 hinit (hb.mono (by grind)) hends
    rw [← hsame, ← Prod.ext hpayload hdigest]
    exact ⟨post, by simp⟩

def checksum (message : List UInt8) : Vector UInt8 32 :=
  Vector.ofFn fun i => UInt8.ofNat
    (message.foldl (fun sum b => (sum * 16777619 + b.toNat + 1) % 2 ^ 256) 14695981 / 256 ^ i.val)

end EuroOS.HashChain
