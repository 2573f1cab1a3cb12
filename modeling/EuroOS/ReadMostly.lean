import Mathlib.Tactic

/-!
# Tables with a copy per CPU shard

A reader looks at the copy of its own CPU only.  A writer holds the locks of all
copies at once, applies the same update to each and returns what the last
application returned.
-/

namespace EuroOS

abbrev shards : Nat := 8

structure ReadMostly (α : Type) where
  copies : Fin shards → α

namespace ReadMostly

variable {α ρ : Type}

def ofValue (a : α) : ReadMostly α := ⟨fun _ => a⟩

def read (t : ReadMostly α) (cpu : Fin shards) : α := t.copies cpu

def write (t : ReadMostly α) (f : α → ρ × α) : ρ × ReadMostly α :=
  ((f (t.copies (Fin.last 7))).1, ⟨fun cpu => (f (t.copies cpu)).2⟩)

def Uniform (t : ReadMostly α) : Prop := ∀ cpu cpu', t.copies cpu = t.copies cpu'

theorem ofValue_uniform (a : α) : (ofValue a).Uniform := fun _ _ => rfl

theorem Uniform.write {t : ReadMostly α} (h : t.Uniform) (f : α → ρ × α) :
    (t.write f).2.Uniform := by
  intro cpu cpu'
  exact congrArg (fun a => (f a).2) (h cpu cpu')

def value (t : ReadMostly α) : α := t.copies 0

theorem Uniform.read {t : ReadMostly α} (h : t.Uniform) (cpu : Fin shards) : t.read cpu = t.value :=
  h cpu 0

@[simp] theorem value_ofValue (a : α) : (ofValue a).value = a := rfl

@[simp] theorem value_write (t : ReadMostly α) (f : α → ρ × α) :
    (t.write f).2.value = (f t.value).2 := rfl

theorem Uniform.write_result {t : ReadMostly α} (h : t.Uniform) (f : α → ρ × α) :
    (t.write f).1 = (f t.value).1 := by rw [ReadMostly.write, ReadMostly.value, h (Fin.last 7) 0]

end ReadMostly

end EuroOS
