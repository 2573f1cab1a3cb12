import EuroOS.ByteCodec

/-!
# The dependency resolver

EuroPkg computes an install order by depth-first search: `chosen` holds a version
for every package met so far, `onStack` the packages whose dependencies are being
visited, `order` the finished ones.
-/

namespace EuroOS

open List

def lastMax {α κ : Type} [LT κ] [DecidableRel (· < · : κ → κ → Prop)] (key : α → κ) :
    List α → Option α
  | [] => none
  | a :: l =>
    match lastMax key l with
    | none => some a
    | some b => if key b < key a then some a else some b

section LastMax

variable {α κ : Type} [LinearOrder κ] {key : α → κ}

theorem lastMax_isSome (h : l ≠ []) : ∃ a, lastMax key l = some a := by
  cases l with
  | nil => exact absurd rfl h
  | cons a l =>
    unfold lastMax
    split
    · exact ⟨a, rfl⟩
    · split <;> exact ⟨_, rfl⟩

theorem lastMax_spec (h : lastMax key l = some a) :
    ∃ before after, l = before ++ a :: after ∧ (∀ b ∈ before, key b ≤ key a) ∧
      ∀ b ∈ after, key b < key a := by
  induction l generalizing a with
  | nil => simp [lastMax] at h
  | cons first l ih =>
    unfold lastMax at h
    cases hrest : lastMax key l with
    | none =>
      have hnil : l = [] := by
        by_contra hne
        obtain ⟨b, hb⟩ : ∃ b, lastMax key l = some b := lastMax_isSome hne
        simp [hrest] at hb
      simp only [hrest, Option.some.injEq] at h
      exact ⟨[], [], by simp [h, hnil], by simp, by simp⟩
    | some b =>
      obtain ⟨before, after, hsplit, hbefore, hafter⟩ := ih hrest
      simp only [hrest] at h
      split_ifs at h with hlt
      · obtain rfl : first = a := by simpa using h
        refine ⟨[], l, rfl, by simp, fun x hx => ?_⟩
        rw [hsplit, mem_append, mem_cons] at hx
        rcases hx with hx | rfl | hx
        · exact (hbefore x hx).trans_lt hlt
        · exact hlt
        · exact (hafter x hx).trans hlt
      · obtain rfl : b = a := by simpa using h
        refine ⟨first :: before, after, by simp [hsplit], ?_, hafter⟩
        simpa using ⟨not_lt.mp hlt, hbefore⟩

theorem lastMax_mem (h : lastMax key l = some a) : a ∈ l := by
  obtain ⟨before, after, rfl, -⟩ := lastMax_spec h
  simp

theorem lastMax_concat (h : ∀ b ∈ l, key b ≤ key a) : lastMax key (l ++ [a]) = some a := by
  induction l with
  | nil => rfl
  | cons b l ih =>
    have hb : ¬ key a < key b := not_lt.mpr (h b (by simp))
    simp [lastMax, ih fun c hc => h c (by simp [hc]), hb]

end LastMax

/-! ## Versions and constraints -/

structure Version where
  major : UInt32
  minor : UInt32
  patch : UInt32
  deriving DecidableEq

def Version.key (v : Version) : ℕ ×ₗ ℕ ×ₗ ℕ :=
  toLex (v.major.toNat, toLex (v.minor.toNat, v.patch.toNat))

inductive Constraint
  | any
  | exact (v : Version)
  | atLeast (v : Version)
  | caret (v : Version)
  deriving DecidableEq

def Constraint.matches : Constraint → Version → Bool
  | .any, _ => true
  | .exact e, v => v = e
  | .atLeast m, v => m.key ≤ v.key
  | .caret b, v =>
    if v.key < b.key then false
    else if 0 < b.major then v.major = b.major
    else if 0 < b.minor then v.major = 0 ∧ v.minor = b.minor
    else v.major = 0 ∧ v.minor = 0

structure Dep where
  name : Str
  constraint : Constraint
  deriving DecidableEq

structure Package where
  name : Str
  version : Version
  deps : List Dep
  deriving DecidableEq

structure Repo where
  packages : List Package
  deriving DecidableEq

inductive ResolveError
  | notFound (name : Str)
  | noMatchingVersion (name : Str)
  | conflict (name : Str)
  | cycle (name : Str)
  deriving DecidableEq

namespace Repo

def best (repo : Repo) (name : Str) (c : Constraint) : Option Package :=
  lastMax (fun p => p.version.key)
    (repo.packages.filter fun p => p.name = name ∧ c.matches p.version)

def «exists» (repo : Repo) (name : Str) : Bool := repo.packages.any fun p => p.name = name

/-- What `visit` passes on: versions chosen, packages done, packages in progress. -/
structure Search where
  chosen : List (Str × Version)
  order : List (Str × Version)
  onStack : List Str
  deriving DecidableEq

/-- Why a visit stops: the resolver refuses, or the bound on the depth is hit
(`resolve_terminates` shows that it never is). -/
inductive Failure
  | refused (e : ResolveError)
  | tooDeep
  deriving DecidableEq

def visit (repo : Repo) : Nat → Str → Constraint → Search → Except Failure Search
  | 0, _, _, _ => .error .tooDeep
  | depth + 1, name, c, s =>
    if name ∈ s.onStack then .error (.refused (.cycle name))
    else
      match s.chosen.find? fun entry => entry.1 = name with
      | some (_, v) => if c.matches v then .ok s else .error (.refused (.conflict name))
      | none =>
        if ¬ repo.exists name then .error (.refused (.notFound name))
        else
          match repo.best name c with
          | none => .error (.refused (.noMatchingVersion name))
          | some pkg =>
            let entered : Search :=
              { s with
                chosen := s.chosen ++ [(name, pkg.version)]
                onStack := s.onStack ++ [name] }
            match pkg.deps.foldlM
                (fun s d => visit repo depth d.name d.constraint s) entered with
            | .error e => .error e
            | .ok s' =>
              .ok
                { s' with
                  onStack := s'.onStack.dropLast
                  order := s'.order ++ [(name, pkg.version)] }

def resolve (repo : Repo) (root : Str) : Except Failure (List (Str × Version)) :=
  match repo.visit (repo.packages.length + 1) root .any ⟨[], [], []⟩ with
  | .error e => .error e
  | .ok s => .ok s.order

variable {repo : Repo} {name : Str} {c : Constraint} {pkg : Package} {depth : Nat} {s s' : Search}

theorem best_cases (h : repo.best name c = some pkg) :
    pkg ∈ repo.packages ∧ pkg.name = name ∧ c.matches pkg.version := by
  have hmem := lastMax_mem h
  simpa using hmem

/-- The package that the search takes is the one the repository holds under its
name and version: of several entries, the last. -/
theorem best_exact (h : repo.best name c = some pkg) :
    repo.best name (.exact pkg.version) = some pkg := by
  obtain ⟨before, after, hsplit, hbefore, hafter⟩ := lastMax_spec h
  have hmatch := (best_cases h).2.2
  have hsame : repo.packages.filter (fun p => p.name = name ∧ p.version = pkg.version) =
      (before ++ pkg :: after).filter fun p => p.version = pkg.version := by
    rw [← hsplit, filter_filter]
    refine filter_congr fun p _ => ?_
    by_cases hversion : p.version = pkg.version
    · simp [hversion, hmatch]
    · simp [hversion]
  have hafter' : after.filter (fun p => p.version = pkg.version) = [] := by
    refine filter_eq_nil_iff.mpr fun p hp => ?_
    have hne : p.version ≠ pkg.version := fun he => (hafter p hp).ne (by rw [he])
    simpa using hne
  simp only [best, Constraint.matches, decide_eq_true_eq, hsame, filter_append,
    filter_cons, hafter', decide_true, if_true]
  refine lastMax_concat fun p hp => ?_
  have hversion : p.version = pkg.version := by simpa using (mem_filter.mp hp).2
  rw [hversion]

theorem visit_ok_cases (h : repo.visit (depth + 1) name c s = .ok s') : name ∉ s.onStack ∧
    ((∃ v, (name, v) ∈ s.chosen ∧ c.matches v ∧ s' = s) ∨
      (∃ pkg s₁, (∀ v, (name, v) ∉ s.chosen) ∧ repo.best name c = some pkg ∧
        pkg.deps.foldlM (fun s d => repo.visit depth d.name d.constraint s)
          { s with
            chosen := s.chosen ++ [(name, pkg.version)]
            onStack := s.onStack ++ [name] } = .ok s₁ ∧
        s' = { s₁ with
          onStack := s₁.onStack.dropLast
          order := s₁.order ++ [(name, pkg.version)] })) := by
  rw [visit] at h
  by_cases hstack : name ∈ s.onStack
  · simp [hstack] at h
  rw [if_neg hstack] at h
  refine ⟨hstack, ?_⟩
  split at h
  · rename_i entry v hfind
    left
    split_ifs at h with hmatch
    have hname : entry = name := by simpa using find?_some hfind
    have hmem := mem_of_find?_eq_some hfind
    exact ⟨v, hname ▸ hmem, hmatch, by simpa using h.symm⟩
  · rename_i hfind
    right
    by_cases hexists : repo.exists name
    swap
    · simp [hexists] at h
    rw [if_neg (by simpa using hexists)] at h
    split at h
    · simp at h
    rename_i pkg hbest
    dsimp only at h
    split at h
    · simp at h
    rename_i s₁ hfold
    refine ⟨pkg, s₁, fun v hv => ?_, hbest, hfold, by simpa using h.symm⟩
    have := find?_eq_none.mp hfind _ hv
    simp at this

/-! ## Soundness -/

/-- The install order `order` can be followed: each entry is a package of the
repository whose dependencies stand before it, in versions it accepts. -/
def Installable (repo : Repo) (order : List (Str × Version)) : Prop :=
  ∀ before name version after, order = before ++ (name, version) :: after →
    ∃ pkg ∈ repo.packages, pkg.name = name ∧ pkg.version = version ∧
      repo.best name (.exact version) = some pkg ∧
      ∀ d ∈ pkg.deps, ∃ v, (d.name, v) ∈ before ∧ d.constraint.matches v

theorem installable_nil (repo : Repo) : repo.Installable [] := by
  intro before name version after h
  simp at h

theorem Installable.concat {order : List (Str × Version)} (h : repo.Installable order)
    (hbest : repo.best name c = some pkg)
    (hdeps : ∀ d ∈ pkg.deps, ∃ v, (d.name, v) ∈ order ∧ d.constraint.matches v) :
    repo.Installable (order ++ [(name, pkg.version)]) := by
  intro before name' version after hsplit
  rcases eq_nil_or_concat after with rfl | ⟨after', last, rfl⟩
  · obtain ⟨rfl, hentry⟩ := append_inj' hsplit rfl
    obtain ⟨rfl, rfl⟩ : name = name' ∧ pkg.version = version := by simpa using hentry
    have hpkg := best_cases hbest
    exact ⟨pkg, hpkg.1, hpkg.2.1, rfl, best_exact hbest, hdeps⟩
  · have hsplit' : order ++ [(name, pkg.version)] =
        (before ++ (name', version) :: after') ++ [last] := by simpa using hsplit
    exact h before name' version after' (append_inj' hsplit' rfl).1

structure Search.Sound (repo : Repo) (s : Search) : Prop where
  installable : repo.Installable s.order
  nodup : (s.order.map Prod.fst).Nodup
  chosen_unique : ∀ name v w, (name, v) ∈ s.chosen → (name, w) ∈ s.chosen → v = w
  chosen_done : ∀ name v, (name, v) ∈ s.chosen → name ∈ s.onStack ∨ (name, v) ∈ s.order
  order_chosen : ∀ name v, (name, v) ∈ s.order → (name, v) ∈ s.chosen
  stack_open : ∀ name ∈ s.onStack, ∀ v, (name, v) ∉ s.order

/-- What a successful visit of `name` under the constraint `c` does to the search. -/
structure Visited (repo : Repo) (name : Str) (c : Constraint) (s s' : Search) : Prop where
  sound : s'.Sound repo
  onStack : s'.onStack = s.onStack
  order : s.order <+: s'.order
  chosen : s.chosen ⊆ s'.chosen
  found : ∃ v, (name, v) ∈ s'.order ∧ c.matches v

theorem visit_all (ih : ∀ {name c s s'}, repo.visit depth name c s = .ok s' → s.Sound repo →
      Visited repo name c s s') {deps : List Dep} (hs : s.Sound repo)
    (h : deps.foldlM (fun s d => repo.visit depth d.name d.constraint s) s = .ok s') :
    s'.Sound repo ∧ s'.onStack = s.onStack ∧ s.order <+: s'.order ∧ s.chosen ⊆ s'.chosen ∧
      ∀ d ∈ deps, ∃ v, (d.name, v) ∈ s'.order ∧ d.constraint.matches v := by
  induction deps generalizing s with
  | nil =>
    obtain rfl : s = s' := by simpa [pure, Except.pure] using h
    exact ⟨hs, rfl, prefix_refl _, List.Subset.refl _, by simp⟩
  | cons d deps ihdeps =>
    rw [foldlM_cons] at h
    cases hd : repo.visit depth d.name d.constraint s with
    | error e => simp [hd, bind, Except.bind] at h
    | ok s₁ =>
      have hfirst := ih hd hs
      obtain ⟨hsound, hstack, horder, hchosen, hdeps⟩ := ihdeps hfirst.sound
        (by simpa [hd, bind, Except.bind] using h)
      refine ⟨hsound, hstack.trans hfirst.onStack, hfirst.order.trans horder,
        List.Subset.trans hfirst.chosen hchosen, ?_⟩
      intro d' hd'
      rcases mem_cons.mp hd' with rfl | hmem
      · obtain ⟨v, hv, hmatch⟩ := hfirst.found
        exact ⟨v, horder.subset hv, hmatch⟩
      · exact hdeps d' hmem

theorem Search.Sound.enter (h : s.Sound repo) (hnew : ∀ v, (name, v) ∉ s.chosen)
    (version : Version) : Search.Sound repo
      { s with chosen := s.chosen ++ [(name, version)], onStack := s.onStack ++ [name] } where
  __ := h
  chosen_unique name' v w hv hw := by
    simp only [mem_append, mem_singleton, Prod.mk.injEq] at hv hw
    rcases hv with hv | ⟨rfl, rfl⟩ <;> rcases hw with hw | ⟨hname, rfl⟩
    · exact h.chosen_unique name' v w hv hw
    · exact absurd (hname ▸ hv) (hnew v)
    · exact absurd hw (hnew w)
    · rfl
  chosen_done name' v hmem := by
    rcases mem_append.mp hmem with hold | hentry
    · exact (h.chosen_done name' v hold).imp_left (mem_append_left _)
    · obtain ⟨rfl, -⟩ : name' = name ∧ v = version := by simpa using hentry
      exact .inl (by simp)
  order_chosen name' v hmem := mem_append_left _ (h.order_chosen name' v hmem)
  stack_open name' hmem v hv := by
    rcases mem_append.mp hmem with hold | hentry
    · exact h.stack_open name' hold v hv
    · obtain rfl : name' = name := by simpa using hentry
      exact hnew v (h.order_chosen name' v hv)

theorem visit_sound (h : repo.visit depth name c s = .ok s') (hs : s.Sound repo) :
    Visited repo name c s s' := by
  induction depth generalizing name c s s' with
  | zero => simp [visit] at h
  | succ depth ih =>
    obtain ⟨hstack, ⟨v, hv, hmatch, rfl⟩ | ⟨pkg, s₁, hnew, hbest, hfold, rfl⟩⟩ := visit_ok_cases h
    · -- chosen before and no longer in progress, so done
      have hdone := (hs.chosen_done name v hv).resolve_left hstack
      exact ⟨hs, rfl, prefix_refl _, List.Subset.refl _, v, hdone, hmatch⟩
    obtain ⟨hsound, honStack, horder, hsub, hdeps⟩ :=
      visit_all ih (hs.enter hnew pkg.version) hfold
    have hopen : name ∈ s₁.onStack := by simp [honStack]
    have hchosen : (name, pkg.version) ∈ s₁.chosen := hsub (by simp)
    refine ⟨?_, by simp [honStack], horder.trans (prefix_append _ _),
      List.Subset.trans (subset_append_left _ _) hsub, pkg.version, by simp,
      (best_cases hbest).2.2⟩
    constructor
    · exact hsound.installable.concat hbest hdeps
    · have hfresh : name ∉ s₁.order.map Prod.fst := by simpa using hsound.stack_open name hopen
      simpa [nodup_append, hsound.nodup] using
        fun name' v hv he => hfresh (mem_map.mpr ⟨_, hv, he⟩)
    · exact hsound.chosen_unique
    · intro name' v hv
      rcases hsound.chosen_done name' v hv with hmem | hmem
      · rw [honStack, mem_append, mem_singleton] at hmem
        rcases hmem with hmem | rfl
        · exact .inl (by simpa [honStack] using hmem)
        · have : v = pkg.version := hsound.chosen_unique _ _ _ hv hchosen
          exact .inr (by simp [this])
      · exact .inr (mem_append_left _ hmem)
    · intro name' v hv
      rcases mem_append.mp hv with hmem | hmem
      · exact hsound.order_chosen name' v hmem
      · rw [mem_singleton] at hmem
        exact hmem ▸ hchosen
    · intro name' hmem v hv
      have hold : name' ∈ s.onStack := by simpa [honStack] using hmem
      rcases mem_append.mp hv with hv | hv
      · exact hsound.stack_open name' (by simp [honStack, hold]) v hv
      · obtain ⟨rfl, -⟩ : name' = name ∧ v = pkg.version := by simpa using hv
        exact hstack hold

/-! ## Termination -/

theorem onStack_length_le {onStack : List Str} (hnodup : onStack.Nodup)
    (hexists : ∀ name ∈ onStack, repo.exists name) : onStack.length ≤ repo.packages.length := by
  have hsub : onStack ⊆ repo.packages.map Package.name := by
    intro name hname
    obtain ⟨pkg, hmem, hpkg⟩ := any_eq_true.mp (hexists name hname)
    exact mem_map.mpr ⟨pkg, hmem, by simpa using hpkg⟩
  simpa using (subperm_of_subset hnodup hsub).length_le

theorem visit_not_tooDeep (hs : s.Sound repo) (hnodup : s.onStack.Nodup)
    (hexists : ∀ n ∈ s.onStack, repo.exists n)
    (hdepth : repo.packages.length < depth + s.onStack.length) :
    repo.visit depth name c s ≠ .error .tooDeep := by
  induction depth generalizing name c s with
  | zero =>
    have := onStack_length_le hnodup hexists
    omega
  | succ depth ih =>
    -- the dependencies are visited with the stack that the package has entered
    have hall {deps : List Dep} {s : Search} (hs : s.Sound repo) (hnodup : s.onStack.Nodup)
        (hexists : ∀ n ∈ s.onStack, repo.exists n)
        (hdepth : repo.packages.length < depth + s.onStack.length) :
        deps.foldlM (fun s d => repo.visit depth d.name d.constraint s) s ≠
          .error .tooDeep := by
      induction deps generalizing s with
      | nil => simp [pure, Except.pure]
      | cons d deps ihdeps =>
        rw [foldlM_cons]
        cases hd : repo.visit depth d.name d.constraint s with
        | error e =>
          have hne : repo.visit depth d.name d.constraint s ≠ .error .tooDeep :=
            ih hs hnodup hexists hdepth
          simpa [hd, bind, Except.bind] using hne
        | ok s₁ =>
          have hfirst := visit_sound hd hs
          exact ihdeps hfirst.sound (hfirst.onStack ▸ hnodup) (hfirst.onStack ▸ hexists)
            (hfirst.onStack ▸ hdepth)
    rw [visit]
    by_cases hstack : name ∈ s.onStack
    · simp [hstack]
    rw [if_neg hstack]
    split
    · split_ifs <;> simp
    rename_i hfind
    by_cases hname : repo.exists name
    swap
    · simp [hname]
    rw [if_neg (by simpa using hname)]
    split
    · simp
    rename_i pkg hbest
    have hnew : ∀ v, (name, v) ∉ s.chosen := fun v hv => by simpa using find?_eq_none.mp hfind _ hv
    dsimp only
    split
    · rename_i e hfold
      rw [← hfold]
      refine hall (hs.enter hnew pkg.version) ?_ ?_ ?_
      · exact nodup_append.mpr ⟨hnodup, by simp, fun n hn n' hn' he =>
          hstack (by rwa [← mem_singleton.mp hn', ← he])⟩
      · simpa [or_imp, forall_and] using ⟨hexists, hname⟩
      · simp only [length_append, length_singleton]
        omega
    · simp

theorem sound_empty (repo : Repo) : Search.Sound repo ⟨[], [], []⟩ where
  installable := installable_nil repo
  nodup := by simp
  chosen_unique := by simp
  chosen_done := by simp
  order_chosen := by simp
  stack_open := by simp

theorem exists_visit_of_resolve (h : repo.resolve root = .ok order) :
    ∃ s, repo.visit (repo.packages.length + 1) root .any ⟨[], [], []⟩ = .ok s ∧ s.Sound repo ∧
      s.order = order := by
  unfold resolve at h
  split at h
  · simp at h
  · rename_i s hvisit
    exact ⟨s, hvisit, (visit_sound hvisit (sound_empty repo)).sound, by simpa using h⟩

/-- The resolver always returns, and an order it returns can be followed: no name
occurs twice, every entry is in the repository with its dependencies before it, and
the request comes last. -/
theorem resolve_sound (repo : Repo) (root : Str) :
    repo.resolve root ≠ .error .tooDeep ∧
    ∀ order, repo.resolve root = .ok order →
      (order.map Prod.fst).Nodup ∧ repo.Installable order ∧
      ∃ v, order.getLast? = some (root, v) ∧ Constraint.any.matches v := by
  constructor
  · have hdeep : repo.visit (repo.packages.length + 1) root .any ⟨[], [], []⟩ ≠ .error .tooDeep :=
      visit_not_tooDeep (sound_empty repo) (by simp) (by simp) (by simp)
    unfold resolve
    split
    · rename_i e he
      simpa [he] using hdeep
    · simp
  · intro order h
    obtain ⟨s, hvisit, hsound, rfl⟩ := exists_visit_of_resolve h
    refine ⟨hsound.nodup, hsound.installable, ?_⟩
    obtain ⟨-, ⟨v, hv, -⟩ | ⟨pkg, s₁, -, -, -, rfl⟩⟩ := visit_ok_cases hvisit
    · simp at hv
    · exact ⟨pkg.version, by simp, rfl⟩

/-- An application over two libraries that share a third one, present in two
versions. -/
def diamond : Repo where
  packages :=
    [⟨"app".toList, ⟨1, 0, 0⟩,
        [⟨"libnet".toList, .caret ⟨1, 0, 0⟩⟩, ⟨"libssl".toList, .caret ⟨2, 0, 0⟩⟩]⟩,
      ⟨"libnet".toList, ⟨1, 4, 0⟩, [⟨"libc".toList, .atLeast ⟨1, 0, 0⟩⟩]⟩,
      ⟨"libssl".toList, ⟨2, 1, 0⟩, [⟨"libc".toList, .atLeast ⟨1, 0, 0⟩⟩]⟩,
      ⟨"libc".toList, ⟨1, 2, 0⟩, []⟩,
      ⟨"libc".toList, ⟨1, 5, 0⟩, []⟩]

theorem resolve_sound_diamond : ∃ order, diamond.resolve "app".toList = .ok order ∧
    order = [("libc".toList, ⟨1, 5, 0⟩), ("libnet".toList, ⟨1, 4, 0⟩),
      ("libssl".toList, ⟨2, 1, 0⟩), ("app".toList, ⟨1, 0, 0⟩)] ∧
    (order.map Prod.fst).Nodup ∧ diamond.Installable order ∧
    ∃ v, order.getLast? = some ("app".toList, v) ∧ Constraint.any.matches v := by
  have horder : diamond.resolve "app".toList =
      .ok [("libc".toList, ⟨1, 5, 0⟩), ("libnet".toList, ⟨1, 4, 0⟩),
        ("libssl".toList, ⟨2, 1, 0⟩), ("app".toList, ⟨1, 0, 0⟩)] := by decide +kernel
  exact ⟨_, horder, rfl, (resolve_sound diamond "app".toList).2 _ horder⟩

end Repo

end EuroOS
