import EuroOS.TlsPeer

/-!
# The path rule of certificate chains

The certificates of a chain are followed as long as each was issued by the next one.
The walk looks at one root for each issuer, the first of that name in the store.
-/

namespace EuroOS.Tls

section

variable [CertCrypto] {roots : List Certificate} {now : Int} {cert issuer : Certificate}
  {certs rest : List Certificate}

def Certificate.IssuedBy (now : Int) (cert issuer : Certificate) : Prop :=
  cert.issuerDer = issuer.subjectDer ∧ issuer.isCa = true ∧ issuer.validAt now = true ∧
    cert.signedBy issuer = true

/-- Each certificate in front of position `k` was issued by the next one. -/
def Linked (now : Int) (certs : List Certificate) (k : Nat) : Prop :=
  ∀ i < k, ∃ cert issuer, certs[i]? = some cert ∧ certs[i + 1]? = some issuer ∧
    cert.IssuedBy now issuer

def Rooted (roots : List Certificate) (now : Int) (cert : Certificate) : Prop :=
  ∃ root ∈ roots, root.validAt now = true ∧ cert.issuerDer = root.subjectDer ∧
    cert.signedBy root = true

def Walk (now : Int) (certs : List Certificate) (p : Certificate → Prop) : Prop :=
  ∃ k cert, certs[k]? = some cert ∧ Linked now certs k ∧ p cert

def AcceptsHost (now : Int) (host : Bytes) (certs : List Certificate) : Prop :=
  ∃ leaf, certs[0]? = some leaf ∧ leaf.validAt now = true ∧ leaf.matchesHostname host = true

theorem linked_succ :
    Linked now (cert :: issuer :: rest) (k + 1) ↔
    cert.IssuedBy now issuer ∧ Linked now (issuer :: rest) k := by
  constructor
  · intro h
    obtain ⟨c, i, hc, hi, hissued⟩ := h 0 (Nat.succ_pos k)
    cases hc
    cases hi
    exact ⟨hissued, fun j hj => h (j + 1) (Nat.succ_lt_succ hj)⟩
  · rintro ⟨hissued, h⟩ j hj
    cases j with
    | zero => exact ⟨cert, issuer, rfl, rfl, hissued⟩
    | succ j => exact h j (Nat.lt_of_succ_lt_succ hj)

theorem walk_cons :
    Walk now (cert :: issuer :: rest) p ↔
    p cert ∨ cert.IssuedBy now issuer ∧ Walk now (issuer :: rest) p := by
  constructor
  · rintro ⟨k, c, hc, hlinked, hp⟩
    cases k with
    | zero =>
      cases hc
      exact .inl hp
    | succ k =>
      obtain ⟨hissued, hlinked⟩ := linked_succ.mp hlinked
      exact .inr ⟨hissued, k, c, hc, hlinked, hp⟩
  · rintro (hp | ⟨hissued, k, c, hc, hlinked, hp⟩)
    · exact ⟨0, cert, rfl, fun i hi => absurd hi (Nat.not_lt_zero i), hp⟩
    · exact ⟨k + 1, c, hc, linked_succ.mpr ⟨hissued, hlinked⟩, hp⟩

theorem climb_eq_ok_iff : climb roots now certs = .ok () ↔
    Walk now certs (anchored roots now · = true) := by
  induction certs with
  | nil => simp [climb, Walk]
  | cons cert rest ih =>
    cases rest with
    | nil =>
      have hwalk : Walk now [cert] (anchored roots now · = true) ↔
          anchored roots now cert = true := by
        refine ⟨?_, fun h => ⟨0, cert, rfl, by simp [Linked], h⟩⟩
        rintro ⟨k, c, hc, -, h⟩
        rw [List.mem_singleton.mp (List.mem_of_getElem? hc)] at h
        exact h
      simp [hwalk, climb]
    | cons issuer rest =>
      rw [walk_cons, ← ih, Certificate.IssuedBy, climb]
      split_ifs <;> simp_all

theorem anchored_rooted (h : anchored roots now cert = true) : Rooted roots now cert := by
  unfold anchored at h
  split at h
  next root hroot =>
    rw [Bool.and_eq_true] at h
    have hname := List.find?_some hroot
    exact ⟨root, List.mem_of_find?_eq_some hroot, h.1, (beq_iff_eq.mp hname).symm, h.2⟩
  next => cases h

theorem Walk.mono (h : Walk now certs p) (hpq : ∀ c, p c → q c) : Walk now certs q := by
  obtain ⟨k, c, hc, hlinked, hp⟩ := h
  exact ⟨k, c, hc, hlinked, hpq c hp⟩

theorem validate_eq_ok_iff (hparse : parseAll ders = .ok certs) (host : Bytes) :
    (∃ key, validate ders host now roots = .ok key) ↔
      AcceptsHost now host certs ∧ Walk now certs (anchored roots now · = true) := by
  rw [← climb_eq_ok_iff, validate, hparse]
  cases certs with
  | nil => simp [AcceptsHost]
  | cons leaf rest =>
    simp only [AcceptsHost, List.getElem?_cons_zero, Option.some.injEq, exists_eq_left']
    split_ifs with hvalid hhost
    · simp_all
    · simp_all
    · cases hclimb : climb roots now (leaf :: rest) <;> simp_all

/-- A chain is accepted as the path rule says if and only if, where the rule is met, some
certificate that the walk reaches is signed by the first root of its issuer's name. -/
theorem validate_iff_path {ders : List Bytes} (hparse : parseAll ders = .ok certs) (host : Bytes) :
    (((∃ key, validate ders host now roots = .ok key) ↔
        AcceptsHost now host certs ∧ Walk now certs (Rooted roots now)) ↔
      (AcceptsHost now host certs → Walk now certs (Rooted roots now) →
        Walk now certs (anchored roots now · = true))) ∧
    ∀ k cert, certs[k]? = some cert → Linked now certs k → anchored roots now cert = true →
      ∀ ders' certs', parseAll ders' = .ok certs' → certs'.take (k + 1) = certs.take (k + 1) →
        validate ders' host now roots = validate ders host now roots := by
  constructor
  · rw [validate_eq_ok_iff hparse]
    constructor
    · intro h hhost hrooted
      exact (h.mpr ⟨hhost, hrooted⟩).2
    · intro h
      exact ⟨fun hok => ⟨hok.1, hok.2.mono fun c hc => anchored_rooted hc⟩,
        fun hrule => ⟨hrule.1, h hrule.1 hrule.2⟩⟩
  · intro k cert hcert hlinked hanchored ders' certs' hparse' htake
    have hsame : ∀ i ≤ k, certs'[i]? = certs[i]? := by
      intro i hi
      have hget := congrArg (·[i]?) htake
      simpa [List.getElem?_take, Nat.lt_succ_of_le hi] using hget
    have hok : climb roots now certs = .ok () :=
      climb_eq_ok_iff.mpr ⟨k, cert, hcert, hlinked, hanchored⟩
    have hok' : climb roots now certs' = .ok () := by
      refine climb_eq_ok_iff.mpr ⟨k, cert, (hsame k le_rfl).trans hcert, fun i hi => ?_, hanchored⟩
      rw [hsame i hi.le, hsame (i + 1) hi]
      exact hlinked i hi
    have hfirst := hsame 0 (Nat.zero_le k)
    cases certs with
    | nil => cases hok
    | cons leaf rest =>
      cases certs' with
      | nil => cases hok'
      | cons leaf' rest' =>
        obtain rfl : leaf' = leaf := by simpa using hfirst
        simp only [validate, hparse, hparse', hok, hok']

end

section

open StandIn

theorem validate_iff_path_leaf :
    (∃ key, validate [[1]] (ascii "example.test") 10 [root] = .ok key) ↔
      AcceptsHost 10 (ascii "example.test") [leaf] ∧ Walk 10 [leaf] (Rooted [root] 10) :=
  (validate_iff_path rfl _).1.mpr fun _ _ => climb_eq_ok_iff.mp (by decide +kernel)

/-- A directory that also has an older certificate of the root authority. -/
abbrev renewed : CertCrypto :=
  { crypto.toCertCrypto with
    parse := fun der => if der = [3] then .ok { root with pubkey := [4] } else crypto.parse der }

theorem second_root_ignored :
    @validate renewed [[1]] (ascii "example.test") 10 (@trustStore renewed [[3], [2]]) =
      .error .unknownCa ∧
    AcceptsHost 10 (ascii "example.test") [leaf] ∧
    @Walk renewed 10 [leaf] (@Rooted renewed (@trustStore renewed [[3], [2]]) 10) :=
  ⟨by decide +kernel, ⟨leaf, rfl, by decide +kernel, by decide +kernel⟩, 0, leaf, rfl,
    fun i hi => absurd hi (Nat.not_lt_zero i), root, by decide +kernel,
    by decide +kernel, rfl, by decide +kernel⟩

end

end EuroOS.Tls
