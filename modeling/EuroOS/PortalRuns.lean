import EuroOS.Portal

/-!
# Access and audit in runs of the portal

Calls are named by their positions in a run.  Every successful check that is not
allowed by policy has the answer behind its grant as its source, an answer for one
use is the source of one check only, and the audit record of a request shows the
answer to its prompt as long as answers reach their own record.
-/

namespace EuroOS.Portal

open List Function Broker List

variable (calls : List Call)

def brokerAt (n : Nat) : Broker := machine.run .new (calls.take n)

def Prompted (l : Nat) (p : Pending) : Prop :=
  calls[l]? = some (.request p.app p.resource) ∧
    ((brokerAt calls l).request p.app p.resource).2 = .prompt p.id

def Answered (m : Nat) (p : Pending) (allow : Bool) (scope : Scope) : Prop :=
  calls[m]? = some (.respond p.id allow scope) ∧
    (brokerAt calls m).pending.find? (·.id = p.id) = some p

def Used (k : Nat) (app : Str) (resource : Resource) : Prop :=
  calls[k]? = some (.check app resource) ∧ ((brokerAt calls k).check app resource).2 = true

instance (l : Nat) (p : Pending) : Decidable (Prompted calls l p) :=
  inferInstanceAs (Decidable (_ ∧ _))

instance (m : Nat) (p : Pending) (allow : Bool) (scope : Scope) :
    Decidable (Answered calls m p allow scope) := inferInstanceAs (Decidable (_ ∧ _))

structure Stands (m k : Nat) (g : Grant) : Prop where
  before : m < k
  answered : ∃ id, Answered calls m ⟨id, g.app, g.resource⟩ true g.scope ∧
    ∃ l < m, Prompted calls l ⟨id, g.app, g.resource⟩
  notRevoked : ∀ n, m < n → n < k → calls[n]? ≠ some (.revokeAll g.app)
  notEnded : g.scope = .session → ∀ n, m < n → n < k → calls[n]? ≠ some .endSession

/-- The check at position `k` is allowed by policy, or by the answer at its source; an answer for
one use is the source of no other check. -/
def Justified (source : Nat → Option Nat) (k : Nat) (app : Str) (resource : Resource) : Prop :=
  match source k with
  | none => (brokerAt calls k).decision app resource = .allow
  | some m => ∃ scope, Stands calls m k ⟨app, resource, scope⟩ ∧
      (scope = .once → ∀ k' app' resource', Used calls k' app' resource' →
        source k' = some m → k' = k)

variable {calls}

theorem brokerAt_succ (hcall : calls[n]? = some call) :
    brokerAt calls (n + 1) = (machine.step (brokerAt calls n) call).1 := by
  simp [brokerAt, take_add_one, hcall, CallMachine.run_append]

theorem brokerAt_succ_of_none (hcall : calls[n]? = none) :
    brokerAt calls (n + 1) = brokerAt calls n := by simp [brokerAt, take_add_one, hcall]

/-! ## Requests and prompts -/

theorem request_cases (b : Broker) (app : Str) (resource : Resource) :
    ∃ e : AuditEntry, e.app = app ∧ e.resource = resource ∧
      ((b.request app resource).2 = .prompt b.nextPrompt ∧ e.allowed = false ∧
          (b.request app resource).1 = { b with
            nextPrompt := b.nextPrompt + 1
            pending := b.pending ++ [⟨b.nextPrompt, app, resource⟩]
            audit := b.audit ++ [e] } ∨
        (∀ id, (b.request app resource).2 ≠ .prompt id) ∧
          (b.request app resource).1 = { b with audit := b.audit ++ [e] }) := by
  unfold request
  split
  · exact ⟨⟨app, resource, .allow, true⟩, rfl, rfl, .inr ⟨by simp, rfl⟩⟩
  split
  · exact ⟨⟨app, resource, .allow, true⟩, rfl, rfl, .inr ⟨by simp, rfl⟩⟩
  · exact ⟨⟨app, resource, .deny, false⟩, rfl, rfl, .inr ⟨by simp, rfl⟩⟩
  · exact ⟨⟨app, resource, .ask, false⟩, rfl, rfl, .inl ⟨rfl, rfl, rfl⟩⟩

theorem length_patched (b : Broker) (app : Str) (resource : Resource) (allow : Bool) :
    (b.patched app resource allow).length = b.audit.length := by
  unfold patched
  split <;> simp

theorem step_keeps (b : Broker) (hcall : ∀ app r, call ≠ .request app r) :
    (machine.step b call).1.audit.length = b.audit.length ∧
      (machine.step b call).1.nextPrompt = b.nextPrompt ∧
      (machine.step b call).1.pending.Sublist b.pending := by
  cases call with
  | request app r => exact absurd rfl (hcall app r)
  | respond prompt allow scope =>
    simp only [machine, respond]
    split
    · exact ⟨rfl, rfl, Sublist.refl _⟩
    · split_ifs <;> exact ⟨length_patched b _ _ _, rfl, eraseP_sublist⟩
  | check app r =>
    simp only [machine, Broker.check]
    split
    · split_ifs <;> exact ⟨rfl, rfl, Sublist.refl _⟩
    · exact ⟨rfl, rfl, Sublist.refl _⟩
  | setRule app kind decision => exact ⟨rfl, rfl, Sublist.refl _⟩
  | revokeAll app => exact ⟨rfl, rfl, Sublist.refl _⟩
  | endSession => exact ⟨rfl, rfl, Sublist.refl _⟩

theorem Prompted.id_eq (h : Prompted calls l p) : p.id = (brokerAt calls l).nextPrompt := by
  obtain ⟨e, -, -, ⟨hid, -⟩ | ⟨hother, -⟩⟩ := request_cases (brokerAt calls l) p.app p.resource
  · exact Outcome.prompt.inj (h.2.symm.trans hid)
  · exact absurd h.2 (hother _)

theorem Prompted.succ (h : Prompted calls l p) :
    ∃ e : AuditEntry, e.app = p.app ∧ e.resource = p.resource ∧ e.allowed = false ∧
      brokerAt calls (l + 1) = { brokerAt calls l with
        nextPrompt := (brokerAt calls l).nextPrompt + 1
        pending := (brokerAt calls l).pending ++ [p]
        audit := (brokerAt calls l).audit ++ [e] } := by
  have hid := h.id_eq
  obtain ⟨e, happ, hresource, ⟨-, hallowed, heq⟩ | ⟨hother, -⟩⟩ :=
    request_cases (brokerAt calls l) p.app p.resource
  · refine ⟨e, happ, hresource, hallowed, ?_⟩
    rw [brokerAt_succ h.1]
    rw [← hid] at heq ⊢
    exact heq
  · exact absurd h.2 (hother _)

theorem brokerAt_mono (n : Nat) :
    (brokerAt calls n).audit.length ≤ (brokerAt calls (n + 1)).audit.length ∧
      (brokerAt calls n).nextPrompt ≤ (brokerAt calls (n + 1)).nextPrompt := by
  cases hcall : calls[n]? with
  | none => rw [brokerAt_succ_of_none hcall]; exact ⟨le_rfl, le_rfl⟩
  | some call =>
    rw [brokerAt_succ hcall]
    by_cases hrequest : ∃ app r, call = .request app r
    · obtain ⟨app, r, rfl⟩ := hrequest
      obtain ⟨e, -, -, ⟨-, -, heq⟩ | ⟨-, heq⟩⟩ := request_cases (brokerAt calls n) app r
      · simp [machine, heq]
      · simp [machine, heq]
    · push Not at hrequest
      obtain ⟨haudit, hnext, -⟩ := step_keeps (brokerAt calls n) hrequest
      omega

theorem Prompted.lt (h : Prompted calls l p) (hlt : l < n) :
    (brokerAt calls l).audit.length < (brokerAt calls n).audit.length ∧
      p.id < (brokerAt calls n).nextPrompt := by
  obtain ⟨e, -, -, -, heq⟩ := h.succ
  have haudit := monotone_nat_of_le_succ (f := fun n => (brokerAt calls n).audit.length)
    (fun n => (brokerAt_mono n).1) hlt
  have hnext := monotone_nat_of_le_succ (f := fun n => (brokerAt calls n).nextPrompt)
    (fun n => (brokerAt_mono n).2) hlt
  have hid := h.id_eq
  simp only [Nat.succ_eq_add_one, heq, length_append, length_singleton] at haudit hnext
  omega

theorem Prompted.unique (h : Prompted calls l p) (h' : Prompted calls l' p')
    (hsame : p.id = p'.id ∨ (brokerAt calls l).audit.length = (brokerAt calls l').audit.length) :
    l = l' ∧ p = p' := by
  have hid := h.id_eq
  have hid' := h'.id_eq
  have hpos : l = l' := by
    rcases Nat.lt_trichotomy l l' with hlt | heq | hlt
    · have := h.lt hlt
      omega
    · exact heq
    · have := h'.lt hlt
      omega
  subst hpos
  refine ⟨rfl, ?_⟩
  have hcall := h.1.symm.trans h'.1
  cases p
  cases p'
  simp_all

theorem pending_succ (calls : List Call) (n : Nat) :
    (∃ p, Prompted calls n p ∧
      (brokerAt calls (n + 1)).pending = (brokerAt calls n).pending ++ [p]) ∨
      (brokerAt calls (n + 1)).pending.Sublist (brokerAt calls n).pending := by
  cases hcall : calls[n]? with
  | none => exact .inr (by rw [brokerAt_succ_of_none hcall])
  | some call =>
    rw [brokerAt_succ hcall]
    by_cases hrequest : ∃ app r, call = .request app r
    · obtain ⟨app, r, rfl⟩ := hrequest
      obtain ⟨e, -, -, ⟨hid, -, heq⟩ | ⟨-, heq⟩⟩ := request_cases (brokerAt calls n) app r
      · exact .inl ⟨⟨_, app, r⟩, ⟨hcall, hid⟩, by simp [machine, heq]⟩
      · exact .inr (by simp [machine, heq])
    · push Not at hrequest
      exact .inr (step_keeps (brokerAt calls n) hrequest).2.2

/-- The open prompts come from requests, are told apart by number and were not answered. -/
structure PromptsOpen (calls : List Call) (n : Nat) : Prop where
  prompted : ∀ p ∈ (brokerAt calls n).pending, ∃ l < n, Prompted calls l p
  nodup : ((brokerAt calls n).pending.map (·.id)).Nodup
  answered : ∀ m < n, ∀ p allow scope, Answered calls m p allow scope →
    (∃ l < m, Prompted calls l p) ∧ ∀ q ∈ (brokerAt calls n).pending, q.id ≠ p.id

theorem Answered.mem (h : Answered calls m p allow scope) : p ∈ (brokerAt calls m).pending :=
  mem_of_find?_eq_some h.2

theorem Answered.succ (h : Answered calls m p allow scope) :
    (brokerAt calls (m + 1)).pending = (brokerAt calls m).pending.eraseP (·.id = p.id) ∧
      (brokerAt calls (m + 1)).audit = (brokerAt calls m).patched p.app p.resource allow ∧
      (brokerAt calls (m + 1)).grants =
        (brokerAt calls m).grants ++ if allow then [⟨p.app, p.resource, scope⟩] else [] := by
  rw [brokerAt_succ h.1]
  simp only [machine, respond, h.2]
  split_ifs <;> simp [setRule]

theorem PromptsOpen.succ (h : PromptsOpen calls n) : PromptsOpen calls (n + 1) := by
  rcases pending_succ calls n with ⟨p, hnew, hpending⟩ | hsub
  · refine ⟨?_, ?_, ?_⟩
    · rw [hpending]
      intro q hq
      rcases mem_append.mp hq with hq | hq
      · obtain ⟨l, hl, hprompted⟩ := h.prompted q hq
        exact ⟨l, hl.trans (Nat.lt_succ_self n), hprompted⟩
      · rw [mem_singleton.mp hq]
        exact ⟨n, Nat.lt_succ_self n, hnew⟩
    · rw [hpending, map_append, nodup_append]
      refine ⟨h.nodup, by simp, ?_⟩
      intro id hmem other hother
      obtain ⟨q, hq, rfl⟩ := mem_map.mp hmem
      obtain ⟨l, hl, hprompted⟩ := h.prompted q hq
      have hlt := (hprompted.lt hl).2
      have hid := hnew.id_eq
      rw [map_cons, map_nil, mem_singleton] at hother
      omega
    · intro m hm q allow scope hanswer
      have hm' : m < n := by
        rcases Nat.lt_succ_iff_lt_or_eq.mp hm with hm | rfl
        · exact hm
        · cases hnew.1.symm.trans hanswer.1
      obtain ⟨⟨l, hl, hprompted⟩, hclosed⟩ := h.answered m hm' q allow scope hanswer
      refine ⟨⟨l, hl, hprompted⟩, ?_⟩
      rw [hpending]
      intro r hr
      rcases mem_append.mp hr with hr | hr
      · exact hclosed r hr
      have hlt := (hprompted.lt (hl.trans hm')).2
      have hid := hnew.id_eq
      rw [mem_singleton.mp hr]
      omega
  · refine ⟨?_, h.nodup.sublist (hsub.map _), ?_⟩
    · intro q hq
      obtain ⟨l, hl, hprompted⟩ := h.prompted q (hsub.subset hq)
      exact ⟨l, hl.trans (Nat.lt_succ_self n), hprompted⟩
    · intro m hm q allow scope hanswer
      rcases Nat.lt_succ_iff_lt_or_eq.mp hm with hm | rfl
      · obtain ⟨hprompted, hclosed⟩ := h.answered m hm q allow scope hanswer
        exact ⟨hprompted, fun r hr => hclosed r (hsub.subset hr)⟩
      refine ⟨h.prompted q hanswer.mem, fun r hr hsame => ?_⟩
      rw [hanswer.succ.1] at hr
      have herase : (((brokerAt calls m).pending.eraseP (·.id = q.id)).map (·.id)) =
          ((brokerAt calls m).pending.map (·.id)).erase q.id := by
        rw [erase_eq_eraseP', eraseP_map]
        congr 1
      have hmem := mem_map_of_mem (f := Pending.id) hr
      rw [herase, hsame] at hmem
      exact h.nodup.not_mem_erase hmem

theorem promptsOpen (calls : List Call) (n : Nat) : PromptsOpen calls n := by
  induction n with
  | zero => exact ⟨by simp [brokerAt, new], by simp [brokerAt, new], by simp⟩
  | succ n ih => exact ih.succ

theorem Answered.unique (h : Answered calls m p allow scope)
    (h' : Answered calls m' p' allow' scope') (hid : p.id = p'.id) : m = m' := by
  rcases Nat.lt_trichotomy m m' with hlt | heq | hlt
  · exact absurd hid.symm (((promptsOpen calls m').answered m hlt p _ _ h).2 p' h'.mem)
  · exact heq
  · exact absurd hid (((promptsOpen calls m).answered m' hlt p' _ _ h').2 p h.mem)

theorem Answered.prompted (h : Answered calls m p allow scope) : ∃ l < m, Prompted calls l p :=
  (promptsOpen calls m).prompted p h.mem

/-! ## The records behind the prompts -/

variable (calls) in
/-- The answers given before position `n` stand in the records of the requests behind them. -/
def AuditMatches (n : Nat) : Prop :=
  ∀ l m p allow scope, m < n → Prompted calls l p → Answered calls m p allow scope →
    ((brokerAt calls n).audit[(brokerAt calls l).audit.length]?).map (·.allowed) = some allow

variable (calls) in
/-- An answer at position `m` patches the record of the request behind it.  Otherwise that record
shows the answer already, and the patched one belongs to no prompt with the opposite answer. -/
def Settles (m : Nat) : Prop :=
  ∀ l p allow scope, Prompted calls l p → Answered calls m p allow scope →
    lastRecord (brokerAt calls m).audit p.app p.resource = some (brokerAt calls l).audit.length ∨
      ((brokerAt calls m).audit[(brokerAt calls l).audit.length]?).map (·.allowed) = some allow ∧
        ∀ l' m' p' allow' scope', m' < m → Prompted calls l' p' → Answered calls m' p' allow' scope' →
          lastRecord (brokerAt calls m).audit p.app p.resource =
            some (brokerAt calls l').audit.length → allow' = allow

theorem getElem?_patched (b : Broker) (app : Str) (resource : Resource) (allow : Bool) (i : Nat) :
    ((b.patched app resource allow)[i]?).map (·.allowed) =
      if lastRecord b.audit app resource = some i then (b.audit[i]?).map fun _ => allow
      else (b.audit[i]?).map (·.allowed) := by
  unfold patched
  cases hlast : lastRecord b.audit app resource with
  | none => simp
  | some j =>
    rw [getElem?_modify]
    by_cases hij : j = i
    · simp [hij, comp_def]
    · simp [hij]

theorem allowed_succ (hanswer : ∀ p allow scope, ¬ Answered calls n p allow scope)
    (hi : i < (brokerAt calls n).audit.length) :
    (brokerAt calls (n + 1)).audit[i]? = (brokerAt calls n).audit[i]? := by
  cases hcall : calls[n]? with
  | none => rw [brokerAt_succ_of_none hcall]
  | some call =>
    rw [brokerAt_succ hcall]
    cases call with
    | request app r =>
      obtain ⟨e, -, -, ⟨-, -, heq⟩ | ⟨-, heq⟩⟩ := request_cases (brokerAt calls n) app r <;>
        simp [machine, heq, getElem?_append_left hi]
    | respond prompt allow scope =>
      simp only [machine, respond]
      split
      · rfl
      rename_i p hfind
      have hid : p.id = prompt := by simpa using find?_some hfind
      subst hid
      exact absurd ⟨hcall, hfind⟩ (hanswer p allow scope)
    | check app r =>
      simp only [machine, Broker.check]
      split
      · split_ifs <;> rfl
      · rfl
    | setRule app kind decision => rfl
    | revokeAll app => rfl
    | endSession => rfl

theorem AuditMatches.succ (h : AuditMatches calls n) (hsettles : Settles calls n) :
    AuditMatches calls (n + 1) := by
  intro l m p allow scope hm hprompted hanswer
  obtain ⟨l', hl', hprompted'⟩ := hanswer.prompted
  obtain ⟨rfl, -⟩ := hprompted.unique hprompted' (.inl rfl)
  have hlt := (hprompted.lt (hl'.trans_le (Nat.lt_succ_iff.mp hm))).1
  by_cases hnow : ∃ q a s, Answered calls n q a s
  · obtain ⟨q, a, s, hq⟩ := hnow
    obtain ⟨lq, -, hpromptedq⟩ := hq.prompted
    rw [hq.succ.2.1, getElem?_patched]
    rcases Nat.lt_succ_iff_lt_or_eq.mp hm with hm | rfl
    · -- An earlier answer: its record is patched only with the same answer.
      have hold := h l m p allow scope hm hprompted hanswer
      split_ifs with hlast
      · have hget := getElem?_eq_getElem hlt
        rcases hsettles lq q a s hpromptedq hq with hown | ⟨-, hother⟩
        · obtain ⟨-, rfl⟩ := hprompted.unique hpromptedq
            (.inr (Option.some.inj (hlast.symm.trans hown)))
          exact absurd (hanswer.unique hq rfl) (by omega)
        · rw [hget, hother l m p allow scope hm hprompted hanswer hlast]
          rfl
      · exact hold
    · -- The answer at this position.
      have hcall := hanswer.1.symm.trans hq.1
      have hid : p.id = q.id := by simp_all
      have hpq : p = q := by
        have hfind := hq.2
        rw [← hid] at hfind
        exact Option.some.inj (hanswer.2.symm.trans hfind)
      subst hpq
      have hallow : allow = a := by simp_all
      subst hallow
      have hget := getElem?_eq_getElem hlt
      split_ifs with hlast
      · rw [hget]
        rfl
      · exact ((hsettles l p allow scope hprompted hanswer).resolve_left hlast).1
  · push Not at hnow
    rw [allowed_succ hnow hlt]
    refine h l m p allow scope ?_ hprompted hanswer
    rcases Nat.lt_succ_iff_lt_or_eq.mp hm with hm | rfl
    · exact hm
    · exact absurd hanswer (hnow p allow scope)

theorem settles_of_auditMatches (h : AuditMatches calls (m + 1)) : Settles calls m := by
  intro l p allow scope hprompted hanswer
  by_cases hlast : lastRecord (brokerAt calls m).audit p.app p.resource =
      some (brokerAt calls l).audit.length
  · exact .inl hlast
  refine .inr ⟨?_, ?_⟩
  · have hnow := h l m p allow scope (Nat.lt_succ_self m) hprompted hanswer
    rwa [hanswer.succ.2.1, getElem?_patched, if_neg hlast] at hnow
  · intro l' m' p' allow' scope' hm' hprompted' hanswer' hlast'
    have hnow := h l' m' p' allow' scope' (hm'.trans (Nat.lt_succ_self m)) hprompted' hanswer'
    rw [hanswer.succ.2.1, getElem?_patched, if_pos hlast'] at hnow
    cases hget : (brokerAt calls m).audit[(brokerAt calls l').audit.length]? with
    | none => simp [hget] at hnow
    | some e => simpa [hget] using hnow.symm

/-! ## The answers behind the grants -/

/-- Each grant of a broker with the position of the answer that gave it, and the answers that
earlier checks have used. -/
structure Backed (calls : List Call) (n : Nat) (book : List (Grant × Nat))
    (source : Nat → Option Nat) : Prop where
  grants : (brokerAt calls n).grants = book.map Prod.fst
  stands : ∀ e ∈ book, Stands calls e.2 n e.1
  nodup : (book.map Prod.snd).Nodup
  unused : ∀ e ∈ book, e.1.scope = .once → ∀ k, source k ≠ some e.2
  past : ∀ k m, source k = some m → k < n ∧ m < n
  justified : ∀ k < n, ∀ app resource, Used calls k app resource →
    Justified calls source k app resource

theorem Stands.succ (h : Stands calls m n g) (hrevoke : calls[n]? ≠ some (.revokeAll g.app))
    (hend : g.scope = .session → calls[n]? ≠ some .endSession) : Stands calls m (n + 1) g := by
  refine ⟨h.before.trans (Nat.lt_succ_self n), h.answered, ?_, ?_⟩
  · intro k hm hk
    rcases Nat.lt_succ_iff_lt_or_eq.mp hk with hk | rfl
    · exact h.notRevoked k hm hk
    · exact hrevoke
  · intro hscope k hm hk
    rcases Nat.lt_succ_iff_lt_or_eq.mp hk with hk | rfl
    · exact h.notEnded hscope k hm hk
    · exact hend hscope

section

variable (h : Backed calls n book source)
include h

theorem Backed.keep (hsub : book'.Sublist book)
    (hgrants : (brokerAt calls (n + 1)).grants = book'.map Prod.fst)
    (hstands : ∀ e ∈ book', calls[n]? ≠ some (.revokeAll e.1.app) ∧ (e.1.scope = .session →
      calls[n]? ≠ some .endSession))
    (hused : ∀ app resource, Used calls n app resource →
      (brokerAt calls n).decision app resource = .allow) :
    Backed calls (n + 1) book' source := by
  refine ⟨hgrants, ?_, h.nodup.sublist (hsub.map _), fun e he => h.unused e (hsub.subset he), ?_, ?_⟩
  · intro e he
    exact (h.stands e (hsub.subset he)).succ (hstands e he).1 (hstands e he).2
  · intro k m hk
    have hlt := h.past k m hk
    omega
  · intro k hk app resource huse
    rcases Nat.lt_succ_iff_lt_or_eq.mp hk with hk | rfl
    · exact h.justified k hk app resource huse
    have hnone : source k = none := by
      cases hk' : source k with
      | none => rfl
      | some m => exact absurd (h.past k m hk').1 (lt_irrefl k)
    unfold Justified
    rw [hnone]
    exact hused app resource huse

theorem Backed.answer (hanswer : Answered calls n p true scope) :
    Backed calls (n + 1) (book ++ [(⟨p.app, p.resource, scope⟩, n)]) source := by
  have hcall : ∀ call, (∀ id a s, call ≠ .respond id a s) → calls[n]? ≠ some call := by
    intro call hne heq
    exact hne _ _ _ (Option.some.inj (heq.symm.trans hanswer.1))
  obtain ⟨l, hl, hprompted⟩ := hanswer.prompted
  have hkept := fun e (he : e ∈ book) => (h.stands e he).succ (hcall _ (by simp))
    (fun _ => hcall _ (by simp))
  refine ⟨?_, ?_, ?_, ?_, ?_, ?_⟩
  · rw [hanswer.succ.2.2, h.grants]
    simp
  · intro e he
    rcases mem_append.mp he with he | he
    · exact hkept e he
    rw [mem_singleton.mp he]
    exact ⟨Nat.lt_succ_self n, ⟨p.id, hanswer, l, hl, hprompted⟩, fun k hm hk => by omega,
      fun _ k hm hk => by omega⟩
  · rw [map_append, nodup_append]
    refine ⟨h.nodup, by simp, ?_⟩
    intro m hm m' hm'
    obtain ⟨e, he, rfl⟩ := mem_map.mp hm
    have hlt := (h.stands e he).before
    rw [map_cons, map_nil, mem_singleton] at hm'
    omega
  · intro e he hscope k
    rcases mem_append.mp he with he | he
    · exact h.unused e he hscope k
    · rw [mem_singleton.mp he]
      exact fun hk => absurd (h.past k n hk).2 (lt_irrefl n)
  · intro k m hk
    have hlt := h.past k m hk
    omega
  · intro k hk app resource huse
    rcases Nat.lt_succ_iff_lt_or_eq.mp hk with hk | rfl
    · exact h.justified k hk app resource huse
    · exact absurd huse.1 (hcall _ (by simp))

omit h in
theorem Stands.scope_eq (h : Stands calls m k g) (h' : Stands calls m k' g') :
    g.scope = g'.scope := by
  obtain ⟨id, hanswer, -⟩ := h.answered
  obtain ⟨id', hanswer', -⟩ := h'.answered
  have hcall := hanswer.1.symm.trans hanswer'.1
  simp_all

theorem Backed.use (he : e ∈ book) (hsub : book'.Sublist book)
    (hgrants : (brokerAt calls (n + 1)).grants = book'.map Prod.fst)
    (honce : e.1.scope = .once → ∀ e' ∈ book', e'.2 ≠ e.2)
    (hcall : calls[n]? = some (.check e.1.app e.1.resource)) :
    Backed calls (n + 1) book' (update source n (some e.2)) := by
  have hlt := (h.stands e he).before
  have hother : ∀ k m, update source n (some e.2) k = some m →
      k = n ∧ m = e.2 ∨ k < n ∧ source k = some m := by
    intro k m hk
    by_cases heq : k = n
    · subst heq
      rw [update_self] at hk
      exact .inl ⟨rfl, (Option.some.inj hk).symm⟩
    · rw [update_of_ne heq] at hk
      exact .inr ⟨(h.past k m hk).1, hk⟩
  refine ⟨hgrants, ?_, h.nodup.sublist (hsub.map _), ?_, ?_, ?_⟩
  · intro e' he'
    exact (h.stands e' (hsub.subset he')).succ (by simp [hcall]) (by simp [hcall])
  · intro e' he' hscope k hk
    rcases hother k e'.2 hk with ⟨-, hsame⟩ | ⟨-, hk⟩
    · have hscope' := (h.stands e he).scope_eq (hsame ▸ h.stands e' (hsub.subset he'))
      exact honce (hscope'.trans hscope) e' he' hsame
    · exact h.unused e' (hsub.subset he') hscope k hk
  · intro k m hk
    rcases hother k m hk with ⟨rfl, rfl⟩ | ⟨-, hk⟩
    · omega
    · have := h.past k m hk
      omega
  · intro k hk app resource huse
    rcases Nat.lt_succ_iff_lt_or_eq.mp hk with hk | rfl
    · have hold := h.justified k hk app resource huse
      unfold Justified at hold ⊢
      rw [update_of_ne (by omega)]
      cases hsource : source k with
      | none => rwa [hsource] at hold
      | some m =>
        rw [hsource] at hold
        obtain ⟨scope, hstands, hunique⟩ := hold
        refine ⟨scope, hstands, fun hscope k' app' resource' huse' hk' => ?_⟩
        rcases hother k' m hk' with ⟨-, hm⟩ | ⟨-, hk'⟩
        · have hscope' : e.1.scope = scope := (h.stands e he).scope_eq (hm ▸ hstands)
          exact absurd (hm ▸ hsource) (h.unused e he (hscope'.trans hscope) k)
        · exact hunique hscope k' app' resource' huse' hk'
    · have hsame := hcall.symm.trans huse.1
      have happ : e.1.app = app ∧ e.1.resource = resource := by simpa using hsame
      obtain ⟨rfl, rfl⟩ := happ
      unfold Justified
      rw [update_self]
      refine ⟨e.1.scope, h.stands e he, fun hscope k' app' resource' huse' hk' => ?_⟩
      rcases hother k' e.2 hk' with ⟨hk', -⟩ | ⟨-, hk'⟩
      · exact hk'
      · exact absurd hk' (h.unused e he hscope k')

theorem Backed.check (hcall : calls[n]? = some (.check app resource)) :
    ∃ book' source', Backed calls (n + 1) book' source' := by
  have hsucc : brokerAt calls (n + 1) = ((brokerAt calls n).check app resource).1 :=
    brokerAt_succ hcall
  cases hfind : (brokerAt calls n).grants.findIdx? fun g => g.app = app && g.resource = resource with
  | none =>
    refine ⟨book, source, h.keep (Sublist.refl _) ?_ (by simp [hcall]) ?_⟩
    · rw [hsucc, Broker.check, hfind]
      exact h.grants
    · intro app' resource' huse
      obtain ⟨rfl, rfl⟩ : app = app' ∧ resource = resource' := by
        simpa using hcall.symm.trans huse.1
      have hallowed := huse.2
      rw [Broker.check, hfind] at hallowed
      simpa using hallowed
  | some pos =>
    obtain ⟨hpos, hmatch, -⟩ := findIdx?_eq_some_iff_getElem.mp hfind
    have hget : (brokerAt calls n).grants[pos]? = (book[pos]?).map Prod.fst := by
      rw [h.grants, getElem?_map]
    have hlen : pos < book.length := by simpa [h.grants] using hpos
    have hentry : book[pos].1.app = app ∧ book[pos].1.resource = resource := by
      simpa [h.grants] using hmatch
    have hmem := getElem_mem hlen
    rw [← hentry.1, ← hentry.2] at hcall
    have hcheck : (brokerAt calls (n + 1)).grants =
        if book[pos].1.scope = .once then (brokerAt calls n).grants.eraseIdx pos
        else (brokerAt calls n).grants := by
      rw [hsucc, Broker.check, hfind]
      simp only [hget, getElem?_eq_getElem hlen, Option.map_some, Option.some.injEq]
      split_ifs <;> rfl
    by_cases honce : book[pos].1.scope = .once
    · refine ⟨book.eraseIdx pos, _, h.use hmem (eraseIdx_sublist _ _) ?_ ?_ hcall⟩
      · rw [hcheck, if_pos honce, h.grants, eraseIdx_map]
      · intro _ e he hsame
        obtain ⟨i, hi, hne, rfl⟩ := mem_eraseIdx_iff_getElem.mp he
        refine hne ((@Nodup.getElem_inj_iff _ _ h.nodup i (by simpa using hi) pos
          (by simpa using hlen)).mp ?_)
        simpa using hsame
    · refine ⟨book, _, h.use hmem (Sublist.refl _) ?_ (fun hscope => absurd hscope honce) hcall⟩
      rw [hcheck, if_neg honce, h.grants]

theorem Backed.succ : ∃ book' source', Backed calls (n + 1) book' source' := by
  cases hcall : calls[n]? with
  | none =>
    refine ⟨book, source, h.keep (Sublist.refl _) ?_ (by simp [hcall]) ?_⟩
    · rw [brokerAt_succ_of_none hcall, h.grants]
    · intro app resource huse
      cases hcall.symm.trans huse.1
  | some call =>
    have hsucc := brokerAt_succ hcall
    have hquiet : (∀ app r, call ≠ .check app r) → ∀ app r, Used calls n app r →
        (brokerAt calls n).decision app r = .allow := by
      intro hne app r huse
      exact absurd (Option.some.inj (hcall.symm.trans huse.1)) (hne app r)
    cases call with
    | check app r => exact h.check hcall
    | request app r =>
      refine ⟨book, source, h.keep (Sublist.refl _) ?_ (by simp [hcall]) (hquiet (by simp))⟩
      obtain ⟨e, -, -, ⟨-, -, heq⟩ | ⟨-, heq⟩⟩ := request_cases (brokerAt calls n) app r <;>
        simp [hsucc, machine, heq, h.grants]
    | respond prompt allow scope =>
      cases hfind : (brokerAt calls n).pending.find? (·.id = prompt) with
      | none =>
        refine ⟨book, source, h.keep (Sublist.refl _) ?_ (by simp [hcall])
          (hquiet (by simp))⟩
        simp [hsucc, machine, respond, hfind, h.grants]
      | some p =>
        have hid : p.id = prompt := by simpa using find?_some hfind
        subst hid
        have hanswer : Answered calls n p allow scope := ⟨hcall, hfind⟩
        cases allow with
        | true => exact ⟨_, _, h.answer hanswer⟩
        | false =>
          refine ⟨book, source, h.keep (Sublist.refl _) ?_ (by simp [hcall])
            (hquiet (by simp))⟩
          rw [hanswer.succ.2.2, h.grants]
          simp
    | setRule app kind decision =>
      refine ⟨book, source, h.keep (Sublist.refl _) ?_ (by simp [hcall]) (hquiet (by simp))⟩
      simp [hsucc, machine, setRule, h.grants]
    | revokeAll app =>
      refine ⟨book.filter fun e => e.1.app ≠ app, source,
        h.keep filter_sublist ?_ ?_ (hquiet (by simp))⟩
      · simp [hsucc, machine, revokeAll, h.grants, filter_map, comp_def]
      · intro e he
        have happ : e.1.app ≠ app := by simpa using (mem_filter.mp he).2
        simpa [hcall] using happ.symm
    | endSession =>
      refine ⟨book.filter fun e => e.1.scope ≠ .session, source,
        h.keep filter_sublist ?_ ?_ (hquiet (by simp))⟩
      · simp [hsucc, machine, endSession, h.grants, filter_map, comp_def]
      · intro e he
        have hscope : e.1.scope ≠ .session := by simpa using (mem_filter.mp he).2
        simpa [hcall] using hscope

end

theorem exists_backed (calls : List Call) (n : Nat) : ∃ book source, Backed calls n book source := by
  induction n with
  | zero => exact ⟨[], fun _ => none, by constructor <;> simp [brokerAt, new]⟩
  | succ n ih =>
    obtain ⟨book, source, h⟩ := ih
    exact h.succ

/-- In every run the successful checks follow the user's answers, and the audit trail shows every
answer in the record of its request exactly if each answer settles. -/
theorem checks_justified_and_audit_iff (calls : List Call) :
    (∃ source, ∀ k app resource, Used calls k app resource → Justified calls source k app resource) ∧
      ((∀ n, AuditMatches calls n) ↔ ∀ m, Settles calls m) := by
  refine ⟨?_, fun h m => settles_of_auditMatches (h (m + 1)), fun h n => ?_⟩
  · obtain ⟨book, source, h⟩ := exists_backed calls calls.length
    refine ⟨source, fun k app resource huse => h.justified k ?_ app resource huse⟩
    exact (List.getElem?_eq_some_iff.mp huse.1).1
  · induction n with
    | zero => exact fun l m p allow scope hm => absurd hm (Nat.not_lt_zero m)
    | succ n ih => exact ih.succ (h n)

/-- Two prompts for the camera, the first is answered with yes: its record still says no. -/
theorem not_auditMatches_two_prompts :
    ¬ AuditMatches [.request ['a'] .camera, .request ['a'] .camera, .respond 1 true .once] 3 := by
  intro h
  have hrecord := h 0 2 ⟨1, ['a'], .camera⟩ true .once (by decide) (by decide) (by decide)
  revert hrecord
  decide

end EuroOS.Portal
