import EuroOS.Manifest

/-!
# The texts of manifest values

How the reader sees the text that the writer makes of a string or a list of
strings.  The writer escapes quotes and backslashes and the reader does not undo
it, so a string with one of them is read as something else: up to the first quote
it has become longer (`lead_escaped`).
-/

namespace EuroOS.Agent.Toml

open List Str

def Plain (s : Str) : Prop := '"' ∉ s ∧ '\\' ∉ s

instance (s : Str) : Decidable (Plain s) := inferInstanceAs (Decidable (_ ∧ _))

variable {c : Char} {s a b z : Str} {p : Char → Bool} {items : List Str}

theorem Plain.cons (h : Plain (c :: s)) : c ≠ '"' ∧ c ≠ '\\' ∧ Plain s := by
  simp only [Plain, mem_cons, not_or] at h
  exact ⟨Ne.symm h.1.1, Ne.symm h.2.1, h.1.2, h.2.2⟩

theorem escaped_eq_self (h : Plain s) (hfeed : '\n' ∉ s) : escaped s = s := by
  induction s with
  | nil => rfl
  | cons c s ih =>
    obtain ⟨hquote, hslash, hs⟩ := h.cons
    rw [mem_cons, not_or] at hfeed
    have hc : escapeChar c = [c] := by simp [escapeChar, hquote, hslash, Ne.symm hfeed.1]
    rw [escaped, flatMap_cons, hc, ← escaped, ih hs hfeed.2]
    rfl

theorem notMem_feed_escaped (s : Str) : '\n' ∉ escaped s := by
  intro h
  obtain ⟨c, -, hc⟩ := mem_flatMap.mp h
  unfold escapeChar at hc
  split_ifs at hc with hquote hslash hfeed
  · simp at hc
  · simp at hc
  · simp at hc
  · exact hfeed (mem_singleton.mp hc).symm

theorem mem_of_mem_escaped (h : c ∈ escaped s) : c = '\\' ∨ c = 'n' ∨ c ∈ s := by
  obtain ⟨d, hd, hc⟩ := mem_flatMap.mp h
  unfold escapeChar at hc
  split_ifs at hc <;> simp at hc <;> aesop

/-! ## Up to the first quote -/

def lead (s : Str) : Str := s.takeWhile (· ≠ '"')

@[simp] theorem lead_nil : lead [] = [] := rfl

@[simp] theorem lead_quote (s : Str) : lead ('"' :: s) = [] := by simp [lead]

theorem lead_cons (hc : c ≠ '"') (s : Str) : lead (c :: s) = c :: lead s := by simp [lead, hc]

theorem quote_notMem_lead (s : Str) : '"' ∉ lead s := by
  induction s with
  | nil => simp
  | cons c s ih =>
    by_cases hc : c = '"'
    · simp [hc]
    · rw [lead_cons hc]
      simp [ih, Ne.symm hc]

theorem lead_append_quote (ha : '"' ∉ a) (s : Str) : lead (a ++ '"' :: s) = a := by
  induction a with
  | nil => simp
  | cons c a ih =>
    rw [mem_cons, not_or] at ha
    rw [cons_append, lead_cons (Ne.symm ha.1), ih ha.2]

theorem lead_append_cons (a b : Str) : lead (a ++ '"' :: b) = lead (a ++ ['"']) := by
  induction a with
  | nil => simp
  | cons c a ih =>
    by_cases hc : c = '"'
    · simp [hc]
    · rw [cons_append, cons_append, lead_cons hc, lead_cons hc, ih]

theorem isPrefix_lead_quote (a b : Str) : lead (a ++ ['"']) ++ ['"'] <+: a ++ '"' :: b := by
  induction a with
  | nil => simp
  | cons c a ih =>
    by_cases hc : c = '"'
    · simp [hc]
    rw [cons_append, lead_cons hc, cons_append, cons_append, cons_prefix_cons]
    exact ⟨rfl, ih⟩

theorem length_lead_escaped (s : Str) :
    (lead (s ++ ['"'])).length ≤ (lead (escaped s ++ ['"'])).length ∧
      ((lead (s ++ ['"'])).length = (lead (escaped s ++ ['"'])).length → Plain s) := by
  induction s with
  | nil => simp [escaped, Plain]
  | cons c s ih =>
    have hcons : escaped (c :: s) = escapeChar c ++ escaped s := flatMap_cons
    rw [hcons, append_assoc]
    by_cases hquote : c = '"'
    · subst hquote
      simp [escapeChar, lead_cons]
    have hlead : lead (c :: s ++ ['"']) = c :: lead (s ++ ['"']) := lead_cons hquote _
    rw [hlead]
    by_cases hslash : c = '\\'
    · subst hslash
      have hesc : lead (escapeChar '\\' ++ (escaped s ++ ['"'])) =
          '\\' :: '\\' :: lead (escaped s ++ ['"']) := by simp [escapeChar, lead_cons]
      rw [hesc]
      simp only [length_cons]
      omega
    · by_cases hfeed : c = '\n'
      · subst hfeed
        have hesc : lead (escapeChar '\n' ++ (escaped s ++ ['"'])) =
            '\\' :: 'n' :: lead (escaped s ++ ['"']) := by simp [escapeChar, lead_cons]
        rw [hesc]
        simp only [length_cons]
        omega
      · have hesc : lead (escapeChar c ++ (escaped s ++ ['"'])) =
            c :: lead (escaped s ++ ['"']) := by simp [escapeChar, hquote, hslash, hfeed, lead_cons]
        rw [hesc]
        simp only [length_cons, Nat.add_le_add_iff_right, Nat.add_right_cancel_iff]
        refine ⟨ih.1, fun heq => ?_⟩
        obtain ⟨hq, hs⟩ := ih.2 heq
        exact ⟨by simp [hq, Ne.symm hquote], by simp [hs, Ne.symm hslash]⟩

theorem plain_of_lead_eq (h : lead (s ++ ['"']) = lead (escaped s ++ ['"'])) : Plain s :=
  (length_lead_escaped s).2 (congrArg List.length h)

/-! ## Comments and white space -/

theorem stripCommentFrom_isPrefix (inStr : Bool) (s : Str) : stripCommentFrom inStr s <+: s := by
  induction s generalizing inStr with
  | nil => simp [stripCommentFrom]
  | cons c s ih =>
    unfold stripCommentFrom
    split_ifs
    · exact cons_prefix_cons.mpr ⟨rfl, ih _⟩
    · exact nil_prefix
    · exact cons_prefix_cons.mpr ⟨rfl, ih _⟩

theorem stripCommentFrom_quote (inStr : Bool) (s : Str) :
    stripCommentFrom inStr ('"' :: s) = '"' :: stripCommentFrom (!inStr) s := by
  simp [stripCommentFrom]

theorem stripCommentFrom_inside (ha : '"' ∉ a) (b : Str) :
    stripCommentFrom true (a ++ b) = a ++ stripCommentFrom true b := by
  induction a with
  | nil => rfl
  | cons c a ih =>
    rw [mem_cons, not_or] at ha
    simp [stripCommentFrom, Ne.symm ha.1, ih ha.2]

theorem stripCommentFrom_outside (ha : '"' ∉ a) (hhash : '#' ∉ a) (b : Str) :
    stripCommentFrom false (a ++ b) = a ++ stripCommentFrom false b := by
  induction a with
  | nil => rfl
  | cons c a ih =>
    rw [mem_cons, not_or] at ha hhash
    simp [stripCommentFrom, Ne.symm ha.1, Ne.symm hhash.1, ih ha.2 hhash.2]

theorem isPrefix_stripCommentFrom (a b : Str) :
    lead (a ++ ['"']) ++ ['"'] <+: stripCommentFrom true (a ++ '"' :: b) := by
  obtain ⟨rest, hrest⟩ := isPrefix_lead_quote a b
  rw [← hrest, append_assoc, stripCommentFrom_inside (quote_notMem_lead _),
    singleton_append, stripCommentFrom_quote]
  exact (prefix_append_right_inj _).mpr (by simp)

theorem trimEndBy_isPrefix (p : Char → Bool) (s : Str) : trimEndBy p s <+: s := by
  rw [trimEndBy, ← reverse_suffix, reverse_reverse]
  exact dropWhile_suffix p

theorem dropWhile_ne_nil (hc : c ∈ s) (hp : p c = false) : s.dropWhile p ≠ [] := by
  induction s with
  | nil => simp at hc
  | cons d s ih =>
    rcases mem_cons.mp hc with rfl | hc
    · simp [hp]
    rw [dropWhile_cons]
    split_ifs
    · exact ih hc
    · simp

theorem trimEndBy_append (a : Str) (hc : c ∈ b) (hp : p c = false) :
    trimEndBy p (a ++ b) = a ++ trimEndBy p b := by
  have hne := dropWhile_ne_nil (mem_reverse.mpr hc) hp
  rw [trimEndBy, trimEndBy, reverse_append, dropWhile_append,
    if_neg (by simpa using hne), reverse_append, reverse_reverse]

theorem trimEndBy_concat (a : Str) (hp : p c = false) : trimEndBy p (a ++ [c]) = a ++ [c] := by
  rw [trimEndBy_append a (mem_singleton_self c) hp]
  simp [trimEndBy, hp]

theorem isPrefix_trimEndBy (a b : Str) (hp : p c = false) :
    a ++ [c] <+: trimEndBy p (a ++ c :: b) := by
  rw [trimEndBy_append a mem_cons_self hp, trimEndBy, reverse_cons, dropWhile_append]
  refine (prefix_append_right_inj a).mpr ?_
  split_ifs <;> simp [hp]

/-! ## Quoted texts and arrays -/

theorem trim_of_start (hc : isWhitespace c = false) (s : Str) :
    trim (c :: s) = trimEndBy isWhitespace (c :: s) := by simp [trim, trimStart, trimStartBy, hc]

theorem trim_space (s : Str) : trim (' ' :: s) = trim s := by
  simp [trim, trimStart, trimStartBy, show isWhitespace ' ' = true from rfl]

theorem quoted_quote (v : Str) : quoted ('"' :: (v ++ ['"'])) = some v := by
  have hlast : ('"' :: (v ++ ['"'])).getLast? = some '"' := by rw [← cons_append, getLast?_concat]
  simp [quoted, hlast]

theorem eq_of_quoted {v : Str} (h : quoted s = some v) : s = '"' :: (v ++ ['"']) := by
  unfold quoted at h
  split_ifs at h with hs
  obtain ⟨hlen, hhead, hlast⟩ := hs
  cases s with
  | nil => simp at hhead
  | cons c s =>
    cases s using List.reverseRecOn with
    | nil => simp at hlen
    | append_singleton s d =>
      rw [← cons_append, getLast?_concat] at hlast
      simp_all

theorem trim_quote (v : Str) : trim ('"' :: (v ++ ['"'])) = '"' :: (v ++ ['"']) := by
  rw [trim_of_start (by decide), ← cons_append]
  exact trimEndBy_concat _ (by decide)

theorem filterMap_quoted_singleton (a : Str) :
    [a].filterMap (fun part => quoted (trim part)) = (quoted (trim a)).toList := by
  cases hquoted : quoted (trim a) <;> simp [hquoted]

theorem parseArrayBody_of_notMem (ha : ',' ∉ a) : parseArrayBody a = (quoted (trim a)).toList := by
  rw [parseArrayBody, splitOn_eq_singleton ha, filterMap_quoted_singleton]

theorem parseArrayBody_append (ha : ',' ∉ a) (b : Str) :
    parseArrayBody (a ++ ',' :: b) = (quoted (trim a)).toList ++ parseArrayBody b := by
  rw [parseArrayBody, splitOn_append_cons_self, splitOn_eq_singleton ha,
    filterMap_append, filterMap_quoted_singleton, parseArrayBody]

theorem parseArrayBody_space (b : Str) : parseArrayBody (' ' :: b) = parseArrayBody b := by
  rw [parseArrayBody, parseArrayBody, splitOn_cons_eq_if_modifyHead, if_neg (by decide)]
  cases b.splitOn ',' with
  | nil => rfl
  | cons piece pieces => simp [filterMap_cons, trim_space]

def PlainItems (items : List Str) : Prop := ∀ e ∈ items, Plain e

def Readable (items : List Str) : Prop := ∀ e ∈ items, '\n' ∉ e ∧ ',' ∉ e

def followed (items : List Str) : Str := items.flatMap fun e => quote e ++ [',', ' ']

def preceded (items : List Str) : Str := items.flatMap fun e => ',' :: ' ' :: quote e

theorem intercalate_quote (before : List Str) (e : Str) (after : List Str) :
    [',', ' '].intercalate ((before ++ e :: after).map quote) =
      followed before ++ (quote e ++ preceded after) := by
  have hafter : ∀ (e : Str) (after : List Str), [',', ' '].intercalate ((e :: after).map quote) =
      quote e ++ preceded after := by
    intro e after
    induction after generalizing e with
    | nil => simp [List.intercalate, preceded]
    | cons next after ih =>
      rw [map_cons, map_cons, intercalate_cons_cons, ← map_cons, ih]
      simp [preceded]
  induction before with
  | nil => simpa [followed] using hafter e after
  | cons first before ih =>
    have hjoin : [',', ' '].intercalate ((first :: before ++ e :: after).map quote) =
        quote first ++ ',' :: ' ' :: [',', ' '].intercalate ((before ++ e :: after).map quote) := by
      cases before <;> simp [List.intercalate]
    rw [hjoin, ih]
    simp [followed]

theorem quote_of_plain (h : Plain e) (hfeed : '\n' ∉ e) : quote e = '"' :: (e ++ ['"']) := by
  rw [quote, escaped_eq_self h hfeed]

theorem comma_notMem_quote {e : Str} (he : ',' ∉ e) : ',' ∉ quote e := by
  intro h
  have hmem : ',' ∈ escaped e := by simpa [quote] using h
  rcases mem_of_mem_escaped hmem with h | h | h
  · exact absurd h (by decide)
  · exact absurd h (by decide)
  · exact he h

theorem parseArrayBody_followed (hplain : PlainItems items) (hread : Readable items) (b : Str) :
    parseArrayBody (followed items ++ b) = items ++ parseArrayBody b := by
  induction items with
  | nil => rfl
  | cons e items ih =>
    obtain ⟨he, hitems⟩ := forall_mem_cons.mp hplain
    obtain ⟨hre, hritems⟩ := forall_mem_cons.mp hread
    have hsplit : followed (e :: items) ++ b = quote e ++ ',' :: ' ' :: (followed items ++ b) := by
      simp [followed]
    rw [hsplit, parseArrayBody_append (comma_notMem_quote hre.2), parseArrayBody_space,
      ih hitems hritems, quote_of_plain he hre.1, trim_quote, quoted_quote]
    rfl

theorem parseArrayBody_items (hplain : PlainItems items) (hread : Readable items) :
    parseArrayBody ([',', ' '].intercalate (items.map quote)) = items := by
  cases items using List.reverseRecOn with
  | nil => decide
  | append_singleton items e =>
    have he := hplain e (by simp)
    have hre := hread e (by simp)
    rw [intercalate_quote, parseArrayBody_followed (fun x hx => hplain x (by simp [hx]))
      (fun x hx => hread x (by simp [hx]))]
    simp only [preceded, flatMap_nil, append_nil]
    rw [parseArrayBody_of_notMem (comma_notMem_quote hre.2), quote_of_plain he hre.1, trim_quote,
      quoted_quote]
    rfl

/-! ## Arrays with an escaped element -/

/-- Every comma of the text, after the character `p`, follows a quote. -/
def QuotedCommas : (p : Char) → Str → Prop
  | _, [] => True
  | p, c :: s => (c = ',' → p = '"') ∧ QuotedCommas c s

theorem quotedCommas_append (p : Char) (a b : Str) :
    QuotedCommas p (a ++ b) ↔ QuotedCommas p a ∧ QuotedCommas (a.getLast?.getD p) b := by
  induction a generalizing p with
  | nil => simp [QuotedCommas]
  | cons c a ih =>
    have hlast : (c :: a).getLast?.getD p = a.getLast?.getD c := by
      cases a using List.reverseRecOn with
      | nil => rfl
      | append_singleton a d => rw [← cons_append, getLast?_concat, getLast?_concat]; rfl
    rw [cons_append, QuotedCommas, QuotedCommas, ih, hlast, and_assoc]

theorem quotedCommas_of_notMem (p : Char) (ha : ',' ∉ a) : QuotedCommas p a := by
  induction a generalizing p with
  | nil => trivial
  | cons c a ih =>
    rw [mem_cons, not_or] at ha
    exact ⟨fun hc => absurd hc.symm ha.1, ih c ha.2⟩

theorem QuotedCommas.of_isPrefix {p : Char} (h : QuotedCommas p b) (hab : a <+: b) :
    QuotedCommas p a := by
  obtain ⟨c, rfl⟩ := hab
  exact ((quotedCommas_append p a c).mp h).1

theorem quotedCommas_followed (p : Char) (h : ∀ e ∈ items, ',' ∉ e) (b : Str)
    (hb : ∀ p, QuotedCommas p b) : QuotedCommas p (followed items ++ b) := by
  induction items generalizing p with
  | nil => exact hb p
  | cons e items ih =>
    obtain ⟨he, hitems⟩ := forall_mem_cons.mp h
    have hsplit : followed (e :: items) ++ b = quote e ++ ',' :: ' ' :: (followed items ++ b) := by
      simp [followed]
    have hlast : (quote e).getLast?.getD p = '"' := by
      rw [quote, ← cons_append, getLast?_concat]
      rfl
    rw [hsplit, quotedCommas_append, hlast]
    exact ⟨quotedCommas_of_notMem p (comma_notMem_quote he), fun _ => rfl,
      fun h => absurd h (by decide), ih ' ' hitems⟩

theorem getLast?_of_quotedCommas {p : Char} (h : QuotedCommas p (a ++ ',' :: b)) :
    a.getLast?.getD p = '"' :=
  ((quotedCommas_append p a _).mp h).2.1 rfl

theorem lead_of_isPrefix (h : a ++ ['"'] <+: z) : lead z = lead (a ++ ['"']) := by
  obtain ⟨b, rfl⟩ := h
  rw [append_assoc, singleton_append, lead_append_cons]

theorem plain_of_read (hz : lead (escaped s ++ ['"']) ++ ['"'] <+: z) (hread : s ++ ['"'] <+: z) :
    Plain s := by
  refine plain_of_lead_eq ?_
  rw [← lead_of_isPrefix hread, lead_of_isPrefix hz, lead_append_quote (quote_notMem_lead _)]

theorem comma_not_isPrefix (hz : lead (escaped s ++ ['"']) ++ ['"'] <+: z) (hcomma : ',' ∉ s) :
    ¬ ([] ++ ',' :: b <+: z) := by
  rintro ⟨rest, rfl⟩
  cases hlead : lead (escaped s ++ ['"']) with
  | nil => simp [hlead] at hz
  | cons c l =>
    have hmem : c ∈ escaped s ++ ['"'] := by
      refine (takeWhile_sublist (l := escaped s ++ ['"']) (· ≠ '"')).subset ?_
      rw [← lead, hlead]
      exact mem_cons_self
    rw [hlead] at hz
    obtain ⟨rfl, -⟩ := cons_prefix_cons.mp (by simpa using hz)
    rcases mem_append.mp hmem with hmem | hmem
    · rcases mem_of_mem_escaped hmem with h | h | h
      · exact absurd h (by decide)
      · exact absurd h (by decide)
      · exact hcomma h
    · simp at hmem

theorem isPrefix_append_cases {α : Type} {a u v : List α} (h : a <+: u ++ v) :
    a <+: u ∨ ∃ x, a = u ++ x ∧ x <+: v := by
  rcases Nat.le_total a.length u.length with hle | hle
  · exact .inl (prefix_of_prefix_length_le h (prefix_append u v) hle)
  · obtain ⟨x, rfl⟩ := prefix_of_prefix_length_le (prefix_append u v) h hle
    exact .inr ⟨x, rfl, (prefix_append_right_inj u).mp h⟩

theorem length_parseArrayBody_le (hread : Readable items) {body : Str}
    (hbody : body <+: followed items) : (parseArrayBody body).length ≤ items.length := by
  have hone : ∀ a : Str, (quoted (trim a)).toList.length ≤ 1 := by
    intro a
    cases quoted (trim a) <;> simp
  induction items generalizing body with
  | nil =>
    rw [prefix_nil.mp hbody]
    decide
  | cons e items ih =>
    obtain ⟨hre, hritems⟩ := forall_mem_cons.mp hread
    have hcomma := comma_notMem_quote hre.2
    have hsplit : followed (e :: items) = quote e ++ ',' :: ' ' :: followed items := by
      simp [followed]
    rw [hsplit] at hbody
    rcases isPrefix_append_cases hbody with hshort | ⟨x, rfl, hx⟩
    · rw [parseArrayBody_of_notMem fun hmem => hcomma (hshort.subset hmem)]
      exact (hone body).trans (by simp)
    cases x with
    | nil =>
      rw [append_nil, parseArrayBody_of_notMem hcomma]
      exact (hone _).trans (by simp)
    | cons c x =>
      obtain ⟨rfl, hx'⟩ := cons_prefix_cons.mp hx
      rw [parseArrayBody_append hcomma, length_append, length_cons]
      have hfirst := hone (quote e)
      cases x with
      | nil =>
        have hempty : parseArrayBody [] = [] := by decide
        rw [hempty, length_nil]
        omega
      | cons d x =>
        obtain ⟨rfl, hx''⟩ := cons_prefix_cons.mp hx'
        rw [parseArrayBody_space]
        have hrest := ih hritems hx''
        omega

/-- The text of an array with an escaped element is not read as that array, however it goes on
after the first quote in that element. -/
theorem parseArrayBody_ne {before after : List Str} {bad : Str} (hplain : PlainItems before)
    (hread : Readable before) (hbad : ¬ Plain bad) {body : Str} {p : Char}
    (hz : lead (escaped bad ++ ['"']) ++ ['"'] <+: z) (hcomma : ',' ∉ bad)
    (hbody : body <+: followed before ++ '"' :: z)
    (hcommas : QuotedCommas p (followed before ++ '"' :: z)) :
    parseArrayBody body ≠ before ++ bad :: after := by
  intro heq
  rcases isPrefix_append_cases hbody with hshort | ⟨x, rfl, hx⟩
  · have hle := length_parseArrayBody_le hread hshort
    rw [heq, length_append, length_cons] at hle
    omega
  cases x with
  | nil =>
    have hle := length_parseArrayBody_le hread (prefix_refl (followed before))
    rw [append_nil] at heq
    rw [heq, length_append, length_cons] at hle
    omega
  | cons c x =>
  obtain ⟨rfl, hx'⟩ := cons_prefix_cons.mp hx
  rw [parseArrayBody_followed hplain hread] at heq
  have hrest := append_cancel_left heq
  by_cases hmem : ',' ∈ '"' :: x
  · -- The part before the comma begins and ends with a quote, so it is read as an element.
    obtain ⟨a, b, hsplit, ha⟩ := eq_append_cons_of_mem hmem
    have hlast : a.getLast?.getD ((followed before).getLast?.getD p) = '"' := by
      have hpart := ((quotedCommas_append p _ _).mp (hcommas.of_isPrefix hbody)).2
      rw [hsplit] at hpart
      exact getLast?_of_quotedCommas hpart
    rw [hsplit, parseArrayBody_append ha] at hrest
    cases a with
    | nil => simp at hsplit
    | cons d a =>
      obtain ⟨rfl, hsplit'⟩ := List.cons.inj hsplit
      cases a using List.reverseRecOn with
      | nil => exact absurd (hsplit' ▸ hx') (comma_not_isPrefix hz hcomma)
      | append_singleton a d =>
        rw [← cons_append, getLast?_concat, Option.getD_some] at hlast
        subst hlast
        rw [trim_quote, quoted_quote] at hrest
        have hbadeq : a = bad := by simpa using (List.cons.inj hrest).1
        subst hbadeq
        have hstart : a ++ ['"'] <+: x := hsplit' ▸ prefix_append _ _
        exact hbad (plain_of_read hz (hstart.trans hx'))
  · rw [parseArrayBody_of_notMem hmem] at hrest
    have hquoted : quoted (trim ('"' :: x)) = some bad := by
      cases hq : quoted (trim ('"' :: x)) with
      | none => simp [hq] at hrest
      | some v => simp_all
    have htrim := eq_of_quoted hquoted
    rw [trim_of_start (by decide)] at htrim
    have hstart : '"' :: (bad ++ ['"']) <+: '"' :: x := htrim ▸ trimEndBy_isPrefix _ _
    exact hbad (plain_of_read hz ((cons_prefix_cons.mp hstart).2.trans hx'))

end EuroOS.Agent.Toml
