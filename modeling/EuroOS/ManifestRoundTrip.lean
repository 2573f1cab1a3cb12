import EuroOS.ManifestText

/-!
# Manifests that are written and read back

What the reader makes of each line that the writer makes.  A manifest comes back
unchanged exactly if its strings need no escapes and it does not have the
capability that the writer leaves out.
-/

namespace EuroOS.Agent.Toml

open List Str Line

/-! ## One line -/

def Word (k : Str) : Prop :=
  k ≠ [] ∧ ∀ c ∈ k, isWhitespace c = false ∧ c ∉ ['"', '#', '=', '[', ']', ',', '\n', '\r']

instance (k : Str) : Decidable (Word k) :=
  @instDecidableAnd _ _ _ (List.decidableBAll _ k)

variable {c : Char} {key v s sec : Str} {st : ParseState} {items : List Str} {line : Line}
  {lines : List Line}

theorem Word.notMem (h : Word k) (hc : c ∈ ['"', '#', '=', '[', ']', ',', '\n', '\r']) : c ∉ k :=
  fun hmem => (h.2 c hmem).2 hc

theorem trimEndBy_idem (p : Char → Bool) (s : Str) : trimEndBy p (trimEndBy p s) = trimEndBy p s := by
  have hidem : ∀ l : Str, (l.dropWhile p).dropWhile p = l.dropWhile p := by
    intro l
    induction l with
    | nil => rfl
    | cons c l ih =>
      by_cases hc : p c = true
      · simp [hc, ih]
      · simp [hc]
  simp [trimEndBy, hidem]

theorem Word.trim (h : Word k) : trim k = k ∧ trim (k ++ [' ']) = k := by
  obtain ⟨hne, hchars⟩ := h
  cases k with
  | nil => exact absurd rfl hne
  | cons c k =>
    have hc := (hchars c mem_cons_self).1
    have hlast : trimEndBy isWhitespace (c :: k) = c :: k := by
      cases k using List.reverseRecOn with
      | nil => simp [trimEndBy, hc]
      | append_singleton k d =>
        rw [← cons_append]
        exact trimEndBy_concat _ (hchars d (by simp)).1
    refine ⟨by rw [trim_of_start hc, hlast], ?_⟩
    rw [cons_append, trim_of_start hc, trimEndBy, ← cons_append, reverse_append,
      reverse_singleton, singleton_append, dropWhile_cons,
      if_pos (show isWhitespace ' ' = true from rfl)]
    exact hlast

theorem keyText_eq (key v : Str) : keyText key v = (key ++ [' ']) ++ '=' :: ' ' :: v := by
  simp [keyText]

theorem trim_stripComment_keyText (hkey : Word key) (hv : stripCommentFrom false v = c :: t)
    (hc : isWhitespace c = false) :
    trim (stripComment (keyText key v)) = keyText key (trimEndBy isWhitespace (c :: t)) := by
  have hkeys : stripComment (keyText key v) = keyText key (c :: t) := by
    have hout : stripCommentFrom false ((key ++ [' ', '=', ' ']) ++ v) =
        (key ++ [' ', '=', ' ']) ++ stripCommentFrom false v := by
      refine stripCommentFrom_outside ?_ ?_ v
      · simpa using hkey.notMem (by decide)
      · simpa using hkey.notMem (by decide)
    simpa [stripComment, keyText, hv] using hout
  obtain ⟨d, k, rfl⟩ := exists_cons_of_ne_nil hkey.1
  have hd := (hkey.2 d mem_cons_self).1
  rw [hkeys, keyText, cons_append, trim_of_start hd, ← cons_append,
    append_cons, append_cons, append_cons, trimEndBy_append _ mem_cons_self hc]
  simp [keyText]

theorem parseLine_keyText (hopen : st.openArray = none) (hkey : Word key) {t : Str}
    (hv : stripCommentFrom false v = c :: t) (hc : isWhitespace c = false)
    (hval : trimEndBy isWhitespace (c :: t) = val) : parseLine st (keyText key v) =
      if val.head? = some '[' then
        .ok (pushArray { st with idx := st.idx + 1 } ⟨fullKey st.sec key, val, st.idx + 1⟩)
      else
        match parseScalar val with
        | none => .error (.badSyntax (st.idx + 1))
        | some value => .ok { st with
            idx := st.idx + 1
            entries := st.entries ++ [(fullKey st.sec key, value)] } := by
  have hline := trim_stripComment_keyText hkey hv hc
  have hvalue : trim (' ' :: trimEndBy isWhitespace (c :: t)) = trimEndBy isWhitespace (c :: t) := by
    obtain ⟨rest, hrest⟩ : ∃ rest, trimEndBy isWhitespace (c :: t) = c :: rest := by
      obtain ⟨rest, hrest⟩ := isPrefix_trimEndBy [] t hc
      exact ⟨rest, hrest.symm⟩
    rw [trim_space, hrest, trim_of_start hc, ← hrest, trimEndBy_idem]
  rw [hval] at hline hvalue
  have hsplit : splitOnce '=' (keyText key val) = some (key ++ [' '], ' ' :: val) := by
    rw [keyText_eq]
    exact splitOnce_append_cons (by simpa using hkey.notMem (by decide)) _
  obtain ⟨d, k, rfl⟩ := exists_cons_of_ne_nil hkey.1
  have hhead : (keyText (d :: k) val).head? ≠ some '[' := by
    have hd := (hkey.2 d mem_cons_self).2
    intro h
    have hdeq : d = '[' := by simpa [keyText] using h
    exact hd (by simp [hdeq])
  unfold parseLine
  rw [hline, hopen]
  simp only [hsplit, hkey.trim.2, hvalue, if_neg hhead]
  rfl

/-! ## Lines without escapes -/

def Line.apply (st : ParseState) : Line → ParseState
  | .header sec => { st with idx := st.idx + 1, sec := sec }
  | .blank => { st with idx := st.idx + 1 }
  | .string key s => { st with
      idx := st.idx + 1
      entries := st.entries ++ [(fullKey st.sec key, .str s)] }
  | .array key items => { st with
      idx := st.idx + 1
      entries := st.entries ++ [(fullKey st.sec key, .arr items)] }
  | .number key n => { st with
      idx := st.idx + 1
      entries := st.entries ++ [(fullKey st.sec key, .int n)] }
  | .flag key b => { st with
      idx := st.idx + 1
      entries := st.entries ++ [(fullKey st.sec key, .bool b)] }

def Line.Sound : Line → Prop
  | .header sec => Word sec
  | .blank => True
  | .string key s => Word key ∧ '\n' ∉ s
  | .array key items => Word key ∧ Readable items
  | .number key n => Word key ∧ n < 2 ^ 63
  | .flag key _ => Word key

def Line.Plain : Line → Prop
  | .string _ s => Toml.Plain s
  | .array _ items => PlainItems items
  | _ => True

theorem stripCommentFrom_plain (h : Toml.Plain s) (hfeed : '\n' ∉ s) (b : Str) :
    stripCommentFrom false (quote s ++ b) = quote s ++ stripCommentFrom false b := by
  rw [quote_of_plain h hfeed, cons_append, stripCommentFrom_quote, append_assoc,
    Bool.not_false, stripCommentFrom_inside h.1, singleton_append, stripCommentFrom_quote]
  simp

theorem stripCommentFrom_followed (hplain : PlainItems items) (hread : Readable items) (b : Str) :
    stripCommentFrom false (followed items ++ b) = followed items ++ stripCommentFrom false b := by
  induction items with
  | nil => rfl
  | cons e items ih =>
    obtain ⟨he, hitems⟩ := forall_mem_cons.mp hplain
    obtain ⟨hre, hritems⟩ := forall_mem_cons.mp hread
    have hsplit : ∀ x, followed (e :: items) ++ x = quote e ++ ([',', ' '] ++ (followed items ++ x)) := by
      simp [followed]
    rw [hsplit, stripCommentFrom_plain he hre.1, stripCommentFrom_outside (by decide) (by decide),
      ih hitems hritems, hsplit]

theorem stripCommentFrom_arrayText (hplain : PlainItems items) (hread : Readable items) :
    stripCommentFrom false (arrayText items) = arrayText items := by
  have hopen : ∀ x, stripCommentFrom false ('[' :: x) = '[' :: stripCommentFrom false x := by
    intro x
    exact stripCommentFrom_outside (a := ['[']) (by decide) (by decide) x
  have hclose : stripCommentFrom false [']'] = [']'] := by decide
  rw [arrayText, hopen]
  cases items using List.reverseRecOn with
  | nil => simpa [List.intercalate] using hclose
  | append_singleton items e =>
    rw [intercalate_quote, append_assoc,
      stripCommentFrom_followed (fun x hx => hplain x (by simp [hx])) (fun x hx => hread x (by simp [hx])),
      show preceded [] = [] from rfl, append_nil,
      stripCommentFrom_plain (hplain e (by simp)) (hread e (by simp)).1, hclose]

theorem beforeLast_concat (c : Char) (s : Str) : beforeLast c (s ++ [c]) = s := by simp [beforeLast]

theorem parseScalar_quote (h : Toml.Plain s) (hfeed : '\n' ∉ s) :
    parseScalar (quote s) = some (.str s) := by
  unfold parseScalar
  simp only [quote_of_plain h hfeed, trim_quote, quoted_quote]

theorem word_decimal (n : Nat) : Word (decimal n) := by
  refine ⟨decimal_ne_nil n, fun c hc => ?_⟩
  have hdigit := isDigit_of_mem_decimal hc
  have hrange : 48 ≤ c.toNat ∧ c.toNat ≤ 57 := by
    simpa [Char.isDigit, UInt32.le_iff_toNat_le] using hdigit
  refine ⟨?_, fun hmem => ?_⟩
  · simp only [isWhitespace, Bool.or_eq_false_iff, Bool.and_eq_false_iff, decide_eq_false_iff_not,
      beq_eq_false_iff_ne, ne_eq]
    omega
  · have hnot : ['"', '#', '=', '[', ']', ',', '\n', '\r'].all (!·.isDigit) = true := by decide
    simpa [hdigit] using all_eq_true.mp hnot c hmem

theorem parseScalar_decimal (h : n < 2 ^ 63) : parseScalar (decimal n) = some (.int n) := by
  have hword := word_decimal n
  have hnot : ∀ {c : Char}, c.isDigit = false → (decimal n).head? ≠ some c := by
    intro c hc hhead
    exact notMem_decimal hc n (mem_of_mem_head? hhead)
  have hquoted : quoted (decimal n) = none := by
    unfold quoted
    exact if_neg fun hq => hnot (by decide) hq.2.1
  have htext : ∀ {t : Str} {c : Char}, c ∈ t → c.isDigit = false → decimal n ≠ t := by
    intro t c hmem hc heq
    exact notMem_decimal hc n (heq ▸ hmem)
  have htrue : decimal n ≠ trueText := htext (c := 't') (by decide +kernel) (by decide)
  have hfalse : decimal n ≠ falseText := htext (c := 'f') (by decide +kernel) (by decide)
  unfold parseScalar
  simp only [hword.trim.1, hquoted, if_neg htrue, if_neg hfalse, parseI64,
    if_neg (hnot (c := '-') (by decide)), parseNat_decimal h]
  rfl

theorem parseScalar_boolText (b : Bool) : parseScalar (boolText b) = some (.bool b) := by
  cases b <;> decide +kernel

variable (hopen : st.openArray = none)
include hopen

theorem parseLine_word (hkey : Word key) (hv : Word v) (hvalue : parseScalar v = some value) :
    parseLine st (keyText key v) = .ok { st with
      idx := st.idx + 1
      entries := st.entries ++ [(fullKey st.sec key, value)] } := by
  have hstrip : stripCommentFrom false v = v := by
    have hout := stripCommentFrom_outside (hv.notMem (by decide)) (hv.notMem (by decide)) []
    simpa [stripCommentFrom] using hout
  obtain ⟨c, t, rfl⟩ := exists_cons_of_ne_nil hv.1
  have hc := (hv.2 c mem_cons_self)
  have htrim : trimEndBy isWhitespace (c :: t) = c :: t := by
    rw [← trim_of_start hc.1]
    exact hv.trim.1
  have hhead : (c :: t).head? ≠ some '[' := by
    intro h
    exact hc.2 (by simp [Option.some.inj h])
  rw [parseLine_keyText hopen hkey hstrip hc.1 htrim, if_neg hhead, hvalue]

theorem parseLine_string (hkey : Word key) (h : Toml.Plain s) (hfeed : '\n' ∉ s) :
    parseLine st (keyText key (quote s)) = .ok ((string key s).apply st) := by
  have hstrip : stripCommentFrom false (quote s) = '"' :: (s ++ ['"']) := by
    have hplain := stripCommentFrom_plain h hfeed []
    rw [append_nil, show stripCommentFrom false [] = [] from rfl, append_nil] at hplain
    rw [hplain, quote_of_plain h hfeed]
  have htrim : trimEndBy isWhitespace ('"' :: (s ++ ['"'])) = '"' :: (s ++ ['"']) := by
    rw [← cons_append]
    exact trimEndBy_concat _ (by decide)
  have hscalar := parseScalar_quote h hfeed
  rw [quote_of_plain h hfeed] at hscalar
  rw [parseLine_keyText hopen hkey hstrip (by decide) htrim, if_neg (by simp), hscalar]
  rfl

theorem parseLine_array (hkey : Word key) (hplain : PlainItems items) (hread : Readable items) :
    parseLine st (keyText key (arrayText items)) = .ok ((array key items).apply st) := by
  have htrim : trimEndBy isWhitespace (arrayText items) = arrayText items := by
    rw [arrayText, ← cons_append]
    exact trimEndBy_concat _ (by decide)
  have hbody : (beforeLast ']' (arrayText items)).drop 1 =
      [',', ' '].intercalate (items.map quote) := by
    rw [arrayText, ← cons_append, beforeLast_concat]
    rfl
  have hmem : ']' ∈ arrayText items := by simp [arrayText]
  have hhead : (arrayText items).head? = some '[' := rfl
  have hstrip := stripCommentFrom_arrayText hplain hread
  rw [parseLine_keyText hopen hkey hstrip (by decide) htrim, if_pos hhead, pushArray, if_pos hmem,
    hbody, parseArrayBody_items hplain hread]
  simp [apply, hopen]

theorem parseLine_header (hsec : Word sec) :
    parseLine st ('[' :: (sec ++ [']'])) = .ok ((header sec).apply st) := by
  have hstrip : stripComment ('[' :: (sec ++ [']'])) = '[' :: (sec ++ [']']) := by
    have hquote := hsec.notMem (c := '"') (by decide)
    have hhash := hsec.notMem (c := '#') (by decide)
    have hout := stripCommentFrom_outside (a := '[' :: (sec ++ [']'])) (by simp [hquote])
      (by simp [hhash]) []
    simpa [stripComment, stripCommentFrom] using hout
  have htrim : Str.trim ('[' :: (sec ++ [']'])) = '[' :: (sec ++ [']']) := by
    rw [trim_of_start (by decide), ← cons_append]
    exact trimEndBy_concat _ (by decide)
  have hbefore : Str.before ']' ('[' :: (sec ++ [']'])) = some ('[' :: sec) := by
    have hclose := hsec.notMem (c := ']') (by decide)
    have hall : ∀ d ∈ '[' :: sec, (d != ']') = true := by
      intro d hd
      rcases mem_cons.mp hd with rfl | hd
      · decide
      · simpa using fun h : d = ']' => hclose (h ▸ hd)
    rw [Str.before, if_pos (by simp), ← cons_append, takeWhile_append_of_pos hall]
    simp
  unfold parseLine
  rw [hopen, hstrip, htrim]
  simp only [hbefore, isEmpty_cons, Bool.false_eq_true, if_false, head?_cons, if_true,
    drop_succ_cons, drop_zero, hsec.trim.1, apply, hopen]

omit hopen in
theorem word_boolText (b : Bool) : Word (boolText b) := by cases b <;> decide +kernel

theorem parseLine_plain (hsound : line.Sound) (hplain : line.Plain) :
    parseLine st line.text = .ok (line.apply st) := by
  cases line with
  | header sec => exact parseLine_header hopen hsound
  | blank =>
    have hempty : Str.trim (stripComment blank.text) = [] := rfl
    simp [parseLine, hopen, hempty, apply]
  | string key s => exact parseLine_string hopen hsound.1 hplain hsound.2
  | array key items => exact parseLine_array hopen hsound.1 hplain hsound.2
  | number key n => exact parseLine_word hopen hsound.1 (word_decimal n) (parseScalar_decimal hsound.2)
  | flag key b => exact parseLine_word hopen hsound (word_boolText b) (parseScalar_boolText b)

theorem openArray_apply (line : Line) : (line.apply st).openArray = none := by
  cases line <;> exact hopen

omit hopen in
theorem parseLines_append (st : ParseState) (a b : List Str) :
    parseLines st (a ++ b) =
      match parseLines st a with
      | .error e => .error e
      | .ok st => parseLines st b := by
  induction a generalizing st with
  | nil => rfl
  | cons raw a ih =>
    rw [cons_append, parseLines, parseLines]
    cases parseLine st raw with
    | error e => rfl
    | ok st => exact ih st

theorem parseLines_plain (hsound : ∀ line ∈ lines, line.Sound)
    (hplain : ∀ line ∈ lines, line.Plain) :
    parseLines st (lines.map text) = .ok (lines.foldl apply st) ∧
      (lines.foldl apply st).openArray = none := by
  induction lines generalizing st with
  | nil => exact ⟨rfl, hopen⟩
  | cons line lines ih =>
    obtain ⟨hs, hsounds⟩ := forall_mem_cons.mp hsound
    obtain ⟨hp, hplains⟩ := forall_mem_cons.mp hplain
    rw [map_cons, parseLines, parseLine_plain hopen hs hp]
    exact ih (openArray_apply hopen line) hsounds hplains

omit hopen

/-! ## Lines with escapes -/

def Misread (entries : List (Str × Value)) (sec : Str) : Line → Prop
  | .string key s => ∃ v, get entries (fullKey sec key) = some (.str v) ∧ v ≠ s
  | .array key items => ∃ v, get entries (fullKey sec key) = some (.arr v) ∧ v ≠ items
  | _ => False

theorem get_append_of_some {v : Value} (h : get a key = some v) (b : List (Str × Value)) :
    get (a ++ b) key = some v := by
  obtain ⟨e, he, rfl⟩ := Option.map_eq_some_iff.mp h
  rw [get, find?_append, he]
  rfl

theorem get_append_of_none (h : get a key = none) (v : Value) :
    get (a ++ [(key, v)]) key = some v := by
  have hnone : a.find? (·.1 = key) = none := Option.map_eq_none_iff.mp h
  rw [get, find?_append, hnone]
  simp

theorem Misread.append (h : Misread a sec line) (b : List (Str × Value)) :
    Misread (a ++ b) sec line := by
  cases line with
  | string key s =>
    obtain ⟨v, hv, hne⟩ := h
    exact ⟨v, get_append_of_some hv b, hne⟩
  | array key items =>
    obtain ⟨v, hv, hne⟩ := h
    exact ⟨v, get_append_of_some hv b, hne⟩
  | _ => exact h

theorem parseLine_entries (h : parseLine st raw = .ok st') :
    ∃ more, st'.entries = st.entries ++ more := by
  have hpush : ∀ (st : ParseState) (a : OpenArray),
      ∃ more, (pushArray st a).entries = st.entries ++ more := by
    intro st a
    unfold pushArray
    split_ifs
    · exact ⟨_, rfl⟩
    · exact ⟨[], (append_nil _).symm⟩
  unfold parseLine at h
  dsimp only at h
  split at h
  · cases h
    exact hpush _ _
  split_ifs at h
  · cases h
    exact ⟨[], (append_nil _).symm⟩
  · split at h
    · cases h
    · cases h
      exact ⟨[], (append_nil _).symm⟩
  · split at h
    · cases h
    split_ifs at h
    · cases h
      exact hpush _ _
    split at h
    · cases h
    · cases h
      exact ⟨_, rfl⟩

theorem parseScalar_of_quote (h : parseScalar ('"' :: z) = some value)
    (htrim : trimEndBy isWhitespace ('"' :: z) = '"' :: z) :
    ∃ v, value = .str v ∧ z = v ++ ['"'] := by
  have htrim' : Str.trim ('"' :: z) = '"' :: z := by rw [trim_of_start (by decide), htrim]
  unfold parseScalar at h
  simp only [htrim'] at h
  split at h
  · rename_i v hquoted
    exact ⟨v, (Option.some.inj h).symm, (List.cons.inj (eq_of_quoted hquoted)).2⟩
  have hwords : ∀ t : Str, t.head? ≠ some '"' → '"' :: z ≠ t := by
    rintro t ht rfl
    exact ht rfl
  have hnumber : parseI64 ('"' :: z) = none := by simp [parseI64, parseNat]
  rw [if_neg (hwords trueText (by decide +kernel)), if_neg (hwords falseText (by decide +kernel)),
    hnumber] at h
  cases h

theorem parseLine_string_escaped (hopen : st.openArray = none) (hkey : Word key)
    (hs : ¬ Toml.Plain s) (hnone : get st.entries (fullKey st.sec key) = none)
    (h : parseLine st (keyText key (quote s)) = .ok st') :
    Misread st'.entries st.sec (.string key s) := by
  have hstrip : stripCommentFrom false (quote s) =
      '"' :: stripCommentFrom true (escaped s ++ '"' :: []) := stripCommentFrom_quote false _
  obtain ⟨w, hw⟩ := isPrefix_stripCommentFrom (escaped s) []
  obtain ⟨z', hz'⟩ : '"' :: lead (escaped s ++ ['"']) ++ ['"'] <+:
      trimEndBy isWhitespace ('"' :: stripCommentFrom true (escaped s ++ '"' :: [])) := by
    rw [← hw, append_assoc, singleton_append, ← cons_append]
    exact isPrefix_trimEndBy _ w (by decide)
  have hval : trimEndBy isWhitespace ('"' :: stripCommentFrom true (escaped s ++ '"' :: [])) =
      '"' :: (lead (escaped s ++ ['"']) ++ ['"'] ++ z') := by
    rw [← hz']
    simp
  have hidem : trimEndBy isWhitespace ('"' :: (lead (escaped s ++ ['"']) ++ ['"'] ++ z')) =
      '"' :: (lead (escaped s ++ ['"']) ++ ['"'] ++ z') := by rw [← hval, trimEndBy_idem]
  rw [parseLine_keyText hopen hkey hstrip (by decide) hval, if_neg (by simp)] at h
  split at h
  · cases h
  rename_i value hvalue
  obtain ⟨v, rfl, hv⟩ := parseScalar_of_quote hvalue hidem
  cases h
  refine ⟨v, get_append_of_none hnone _, ?_⟩
  rintro rfl
  exact hs (plain_of_read (prefix_append _ z') (by rw [hv]))

structure Escaping (items : List Str) (val : Str) : Prop where
  exists_bad : ∃ before bad after z, items = before ++ bad :: after ∧ PlainItems before ∧
    Readable before ∧ ¬ Toml.Plain bad ∧ ',' ∉ bad ∧ lead (escaped bad ++ ['"']) ++ ['"'] <+: z ∧
    val = '[' :: (followed before ++ '"' :: z) ∧ QuotedCommas '[' (followed before ++ '"' :: z)

theorem Escaping.extend (h : Escaping items val) {line : Str} (hline : QuotedCommas ' ' line) :
    Escaping items (val ++ ' ' :: line) := by
  obtain ⟨before, bad, after, z, hitems, hplain, hread, hbad, hcomma, hz, rfl, hcommas⟩ := h
  refine ⟨before, bad, after, z ++ ' ' :: line, hitems, hplain, hread, hbad, hcomma,
    hz.trans (prefix_append _ _), by simp, ?_⟩
  rw [← cons_append, ← append_assoc, quotedCommas_append]
  exact ⟨hcommas, fun h => absurd h (by decide), hline⟩

theorem Escaping.body_ne (h : Escaping items val) :
    parseArrayBody ((beforeLast ']' val).drop 1) ≠ items := by
  obtain ⟨before, bad, after, z, rfl, hplain, hread, hbad, hcomma, hz, rfl, hcommas⟩ := h
  refine parseArrayBody_ne hplain hread hbad hz hcomma ?_ hcommas
  have hbefore : beforeLast ']' ('[' :: (followed before ++ '"' :: z)) <+:
      '[' :: (followed before ++ '"' :: z) := by
    rw [beforeLast, ← reverse_suffix, reverse_reverse]
    exact (drop_suffix 1 _).trans (dropWhile_suffix _)
  cases hcut : beforeLast ']' ('[' :: (followed before ++ '"' :: z)) with
  | nil => exact nil_prefix
  | cons c b =>
    rw [hcut] at hbefore
    exact (cons_prefix_cons.mp hbefore).2

/-- The entry of the line is wrong, or becomes wrong when its array is closed. -/
def Spoiled (sec : Str) (line : Line) (st : ParseState) : Prop :=
  Misread st.entries sec line ∨
    ∃ key items a, line = .array key items ∧ st.openArray = some a ∧ a.key = fullKey sec key ∧
      get st.entries a.key = none ∧ Escaping items a.val

theorem spoiled_pushArray {a : OpenArray} (hkey : a.key = fullKey sec key)
    (hnone : get st.entries a.key = none) (h : Escaping items a.val) :
    Spoiled sec (.array key items) (pushArray st a) := by
  unfold pushArray
  split_ifs
  · refine .inl ⟨_, ?_, h.body_ne⟩
    rw [← hkey]
    exact get_append_of_none hnone _
  · exact .inr ⟨key, items, a, rfl, rfl, hkey, hnone, h⟩

theorem Spoiled.parseLine (h : Spoiled sec line st) {raw : Str}
    (hraw : (∃ key items, line = .array key items) → QuotedCommas ' ' (Str.trim (stripComment raw)))
    (hparse : parseLine st raw = .ok st') : Spoiled sec line st' := by
  rcases h with h | ⟨key, items, a, rfl, hopen, hkey, hnone, hescaping⟩
  · obtain ⟨more, hmore⟩ := parseLine_entries hparse
    exact .inl (hmore ▸ h.append more)
  unfold Toml.parseLine at hparse
  rw [hopen] at hparse
  cases hparse
  exact spoiled_pushArray hkey hnone (hescaping.extend (hraw ⟨key, items, rfl⟩))

theorem Spoiled.parseLines (h : Spoiled sec line st)
    (hraws : (∃ key items, line = .array key items) →
      ∀ raw ∈ raws, QuotedCommas ' ' (Str.trim (stripComment raw)))
    (hparse : parseLines st raws = .ok st') : Spoiled sec line st' := by
  induction raws generalizing st with
  | nil =>
    cases hparse
    exact h
  | cons raw raws ih =>
    unfold Toml.parseLines at hparse
    split at hparse
    · cases hparse
    rename_i st₁ hfirst
    exact ih (h.parseLine (fun harray => hraws harray raw mem_cons_self) hfirst)
      (fun harray r hr => hraws harray r (mem_cons_of_mem _ hr)) hparse

theorem exists_first_not {α : Type} {P : α → Prop} {l : List α} (h : ¬ ∀ x ∈ l, P x) :
    ∃ before x after, l = before ++ x :: after ∧ (∀ y ∈ before, P y) ∧ ¬ P x := by
  induction l with
  | nil => simp at h
  | cons a l ih =>
    by_cases ha : P a
    · have hl : ¬ ∀ x ∈ l, P x := fun hall => h (forall_mem_cons.mpr ⟨ha, hall⟩)
      obtain ⟨before, x, after, rfl, hbefore, hx⟩ := ih hl
      exact ⟨a :: before, x, after, rfl, forall_mem_cons.mpr ⟨ha, hbefore⟩, hx⟩
    · exact ⟨[], a, l, rfl, by simp, ha⟩

theorem quotedCommas_items (hread : Readable items) (p : Char) :
    QuotedCommas p ([',', ' '].intercalate (items.map quote) ++ [']']) := by
  cases items using List.reverseRecOn with
  | nil => exact quotedCommas_of_notMem p (by simp [List.intercalate])
  | append_singleton items e =>
    rw [intercalate_quote, append_assoc]
    refine quotedCommas_followed p (fun x hx => (hread x (by simp [hx])).2) _ fun p => ?_
    refine quotedCommas_of_notMem p ?_
    have he := comma_notMem_quote (hread e (by simp)).2
    simp [preceded, he]

theorem parseLine_array_escaped (hopen : st.openArray = none) (hkey : Word key)
    (hread : Readable items) (hitems : ¬ PlainItems items)
    (hnone : get st.entries (fullKey st.sec key) = none)
    (h : parseLine st (keyText key (arrayText items)) = .ok st') :
    Spoiled st.sec (.array key items) st' := by
  obtain ⟨before, bad, after, rfl, hbefore, hbad⟩ := exists_first_not hitems
  have hreadBefore : Readable before := fun e he => hread e (by simp [he])
  have htext : arrayText (before ++ bad :: after) = ['['] ++ (followed before ++
      '"' :: (escaped bad ++ '"' :: (preceded after ++ [']']))) := by
    rw [arrayText, intercalate_quote]
    simp [quote]
  have hstrip : stripCommentFrom false (arrayText (before ++ bad :: after)) =
      '[' :: (followed before ++
        '"' :: stripCommentFrom true (escaped bad ++ '"' :: (preceded after ++ [']']))) := by
    rw [htext, stripCommentFrom_outside (by decide) (by decide),
      stripCommentFrom_followed hbefore hreadBefore, stripCommentFrom_quote]
    rfl
  obtain ⟨w, hw⟩ := isPrefix_stripCommentFrom (escaped bad) (preceded after ++ [']'])
  obtain ⟨rest, hval⟩ : ('[' :: (followed before ++ '"' :: lead (escaped bad ++ ['"']))) ++ ['"'] <+:
      trimEndBy isWhitespace ('[' :: (followed before ++
        '"' :: stripCommentFrom true (escaped bad ++ '"' :: (preceded after ++ [']'])))) := by
    have hsplit : '[' :: (followed before ++
        '"' :: stripCommentFrom true (escaped bad ++ '"' :: (preceded after ++ [']']))) =
        ('[' :: (followed before ++ '"' :: lead (escaped bad ++ ['"']))) ++ '"' :: w := by
      rw [← hw]
      simp
    rw [hsplit]
    exact isPrefix_trimEndBy _ w (by decide)
  have hescaping : Escaping (before ++ bad :: after)
      (('[' :: (followed before ++ '"' :: lead (escaped bad ++ ['"']))) ++ ['"'] ++ rest) := by
    refine ⟨before, bad, after, lead (escaped bad ++ ['"']) ++ ['"'] ++ rest, rfl, hbefore,
      hreadBefore, hbad, (hread bad (by simp)).2, prefix_append _ _, by simp, ?_⟩
    refine (quotedCommas_items hread '[').of_isPrefix ?_
    have hle := (trimEndBy_isPrefix isWhitespace _).trans
      (hstrip ▸ stripCommentFrom_isPrefix false (arrayText (before ++ bad :: after)))
    rw [← hval, arrayText] at hle
    simpa using hle
  rw [parseLine_keyText hopen hkey hstrip (by decide) hval.symm, if_pos (by simp)] at h
  cases h
  exact spoiled_pushArray rfl hnone hescaping

theorem quotedCommas_line (hsound : line.Sound) (hline : ∀ key s, line ≠ .string key s) :
    QuotedCommas ' ' (Str.trim (stripComment line.text)) := by
  have hnone : ',' ∉ line.text → QuotedCommas ' ' (Str.trim (stripComment line.text)) := by
    intro hcomma
    refine quotedCommas_of_notMem _ fun hmem => hcomma ?_
    exact (stripCommentFrom_isPrefix false _).subset (mem_of_mem_trim hmem)
  have hkeyText : ∀ {key v : Str}, Word key → ',' ∉ v → ',' ∉ keyText key v := by
    intro key v hkey hv
    simp [keyText, hkey.notMem (c := ',') (by decide), hv]
  cases line with
  | header sec =>
    refine hnone ?_
    have hsec := Word.notMem hsound (c := ',') (by decide)
    simp [text, hsec]
  | blank => exact hnone (by simp [text])
  | string key s => exact absurd rfl (hline key s)
  | array key items =>
    obtain ⟨hkey, hread⟩ := hsound
    obtain ⟨t, ht⟩ : ∃ t, stripCommentFrom false (arrayText items) = '[' :: t :=
      ⟨_, stripCommentFrom_outside (a := ['[']) (by decide) (by decide) _⟩
    have hle : keyText key (trimEndBy isWhitespace ('[' :: t)) <+: keyText key (arrayText items) := by
      have hval := (trimEndBy_isPrefix isWhitespace ('[' :: t)).trans
        (ht ▸ stripCommentFrom_isPrefix false (arrayText items))
      simpa [keyText] using (prefix_append_right_inj key).mpr hval
    rw [text, trim_stripComment_keyText hkey ht (by decide)]
    refine QuotedCommas.of_isPrefix ?_ hle
    have hcomma := hkey.notMem (c := ',') (by decide)
    rw [keyText, arrayText, append_cons, append_cons, append_cons, append_cons, quotedCommas_append]
    refine ⟨quotedCommas_of_notMem _ (by simp [hcomma]), ?_⟩
    exact quotedCommas_items hread _
  | number key n =>
    obtain ⟨hkey, -⟩ := hsound
    exact hnone (hkeyText hkey ((word_decimal n).notMem (by decide)))
  | flag key b => exact hnone (hkeyText hsound ((word_boolText b).notMem (by decide)))

/-! ## Documents -/

def Line.secAfter (sec : Str) : Line → Str
  | .header s => s
  | _ => sec

def located (sec : Str) : List Line → List (Str × Line)
  | [] => []
  | line :: lines => (sec, line) :: located (line.secAfter sec) lines

def Line.entry (sec : Str) : Line → Option (Str × Value)
  | .string key s => some (fullKey sec key, .str s)
  | .array key items => some (fullKey sec key, .arr items)
  | .number key n => some (fullKey sec key, .int n)
  | .flag key b => some (fullKey sec key, .bool b)
  | _ => none

def entriesOf (sec : Str) (lines : List Line) : List (Str × Value) :=
  (located sec lines).filterMap fun l => l.2.entry l.1

theorem foldl_apply (st : ParseState) (lines : List Line) :
    (lines.foldl apply st).entries = st.entries ++ entriesOf st.sec lines := by
  induction lines generalizing st with
  | nil => simp [entriesOf, located]
  | cons line lines ih =>
    rw [foldl_cons, ih]
    cases line <;> simp [apply, entriesOf, located, entry, secAfter]

theorem located_append (sec : Str) (a b : List Line) :
    located sec (a ++ b) = located sec a ++ located (a.foldl secAfter sec) b := by
  induction a generalizing sec with
  | nil => rfl
  | cons line a ih => simp [located, ih]

theorem foldl_apply_sec (st : ParseState) (lines : List Line) :
    (lines.foldl apply st).sec = lines.foldl secAfter st.sec := by
  induction lines generalizing st with
  | nil => rfl
  | cons line lines ih =>
    rw [foldl_cons, ih, foldl_cons]
    cases line <;> rfl

theorem feed_notMem_quote (s : Str) : '\n' ∉ quote s := by simp [quote, notMem_feed_escaped]

theorem feed_notMem_arrayText (items : List Str) : '\n' ∉ arrayText items := by
  cases items using List.reverseRecOn with
  | nil => simp [arrayText, List.intercalate]
  | append_singleton items e =>
    rw [arrayText, intercalate_quote]
    simp [followed, preceded, feed_notMem_quote]

theorem Line.Sound.text_line (h : line.Sound) :
    '\n' ∉ line.text ∧ stripCr line.text = line.text := by
  have hconcat : ∀ (a : Str) {c : Char}, c ≠ '\r' → stripCr (a ++ [c]) = a ++ [c] := by
    intro a c hc
    rw [stripCr_concat, if_neg hc]
  have hfeed : ∀ {key v : Str}, Word key → '\n' ∉ v → '\n' ∉ keyText key v := by
    intro key v hkey hv
    simp [keyText, hkey.notMem (c := '\n') (by decide), hv]
  have hwords : ∀ {key v : Str}, Word key → Word v → stripCr (keyText key v) = keyText key v := by
    intro key v hkey hv
    refine stripCr_eq_self ?_
    simp [keyText, hkey.notMem (c := '\r') (by decide), hv.notMem (c := '\r') (by decide)]
  have hquote : ∀ (key a : Str) {c : Char}, c ≠ '\r' →
      stripCr (keyText key (a ++ [c])) = keyText key (a ++ [c]) := by
    intro key a c hc
    have hsplit : keyText key (a ++ [c]) = keyText key a ++ [c] := by simp [keyText]
    rw [hsplit, hconcat _ hc]
  cases line with
  | header sec =>
    refine ⟨?_, ?_⟩
    · simp [text, Word.notMem h (c := '\n') (by decide)]
    · exact hconcat ('[' :: sec) (by decide)
  | blank => exact ⟨by simp [text], rfl⟩
  | string key s => exact ⟨hfeed h.1 (feed_notMem_quote s), hquote key ('"' :: escaped s) (by decide)⟩
  | array key items =>
    exact ⟨hfeed h.1 (feed_notMem_arrayText items), hquote key ('[' :: _) (by decide)⟩
  | number key n =>
    exact ⟨hfeed h.1 ((word_decimal n).notMem (by decide)), hwords h.1 (word_decimal n)⟩
  | flag key b => exact ⟨hfeed h ((word_boolText b).notMem (by decide)), hwords h (word_boolText b)⟩

theorem lines_text (h : ∀ line ∈ lines, line.Sound) :
    Str.lines (lines.flatMap fun line => line.text ++ ['\n']) = lines.map text := by
  have hmap : (lines.flatMap fun line => line.text ++ ['\n']) =
      (lines.map text).flatMap (· ++ ['\n']) := by rw [flatMap_map]
  rw [hmap, lines_flatMap, flatMap_map, flatMap_congr fun line hline =>
    splitOn_eq_singleton (h line hline).text_line.1, ← map_eq_flatMap, map_map]
  exact map_congr_left fun line hline => (h line hline).text_line.2

theorem parseDoc_plain (hsound : ∀ line ∈ lines, line.Sound) (hplain : ∀ line ∈ lines, line.Plain) :
    parseDoc (lines.flatMap fun line => line.text ++ ['\n']) = .ok (entriesOf [] lines) := by
  obtain ⟨hparse, hopen⟩ := @parseLines_plain ⟨[], [], 0, none⟩ _ rfl hsound hplain
  rw [parseDoc, lines_text hsound, hparse]
  simp [hopen, foldl_apply]

theorem get_eq_none (h : key ∉ entries.map Prod.fst) : get entries key = none := by
  rw [get, Option.map_eq_none_iff, find?_eq_none]
  intro e he hkey
  exact h (mem_map.mpr ⟨e, he, by simpa using hkey⟩)

theorem parseDoc_escaped (hsound : ∀ line ∈ lines, line.Sound)
    (hkeys : ((entriesOf [] lines).map Prod.fst).Nodup)
    (horder : lines.Pairwise fun a b => (∃ key items, a = .array key items) →
      ∀ key s, b ≠ .string key s)
    (hnot : ¬ ∀ line ∈ lines, line.Plain)
    (h : parseDoc (lines.flatMap fun line => line.text ++ ['\n']) = .ok doc) :
    ∃ sec line, (sec, line) ∈ located [] lines ∧ ¬ line.Plain ∧ Misread doc sec line := by
  obtain ⟨before, line, after, rfl, hbefore, hline⟩ := exists_first_not hnot
  have hsounds : ∀ l ∈ before, l.Sound := fun l hl => hsound l (by simp [hl])
  obtain ⟨hparse, hopen⟩ := @parseLines_plain ⟨[], [], 0, none⟩ _ rfl hsounds hbefore
  have hsec := foldl_apply_sec ⟨[], [], 0, none⟩ before
  have hentries := foldl_apply ⟨[], [], 0, none⟩ before
  refine ⟨before.foldl secAfter [], line, by simp [located_append, located], hline, ?_⟩
  rw [parseDoc, lines_text hsound, map_append, parseLines_append, hparse] at h
  generalize before.foldl apply ⟨[], [], 0, none⟩ = st at hopen hsec hentries h
  dsimp only at hsec hentries h
  -- No entry before this line has its key.
  have hnone : ∀ e, line.entry st.sec = some e → get st.entries e.1 = none := by
    intro e he
    refine get_eq_none fun hmem => ?_
    rw [entriesOf, located_append, filterMap_append, map_append, nodup_append] at hkeys
    rw [hentries, nil_append] at hmem
    refine hkeys.2.2 _ hmem e.1 ?_ rfl
    rw [hsec] at he
    simp [located, he]
  rw [map_cons, parseLines] at h
  cases hfirst : Toml.parseLine st line.text with
  | error e => simp [hfirst] at h
  | ok st₁ =>
    have hspoiled : Spoiled st.sec line st₁ := by
      cases line with
      | string key s =>
        exact .inl (parseLine_string_escaped hopen (hsound (.string key s) (by simp)).1 hline
          (hnone _ rfl) hfirst)
      | array key items =>
        have hs := hsound (.array key items) (by simp)
        exact parseLine_array_escaped hopen hs.1 hs.2 hline (hnone _ rfl) hfirst
      | _ => exact absurd trivial hline
    have hafter : (∃ key items, line = .array key items) → ∀ raw ∈ after.map text,
        QuotedCommas ' ' (Str.trim (stripComment raw)) := by
      intro harray raw hraw
      obtain ⟨l, hl, rfl⟩ := mem_map.mp hraw
      have hpair := rel_of_pairwise_cons (pairwise_append.mp horder).2.1 hl
      exact quotedCommas_line (hsound l (by simp [hl])) (hpair harray)
    rw [hfirst] at h
    dsimp only at h
    cases hrest : Toml.parseLines st₁ (after.map text) with
    | error e => simp [hrest] at h
    | ok st₂ =>
      rw [hrest] at h
      dsimp only at h
      rcases hspoiled.parseLines hafter hrest with hmis | ⟨_, _, a, _, hopen₂, _⟩
      · split at h
        · cases h
        · cases h
          rwa [← hsec]
      · simp [hopen₂] at h

end EuroOS.Agent.Toml
