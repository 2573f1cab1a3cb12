import EuroOS.ManifestRoundTrip

/-!
# Exported manifests

A manifest that was read is written and read again.  What can have been read is
collected first; then the entries of the exported text are looked up one by one.
-/

namespace EuroOS.Agent

open List Str Toml

/-! ## What is read from a text -/

namespace Toml

def ReadValue : Value → Prop
  | .str s => '\n' ∉ s
  | .int i => i < 2 ^ 63
  | .bool _ => True
  | .arr items => Readable items

variable {s key : Str} {doc : List (Str × Value)}

theorem subset_of_quoted {v : Str} (h : quoted s = some v) : v ⊆ s := by
  intro c hc
  rw [eq_of_quoted h]
  simp [hc]

theorem readable_parseArrayBody (h : '\n' ∉ body) : Readable (parseArrayBody body) := by
  intro e he
  obtain ⟨part, hpart, hquoted⟩ := mem_filterMap.mp he
  have hsub : ∀ c ∈ e, c ∈ body ∧ c ≠ ',' := fun c hc =>
    mem_of_mem_splitOn hpart (mem_of_mem_trim (subset_of_quoted hquoted hc))
  exact ⟨fun hfeed => h (hsub _ hfeed).1, fun hcomma => (hsub _ hcomma).2 rfl⟩

theorem lt_of_parseNat (h : parseNat bound s = some n) : n < bound := by
  unfold parseNat at h
  dsimp only at h
  generalize (if s.head? = some '+' then s.tail else s) = digits at h
  split_ifs at h with hdigits hlt
  cases h
  exact hlt

theorem readValue_parseScalar (h : '\n' ∉ s) (hv : parseScalar s = some v) : ReadValue v := by
  unfold parseScalar at hv
  dsimp only at hv
  split at hv
  · rename_i t hquoted
    cases hv
    exact fun hfeed => h (mem_of_mem_trim (subset_of_quoted hquoted hfeed))
  split_ifs at hv
  · cases hv
    trivial
  · cases hv
    trivial
  obtain ⟨i, hi, rfl⟩ := Option.map_eq_some_iff.mp hv
  unfold parseI64 at hi
  split_ifs at hi
  · obtain ⟨n, -, rfl⟩ := Option.map_eq_some_iff.mp hi
    change -(n : Int) < 2 ^ 63
    omega
  · obtain ⟨n, hn, rfl⟩ := Option.map_eq_some_iff.mp hi
    have hlt := lt_of_parseNat hn
    change (n : Int) < 2 ^ 63
    omega

structure ReadState (st : ParseState) : Prop where
  entries : ∀ e ∈ st.entries, ReadValue e.2
  openArray : ∀ a, st.openArray = some a → '\n' ∉ a.val

theorem ReadState.push (h : ReadState st) (hv : ReadValue v) (key : Str) (idx : Nat) (sec : Str) :
    ReadState { sec, idx, entries := st.entries ++ [(key, v)], openArray := none } := by
  refine ⟨fun e he => ?_, by simp⟩
  rcases mem_append.mp he with he | he
  · exact h.entries e he
  · rw [mem_singleton.mp he]
    exact hv

theorem ReadState.pushArray (h : ReadState st) (ha : '\n' ∉ a.val) :
    ReadState (Toml.pushArray st a) := by
  unfold Toml.pushArray
  split_ifs
  · have hitems : ReadValue (.arr (parseArrayBody ((beforeLast ']' a.val).drop 1))) := by
      refine readable_parseArrayBody fun hmem => ha ?_
      have hbefore := mem_of_mem_drop hmem
      rw [beforeLast, mem_reverse] at hbefore
      simpa using (dropWhile_sublist _).subset (mem_of_mem_drop hbefore)
    exact h.push hitems a.key st.idx st.sec
  · refine ⟨h.entries, fun b hb => ?_⟩
    cases hb
    exact ha

theorem ReadState.parseLine (h : ReadState st) (hraw : '\n' ∉ raw)
    (hparse : Toml.parseLine st raw = .ok st') : ReadState st' := by
  have hline : '\n' ∉ Str.trim (stripComment raw) := fun hmem =>
    hraw ((stripCommentFrom_isPrefix false raw).subset (mem_of_mem_trim hmem))
  unfold Toml.parseLine at hparse
  dsimp only at hparse
  generalize Str.trim (stripComment raw) = line at hparse hline
  split at hparse
  · rename_i a hopen
    cases hparse
    have hnext : ReadState { st with idx := st.idx + 1 } := ⟨h.entries, h.openArray⟩
    refine hnext.pushArray ?_
    simp [h.openArray a hopen, hline]
  · rename_i hopen
    split_ifs at hparse
    · cases hparse
      exact ⟨h.entries, h.openArray⟩
    · split at hparse
      · cases hparse
      · cases hparse
        exact ⟨h.entries, h.openArray⟩
    · split at hparse
      · cases hparse
      rename_i key val hsplit
      have hval : '\n' ∉ Str.trim val := by
        intro hmem
        unfold splitOnce at hsplit
        split_ifs at hsplit
        cases hsplit
        exact hline ((dropWhile_sublist _).subset (mem_of_mem_tail (mem_of_mem_trim hmem)))
      split_ifs at hparse
      · cases hparse
        have hnext : ReadState { st with idx := st.idx + 1 } := ⟨h.entries, h.openArray⟩
        exact hnext.pushArray hval
      split at hparse
      · cases hparse
      rename_i v hv
      cases hparse
      rw [hopen]
      exact h.push (readValue_parseScalar hval hv) _ _ _

theorem ReadState.parseLines (h : ReadState st) (hraws : ∀ raw ∈ raws, '\n' ∉ raw)
    (hparse : Toml.parseLines st raws = .ok st') : ReadState st' := by
  induction raws generalizing st with
  | nil =>
    cases hparse
    exact h
  | cons raw raws ih =>
    obtain ⟨hraw, hraws⟩ := forall_mem_cons.mp hraws
    unfold Toml.parseLines at hparse
    split at hparse
    · cases hparse
    · rename_i st₁ hfirst
      exact ih (h.parseLine hraw hfirst) hraws hparse

theorem readValue_parseDoc (h : parseDoc t = .ok doc) : ∀ e ∈ doc, ReadValue e.2 := by
  unfold parseDoc at h
  split at h
  · cases h
  rename_i st hparse
  have hempty : ReadState ⟨[], [], 0, none⟩ := ⟨by simp, by simp⟩
  have hread := hempty.parseLines (fun raw => notMem_of_mem_lines) hparse
  split at h
  · cases h
  · cases h
    exact hread.entries

theorem mem_of_get (h : get doc key = some v) : ∃ e ∈ doc, e.2 = v := by
  obtain ⟨e, he, rfl⟩ := Option.map_eq_some_iff.mp h
  exact ⟨e, mem_of_find?_eq_some he, rfl⟩

/-! ## Capabilities by name -/

def listed : UInt64 := Cap.allBits.foldr (· ||| ·) 0

theorem fromName_toName : ∀ b ∈ Cap.allBits, Cap.fromName (Cap.toName b) = some b :=
  forall_mem_of_all (by decide +kernel)

theorem toName_plain : ∀ b ∈ Cap.allBits,
    Toml.Plain (Cap.toName b) ∧ '\n' ∉ Cap.toName b ∧ ',' ∉ Cap.toName b :=
  forall_mem_of_all (by decide +kernel)

theorem and_bit (c : UInt64) : ∀ b ∈ Cap.allBits, c &&& b = 0 ∨ c &&& b = b := by
  have hbits : ∀ b ∈ Cap.allBits, ∃ k < 64, b = ⟨BitVec.twoPow 64 k⟩ :=
    forall_mem_of_all (by decide +kernel)
  intro b hb
  obtain ⟨k, -, rfl⟩ := hbits b hb
  have hand : (c &&& ⟨BitVec.twoPow 64 k⟩ : UInt64) = ⟨c.toBitVec &&& BitVec.twoPow 64 k⟩ := rfl
  rw [hand, BitVec.and_twoPow]
  split_ifs
  · exact .inr rfl
  · exact .inl rfl

theorem capsFrom_toName (c : AgentCaps) {bs : List UInt64} (hbs : ∀ b ∈ bs, b ∈ Cap.allBits) :
    capsFrom c (bs.map Cap.toName) = .ok ⟨bs.foldl (· ||| ·) c.bits⟩ := by
  induction bs generalizing c with
  | nil => rfl
  | cons b bs ih =>
    obtain ⟨hb, hbs⟩ := forall_mem_cons.mp hbs
    rw [map_cons, capsFrom, fromName_toName b hb]
    exact ih (c.insert b) hbs

theorem foldl_or_filter (c acc : UInt64) {bs : List UInt64} (hbs : ∀ b ∈ bs, b ∈ Cap.allBits) :
    (bs.filter fun b => c &&& b ≠ 0).foldl (· ||| ·) acc =
      acc ||| (bs.foldr (· ||| ·) 0 &&& c) := by
  induction bs generalizing acc with
  | nil => simp
  | cons b bs ih =>
    obtain ⟨hb, hbs⟩ := forall_mem_cons.mp hbs
    rw [filter_cons, foldr_cons, or_and_distrib, UInt64.and_comm b c]
    rcases and_bit c b hb with hzero | hbit
    · rw [hzero, if_neg (by simp), ih acc hbs, UInt64.zero_or]
    by_cases hb0 : b = 0
    · rw [hbit, hb0, if_neg (by simp), ih acc hbs, UInt64.zero_or]
    · rw [hbit, if_pos (by simpa using hb0), foldl_cons, ih _ hbs, UInt64.or_assoc]

theorem capsFrom_capsList (c : AgentCaps) : capsFrom .empty (capsList c) = .ok ⟨listed &&& c.bits⟩ := by
  rw [capsList, capsFrom_toName _ fun b hb => mem_of_mem_filter hb,
    foldl_or_filter c.bits _ fun b hb => hb]
  simp [AgentCaps.empty, listed]

theorem and_of_capsFrom (hc : (listed ||| Cap.ipcSend) &&& c.bits = c.bits)
    (h : capsFrom c names = .ok c') : (listed ||| Cap.ipcSend) &&& c'.bits = c'.bits := by
  have hnames : ∀ e ∈ Cap.names, (listed ||| Cap.ipcSend) &&& e.2 = e.2 := by decide +kernel
  induction names generalizing c with
  | nil =>
    cases h
    exact hc
  | cons n names ih =>
    rw [capsFrom] at h
    split at h
    · rename_i b hb
      refine ih ?_ h
      have hbit : (listed ||| Cap.ipcSend) &&& b = b := by
        unfold Cap.fromName at hb
        split_ifs at hb
        · cases hb
          decide +kernel
        · obtain ⟨e, he, rfl⟩ := Option.map_eq_some_iff.mp hb
          exact hnames e (mem_of_find?_eq_some he)
      rw [AgentCaps.insert, UInt64.and_comm, or_and_distrib, UInt64.and_comm c.bits, hc,
        UInt64.and_comm b, hbit]
    · cases h

theorem listed_and_eq (h : (listed ||| Cap.ipcSend) &&& bits = bits) :
    listed &&& bits = bits ↔ bits &&& Cap.ipcSend = 0 := by
  constructor
  · intro heq
    rw [← heq, UInt64.and_assoc, UInt64.and_comm bits, ← UInt64.and_assoc,
      show listed &&& Cap.ipcSend = 0 by decide +kernel, UInt64.zero_and]
  · intro hzero
    rw [or_and_distrib, UInt64.and_comm Cap.ipcSend, hzero, UInt64.or_zero] at h
    exact h

theorem notMem_of_str (hdoc : ∀ e ∈ doc, ReadValue e.2) (h : str doc key = some s) : '\n' ∉ s := by
  unfold str at h
  split at h
  · rename_i t hget
    obtain ⟨e, he, hv⟩ := mem_of_get hget
    cases h
    have hread := hdoc e he
    rwa [hv] at hread
  · cases h

theorem readable_arr (hdoc : ∀ e ∈ doc, ReadValue e.2) (key : Str) :
    Toml.Readable (arr doc key) := by
  unfold arr
  split
  · rename_i items hget
    obtain ⟨e, he, hv⟩ := mem_of_get hget
    have hread := hdoc e he
    rwa [hv] at hread
  · simp [Toml.Readable]

theorem int_lt (hdoc : ∀ e ∈ doc, ReadValue e.2) (h : int doc key = some i) : i < 2 ^ 63 := by
  unfold int at h
  split at h
  · rename_i j hget
    obtain ⟨e, he, hv⟩ := mem_of_get hget
    cases h
    have hread := hdoc e he
    rwa [hv] at hread
  · cases h

end Toml

/-! ## Manifests that were read -/

structure AgentManifest.WellRead (m : AgentManifest) : Prop where
  schema : m.schema = 1
  strings : ∀ s ∈ [m.name, m.version, m.description, m.author, m.wasm, m.lang], '\n' ∉ s
  arrays : ∀ items ∈ [m.triggersEvent, m.triggersIntent, m.toolsAllowed, m.toolsDenied,
    m.networkDomains], Toml.Readable items
  numbers : m.maxMemoryMb < 2 ^ 63 ∧ m.maxRuntimeMs < 2 ^ 63
  required : (listed ||| Cap.ipcSend) &&& m.required.bits = m.required.bits
  optional : (listed ||| Cap.ipcSend) &&& m.optional.bits = m.optional.bits

structure AgentManifest.Reads (doc : List (Str × Value)) (m : AgentManifest) : Prop where
  schema : m.schema = ((int doc (fullKey agent Toml.schema)).getD 1).toNat ∧ m.schema = 1
  name : str doc (fullKey agent Toml.name) = some m.name
  version : str doc (fullKey agent Toml.version) = some m.version
  description : (str doc (fullKey agent Toml.description)).getD [] = m.description
  author : (str doc (fullKey agent Toml.author)).getD [] = m.author
  wasm : str doc (fullKey agent Toml.wasm) = some m.wasm
  lang : (str doc (fullKey agent Toml.lang)).getD ['e', 'n'] = m.lang
  required : capsFrom .empty (arr doc (fullKey capabilities Toml.required)) = .ok m.required
  optional : capsFrom .empty (arr doc (fullKey capabilities Toml.optional)) = .ok m.optional
  triggersEvent : arr doc (fullKey triggers onEvent) = m.triggersEvent
  triggersIntent : arr doc (fullKey triggers onIntent) = m.triggersIntent
  toolsAllowed : arr doc (fullKey tools Toml.allowed) = m.toolsAllowed
  toolsDenied : arr doc (fullKey tools denied) = m.toolsDenied
  maxMemoryMb : ((int doc (fullKey sandbox Toml.maxMemoryMb)).getD 64).toNat = m.maxMemoryMb
  maxRuntimeMs : ((int doc (fullKey sandbox Toml.maxRuntimeMs)).getD 0).toNat = m.maxRuntimeMs
  networkDomains : arr doc (fullKey sandbox Toml.networkDomains) = m.networkDomains

namespace AgentManifest

variable {doc : List (Str × Value)}

variable {m : AgentManifest}

theorem reads_of_ofDoc (h : ofDoc doc = .ok m) : m.Reads doc := by
  unfold ofDoc at h
  dsimp only at h
  split_ifs at h with hschema
  split at h
  · cases h
  rename_i name hname
  split at h
  · cases h
  rename_i version hversion
  split at h
  · cases h
  rename_i wasm hwasm
  split at h
  · cases h
  rename_i required hrequired
  split at h
  · cases h
  rename_i optional hoptional
  cases h
  refine ⟨⟨rfl, ?_⟩, hname, hversion, rfl, rfl, hwasm, rfl, hrequired, hoptional, rfl, rfl, rfl, rfl,
    rfl, rfl, rfl⟩
  have hle : (schemaVersion : Int) = 1 := rfl
  have hone : (int doc (fullKey agent Toml.schema)).getD 1 = 1 := by omega
  rw [hone]
  rfl

theorem Reads.wellRead (h : m.Reads doc) (hdoc : ∀ e ∈ doc, ReadValue e.2) : m.WellRead := by
  have hgetD : ∀ {key fallback s : Str}, (str doc key).getD fallback = s → '\n' ∉ fallback → '\n' ∉ s := by
    intro key fallback s hs hfallback
    cases hstr : str doc key with
    | none =>
      rw [hstr] at hs
      rwa [← hs]
    | some t =>
      rw [hstr] at hs
      rw [← hs]
      exact notMem_of_str hdoc hstr
  have hint : ∀ {key : Str} {fallback : Int} {n : Nat}, ((int doc key).getD fallback).toNat = n →
      fallback < 2 ^ 63 → n < 2 ^ 63 := by
    intro key fallback n hn hfallback
    have hlt : (int doc key).getD fallback < 2 ^ 63 := by
      cases hi : int doc key with
      | none => exact hfallback
      | some i => exact int_lt hdoc hi
    omega
  refine ⟨h.schema.2, ?_, ?_, ⟨hint h.maxMemoryMb (by decide), hint h.maxRuntimeMs (by decide)⟩,
    and_of_capsFrom (by simp [AgentCaps.empty]) h.required,
    and_of_capsFrom (by simp [AgentCaps.empty]) h.optional⟩
  · simp only [forall_mem_cons]
    exact ⟨notMem_of_str hdoc h.name, notMem_of_str hdoc h.version, hgetD h.description (by simp),
      hgetD h.author (by simp), notMem_of_str hdoc h.wasm, hgetD h.lang (by decide), by simp⟩
  · rw [← h.triggersEvent, ← h.triggersIntent, ← h.toolsAllowed, ← h.toolsDenied, ← h.networkDomains]
    simp only [forall_mem_cons]
    exact ⟨readable_arr hdoc _, readable_arr hdoc _, readable_arr hdoc _, readable_arr hdoc _,
      readable_arr hdoc _, by simp⟩

/-! ## The exported text -/

theorem readable_capsList (c : AgentCaps) : Toml.Readable (capsList c) := by
  intro e he
  obtain ⟨b, hb, rfl⟩ := mem_map.mp he
  exact (toName_plain b (mem_of_mem_filter hb)).2

theorem plainItems_capsList (c : AgentCaps) : PlainItems (capsList c) := by
  intro e he
  obtain ⟨b, hb, rfl⟩ := mem_map.mp he
  exact (toName_plain b (mem_of_mem_filter hb)).1

theorem words : ∀ w ∈ [agent, capabilities, triggers, tools, sandbox, audit, Toml.schema, Toml.name,
    Toml.version, Toml.description, Toml.author, Toml.wasm, Toml.lang, Toml.required, Toml.optional,
    onEvent, onIntent, Toml.allowed, denied, Toml.maxMemoryMb, Toml.maxRuntimeMs, Toml.networkDomains,
    Toml.logToolCalls, Toml.logInputs], Word w := by decide +kernel

theorem WellRead.sound (h : m.WellRead) : ∀ line ∈ m.lines, line.Sound := by
  have hwords := words
  have hstrings := h.strings
  have harrays := h.arrays
  have hschema : m.schema < 2 ^ 63 := by rw [h.schema]; decide
  have hcaps := readable_capsList
  simp only [forall_mem_cons] at hwords hstrings harrays
  obtain ⟨wagent, wcapabilities, wtriggers, wtools, wsandbox, waudit, wschema, wname, wversion,
    wdescription, wauthor, wwasm, wlang, wrequired, woptional, wevent, wintent, wallowed, wdenied,
    wmemory, wruntime, wdomains, wcalls, winputs, -⟩ := hwords
  obtain ⟨hname, hversion, hdescription, hauthor, hwasm, hlang, -⟩ := hstrings
  obtain ⟨hevent, hintent, hallowed, hdenied, hdomains, -⟩ := harrays
  simp only [lines, forall_mem_cons]
  exact ⟨wagent, ⟨wschema, hschema⟩, ⟨wname, hname⟩, ⟨wversion, hversion⟩,
    ⟨wdescription, hdescription⟩, ⟨wauthor, hauthor⟩, ⟨wwasm, hwasm⟩, ⟨wlang, hlang⟩, trivial,
    wcapabilities, ⟨wrequired, hcaps _⟩, ⟨woptional, hcaps _⟩, trivial,
    wtriggers, ⟨wevent, hevent⟩, ⟨wintent, hintent⟩, trivial,
    wtools, ⟨wallowed, hallowed⟩, ⟨wdenied, hdenied⟩, trivial,
    wsandbox, ⟨wmemory, h.numbers.1⟩, ⟨wruntime, h.numbers.2⟩, ⟨wdomains, hdomains⟩, trivial,
    waudit, wcalls, winputs, by simp⟩

def exportKeys : List Str :=
  [fullKey agent Toml.schema, fullKey agent Toml.name, fullKey agent Toml.version,
    fullKey agent Toml.description, fullKey agent Toml.author, fullKey agent Toml.wasm,
    fullKey agent Toml.lang, fullKey capabilities Toml.required, fullKey capabilities Toml.optional,
    fullKey triggers onEvent, fullKey triggers onIntent, fullKey tools Toml.allowed, fullKey tools denied,
    fullKey sandbox Toml.maxMemoryMb, fullKey sandbox Toml.maxRuntimeMs,
    fullKey sandbox Toml.networkDomains, fullKey audit Toml.logToolCalls, fullKey audit Toml.logInputs]

theorem nodup_exportKeys : exportKeys.Nodup := by decide +kernel

theorem keys_lines (m : AgentManifest) : (entriesOf [] m.lines).map Prod.fst = exportKeys := rfl

theorem order_lines (m : AgentManifest) : m.lines.Pairwise fun a b =>
    (∃ key items, a = .array key items) → ∀ key s, b ≠ .string key s := by simp [lines]

theorem get_of_mem (hkeys : (doc.map Prod.fst).Nodup) (h : (key, v) ∈ doc) :
    Toml.get doc key = some v := by
  induction doc with
  | nil => simp at h
  | cons e doc ih =>
    obtain ⟨hnew, hkeys⟩ := nodup_cons.mp hkeys
    rcases mem_cons.mp h with rfl | h
    · simp [Toml.get]
    have hne : e.1 ≠ key := fun heq => hnew (mem_map.mpr ⟨_, h, heq.symm⟩)
    rw [Toml.get, find?_cons_of_neg (by simpa using hne)]
    exact ih hkeys h

section

variable (m : AgentManifest)

theorem get_entriesOf (i : Nat) (key : Str) (v : Value)
    (h : (entriesOf [] m.lines)[i]? = some (key, v)) :
    Toml.get (entriesOf [] m.lines) key = some v := by
  refine get_of_mem ?_ (mem_of_getElem? h)
  rw [keys_lines]
  exact nodup_exportKeys

theorem str_entriesOf (i : Nat) (key s : Str)
    (h : (entriesOf [] m.lines)[i]? = some (key, .str s)) :
    Toml.str (entriesOf [] m.lines) key = some s := by rw [Toml.str, get_entriesOf m i key _ h]

theorem int_entriesOf (i : Nat) (key : Str) (n : Int)
    (h : (entriesOf [] m.lines)[i]? = some (key, .int n)) :
    Toml.int (entriesOf [] m.lines) key = some n := by rw [Toml.int, get_entriesOf m i key _ h]

theorem bool_entriesOf (i : Nat) (key : Str) (b : Bool)
    (h : (entriesOf [] m.lines)[i]? = some (key, .bool b)) :
    Toml.bool (entriesOf [] m.lines) key = some b := by rw [Toml.bool, get_entriesOf m i key _ h]

theorem arr_entriesOf (i : Nat) (key : Str) (items : List Str)
    (h : (entriesOf [] m.lines)[i]? = some (key, .arr items)) :
    Toml.arr (entriesOf [] m.lines) key = items := by rw [Toml.arr, get_entriesOf m i key _ h]

end

theorem ofDoc_entriesOf (h : m.WellRead) :
    ofDoc (entriesOf [] m.lines) = .ok { m with
      required := ⟨listed &&& m.required.bits⟩
      optional := ⟨listed &&& m.optional.bits⟩ } := by
  unfold ofDoc
  rw [int_entriesOf m 0 (fullKey agent Toml.schema) m.schema rfl,
    str_entriesOf m 1 (fullKey agent Toml.name) m.name rfl,
    str_entriesOf m 2 (fullKey agent Toml.version) m.version rfl,
    str_entriesOf m 3 (fullKey agent Toml.description) m.description rfl,
    str_entriesOf m 4 (fullKey agent Toml.author) m.author rfl,
    str_entriesOf m 5 (fullKey agent Toml.wasm) m.wasm rfl,
    str_entriesOf m 6 (fullKey agent Toml.lang) m.lang rfl,
    arr_entriesOf m 7 (fullKey capabilities Toml.required) (capsList m.required) rfl,
    arr_entriesOf m 8 (fullKey capabilities Toml.optional) (capsList m.optional) rfl,
    arr_entriesOf m 9 (fullKey triggers onEvent) m.triggersEvent rfl,
    arr_entriesOf m 10 (fullKey triggers onIntent) m.triggersIntent rfl,
    arr_entriesOf m 11 (fullKey tools Toml.allowed) m.toolsAllowed rfl,
    arr_entriesOf m 12 (fullKey tools denied) m.toolsDenied rfl,
    int_entriesOf m 13 (fullKey sandbox Toml.maxMemoryMb) m.maxMemoryMb rfl,
    int_entriesOf m 14 (fullKey sandbox Toml.maxRuntimeMs) m.maxRuntimeMs rfl,
    arr_entriesOf m 15 (fullKey sandbox Toml.networkDomains) m.networkDomains rfl,
    bool_entriesOf m 16 (fullKey audit Toml.logToolCalls) m.logToolCalls rfl,
    bool_entriesOf m 17 (fullKey audit Toml.logInputs) m.logInputs rfl,
    capsFrom_capsList, capsFrom_capsList]
  simp [h.schema, schemaVersion]

/-- No string has to be escaped, and the capability that is not listed is not there. -/
structure Exportable (m : AgentManifest) : Prop where
  strings : ∀ s ∈ [m.name, m.version, m.description, m.author, m.wasm, m.lang], Plain s
  arrays : ∀ items ∈ [m.triggersEvent, m.triggersIntent, m.toolsAllowed, m.toolsDenied,
    m.networkDomains], ∀ s ∈ items, Plain s
  required : m.required.bits &&& Cap.ipcSend = 0
  optional : m.optional.bits &&& Cap.ipcSend = 0

theorem plain_lines_iff (m : AgentManifest) : (∀ line ∈ m.lines, line.Plain) ↔
    (∀ s ∈ [m.name, m.version, m.description, m.author, m.wasm, m.lang], Plain s) ∧
      ∀ items ∈ [m.triggersEvent, m.triggersIntent, m.toolsAllowed, m.toolsDenied, m.networkDomains],
        ∀ s ∈ items, Plain s := by
  simp only [lines, forall_mem_cons, Line.Plain, true_and, and_assoc, not_mem_nil,
    false_implies, implies_true, and_true]
  constructor
  · rintro ⟨hname, hversion, hdescription, hauthor, hwasm, hlang, -, -, harrays⟩
    exact ⟨hname, hversion, hdescription, hauthor, hwasm, hlang, harrays⟩
  · rintro ⟨hname, hversion, hdescription, hauthor, hwasm, hlang, harrays⟩
    exact ⟨hname, hversion, hdescription, hauthor, hwasm, hlang, plainItems_capsList _,
      plainItems_capsList _, harrays⟩

theorem Reads.not_misread (h : m.Reads doc) :
    ∀ l ∈ located [] m.lines, ¬ l.2.Plain → ¬ Misread doc l.1 l.2 := by
  have hstr : ∀ {sec key s fallback : Str}, (Toml.str doc (fullKey sec key)).getD fallback = s →
      ¬ Plain s → ¬ Misread doc sec (.string key s) := by
    rintro sec key s fallback hs - ⟨v, hv, hne⟩
    rw [Toml.str, hv] at hs
    exact hne hs
  have hstr' : ∀ {sec key s : Str}, Toml.str doc (fullKey sec key) = some s →
      ¬ Plain s → ¬ Misread doc sec (.string key s) := by
    intro sec key s hs
    have hgetD : (Toml.str doc (fullKey sec key)).getD [] = s := by rw [hs]; rfl
    exact hstr hgetD
  have harr : ∀ {sec key : Str} {items : List Str}, Toml.arr doc (fullKey sec key) = items →
      ¬ PlainItems items → ¬ Misread doc sec (.array key items) := by
    rintro sec key items hitems - ⟨v, hv, hne⟩
    rw [Toml.arr, hv] at hitems
    exact hne hitems
  have hcaps : ∀ {sec key : Str} (c : AgentCaps), ¬ PlainItems (capsList c) →
      ¬ Misread doc sec (.array key (capsList c)) := by
    intro sec key c hnot
    exact absurd (plainItems_capsList c) hnot
  have hother : ∀ {sec : Str} {line : Line}, line.Plain → ¬ line.Plain → ¬ Misread doc sec line :=
    fun hplain hnot => absurd hplain hnot
  simp only [lines, located, Line.secAfter, forall_mem_cons]
  exact ⟨hother trivial, hother trivial, hstr' h.name, hstr' h.version, hstr h.description,
    hstr h.author, hstr' h.wasm, hstr h.lang, hother trivial,
    hother trivial, hcaps _, hcaps _, hother trivial,
    hother trivial, harr h.triggersEvent, harr h.triggersIntent, hother trivial,
    hother trivial, harr h.toolsAllowed, harr h.toolsDenied, hother trivial,
    hother trivial, hother trivial, hother trivial, harr h.networkDomains, hother trivial,
    hother trivial, hother trivial, hother trivial, by simp⟩

theorem fromToml_toToml_of_plain (h : m.WellRead) (hplain : ∀ line ∈ m.lines, line.Plain) :
    fromToml m.toToml = .ok { m with
      required := ⟨listed &&& m.required.bits⟩
      optional := ⟨listed &&& m.optional.bits⟩ } := by
  rw [fromToml, toToml, parseDoc_plain h.sound hplain]
  exact ofDoc_entriesOf h

/-- A manifest that was read from any text comes back from its export exactly if it is
exportable. -/
theorem fromToml_toToml_iff {t : Str} {m : AgentManifest} (h : fromToml t = .ok m) :
    fromToml m.toToml = .ok m ↔ m.Exportable := by
  have hwell : m.WellRead := by
    unfold fromToml at h
    split at h
    · cases h
    · rename_i doc hdoc
      exact (reads_of_ofDoc h).wellRead (readValue_parseDoc hdoc)
  have hcaps : ({ m with
      required := ⟨listed &&& m.required.bits⟩
      optional := ⟨listed &&& m.optional.bits⟩ } : AgentManifest) = m ↔
      m.required.bits &&& Cap.ipcSend = 0 ∧ m.optional.bits &&& Cap.ipcSend = 0 := by
    rw [← listed_and_eq hwell.required, ← listed_and_eq hwell.optional]
    cases m with
    | mk _ _ _ _ _ _ _ required optional =>
      cases required
      cases optional
      simp
  constructor
  · intro hback
    have hplain : ∀ line ∈ m.lines, line.Plain := by
      by_contra hnot
      unfold fromToml at hback
      split at hback
      · cases hback
      rename_i doc hdoc
      obtain ⟨sec, line, hmem, hline, hmisread⟩ := parseDoc_escaped hwell.sound
        (by rw [keys_lines]; exact nodup_exportKeys) (order_lines m) hnot hdoc
      exact (reads_of_ofDoc hback).not_misread _ hmem hline hmisread
    rw [fromToml_toToml_of_plain hwell hplain, Except.ok.injEq, hcaps] at hback
    obtain ⟨hstrings, harrays⟩ := (plain_lines_iff m).mp hplain
    exact ⟨hstrings, harrays, hback.1, hback.2⟩
  · intro hexport
    have hplain := (plain_lines_iff m).mpr ⟨hexport.strings, hexport.arrays⟩
    rw [fromToml_toToml_of_plain hwell hplain, hcaps.mpr ⟨hexport.required, hexport.optional⟩]

def startText : Str := "[agent]\nname=\"x\"\nversion=\"1\"\nwasm=\"w\"\n".toList

theorem fromToml_toToml_iff_start : ∃ m, fromToml startText = .ok m ∧
    (fromToml m.toToml = .ok m ↔ m.Exportable) := by
  have hok : ∃ m, fromToml startText = .ok m := by
    refine ⟨⟨1, ['x'], ['1'], [], [], ['w'], ['e', 'n'], ⟨0⟩, ⟨0⟩, [], [], [], [], 64, 0, [], true,
      false⟩, ?_⟩
    decide +kernel
  obtain ⟨m, hm⟩ := hok
  exact ⟨m, hm, fromToml_toToml_iff hm⟩

/-- A capability of the manifest is lost, and a backslash in a name is doubled. -/
theorem fromToml_toToml_loses :
    (∃ m, fromToml (startText ++ "[capabilities]\nrequired=[\"CAP_AGENT_IPC_SEND\"]\n".toList) = .ok m ∧
      fromToml m.toToml = .ok { m with required := ⟨0⟩ } ∧ m.required = ⟨Cap.ipcSend⟩) ∧
    ∃ m, fromToml "[agent]\nname=\"a\\b\"\nversion=\"1\"\nwasm=\"w\"\n".toList = .ok m ∧
      fromToml m.toToml = .ok { m with name := m.name.flatMap escapeChar } ∧
      m.name ≠ m.name.flatMap escapeChar := by
  refine ⟨⟨⟨1, ['x'], ['1'], [], [], ['w'], ['e', 'n'], ⟨Cap.ipcSend⟩, ⟨0⟩, [], [], [], [], 64, 0, [],
      true, false⟩, ?_⟩,
    ⟨⟨1, ['a', '\\', 'b'], ['1'], [], [], ['w'], ['e', 'n'], ⟨0⟩, ⟨0⟩, [], [], [], [], 64, 0, [],
      true, false⟩, ?_⟩⟩
  · decide +kernel
  · decide +kernel

end AgentManifest

end EuroOS.Agent
