import EuroOS.ByteCodec

/-!
# Lines and fields of a text

A text is cut at separators, and what was joined with separators is cut into the
same pieces again, whatever the pieces contain.  White space, lines and the
parsing of numbers are those of the Rust standard library.
-/

namespace EuroOS

open List

variable {α : Type}

theorem intercalate_cons_cons (sep piece next : List α) (pieces : List (List α)) :
    sep.intercalate (piece :: next :: pieces) =
      piece ++ (sep ++ sep.intercalate (next :: pieces)) := by simp [List.intercalate]

theorem splitOn_intercalate_flatMap [BEq α] [ReflBEq α] (x : α) (hne : pieces ≠ []) :
    ([x].intercalate pieces).splitOn x = pieces.flatMap (·.splitOn x) := by
  induction pieces with
  | nil => exact absurd rfl hne
  | cons piece pieces ih =>
    cases pieces with
    | nil => simp [List.intercalate]
    | cons next pieces =>
      rw [intercalate_cons_cons, singleton_append, splitOn_append_cons_self, ih (by simp)]
      rfl

theorem mem_of_mem_splitOn [BEq α] [LawfulBEq α] {x c : α} {l piece : List α}
    (h : piece ∈ l.splitOn x) (hc : c ∈ piece) : c ∈ l ∧ c ≠ x := by
  induction l generalizing piece with
  | nil =>
    have : piece = [] := by simpa [List.splitOn] using h
    simp [this] at hc
  | cons y l ih =>
    rw [splitOn_cons_eq_if_modifyHead] at h
    by_cases hy : y = x
    · rcases mem_cons.mp (by simpa [hy] using h) with rfl | h
      · simp at hc
      · exact (ih h hc).imp_left (mem_cons_of_mem _)
    rw [if_neg (by simpa using hy)] at h
    cases hrest : l.splitOn x with
    | nil => exact absurd hrest (splitOn_ne_nil _ _)
    | cons first rest =>
      rw [hrest, modifyHead_cons] at h
      rcases mem_cons.mp h with rfl | h
      · rcases mem_cons.mp hc with rfl | hc
        · exact ⟨mem_cons_self, hy⟩
        · exact (ih (hrest ▸ mem_cons_self) hc).imp_left (mem_cons_of_mem _)
      · exact (ih (hrest ▸ mem_cons_of_mem _ h) hc).imp_left (mem_cons_of_mem _)

theorem exists_append_mem_splitOn [BEq α] [LawfulBEq α] (a : List α) (hb : x ∉ b) :
    ∃ c, c ++ b ∈ (a ++ b).splitOn x := by
  induction a with
  | nil => exact ⟨[], by simp [splitOn_eq_singleton hb]⟩
  | cons y a ih =>
    obtain ⟨c, hc⟩ := ih
    rw [cons_append, splitOn_cons_eq_if_modifyHead]
    by_cases hy : y = x
    · exact ⟨c, by simp [hy, hc]⟩
    rw [if_neg (by simpa using hy)]
    cases hpieces : (a ++ b).splitOn x with
    | nil => exact absurd hpieces (splitOn_ne_nil _ _)
    | cons first rest =>
      rw [hpieces] at hc
      rcases mem_cons.mp hc with hfirst | hrest
      · exact ⟨y :: c, by simp [← hfirst]⟩
      · exact ⟨c, by simp [hrest]⟩

theorem length_splitOn [BEq α] [LawfulBEq α] (x : α) (l : List α) :
    (l.splitOn x).length = l.count x + 1 := by
  induction l with
  | nil => simp [List.splitOn]
  | cons y l ih =>
    rw [splitOn_cons_eq_if_modifyHead]
    by_cases hy : y = x
    · simp [hy, ih]
    · simp [hy, ih, count_cons_of_ne hy]

theorem mem_intercalate_singleton {x c : α} {pieces : List (List α)}
    (h : c ∈ [x].intercalate pieces) : c = x ∨ ∃ piece ∈ pieces, c ∈ piece := by
  induction pieces with
  | nil => simp [List.intercalate] at h
  | cons piece pieces ih =>
    cases pieces with
    | nil => exact .inr ⟨piece, by simp, by simpa [List.intercalate] using h⟩
    | cons next pieces =>
      rw [intercalate_cons_cons, singleton_append, mem_append, mem_cons] at h
      rcases h with h | rfl | h
      · exact .inr ⟨piece, by simp, h⟩
      · exact .inl rfl
      · exact (ih h).imp_right fun ⟨p, hp, hc⟩ => ⟨p, mem_cons_of_mem _ hp, hc⟩

theorem filter_splitOn_intercalate [BEq α] [LawfulBEq α] {x : α} {words : List (List α)}
    (h : ∀ word ∈ words, x ∉ word ∧ word ≠ []) :
    (([x].intercalate words).splitOn x).filter (!·.isEmpty) = words := by
  cases words with
  | nil => simp [List.intercalate, List.splitOn]
  | cons word words =>
    rw [splitOn_intercalate x (fun word hword => (h word hword).1) (by simp)]
    exact List.filter_eq_self.mpr fun word hword => by simpa using (h word hword).2

theorem mapM_map_of_readBack {β : Type} {write : α → β} {read : β → Option α}
    (h : ∀ a, read (write a) = some a) (l : List α) : (l.map write).mapM read = some l := by
  induction l with
  | nil => rfl
  | cons a l ih => simp [h, ih]

namespace Str

def isWhitespace (c : Char) : Bool :=
  (9 ≤ c.toNat && c.toNat ≤ 13) || c.toNat == 0x20 || c.toNat == 0x85 || c.toNat == 0xA0 ||
    c.toNat == 0x1680 || (0x2000 ≤ c.toNat && c.toNat ≤ 0x200A) || c.toNat == 0x2028 ||
    c.toNat == 0x2029 || c.toNat == 0x202F || c.toNat == 0x205F || c.toNat == 0x3000

def trimStartBy (p : Char → Bool) (s : Str) : Str := s.dropWhile p

def trimEndBy (p : Char → Bool) (s : Str) : Str := (s.reverse.dropWhile p).reverse

def trimStart (s : Str) : Str := trimStartBy isWhitespace s

def trim (s : Str) : Str := trimEndBy isWhitespace (trimStart s)

def trimMatches (c : Char) (s : Str) : Str := trimEndBy (· == c) (trimStartBy (· == c) s)

def afterStart (start s : Str) : Option Str :=
  if start.isPrefixOf s then some (s.drop start.length) else none

def afterFirst (pat : Str) : Str → Option Str
  | [] => if pat.isEmpty then some [] else none
  | c :: s => if pat.isPrefixOf (c :: s) then some ((c :: s).drop pat.length) else afterFirst pat s

def before (c : Char) (s : Str) : Option Str :=
  if c ∈ s then some (s.takeWhile (· != c)) else none

def stripCr (line : Str) : Str :=
  if line.getLast? = some '\r' then line.dropLast else line

/-- The lines of a text.  After the last line feed there is a line only if it is not empty, and
it keeps its carriage return. -/
def lines (s : Str) : List Str :=
  let pieces := s.splitOn '\n'
  pieces.dropLast.map stripCr ++ (pieces.getLast?.toList.filter (!·.isEmpty))

def parseU32 (s : Str) : Option UInt32 :=
  let digits := if s.head? = some '+' then s.tail else s
  if digits.isEmpty || !digits.all Char.isDigit then none
  else
    let n := digits.foldl (fun n c => 10 * n + (c.toNat - 48)) 0
    if n < 2 ^ 32 then some (UInt32.ofNat n) else none

theorem mem_of_mem_trimEndBy (h : c ∈ trimEndBy p s) : c ∈ s := by
  rw [trimEndBy, mem_reverse] at h
  simpa using (dropWhile_sublist p).subset h

theorem mem_of_mem_trim (h : c ∈ trim s) : c ∈ s :=
  (dropWhile_sublist _).subset (mem_of_mem_trimEndBy h)

theorem mem_of_mem_trimMatches (h : c ∈ trimMatches d s) : c ∈ s :=
  (dropWhile_sublist _).subset (mem_of_mem_trimEndBy h)

theorem mem_of_mem_stripCr (h : c ∈ stripCr line) : c ∈ line := by
  unfold stripCr at h
  split_ifs at h
  · exact mem_of_mem_dropLast h
  · exact h

theorem notMem_of_mem_lines {line : Str} (h : line ∈ lines s) : '\n' ∉ line := by
  rw [lines, mem_append, mem_map] at h
  rcases h with ⟨piece, hpiece, rfl⟩ | h
  · intro hfeed
    exact (mem_of_mem_splitOn (mem_of_mem_dropLast hpiece) (mem_of_mem_stripCr hfeed)).2 rfl
  intro hfeed
  have hlast := mem_of_mem_filter h
  rw [Option.mem_toList] at hlast
  exact (mem_of_mem_splitOn (mem_of_getLast? hlast) hfeed).2 rfl

theorem stripCr_concat (a : Str) (last : Char) :
    stripCr (a ++ [last]) = if last = '\r' then a else a ++ [last] := by simp [stripCr]

theorem stripCr_eq_self (h : '\r' ∉ s) : stripCr s = s :=
  if_neg fun hlast => h (mem_of_getLast? hlast)

theorem stripCr_append_cons (a b : Str) (hc : c ≠ '\r') :
    stripCr (a ++ c :: b) = a ++ c :: stripCr b := by
  cases b using List.reverseRecOn with
  | nil => rw [stripCr_concat, if_neg hc]; rfl
  | append_singleton b last =>
    have hsplit : a ++ c :: (b ++ [last]) = (a ++ c :: b) ++ [last] := by simp
    rw [hsplit, stripCr_concat, stripCr_concat]
    by_cases hlast : last = '\r'
    · rw [if_pos hlast, if_pos hlast]
    · rw [if_neg hlast, if_neg hlast, hsplit]

theorem lines_flatMap (texts : List Str) :
    lines (texts.flatMap (· ++ ['\n'])) = (texts.flatMap (·.splitOn '\n')).map stripCr := by
  have hsplit : (texts.flatMap (· ++ ['\n'])).splitOn '\n' =
      texts.flatMap (·.splitOn '\n') ++ [[]] := by
    induction texts with
    | nil => simp [List.splitOn]
    | cons text texts ih =>
      rw [flatMap_cons, append_assoc, singleton_append,
        splitOn_append_cons_self, ih, flatMap_cons, append_assoc]
  simp [lines, hsplit]

end Str

end EuroOS
