import EuroOS.PackageText

/-!
# Reading the registry back

Rows that were read from a registry have no separators in their fields, so they
are read back as they were, up to a carriage return at the end of a line.  A row
whose dependencies contain a line feed is read back as several rows.
-/

namespace EuroOS

open List

theorem Str.count_tab_stripCr (s : Str) : (Str.stripCr s).count '\t' = s.count '\t' := by
  cases s using List.reverseRecOn with
  | nil => rfl
  | append_singleton s last =>
    rw [Str.stripCr_concat]
    by_cases hlast : last = '\r'
    · rw [if_pos hlast, hlast, count_append]
      simp
    · rw [if_neg hlast]

namespace Installed

theorem isSome_parseLine {line : Str} (h : 4 ≤ line.count '\t') : (parseLine line).isSome := by
  have hlen := length_splitOn '\t' line
  unfold parseLine
  match hfields : line.splitOn '\t' with
  | name :: version :: hash :: bin :: deps :: rest => rfl
  | [] | [_] | [_, _] | [_, _, _] | [_, _, _, _] =>
    rw [hfields] at hlen
    simp only [length_nil, length_cons] at hlen
    omega

def joined (r : Installed) : Str := [','].intercalate r.deps

structure Tidy (r : Installed) : Prop where
  tab : ∀ f ∈ r.fields, '\t' ∉ f
  feed : ∀ f ∈ r.fields, '\n' ∉ f
  deps : (if r.joined.isEmpty then [] else r.joined.splitOn ',') = r.deps

variable {r : Installed}

theorem tidy_of_parseLine {line : Str} (h : parseLine line = some r) (hline : '\n' ∉ line) :
    r.Tidy := by
  have hpiece {f : Str} (hf : f ∈ line.splitOn '\t') : '\t' ∉ f ∧ '\n' ∉ f :=
    ⟨fun hc => (mem_of_mem_splitOn hf hc).2 rfl, fun hc => hline (mem_of_mem_splitOn hf hc).1⟩
  unfold parseLine at h
  match hfields : line.splitOn '\t' with
  | name :: version :: hash :: bin :: deps :: rest =>
    have hmem {f : Str} (hf : f ∈ name :: version :: hash :: bin :: deps :: rest) :
        '\t' ∉ f ∧ '\n' ∉ f := hpiece (hfields ▸ hf)
    have hrest {i : Nat} {d : Str} (hd : '\t' ∉ d ∧ '\n' ∉ d) :
        '\t' ∉ rest[i]?.getD d ∧ '\n' ∉ rest[i]?.getD d := by
      cases hi : rest[i]? with
      | none => exact hd
      | some f =>
        have : f ∈ rest := mem_of_getElem? hi
        exact hmem (by simp [this])
    simp only [hfields, ofFields, Option.some.injEq] at h
    have hjoined : r.joined = deps := by
      rw [joined, ← h]
      by_cases hempty : deps.isEmpty
      · simp [List.isEmpty_iff.mp hempty, List.intercalate]
      · rw [if_neg hempty, intercalate_splitOn]
    have hall : ∀ f ∈ r.fields, '\t' ∉ f ∧ '\n' ∉ f := by
      have hname := hmem (f := name) (by simp)
      have hfields' : r.fields = [name, version, hash, bin, deps, rest[0]?.getD "lib".toList,
          rest[1]?.getD name, rest[2]?.getD [], rest[3]?.getD "full".toList,
          rest[4]?.getD "none".toList, rest[5]?.getD [], rest[6]?.getD "linux".toList] := by
        rw [fields, ← joined, hjoined, ← h]
      rw [hfields']
      simp only [forall_mem_cons, not_mem_nil, false_imp_iff, implies_true, and_true]
      exact ⟨hname, hmem (by simp), hmem (by simp), hmem (by simp), hmem (by simp),
        hrest (by decide), hrest hname, hrest (by decide), hrest (by decide), hrest (by decide),
        hrest (by decide), hrest (by decide)⟩
    refine ⟨fun f hf => (hall f hf).1, fun f hf => (hall f hf).2, ?_⟩
    rw [hjoined, ← h]
  | [] | [_] | [_, _] | [_, _, _] | [_, _, _, _] => simp [hfields, ofFields] at h

theorem parseLine_line (h : r.Tidy) : parseLine r.line = some r := by
  rw [parseLine, line, splitOn_intercalate '\t' h.tab (by simp [fields])]
  have hdeps := h.deps
  simp only [fields, ofFields, getElem?_cons_zero, getElem?_cons_succ, Option.getD_some]
  rw [← joined, hdeps]

def withoutCr (r : Installed) : Installed := { r with abi := Str.stripCr r.abi }

theorem line_eq (r : Installed) :
    r.line = ['\t'].intercalate r.fields.dropLast ++ '\t' :: r.abi := by
  simp [line, fields, List.intercalate]

theorem stripCr_line (r : Installed) : Str.stripCr r.line = r.withoutCr.line := by
  rw [line_eq, Str.stripCr_append_cons _ _ (by decide), line_eq]
  rfl

theorem Tidy.withoutCr (h : r.Tidy) : r.withoutCr.Tidy := by
  have hfields {f : Str} (hf : f ∈ r.withoutCr.fields) : ∃ g ∈ r.fields, ∀ c ∈ f, c ∈ g := by
    have hsplit : r.withoutCr.fields = r.fields.dropLast ++ [Str.stripCr r.abi] := rfl
    rw [hsplit, mem_append, mem_singleton] at hf
    rcases hf with hf | rfl
    · exact ⟨f, mem_of_mem_dropLast hf, fun _ hc => hc⟩
    · exact ⟨r.abi, by simp [fields], fun _ hc => Str.mem_of_mem_stripCr hc⟩
  refine ⟨fun f hf hc => ?_, fun f hf hc => ?_, h.deps⟩
  · obtain ⟨g, hg, hsub⟩ := hfields hf
    exact h.tab g hg (hsub _ hc)
  · obtain ⟨g, hg, hsub⟩ := hfields hf
    exact h.feed g hg (hsub _ hc)

theorem notMem_feed_line (h : ∀ f ∈ r.fields, '\n' ∉ f) : '\n' ∉ r.line := by
  intro hc
  rcases mem_intercalate_singleton hc with hc | ⟨f, hf, hc⟩
  · exact absurd hc (by decide)
  · exact h f hf hc

def readBack (r : Installed) : List Installed :=
  (r.line.splitOn '\n').filterMap fun l => parseLine (Str.stripCr l)

theorem readBack_of_noFeed (h : ∀ f ∈ r.fields, '\n' ∉ f) :
    r.readBack = (parseLine r.withoutCr.line).toList := by
  rw [readBack, splitOn_eq_singleton (notMem_feed_line h), filterMap_cons, stripCr_line]
  cases parseLine r.withoutCr.line <;> rfl

theorem readBack_of_tidy (h : r.Tidy) : r.readBack = [r.withoutCr] := by
  rw [readBack_of_noFeed h.feed, parseLine_line h.withoutCr]
  rfl

/-! ## A row with dependencies from outside -/

def front (r : Installed) : Str :=
  r.name ++ '\t' :: (r.version ++ '\t' :: (r.hash ++ '\t' :: (r.bin ++ ['\t'])))

def back (r : Installed) : Str :=
  '\t' :: ['\t'].intercalate [r.kind, r.title, r.caps, r.profile, r.display, r.args, r.abi]

theorem line_eq_front_back (r : Installed) : r.line = r.front ++ r.joined ++ r.back := by
  simp [line, fields, front, back, joined, List.intercalate]

/-- A row that was just made for a package: only its dependencies may contain a line feed, and
its name contains no tab. -/
structure Fresh (r : Installed) : Prop where
  name : '\t' ∉ r.name
  front : '\n' ∉ r.front
  back : '\n' ∉ r.back
  abi : Str.stripCr r.abi = r.abi

def versionField (r : Installed) : Str := (r.version.splitOn '\t').head?.getD []

theorem ofFields_cons_cons {a b : Str} {rest : List Str} {row : Installed}
    (h : ofFields (a :: b :: rest) = some row) : row.name = a ∧ row.version = b := by
  match rest with
  | hash :: bin :: deps :: rest =>
    simp only [ofFields, Option.some.injEq] at h
    rw [← h]
    exact ⟨rfl, rfl⟩
  | [] | [_] | [_, _] => simp [ofFields] at h

theorem parseLine_of_fresh (h : '\t' ∉ r.name) :
    ∃ row, parseLine r.line = some row ∧ row.name = r.name ∧ row.version = r.versionField := by
  have hcount : 4 ≤ r.line.count '\t' := by
    rw [line_eq_front_back]
    simp [front, count_append]
    omega
  obtain ⟨row, hrow⟩ := Option.isSome_iff_exists.mp (isSome_parseLine hcount)
  refine ⟨row, hrow, ?_⟩
  obtain ⟨v, vs, hversion⟩ := exists_cons_of_ne_nil (splitOn_ne_nil '\t' r.version)
  rw [parseLine, line, splitOn_intercalate_flatMap _ (by simp [fields]), fields, flatMap_cons,
    flatMap_cons, splitOn_eq_singleton h, hversion] at hrow
  have hboth := ofFields_cons_cons hrow
  simpa [versionField, hversion] using hboth

theorem readBack_of_parseLine (h : r.Fresh) (hdeps : '\n' ∉ r.joined)
    (hrow : parseLine r.line = some row) : r.readBack = [row] := by
  have hline : '\n' ∉ r.line := by simp [line_eq_front_back, h.front, h.back, hdeps]
  have hcr : r.withoutCr = r := by simp [withoutCr, h.abi]
  rw [readBack, splitOn_eq_singleton hline, filterMap_cons, stripCr_line, hcr, hrow]
  rfl

theorem readBack_of_fresh (h : r.Fresh) (hdeps : '\n' ∉ r.joined) :
    ∃ row, r.readBack = [row] ∧ row.name = r.name ∧ row.version = r.versionField := by
  obtain ⟨row, hrow, hfields⟩ := parseLine_of_fresh h.name
  exact ⟨row, readBack_of_parseLine h hdeps hrow, hfields⟩

theorem readBack_fields (h : r.Fresh) (hdeps : '\n' ∉ r.joined)
    (htab : '\t' ∉ r.version ∧ '\t' ∉ r.hash ∧ '\t' ∉ r.bin ∧ '\t' ∉ r.joined) :
    ∃ row, r.readBack = [row] ∧ row.name = r.name ∧ row.hash = r.hash ∧ row.bin = r.bin ∧
      row.deps = if r.joined.isEmpty then [] else r.joined.splitOn ',' := by
  obtain ⟨hversion, hhash, hbin, hjoined⟩ := htab
  have hsplit : r.line.splitOn '\t' = r.name :: r.version :: r.hash :: r.bin :: r.joined ::
      [r.kind, r.title, r.caps, r.profile, r.display, r.args, r.abi].flatMap
        fun f => f.splitOn '\t' := by
    rw [line, splitOn_intercalate_flatMap _ (by simp [fields]), fields, ← joined]
    iterate 5 rw [flatMap_cons]
    rw [splitOn_eq_singleton h.name, splitOn_eq_singleton hversion,
      splitOn_eq_singleton hhash, splitOn_eq_singleton hbin,
      splitOn_eq_singleton hjoined]
    rfl
  have hrow : ∃ row, parseLine r.line = some row ∧ row.name = r.name ∧ row.hash = r.hash ∧
      row.bin = r.bin ∧ row.deps = if r.joined.isEmpty then [] else r.joined.splitOn ',' := by
    rw [parseLine, hsplit]
    exact ⟨_, rfl, rfl, rfl, rfl, rfl⟩
  obtain ⟨row, hrow, hfields⟩ := hrow
  exact ⟨row, readBack_of_parseLine h hdeps hrow, hfields⟩

theorem two_le_length_readBack (h : r.Fresh) (hdeps : '\n' ∈ r.joined) : 2 ≤ r.readBack.length := by
  -- the first line has the fields up to the dependencies, the last line those after them
  obtain ⟨first, rest, hfirst, hnot⟩ := eq_append_cons_of_mem hdeps
  obtain ⟨last, hlast⟩ := exists_append_mem_splitOn rest h.back
  have hlines : r.line.splitOn '\n' =
      (r.front ++ first) :: (rest ++ r.back).splitOn '\n' := by
    have hsplit : r.line = (r.front ++ first) ++ '\n' :: (rest ++ r.back) := by
      rw [line_eq_front_back, hfirst]
      simp
    rw [hsplit, splitOn_append_cons_self, splitOn_eq_singleton (by simp [h.front, hnot])]
    rfl
  have hfront : (parseLine (Str.stripCr (r.front ++ first))).isSome := by
    refine isSome_parseLine ?_
    rw [Str.count_tab_stripCr]
    simp [front, count_append]
    omega
  have hback : (parseLine (Str.stripCr (last ++ r.back))).isSome := by
    refine isSome_parseLine ?_
    rw [Str.count_tab_stripCr]
    simp [back, List.intercalate, count_append]
    omega
  obtain ⟨row, hrow⟩ := Option.isSome_iff_exists.mp hfront
  obtain ⟨row', hrow'⟩ := Option.isSome_iff_exists.mp hback
  have hmem : row' ∈ ((rest ++ r.back).splitOn '\n').filterMap fun l => parseLine (Str.stripCr l) :=
    mem_filterMap.mpr ⟨_, hlast, hrow'⟩
  rw [readBack, hlines, filterMap_cons, hrow, length_cons]
  have := length_pos_of_mem hmem
  omega

end Installed

theorem parseRegistry_formatRegistry (rows : List Installed) :
    parseRegistry (formatRegistry rows) = rows.flatMap Installed.readBack := by
  have htext : formatRegistry rows = (rows.map Installed.line).flatMap (· ++ ['\n']) := by
    rw [flatMap_map, formatRegistry]
  rw [parseRegistry, htext, Str.lines_flatMap, flatMap_map, filterMap_map, filterMap_flatMap]
  rfl

theorem tidy_of_mem_parseRegistry (h : r ∈ parseRegistry text) : r.Tidy := by
  obtain ⟨line, hline, hr⟩ := mem_filterMap.mp h
  exact Installed.tidy_of_parseLine hr (Str.notMem_of_mem_lines hline)

end EuroOS
