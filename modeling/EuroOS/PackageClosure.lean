import EuroOS.PackageTrust
import EuroOS.CallMachine

/-!
# Dependencies and blobs of the installed packages

As long as each package that is fetched is the one asked for and finds its
dependencies installed, the registry stays closed under dependencies, and each row
keeps its blob.  An upgrade does not look at the dependencies of the new version.
-/

namespace EuroOS

open List Function CallMachine

/-! ## Dependencies in the index -/

/-- Names of dependencies as the index gives them: they can be joined by commas. -/
def PkgIndexEntry.Plain (entry : PkgIndexEntry) : Prop := ∀ dep ∈ entry.deps, ',' ∉ dep ∧ dep ≠ []

theorem plain_of_parseDeps (h : parseDeps obj = some deps) :
    ∀ dep ∈ deps, ',' ∉ dep ∧ dep ≠ [] := by
  unfold parseDeps at h
  split at h
  · cases h
    simp
  rename_i tail htail
  obtain ⟨list, -, hdeps⟩ := Option.bind_eq_some_iff.mp h
  cases hdeps
  intro dep hdep
  obtain ⟨hmem, hempty⟩ := mem_filter.mp hdep
  obtain ⟨piece, hpiece, rfl⟩ := mem_map.mp hmem
  refine ⟨fun hcomma => ?_, by simpa using hempty⟩
  have hc := Str.mem_of_mem_trim (Str.mem_of_mem_trimMatches hcomma)
  exact (mem_of_mem_splitOn hpiece hc).2 rfl

theorem plain_of_parseEntry (h : parseEntry obj = some entry) : entry.Plain := by
  simp only [parseEntry, Option.bind_eq_bind, Option.bind_eq_some_iff, Option.pure_def,
    Option.some.injEq] at h
  obtain ⟨name, -, version, -, file, -, deps, hdeps, rfl⟩ := h
  exact plain_of_parseDeps hdeps

theorem plain_of_parseEntries (h : parseEntries text = some entries) :
    ∀ entry ∈ entries, entry.Plain := by
  induction text generalizing entries with
  | nil =>
    cases h
    simp
  | cons c text ih =>
    rw [parseEntries] at h
    split at h
    · simp only [Option.bind_eq_bind, Option.bind_eq_some_iff, Option.pure_def,
        Option.some.injEq] at h
      obtain ⟨entry, hentry, rest, hrest, rfl⟩ := h
      exact forall_mem_cons.mpr ⟨plain_of_parseEntry hentry, ih hrest⟩
    · exact ih h

theorem PkgEngine.plain_of_parseSignedIndex {e : PkgEngine} {index sig : Bytes}
    {entries : List PkgIndexEntry} (h : e.parseSignedIndex index sig = .ok entries) :
    ∀ entry ∈ entries, entry.Plain := by
  unfold parseSignedIndex at h
  split at h
  · cases h
  split at h
  · cases h
  rename_i entries' hparse
  cases h
  obtain ⟨text, -, hindex⟩ := Option.bind_eq_some_iff.mp hparse
  obtain ⟨entries', hentries, hnonempty⟩ := Option.bind_eq_some_iff.mp hindex
  split at hnonempty
  · cases hnonempty
  · cases hnonempty
    exact plain_of_parseEntries hentries

theorem splitOn_joined {r : Installed} (h : ∀ dep ∈ r.deps, ',' ∉ dep ∧ dep ≠ []) :
    (if r.joined.isEmpty then [] else r.joined.splitOn ',') = r.deps := by
  unfold Installed.joined
  cases hdeps : r.deps with
  | nil => rfl
  | cons dep deps =>
    rw [hdeps] at h
    have hne : ¬ ([','].intercalate (dep :: deps)).isEmpty := by
      obtain ⟨c, rest, rfl⟩ := exists_cons_of_ne_nil (h dep (by simp)).2
      cases deps <;> simp [List.intercalate]
    rw [if_neg hne]
    exact splitOn_intercalate ',' (fun piece hp => (h piece hp).1) (by simp)

/-! ## The files of the store -/

namespace PkgEngine

open PkgDisk

variable {e : PkgEngine}

def Inside (e : PkgEngine) (p : Str) : Prop := (e.root ++ ['/']) <+: p

theorem inside_storePath (hash : Str) : e.Inside (e.storePath hash) := by
  obtain ⟨rest, heq⟩ := storePath_eq (e := e) hash
  rw [heq]
  exact ⟨"store/".toList ++ rest, by simp⟩

theorem inside_registryPath : e.Inside e.registryPath := ⟨"installed".toList, by simp [registryPath]⟩

variable {p : Str} {rows : List Installed}

theorem ne_of_inside (hp : ¬ e.Inside p) (hq : e.Inside q) : q ≠ p :=
  fun heq => hp (heq ▸ hq)

theorem not_inside_linkPath (name : Str) : ¬ e.Inside (e.linkPath name) := e.apart name

theorem storePath_injective : Function.Injective e.storePath := by
  intro hash hash' h
  have hlength := congrArg List.length h
  unfold storePath at h hlength
  by_cases hlong : 32 < hash.length <;> by_cases hlong' : 32 < hash'.length
  · rw [if_pos hlong, if_pos hlong'] at h
    simp only [append_assoc] at h
    have hsplit := append_cancel_left (append_cancel_left h)
    have htake : (hash.take 32).length = (hash'.take 32).length := by
      rw [length_take, length_take]
      omega
    obtain ⟨hfront, hback⟩ := append_inj hsplit htake
    rw [← take_append_drop 32 hash, ← take_append_drop 32 hash', hfront, (List.cons.inj hback).2]
  · rw [if_pos hlong, if_neg hlong'] at hlength
    simp at hlength
    omega
  · rw [if_neg hlong, if_pos hlong'] at hlength
    simp at hlength
    omega
  · rw [if_neg hlong, if_neg hlong'] at h
    exact append_cancel_left h

/-- No path of the store is a link, and links into the store lead to blobs. -/
structure Sane (e : PkgEngine) (d : PkgDisk) : Prop where
  root : ∀ p, e.Inside p → d.links p = none
  target : ∀ p t, d.links p = some t → e.Inside t → ∃ hash, t = e.storePath hash

variable (h : e.Sane d)
include h

theorem Sane.unlinked : d.Unlinked e.registryPath where
  here := h.root _ inside_registryPath
  target p hp := by
    obtain ⟨hash, hhash⟩ := h.target p _ hp inside_registryPath
    exact storePath_ne_registryPath hash hhash.symm

theorem Sane.exists_storePath (hash : Str) :
    d.exists (e.storePath hash) = (d.files (e.storePath hash)).isSome := by
  simp [PkgDisk.exists, PkgDisk.read, PkgDisk.target, h.root _ (inside_storePath hash)]

structure Grows (e : PkgEngine) (d d' : PkgDisk) : Prop where
  sane : e.Sane d'
  files : ∀ p, e.Inside p → (d.files p).isSome → (d'.files p).isSome

theorem Grows.refl : e.Grows d d := ⟨h, fun _ _ hp => hp⟩

omit h in
theorem Grows.trans (h : e.Grows d d') (h' : e.Grows d' d'') : e.Grows d d'' :=
  ⟨h'.sane, fun p hp hfile => h'.files p hp (h.files p hp hfile)⟩

theorem grows_write (p : Str) (data : Bytes) : e.Grows d (d.write p data).2 := by
  obtain ⟨-, heq⟩ | ⟨-, heq⟩ := write_eq d p data <;> rw [heq]
  · exact ⟨⟨h.root, h.target⟩, fun _ _ hp => hp⟩
  refine ⟨⟨h.root, h.target⟩, fun q _ hq => ?_⟩
  by_cases hqp : q = d.target p
  · simp [hqp]
  · simpa [update_of_ne hqp] using hq

theorem sane_remove (p : Str) : e.Sane (d.remove p).2 := by
  obtain heq | heq | heq := remove_eq d p <;> rw [heq]
  · exact ⟨h.root, h.target⟩
  · have hsub (q t : Str) (hq : update d.links p none q = some t) : d.links q = some t := by
      by_cases hqp : q = p
      · simp [hqp] at hq
      · rwa [update_of_ne hqp] at hq
    refine ⟨fun q hq => ?_, fun q t hlink => h.target q t (hsub q t hlink)⟩
    by_cases hqp : q = p
    · simp [hqp]
    · simpa [update_of_ne hqp] using h.root q hq
  · exact ⟨h.root, h.target⟩

omit h in
theorem files_remove_of_ne (hq : q ≠ p) : (d.remove p).2.files q = d.files q := by
  obtain heq | heq | heq := remove_eq d p <;> rw [heq]
  exact update_of_ne hq _ _

theorem grows_remove (hp : ¬ e.Inside p) : e.Grows d (d.remove p).2 := by
  refine ⟨sane_remove h p, fun q hq hfile => ?_⟩
  rwa [files_remove_of_ne (ne_of_inside hp hq)]

theorem grows_symlink (hp : ¬ e.Inside p) (hash : Str) :
    e.Grows d (d.symlink p (e.storePath hash)).2 := by
  obtain heq | heq := symlink_eq d p (e.storePath hash) <;> rw [heq]
  · exact ⟨⟨h.root, h.target⟩, fun _ _ hfile => hfile⟩
  refine ⟨⟨fun q hq => ?_, fun q t hlink hin => ?_⟩, fun _ _ hfile => hfile⟩
  · dsimp only
    rw [update_of_ne (ne_of_inside hp hq)]
    exact h.root q hq
  · dsimp only at hlink
    by_cases hqp : q = p
    · simp only [hqp, update_self, Option.some.injEq] at hlink
      exact ⟨hash, hlink.symm⟩
    · rw [update_of_ne hqp] at hlink
      exact h.target q t hlink hin

theorem grows_storeBlob (hash : Str) (bin : Bytes) (hok : e.storeBlob d hash bin = (true, d')) :
    e.Grows d d' ∧ (d'.files (e.storePath hash)).isSome := by
  unfold storeBlob at hok
  split at hok
  · rename_i hexists
    cases hok
    exact ⟨Grows.refl h, h.exists_storePath hash ▸ hexists⟩
  have hgrows := grows_write h (e.storePath hash) bin
  obtain ⟨hno, -⟩ | ⟨-, heq⟩ := write_eq d (e.storePath hash) bin
  · simp [hok] at hno
  rw [hok] at hgrows heq
  refine ⟨hgrows, ?_⟩
  have hself : d.target (e.storePath hash) = e.storePath hash := by
    simp [PkgDisk.target, h.root _ (inside_storePath hash)]
  dsimp only at heq
  simp [heq, hself]

theorem grows_trackBlob (hash : Str) : e.Grows d (e.trackBlob d hash) := by
  unfold trackBlob
  split
  · exact Grows.refl h
  · exact grows_write h _ _

theorem grows_linkBinary (info : PkgMeta) (bin : Bytes) :
    e.Grows d (e.linkBinary d info bin).2 := by
  have hlink := not_inside_linkPath (e := e) info.name
  have hold : e.Grows d
      (if d.exists (e.linkPath info.name) then (d.remove (e.linkPath info.name)).2 else d) := by
    split
    · exact grows_remove h hlink
    · exact Grows.refl h
  have hnew := hold.trans (grows_symlink hold.sane hlink info.binarySha256)
  unfold linkBinary
  dsimp only
  split
  · rename_i d' heq
    rwa [heq] at hnew
  rename_i d' heq
  rw [heq] at hnew
  exact hnew.trans (grows_write hnew.sane _ bin)

theorem grows_installPackage (hok : e.installPackage d pkg deps = (.ok info, d')) :
    e.Grows d d' ∧ (d'.files (e.storePath info.binarySha256)).isSome := by
  obtain ⟨bin, d₁, d₂, -, hstored, hlinked, hsaved⟩ := installPackage_cases hok
  obtain ⟨hstore, hblob⟩ := grows_storeBlob h _ bin hstored
  have htrack := grows_trackBlob hstore.sane info.binarySha256
  have hlink := grows_linkBinary htrack.sane info bin
  rw [hlinked] at hlink
  have hsave : e.Grows d₂ d' := by
    have := grows_write hlink.sane e.registryPath (Str.bytes (formatRegistry
      ((e.registry d₂).filter (·.name ≠ info.name) ++ [e.newRow info deps])))
    rwa [← saveRegistry, hsaved] at this
  have hafter := (htrack.trans hlink).trans hsave
  exact ⟨hstore.trans hafter, hafter.files _ (inside_storePath _) hblob⟩

theorem sweep_live (live hashes : List Str) :
    e.Sane (e.sweep live d hashes) ∧
      ∀ hash ∈ live, (e.sweep live d hashes).files (e.storePath hash) =
        d.files (e.storePath hash) := by
  induction hashes generalizing d with
  | nil => exact ⟨h, fun _ _ => rfl⟩
  | cons first hashes ih =>
    rw [sweep]
    split
    · exact ih h
    rename_i hdead
    obtain ⟨hsane, hfiles⟩ := ih (sane_remove h (e.storePath first))
    refine ⟨hsane, fun hash hlive => ?_⟩
    have hne : e.storePath hash ≠ e.storePath first := by
      intro heq
      exact hdead (storePath_injective heq ▸ hlive)
    rw [hfiles hash hlive, files_remove_of_ne hne]

theorem gc_live (hr : r ∈ e.registry d) (hblob : (d.files (e.storePath r.hash)).isSome) :
    ((e.gc d).files (e.storePath r.hash)).isSome := by
  obtain ⟨hsane, hfiles⟩ := sweep_live h ((e.registry d).map (·.hash)) (e.knownBlobs d)
  refine (grows_write hsane e.blobsPath _).files _ (inside_storePath _) ?_
  rwa [hfiles r.hash (mem_map_of_mem hr)]

theorem sane_gc : e.Sane (e.gc d) :=
  (grows_write (sweep_live h _ _).1 e.blobsPath _).sane

omit h

/-! ## Calls -/

/-- The disk, and the dependencies that were declared for each package when it was last
installed. -/
structure World where
  disk : PkgDisk
  declared : Str → List Str

def record (declared : Str → List Str) (steps : List Step) : Str → List Str :=
  steps.foldl (fun declared s => update declared s.info.name s.entry.deps) declared

inductive Call
  | request (index sig : Bytes) (fetch : Fetch) (request : Request)
  | remove (name : Str)
  | gc

/-- The engine with a record of the declared dependencies.  A call returns whether it succeeded. -/
def machine (e : PkgEngine) : CallMachine World Call Bool where
  step w
    | .request index sig fetch request =>
      match e.perform w.disk index sig fetch request with
      | (.error _, d) => (⟨d, w.declared⟩, false)
      | (.ok steps, d) => (⟨d, record w.declared steps⟩, true)
    | .remove name =>
      match e.remove w.disk name with
      | (.error _, d) => (⟨d, w.declared⟩, false)
      | (.ok _, d) => (⟨d, w.declared⟩, true)
    | .gc => (⟨e.gc w.disk, w.declared⟩, true)

structure EmptyStore (e : PkgEngine) (d : PkgDisk) : Prop where
  files : ∀ p, e.Inside p → d.files p = none
  links : ∀ p, e.Inside p → d.links p = none
  target : ∀ p t, d.links p = some t → ¬ e.Inside t

/-- The declared dependencies of installed packages are installed (the index has no constraints on
their versions), and the blobs of the rows are there. -/
structure Closed (e : PkgEngine) (w : World) : Prop where
  deps : ∀ r ∈ e.registry w.disk, ∀ dep ∈ w.declared r.name, ∃ r' ∈ e.registry w.disk, r'.name = dep
  blobs : ∀ r ∈ e.registry w.disk, w.disk.exists (e.storePath r.hash)

/-- The dependencies of each planned package are installed or planned before it. -/
def Covered : List Str → List Planned → Prop
  | _, [] => True
  | names, p :: plan => (∀ dep ∈ p.entry.deps, dep ∈ names) ∧ Covered (p.name :: names) plan

/-- The package that comes has the planned name, and no separator of the registry is in its version
and dependencies. -/
def Planned.Clean (e : PkgEngine) (p : Planned) : Prop :=
  ∃ row, p.row e = some row ∧ row.name = p.name ∧ '\t' ∉ row.version ∧ '\t' ∉ row.joined ∧
    '\n' ∉ row.joined

def Supported (e : PkgEngine) (w : World) : Call → Prop
  | .request index sig fetch request =>
    (∀ p ∈ e.planRequest (e.registry w.disk) index sig fetch request, p.Clean e) ∧
      Covered ((e.registry w.disk).map (·.name))
        (e.planRequest (e.registry w.disk) index sig fetch request)
  | .remove _ | .gc => True

/-! ## The invariant -/

/-- What the engine relies on: rows have the declared dependencies, they are installed, and the
blob of a row is there. -/
structure Kept (e : PkgEngine) (w : World) : Prop where
  sane : e.Sane w.disk
  declared : ∀ r ∈ e.registry w.disk, r.deps = w.declared r.name
  deps : ∀ r ∈ e.registry w.disk, ∀ dep ∈ r.deps, ∃ r' ∈ e.registry w.disk, r'.name = dep
  link : ∀ r ∈ e.registry w.disk, ¬ e.Inside r.bin
  blobs : ∀ r ∈ e.registry w.disk, (w.disk.files (e.storePath r.hash)).isSome

theorem Kept.closed (h : e.Kept w) : e.Closed w where
  deps r hr dep hdep := h.deps r hr dep (h.declared r hr ▸ hdep)
  blobs r hr := by
    rw [h.sane.exists_storePath]
    exact h.blobs r hr

theorem kept_empty (h : e.EmptyStore d) (declared : Str → List Str) : e.Kept ⟨d, declared⟩ := by
  have hsane : e.Sane d := ⟨h.links, fun p t hlink hin => absurd hin (h.target p t hlink)⟩
  have hrows : e.registry d = [] := by
    rw [registry, hsane.unlinked.read, h.files _ inside_registryPath]
  exact ⟨hsane, by simp [hrows], by simp [hrows], by simp [hrows], by simp [hrows]⟩

theorem Kept.gc (h : e.Kept w) : e.Kept ⟨e.gc w.disk, w.declared⟩ := by
  have hrows : e.registry (e.gc w.disk) = e.registry w.disk :=
    registry_of_keeps h.sane.unlinked (keeps_gc h.sane.unlinked)
  refine ⟨sane_gc h.sane, ?_, ?_, ?_, ?_⟩
  · rw [hrows]
    exact h.declared
  · rw [hrows]
    exact h.deps
  · rw [hrows]
    exact h.link
  · intro r hr
    rw [hrows] at hr
    exact gc_live h.sane hr (h.blobs r hr)

theorem mem_map_withoutCr (h : r ∈ rows.map Installed.withoutCr) :
    ∃ r₀ ∈ rows, r.name = r₀.name ∧ r.deps = r₀.deps ∧ r.bin = r₀.bin ∧ r.hash = r₀.hash := by
  obtain ⟨r₀, hr₀, rfl⟩ := mem_map.mp h
  exact ⟨r₀, hr₀, rfl, rfl, rfl, rfl⟩

theorem exists_name_map_withoutCr (h : ∃ r ∈ rows, r.name = name) :
    ∃ r ∈ rows.map Installed.withoutCr, r.name = name := by
  obtain ⟨r, hr, rfl⟩ := h
  exact ⟨r.withoutCr, mem_map_of_mem hr, rfl⟩

theorem Kept.remove (h : e.Kept w) (hok : e.remove w.disk name = (.ok (), d')) :
    e.Kept ⟨d', w.declared⟩ := by
  unfold PkgEngine.remove at hok
  dsimp only at hok
  split at hok
  · cases hok
  rename_i row hrow
  split at hok
  · cases hok
  rename_i hfree
  have hlink := h.link row (mem_of_find?_eq_some hrow)
  have hgrows := grows_remove h.sane hlink
  split at hok
  · cases hok
  rename_i d₁ hsave
  cases hok
  have hrest : ∀ r ∈ (e.registry w.disk).filter (·.name ≠ name), r.Tidy :=
    fun r hr => tidy_of_mem_registry (mem_of_mem_filter hr)
  have hsaved : e.Grows w.disk d₁ := by
    have := hgrows.trans (grows_write hgrows.sane e.registryPath (Str.bytes (formatRegistry
      ((e.registry w.disk).filter (·.name ≠ name)))))
    rwa [← saveRegistry, hsave] at this
  have hrows : e.registry d₁ =
      ((e.registry w.disk).filter (·.name ≠ name)).map Installed.withoutCr := by
    have := (registry_saveRegistry hgrows.sane.unlinked (congrArg Prod.fst hsave)).2
    rwa [hsave, flatMap_readBack_of_tidy hrest] at this
  have hkept : e.Kept ⟨d₁, w.declared⟩ := by
    refine ⟨hsaved.sane, fun r hr => ?_, fun r hr dep hdep => ?_, fun r hr => ?_, fun r hr => ?_⟩
    all_goals
      rw [hrows] at hr
      obtain ⟨r₀, hr₀, hname, hdeps, hbin, hhash⟩ := mem_map_withoutCr hr
      obtain ⟨hmem, hother⟩ := mem_filter.mp hr₀
    · rw [hdeps, hname]
      exact h.declared r₀ hmem
    · rw [hdeps] at hdep
      have hne : dep ≠ name := by
        rintro rfl
        exact find?_eq_none.mp hfree r₀ hmem (by simpa [hdep] using hother)
      obtain ⟨r', hr', rfl⟩ := h.deps r₀ hmem dep hdep
      rw [hrows]
      exact exists_name_map_withoutCr ⟨r', by simpa [hr'] using hne, rfl⟩
    · rw [hbin]
      exact h.link r₀ hmem
    · rw [hhash]
      exact hsaved.files _ (inside_storePath _) (h.blobs r₀ hmem)
  exact hkept.gc

theorem readBack_newRow (hbinDir : '\t' ∉ e.binDir) {bin : Bytes}
    (hverify : verifyPackage e.crypto bytes = .ok (info, bin)) {entry : PkgIndexEntry}
    (hplain : entry.Plain) {version : Version}
    (hclean : Planned.Clean e ⟨name, version, entry, bytes⟩) :
    info.name = name ∧ ∃ row, (e.newRow info entry.deps).readBack = [row] ∧ row.name = name ∧
      row.hash = info.binarySha256 ∧ row.bin = e.linkPath name ∧ row.deps = entry.deps := by
  obtain ⟨made, hmade, hname, hversion, hjoined, hfeed⟩ := hclean
  simp only [Planned.row, hverify, Option.some.injEq] at hmade
  subst hmade
  have hwf := wellFormed_of_verifyPackage hverify
  have hlink : '\t' ∉ e.linkPath info.name := by
    have htab : '\t' ∉ info.name := fun hc => absurd (hwf.name _ hc) (by decide)
    simp [linkPath, hbinDir, htab]
  have hhash : '\t' ∉ info.binarySha256 := by
    rw [(verifyPackage_ok hverify).2]
    exact Str.notMem_hex (by decide) _
  obtain ⟨row, hback, hrowName, hrowHash, hrowBin, hrowDeps⟩ :=
    Installed.readBack_fields (newRow_fresh hwf entry.deps) hfeed ⟨hversion, hhash, hlink, hjoined⟩
  refine ⟨hname, row, hback, hrowName.trans hname, hrowHash, ?_, ?_⟩
  · exact hrowBin.trans (congrArg e.linkPath hname)
  · rw [hrowDeps]
    exact splitOn_joined hplain

theorem Kept.installPackage (h : e.Kept w) (hbinDir : '\t' ∉ e.binDir) {entry : PkgIndexEntry}
    (hplain : entry.Plain) (hok : e.installPackage w.disk bytes entry.deps = (.ok info, d'))
    {version : Version} (hclean : Planned.Clean e ⟨name, version, entry, bytes⟩)
    (hdeps : ∀ dep ∈ entry.deps, ∃ r ∈ e.registry w.disk, r.name = dep) :
    e.Kept ⟨d', update w.declared info.name entry.deps⟩ ∧
      ∀ n, n = name ∨ (∃ r ∈ e.registry w.disk, r.name = n) → ∃ r ∈ e.registry d', r.name = n := by
  obtain ⟨⟨bin, hverify⟩, -, hrows⟩ := installPackage_ok h.sane.unlinked hok
  obtain ⟨hgrows, hblob⟩ := grows_installPackage h.sane hok
  obtain ⟨rfl, row, hback, hrowName, hrowHash, hrowBin, hrowDeps⟩ :=
    readBack_newRow hbinDir hverify hplain hclean
  rw [hback] at hrows
  have hnames : ∀ n, n = info.name ∨ (∃ r ∈ e.registry w.disk, r.name = n) →
      ∃ r ∈ e.registry d', r.name = n := by
    intro n hn
    rw [hrows]
    by_cases hsame : n = info.name
    · exact ⟨row, by simp, hrowName.trans hsame.symm⟩
    obtain ⟨r, hr, rfl⟩ := hn.resolve_left hsame
    have hmem : r ∈ (e.registry w.disk).filter (·.name ≠ info.name) := by simp [hr, hsame]
    exact ⟨r.withoutCr, mem_append_left _ (mem_map_of_mem hmem), rfl⟩
  -- a row is the new one, or that of another package as it was
  have hcases : ∀ r ∈ e.registry d', r = row ∨ ∃ r₀ ∈ e.registry w.disk, r₀.name ≠ info.name ∧
      r.name = r₀.name ∧ r.deps = r₀.deps ∧ r.bin = r₀.bin ∧ r.hash = r₀.hash := by
    intro r hr
    rw [hrows, mem_append, mem_singleton] at hr
    refine hr.symm.imp_right fun hold => ?_
    obtain ⟨r₀, hr₀, hfields⟩ := mem_map_withoutCr hold
    obtain ⟨hmem, hother⟩ := mem_filter.mp hr₀
    exact ⟨r₀, hmem, by simpa using hother, hfields⟩
  refine ⟨⟨hgrows.sane, fun r hr => ?_, fun r hr dep hdep => ?_, fun r hr => ?_, fun r hr => ?_⟩,
    hnames⟩
  all_goals obtain rfl | ⟨r₀, hr₀, hother, hname, hrdeps, hbin, hhash⟩ := hcases r hr
  · simp [hrowDeps, hrowName]
  · simpa [hrdeps, hname, hother] using h.declared r₀ hr₀
  · exact hnames dep (.inr (hdeps dep (hrowDeps ▸ hdep)))
  · exact hnames dep (.inr (h.deps r₀ hr₀ dep (hrdeps ▸ hdep)))
  · rw [hrowBin]
    exact not_inside_linkPath _
  · rw [hbin]
    exact h.link r₀ hr₀
  · rw [hrowHash]
    exact hblob
  · rw [hhash]
    exact hgrows.files _ (inside_storePath _) (h.blobs r₀ hr₀)

theorem Kept.installLoop (hbinDir : '\t' ∉ e.binDir) (hplain : ∀ entry ∈ entries, entry.Plain)
    (h : e.Kept w)
    (hok : e.installLoop entries installed fetch order asked w.disk = (.ok steps, d'))
    (hclean : ∀ p ∈ plan entries installed fetch order asked, p.Clean e)
    (hcovered : Covered names (plan entries installed fetch order asked))
    (hnames : ∀ n ∈ names, ∃ r ∈ e.registry w.disk, r.name = n) :
    e.Kept ⟨d', record w.declared steps⟩ := by
  induction order generalizing w asked names steps with
  | nil =>
    cases hok
    exact h
  | cons chosen order ih =>
    obtain ⟨name, version⟩ := chosen
    rcases installLoop_cons_ok hok with ⟨hskip, hplan⟩ | ⟨entry, bytes, info, d₁, rest, hinstall,
      hrest, rfl, hentry, -, hplan⟩
    · rw [hplan] at hclean hcovered
      exact ih h hskip hclean hcovered hnames
    rw [hplan] at hclean hcovered
    obtain ⟨hfirst, hlater⟩ := forall_mem_cons.mp hclean
    obtain ⟨hkept, hgrown⟩ := h.installPackage hbinDir (hplain entry hentry) hinstall hfirst
      fun dep hdep => hnames dep (hcovered.1 dep hdep)
    have hnames' : ∀ n ∈ name :: names, ∃ r ∈ e.registry d₁, r.name = n := by
      rw [forall_mem_cons]
      exact ⟨hgrown _ (.inl rfl), fun n hn => hgrown n (.inr (hnames n hn))⟩
    have hdone := ih hkept hrest hlater hcovered.2 hnames'
    exact hdone

theorem Kept.perform (hbinDir : '\t' ∉ e.binDir) (h : e.Kept w) {steps : List Step}
    (hok : e.perform w.disk index sig fetch request = (.ok steps, d'))
    (hsupported : e.Supported w (.request index sig fetch request)) :
    e.Kept ⟨d', record w.declared steps⟩ := by
  have hinstalled : ∀ n ∈ (e.registry w.disk).map (·.name),
      ∃ r ∈ e.registry w.disk, r.name = n := by simp
  obtain ⟨hclean, hcovered⟩ := hsupported
  cases hentries : e.parseSignedIndex index sig with
  | error err =>
    cases request <;> simp [PkgEngine.perform, installFromIndex, upgrade, hentries] at hok
  | ok entries =>
    have hplain := plain_of_parseSignedIndex hentries
    cases request with
    | install name =>
      rw [PkgEngine.perform, installFromIndex, hentries] at hok
      rw [planRequest, hentries] at hclean hcovered
      dsimp only at hok hclean hcovered
      split at hok
      · cases hok
      rename_i order horder
      rw [horder] at hclean hcovered
      exact Kept.installLoop hbinDir hplain h hok hclean hcovered hinstalled
    | upgrade name =>
      rw [PkgEngine.perform] at hok
      rw [planRequest, hentries] at hclean hcovered
      dsimp only at hclean hcovered
      rcases upgrade_ok hentries hok with ⟨rfl, rfl, -⟩ |
        ⟨version, entry, bytes, info, d₁, hinstall, hentry, rfl, rfl, hplan⟩
      · exact h
      rw [hplan] at hclean hcovered
      rw [forall_mem_singleton] at hclean
      obtain ⟨hkept, -⟩ := h.installPackage hbinDir (hplain entry hentry) hinstall hclean
        fun dep hdep => hinstalled dep (hcovered.1 dep hdep)
      exact hkept.gc

theorem Kept.step (hbinDir : '\t' ∉ e.binDir) (h : e.Kept w)
    (hok : (e.machine.step w call).2 = true) (hsupported : e.Supported w call) :
    e.Kept (e.machine.step w call).1 := by
  cases call with
  | request index sig fetch request =>
    match hrun : e.perform w.disk index sig fetch request with
    | (.error err, d') => simp [machine, hrun] at hok
    | (.ok steps, d') =>
      have hkept := h.perform hbinDir hrun hsupported
      simpa only [machine, hrun] using hkept
  | remove name =>
    match hrun : e.remove w.disk name with
    | (.error err, d') => simp [machine, hrun] at hok
    | (.ok (), d') =>
      have hkept := h.remove hrun
      simpa only [machine, hrun] using hkept
  | gc => exact h.gc

/-! ## Two runs -/

theorem step_one {e : PkgEngine} {w : World} {s : Step}
    (hcall : call = .request index sig fetch request)
    (h : e.perform w.disk index sig fetch request = (.ok [s], d')) {deps : List Str}
    (hname : s.info.name = name) (hdeps : s.entry.deps = deps) :
    e.machine.step w call = (⟨d', update w.declared name deps⟩, true) := by
  subst hcall hname hdeps
  simp only [machine, h]
  rfl

theorem supported_one {e : PkgEngine} {w : World} {p : Planned}
    (hcall : call = .request index sig fetch request)
    (hplan : e.planRequest (e.registry w.disk) index sig fetch request = [p]) (hclean : p.Clean e)
    (hdeps : ∀ dep ∈ p.entry.deps, dep ∈ (e.registry w.disk).map (·.name)) :
    e.Supported w call := by
  rw [hcall, Supported, hplan, forall_mem_singleton]
  exact ⟨hclean, hdeps, trivial⟩

/-- A request with a signed index, to a repository that answers with one package. -/
def sampleCall (index : List (String × String × String)) (pkg : Bytes) (request : Request) : Call :=
  .request (sampleIndex index) [checksum (sampleIndex index)] (fun _ _ => some pkg) request

def installOld : Call :=
  sampleCall [("app", "0.9.0", "")] (samplePackage "app" "0.9.0") (.install "app".toList)

def installLib : Call :=
  sampleCall [("lib", "1.0.0", "")] (samplePackage "lib" "1.0.0") (.install "lib".toList)

def upgradeNew : Call :=
  sampleCall [("app", "2.0.0", "\"lib\"")] (samplePackage "app" "2.0.0") (.upgrade "app".toList)

theorem verifyPackage_lib : verifyPackage sampleEngine.crypto (samplePackage "lib" "1.0.0") =
    .ok (sampleInfo "lib" "1.0.0", sampleBin) := by decide +kernel

def oldEntry : PkgIndexEntry := ⟨"app".toList, "0.9.0".toList, "app".toList, []⟩
def libEntry : PkgIndexEntry := ⟨"lib".toList, "1.0.0".toList, "lib".toList, []⟩
def newEntry : PkgIndexEntry := ⟨"app".toList, "2.0.0".toList, "app".toList, ["lib".toList]⟩

theorem parse_oldIndex : sampleEngine.parseSignedIndex (sampleIndex [("app", "0.9.0", "")])
    [checksum (sampleIndex [("app", "0.9.0", "")])] = .ok [oldEntry] := by decide +kernel
theorem parse_libIndex : sampleEngine.parseSignedIndex (sampleIndex [("lib", "1.0.0", "")])
    [checksum (sampleIndex [("lib", "1.0.0", "")])] = .ok [libEntry] := by decide +kernel
theorem parse_newIndex : sampleEngine.parseSignedIndex (sampleIndex [("app", "2.0.0", "\"lib\"")])
    [checksum (sampleIndex [("app", "2.0.0", "\"lib\"")])] = .ok [newEntry] := by decide +kernel

def emptyDisk : PkgDisk where
  files _ := none
  links _ := none
  faults := []

theorem emptyStore_emptyDisk : sampleEngine.EmptyStore emptyDisk :=
  ⟨fun _ _ => rfl, fun _ _ => rfl, fun _ _ h => by cases h⟩

structure Holds (d : PkgDisk) (rows : List Installed) : Prop where
  faults : d.faults = []
  unlinked : d.Unlinked sampleEngine.registryPath
  rows : sampleEngine.registry d = rows

theorem holds_emptyDisk : Holds emptyDisk [] :=
  ⟨rfl, ⟨rfl, fun _ h => by cases h⟩, rfl⟩

theorem Holds.installPackage {d : PkgDisk} {rows' : List Installed} (h : Holds d rows)
    {bin : Bytes} (hverify : verifyPackage sampleEngine.crypto bytes = .ok (info, bin))
    (deps : List Str)
    (hrows : (rows.filter (·.name ≠ info.name)).map Installed.withoutCr ++
      (sampleEngine.newRow info deps).readBack = rows') :
    ∃ d', sampleEngine.installPackage d bytes deps = (.ok info, d') ∧ Holds d' rows' := by
  obtain ⟨d', hinstall, hfaults⟩ := installPackage_of_noFaults hverify deps h.faults
  obtain ⟨-, hunlinked, hafter⟩ := installPackage_ok h.unlinked hinstall
  rw [h.rows, hrows] at hafter
  exact ⟨d', hinstall, hfaults, hunlinked, hafter⟩

def oldRow : Installed := sampleEngine.newRow (sampleInfo "app" "0.9.0") []

def libRow : Installed := sampleEngine.newRow (sampleInfo "lib" "1.0.0") []

def newAppRow : Installed := sampleEngine.newRow (sampleInfo "app" "2.0.0") ["lib".toList]

theorem step_installOld (declared : Str → List Str) :
    ∃ d, sampleEngine.machine.step ⟨emptyDisk, declared⟩ installOld =
        (⟨d, update declared "app".toList []⟩, true) ∧ Holds d [oldRow] ∧
      sampleEngine.Supported ⟨emptyDisk, declared⟩ installOld := by
  have hafter : (([] : List Installed).filter (·.name ≠ (sampleInfo "app" "0.9.0").name)).map
      Installed.withoutCr ++ (sampleEngine.newRow (sampleInfo "app" "0.9.0") oldEntry.deps).readBack =
        [oldRow] := by decide +kernel
  obtain ⟨d, hinstall, hholds⟩ :=
    holds_emptyDisk.installPackage verifyPackage_old oldEntry.deps hafter
  have horder : resolveIndex [oldEntry] "app".toList = .ok [("app".toList, ⟨0, 9, 0⟩)] := by
    decide +kernel
  obtain ⟨hrun, hplan⟩ := installFromIndex_one (fun _ _ => some (samplePackage "app" "0.9.0"))
    parse_oldIndex horder (by decide +kernel) (by decide +kernel) rfl hinstall
  have hcall : installOld = .request _ _ _ _ := rfl
  refine ⟨d, ?_, hholds, ?_⟩
  · exact step_one (w := ⟨emptyDisk, declared⟩) hcall hrun rfl rfl
  · exact supported_one (w := ⟨emptyDisk, declared⟩) hcall hplan
      ⟨oldRow, Planned.row_of_verifyPackage verifyPackage_old, by decide +kernel⟩ (by simp [oldEntry])

theorem step_installLib {d : PkgDisk} (hd : Holds d [oldRow]) (declared : Str → List Str) :
    ∃ d', sampleEngine.machine.step ⟨d, declared⟩ installLib =
        (⟨d', update declared "lib".toList []⟩, true) ∧ Holds d' [oldRow, libRow] ∧
      sampleEngine.Supported ⟨d, declared⟩ installLib := by
  have hafter : ([oldRow].filter (·.name ≠ (sampleInfo "lib" "1.0.0").name)).map
      Installed.withoutCr ++ (sampleEngine.newRow (sampleInfo "lib" "1.0.0") libEntry.deps).readBack =
        [oldRow, libRow] := by decide +kernel
  obtain ⟨d', hinstall, hholds⟩ := hd.installPackage verifyPackage_lib libEntry.deps hafter
  have horder : resolveIndex [libEntry] "lib".toList = .ok [("lib".toList, ⟨1, 0, 0⟩)] := by
    decide +kernel
  obtain ⟨hrun, hplan⟩ := installFromIndex_one (fun _ _ => some (samplePackage "lib" "1.0.0"))
    parse_libIndex horder (by rw [hd.rows]; decide +kernel) (by decide +kernel) rfl hinstall
  have hcall : installLib = .request _ _ _ _ := rfl
  refine ⟨d', ?_, hholds, ?_⟩
  · exact step_one (w := ⟨d, declared⟩) hcall hrun rfl rfl
  · exact supported_one (w := ⟨d, declared⟩) hcall hplan
      ⟨libRow, Planned.row_of_verifyPackage verifyPackage_lib, by decide +kernel⟩ (by simp [libEntry])

theorem step_upgradeNew {d : PkgDisk} (hd : Holds d (oldRow :: rows))
    (hrows : rows = [] ∨ rows = [libRow]) (declared : Str → List Str) :
    ∃ d', sampleEngine.machine.step ⟨d, declared⟩ upgradeNew =
        (⟨d', update declared "app".toList ["lib".toList]⟩, true) ∧
      sampleEngine.registry d' = rows ++ [newAppRow] ∧
      (rows = [libRow] → sampleEngine.Supported ⟨d, declared⟩ upgradeNew) := by
  have hafter : ((oldRow :: rows).filter (·.name ≠ (sampleInfo "app" "2.0.0").name)).map
      Installed.withoutCr ++ (sampleEngine.newRow (sampleInfo "app" "2.0.0") newEntry.deps).readBack =
        rows ++ [newAppRow] := by obtain rfl | rfl := hrows <;> decide +kernel
  obtain ⟨d', hinstall, hholds⟩ := hd.installPackage verifyPackage_new newEntry.deps hafter
  have hfound : (sampleEngine.registry d).find? (·.name = "app".toList) = some oldRow := by
    rw [hd.rows]
    exact find?_cons_of_pos (by decide +kernel)
  have hcurrent : Version.parse oldRow.version = some ⟨0, 9, 0⟩ := by decide +kernel
  have hoffered : Version.parse newEntry.version = some ⟨2, 0, 0⟩ := by decide +kernel
  obtain ⟨hrun, hplan⟩ := upgrade_one (fun _ _ => some (samplePackage "app" "2.0.0")) parse_newIndex
    (by decide +kernel) hfound hcurrent hoffered (by decide +kernel) rfl hinstall
  have hcall : upgradeNew = .request _ _ _ _ := rfl
  refine ⟨sampleEngine.gc d', ?_, ?_, ?_⟩
  · exact step_one (w := ⟨d, declared⟩) hcall hrun rfl rfl
  · rw [registry_of_keeps hholds.unlinked (keeps_gc hholds.unlinked), hholds.rows]
  · rintro rfl
    refine supported_one (w := ⟨d, declared⟩) hcall hplan
      ⟨newAppRow, Planned.row_of_verifyPackage verifyPackage_new, by decide +kernel⟩ ?_
    dsimp only
    rw [hd.rows]
    decide +kernel

end PkgEngine

end EuroOS
