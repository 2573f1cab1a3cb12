import EuroOS.PackageStore

/-!
# What gets installed

The resolution of the index, the index entry that a package is fetched for and
the manifest inside the fetched package each name a package and a version.  An
installation is what was asked for exactly if they agree.
-/

namespace EuroOS

open List Function

/-! ## Manifests -/

theorem notMem_feed_of_tomlValue (h : tomlValue s key = some value) : '\n' ∉ value := by
  obtain ⟨line, hline, hvalue⟩ := exists_of_findSome?_eq_some h
  have hfeed := Str.notMem_of_mem_lines hline
  simp only [tomlLine, Str.afterStart, Option.bind_eq_bind, Option.bind_eq_some_iff,
    Option.ite_none_right_eq_some, Option.some.injEq, Option.pure_def] at hvalue
  obtain ⟨rest, ⟨-, rfl⟩, tail, ⟨-, rfl⟩, rfl⟩ := hvalue
  intro hc
  have h₁ := Str.mem_of_mem_trim (Str.mem_of_mem_trimMatches hc)
  have h₂ := (dropWhile_sublist _).subset (mem_of_mem_drop h₁)
  exact hfeed (Str.mem_of_mem_trim (mem_of_mem_drop h₂))

structure PkgMeta.WellFormed (info : PkgMeta) : Prop where
  name : ∀ c ∈ info.name, isNameChar c
  feed : ∀ f ∈ [info.version, info.binarySha256, info.kind, info.title, info.caps, info.profile,
    info.display, info.args, info.abi], '\n' ∉ f
  abi : info.abi ∈ ["linux".toList, "euro".toList, "wasm".toList]

theorem notMem_feed_tomlOpt {toml key default : Str} (h : '\n' ∉ default) :
    '\n' ∉ tomlOpt toml key default := by
  unfold tomlOpt
  cases hvalue : tomlValue toml key with
  | none => exact h
  | some value => exact notMem_feed_of_tomlValue hvalue

theorem wellFormed_of_parseManifest {toml : Str} {info : PkgMeta}
    (h : parseManifest toml = some info) : info.WellFormed := by
  unfold parseManifest at h
  split at h
  · cases h
  rename_i name hname
  split at h
  · cases h
  rename_i hvalid
  dsimp only at h
  split at h
  · cases h
  rename_i hknown
  split at h
  · rename_i version binary sha hversion hbinary hsha
    have hchars : ∀ c ∈ name, isNameChar c := by
      rw [Bool.not_eq_true, Bool.not_eq_false', validName, Bool.and_eq_true] at hvalid
      exact all_eq_true.mp hvalid.2
    rw [Bool.not_eq_true, Bool.not_eq_false', knownChoices, Bool.and_eq_true] at hknown
    obtain rfl := Option.some.inj h
    refine ⟨hchars, ?_, by simpa using hknown.2⟩
    simp only [forall_mem_cons, not_mem_nil, false_imp_iff, implies_true, and_true]
    exact ⟨notMem_feed_of_tomlValue hversion, notMem_feed_of_tomlValue hsha,
      notMem_feed_tomlOpt (by decide), notMem_feed_tomlOpt (notMem_feed_of_tomlValue hname),
      notMem_feed_tomlOpt (by decide), notMem_feed_tomlOpt (by decide),
      notMem_feed_tomlOpt (by decide), notMem_feed_tomlOpt (by decide),
      notMem_feed_tomlOpt (by decide)⟩
  · cases h

theorem verifyPackage_ok (h : verifyPackage crypto pkg = .ok (info, bin)) :
    (∃ toml, parseManifest toml = some info) ∧
      info.binarySha256 = hex (crypto.sha256 bin).toList := by
  unfold verifyPackage at h
  split at h
  · cases h
  dsimp only at h
  split at h
  · cases h
  · cases h
  split at h
  · cases h
  split at h
  · cases h
  rename_i info' hmanifest
  split at h
  · cases h
  split at h
  · cases h
  rename_i hhash
  cases h
  obtain ⟨toml, -, hparse⟩ := Option.bind_eq_some_iff.mp hmanifest
  exact ⟨⟨toml, hparse⟩, (not_not.mp hhash).symm⟩

theorem wellFormed_of_verifyPackage (h : verifyPackage crypto pkg = .ok (info, bin)) :
    info.WellFormed :=
  let ⟨⟨_, hparse⟩, _⟩ := verifyPackage_ok h
  wellFormed_of_parseManifest hparse

/-! ## Files that stay as they are -/

namespace PkgDisk

variable {d d' : PkgDisk} {p q t : Str}

structure Unlinked (d : PkgDisk) (q : Str) : Prop where
  here : d.links q = none
  target : ∀ p, d.links p ≠ some q

theorem Unlinked.read (h : d.Unlinked q) : d.read q = d.files q := by
  simp [PkgDisk.read, PkgDisk.target, h.here]

theorem Unlinked.target_ne (h : d.Unlinked q) (hp : p ≠ q) : d.target p ≠ q := by
  unfold PkgDisk.target
  cases hlink : d.links p with
  | none => exact hp
  | some t => exact fun heq => h.target p (heq ▸ hlink)

structure Keeps (q : Str) (d d' : PkgDisk) : Prop where
  unlinked : d'.Unlinked q
  files : d'.files q = d.files q

theorem Keeps.refl (h : d.Unlinked q) : Keeps q d d := ⟨h, rfl⟩

theorem Keeps.trans (h : Keeps q d d') (h' : Keeps q d' d'') : Keeps q d d'' :=
  ⟨h'.unlinked, h'.files.trans h.files⟩

theorem write_eq (d : PkgDisk) (p : Str) (data : Bytes) :
    ((d.write p data).1 = false ∧ (d.write p data).2 = { d with faults := d.faults.tail }) ∨
      ((d.write p data).1 = true ∧ (d.write p data).2 = { d with
        files := update d.files (d.target p) (some data), faults := d.faults.tail }) := by
  unfold write change
  split
  · exact .inl ⟨rfl, rfl⟩
  · exact .inr ⟨rfl, rfl⟩

theorem keeps_write (h : d.Unlinked q) (hp : p ≠ q) (data : Bytes) :
    Keeps q d (d.write p data).2 := by
  obtain ⟨-, heq⟩ | ⟨-, heq⟩ := write_eq d p data <;> rw [heq]
  · exact ⟨⟨h.here, h.target⟩, rfl⟩
  · exact ⟨⟨h.here, h.target⟩, update_of_ne (h.target_ne hp).symm _ _⟩

theorem read_write (h : d.Unlinked q) (hok : (d.write q data).1 = true) :
    (d.write q data).2.Unlinked q ∧ (d.write q data).2.read q = some data := by
  obtain ⟨hno, -⟩ | ⟨-, heq⟩ := write_eq d q data
  · rw [hok] at hno
    cases hno
  have hself : d.target q = q := by simp [PkgDisk.target, h.here]
  rw [heq, hself]
  refine ⟨⟨h.here, h.target⟩, ?_⟩
  simp [PkgDisk.read, PkgDisk.target, h.here]

theorem remove_eq (d : PkgDisk) (p : Str) :
    (d.remove p).2 = { d with faults := d.faults.tail } ∨
      (d.remove p).2 = { d with
        links := update d.links p none, faults := d.faults.tail } ∨
      (d.remove p).2 = { d with
        files := update d.files p none, faults := d.faults.tail } := by
  unfold remove change
  split
  · exact .inl rfl
  cases hlink : d.links p with
  | some t => exact .inr (.inl (by simp [hlink]))
  | none =>
    cases hfile : d.files p with
    | some data => exact .inr (.inr (by simp [hlink, hfile]))
    | none => exact .inl (by simp [hlink, hfile])

theorem keeps_remove (h : d.Unlinked q) (hp : p ≠ q) : Keeps q d (d.remove p).2 := by
  obtain heq | heq | heq := remove_eq d p <;> rw [heq]
  · exact ⟨⟨h.here, h.target⟩, rfl⟩
  · refine ⟨⟨?_, fun p' => ?_⟩, rfl⟩
    · simpa [update_of_ne hp.symm] using h.here
    · by_cases hp' : p' = p
      · simp [hp']
      · simpa [update_of_ne hp'] using h.target p'
  · exact ⟨⟨h.here, h.target⟩, update_of_ne hp.symm _ _⟩

theorem symlink_eq (d : PkgDisk) (p t : Str) :
    (d.symlink p t = (false, { d with faults := d.faults.tail })) ∨
      (d.symlink p t = (true, { d with
        links := update d.links p (some t), faults := d.faults.tail })) := by
  unfold symlink change
  split
  · exact .inl rfl
  by_cases hthere : ((d.links p).isSome || (d.files p).isSome) = true
  · exact .inl (by simp [hthere])
  · exact .inr (by simp [hthere])

theorem faults_remove (d : PkgDisk) (p : Str) : (d.remove p).2.faults = d.faults.tail := by
  obtain heq | heq | heq := remove_eq d p <;> rw [heq]

theorem faults_symlink (d : PkgDisk) (p t : Str) : (d.symlink p t).2.faults = d.faults.tail := by
  obtain heq | heq := symlink_eq d p t <;> rw [heq]

theorem keeps_symlink (h : d.Unlinked q) (hp : p ≠ q) (ht : t ≠ q) :
    Keeps q d (d.symlink p t).2 := by
  obtain heq | heq := symlink_eq d p t <;> rw [heq]
  · exact ⟨⟨h.here, h.target⟩, rfl⟩
  refine ⟨⟨?_, fun p' => ?_⟩, rfl⟩
  · simpa [update_of_ne hp.symm] using h.here
  · by_cases hp' : p' = p
    · simpa [hp'] using ht
    · simpa [update_of_ne hp'] using h.target p'

end PkgDisk

namespace PkgEngine

open PkgDisk

variable {e : PkgEngine} {d d' : PkgDisk}

theorem storePath_eq (hash : Str) : ∃ rest, e.storePath hash = e.root ++ "/store/".toList ++ rest := by
  unfold storePath
  split
  · exact ⟨hash.take 32 ++ '/' :: hash.drop 32, by simp⟩
  · exact ⟨hash, rfl⟩

theorem storePath_ne_registryPath (hash : Str) : e.storePath hash ≠ e.registryPath := by
  obtain ⟨rest, heq⟩ := storePath_eq (e := e) hash
  rw [heq, registryPath, append_assoc]
  intro h
  exact absurd (append_cancel_left h) (by simp)

theorem blobsPath_ne_registryPath : e.blobsPath ≠ e.registryPath := by
  rw [blobsPath, registryPath]
  intro h
  exact absurd (append_cancel_left h) (by decide)

theorem linkPath_ne_registryPath (name : Str) : e.linkPath name ≠ e.registryPath := by
  intro h
  apply e.apart name
  rw [← linkPath, h, registryPath]
  exact ⟨"installed".toList, by simp⟩

/-! The registry is the only file of the engine that a change below does not touch. -/

variable (h : d.Unlinked e.registryPath)
include h

theorem keeps_storeBlob (hash : Str) (bin : Bytes) :
    PkgDisk.Keeps e.registryPath d (e.storeBlob d hash bin).2 := by
  unfold storeBlob
  split
  · exact PkgDisk.Keeps.refl h
  · exact keeps_write h (storePath_ne_registryPath hash) bin

theorem keeps_saveBlobs (hashes : List Str) :
    PkgDisk.Keeps e.registryPath d (e.saveBlobs d hashes) :=
  keeps_write h blobsPath_ne_registryPath _

theorem keeps_trackBlob (hash : Str) : PkgDisk.Keeps e.registryPath d (e.trackBlob d hash) := by
  unfold trackBlob
  split
  · exact PkgDisk.Keeps.refl h
  · exact keeps_saveBlobs h _

theorem keeps_linkBinary (info : PkgMeta) (bin : Bytes) :
    PkgDisk.Keeps e.registryPath d (e.linkBinary d info bin).2 := by
  have hlink := linkPath_ne_registryPath (e := e) info.name
  have hold : PkgDisk.Keeps e.registryPath d
      (if d.exists (e.linkPath info.name) then (d.remove (e.linkPath info.name)).2 else d) := by
    split
    · exact keeps_remove h hlink
    · exact PkgDisk.Keeps.refl h
  have hnew := keeps_symlink hold.unlinked hlink (storePath_ne_registryPath info.binarySha256)
  unfold linkBinary
  dsimp only
  split
  · rename_i d' heq
    rw [heq] at hnew
    exact hold.trans hnew
  · rename_i d' heq
    rw [heq] at hnew
    exact (hold.trans hnew).trans (keeps_write hnew.unlinked hlink bin)

omit h in
theorem keeps_sweep (live : List Str) (hashes : List Str) (h : d.Unlinked e.registryPath) :
    PkgDisk.Keeps e.registryPath d (e.sweep live d hashes) := by
  induction hashes generalizing d with
  | nil => exact PkgDisk.Keeps.refl h
  | cons hash hashes ih =>
    rw [sweep]
    split
    · exact ih h
    · have hstep := keeps_remove h (storePath_ne_registryPath (e := e) hash)
      exact hstep.trans (ih hstep.unlinked)

theorem keeps_gc : PkgDisk.Keeps e.registryPath d (e.gc d) := by
  have hsweep := keeps_sweep ((e.registry d).map (·.hash)) (e.knownBlobs d) h
  exact hsweep.trans (keeps_saveBlobs hsweep.unlinked _)

theorem registry_of_keeps (hkeeps : PkgDisk.Keeps e.registryPath d d') :
    e.registry d' = e.registry d := by
  rw [registry, registry, hkeeps.unlinked.read, h.read, hkeeps.files]

variable {rows : List Installed} {pkg : Bytes}

theorem registry_saveRegistry
    (hok : (e.saveRegistry d rows).1 = true) : (e.saveRegistry d rows).2.Unlinked e.registryPath ∧
      e.registry (e.saveRegistry d rows).2 = rows.flatMap Installed.readBack := by
  obtain ⟨hunlinked, hread⟩ := read_write h hok
  refine ⟨hunlinked, ?_⟩
  rw [registry, saveRegistry, hread]
  dsimp only
  rw [fromUtf8Lossy_bytes, parseRegistry_formatRegistry]

omit h

theorem tidy_of_mem_registry (h : r ∈ e.registry d) : r.Tidy := by
  unfold registry at h
  split at h
  · cases h
  · exact tidy_of_mem_parseRegistry h

theorem flatMap_readBack_of_tidy (h : ∀ r ∈ rows, r.Tidy) :
    rows.flatMap Installed.readBack = rows.map Installed.withoutCr := by
  induction rows with
  | nil => rfl
  | cons r rows ih =>
    rw [flatMap_cons, map_cons, Installed.readBack_of_tidy (h r (by simp)),
      ih fun r' hr' => h r' (mem_cons_of_mem _ hr'), singleton_append]

/-! ## One package -/

variable {info : PkgMeta}

theorem installPackage_cases (h : e.installPackage d pkg deps = (.ok info, d')) :
    ∃ bin d₁ d₂, verifyPackage e.crypto pkg = .ok (info, bin) ∧
      e.storeBlob d info.binarySha256 bin = (true, d₁) ∧
      e.linkBinary (e.trackBlob d₁ info.binarySha256) info bin = (true, d₂) ∧
      e.saveRegistry d₂ ((e.registry d₂).filter (·.name ≠ info.name) ++ [e.newRow info deps]) =
        (true, d') := by
  unfold installPackage at h
  split at h
  · cases h
  rename_i info' bin hverify
  split at h
  · cases h
  rename_i d₁ hstore
  split at h
  · cases h
  rename_i d₂ hlink
  dsimp only at h
  split at h
  · cases h
  rename_i d₃ hsave
  cases h
  exact ⟨bin, d₁, d₂, hverify, hstore, hlink, hsave⟩

theorem installPackage_ok {deps : List Str} (hunlinked : d.Unlinked e.registryPath)
    (h : e.installPackage d pkg deps = (.ok info, d')) :
    (∃ bin, verifyPackage e.crypto pkg = .ok (info, bin)) ∧ d'.Unlinked e.registryPath ∧
      e.registry d' = ((e.registry d).filter (·.name ≠ info.name)).map Installed.withoutCr ++
        (e.newRow info deps).readBack := by
  obtain ⟨bin, d₁, d₂, hverify, hstored, hlinked, hsaved⟩ := installPackage_cases h
  have hstore := keeps_storeBlob hunlinked info.binarySha256 bin
  rw [hstored] at hstore
  have htrack := keeps_trackBlob hstore.unlinked info.binarySha256
  have hlink := keeps_linkBinary htrack.unlinked info bin
  rw [hlinked] at hlink
  have hrows := registry_of_keeps hunlinked ((hstore.trans htrack).trans hlink)
  obtain ⟨hfinal, hregistry⟩ := registry_saveRegistry hlink.unlinked (congrArg Prod.fst hsaved)
  rw [hsaved] at hfinal hregistry
  refine ⟨⟨bin, hverify⟩, hfinal, ?_⟩
  rw [hregistry, hrows, flatMap_append, flatMap_singleton,
    flatMap_readBack_of_tidy fun r hr => tidy_of_mem_registry (mem_of_mem_filter hr)]

theorem installPackage_of_noFaults {bin : Bytes}
    (hverify : verifyPackage e.crypto pkg = .ok (info, bin)) (deps : List Str) (h : d.faults = []) :
    ∃ d', e.installPackage d pkg deps = (.ok info, d') ∧ d'.faults = [] := by
  have hwrite {d : PkgDisk} (h : d.faults = []) (p : Str) (data : Bytes) :
      ∃ d', d.write p data = (true, d') ∧ d'.faults = [] := by
    simp [PkgDisk.write, PkgDisk.change, h]
  obtain ⟨d₁, hstore, h₁⟩ : ∃ d₁, e.storeBlob d info.binarySha256 bin = (true, d₁) ∧
      d₁.faults = [] := by
    unfold storeBlob
    split
    · exact ⟨d, rfl, h⟩
    · exact hwrite h _ _
  have h₂ : (e.trackBlob d₁ info.binarySha256).faults = [] := by
    unfold trackBlob saveBlobs
    split
    · exact h₁
    obtain ⟨d', heq, h'⟩ := hwrite h₁ e.blobsPath
      (Str.bytes (['\n'].intercalate (e.knownBlobs d₁ ++ [info.binarySha256])))
    rwa [heq]
  obtain ⟨d₃, hlink, h₃⟩ : ∃ d₃, e.linkBinary (e.trackBlob d₁ info.binarySha256) info bin =
      (true, d₃) ∧ d₃.faults = [] := by
    unfold linkBinary
    dsimp only
    generalize hold : (if (e.trackBlob d₁ info.binarySha256).exists (e.linkPath info.name) then
      ((e.trackBlob d₁ info.binarySha256).remove (e.linkPath info.name)).2
      else e.trackBlob d₁ info.binarySha256) = d₂
    have hfaults : d₂.faults = [] := by
      rw [← hold]
      split
      · rw [faults_remove, h₂, tail_nil]
      · exact h₂
    have hnew := faults_symlink d₂ (e.linkPath info.name) (e.storePath info.binarySha256)
    rw [hfaults, tail_nil] at hnew
    split
    · rename_i d' heq
      rw [heq] at hnew
      exact ⟨d', rfl, hnew⟩
    · rename_i d' heq
      rw [heq] at hnew
      exact hwrite hnew _ _
  obtain ⟨d₄, hsave, h₄⟩ := hwrite h₃ e.registryPath (Str.bytes (formatRegistry
    ((e.registry d₃).filter (·.name ≠ info.name) ++ [e.newRow info deps])))
  refine ⟨d₄, ?_, h₄⟩
  simp only [installPackage, hverify, hstore, hlink, saveRegistry, hsave]

theorem newRow_fresh (h : info.WellFormed) (deps : List Str) : (e.newRow info deps).Fresh := by
  have hname (c : Char) (hc : isNameChar c = false) : c ∉ info.name := by
    intro hmem
    rw [h.name c hmem] at hc
    cases hc
  have hfeed := h.feed
  simp only [forall_mem_cons, not_mem_nil, false_imp_iff, implies_true, and_true] at hfeed
  obtain ⟨hversion, hhash, hkind, htitle, hcaps, hprofile, hdisplay, hargs, habi⟩ := hfeed
  refine ⟨hname '\t' (by decide), ?_, ?_, ?_⟩
  · have hlinefeed := hname '\n' (by decide)
    simp [Installed.front, newRow, linkPath, hlinefeed, hversion, hhash, e.oneLine]
  · simp [Installed.back, newRow, List.intercalate, hkind, htitle, hcaps, hprofile, hdisplay, hargs,
      habi]
  · have hknown := h.abi
    simp only [mem_cons, not_mem_nil, or_false] at hknown
    rcases hknown with habi | habi | habi <;> (simp only [newRow, habi]; decide)

/-- The step wrote the package that was chosen and changed nothing else, and the version that was
installed before is not higher. -/
structure Step.Faithful (e : PkgEngine) (s : Step) : Prop where
  package : s.info.name = s.name ∧ Version.parse s.info.version = some s.version
  row : ∃ row, (e.registry s.after).filter (·.name = s.name) = [row] ∧
    Version.parse row.version = some s.version
  others : (e.registry s.after).filter (·.name ≠ s.name) =
    (e.registry s.before).filter (·.name ≠ s.name)
  noDowngrade : ∀ r ∈ e.registry s.before, r.name = s.name →
    ∀ old, Version.parse r.version = some old → old.key ≤ s.version.key

/-- A package that will be fetched: what was chosen, the index entry, and the bytes that come. -/
structure Planned where
  name : Str
  version : Version
  entry : PkgIndexEntry
  bytes : Bytes
  deriving DecidableEq

def Planned.row (e : PkgEngine) (p : Planned) : Option Installed :=
  match verifyPackage e.crypto p.bytes with
  | .error _ => none
  | .ok (info, _) => some (e.newRow info p.entry.deps)

/-- The signed package is the one that was chosen, its row is one line of the registry with the
chosen version in it, and no higher version is installed. -/
structure Planned.Agrees (e : PkgEngine) (installed : List Installed) (p : Planned) : Prop where
  row : ∃ row, p.row e = some row ∧ row.name = p.name ∧
    Version.parse row.version = some p.version ∧
    Version.parse row.versionField = some p.version ∧ '\n' ∉ row.joined
  noDowngrade : ∀ r ∈ installed, r.name = p.name →
    ∀ old, Version.parse r.version = some old → old.key ≤ p.version.key

theorem map_withoutCr_eq_iff (rows : List Installed) :
    rows.map Installed.withoutCr = rows ↔ ∀ r ∈ rows, r.withoutCr = r := by
  simpa using map_inj_left (l := rows) (f := Installed.withoutCr) (g := id)

theorem rewritten_iff (hothers : ∀ r ∈ others, r.name ≠ name) (row : Installed) :
    (others.map Installed.withoutCr ++ new).filter (·.name = name) = [row] ∧
        (others.map Installed.withoutCr ++ new).filter (·.name ≠ name) = others ↔
      (new = [row] ∧ row.name = name) ∧ ∀ r ∈ others, r.withoutCr = r := by
  have hnone : (others.map Installed.withoutCr).filter (·.name = name) = [] := by
    simpa [Installed.withoutCr] using hothers
  have hall : (others.map Installed.withoutCr).filter (·.name ≠ name) =
      others.map Installed.withoutCr := by simpa [Installed.withoutCr] using hothers
  have hmap := map_withoutCr_eq_iff others
  rw [filter_append, filter_append, hnone, hall, nil_append]
  constructor
  · rintro ⟨hrow, hrest⟩
    have hempty : new.filter (·.name ≠ name) = [] := by
      have hlength := congrArg List.length hrest
      rw [length_append, length_map] at hlength
      exact eq_nil_of_length_eq_zero (by omega)
    have hsame : ∀ r ∈ new, r.name = name := by simpa using hempty
    rw [hempty, append_nil, hmap] at hrest
    rw [List.filter_eq_self.mpr (by simpa using hsame)] at hrow
    exact ⟨⟨hrow, hsame row (by simp [hrow])⟩, hrest⟩
  · rintro ⟨⟨rfl, hname⟩, hstable⟩
    simp [hname, hmap.mpr hstable]

theorem Planned.row_of_verifyPackage {p : Planned} {bin : Bytes}
    (h : verifyPackage e.crypto p.bytes = .ok (info, bin)) :
    p.row e = some (e.newRow info p.entry.deps) := by simp only [Planned.row, h]

/-- What the step wrote is what was chosen exactly if the planned package agrees and the rows of
the other packages survive being written once more. -/
theorem faithful_iff {s : Step} {bytes : Bytes} (hunlinked : s.before.Unlinked e.registryPath)
    (h : e.installPackage s.before bytes s.entry.deps = (.ok s.info, s.after)) :
    s.Faithful e ↔ Planned.Agrees e (e.registry s.before) ⟨s.name, s.version, s.entry, bytes⟩ ∧
      ∀ r ∈ e.registry s.before, r.name ≠ s.name → r.withoutCr = r := by
  obtain ⟨⟨bin, hverify⟩, -, hafter⟩ := installPackage_ok hunlinked h
  have hfresh := newRow_fresh (e := e) (wellFormed_of_verifyPackage hverify) s.entry.deps
  have hrow : Planned.row e ⟨s.name, s.version, s.entry, bytes⟩ =
      some (e.newRow s.info s.entry.deps) := Planned.row_of_verifyPackage hverify
  have hothers : ∀ r ∈ (e.registry s.before).filter (·.name ≠ s.name), r.name ≠ s.name := by simp
  have hmem : (∀ r ∈ (e.registry s.before).filter (·.name ≠ s.name), r.withoutCr = r) ↔
      ∀ r ∈ e.registry s.before, r.name ≠ s.name → r.withoutCr = r := by simp
  constructor
  · intro hfaithful
    obtain ⟨hname, hversion⟩ := hfaithful.package
    obtain ⟨row, hwritten, hparsed⟩ := hfaithful.row
    have hkept := hfaithful.others
    rw [hafter, hname] at hwritten hkept
    obtain ⟨⟨hback, -⟩, hstable⟩ := (rewritten_iff hothers row).mp ⟨hwritten, hkept⟩
    -- one row was read back, so the dependencies are on one line
    have hjoined : '\n' ∉ (e.newRow s.info s.entry.deps).joined := by
      intro hfeed
      have htwo := Installed.two_le_length_readBack hfresh hfeed
      rw [hback, length_singleton] at htwo
      omega
    obtain ⟨row', hback', -, hfield⟩ := Installed.readBack_of_fresh hfresh hjoined
    rw [hback, singleton_inj] at hback'
    refine ⟨⟨⟨_, hrow, hname, hversion, ?_, hjoined⟩, hfaithful.noDowngrade⟩, hmem.mp hstable⟩
    rw [← hfield, ← hback', hparsed]
  · rintro ⟨⟨⟨row, hplanned, hname, hversion, hfield, hjoined⟩, hold⟩, hstable⟩
    rw [hrow, Option.some.injEq] at hplanned
    subst hplanned
    replace hname : s.info.name = s.name := hname
    obtain ⟨row, hback, hrowName, hrowVersion⟩ := Installed.readBack_of_fresh hfresh hjoined
    obtain ⟨hwritten, hkept⟩ :=
      (rewritten_iff hothers row).mpr ⟨⟨hback, hrowName.trans hname⟩, hmem.mpr hstable⟩
    rw [hname] at hafter
    rw [← hafter] at hwritten hkept
    exact ⟨⟨hname, hversion⟩, ⟨row, hwritten, hrowVersion ▸ hfield⟩, hkept, hold⟩

/-! ## The loop over the resolved packages -/

def plan (entries : List PkgIndexEntry) (installed : List Installed) (fetch : Fetch) :
    List (Str × Version) → List Str → List Planned
  | [], _ => []
  | (name, version) :: order, asked =>
    if installed.any fun r => r.name = name ∧ r.version = version.toStringDotted then
      plan entries installed fetch order asked
    else
      match entries.find? (·.name = name) with
      | none => []
      | some entry =>
        match fetch asked entry.file with
        | none => []
        | some bytes =>
          ⟨name, version, entry, bytes⟩ ::
            plan entries installed fetch order (asked ++ [entry.file])

/-- The last field of a row loses a carriage return when the row is written and read.  Rows that
were there are written with the first package, the row of a package is written again with the
next one. -/
structure Rewritable (e : PkgEngine) (rows : List Installed) (plan : List Planned) : Prop where
  first : ∀ p ∈ plan.head?, ∀ r ∈ rows, r.name ≠ p.name → r.withoutCr = r
  later : ∀ p ∈ plan.dropLast, ∀ made, p.row e = some made → ∀ r ∈ made.readBack, r.withoutCr = r

variable {installed : List Installed}

theorem installLoop_cons_ok
    (h : e.installLoop entries installed fetch ((name, version) :: order) asked d =
      (.ok steps, d')) :
    (e.installLoop entries installed fetch order asked d = (.ok steps, d') ∧
        plan entries installed fetch ((name, version) :: order) asked =
          plan entries installed fetch order asked) ∨
      ∃ entry bytes info d₁ rest,
        e.installPackage d bytes entry.deps = (.ok info, d₁) ∧
        e.installLoop entries installed fetch order (asked ++ [entry.file]) d₁ = (.ok rest, d') ∧
        steps = ⟨name, version, entry, info, d, d₁⟩ :: rest ∧
        entry ∈ entries ∧ entry.name = name ∧
        plan entries installed fetch ((name, version) :: order) asked =
          ⟨name, version, entry, bytes⟩ ::
            plan entries installed fetch order (asked ++ [entry.file]) := by
  rw [installLoop] at h
  rw [plan]
  split at h
  · rename_i hskip
    exact .inl ⟨h, if_pos hskip⟩
  rename_i hskip
  rw [if_neg hskip]
  split at h
  · cases h
  rename_i entry hentry
  split at h
  · cases h
  rename_i bytes hbytes
  split at h
  · cases h
  rename_i info d₁ hinstall
  split at h
  · cases h
  rename_i rest d₂ hrest
  cases h
  refine .inr ⟨entry, bytes, info, d₁, rest, hinstall, hrest, rfl, ?_⟩
  simp only [hentry, hbytes, and_true]
  exact ⟨mem_of_find?_eq_some hentry, by simpa using find?_some hentry⟩

theorem registry_of_faithful {s : Step} {bytes : Bytes}
    (hunlinked : s.before.Unlinked e.registryPath)
    (h : e.installPackage s.before bytes s.entry.deps = (.ok s.info, s.after))
    (hfaithful : s.Faithful e) :
    ∃ made row, Planned.row e ⟨s.name, s.version, s.entry, bytes⟩ = some made ∧
      made.readBack = [row] ∧ row.name = s.name ∧
      e.registry s.after = (e.registry s.before).filter (·.name ≠ s.name) ++ [row] := by
  obtain ⟨⟨bin, hverify⟩, -, hafter⟩ := installPackage_ok hunlinked h
  have hfresh := newRow_fresh (e := e) (wellFormed_of_verifyPackage hverify) s.entry.deps
  obtain ⟨⟨⟨made, hmade, hname, -, -, hjoined⟩, -⟩, hstable⟩ :=
    (faithful_iff hunlinked h).mp hfaithful
  have hnew : made = e.newRow s.info s.entry.deps := by
    rw [Planned.row_of_verifyPackage hverify, Option.some.injEq] at hmade
    exact hmade.symm
  subst hnew
  obtain ⟨row, hback, hrowName, -⟩ := Installed.readBack_of_fresh hfresh hjoined
  refine ⟨_, row, hmade, hback, hrowName.trans hname, ?_⟩
  replace hname : s.info.name = s.name := hname
  have hkept : ∀ r ∈ (e.registry s.before).filter (·.name ≠ s.name), r.withoutCr = r := by
    simpa using hstable
  rw [hafter, hback, hname, (map_withoutCr_eq_iff _).mpr hkept]

theorem rewritable_cons {p : Planned} {ps : List Planned} {made row : Installed}
    (hmade : p.row e = some made) (hback : made.readBack = [row]) (hname : row.name = p.name)
    (hps : ∀ p' ∈ ps, p'.name ≠ p.name) (hrows : ∀ r ∈ rows, r.name ≠ p.name → r.withoutCr = r) :
    Rewritable e rows (p :: ps) ↔ Rewritable e (rows.filter (·.name ≠ p.name) ++ [row]) ps := by
  cases ps with
  | nil => exact ⟨fun _ => ⟨by simp, by simp⟩, fun _ => ⟨by simpa using hrows, by simp⟩⟩
  | cons p' ps =>
    have hp' : p'.name ≠ p.name := hps p' (by simp)
    constructor
    · intro h
      refine ⟨?_, fun q hq => h.later q (by simp [hq])⟩
      intro q hq r hr hne
      simp only [mem_append, mem_filter, mem_singleton] at hr
      rcases hr with ⟨hr, hother⟩ | rfl
      · exact hrows r hr (by simpa using hother)
      · exact h.later p (by simp) made hmade _ (by simp [hback])
    · intro h
      refine ⟨by simpa using hrows, ?_⟩
      intro q hq made' hmade' r hr
      rw [dropLast_cons_cons, mem_cons] at hq
      rcases hq with rfl | hq
      · have hsame : made' = made := Option.some.inj (hmade'.symm.trans hmade)
        rw [hsame, hback, mem_singleton] at hr
        subst hr
        exact h.first p' (by simp) _ (by simp) (hname ▸ hp'.symm)
      · exact h.later q hq made' hmade' r hr

theorem name_of_mem_plan {p : Planned}
    (h : p ∈ plan entries installed fetch order asked) : p.name ∈ order.map Prod.fst := by
  induction order generalizing asked with
  | nil => cases h
  | cons chosen order ih =>
    rw [plan] at h
    split at h
    · exact mem_cons_of_mem _ (ih h)
    split at h
    · cases h
    split at h
    · cases h
    rcases mem_cons.mp h with rfl | h
    · exact mem_cons_self
    · exact mem_cons_of_mem _ (ih h)

/-- All packages that the loop writes are the ones that were chosen exactly if those it fetches
are.  The rows of packages that are still to come are those the loop started with. -/
theorem installLoop_faithful_iff (hunlinked : d.Unlinked e.registryPath)
    (hnodup : (order.map Prod.fst).Nodup)
    (hrows : ∀ r, r.name ∈ order.map Prod.fst → (r ∈ e.registry d ↔ r ∈ installed))
    (h : e.installLoop entries installed fetch order asked d = (.ok steps, d')) :
    (∀ s ∈ steps, s.Faithful e) ↔
      (∀ p ∈ plan entries installed fetch order asked, p.Agrees e installed) ∧
        Rewritable e (e.registry d) (plan entries installed fetch order asked) := by
  induction order generalizing asked d steps with
  | nil =>
    cases h
    exact ⟨fun _ => ⟨by simp [plan], by simp [plan], by simp [plan]⟩, by simp⟩
  | cons chosen order ih =>
    obtain ⟨name, version⟩ := chosen
    rw [map_cons, nodup_cons] at hnodup
    rcases installLoop_cons_ok h with ⟨hskip, hplan⟩ | ⟨entry, bytes, info, d₁, rest, hinstall,
      hrest, rfl, -, -, hplan⟩
    · rw [hplan]
      exact ih hunlinked hnodup.2 (fun r hr => hrows r (mem_cons_of_mem _ hr)) hskip
    rw [hplan, forall_mem_cons, forall_mem_cons]
    have hstep := faithful_iff (s := ⟨name, version, entry, info, d, d₁⟩) hunlinked hinstall
    have hagrees : Planned.Agrees e (e.registry d) ⟨name, version, entry, bytes⟩ ↔
        Planned.Agrees e installed ⟨name, version, entry, bytes⟩ := by
      have hsame {r : Installed} (hr : r.name = name) := hrows r (by simp [hr])
      exact ⟨fun ⟨hrow, hold⟩ => ⟨hrow, fun r hr hn => hold r ((hsame hn).mpr hr) hn⟩,
        fun ⟨hrow, hold⟩ => ⟨hrow, fun r hr hn => hold r ((hsame hn).mp hr) hn⟩⟩
    rw [hagrees] at hstep
    -- after a faithful step the loop goes on with the rows of the packages to come unchanged
    have hloop (hfaithful : Step.Faithful e ⟨name, version, entry, info, d, d₁⟩)
        (hstable : ∀ r ∈ e.registry d, r.name ≠ name → r.withoutCr = r) :
        (∀ s ∈ rest, s.Faithful e) ↔
          (∀ p ∈ plan entries installed fetch order (asked ++ [entry.file]), p.Agrees e installed) ∧
          Rewritable e (e.registry d) (⟨name, version, entry, bytes⟩ ::
            plan entries installed fetch order (asked ++ [entry.file])) := by
      obtain ⟨made, row, hmade, hback, hname, hafter⟩ :=
        registry_of_faithful (s := ⟨name, version, entry, info, d, d₁⟩) hunlinked hinstall
          hfaithful
      dsimp only at hmade hname hafter
      have hlater {n : Str} (hn : n ∈ order.map Prod.fst) : n ≠ name :=
        fun heq => hnodup.1 (heq ▸ hn)
      have hrows' : ∀ r, r.name ∈ order.map Prod.fst →
          (r ∈ e.registry d₁ ↔ r ∈ installed) := by
        intro r hr
        have hne : r ≠ row := fun heq => hlater hr (heq ▸ hname)
        rw [← hrows r (mem_cons_of_mem _ hr), hafter]
        simp [hlater hr, hne]
      rw [rewritable_cons hmade hback hname (fun p hp => hlater (name_of_mem_plan hp)) hstable,
        ← hafter]
      exact ih (installPackage_ok hunlinked hinstall).2.1 hnodup.2 hrows' hrest
    constructor
    · rintro ⟨hfaithful, hothers⟩
      obtain ⟨hagree, hstable⟩ := hstep.mp hfaithful
      obtain ⟨hagreeLater, hrewritable⟩ := (hloop hfaithful hstable).mp hothers
      exact ⟨⟨hagree, hagreeLater⟩, hrewritable⟩
    · rintro ⟨⟨hagree, hagreeLater⟩, hrewritable⟩
      have hstable := hrewritable.first _ rfl
      have hfaithful := hstep.mpr ⟨hagree, hstable⟩
      exact ⟨hfaithful, (hloop hfaithful hstable).mpr ⟨hagreeLater, hrewritable⟩⟩

/-- The registry before the first step, between the steps and after the last one. -/
def Chained (e : PkgEngine) : List Installed → List Step → List Installed → Prop
  | rows, [], rows' => rows = rows'
  | rows, s :: steps, rows' => rows = e.registry s.before ∧ Chained e (e.registry s.after) steps rows'

theorem installLoop_chained (hunlinked : d.Unlinked e.registryPath)
    (h : e.installLoop entries installed fetch order asked d = (.ok steps, d')) :
    Chained e (e.registry d) steps (e.registry d') ∧
      steps.map (fun s => (s.name, s.version)) =
        (plan entries installed fetch order asked).map (fun p => (p.name, p.version)) := by
  induction order generalizing asked d steps with
  | nil =>
    cases h
    exact ⟨rfl, rfl⟩
  | cons chosen order ih =>
    rcases installLoop_cons_ok h with ⟨hskip, hplan⟩ | ⟨entry, bytes, info, d₁, rest, hinstall,
      hrest, rfl, -, -, hplan⟩
    · rw [hplan]
      exact ih hunlinked hskip
    obtain ⟨hchained, hnames⟩ := ih (installPackage_ok hunlinked hinstall).2.1 hrest
    rw [hplan, map_cons, map_cons, hnames]
    exact ⟨⟨rfl, hchained⟩, rfl⟩

theorem nodup_of_resolveIndex {root : Str} (h : resolveIndex entries root = .ok order) :
    (order.map Prod.fst).Nodup := by
  unfold resolveIndex at h
  split at h
  · cases h
  rename_i repo hrepo
  split at h
  · cases h
  rename_i order' hresolve
  cases h
  obtain ⟨s, -, hsound, rfl⟩ := Repo.exists_visit_of_resolve hresolve
  exact hsound.nodup

/-! ## Requests -/

inductive Request
  | install (name : Str)
  | upgrade (name : Str)

def perform (e : PkgEngine) (d : PkgDisk) (index sig : Bytes) (fetch : Fetch) :
    Request → Except PkgError (List Step) × PkgDisk
  | .install name => e.installFromIndex d index sig name fetch
  | .upgrade name => e.upgrade d index sig name fetch

/-- An upgrade takes the first entry of the name, if its version is higher than that of the first
row. -/
def planUpgrade (entries : List PkgIndexEntry) (installed : List Installed) (fetch : Fetch)
    (name : Str) : List Planned :=
  match entries.find? (·.name = name), installed.find? (·.name = name) with
  | some entry, some row =>
    match Version.parse row.version, Version.parse entry.version, fetch [] entry.file with
    | some current, some version, some bytes =>
      if version.key ≤ current.key then [] else [⟨name, version, entry, bytes⟩]
    | _, _, _ => []
  | _, _ => []

/-- The packages that a request fetches, from the index, the rows that are installed and the
repository's answers. -/
def planRequest (e : PkgEngine) (installed : List Installed) (index sig : Bytes) (fetch : Fetch) :
    Request → List Planned
  | .install name =>
    match e.parseSignedIndex index sig with
    | .error _ => []
    | .ok entries =>
      match resolveIndex entries name with
      | .error _ => []
      | .ok order => plan entries installed fetch order []
  | .upgrade name =>
    match e.parseSignedIndex index sig with
    | .error _ => []
    | .ok entries => planUpgrade entries installed fetch name

theorem upgrade_ok {index sig : Bytes} (hentries : e.parseSignedIndex index sig = .ok entries)
    (h : e.upgrade d index sig name fetch = (.ok steps, d')) :
    (steps = [] ∧ d' = d ∧ planUpgrade entries (e.registry d) fetch name = []) ∨
      ∃ version entry bytes info d₁, e.installPackage d bytes entry.deps = (.ok info, d₁) ∧
        entry ∈ entries ∧ steps = [⟨name, version, entry, info, d, d₁⟩] ∧ d' = e.gc d₁ ∧
        planUpgrade entries (e.registry d) fetch name = [⟨name, version, entry, bytes⟩] := by
  rw [upgrade, hentries] at h
  dsimp only at h
  unfold planUpgrade
  split at h
  · cases h
  · cases h
  rename_i entry row hentry hrow
  rw [hentry, hrow]
  split at h
  · rename_i current version hcurrent hversion
    simp only [hcurrent, hversion]
    split at h
    · rename_i hle
      cases h
      left
      cases fetch [] entry.file <;> simp [hle]
    rename_i hle
    split at h
    · cases h
    rename_i bytes hbytes
    split at h
    · cases h
    rename_i info d₁ hinstall
    cases h
    right
    simp only [hbytes, if_neg hle]
    exact ⟨version, entry, bytes, info, d₁, hinstall, mem_of_find?_eq_some hentry, rfl, rfl, rfl⟩
  · cases h

/-- A request that succeeds wrote the packages that were chosen, left the rows of other packages
as they were and lowered no version exactly if the signed packages that came are the chosen ones.
Nothing in the engine compares them. -/
theorem perform_faithful_iff (e : PkgEngine) (d d' : PkgDisk) (index sig : Bytes) (fetch : Fetch)
    (request : Request) (steps : List Step) (hunlinked : d.Unlinked e.registryPath)
    (h : e.perform d index sig fetch request = (.ok steps, d')) :
    (Chained e (e.registry d) steps (e.registry d') ∧
      steps.map (fun s => (s.name, s.version)) =
        (e.planRequest (e.registry d) index sig fetch request).map fun p => (p.name, p.version)) ∧
    ((∀ s ∈ steps, s.Faithful e) ↔
      (∀ p ∈ e.planRequest (e.registry d) index sig fetch request, p.Agrees e (e.registry d)) ∧
        Rewritable e (e.registry d) (e.planRequest (e.registry d) index sig fetch request)) := by
  cases request with
  | install name =>
    rw [perform, installFromIndex] at h
    split at h
    · cases h
    rename_i entries hentries
    split at h
    · cases h
    rename_i order horder
    have hplan : e.planRequest (e.registry d) index sig fetch (.install name) =
        plan entries (e.registry d) fetch order [] := by simp only [planRequest, hentries, horder]
    rw [hplan]
    exact ⟨installLoop_chained hunlinked h, installLoop_faithful_iff hunlinked
      (nodup_of_resolveIndex horder) (fun _ _ => Iff.rfl) h⟩
  | upgrade name =>
    rw [perform] at h
    rw [planRequest]
    cases hentries : e.parseSignedIndex index sig with
    | error err =>
      rw [upgrade, hentries] at h
      cases h
    | ok entries =>
      dsimp only
      rcases upgrade_ok hentries h with ⟨rfl, rfl, hplan⟩ |
        ⟨version, entry, bytes, info, d₁, hinstall, -, rfl, rfl, hplan⟩
      · rw [hplan]
        exact ⟨⟨rfl, rfl⟩, fun _ => ⟨by simp, by simp, by simp⟩, by simp⟩
      have hinstalled := (installPackage_ok hunlinked hinstall).2.1
      have hgc := registry_of_keeps hinstalled (keeps_gc hinstalled)
      have hstep :=
        faithful_iff (s := ⟨name, version, entry, info, d, d₁⟩) hunlinked hinstall
      rw [hplan, hgc, forall_mem_singleton, forall_mem_singleton, hstep]
      refine ⟨⟨⟨rfl, rfl⟩, rfl⟩, and_congr_right fun _ => ?_⟩
      exact ⟨fun hstable => ⟨by simpa using hstable, by simp⟩,
        fun hrewritable => hrewritable.first _ rfl⟩

end PkgEngine

namespace PkgEngine

variable {e : PkgEngine} {d d' : PkgDisk} {info : PkgMeta}

theorem installFromIndex_one (fetch : Fetch)
    (hentries : e.parseSignedIndex index sig = .ok entries)
    (horder : resolveIndex entries name = .ok [(name, version)])
    (hnew : (e.registry d).any (fun r => r.name = name ∧
      r.version = version.toStringDotted) = false)
    (hentry : entries.find? (·.name = name) = some entry)
    (hbytes : fetch [] entry.file = some bytes)
    (hinstall : e.installPackage d bytes entry.deps = (.ok info, d')) :
    e.perform d index sig fetch (.install name) =
        (.ok [⟨name, version, entry, info, d, d'⟩], d') ∧
      e.planRequest (e.registry d) index sig fetch (.install name) =
        [⟨name, version, entry, bytes⟩] := by
  simp only [perform, installFromIndex, planRequest, plan, hentries, horder, installLoop, hnew,
    hentry, hbytes, hinstall, Bool.false_eq_true, if_false, and_self]

theorem upgrade_one (fetch : Fetch) (hentries : e.parseSignedIndex index sig = .ok entries)
    (hentry : entries.find? (·.name = name) = some entry)
    (hrow : (e.registry d).find? (·.name = name) = some row)
    (hcurrent : Version.parse row.version = some current)
    (hversion : Version.parse entry.version = some version)
    (hhigher : ¬ version.key ≤ current.key) (hbytes : fetch [] entry.file = some bytes)
    (hinstall : e.installPackage d bytes entry.deps = (.ok info, d')) :
    e.perform d index sig fetch (.upgrade name) =
        (.ok [⟨name, version, entry, info, d, d'⟩], e.gc d') ∧
      e.planRequest (e.registry d) index sig fetch (.upgrade name) =
        [⟨name, version, entry, bytes⟩] := by
  simp [perform, upgrade, planRequest, planUpgrade, hentries, hentry, hrow, hcurrent, hversion, hhigher,
    hbytes, hinstall]

end PkgEngine

/-! ## A small repository -/

namespace ZipRead

def localRecord (entry : ZipEntry) : Bytes :=
  le 4 lfhSig ++ List.replicate 10 0 ++ le 4 (crc32 entry.data).toNat ++ le 4 entry.data.length ++
    le 4 entry.data.length ++ le 2 entry.name.bytes.length ++ le 2 0 ++ entry.name.bytes ++
    entry.data

def centralRecord (entry : ZipEntry) (offset : Nat) : Bytes :=
  le 4 cdirSig ++ List.replicate 12 0 ++ le 4 (crc32 entry.data).toNat ++
    le 4 entry.data.length ++ le 4 entry.data.length ++ le 2 entry.name.bytes.length ++
    List.replicate 12 0 ++ le 4 offset ++ entry.name.bytes

def centralRecords : List ZipEntry → Nat → Bytes
  | [], _ => []
  | entry :: entries, offset =>
    centralRecord entry offset ++ centralRecords entries (offset + (localRecord entry).length)

def archive (entries : List ZipEntry) : Bytes :=
  let files := entries.flatMap localRecord
  let directory := centralRecords entries 0
  files ++ directory ++ le 4 eocdSig ++ List.replicate 6 0 ++ le 2 entries.length ++
    le 4 directory.length ++ le 4 files.length ++ le 2 0

end ZipRead

def checksum (data : Bytes) : UInt8 := data.foldl (fun sum b => sum * 31 + b) 7

def checksumCrypto : PkgCrypto where
  verify data sig := sig = [checksum data]
  sha256 data := Vector.replicate 32 (checksum data)

def sampleBin : Bytes := [1, 2, 3]

def sampleInfo (name version : String) : PkgMeta where
  name := name.toList
  version := version.toList
  binary := "main".toList
  binarySha256 := hex (checksumCrypto.sha256 sampleBin).toList
  kind := "lib".toList
  title := name.toList
  caps := []
  profile := "full".toList
  display := "none".toList
  args := []
  abi := "linux".toList

def sampleManifest (name version : String) : Bytes :=
  Str.bytes (("name = \"" ++ name ++ "\"\nversion = \"" ++ version ++
    "\"\nbinary = \"main\"\nbinary_sha256 = \"").toList ++
      (sampleInfo name version).binarySha256 ++ "\"\n".toList)

def samplePackage (name version : String) : Bytes :=
  ZipRead.archive
    [⟨"MANIFEST.toml".toList, sampleManifest name version⟩,
      ⟨"signature.ed25519".toList, [checksum (sampleManifest name version)]⟩,
      ⟨"main".toList, sampleBin⟩]

/-- An index of packages with their versions and dependencies; each file has the name of its
package. -/
def sampleIndex (entries : List (String × String × String)) : Bytes :=
  Str.bytes ("\x7b\"packages\":[".toList ++ [','].intercalate (entries.map fun (name, version, deps) =>
    ("\x7b\"name\":\"" ++ name ++ "\",\"version\":\"" ++ version ++ "\",\"file\":\"" ++ name ++
      "\",\"deps\":[" ++ deps ++ "]\x7d").toList) ++ "]\x7d".toList)

namespace PkgEngine

def sampleEngine : PkgEngine where
  crypto := checksumCrypto
  root := "/pkg".toList
  binDir := "/bin".toList
  oneLine := by decide
  apart := by
    intro name h
    simp at h

theorem verifyPackage_new : verifyPackage sampleEngine.crypto (samplePackage "app" "2.0.0") =
    .ok (sampleInfo "app" "2.0.0", sampleBin) := by decide +kernel

theorem verifyPackage_old : verifyPackage sampleEngine.crypto (samplePackage "app" "0.9.0") =
    .ok (sampleInfo "app" "0.9.0", sampleBin) := by decide +kernel

def sampleDisk : PkgDisk where
  files := update (fun _ => none) sampleEngine.registryPath
    (some (Str.bytes "app\t1.0.0\t00\t/bin/app\t\n".toList))
  links _ := none
  faults := []

/-- A request with an index that offers version 2.0.0, to a repository that has another one. -/
def sampleRun (version : String) (request : Request) : Except PkgError (List Step) × PkgDisk :=
  sampleEngine.perform sampleDisk (sampleIndex [("app", "2.0.0", "")])
    [checksum (sampleIndex [("app", "2.0.0", "")])]
    (fun _ _ => some (samplePackage "app" version)) request

def versions (e : PkgEngine) (d : PkgDisk) : List (Str × Str) :=
  (e.registry d).map fun r => (r.name, r.version)

theorem sampleDisk_unlinked : sampleDisk.Unlinked sampleEngine.registryPath :=
  ⟨rfl, fun _ h => by cases h⟩

def sampleEntry : PkgIndexEntry := ⟨"app".toList, "2.0.0".toList, "app".toList, []⟩

theorem parseSignedIndex_sample : sampleEngine.parseSignedIndex (sampleIndex [("app", "2.0.0", "")])
    [checksum (sampleIndex [("app", "2.0.0", "")])] = .ok [sampleEntry] := by decide +kernel

theorem resolveIndex_sample :
    resolveIndex [sampleEntry] "app".toList = .ok [("app".toList, ⟨2, 0, 0⟩)] := by decide +kernel

theorem find_sampleEntry : [sampleEntry].find? (·.name = "app".toList) = some sampleEntry := by
  decide +kernel

def sampleOld : Installed where
  name := "app".toList
  version := "1.0.0".toList
  hash := "00".toList
  bin := "/bin/app".toList
  deps := []
  kind := "lib".toList
  title := "app".toList
  caps := []
  profile := "full".toList
  display := "none".toList
  args := []
  abi := "linux".toList

theorem registry_sampleDisk : sampleEngine.registry sampleDisk = [sampleOld] := by decide +kernel

/-- Installing the version that the index offers. -/
theorem perform_faithful_iff_newVersion :
    ∃ steps d', sampleRun "2.0.0" (.install "app".toList) = (.ok steps, d') ∧
      sampleEngine.versions d' = [("app".toList, "2.0.0".toList)] ∧
      ∀ s ∈ steps, s.Faithful sampleEngine := by
  obtain ⟨d', hinstall, -⟩ := installPackage_of_noFaults (e := sampleEngine) (d := sampleDisk)
    verifyPackage_new sampleEntry.deps rfl
  have hskip : (sampleEngine.registry sampleDisk).any (fun r => r.name = "app".toList ∧
      r.version = Version.toStringDotted ⟨2, 0, 0⟩) = false := by decide +kernel
  obtain ⟨hrun, hplan⟩ := installFromIndex_one (fun _ _ => some (samplePackage "app" "2.0.0"))
    parseSignedIndex_sample resolveIndex_sample hskip find_sampleEntry rfl hinstall
  have hrows := (installPackage_ok sampleDisk_unlinked hinstall).2.2
  have hback : (sampleEngine.newRow (sampleInfo "app" "2.0.0") sampleEntry.deps).readBack =
      [sampleEngine.newRow (sampleInfo "app" "2.0.0") []] := by decide +kernel
  have hrow : Planned.row sampleEngine
      ⟨"app".toList, ⟨2, 0, 0⟩, sampleEntry, samplePackage "app" "2.0.0"⟩ =
        some (sampleEngine.newRow (sampleInfo "app" "2.0.0") []) :=
    Planned.row_of_verifyPackage verifyPackage_new
  refine ⟨_, d', hrun, ?_, ?_⟩
  · rw [versions, hrows, registry_sampleDisk, hback]
    decide +kernel
  · refine (perform_faithful_iff sampleEngine sampleDisk d' _ _ _ _ _ sampleDisk_unlinked hrun).2.mpr ?_
    rw [hplan, registry_sampleDisk, forall_mem_singleton]
    exact ⟨⟨⟨_, hrow, by decide +kernel⟩, by decide +kernel⟩, by decide +kernel, by simp⟩

/-- A repository that still has an old package makes an upgrade lower the version. -/
theorem upgrade_lowers_version :
    ∃ steps d', sampleRun "0.9.0" (.upgrade "app".toList) = (.ok steps, d') ∧
      sampleEngine.versions sampleDisk = [("app".toList, "1.0.0".toList)] ∧
      sampleEngine.versions d' = [("app".toList, "0.9.0".toList)] ∧
      ¬ ∀ s ∈ steps, s.Faithful sampleEngine := by
  obtain ⟨d', hinstall, -⟩ := installPackage_of_noFaults (e := sampleEngine) (d := sampleDisk)
    verifyPackage_old sampleEntry.deps rfl
  have hfound : [sampleOld].find? (·.name = "app".toList) = some sampleOld := by decide +kernel
  have hcurrent : Version.parse sampleOld.version = some ⟨1, 0, 0⟩ := by decide +kernel
  have hoffered : Version.parse sampleEntry.version = some ⟨2, 0, 0⟩ := by decide +kernel
  have hhigher : ¬ Version.key ⟨2, 0, 0⟩ ≤ Version.key ⟨1, 0, 0⟩ := by decide +kernel
  obtain ⟨hrun, -⟩ := upgrade_one (fun _ _ => some (samplePackage "app" "0.9.0"))
    parseSignedIndex_sample find_sampleEntry (registry_sampleDisk ▸ hfound) hcurrent hoffered hhigher
    rfl hinstall
  obtain ⟨-, hunlinked, hrows⟩ := installPackage_ok sampleDisk_unlinked hinstall
  have hback : (sampleEngine.newRow (sampleInfo "app" "0.9.0") sampleEntry.deps).readBack =
      [sampleEngine.newRow (sampleInfo "app" "0.9.0") []] := by decide +kernel
  refine ⟨_, _, hrun, ?_, ?_, ?_⟩
  · rw [versions, registry_sampleDisk]
    decide +kernel
  · rw [versions, registry_of_keeps hunlinked (keeps_gc hunlinked), hrows, registry_sampleDisk, hback]
    decide +kernel
  · rw [forall_mem_singleton]
    intro hfaithful
    have hparsed : Version.parse "0.9.0".toList = some ⟨2, 0, 0⟩ := hfaithful.package.2
    exact absurd hparsed (by decide +kernel)

end PkgEngine

/-! ## The registry as a whole -/

theorem flatMap_eq_self_iff {α : Type} {f : α → List α} {l : List α} (hne : ∀ a ∈ l, f a ≠ []) :
    l.flatMap f = l ↔ ∀ a ∈ l, f a = [a] := by
  induction l with
  | nil => simp
  | cons a l ih =>
    have hrest : ∀ b ∈ l, f b ≠ [] := fun b hb => hne b (mem_cons_of_mem _ hb)
    have hlength : l.length ≤ (l.flatMap f).length := by
      rw [length_flatMap, ← length_map fun b => (f b).length]
      refine length_le_sum_of_one_le _ (forall_mem_map.mpr fun b hb => ?_)
      exact length_pos_of_ne_nil (hrest b hb)
    obtain ⟨b, bs, hfirst⟩ := exists_cons_of_ne_nil (hne a (mem_cons_self ..))
    rw [flatMap_cons, forall_mem_cons, ← ih hrest, hfirst, cons_append]
    constructor
    · intro h
      obtain ⟨rfl, htail⟩ := cons_eq_cons.mp h
      have hsum := congrArg List.length htail
      rw [length_append] at hsum
      obtain rfl : bs = [] := eq_nil_of_length_eq_zero (by omega)
      exact ⟨rfl, htail⟩
    · rintro ⟨h, hflat⟩
      rw [← cons_append, h, hflat, singleton_append]

namespace Installed

variable {r : Installed}

theorem readBack_eq_iff (h : r.Fresh) : r.readBack = [r] ↔ r.Tidy := by
  constructor
  · intro hback
    have hdeps : '\n' ∉ r.joined := by
      intro hfeed
      have htwo := two_le_length_readBack h hfeed
      rw [hback, length_singleton] at htwo
      omega
    obtain ⟨row, hrow, -⟩ := parseLine_of_fresh h.name
    have hself := readBack_of_parseLine h hdeps hrow
    rw [hback, singleton_inj] at hself
    subst hself
    exact tidy_of_parseLine hrow (by simp [line_eq_front_back, h.front, h.back, hdeps])
  · intro htidy
    rw [readBack_of_tidy htidy, withoutCr, h.abi]

theorem readBack_ne_nil (h : r.Fresh) : r.readBack ≠ [] := by
  by_cases hdeps : '\n' ∈ r.joined
  · have htwo := two_le_length_readBack h hdeps
    exact ne_nil_of_length_pos (by omega)
  · obtain ⟨row, hback, -⟩ := readBack_of_fresh h hdeps
    simp [hback]

/-- No field contains a separator, and the dependencies can be told from none. -/
structure Separable (r : Installed) : Prop where
  fields : ∀ f ∈ r.fields, '\t' ∉ f ∧ '\n' ∉ f
  comma : ∀ dep ∈ r.deps, ',' ∉ dep
  notBlank : r.deps ≠ [[]]

theorem tidy_iff_separable : r.Tidy ↔ r.Separable := by
  constructor
  · intro h
    have hdeps := h.deps
    refine ⟨fun f hf => ⟨h.tab f hf, h.feed f hf⟩, fun dep hdep hcomma => ?_, fun hblank => ?_⟩
    · split_ifs at hdeps
      · simp [← hdeps] at hdep
      · rw [← hdeps] at hdep
        exact (mem_of_mem_splitOn hdep hcomma).2 rfl
    · simp [joined, hblank, List.intercalate] at hdeps
  · intro h
    refine ⟨fun f hf => (h.fields f hf).1, fun f hf => (h.fields f hf).2, ?_⟩
    by_cases hnil : r.deps = []
    · simp [joined, hnil, List.intercalate]
    have hsplit := splitOn_intercalate ',' h.comma hnil
    rw [if_neg, joined, hsplit]
    intro hempty
    rw [← joined, List.isEmpty_iff.mp hempty] at hsplit
    exact h.notBlank hsplit.symm

end Installed

namespace PkgEngine

/-- Rows that were made for accepted manifests are read back as they were written exactly if their
fields contain no separators. -/
theorem registry_saveRegistry_iff (e : PkgEngine) (d : PkgDisk) (rows : List Installed)
    (hrows : ∀ r ∈ rows, ∃ toml info deps, parseManifest toml = some info ∧ r = e.newRow info deps)
    (hwritten : (e.saveRegistry d rows).1 = true) :
    e.registry (e.saveRegistry d rows).2 = rows ↔ ∀ r ∈ rows, r.Separable := by
  have hfresh : ∀ r ∈ rows, r.Fresh := by
    intro r hr
    obtain ⟨toml, info, deps, hparse, rfl⟩ := hrows r hr
    exact newRow_fresh (wellFormed_of_parseManifest hparse) deps
  have hread : e.registry (e.saveRegistry d rows).2 = rows.flatMap Installed.readBack := by
    obtain ⟨hno, -⟩ | ⟨-, heq⟩ := PkgDisk.write_eq d e.registryPath (Str.bytes (formatRegistry rows))
    · rw [saveRegistry, hno] at hwritten
      cases hwritten
    · rw [registry, saveRegistry, heq]
      simp [PkgDisk.read, PkgDisk.target, fromUtf8Lossy_bytes, parseRegistry_formatRegistry]
  rw [hread, flatMap_eq_self_iff fun r hr => Installed.readBack_ne_nil (hfresh r hr)]
  refine forall₂_congr fun r hr => ?_
  rw [Installed.readBack_eq_iff (hfresh r hr), Installed.tidy_iff_separable]

def titledManifest (title : String) : Str :=
  ("name = \"app\"\nversion = \"1\"\nbinary = \"a\"\nbinary_sha256 = \"0\"\ntitle = \"" ++ title ++
    "\"\n").toList

def titledInfo (title : String) : PkgMeta :=
  { sampleInfo "app" "1" with binary := ['a'], binarySha256 := ['0'], title := title.toList }

theorem registry_saveRegistry_iff_titled :
    sampleEngine.registry (sampleEngine.saveRegistry sampleDisk
        [sampleEngine.newRow (titledInfo "My notes") ["lib".toList]]).2 =
      [sampleEngine.newRow (titledInfo "My notes") ["lib".toList]] := by
  refine (registry_saveRegistry_iff sampleEngine sampleDisk _ ?_ rfl).mpr ?_
  · rw [forall_mem_singleton]
    exact ⟨titledManifest "My notes", _, _, by decide +kernel, rfl⟩
  · rw [forall_mem_singleton]
    exact ⟨forall_mem_of_all (by decide +kernel), forall_mem_of_all (by decide +kernel), by decide⟩

/-- A title with a tab in it moves the fields behind it. -/
theorem tab_in_title_moves_fields :
    parseManifest (titledManifest "My\tnotes") = some (titledInfo "My\tnotes") ∧
      (sampleEngine.saveRegistry sampleDisk [sampleEngine.newRow (titledInfo "My\tnotes") []]).1 =
        true ∧
      (sampleEngine.registry (sampleEngine.saveRegistry sampleDisk
        [sampleEngine.newRow (titledInfo "My\tnotes") []]).2).map (fun r => (r.title, r.caps)) =
          [("My".toList, "notes".toList)] := by decide +kernel

end PkgEngine

end EuroOS
