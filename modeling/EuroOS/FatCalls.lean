import EuroOS.FatOperations

/-!
# The operations of the interface

What each operation of the FAT driver does to the ownership record, on every
path through it.  The one path that loses a file's chain is an overwrite that
frees the old clusters and then finds too few free ones.
-/

namespace EuroOS.Fat

open List Action FatFs

variable {fs fs' : FatFs} {slot : Slot} {l : List Nat}

/-! ## Entries that are found -/

theorem proper_of_findGroup {groups : List Group} (h : findGroup groups name = some g) :
    Proper name := by
  by_contra hproper
  rw [findGroup_improper hproper] at h
  cases h

theorem dirGroups_congr (hbpb : fs'.bpb = fs.bpb)
    (hentry : ∀ slot ∈ fs.bpb.slots (l.take slotGuard), fs'.entryAt slot = fs.entryAt slot) :
    fs'.dirGroups l = fs.dirGroups l := by
  have hplaced : fs'.placed (fs.bpb.slots (l.take slotGuard)) =
      fs.placed (fs.bpb.slots (l.take slotGuard)) :=
    map_congr_left fun slot hslot => by rw [hentry slot hslot]
  unfold dirGroups groups
  rw [hbpb, hplaced]

structure Keeps (fs fs' : FatFs) (G : Owners) : Prop where
  bpb : fs'.bpb = fs.bpb
  sector : ∀ h, G.IsHead h → ∀ c ∈ G.chain h, ∀ lba ∈ fs.bpb.clusterSectors c,
    fs'.dev.sector lba = fs.dev.sector lba

theorem Keeps.entryAt_eq (hk : Keeps fs fs' G) (hd : d ∈ G.dirs)
    (hslot : slot ∈ fs.bpb.slots (G.chain d)) : fs'.entryAt slot = fs.entryAt slot := by
  obtain ⟨⟨c, hc, hlba⟩, -⟩ := Bpb.mem_slots.mp hslot
  exact entryAt_congr (hk.sector d (.inl hd) c hc _ hlba)

theorem Keeps.dirGroups_eq (hk : Keeps fs fs' G) (hd : d ∈ G.dirs) :
    fs'.dirGroups (G.chain d) = fs.dirGroups (G.chain d) := by
  refine dirGroups_congr hk.bpb fun slot hslot => hk.entryAt_eq hd ?_
  exact Bpb.slots_mono (fun c hc => mem_of_mem_take hc) hslot

theorem FoundAt.findEntrySlots_eq (hg : FoundAt fs G d name g) (hi : Inv fs G X) (hd : d ∈ G.dirs) :
    fs.findEntrySlots d name = .ok (g.slot, g.lfn.map Prod.fst) := by
  rw [(hi.dirChain hd).findEntrySlots_eq hi.sound (proper_of_findGroup hg.found), hg.found]

def Group.slots (g : Group) : List Slot := g.lfn.map Prod.fst ++ [g.slot]

theorem deleteEntry_spec (hi : Inv fs G X) (hd : d ∈ G.dirs) (hg : FoundAt fs G d name g) :
    ∃ fs', deleteEntry d name fs = (.ok (), fs') ∧ Inv fs' G (X \ {g.slot}) := by
  have hslots : ∀ s ∈ g.slots, s ∈ fs.bpb.slots ((G.chain d).take slotGuard) ∧
      ¬ (fs.entryAt s).Dot := by
    intro s hs
    rcases mem_append.mp hs with hs | hs
    · obtain ⟨e, he, rfl⟩ := mem_map.mp hs
      obtain ⟨hslot, hentry, hfragment⟩ :=
        fragment_of_mem_lfn (mem_of_findGroup hg.found).1 he
      refine ⟨hslot, fun hdot => ?_⟩
      rw [hentry, hdot.named.notFragment] at hfragment
      cases hfragment
    · obtain rfl := mem_singleton.mp hs
      exact ⟨hg.slot_mem, fun hdot => hg.live.live.notDot hdot.dot⟩
  obtain ⟨fs', heach, hinv⟩ := hi.deleteSlots hd hslots
  refine ⟨fs', ?_, hinv.exempt ?_⟩
  · unfold deleteEntry
    rw [read_bind fs (hg.findEntrySlots_eq hi hd)]
    exact heach
  · rintro s ⟨hs, hnot⟩
    refine ⟨hs, ?_⟩
    rintro rfl
    exact hnot (by simp [Group.slots])

theorem updateEntry_spec (hi : Inv fs G X) (hd : d ∈ G.dirs) (hg : FoundAt fs G d name g)
    (hfirst : first < 2 ^ 32) (hsize : size < 2 ^ 32)
    (hrefers : ∀ e : Entry, e.isDir = g.entry.isDir → e.first = first → e.size = size →
      Refers fs.bpb G e)
    (hunref : ∀ slot, LiveAt fs G slot → slot ∉ X → (fs.entryAt slot).first = first → first = 0) :
    ∃ fs', updateEntry d name first size fs = (.ok (), fs') ∧ Inv fs' G (X \ {g.slot}) := by
  obtain ⟨halign, hdata, hlba⟩ := hi.slot_range hd hg.slot_mem
  obtain ⟨sec, e, hsec, hrewrites, hupdated⟩ := updateSlot_spec hi.sound halign hdata hfirst hsize
  have hkind : e.isDir = (fs.entryAt g.slot).isDir := by
    unfold Entry.isDir
    rw [hupdated.kept 11 (by decide)]
  have hinv := hi.writeEntry hd hg.slot_mem hrewrites.changes hrewrites.other
    (fun hdot => hg.live.live.notDot hdot.dot)
    (by
      rw [hrewrites.entry]
      intro hdot
      have hfirstByte := hdot.dot
      rw [hupdated.kept 0 (by decide)] at hfirstByte
      exact hg.live.live.notDot hfirstByte)
    (by
      rw [hrewrites.entry, hupdated.first_eq]
      refine fun _ => ⟨hrefers e (by rw [hkind, hg.entry_eq]) hupdated.first_eq hupdated.size_eq,
        fun s hs _ hX hsame => hunref s hs hX hsame⟩)
  refine ⟨_, ?_, hinv⟩
  unfold updateEntry
  rw [read_bind fs (hg.findEntrySlots_eq hi hd)]
  show (read (rsec · g.slot.1) >>= _) fs = _
  rw [read_bind fs (hi.sound.rsec_eq hlba), hsec]
  exact wsec_eq hi.sound.faultFree hlba

/-! ## Chains -/

theorem Inv.keeps (hi : Inv fs G X) (hchanges : Changes fs fs' F S)
    (hS : ∀ lba ∈ S, ∃ k, InVolume fs.bpb k ∧ (∀ h, G.IsHead h → k ∉ G.chain h) ∧
      lba ∈ fs.bpb.clusterSectors k) :
    Keeps fs fs' G := by
  refine ⟨hchanges.bpb, fun h hh c hc lba hlba => ?_⟩
  refine hchanges.data lba (Bpb.dataStart_le_of_mem hlba) fun hmem => ?_
  obtain ⟨k, hk, hnot, hlba'⟩ := hS lba hmem
  exact hi.not_mem_sectors hk hh (hnot h hh) hc hlba hlba'

theorem Inv.apart_frame (hi : Inv fs G X) (hchanges : Changes fs fs' F S)
    (hF : ∀ k ∈ F, ∀ h, G.IsHead h → k ∉ G.chain h)
    (hS : ∀ lba ∈ S, ∃ k, InVolume fs.bpb k ∧ (∀ h, G.IsHead h → k ∉ G.chain h) ∧
      lba ∈ fs.bpb.clusterSectors k) :
    Inv fs' G X := by
  refine hi.frame hchanges (fun h hh c hc hmem => hF c hmem h hh hc) fun d hd c hc lba hlba hmem => ?_
  obtain ⟨k, hk, hnot, hlba'⟩ := hS lba hmem
  exact hi.not_mem_sectors hk (.inl hd) (hnot d (.inl hd)) hc hlba hlba'

theorem freeChain_spec (hi : Inv fs G X) (hchain : fs.HasChain c l)
    (hin : ∀ k ∈ l, InVolume fs.bpb k) (hnot : ∀ k ∈ l, ∀ h, G.IsHead h → k ∉ G.chain h) :
    ∃ fs', freeChain c fs = (.ok (), fs') ∧ Inv fs' G X ∧ Keeps fs fs' G ∧
      fs.freeSet.card + (l.take (2 ^ 24)).length ≤ fs'.freeSet.card := by
  obtain ⟨fs', hfree, hchanges, hzero⟩ := freeChainFrom_spec hi.sound (2 ^ 24) hchain hin
  have htaken : ∀ k ∈ l.take (2 ^ 24), k ∈ l := fun k hk => mem_of_mem_take hk
  refine ⟨fs', hfree, hi.apart_frame hchanges (fun k hk => hnot k (htaken k hk)) (by simp),
    hi.keeps hchanges (by simp), ?_⟩
  refine card_freeSet_of_freed hchanges hi.sound ?_ (fun k hk => ?_) (fun k hk => ?_) hzero
  · exact (hchain.nodup not_isEnd_of_isCluster).sublist (take_sublist ..)
  · exact fatNext_ne_zero_of_mem hchain (htaken k hk)
  · have hvolume := hin k (htaken k hk)
    refine ⟨hvolume.two_le, hvolume.hasSectors.resolve_left ?_⟩
    rintro rfl
    exact hnot 2 (htaken 2 hk) 2 (.inl hi.root) (hi.head_mem (.inl hi.root))

structure Stored (fs fs' : FatFs) (G G' : Owners) (first : Nat) (data : Bytes) : Prop where
  keeps : Keeps fs fs' G
  dirs : G'.dirs = G.dirs
  chain_eq : ∀ h, G.IsHead h → G'.chain h = G.chain h
  small : first < 2 ^ 32
  new : first ≠ 0 → ¬ G.IsHead first
  holds : (first = 0 ∧ data = []) ∨ (data ≠ [] ∧ first ∈ G'.files ∧
    (G'.chain first).length = clustersFor fs.bpb data.length)

theorem Inv.refers_head (hi : Inv fs G X) (hlive : LiveAt fs G slot) (hX : slot ∉ X) :
    (fs.entryAt slot).first = 0 ∨ G.IsHead (fs.entryAt slot).first := by
  cases hi.refers slot hlive hX with
  | dir _ hmem _ => exact .inr (.inl hmem)
  | empty _ hzero _ => exact .inl hzero
  | file _ hmem _ => exact .inr (.inr hmem)

theorem Stored.liveAt (h : Stored fs fs' G G' first data) (hlive : LiveAt fs' G' slot) :
    LiveAt fs G slot ∧ fs'.entryAt slot = fs.entryAt slot := by
  obtain ⟨⟨d, hd, hslot⟩, hlive⟩ := hlive
  rw [h.dirs] at hd
  rw [h.keeps.bpb, h.chain_eq d (.inl hd)] at hslot
  have heq := h.keeps.entryAt_eq hd hslot
  rw [heq] at hlive
  exact ⟨⟨⟨d, hd, hslot⟩, hlive⟩, heq⟩

theorem Stored.unreferenced (h : Stored fs fs' G G' first data) (hi : Inv fs G X)
    (hlive : LiveAt fs' G' slot) (hX : slot ∉ X) (hfirst : (fs'.entryAt slot).first = first) :
    first = 0 := by
  obtain ⟨hold, heq⟩ := h.liveAt hlive
  rw [heq] at hfirst
  by_contra hne
  rcases hi.refers_head hold hX with hzero | hhead
  · exact hne (hfirst.symm.trans hzero)
  · exact h.new hne (hfirst ▸ hhead)

theorem Stored.refers (h : Stored fs fs' G G' first data) (hdir : e.isDir = false)
    (hfirst : e.first = first) (hsize : e.size = data.length) : Refers fs'.bpb G' e := by
  rcases h.holds with ⟨hzero, hdata⟩ | ⟨-, hmem, hlength⟩
  · refine .empty hdir (hfirst.trans hzero) ?_
    rw [hsize, hdata]
    rfl
  · refine .file hdir (hfirst ▸ hmem) ?_
    rw [hfirst, hsize, hlength, h.keeps.bpb]

theorem storeData_spec (hi : Inv fs G X) (data : Bytes) :
    (∃ e fs', writeNewChain data fs = (.error e, fs') ∧ Inv fs' G X ∧
      fs.freeSet.card < clustersFor fs.bpb data.length) ∨
      ∃ first fs' G', writeNewChain data fs = (.ok first, fs') ∧ Inv fs' G' X ∧
        Stored fs fs' G G' first data := by
  by_cases hdata : data = []
  · subst hdata
    exact .inr ⟨0, fs, G, writeNewChain_nil, hi, ⟨rfl, fun _ _ _ _ _ _ => rfl⟩, rfl,
      fun _ _ => rfl, by decide, fun hne => absurd rfl hne, .inl ⟨rfl, rfl⟩⟩
  rcases writeNewChain_spec hi.sound hdata with
    ⟨e, fs', cs, hwrite, htaken, hfull⟩ | ⟨c, rest, fs', hwrite, hnew⟩
  · have hnot : ∀ k ∈ cs, ∀ h, G.IsHead h → k ∉ G.chain h :=
      fun k hk h hh => hi.not_mem_of_free (htaken.free k hk) hh
    exact .inl ⟨e, fs', hwrite, hi.apart_frame htaken.changes hnot (by simp), hfull⟩
  right
  have hnot : ∀ k ∈ c :: rest, ∀ h, G.IsHead h → k ∉ G.chain h :=
    fun k hk h hh => hi.not_mem_of_free (hnew.free k hk) hh
  have hsectors : ∀ lba ∈ {lba | lba ∈ fs.bpb.sectorsOf (c :: rest)}, ∃ k, InVolume fs.bpb k ∧
      (∀ h, G.IsHead h → k ∉ G.chain h) ∧ lba ∈ fs.bpb.clusterSectors k := by
    intro lba hlba
    obtain ⟨k, hk, hlba⟩ := Bpb.mem_sectorsOf.mp hlba
    exact ⟨k, hnew.inVolume k hk, hnot k hk, hlba⟩
  have hinv := hi.apart_frame hnew.changes hnot hsectors
  have hfresh : Inv.Fresh fs' G c (c :: rest) :=
    ⟨hnew.chain c rest rfl, by simp, hnew.changes.bpb ▸ hnew.inVolume,
      fun h hh k hk => hnot k hk h hh⟩
  have hself : (G.addFile c (c :: rest)).chain c = c :: rest := Function.update_self ..
  refine ⟨c, fs', G.addFile c (c :: rest), hwrite, hinv.adoptFile hfresh,
    hi.keeps hnew.changes hsectors, rfl, fun h hh => hfresh.update_of_isHead hinv hh, ?_,
    fun _ => hfresh.not_isHead hinv, ?_⟩
  · have hcluster := hi.sound.isCluster (hnew.inVolume c (by simp))
    unfold IsCluster eoc at hcluster
    omega
  · rw [hself]
    exact .inr ⟨hdata, Set.mem_insert .., hnew.length_eq⟩

/-! ## Paths -/

theorem getLast_of_rdropWhile {s t : Str} (h : t ≠ []) (heq : s.rdropWhile (· ≠ '/') = t) :
    t.getLast h = '/' := by
  subst heq
  simpa using rdropWhile_last_not _ _ h

theorem splitPath_splitParent (path : Str) :
    splitPath path = splitPath (splitParent path).1 ++ splitPath (splitParent path).2 := by
  have hsplit := @rdropWhile_append_rtakeWhile _ (· ≠ '/') (trimEndSlash path)
  rw [← splitPath_trimEndSlash path]
  unfold splitParent
  dsimp only
  split
  next hfront =>
      rw [hfront] at hsplit
      rfl
  next hfront =>
      obtain ⟨front, c, hfc⟩ := (eq_nil_or_concat' _).resolve_left hfront
      have hc : c = '/' := by simpa using getLast_of_rdropWhile (by simp) hfc
      subst hc
      conv_lhs => rw [← hsplit, hfc, append_assoc, singleton_append, splitPath_append_cons]
      conv_rhs => rw [hfc, splitPath_append_cons]
      simp [splitPath]

theorem slash_notMem_splitParent (path : Str) : '/' ∉ (splitParent path).2 := by
  have hlast : '/' ∉ (trimEndSlash path).rtakeWhile (· ≠ '/') := by
    intro hmem
    simpa using mem_rtakeWhile_imp hmem
  have hsplit := @rdropWhile_append_rtakeWhile _ (· ≠ '/') (trimEndSlash path)
  unfold splitParent
  dsimp only
  split
  next hfront =>
      rw [hfront, nil_append] at hsplit
      rw [← hsplit]
      exact hlast
  next => exact hlast

theorem splitPath_eq_concat (hname : (splitParent path).2 ≠ []) :
    splitPath path = splitPath (splitParent path).1 ++ [(splitParent path).2] := by
  rw [splitPath_splitParent path, splitPath_of_notMem (slash_notMem_splitParent path), if_neg hname]

theorem splitParent_of_nil (hname : (splitParent path).2 = []) :
    splitPath path = [] ∧ (splitParent path).1 = ['/'] := by
  have hsplit := @rdropWhile_append_rtakeWhile _ (· ≠ '/') (trimEndSlash path)
  rw [← splitPath_trimEndSlash path]
  unfold splitParent at hname ⊢
  dsimp only at hname ⊢
  cases hfront : (trimEndSlash path).rdropWhile (· ≠ '/') with
  | nil =>
    rw [hfront] at hname
    dsimp only at hname ⊢
    rw [hname]
    exact ⟨rfl, rfl⟩
  | cons c front =>
    -- The trimmed path would end in the slash that its parent ends in.
    rw [hfront] at hname
    dsimp only at hname
    rw [hname, append_nil] at hsplit
    have hnot : ∀ (s : Str) (h : s ≠ []), trimEndSlash path = s → s.getLast h ≠ '/' := by
      rintro _ h rfl
      unfold trimEndSlash
      simpa using rdropWhile_last_not _ _ h
    exact absurd (getLast_of_rdropWhile (by simp) hfront) (hnot _ (by simp) (hsplit.symm.trans hfront))

theorem resolveFrom_append (fs : FatFs) (a b : List Str) (start : Nat × Nat × Bool) :
    fs.resolveFrom (a ++ b) start = (do
      let found ← fs.resolveFrom a start
      fs.resolveFrom b found) := by
  induction a generalizing start with
  | nil => rfl
  | cons part a ih =>
    obtain ⟨cluster, size, isDir⟩ := start
    cases isDir with
    | false => rfl
    | true =>
      simp only [cons_append, resolveFrom]
      cases fs.findInDir cluster part with
      | error e => rfl
      | ok found => exact ih _

theorem resolve_eq (hname : (splitParent path).2 ≠ []) :
    fs.resolve path = (do
      let found ← fs.resolve (splitParent path).1
      fs.resolveFrom [(splitParent path).2] found) := by
  unfold resolve
  rw [splitPath_eq_concat hname, resolveFrom_append]

/-! ## Files -/

theorem parentDir_spec (hi : Inv fs G ∅) (path : Str) :
    (∃ e, parentDir path fs = (.error e, fs)) ∨
      ∃ d ∈ G.dirs, parentDir path fs = (.ok d, fs) ∧
        ∃ size, fs.resolve (splitParent path).1 = .ok (d, size, true) := by
  unfold parentDir
  cases hresolve : fs.resolve (splitParent path).1 with
  | error e => exact .inl ⟨e, read_bind_of_error fs hresolve _⟩
  | ok found =>
    obtain ⟨d, size, isDir⟩ := found
    rw [read_bind fs hresolve]
    cases isDir with
    | false => exact .inl ⟨_, rfl⟩
    | true => exact .inr ⟨d, hi.resolve_dir hresolve, rfl, size, rfl⟩

theorem lookup_spec (hi : Inv fs G X) (hd : d ∈ G.dirs) (name : Str) :
    FatFs.lookup d name fs = (.ok none, fs) ∨
      ∃ g, FoundAt fs G d name g ∧ FatFs.lookup d name fs =
        (.ok (some (g.entry.first, g.entry.size, g.entry.isDir)), fs) := by
  have hfind := (hi.dirChain hd).findInDir_eq hi.sound name
  unfold FatFs.lookup
  cases hg : findGroup (fs.dirGroups (G.chain d)) name with
  | none =>
    rw [hg] at hfind
    exact .inl (by rw [hfind])
  | some g =>
    rw [hg] at hfind
    exact .inr ⟨g, hi.foundAt hd hg, by rw [hfind]⟩

theorem Inv.not_file_zero (hi : Inv fs G X) : 0 ∉ G.files := by
  intro hzero
  have htwo := (hi.inVolume 0 (.inr hzero) 0 (hi.head_mem (.inr hzero))).two_le
  omega

/-- The old chain of a file is freed; its entry is exempt until it is rewritten. -/
structure Freed (fs freed : FatFs) (G : Owners) (d : Nat) (name : Str) (g : Group) : Prop where
  inv : Inv freed (G.dropFile g.entry.first) {g.slot}
  keeps : Keeps fs freed (G.dropFile g.entry.first)
  found : FoundAt freed (G.dropFile g.entry.first) d name g
  room : 2 ≤ g.entry.first →
    fs.freeSet.card + (fs.walk (2 ^ 24) g.entry.first).length ≤ freed.freeSet.card

theorem freeFile_spec (hi : Inv fs G ∅) (hd : d ∈ G.dirs) (hg : FoundAt fs G d name g)
    (hfile : g.entry.isDir = false) :
    (g.entry.first < 2 ∧ G.dropFile g.entry.first = G ∧ Freed fs fs G d name g) ∨
      (2 ≤ g.entry.first ∧ ∃ freed, freeChain g.entry.first fs = (.ok (), freed) ∧
        Freed fs freed G d name g) := by
  have hrefers := hi.refers g.slot hg.live (Set.notMem_empty _)
  have hexempt := hi.exempt (Set.empty_subset {g.slot})
  rw [← hg.entry_eq] at hrefers
  cases hrefers with
  | dir hdir _ _ =>
    rw [hfile] at hdir
    cases hdir
  | empty _ hzero _ =>
    have hsame : G.dropFile g.entry.first = G := by
      unfold Owners.dropFile
      rw [hzero, Set.sdiff_singleton_eq_self hi.not_file_zero]
    refine .inl ⟨by omega, hsame, ?_⟩
    refine ⟨hsame.symm ▸ hexempt, ⟨rfl, fun _ _ _ _ _ _ => rfl⟩, hsame.symm ▸ hg, fun htwo => ?_⟩
    omega
  | file _ hmem _ =>
    right
    have hhead : G.IsHead g.entry.first := .inr hmem
    have htwo := (hi.inVolume _ hhead _ (hi.head_mem hhead)).two_le
    have hdropped := hexempt.abandonFile (c := g.entry.first) fun slot hlive hX hsame => hX <|
      hi.unique slot g.slot hlive hg.live (Set.notMem_empty _) (Set.notMem_empty _)
        (by rw [hsame, hg.entry_eq]) (by rw [hsame]; omega)
    have hapart : ∀ k ∈ G.chain g.entry.first, ∀ h, (G.dropFile g.entry.first).IsHead h →
        k ∉ G.chain h := by
      rintro k hk h hh hk'
      have hold : G.IsHead h := hh.imp_right fun hmem => hmem.1
      obtain rfl := hi.disjoint _ h hhead hold k hk hk'
      rcases hh with hdir | hdropped
      · exact hi.apart _ hdir hmem
      · exact hdropped.2 rfl
    obtain ⟨freed, hfree, hinv, hkeeps, hroom⟩ := freeChain_spec hdropped (hi.chain _ hhead)
      (hi.inVolume _ hhead) hapart
    refine ⟨htwo, freed, hfree, hinv, hkeeps, ?_, fun _ => ?_⟩
    · refine hinv.foundAt hd ?_
      have hgroups : freed.dirGroups (G.chain d) = fs.dirGroups (G.chain d) :=
        hkeeps.dirGroups_eq hd
      exact (congrArg (findGroup · name) hgroups).trans hg.found
    · rw [walk_eq_take (hi.chain _ hhead)]
      exact hroom

def Owned (fs : FatFs) : Prop := ∃ G, Inv fs G ∅

theorem overwrite_spec (hd : d ∈ G.dirs) (hf : Freed fs freed G d name g)
    (hfile : g.entry.isDir = false) (hsize : data.length < 2 ^ 32) :
    let rewrite : Action FatFs Unit := do
      let first ← writeNewChain data
      updateEntry d name first (data.length % 2 ^ 32)
    (∃ e fs', rewrite freed = (.error e, fs') ∧ writeNewChain data freed = (.error e, fs') ∧
      freed.freeSet.card < clustersFor fs.bpb data.length) ∨
      Owned (rewrite freed).2 := by
  intro rewrite
  rcases storeData_spec hf.inv data with
    ⟨e, fs', hwrite, -, hfull⟩ | ⟨first, stored, G', hwrite, hinv, hstored⟩
  · exact .inl ⟨e, fs', bind_of_error hwrite _, hwrite, hf.keeps.bpb ▸ hfull⟩
  right
  have hd' : d ∈ G'.dirs := hstored.dirs ▸ hd
  have hgroups : stored.dirGroups (G'.chain d) =
      freed.dirGroups ((G.dropFile g.entry.first).chain d) := by
    rw [hstored.chain_eq d (.inl hd)]
    exact hstored.keeps.dirGroups_eq hd
  have hg : FoundAt stored G' d name g :=
    hinv.foundAt hd' ((congrArg (findGroup · name) hgroups).trans hf.found.found)
  obtain ⟨fs', hupdate, hinv'⟩ := updateEntry_spec hinv hd' hg hstored.small
    hsize (fun e hdir hfirst hlength => hstored.refers (hdir.trans hfile) hfirst hlength)
    fun slot hlive hX hsame => hstored.unreferenced hf.inv hlive hX hsame
  show Owned ((writeNewChain data >>= _) freed).2
  rw [bind_of_ok hwrite, Nat.mod_eq_of_lt hsize, hupdate]
  exact ⟨G', hinv'.exempt (by simp)⟩

theorem owned_create (hi : Inv fs G ∅) (hd : d ∈ G.dirs) (name : Str)
    (hsize : data.length < 2 ^ 32) :
    let create : Action FatFs Unit := do
      let first ← writeNewChain data
      addDirEntry d name 0 first (data.length % 2 ^ 32)
    Owned (create fs).2 := by
  show Owned ((writeNewChain data >>= _) fs).2
  rcases storeData_spec hi data with
    ⟨e, fs', hwrite, hinv, -⟩ | ⟨first, stored, H, hwrite, hinv, hstored⟩
  · rw [bind_of_error hwrite]
    exact ⟨G, hinv⟩
  rw [bind_of_ok hwrite, Nat.mod_eq_of_lt hsize]
  exact addDirEntry_spec hinv (hstored.dirs ▸ hd) name (.inl rfl) hstored.small hsize
    (fun e hdir hfirst hlength => hstored.refers (hdir.trans (by decide)) hfirst hlength)
    fun slot hlive hX hsame => hstored.unreferenced hi hlive hX hsame

/-- If the path names a file with a chain, then the data fits into the free clusters and those of
that chain, as far as they are freed. -/
def FatFs.RoomFor (fs : FatFs) (path : Str) (data : Bytes) : Prop :=
  ∀ d size cl sz, fs.resolve (splitParent path).1 = .ok (d, size, true) →
    fs.findInDir d (splitParent path).2 = .ok (cl, sz, false) → 2 ≤ cl →
    clustersFor fs.bpb data.length ≤ fs.freeSet.card + (fs.walk (2 ^ 24) cl).length

theorem owned_writeFile (hi : Inv fs G ∅) (hsize : data.length < 2 ^ 32)
    (hroom : fs.RoomFor path data) : Owned (writeFile path data fs).2 := by
  unfold writeFile
  split
  · exact ⟨G, hi⟩
  rcases parentDir_spec hi path with ⟨e, hparent⟩ | ⟨d, hd, hparent, size, hresolve⟩
  · rw [bind_of_error hparent]
    exact ⟨G, hi⟩
  rw [bind_of_ok hparent]
  rcases lookup_spec hi hd (splitParent path).2 with hlookup | ⟨g, hg, hlookup⟩
  · rw [bind_of_ok hlookup]
    exact owned_create hi hd _ hsize
  rw [bind_of_ok hlookup]
  dsimp only
  cases hkind : g.entry.isDir with
  | true => exact ⟨G, hi⟩
  | false =>
    rw [if_neg (by simp)]
    rcases freeFile_spec hi hd hg hkind with ⟨hsmall, -, hfreed⟩ | ⟨hlarge, freed, hfree, hfreed⟩
    · rw [if_neg (by omega)]
      refine (overwrite_spec hd hfreed hkind hsize).elim ?_ id
      rintro ⟨e, fs', hrewrite, hwrite, -⟩
      rw [hrewrite]
      rcases storeData_spec hi data with ⟨_, _, hwrite', hinv, -⟩ | ⟨_, _, _, hwrite', -⟩
      · rw [hwrite] at hwrite'
        cases hwrite'
        exact ⟨G, hinv⟩
      · rw [hwrite] at hwrite'
        cases hwrite'
    · rw [if_pos hlarge, bind_of_ok hfree]
      refine (overwrite_spec hd hfreed hkind hsize).resolve_left ?_
      rintro ⟨-, -, -, -, hfull⟩
      have hfound : fs.findInDir d (splitParent path).2 =
          .ok (g.entry.first, g.entry.size, false) := by
        rw [(hi.dirChain hd).findInDir_eq hi.sound, hg.found, ← hkind]
      have hfits := hroom d size _ _ hresolve hfound hlarge
      have hfreedRoom := hfreed.room hlarge
      omega

theorem owned_removeFile (hi : Inv fs G ∅) (path : Str) : Owned (removeFile path fs).2 := by
  unfold removeFile
  rcases parentDir_spec hi path with ⟨e, hparent⟩ | ⟨d, hd, hparent, -⟩
  · rw [bind_of_error hparent]
    exact ⟨G, hi⟩
  rw [bind_of_ok hparent]
  have hfind := (hi.dirChain hd).findInDir_eq hi.sound (splitParent path).2
  cases hfound : findGroup (fs.dirGroups (G.chain d)) (splitParent path).2 with
  | none =>
    rw [hfound] at hfind
    rw [read_bind_of_error fs hfind]
    exact ⟨G, hi⟩
  | some g =>
    rw [hfound] at hfind
    have hg := hi.foundAt hd hfound
    rw [read_bind fs hfind]
    dsimp only
    cases hkind : g.entry.isDir with
    | true => exact ⟨G, hi⟩
    | false =>
      rw [if_neg (by simp)]
      have hdelete : ∀ {freed}, Freed fs freed G d (splitParent path).2 g →
          Owned (deleteEntry d (splitParent path).2 freed).2 := by
        intro freed hfreed
        obtain ⟨fs', hdelete, hinv⟩ := deleteEntry_spec hfreed.inv hd hfreed.found
        rw [hdelete]
        exact ⟨_, hinv.exempt (by simp)⟩
      rcases freeFile_spec hi hd hg hkind with ⟨hsmall, -, hfreed⟩ | ⟨hlarge, freed, hfree, hfreed⟩
      · rw [if_neg (by omega)]
        exact hdelete hfreed
      · rw [if_pos hlarge, bind_of_ok hfree]
        exact hdelete hfreed

/-! ## Directories -/

def dotSector (cl parentCl : Nat) : Sector :=
  Buf.ofBytes (sfnEntry dotShort attrDir cl 0 ++ sfnEntry dotdotShort attrDir parentCl 0)

theorem bytes_dotSector (cl parentCl : Nat) :
    (dotSector cl parentCl).bytes = sfnEntry dotShort attrDir cl 0 ++
      (sfnEntry dotdotShort attrDir parentCl 0 ++
        List.replicate (sectorSize - 64) 0) := by
  have hdot : (sfnEntry dotShort attrDir cl 0).length = 32 := length_sfnEntry rfl
  have hdotdot : (sfnEntry dotdotShort attrDir parentCl 0).length = 32 := length_sfnEntry rfl
  have hlength : (sfnEntry dotShort attrDir cl 0 ++
      sfnEntry dotdotShort attrDir parentCl 0).length = 64 := by rw [length_append, hdot, hdotdot]
  unfold dotSector
  rw [Buf.bytes_ofBytes (by rw [hlength]; decide), padTo, hlength, append_assoc]

theorem dot_sfnEntry (hlength : short.length = 11) (hdot : short[0]?.getD 0 = 0x2E) (first : Nat) :
    (sfnEntry short attrDir first 0).Dot := by
  have hfirst : (sfnEntry short attrDir first 0).byte 0 = 0x2E := by
    rw [byte_sfnEntry_of_lt (by omega), hdot]
  have hkind : (sfnEntry short attrDir first 0).byte 11 = attrDir := byte_sfnEntry_attr hlength
  refine ⟨⟨?_, ?_, ?_⟩, hfirst⟩
  · rw [hfirst]
    decide
  · rw [Entry.isFragment, hkind]
    decide
  · rw [Entry.isVolume, hkind]
    decide

theorem sfnName_sfnEntry (hlength : short.length = 11) (attr : UInt8) (first size : Nat) :
    sfnName (sfnEntry short attr first size) = sfnName short := by
  have hslice : ∀ {o n : Nat}, o + n ≤ 11 → slice (sfnEntry short attr first size) o n =
      slice short o n := by
    intro o n h
    rw [sfnEntry_eq, slice_append_left _ (by omega)]
  unfold sfnName
  rw [hslice (by decide), hslice (by decide)]

/-- A directory of one cluster, with nothing in it but the entries for itself and its parent. -/
def OnlyDots (es : List Entry) : Prop :=
  ∃ a b rest, es = a :: b :: rest ∧ (a.Dot ∧ sfnName a = ['.']) ∧
    (b.Dot ∧ sfnName b = ['.', '.']) ∧ ∀ e ∈ rest, e.byte 0 = 0x00

theorem onlyDots_dotSector {bpb : Bpb} (hspc : 0 < bpb.spc) (hc : 2 ≤ c) (hbpb : fs.bpb = bpb)
    (hfirst : fs.dev.sector (bpb.clusterFirstSector c) = dotSector c parentCl)
    (hrest : ∀ lba ∈ bpb.clusterSectors c, lba ≠ bpb.clusterFirstSector c →
      fs.dev.sector lba = Sector.zero) :
    OnlyDots ((fs.bpb.slots [c]).map fs.entryAt) := by
  obtain ⟨others, hslots, hothers⟩ := Bpb.slots_singleton hspc hc
  have hdot : (sfnEntry dotShort attrDir c 0).length = 32 := length_sfnEntry rfl
  have hdotdot : (sfnEntry dotdotShort attrDir parentCl 0).length = 32 := length_sfnEntry rfl
  have hzeroth : fs.entryAt (bpb.clusterFirstSector c, 0) = sfnEntry dotShort attrDir c 0 := by
    unfold entryAt
    rw [hfirst, bytes_dotSector]
    have hslice := slice_zero_length_append (sfnEntry dotShort attrDir c 0)
      (sfnEntry dotdotShort attrDir parentCl 0 ++ List.replicate (sectorSize - 64) 0)
    rwa [hdot] at hslice
  have hsecond : fs.entryAt (bpb.clusterFirstSector c, 32) =
      sfnEntry dotdotShort attrDir parentCl 0 := by
    unfold entryAt
    rw [hfirst, bytes_dotSector, slice_append_right _ (by rw [hdot]), hdot]
    have hslice := slice_zero_length_append (sfnEntry dotdotShort attrDir parentCl 0)
      (List.replicate (sectorSize - 64) 0)
    rwa [hdotdot] at hslice
  refine ⟨_, _, others.map fs.entryAt, by rw [hbpb, hslots, map_cons, map_cons],
    ⟨?_, ?_⟩, ⟨?_, ?_⟩, ?_⟩
  · rw [hzeroth]
    exact dot_sfnEntry rfl rfl c
  · rw [hzeroth, sfnName_sfnEntry rfl]
    decide
  · rw [hsecond]
    exact dot_sfnEntry rfl rfl parentCl
  · rw [hsecond, sfnName_sfnEntry rfl]
    decide
  · intro e he
    obtain ⟨s, hs, rfl⟩ := mem_map.mp he
    have hmem : s ∈ bpb.slots [c] := by
      rw [hslots]
      simp [hs]
    obtain ⟨⟨k, hk, hlba⟩, i, hi, hoff⟩ := Bpb.mem_slots.mp hmem
    obtain rfl := mem_singleton.mp hk
    by_cases hbase : s.1 = bpb.clusterFirstSector k
    · obtain ⟨hne, hne'⟩ := hothers s hs
      have htwo : 2 ≤ i := by
        by_contra hlt
        rcases (show i = 0 ∨ i = 1 by omega) with rfl | rfl
        · exact hne (Prod.ext hbase hoff)
        · exact hne' (Prod.ext hbase hoff)
      rw [byte_entryAt fs s (by decide), hbase, hfirst, bytes_dotSector]
      unfold Entry.byte
      rw [getElem?_append_right (by omega), getElem?_append_right (by omega), getElem?_replicate]
      split_ifs <;> rfl
    · exact byte_zero_of_zero_sector (hrest s.1 hlba hbase)

theorem OnlyDots.dotsFirst (h : OnlyDots es) : DotsFirst es := by
  obtain ⟨a, b, rest, rfl, ha, hb, hrest⟩ := h
  exact .inr ⟨a, b, rest, rfl, ha, hb, fun e he hdot =>
    Inv.not_named_of_zero (hrest e he) hdot.named⟩

theorem OnlyDots.not_live (h : OnlyDots es) : ∀ e ∈ es, ¬ e.Live := by
  obtain ⟨a, b, rest, rfl, ⟨ha, -⟩, ⟨hb, -⟩, hrest⟩ := h
  intro e he hlive
  rcases mem_cons.mp he with rfl | he
  · exact hlive.notDot ha.dot
  rcases mem_cons.mp he with rfl | he
  · exact hlive.notDot hb.dot
  · exact Inv.not_named_of_zero (hrest e he) hlive.named

structure DirMade (fs fs' : FatFs) (G : Owners) (c : Nat) : Prop where
  keeps : Keeps fs fs' G
  new : ¬ G.IsHead c
  two_le : 2 ≤ c
  small : c < 2 ^ 32
  onlyDots : OnlyDots ((fs'.bpb.slots [c]).map fs'.entryAt)

theorem DirMade.liveAt (h : DirMade fs fs' G c) (hlive : LiveAt fs' (G.addDir c [c]) slot) :
    LiveAt fs G slot ∧ fs'.entryAt slot = fs.entryAt slot := by
  obtain ⟨⟨d, hd, hslot⟩, hlive⟩ := hlive
  by_cases hne : d = c
  · subst hne
    have hself : (G.addDir d [d]).chain d = [d] := Function.update_self ..
    rw [hself] at hslot
    exact absurd hlive (h.onlyDots.not_live _ (mem_map_of_mem hslot))
  · have hother : (G.addDir c [c]).chain d = G.chain d := Function.update_of_ne hne ..
    have hold : d ∈ G.dirs := hd.resolve_left hne
    rw [hother, h.keeps.bpb] at hslot
    have heq := h.keeps.entryAt_eq hold hslot
    rw [heq] at hlive
    exact ⟨⟨⟨d, hold, hslot⟩, hlive⟩, heq⟩

theorem DirMade.unreferenced (h : DirMade fs fs' G c) (hi : Inv fs G X)
    (hlive : LiveAt fs' (G.addDir c [c]) slot) (hX : slot ∉ X) : (fs'.entryAt slot).first ≠ c := by
  obtain ⟨hold, heq⟩ := h.liveAt hlive
  rw [heq]
  rintro rfl
  have htwo := h.two_le
  rcases hi.refers_head hold hX with hzero | hhead
  · omega
  · exact h.new hhead

theorem makeDir_spec (hi : Inv fs G X) (parentCl : Nat) :
    (∃ e, allocCluster fs = (.error e, fs)) ∨
      ∃ c taken zeroed made, allocCluster fs = (.ok c, taken) ∧
        zeroCluster c taken = (.ok (), zeroed) ∧
        wsec (fs.bpb.clusterFirstSector c) (dotSector c parentCl) zeroed = (.ok (), made) ∧
        Inv made (G.addDir c [c]) X ∧ DirMade fs made G c := by
  rcases allocCluster_cases hi.sound with ⟨e, halloc⟩ | ⟨c, taken, halloc, htaken⟩
  · exact .inl ⟨e, halloc⟩
  right
  have hin := htaken.inVolume
  have hnot : ∀ h, G.IsHead h → c ∉ G.chain h := fun h hh => hi.not_mem_of_free htaken.free hh
  obtain ⟨zeroed, hzero, hcleared, hsectors⟩ :=
    zeroCluster_spec htaken.changes.sound (htaken.changes.bpb ▸ hin)
  have hboth := htaken.changes.trans hcleared
  have hbase : fs.bpb.clusterFirstSector c ∈ fs.bpb.clusterSectors c := by
    have hspc := hi.sound.spc_pos
    exact mem_map.mpr ⟨0, mem_range.mpr hspc, rfl⟩
  obtain ⟨hstart, hblocks⟩ := hi.sound.data_range hin hbase
  have hstart' : zeroed.bpb.dataStart ≤ fs.bpb.clusterFirstSector c := by
    rw [hboth.bpb]
    exact hstart
  have hblocks' : fs.bpb.clusterFirstSector c < zeroed.dev.blocks := by
    rw [hboth.blocks]
    exact hblocks
  obtain ⟨made, hmade⟩ : ∃ made, made =
    zeroed.put (fs.bpb.clusterFirstSector c) (dotSector c parentCl) := ⟨_, rfl⟩
  have hwrite : wsec (fs.bpb.clusterFirstSector c) (dotSector c parentCl) zeroed =
      (.ok (), made) := by
    rw [hmade]
    exact wsec_eq hboth.sound.faultFree hblocks'
  have hput : Changes zeroed made ∅ {fs.bpb.clusterFirstSector c} := by
    rw [hmade]
    exact changes_put hboth.sound hstart'
  have hall := hboth.trans hput
  have hF : ∀ k ∈ (({c} ∪ ∅) ∪ ∅ : Set Nat), ∀ h, G.IsHead h → k ∉ G.chain h := by
    rintro k ((rfl | hk) | hk)
    · exact hnot
    · exact absurd hk (Set.notMem_empty k)
    · exact absurd hk (Set.notMem_empty k)
  have hS : ∀ lba ∈ ((∅ ∪ {lba | lba ∈ taken.bpb.clusterSectors c}) ∪
      {fs.bpb.clusterFirstSector c} : Set Nat), ∃ k, InVolume fs.bpb k ∧
        (∀ h, G.IsHead h → k ∉ G.chain h) ∧ lba ∈ fs.bpb.clusterSectors k := by
    rintro lba ((hlba | hlba) | rfl)
    · exact absurd hlba (Set.notMem_empty lba)
    · rw [htaken.changes.bpb] at hlba
      exact ⟨c, hin, hnot, hlba⟩
    · exact ⟨c, hin, hnot, hbase⟩
  have hinv := hi.apart_frame hall hF hS
  have honly : OnlyDots ((made.bpb.slots [c]).map made.entryAt) := by
    have hfirst : made.dev.sector (fs.bpb.clusterFirstSector c) = dotSector c parentCl := by
      rw [hmade, put_sector_self]
    refine onlyDots_dotSector hi.sound.spc_pos hin.two_le hall.bpb hfirst fun lba hlba hne => ?_
    rw [hmade, put_sector_of_ne hne]
    exact hsectors lba (htaken.changes.bpb ▸ hlba)
  have hmark : IsEnd (made.fatNext c) := by
    rw [hput.table c (hboth.bpb ▸ hin.hasEntry) (Set.notMem_empty c),
      hcleared.table c (htaken.changes.bpb ▸ hin.hasEntry) (Set.notMem_empty c), htaken.marked]
    unfold IsEnd
    decide
  have hfresh : Inv.Fresh made G c [c] :=
    ⟨Chain.single (hi.sound.isCluster hin) hmark, by simp, by simpa [hall.bpb] using hin,
      fun h hh k hk => by rw [mem_singleton.mp hk]; exact hnot h hh⟩
  refine ⟨c, taken, zeroed, made, halloc, hzero, hwrite, ?_, hi.keeps hall hS, hfresh.not_isHead hinv,
    hin.two_le, ?_, honly⟩
  · refine hinv.adoptDir hfresh (fun slot hslot => ?_) ?_ honly.dotsFirst
    · exact honly.not_live _ (mem_map_of_mem hslot)
    · rw [drop_of_length_le (by rw [length_singleton]; decide)]
      simp [Bpb.slots, Bpb.sectorsOf]
  · have hcluster := hi.sound.isCluster hin
    unfold IsCluster eoc at hcluster
    omega

theorem owned_createDir (hi : Inv fs G ∅) (path : Str) : Owned (createDir path fs).2 := by
  unfold createDir
  split
  · exact ⟨G, hi⟩
  rcases parentDir_spec hi path with ⟨e, hparent⟩ | ⟨d, hd, hparent, -⟩
  · rw [bind_of_error hparent]
    exact ⟨G, hi⟩
  rw [bind_of_ok hparent, get_bind, (hi.dirChain hd).findInDir_eq hi.sound]
  cases findGroup (fs.dirGroups (G.chain d)) (splitParent path).2 with
  | some g => exact ⟨G, hi⟩
  | none =>
    dsimp only
    rcases makeDir_spec hi (if d = fs.bpb.rootCluster then 0 else d) with
      ⟨e, halloc⟩ | ⟨c, taken, zeroed, made, halloc, hzero, hwrite, hinv, hmade⟩
    · rw [bind_of_error halloc]
      exact ⟨G, hi⟩
    unfold dotSector at hwrite
    rw [bind_of_ok halloc, bind_of_ok hzero, bind_of_ok hwrite]
    have hne : c ≠ 2 := by
      rintro rfl
      exact hmade.new (.inl hi.root)
    exact addDirEntry_spec hinv (Set.mem_insert_of_mem _ hd) (splitParent path).2 (.inr rfl)
      hmade.small (show 0 < 2 ^ 32 by decide)
      (fun e hdir hfirst _ => .dir (by rw [hdir]; decide) (hfirst ▸ Set.mem_insert ..)
        (hfirst ▸ hne))
      fun slot hlive hX hsame => absurd hsame (hmade.unreferenced hi hlive hX)

theorem Inv.resolve_found (hi : Inv fs G ∅) (hname : (splitParent path).2 ≠ [])
    (h : fs.resolve path = .ok (c, size, isDir)) :
    ∃ d ∈ G.dirs, (∃ sz, fs.resolve (splitParent path).1 = .ok (d, sz, true)) ∧
      ∃ g, FoundAt fs G d (splitParent path).2 g ∧ g.entry.size = size ∧
        g.entry.isDir = isDir ∧ c = if 2 ≤ g.entry.first then g.entry.first else d := by
  rw [resolve_eq hname] at h
  cases hparent : fs.resolve (splitParent path).1 with
  | error e =>
    rw [hparent] at h
    cases h
  | ok found =>
    obtain ⟨d, sz, kind⟩ := found
    rw [hparent, ok_bind] at h
    cases kind with
    | false => cases h
    | true =>
      have hd := hi.resolve_dir hparent
      unfold resolveFrom at h
      cases hfind : fs.findInDir d (splitParent path).2 with
      | error e =>
        rw [hfind] at h
        cases h
      | ok found =>
        obtain ⟨first, size', dir'⟩ := found
        rw [hfind] at h
        obtain ⟨g, hg, rfl, rfl, rfl⟩ := hi.findInDir_ok hd hfind
        cases h
        exact ⟨d, hd, ⟨sz, rfl⟩, g, hg, rfl, rfl, rfl⟩

theorem FoundAt.dir_head (hg : FoundAt fs G d name g) (hi : Inv fs G ∅)
    (hdir : g.entry.isDir = true) :
    g.entry.first ∈ G.dirs ∧ g.entry.first ≠ 2 ∧ 2 ≤ g.entry.first := by
  have hrefers := hi.refers g.slot hg.live (Set.notMem_empty _)
  rw [← hg.entry_eq] at hrefers
  cases hrefers with
  | dir _ hmem hne => exact ⟨hmem, hne, (hi.inVolume _ (.inl hmem) _ (hi.head_mem (.inl hmem))).two_le⟩
  | empty hfile _ _ => rw [hdir] at hfile; cases hfile
  | file hfile _ _ => rw [hdir] at hfile; cases hfile

theorem dropDir_spec (hi : Inv fs G ∅) (hd : d ∈ G.dirs) (hg : FoundAt fs G d name g)
    (hdir : g.entry.isDir = true) (hne : d ≠ g.entry.first) :
    ∃ freed fs', freeChain g.entry.first fs = (.ok (), freed) ∧
      deleteEntry d name freed = (.ok (), fs') ∧ Inv fs' (G.dropDir g.entry.first) ∅ := by
  obtain ⟨hmem, hroot, htwo⟩ := hg.dir_head hi hdir
  have hhead : G.IsHead g.entry.first := .inl hmem
  have hdropped := (hi.exempt (Set.empty_subset {g.slot})).abandonDir hroot
    fun slot hlive hX hsame => hX <|
      hi.unique slot g.slot hlive hg.live (Set.notMem_empty _) (Set.notMem_empty _)
        (by rw [hsame, hg.entry_eq]) (by rw [hsame]; omega)
  have hapart : ∀ k ∈ G.chain g.entry.first, ∀ h, (G.dropDir g.entry.first).IsHead h →
      k ∉ G.chain h := by
    rintro k hk h hh hk'
    have hold : G.IsHead h := hh.imp_left fun hmem => hmem.1
    obtain rfl := hi.disjoint _ h hhead hold k hk hk'
    rcases hh with hdropped | hfile
    · exact hdropped.2 rfl
    · exact hi.apart _ hmem hfile
  obtain ⟨freed, hfree, hinv, hkeeps, -⟩ := freeChain_spec hdropped (hi.chain _ hhead)
    (hi.inVolume _ hhead) hapart
  have hd' : d ∈ (G.dropDir g.entry.first).dirs := ⟨hd, hne⟩
  have hgroups : freed.dirGroups (G.chain d) = fs.dirGroups (G.chain d) := hkeeps.dirGroups_eq hd'
  have hfound : FoundAt freed (G.dropDir g.entry.first) d name g :=
    hinv.foundAt hd' ((congrArg (findGroup · name) hgroups).trans hg.found)
  obtain ⟨fs', hdelete, hinv'⟩ := deleteEntry_spec hinv hd' hfound
  exact ⟨freed, fs', hfree, hdelete, hinv'.exempt (by simp)⟩

theorem FoundAt.parseDir_ne (hg : FoundAt fs G d name g) (hi : Inv fs G X) (hd : d ∈ G.dirs) :
    fs.parseDir d ≠ .ok [] := by
  rw [(hi.dirChain hd).parseDir_eq hi.sound]
  intro hnil
  obtain ⟨hmem, hlisted, -⟩ := mem_of_findGroup hg.found
  have hitems := Except.ok.inj hnil
  rw [map_eq_nil_iff, filter_eq_nil_iff] at hitems
  exact hitems g hmem hlisted

theorem owned_removeDir (hi : Inv fs G ∅) (path : Str)
    (hroot : splitPath path = [] → fs.parseDir fs.bpb.rootCluster ≠ .ok []) :
    Owned (removeDir path fs).2 := by
  unfold removeDir
  cases hresolve : fs.resolve path with
  | error e =>
    rw [read_bind_of_error fs hresolve]
    exact ⟨G, hi⟩
  | ok found =>
    obtain ⟨c, size, isDir⟩ := found
    rw [read_bind fs hresolve]
    dsimp only
    cases isDir with
    | false => exact ⟨G, hi⟩
    | true =>
      rw [if_neg (by simp)]
      have hc := hi.resolve_dir hresolve
      have hparse := (hi.dirChain hc).parseDir_eq hi.sound
      generalize ((fs.dirGroups (G.chain c)).filter Group.isListed).map Group.item = items at hparse
      rw [read_bind fs hparse]
      by_cases hnil : items = []
      · rw [if_neg (not_not.mpr hnil)]
        rw [hnil] at hparse
        by_cases hname : (splitParent path).2 = []
        · have hsplit := (splitParent_of_nil hname).1
          unfold resolve at hresolve
          rw [hsplit] at hresolve
          cases hresolve
          exact absurd hparse (hroot hsplit)
        · obtain ⟨d, hd, ⟨sz, hparent⟩, g, hg, -, hdir, hcg⟩ := hi.resolve_found hname hresolve
          obtain ⟨-, -, htwo⟩ := hg.dir_head hi hdir
          rw [if_pos htwo] at hcg
          subst hcg
          have hne : d ≠ g.entry.first := by
            rintro heq
            exact hg.parseDir_ne hi hd (heq ▸ hparse)
          obtain ⟨freed, fs', hfree, hdelete, hinv⟩ := dropDir_spec hi hd hg hdir hne
          rw [read_bind fs hparent]
          dsimp only
          rw [bind_of_ok hfree, hdelete]
          exact ⟨_, hinv⟩
      · rw [if_pos hnil]
        exact ⟨G, hi⟩

end EuroOS.Fat
