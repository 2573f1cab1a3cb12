import EuroOS.FatTable

/-!
# Allocating, linking and freeing chains

Allocation takes free clusters only, so whatever is in a chain stays as it is;
a chain that is freed is free afterwards.  Data written along a chain is read
back along it.
-/

namespace EuroOS.Fat

open List FatFs Action

def IsCluster (c : Nat) : Prop := 2 ≤ c ∧ c < eoc

def IsEnd (c : Nat) : Prop := eoc ≤ c

namespace FatFs

abbrev HasChain (fs : FatFs) : Nat → List Nat → Prop := Chain IsCluster IsEnd fs.fatNext

def freeSet (fs : FatFs) : Finset Nat :=
  (Finset.Ico 2 (fs.bpb.totalClusters + 2)).filter fun c => fs.fatNext c = 0

end FatFs

variable {fs fs' : FatFs} {c first : Nat} {l cs : List Nat}

theorem not_isEnd_of_isCluster (c : Nat) (h : IsCluster c) : ¬ IsEnd c := by
  unfold IsCluster IsEnd at *
  omega

theorem Sound.isCluster (h : Sound fs) (hc : InVolume fs.bpb c) : IsCluster c := by
  have hnumbers := h.numbers_fit
  have hsectors := hc.hasSectors
  refine ⟨hc.two_le, ?_⟩
  omega

theorem fatNext_ne_zero_of_mem (h : fs.HasChain first l) (hc : c ∈ l) : fs.fatNext c ≠ 0 := by
  obtain ⟨front, back, -, hchain⟩ := h.suffix_of_mem hc
  cases hchain with
  | cons _ hrest =>
    cases hrest with
    | nil hend =>
      unfold IsEnd eoc at hend
      omega
    | cons hnode _ =>
      have htwo := hnode.1
      omega

theorem walk_eq_take (h : fs.HasChain first l) (guard : Nat) :
    fs.walk guard first = l.take guard := by
  induction guard generalizing first l with
  | zero => simp [walk]
  | succ guard ih =>
    unfold walk
    cases h with
    | nil hend =>
      unfold IsEnd at hend
      rw [if_neg (by omega)]
      rfl
    | cons hnode hrest =>
      unfold IsCluster at hnode
      rw [if_pos hnode, ih hrest, take_succ_cons]

/-! ## Taking free clusters -/

/-- The cluster `c` was free and is now the end of a chain of its own. -/
structure Taken (fs fs' : FatFs) (c : Nat) : Prop where
  free : fs.fatNext c = 0
  inVolume : InVolume fs.bpb c
  changes : Changes fs fs' {c} ∅
  marked : fs'.fatNext c = lastMark

theorem mem_candidates (hpos : 0 < fs.bpb.totalClusters) :
    c ∈ fs.candidates ↔ 2 ≤ c ∧ c < fs.bpb.totalClusters + 2 := by
  simp only [candidates, mem_append, mem_range'_1]
  have hmax : Nat.max 2 fs.nextFree = max 2 fs.nextFree := rfl
  rw [hmax]
  omega

theorem mem_freeSet :
    c ∈ fs.freeSet ↔ (2 ≤ c ∧ c < fs.bpb.totalClusters + 2) ∧ fs.fatNext c = 0 := by simp [freeSet]

theorem allocCluster_of_zero (hzero : fs.bpb.totalClusters = 0) :
    allocCluster fs = (.error (.stop .halted), fs) := by
  unfold allocCluster
  rw [get_bind, if_pos hzero]
  rfl

theorem allocCluster_of_full (hpos : fs.bpb.totalClusters ≠ 0) (hfull : fs.freeSet = ∅) :
    allocCluster fs = (.error (.err .noSpace), fs) := by
  have hnone : fs.candidates.find? (fun cl => decide (fs.fatNext cl = 0)) = none := by
    rw [find?_eq_none]
    intro c hc
    have hrange := (mem_candidates (Nat.pos_of_ne_zero hpos)).mp hc
    have hnot : c ∉ fs.freeSet := by simp [hfull]
    rw [mem_freeSet] at hnot
    simpa using fun hfree => hnot ⟨hrange, hfree⟩
  unfold allocCluster
  rw [get_bind, if_neg hpos, hnone]
  rfl

variable (h : Sound fs)
include h

theorem allocCluster_of_free (hpos : fs.bpb.totalClusters ≠ 0) (hfree : fs.freeSet ≠ ∅) :
    ∃ c fs', allocCluster fs = (.ok c, fs') ∧ Taken fs fs' c := by
  obtain ⟨k, hk⟩ := Finset.nonempty_iff_ne_empty.mpr hfree
  rw [mem_freeSet] at hk
  cases hfind : fs.candidates.find? fun cl => decide (fs.fatNext cl = 0) with
  | none =>
    have hnot := find?_eq_none.mp hfind k
      ((mem_candidates (Nat.pos_of_ne_zero hpos)).mpr hk.1)
    simp [hk.2] at hnot
  | some c =>
    have hzero : fs.fatNext c = 0 := by simpa using find?_some hfind
    have hrange := (mem_candidates (Nat.pos_of_ne_zero hpos)).mp (mem_of_find?_eq_some hfind)
    have hin := h.inVolume_of_free hrange.1 hrange.2 hzero
    obtain ⟨middle, hset, hchanges, hmark⟩ :=
      setFat_changes (v := lastMark) h hin.hasEntry (by omega)
    refine ⟨c, { middle with nextFree := c + 1 }, ?_, hzero, hin, ?_, hmark⟩
    · unfold allocCluster
      rw [get_bind, if_neg hpos, hfind]
      dsimp only
      rw [bind_of_ok hset]
      rfl
    · have hhint := hchanges.trans (changes_nextFree hchanges.sound (c + 1))
      exact hhint.mono (by simp) (by simp)

theorem allocCluster_cases :
    (∃ e, allocCluster fs = (.error e, fs)) ∨
      ∃ c fs', allocCluster fs = (.ok c, fs') ∧ Taken fs fs' c := by
  by_cases hzero : fs.bpb.totalClusters = 0
  · exact .inl ⟨_, allocCluster_of_zero hzero⟩
  by_cases hfull : fs.freeSet = ∅
  · exact .inl ⟨_, allocCluster_of_full hzero hfull⟩
  · exact .inr (allocCluster_of_free h hzero hfull)

omit h in
theorem Taken.freeSet_eq (h : Taken fs fs' c) (hsound : Sound fs) :
    fs'.freeSet = fs.freeSet.erase c := by
  ext k
  rw [Finset.mem_erase, mem_freeSet, mem_freeSet, h.changes.bpb]
  by_cases hk : k = c
  · subst hk
    simp [h.marked]
  have hkept : (2 ≤ k ∧ k < fs.bpb.totalClusters + 2) → (fs'.fatNext k = 0 ↔ fs.fatNext k = 0) := by
    intro hrange
    by_cases hin : k < fs.bpb.tableSize
    · rw [h.changes.table k hin (by simpa using hk)]
    have hlast : k = fs.bpb.tableSize := by
      have hfit := hsound.entries_fit
      omega
    have hbehind := h.changes.sound.fatNext_tableSize
    rw [h.changes.bpb] at hbehind
    simp only [hlast, hsound.fatNext_tableSize, hbehind]
  constructor
  · rintro ⟨hrange, hfree⟩
    exact ⟨hk, hrange, (hkept hrange).mp hfree⟩
  · rintro ⟨-, hrange, hfree⟩
    exact ⟨hrange, (hkept hrange).mpr hfree⟩

structure AllTaken (fs fs' : FatFs) (cs : List Nat) : Prop where
  nodup : cs.Nodup
  free : ∀ c ∈ cs, fs.fatNext c = 0
  inVolume : ∀ c ∈ cs, InVolume fs.bpb c
  changes : Changes fs fs' {c | c ∈ cs} ∅
  marked : ∀ c ∈ cs, fs'.fatNext c = lastMark

theorem AllTaken.nil : AllTaken fs fs [] :=
  ⟨nodup_nil, by simp, by simp, by simpa using Changes.refl h, by simp⟩

omit h in
theorem AllTaken.cons (h : Taken fs middle c) (hrest : AllTaken middle fs' cs) :
    AllTaken fs fs' (c :: cs) := by
  have hnew : c ∉ cs := by
    intro hmem
    have hzero := hrest.free c hmem
    rw [h.marked] at hzero
    cases hzero
  have hmiddle : ∀ k ∈ cs, fs.fatNext k = 0 := by
    intro k hk
    have hne : k ≠ c := by
      rintro rfl
      exact hnew hk
    have hin := hrest.inVolume k hk
    rw [h.changes.bpb] at hin
    rw [← h.changes.table k hin.hasEntry (by simpa using hne)]
    exact hrest.free k hk
  refine ⟨nodup_cons.mpr ⟨hnew, hrest.nodup⟩, ?_, ?_, ?_, ?_⟩
  · intro k hk
    rcases mem_cons.mp hk with rfl | hk
    · exact h.free
    · exact hmiddle k hk
  · intro k hk
    rcases mem_cons.mp hk with rfl | hk
    · exact h.inVolume
    · have hin := hrest.inVolume k hk
      rwa [h.changes.bpb] at hin
  · refine (h.changes.trans hrest.changes).mono ?_ (by simp)
    rintro k (rfl | hk)
    · exact mem_cons_self ..
    · exact mem_cons_of_mem _ hk
  · intro k hk
    rcases mem_cons.mp hk with rfl | hk
    · have hin := h.inVolume.hasEntry
      rw [← h.changes.bpb] at hin
      rw [hrest.changes.table k hin (by simpa using hnew)]
      exact h.marked
    · exact hrest.marked k hk

theorem allocClusters_cases (n : Nat) :
    (∃ e fs' cs, allocClusters n fs = (.error e, fs') ∧ AllTaken fs fs' cs) ∨
      ∃ cs fs', allocClusters n fs = (.ok cs, fs') ∧ cs.length = n ∧ AllTaken fs fs' cs := by
  induction n generalizing fs with
  | zero => exact .inr ⟨[], fs, rfl, rfl, .nil h⟩
  | succ n ih =>
    unfold allocClusters
    rcases allocCluster_cases h with ⟨e, halloc⟩ | ⟨c, middle, halloc, htaken⟩
    · exact .inl ⟨e, fs, [], bind_of_error halloc _, .nil h⟩
    rw [bind_of_ok halloc]
    rcases ih htaken.changes.sound with ⟨e, fs', cs, hrest, hcs⟩ | ⟨cs, fs', hrest, hlength, hcs⟩
    · exact .inl ⟨e, fs', c :: cs, bind_of_error hrest _, .cons htaken hcs⟩
    refine .inr ⟨c :: cs, fs', ?_, by simp [hlength], .cons htaken hcs⟩
    rw [bind_of_ok hrest]
    rfl

theorem allocClusters_of_room (hroom : n ≤ fs.freeSet.card) :
    ∃ cs fs', allocClusters n fs = (.ok cs, fs') := by
  induction n generalizing fs with
  | zero => exact ⟨[], fs, rfl⟩
  | succ n ih =>
    have hfree : fs.freeSet ≠ ∅ := by
      intro hempty
      simp [hempty] at hroom
    have hpos : fs.bpb.totalClusters ≠ 0 := by
      intro hzero
      obtain ⟨k, hk⟩ := Finset.nonempty_iff_ne_empty.mpr hfree
      rw [mem_freeSet] at hk
      omega
    obtain ⟨c, middle, halloc, htaken⟩ := allocCluster_of_free h hpos hfree
    have hmem : c ∈ fs.freeSet := by
      have hin := htaken.inVolume
      have hsectors := hin.hasSectors
      rw [mem_freeSet]
      exact ⟨⟨hin.two_le, by omega⟩, htaken.free⟩
    have hleft : n ≤ middle.freeSet.card := by
      rw [htaken.freeSet_eq h, Finset.card_erase_of_mem hmem]
      omega
    obtain ⟨cs, fs', hrest⟩ := ih htaken.changes.sound hleft
    refine ⟨c :: cs, fs', ?_⟩
    unfold allocClusters
    rw [bind_of_ok halloc, bind_of_ok hrest]
    rfl

/-! ## Linking and freeing -/

theorem Sound.mod_eq (hc : InVolume fs.bpb c) : c % 2 ^ 28 = c := by
  have hcluster := (h.isCluster hc).2
  exact Nat.mod_eq_of_lt (by unfold eoc at hcluster; omega)

omit h in
theorem Chain.single (hc : IsCluster c) (hend : IsEnd (fs.fatNext c)) : fs.HasChain c [c] :=
  .cons hc (.nil hend)

theorem linkChain_spec (hnodup : cs.Nodup) (hin : ∀ c ∈ cs, InVolume fs.bpb c) :
    ∃ fs', linkChain cs fs = (.ok (), fs') ∧ Changes fs fs' {c | c ∈ cs} ∅ ∧
      ∀ c rest, cs = c :: rest → fs'.HasChain c cs := by
  induction cs generalizing fs with
  | nil => exact ⟨fs, rfl, by simpa using Changes.refl h, by simp⟩
  | cons c cs ih =>
    have hc := hin c (mem_cons_self ..)
    have hcpos : c ≠ 0 := by
      have htwo := hc.two_le
      omega
    cases cs with
    | nil =>
      obtain ⟨fs', hset, hchanges, hmark⟩ :=
        setFat_changes (v := lastMark) h hc.hasEntry hcpos
      refine ⟨fs', hset, by simpa using hchanges, ?_⟩
      rintro _ _ ⟨⟩
      refine Chain.single (h.isCluster hc) ?_
      rw [hmark]
      unfold IsEnd
      decide
    | cons d cs =>
      obtain ⟨hnew, hrest⟩ := nodup_cons.mp hnodup
      obtain ⟨middle, hset, hchanges, hmark⟩ := setFat_changes (v := d) h hc.hasEntry hcpos
      have hmiddle : ∀ k ∈ d :: cs, InVolume middle.bpb k := by
        intro k hk
        rw [hchanges.bpb]
        exact hin k (mem_cons_of_mem _ hk)
      obtain ⟨fs', hlink, hlinked, hchain⟩ := ih hchanges.sound hrest hmiddle
      refine ⟨fs', ?_, ?_, ?_⟩
      · unfold linkChain
        rw [bind_of_ok hset]
        exact hlink
      · refine (hchanges.trans hlinked).mono ?_ (by simp)
        rintro k (rfl | hk)
        · exact mem_cons_self ..
        · exact mem_cons_of_mem _ hk
      · rintro _ _ ⟨⟩
        refine .cons (h.isCluster hc) ?_
        have hentry := hc.hasEntry
        rw [← hchanges.bpb] at hentry
        rw [hlinked.table c hentry (by simpa using hnew), hmark, h.mod_eq (hin d (by simp))]
        exact hchain d cs rfl

theorem freeChainFrom_spec (guard : Nat) (hchain : fs.HasChain first l)
    (hin : ∀ c ∈ l, InVolume fs.bpb c) :
    ∃ fs', freeChainFrom guard first fs = (.ok (), fs') ∧
      Changes fs fs' {c | c ∈ l.take guard} ∅ ∧ ∀ c ∈ l.take guard, fs'.fatNext c = 0 := by
  induction guard generalizing fs first l with
  | zero => exact ⟨fs, rfl, by simpa using Changes.refl h, by simp⟩
  | succ guard ih =>
    unfold freeChainFrom
    cases hchain with
    | nil hend =>
      unfold IsEnd at hend
      rw [if_neg (by omega)]
      exact ⟨fs, rfl, by simpa using Changes.refl h, by simp⟩
    | @cons _ l hnode hrest =>
      have hc := hin first (mem_cons_self ..)
      have hnodup := (Chain.cons hnode hrest).nodup not_isEnd_of_isCluster
      obtain ⟨hnew, -⟩ := nodup_cons.mp hnodup
      obtain ⟨middle, hset, hchanges, hmark⟩ :=
        setFat_changes (v := 0) h hc.hasEntry (by have htwo := hc.two_le; omega)
      have hhint := hchanges.trans
        (changes_nextFree hchanges.sound (min middle.nextFree first))
      have hkept : ∀ k ∈ l, fatNext { middle with nextFree := min middle.nextFree first } k =
          fs.fatNext k := by
        intro k hk
        have hentry := (hin k (mem_cons_of_mem _ hk)).hasEntry
        refine hhint.table k hentry ?_
        rintro (rfl | hk')
        · exact hnew hk
        · exact hk'
      obtain ⟨fs', hfree, hfreed, hzero⟩ := ih hhint.sound (hrest.congr hkept) (fun k hk => by
        rw [hhint.bpb]
        exact hin k (mem_cons_of_mem _ hk))
      refine ⟨fs', ?_, ?_, ?_⟩
      · rw [if_pos (show 2 ≤ first ∧ first < eoc from hnode), get_bind, bind_of_ok hset,
          modify_bind]
        exact hfree
      · refine (hhint.trans hfreed).mono ?_ (by simp)
        rintro k ((rfl | hk) | hk)
        · simp
        · cases hk
        · exact mem_cons_of_mem _ hk
      · intro k hk
        rw [take_succ_cons] at hk
        rcases mem_cons.mp hk with rfl | hk
        · have hentry := hc.hasEntry
          rw [← hhint.bpb] at hentry
          have hnot : k ∉ l.take guard := fun hmem => hnew (mem_of_mem_take hmem)
          rw [hfreed.table k hentry hnot]
          exact hmark
        · exact hzero k hk

/-! ## Data -/

variable {data : Bytes} {bpb : Bpb}

theorem writeSectors_spec (hin : ∀ lba ∈ lbas, fs.bpb.dataStart ≤ lba ∧ lba < fs.dev.blocks) :
    ∃ fs', writeSectors lbas data fs = (.ok (), fs') ∧ Changes fs fs' ∅ {lba | lba ∈ lbas} := by
  induction lbas generalizing fs data with
  | nil => exact ⟨fs, rfl, by simpa using Changes.refl h⟩
  | cons lba lbas ih =>
    unfold writeSectors
    split_ifs with hdata
    · exact ⟨fs, rfl, (Changes.refl h).mono (by simp) (by simp)⟩
    have hlba := hin lba (mem_cons_self ..)
    have hput : Changes fs (fs.put lba (Buf.ofBytes (data.take sectorSize))) ∅ {lba} :=
      changes_put h hlba.1
    obtain ⟨fs', hmore, hchanges⟩ := ih hput.sound
      fun i hi => hin i (mem_cons_of_mem _ hi)
    refine ⟨fs', ?_, ?_⟩
    · rw [bind_of_ok (wsec_eq h.faultFree hlba.2)]
      exact hmore
    · refine (hput.trans hchanges).mono (by simp) ?_
      rintro i (rfl | hi)
      · exact mem_cons_self ..
      · exact mem_cons_of_mem _ hi

omit h in
theorem each_cons {σ α : Type} (f : α → Action σ Unit) (a : α) (rest : List α) :
    each f (a :: rest) = f a >>= fun _ => each f rest := rfl

theorem zeroSectors_spec (hin : ∀ lba ∈ lbas, fs.bpb.dataStart ≤ lba ∧ lba < fs.dev.blocks) :
    ∃ fs', each (wsec · Sector.zero) lbas fs = (.ok (), fs') ∧
      Changes fs fs' ∅ {lba | lba ∈ lbas} ∧ ∀ lba ∈ lbas, fs'.dev.sector lba = Sector.zero := by
  induction lbas generalizing fs with
  | nil => exact ⟨fs, rfl, by simpa using Changes.refl h, by simp⟩
  | cons lba lbas ih =>
    have hlba := hin lba (mem_cons_self ..)
    have hput : Changes fs (fs.put lba Sector.zero) ∅ {lba} := changes_put h hlba.1
    obtain ⟨fs', hrest, hchanges, hzero⟩ := ih hput.sound
      fun i hi => hin i (mem_cons_of_mem _ hi)
    refine ⟨fs', ?_, ?_, ?_⟩
    · rw [each_cons, bind_of_ok (wsec_eq h.faultFree hlba.2)]
      exact hrest
    · refine (hput.trans hchanges).mono (by simp) ?_
      rintro i (rfl | hi)
      · exact mem_cons_self ..
      · exact mem_cons_of_mem _ hi
    · intro i hi
      by_cases hmem : i ∈ lbas
      · exact hzero i hmem
      · obtain rfl : i = lba := by simpa [hmem] using hi
        rw [hchanges.data i hlba.1 hmem, put_sector_self]

theorem Sound.data_range (hc : InVolume fs.bpb c) (hlba : lba ∈ fs.bpb.clusterSectors c) :
    fs.bpb.dataStart ≤ lba ∧ lba < fs.dev.blocks :=
  ⟨Bpb.dataStart_le_of_mem hlba, h.lt_blocks hc hlba⟩

theorem zeroCluster_spec (hc : InVolume fs.bpb c) :
    ∃ fs', zeroCluster c fs = (.ok (), fs') ∧
      Changes fs fs' ∅ {lba | lba ∈ fs.bpb.clusterSectors c} ∧
      ∀ lba ∈ fs.bpb.clusterSectors c, fs'.dev.sector lba = Sector.zero := by
  unfold zeroCluster
  rw [get_bind]
  exact zeroSectors_spec h fun lba hlba => h.data_range hc hlba

omit h

def Bpb.sectorsOf (bpb : Bpb) (cs : List Nat) : List Nat := cs.flatMap bpb.clusterSectors

theorem Bpb.mem_sectorsOf : lba ∈ bpb.sectorsOf cs ↔ ∃ c ∈ cs, lba ∈ bpb.clusterSectors c :=
  mem_flatMap

theorem Bpb.nodup_sectorsOf (hnodup : cs.Nodup) (htwo : ∀ c ∈ cs, 2 ≤ c) :
    (bpb.sectorsOf cs).Nodup := by
  refine nodup_flatMap.mpr ⟨fun c _ => bpb.nodup_clusterSectors c, ?_⟩
  refine hnodup.imp_of_mem fun {c d} hc hd hne lba hlba hlba' => hne ?_
  exact Bpb.eq_of_mem_clusterSectors (htwo c hc) (htwo d hd) hlba hlba'

structure NewChain (fs fs' : FatFs) (cs : List Nat) (data : Bytes) : Prop where
  free : ∀ c ∈ cs, fs.fatNext c = 0
  inVolume : ∀ c ∈ cs, InVolume fs.bpb c
  changes : Changes fs fs' {c | c ∈ cs} {lba | lba ∈ fs.bpb.sectorsOf cs}
  chain : ∀ c rest, cs = c :: rest → fs'.HasChain c cs
  length_eq : cs.length = clustersFor fs.bpb data.length

theorem clustersFor_pos (hspc : 0 < bpb.spc) (hdata : data ≠ []) :
    0 < clustersFor bpb data.length := by
  have hpos : 0 < bpb.clusterBytes := Nat.mul_pos hspc (by decide)
  have hlength := length_pos_of_ne_nil hdata
  exact Nat.div_pos (by omega) hpos

theorem writeNewChain_spec (h : Sound fs) (hdata : data ≠ []) :
    (∃ e fs' cs, writeNewChain data fs = (.error e, fs') ∧ AllTaken fs fs' cs ∧
      fs.freeSet.card < clustersFor fs.bpb data.length) ∨
      ∃ c rest fs', writeNewChain data fs = (.ok c, fs') ∧ NewChain fs fs' (c :: rest) data := by
  unfold writeNewChain
  rw [if_neg hdata, get_bind]
  rcases allocClusters_cases h (clustersFor fs.bpb data.length) with
    ⟨e, fs', cs, halloc, htaken⟩ | ⟨cs, middle, halloc, hlength, htaken⟩
  · refine .inl ⟨e, fs', cs, bind_of_error halloc _, htaken, ?_⟩
    by_contra hroom
    obtain ⟨cs', fs'', hok⟩ := allocClusters_of_room h (not_lt.mp hroom)
    rw [hok] at halloc
    cases halloc
  · right
    have hin : ∀ c ∈ cs, InVolume middle.bpb c := by
      rw [htaken.changes.bpb]
      exact htaken.inVolume
    obtain ⟨linked, hlink, hlinked, hchain⟩ := linkChain_spec htaken.changes.sound htaken.nodup hin
    have hboth := htaken.changes.trans hlinked
    have hrange : ∀ lba ∈ fs.bpb.sectorsOf cs,
        linked.bpb.dataStart ≤ lba ∧ lba < linked.dev.blocks := by
      intro lba hlba
      obtain ⟨c, hc, hlba⟩ := Bpb.mem_sectorsOf.mp hlba
      rw [hboth.bpb, hboth.blocks]
      exact h.data_range (htaken.inVolume c hc) hlba
    obtain ⟨fs', hwrite, hwritten⟩ := writeSectors_spec hboth.sound hrange
    obtain ⟨c, rest, rfl⟩ : ∃ c rest, cs = c :: rest := by
      have hpos := clustersFor_pos h.spc_pos hdata
      exact exists_cons_of_length_pos (by omega)
    refine ⟨c, rest, fs', ?_, htaken.free, htaken.inVolume, ?_, ?_, hlength⟩
    · rw [bind_of_ok halloc, bind_of_ok hlink]
      exact bind_of_ok hwrite _
    · exact (hboth.trans hwritten).mono (by simp) (by simp)
    · intro c rest hcs
      refine (hchain c rest hcs).congr fun k hk => ?_
      have hentry := (htaken.inVolume k hk).hasEntry
      rw [← hboth.bpb] at hentry
      exact hwritten.table k hentry (by simp)

theorem writeNewChain_nil : writeNewChain [] fs = (.ok 0, fs) := rfl

theorem card_freeSet_of_freed (hchanges : Changes fs fs' {c | c ∈ l} ∅) (hsound : Sound fs)
    (hnodup : l.Nodup) (hused : ∀ c ∈ l, fs.fatNext c ≠ 0)
    (hin : ∀ c ∈ l, 2 ≤ c ∧ c < fs.bpb.totalClusters + 2) (hzero : ∀ c ∈ l, fs'.fatNext c = 0) :
    fs.freeSet.card + l.length ≤ fs'.freeSet.card := by
  have hdisjoint : Disjoint fs.freeSet l.toFinset := by
    rw [Finset.disjoint_left]
    intro c hc hl
    exact hused c (mem_toFinset.mp hl) (mem_freeSet.mp hc).2
  have hsub : fs.freeSet ∪ l.toFinset ⊆ fs'.freeSet := by
    intro c hc
    rw [mem_freeSet, hchanges.bpb]
    rcases Finset.mem_union.mp hc with hc | hc
    · obtain ⟨hrange, hfree⟩ := mem_freeSet.mp hc
      refine ⟨hrange, ?_⟩
      have hentry := (hsound.inVolume_of_free hrange.1 hrange.2 hfree).hasEntry
      rw [hchanges.table c hentry fun hl => hused c hl hfree]
      exact hfree
    · have hl := mem_toFinset.mp hc
      exact ⟨hin c hl, hzero c hl⟩
  have hcard := Finset.card_le_card hsub
  rwa [Finset.card_union_of_disjoint hdisjoint, toFinset_card_of_nodup hnodup] at hcard

end EuroOS.Fat
