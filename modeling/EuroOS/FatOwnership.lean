import EuroOS.FatSlots

/-!
# Who owns which clusters

A ghost record of the directories and files of a volume, each named by its first
cluster, with their chains.  The chains are in the table, have no cluster in
common, and every named entry of a directory refers to its own directory or file;
while an operation is under way some slots may be exempt.  What the driver does to
a volume is a sequence of the steps proved here to keep this.
-/

namespace EuroOS.Fat

open List Function

namespace Entry

structure Dot (e : Entry) : Prop where
  named : e.Named
  dot : e.byte 0 = 0x2E

structure Live (e : Entry) : Prop where
  named : e.Named
  notDot : e.byte 0 ≠ 0x2E

end Entry

/-- A directory has no dot entries, or it starts with the two for itself and its parent. -/
def DotsFirst (es : List Entry) : Prop :=
  (∀ e ∈ es, ¬ e.Dot) ∨ ∃ a b rest, es = a :: b :: rest ∧ (a.Dot ∧ sfnName a = ['.']) ∧
    (b.Dot ∧ sfnName b = ['.', '.']) ∧ ∀ e ∈ rest, ¬ e.Dot

namespace DotsFirst

theorem append (h : DotsFirst es) (h' : ∀ e ∈ es', ¬ e.Dot) : DotsFirst (es ++ es') := by
  rcases h with h | ⟨a, b, rest, rfl, ha, hb, hrest⟩
  · refine .inl fun e he => ?_
    exact (mem_append.mp he).elim (h e) (h' e)
  · refine .inr ⟨a, b, rest ++ es', rfl, ha, hb, fun e he => ?_⟩
    exact (mem_append.mp he).elim (hrest e) (h' e)

theorem of_changed {slots : List Slot} {f g : Slot → Entry} (h : DotsFirst (slots.map f))
    (hchanged : ∀ slot ∈ slots, g slot = f slot ∨ (¬ (f slot).Dot ∧ ¬ (g slot).Dot)) :
    DotsFirst (slots.map g) := by
  have hnot : ∀ slot ∈ slots, ¬ (f slot).Dot → ¬ (g slot).Dot := by
    intro slot hslot hdot
    rcases hchanged slot hslot with heq | hboth
    · rwa [heq]
    · exact hboth.2
  rcases h with h | ⟨a, b, rest, hes, ⟨ha, hname⟩, ⟨hb, hname'⟩, hrest⟩
  · refine .inl fun e he => ?_
    obtain ⟨slot, hslot, rfl⟩ := mem_map.mp he
    exact hnot slot hslot (h _ (mem_map_of_mem hslot))
  obtain ⟨s, slots, rfl, rfl, hmore⟩ := map_eq_cons_iff.mp hes
  obtain ⟨s', slots, rfl, rfl, rfl⟩ := map_eq_cons_iff.mp hmore
  have hs : g s = f s := (hchanged s (by simp)).resolve_right fun hboth => hboth.1 ha
  have hs' : g s' = f s' := (hchanged s' (by simp)).resolve_right fun hboth => hboth.1 hb
  refine .inr ⟨g s, g s', slots.map g, rfl, ⟨hs ▸ ha, hs ▸ hname⟩, ⟨hs' ▸ hb, hs' ▸ hname'⟩, ?_⟩
  intro e he
  obtain ⟨slot, hslot, rfl⟩ := mem_map.mp he
  exact hnot slot (by simp [hslot]) (hrest _ (mem_map_of_mem hslot))

end DotsFirst

/-- The directories and the files, by their first clusters, and all their chains. -/
structure Owners where
  dirs : Set Nat
  files : Set Nat
  chain : Nat → List Nat

def Owners.IsHead (G : Owners) (h : Nat) : Prop := h ∈ G.dirs ∨ h ∈ G.files

namespace Owners

def addFile (G : Owners) (c : Nat) (l : List Nat) : Owners :=
  ⟨G.dirs, insert c G.files, update G.chain c l⟩

def addDir (G : Owners) (c : Nat) (l : List Nat) : Owners :=
  ⟨insert c G.dirs, G.files, update G.chain c l⟩

def dropFile (G : Owners) (c : Nat) : Owners := { G with files := G.files \ {c} }

def dropDir (G : Owners) (c : Nat) : Owners := { G with dirs := G.dirs \ {c} }

def extend (G : Owners) (d c : Nat) : Owners :=
  { G with chain := update G.chain d (G.chain d ++ [c]) }

end Owners

inductive Refers (bpb : Bpb) (G : Owners) (e : Entry) : Prop
  | dir : e.isDir = true → e.first ∈ G.dirs → e.first ≠ 2 → Refers bpb G e
  | empty : e.isDir = false → e.first = 0 → e.size = 0 → Refers bpb G e
  | file : e.isDir = false → e.first ∈ G.files →
      (G.chain e.first).length = FatFs.clustersFor bpb e.size → Refers bpb G e

theorem Refers.adopt (h : Refers bpb G e) (hdirs : ∀ d ∈ G.dirs, d ∈ G'.dirs)
    (hfiles : ∀ f ∈ G.files, f ∈ G'.files ∧ G'.chain f = G.chain f) : Refers bpb G' e := by
  cases h with
  | dir hdir hmem hne => exact .dir hdir (hdirs _ hmem) hne
  | empty hdir hzero hsize => exact .empty hdir hzero hsize
  | file hdir hmem hlength =>
    obtain ⟨hmem', hchain⟩ := hfiles _ hmem
    exact .file hdir hmem' (by rw [hchain]; exact hlength)

structure LiveAt (fs : FatFs) (G : Owners) (slot : Slot) : Prop where
  inDir : ∃ d ∈ G.dirs, slot ∈ fs.bpb.slots (G.chain d)
  live : (fs.entryAt slot).Live

structure Inv (fs : FatFs) (G : Owners) (X : Set Slot) : Prop where
  sound : Sound fs
  root_eq : fs.bpb.rootCluster = 2
  root : 2 ∈ G.dirs
  apart : ∀ h ∈ G.dirs, h ∉ G.files
  chain : ∀ h, G.IsHead h → fs.HasChain h (G.chain h)
  nonempty : ∀ h, G.IsHead h → G.chain h ≠ []
  inVolume : ∀ h, G.IsHead h → ∀ c ∈ G.chain h, InVolume fs.bpb c
  disjoint : ∀ h h', G.IsHead h → G.IsHead h' → ∀ c ∈ G.chain h, c ∈ G.chain h' → h = h'
  refers : ∀ slot, LiveAt fs G slot → slot ∉ X → Refers fs.bpb G (fs.entryAt slot)
  unique : ∀ slot slot', LiveAt fs G slot → LiveAt fs G slot' → slot ∉ X → slot' ∉ X →
    (fs.entryAt slot).first = (fs.entryAt slot').first → (fs.entryAt slot).first ≠ 0 → slot = slot'
  tail : ∀ d ∈ G.dirs, ∀ slot ∈ fs.bpb.slots ((G.chain d).drop slotGuard),
    (fs.entryAt slot).byte 0 = 0x00
  dots : ∀ d ∈ G.dirs, DotsFirst ((fs.bpb.slots (G.chain d)).map fs.entryAt)

namespace Inv

variable {fs : FatFs} {G : Owners} {d : Nat} {slot : Slot}

variable (hi : Inv fs G X)
include hi

theorem dirChain (hd : d ∈ G.dirs) : DirChain fs d (G.chain d) :=
  ⟨hi.chain d (.inl hd), hi.inVolume d (.inl hd), hi.tail d hd⟩

theorem head_mem (hh : G.IsHead h) : h ∈ G.chain h := by
  have hchain := hi.chain h hh
  have hnonempty := hi.nonempty h hh
  revert hchain hnonempty
  generalize G.chain h = l
  intro hchain hnonempty
  cases hchain with
  | nil _ => exact absurd rfl hnonempty
  | cons _ _ => exact mem_cons_self ..

/-! ## Changes outside of what is owned -/

omit hi in
theorem entryAt_eq (hchanges : Changes fs fs' F S)
    (hS : ∀ d ∈ G.dirs, ∀ c ∈ G.chain d, ∀ lba ∈ fs.bpb.clusterSectors c, lba ∉ S)
    (hd : d ∈ G.dirs) (hslot : slot ∈ fs.bpb.slots (G.chain d)) :
    fs'.entryAt slot = fs.entryAt slot := by
  obtain ⟨⟨c, hc, hlba⟩, -⟩ := Bpb.mem_slots.mp hslot
  exact entryAt_congr (hchanges.data slot.1 (Bpb.dataStart_le_of_mem hlba) (hS d hd c hc _ hlba))

theorem unique_of_live
    (hlive : ∀ slot, LiveAt fs' G' slot → LiveAt fs G slot ∧ fs'.entryAt slot = fs.entryAt slot)
    (hslot : LiveAt fs' G' slot) (hslot' : LiveAt fs' G' slot') (hX : slot ∉ X) (hX' : slot' ∉ X)
    (hfirst : (fs'.entryAt slot).first = (fs'.entryAt slot').first)
    (hne : (fs'.entryAt slot).first ≠ 0) : slot = slot' := by
  obtain ⟨hold, heq⟩ := hlive slot hslot
  obtain ⟨hold', heq'⟩ := hlive slot' hslot'
  rw [heq, heq'] at hfirst
  exact hi.unique slot slot' hold hold' hX hX' hfirst (heq ▸ hne)

theorem frame (hchanges : Changes fs fs' F S) (hF : ∀ h, G.IsHead h → ∀ c ∈ G.chain h, c ∉ F)
    (hS : ∀ d ∈ G.dirs, ∀ c ∈ G.chain d, ∀ lba ∈ fs.bpb.clusterSectors c, lba ∉ S) :
    Inv fs' G X := by
  have hbpb := hchanges.bpb
  have hentry : ∀ d ∈ G.dirs, ∀ slot ∈ fs.bpb.slots (G.chain d),
      fs'.entryAt slot = fs.entryAt slot := fun d hd slot => entryAt_eq hchanges hS hd
  have hlive : ∀ slot, LiveAt fs' G slot → LiveAt fs G slot ∧ fs'.entryAt slot = fs.entryAt slot := by
    rintro slot ⟨⟨d, hd, hslot⟩, hlive⟩
    rw [hbpb] at hslot
    have heq := hentry d hd slot hslot
    rw [heq] at hlive
    exact ⟨⟨⟨d, hd, hslot⟩, hlive⟩, heq⟩
  refine ⟨hchanges.sound, hbpb ▸ hi.root_eq, hi.root, hi.apart, ?_, hi.nonempty, ?_, hi.disjoint,
    ?_, ?_, ?_, ?_⟩
  · intro h hh
    refine (hi.chain h hh).congr fun c hc => ?_
    exact hchanges.table c (hi.inVolume h hh c hc).hasEntry (hF h hh c hc)
  · rw [hbpb]
    exact hi.inVolume
  · intro slot hslot hX
    obtain ⟨hold, heq⟩ := hlive slot hslot
    rw [hbpb, heq]
    exact hi.refers slot hold hX
  · exact fun _ _ => hi.unique_of_live hlive
  · intro d hd slot hslot
    rw [hbpb] at hslot
    have hmem : slot ∈ fs.bpb.slots (G.chain d) :=
      Bpb.slots_mono (fun c hc => mem_of_mem_drop hc) hslot
    rw [hentry d hd slot hmem]
    exact hi.tail d hd slot hslot
  · intro d hd
    rw [hbpb, map_congr_left fun slot hslot => hentry d hd slot hslot]
    exact hi.dots d hd

theorem exempt (hX : X ⊆ X') : Inv fs G X' :=
  { hi with
    refers := fun slot hslot hnot => hi.refers slot hslot fun hmem => hnot (hX hmem)
    unique := fun slot slot' hslot hslot' hnot hnot' =>
      hi.unique slot slot' hslot hslot' (fun hmem => hnot (hX hmem)) fun hmem => hnot' (hX hmem) }

/-! ## Chains that come and go -/

/-- Chains whose heads no entry refers to may be forgotten. -/
theorem abandon (hdirs : dirs ⊆ G.dirs) (hfiles : files ⊆ G.files) (hroot : 2 ∈ dirs)
    (hkept : ∀ e, Refers fs.bpb G e → e.first ≠ c → Refers fs.bpb ⟨dirs, files, G.chain⟩ e)
    (hfree : ∀ slot, LiveAt fs G slot → slot ∉ X → (fs.entryAt slot).first ≠ c) :
    Inv fs ⟨dirs, files, G.chain⟩ X := by
  have hhead {h} (hh : Owners.IsHead ⟨dirs, files, G.chain⟩ h) : G.IsHead h :=
    hh.imp (fun hd => hdirs hd) fun hmem => hfiles hmem
  have hlive {slot} (h : LiveAt fs ⟨dirs, files, G.chain⟩ slot) : LiveAt fs G slot := by
    obtain ⟨⟨d, hd, hslot⟩, hlive⟩ := h
    exact ⟨⟨d, hdirs hd, hslot⟩, hlive⟩
  exact
    { sound := hi.sound
      root_eq := hi.root_eq
      root := hroot
      apart := fun h hd hmem => hi.apart h (hdirs hd) (hfiles hmem)
      chain := fun h hh => hi.chain h (hhead hh)
      nonempty := fun h hh => hi.nonempty h (hhead hh)
      inVolume := fun h hh => hi.inVolume h (hhead hh)
      disjoint := fun h h' hh hh' => hi.disjoint h h' (hhead hh) (hhead hh')
      refers := fun slot hslot hX => hkept _ (hi.refers slot (hlive hslot) hX)
        (hfree slot (hlive hslot) hX)
      unique := fun slot slot' hslot hslot' => hi.unique slot slot' (hlive hslot) (hlive hslot')
      tail := fun d hd => hi.tail d (hdirs hd)
      dots := fun d hd => hi.dots d (hdirs hd) }

theorem abandonFile (hfree : ∀ slot, LiveAt fs G slot → slot ∉ X → (fs.entryAt slot).first ≠ c) :
    Inv fs (G.dropFile c) X := by
  refine hi.abandon subset_rfl Set.sdiff_subset hi.root ?_ hfree
  rintro e (⟨hdir, hmem, hne⟩ | ⟨hdir, hzero, hsize⟩ | ⟨hdir, hmem, hlength⟩) hc
  · exact .dir hdir hmem hne
  · exact .empty hdir hzero hsize
  · exact .file hdir ⟨hmem, hc⟩ hlength

theorem abandonDir (hroot : c ≠ 2)
    (hfree : ∀ slot, LiveAt fs G slot → slot ∉ X → (fs.entryAt slot).first ≠ c) :
    Inv fs (G.dropDir c) X := by
  refine hi.abandon Set.sdiff_subset subset_rfl ⟨hi.root, hroot.symm⟩ ?_ hfree
  rintro e (⟨hdir, hmem, hne⟩ | ⟨hdir, hzero, hsize⟩ | ⟨hdir, hmem, hlength⟩) hc
  · exact .dir hdir ⟨hmem, hc⟩ hne
  · exact .empty hdir hzero hsize
  · exact .file hdir hmem hlength

structure Fresh (fs : FatFs) (G : Owners) (c : Nat) (l : List Nat) : Prop where
  chain : fs.HasChain c l
  nonempty : l ≠ []
  inVolume : ∀ k ∈ l, InVolume fs.bpb k
  apart : ∀ h, G.IsHead h → ∀ k ∈ l, k ∉ G.chain h

namespace Fresh

variable (hf : Fresh fs G c l)
include hf

omit hi in
theorem mem : c ∈ l := by
  cases hf.chain with
  | nil _ => exact absurd rfl hf.nonempty
  | cons _ _ => exact mem_cons_self ..

theorem not_isHead : ¬ G.IsHead c :=
  fun hh => hf.apart c hh c hf.mem (hi.head_mem hh)

theorem ne_of_isHead (hh : G.IsHead h) : h ≠ c := by
  rintro rfl
  exact hf.not_isHead hi hh

theorem update_of_isHead (hh : G.IsHead h) : update G.chain c l h = G.chain h :=
  update_of_ne (hf.ne_of_isHead hi hh) ..

theorem chain_cases {P : Nat → List Nat → Prop}
    (hnew : P c l) (hold : ∀ h, G.IsHead h → P h (G.chain h)) (hh : h = c ∨ G.IsHead h) :
    P h (update G.chain c l h) := by
  rcases hh with rfl | hh
  · rw [update_self]
    exact hnew
  · rw [hf.update_of_isHead hi hh]
    exact hold h hh

theorem disjoint (hh : h = c ∨ G.IsHead h) (hh' : h' = c ∨ G.IsHead h')
    (hk : k ∈ update G.chain c l h) (hk' : k ∈ update G.chain c l h') : h = h' := by
  rcases hh with rfl | hh
  · rcases hh' with rfl | hh'
    · rfl
    rw [update_self] at hk
    rw [hf.update_of_isHead hi hh'] at hk'
    exact absurd hk' (hf.apart h' hh' k hk)
  · rw [hf.update_of_isHead hi hh] at hk
    rcases hh' with rfl | hh'
    · rw [update_self] at hk'
      exact absurd hk (hf.apart h hh k hk')
    · rw [hf.update_of_isHead hi hh'] at hk'
      exact hi.disjoint h h' hh hh' k hk hk'

end Fresh

/-- A chain that nothing owned may be taken up, as long as it adds no live entry. -/
theorem adopt {dirs files : Set Nat} (hf : Fresh fs G c l)
    (hdirs : ∀ d ∈ dirs, d = c ∨ d ∈ G.dirs) (hfiles : ∀ f ∈ files, f = c ∨ f ∈ G.files)
    (hkept : G.dirs ⊆ dirs) (hkept' : G.files ⊆ files) (hapart : c ∈ dirs → c ∉ files)
    (hnew : c ∈ dirs → (∀ slot ∈ fs.bpb.slots l, ¬ (fs.entryAt slot).Live) ∧
      (∀ slot ∈ fs.bpb.slots (l.drop slotGuard), (fs.entryAt slot).byte 0 = 0x00) ∧
      DotsFirst ((fs.bpb.slots l).map fs.entryAt)) :
    Inv fs ⟨dirs, files, update G.chain c l⟩ X := by
  have hhead {h} (hh : Owners.IsHead ⟨dirs, files, update G.chain c l⟩ h) :
      h = c ∨ G.IsHead h := by
    rcases hh with hh | hh
    · exact (hdirs h hh).imp_right .inl
    · exact (hfiles h hh).imp_right .inr
  have hold : ∀ d ∈ G.dirs, update G.chain c l d = G.chain d :=
    fun d hd => hf.update_of_isHead hi (.inl hd)
  have hself : update G.chain c l c = l := update_self ..
  have hlive {slot} (h : LiveAt fs ⟨dirs, files, update G.chain c l⟩ slot) :
      LiveAt fs G slot := by
    obtain ⟨⟨d, hd, hslot⟩, hlive⟩ := h
    rcases hdirs d hd with rfl | hd'
    · exact absurd hlive ((hnew hd).1 slot (hself ▸ hslot))
    · exact ⟨⟨d, hd', hold d hd' ▸ hslot⟩, hlive⟩
  exact
    { sound := hi.sound
      root_eq := hi.root_eq
      root := hkept hi.root
      apart := by
        intro h hd hmem
        rcases hdirs h hd with rfl | hd'
        · exact hapart hd hmem
        rcases hfiles h hmem with rfl | hmem'
        · exact hf.not_isHead hi (.inl hd')
        · exact hi.apart h hd' hmem'
      chain := fun h hh => hf.chain_cases hi hf.chain hi.chain (hhead hh)
      nonempty := fun h hh =>
        hf.chain_cases hi (P := fun _ l => l ≠ []) hf.nonempty hi.nonempty (hhead hh)
      inVolume := fun h hh => hf.chain_cases hi (P := fun _ l => ∀ k ∈ l, InVolume fs.bpb k)
        hf.inVolume hi.inVolume (hhead hh)
      disjoint := fun h h' hh hh' k => hf.disjoint hi (hhead hh) (hhead hh')
      refers := fun slot hslot hX => (hi.refers slot (hlive hslot) hX).adopt
        (fun d hd => hkept hd) fun f hmem => ⟨hkept' hmem, hf.update_of_isHead hi (.inr hmem)⟩
      unique := fun slot slot' hslot hslot' => hi.unique slot slot' (hlive hslot) (hlive hslot')
      tail := by
        intro d hd
        dsimp only
        rcases hdirs d hd with rfl | hd'
        · rw [hself]
          exact (hnew hd).2.1
        · rw [hold d hd']
          exact hi.tail d hd'
      dots := by
        intro d hd
        dsimp only
        rcases hdirs d hd with rfl | hd'
        · rw [hself]
          exact (hnew hd).2.2
        · rw [hold d hd']
          exact hi.dots d hd' }

theorem adoptFile (hf : Fresh fs G c l) : Inv fs (G.addFile c l) X :=
  have hdir : c ∉ G.dirs := fun hd => hf.not_isHead hi (.inl hd)
  hi.adopt hf (fun _ hd => .inr hd) (fun _ hmem => hmem) subset_rfl
    (Set.subset_insert c _) (fun hd => absurd hd hdir) fun hd => absurd hd hdir

theorem adoptDir (hf : Fresh fs G c l)
    (hempty : ∀ slot ∈ fs.bpb.slots l, ¬ (fs.entryAt slot).Live)
    (htail : ∀ slot ∈ fs.bpb.slots (l.drop slotGuard), (fs.entryAt slot).byte 0 = 0x00)
    (hdots : DotsFirst ((fs.bpb.slots l).map fs.entryAt)) : Inv fs (G.addDir c l) X :=
  hi.adopt hf (fun _ hd => hd) (fun _ hmem => .inr hmem) (Set.subset_insert c _) subset_rfl
    (fun _ hmem => hf.not_isHead hi (.inr hmem))
    fun _ => ⟨hempty, htail, hdots⟩

/-! ## Directories that change -/

omit hi in
theorem not_named_of_zero {e : Entry} (h : e.byte 0 = 0x00) : ¬ e.Named := by
  intro hnamed
  have hused := hnamed.used
  simp [Entry.isFree, h] at hused

theorem extend (hd : d ∈ G.dirs) (hchanges : Changes fs fs' F S)
    (hF : ∀ h, G.IsHead h → h ≠ d → ∀ k ∈ G.chain h, k ∉ F)
    (hS : ∀ d ∈ G.dirs, ∀ k ∈ G.chain d, ∀ lba ∈ fs.bpb.clusterSectors k, lba ∉ S)
    (hchain : fs'.HasChain d (G.chain d ++ [c])) (hin : InVolume fs.bpb c)
    (hnew : ∀ h, G.IsHead h → c ∉ G.chain h)
    (hzero : ∀ slot ∈ fs.bpb.slots [c], (fs'.entryAt slot).byte 0 = 0x00) :
    Inv fs' (G.extend d c) X := by
  have hbpb := hchanges.bpb
  have hself : (G.extend d c).chain d = G.chain d ++ [c] := update_self ..
  have hother : ∀ h, h ≠ d → (G.extend d c).chain h = G.chain h := fun h hne =>
    update_of_ne hne ..
  have hmem : ∀ {h k}, k ∈ (G.extend d c).chain h → k ∈ G.chain h ∨ (h = d ∧ k = c) := by
    intro h k hk
    by_cases hne : h = d
    · subst hne
      rw [hself] at hk
      rcases mem_append.mp hk with hk | hk
      · exact .inl hk
      · exact .inr ⟨rfl, mem_singleton.mp hk⟩
    · rw [hother h hne] at hk
      exact .inl hk
  have hentry : ∀ e ∈ G.dirs, ∀ slot ∈ fs.bpb.slots (G.chain e),
      fs'.entryAt slot = fs.entryAt slot := fun e he slot => entryAt_eq hchanges hS he
  have hslots : ∀ {e slot}, slot ∈ fs.bpb.slots ((G.extend d c).chain e) →
      slot ∈ fs.bpb.slots (G.chain e) ∨ slot ∈ fs.bpb.slots [c] := by
    intro e slot hslot
    obtain ⟨⟨k, hk, hlba⟩, halign⟩ := Bpb.mem_slots.mp hslot
    rcases hmem hk with hk | ⟨-, rfl⟩
    · exact .inl (Bpb.mem_slots.mpr ⟨⟨k, hk, hlba⟩, halign⟩)
    · exact .inr (Bpb.mem_slots.mpr ⟨⟨k, mem_singleton_self k, hlba⟩, halign⟩)
  have hlive : ∀ slot, LiveAt fs' (G.extend d c) slot →
      LiveAt fs G slot ∧ fs'.entryAt slot = fs.entryAt slot := by
    rintro slot ⟨⟨e, he, hslot⟩, hlive⟩
    rw [hbpb] at hslot
    rcases hslots hslot with hslot | hslot
    · have heq := hentry e he slot hslot
      rw [heq] at hlive
      exact ⟨⟨⟨e, he, hslot⟩, hlive⟩, heq⟩
    · exact absurd hlive.named (not_named_of_zero (hzero slot hslot))
  exact
    { hi with
      sound := hchanges.sound
      root_eq := hbpb ▸ hi.root_eq
      chain := by
        intro h hh
        by_cases hne : h = d
        · subst hne
          rw [hself]
          exact hchain
        · rw [hother h hne]
          refine (hi.chain h hh).congr fun k hk => ?_
          exact hchanges.table k (hi.inVolume h hh k hk).hasEntry (hF h hh hne k hk)
      nonempty := by
        intro h hh
        by_cases hne : h = d
        · subst hne
          rw [hself]
          simp
        · rw [hother h hne]
          exact hi.nonempty h hh
      inVolume := by
        intro h hh k hk
        rw [hbpb]
        rcases hmem hk with hk | ⟨-, rfl⟩
        · exact hi.inVolume h hh k hk
        · exact hin
      disjoint := by
        intro h h' hh hh' k hk hk'
        rcases hmem hk with hold | ⟨rfl, rfl⟩
        · rcases hmem hk' with hold' | ⟨rfl, rfl⟩
          · exact hi.disjoint h h' hh hh' k hold hold'
          · exact absurd hold (hnew h hh)
        · rcases hmem hk' with hold' | ⟨rfl, -⟩
          · exact absurd hold' (hnew h' hh')
          · rfl
      refers := by
        intro slot hslot hX
        obtain ⟨hold, heq⟩ := hlive slot hslot
        rw [hbpb, heq]
        refine (hi.refers slot hold hX).adopt (fun _ he => he) fun f hfile => ⟨hfile, hother f ?_⟩
        rintro rfl
        exact hi.apart f hd hfile
      unique := fun _ _ => hi.unique_of_live hlive
      tail := by
        intro e he slot hslot
        rw [hbpb] at hslot
        have hold : slot ∈ fs.bpb.slots ((G.chain e).drop slotGuard) →
            (fs'.entryAt slot).byte 0 = 0x00 := by
          intro hslot
          rw [hentry e he slot (Bpb.slots_mono (fun k hk => mem_of_mem_drop hk) hslot)]
          exact hi.tail e he slot hslot
        by_cases hne : e = d
        · subst hne
          rw [hself, drop_append, Bpb.slots_append] at hslot
          rcases mem_append.mp hslot with hslot | hslot
          · exact hold hslot
          · exact hzero slot (Bpb.slots_mono (fun k hk => mem_of_mem_drop hk) hslot)
        · rw [hother e hne] at hslot
          exact hold hslot
      dots := by
        intro e he
        have hold : DotsFirst ((fs.bpb.slots (G.chain e)).map fs'.entryAt) := by
          rw [map_congr_left fun slot hslot => hentry e he slot hslot]
          exact hi.dots e he
        rw [hbpb]
        by_cases hne : e = d
        · subst hne
          rw [hself, Bpb.slots_append, map_append]
          refine hold.append fun x hx hdot => ?_
          obtain ⟨slot, hslot, rfl⟩ := mem_map.mp hx
          exact not_named_of_zero (hzero slot hslot) hdot.named
        · rw [hother e hne]
          exact hold }

theorem eq_of_mem_slots (hd : d ∈ G.dirs) (hd' : d' ∈ G.dirs) (hk : k ∈ G.chain d)
    (hk' : k' ∈ G.chain d') (hlba : slot.1 ∈ fs.bpb.clusterSectors k)
    (hlba' : slot.1 ∈ fs.bpb.clusterSectors k') : d = d' ∧ k = k' := by
  have heq : k = k' := Bpb.eq_of_mem_clusterSectors (hi.inVolume d (.inl hd) k hk).two_le
    (hi.inVolume d' (.inl hd') k' hk').two_le hlba hlba'
  subst heq
  exact ⟨hi.disjoint d d' (.inl hd) (.inl hd') k hk hk', rfl⟩

theorem not_mem_tail {d' : Nat} (hd : d ∈ G.dirs) (hd' : d' ∈ G.dirs)
    (hslot : slot ∈ fs.bpb.slots ((G.chain d).take slotGuard)) :
    slot ∉ fs.bpb.slots ((G.chain d').drop slotGuard) := by
  intro hslot'
  obtain ⟨⟨k, hk, hlba⟩, -⟩ := Bpb.mem_slots.mp hslot
  obtain ⟨⟨k', hk', hlba'⟩, -⟩ := Bpb.mem_slots.mp hslot'
  obtain ⟨rfl, rfl⟩ := hi.eq_of_mem_slots hd hd' (mem_of_mem_take hk)
    (mem_of_mem_drop hk') hlba hlba'
  have hnodup := (hi.chain d (.inl hd)).nodup not_isEnd_of_isCluster
  exact disjoint_take_drop hnodup (le_refl slotGuard) hk hk'

theorem writeEntry (hd : d ∈ G.dirs) (hslot : slot ∈ fs.bpb.slots ((G.chain d).take slotGuard))
    (hchanges : Changes fs fs' ∅ {slot.1})
    (hother : ∀ s, Aligned s → s ≠ slot → fs'.entryAt s = fs.entryAt s)
    (hold : ¬ (fs.entryAt slot).Dot) (hnew : ¬ (fs'.entryAt slot).Dot)
    (hlive : (fs'.entryAt slot).Live → Refers fs.bpb G (fs'.entryAt slot) ∧
      ∀ s, LiveAt fs G s → s ≠ slot → s ∉ X → (fs.entryAt s).first = (fs'.entryAt slot).first → (fs'.entryAt slot).first = 0) :
    Inv fs' G (X \ {slot}) := by
  have hbpb := hchanges.bpb
  have halign : ∀ {cs s}, s ∈ fs.bpb.slots cs → Aligned s := fun hs => (Bpb.mem_slots.mp hs).2
  have hkept : ∀ s, LiveAt fs' G s → s ≠ slot → LiveAt fs G s ∧ fs'.entryAt s = fs.entryAt s := by
    rintro s ⟨⟨e, he, hs⟩, hlive⟩ hne
    rw [hbpb] at hs
    have heq := hother s (halign hs) hne
    rw [heq] at hlive
    exact ⟨⟨⟨e, he, hs⟩, hlive⟩, heq⟩
  have hX : ∀ {s}, s ∉ X \ {slot} → s ≠ slot → s ∉ X := fun hnot hne hmem => hnot ⟨hmem, hne⟩
  exact
    { hi with
      sound := hchanges.sound
      root_eq := hbpb ▸ hi.root_eq
      chain := fun h hh => (hi.chain h hh).congr fun k hk =>
        hchanges.table k (hi.inVolume h hh k hk).hasEntry (Set.notMem_empty k)
      inVolume := by
        rw [hbpb]
        exact hi.inVolume
      refers := by
        intro s hs hnot
        rw [hbpb]
        by_cases hne : s = slot
        · subst hne
          exact (hlive hs.live).1
        obtain ⟨hold, heq⟩ := hkept s hs hne
        rw [heq]
        exact hi.refers s hold (hX hnot hne)
      unique := by
        intro s s' hs hs' hnot hnot' hfirst hzero
        by_cases hne : s = slot
        · by_cases hne' : s' = slot
          · rw [hne, hne']
          obtain ⟨hold', heq'⟩ := hkept s' hs' hne'
          subst hne
          rw [heq'] at hfirst
          exact absurd ((hlive hs.live).2 s' hold' hne' (hX hnot' hne') hfirst.symm) hzero
        · obtain ⟨hwas, heq⟩ := hkept s hs hne
          by_cases hne' : s' = slot
          · subst hne'
            rw [heq] at hfirst hzero
            exact absurd (hfirst.trans ((hlive hs'.live).2 s hwas hne (hX hnot hne) hfirst)) hzero
          · obtain ⟨hwas', heq'⟩ := hkept s' hs' hne'
            rw [heq, heq'] at hfirst
            rw [heq] at hzero
            exact hi.unique s s' hwas hwas' (hX hnot hne) (hX hnot' hne') hfirst hzero
      tail := by
        intro e he s hs
        rw [hbpb] at hs
        have hne : s ≠ slot := by
          rintro rfl
          exact hi.not_mem_tail hd he hslot hs
        rw [hother s (halign hs) hne]
        exact hi.tail e he s hs
      dots := by
        intro e he
        rw [hbpb]
        refine (hi.dots e he).of_changed fun s hs => ?_
        by_cases hne : s = slot
        · subst hne
          exact .inr ⟨hold, hnew⟩
        · exact .inl (hother s (halign hs) hne) }

end Inv

end EuroOS.Fat
