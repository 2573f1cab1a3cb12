import EuroOS.Eurofs.KeptCommit
import EuroOS.Eurofs.FormatMount

/-!
# The allocator on a device with errors

The blocks that the newest superblock on disk leads to are marked used, in every
state that a volume gets to while requests fail around it.  The remaining commands
that reach the device come first, then whole runs.
-/

namespace EuroOS

open List Action EuroFs
open Std (ExtTreeMap)

section

variable [TwoxHash]

namespace Keeps

/-! ## The tables -/

theorem retabled (h : Keeps fs v) (next : UInt64) (hcount : snaps.length ≤ maxSnapshots)
    (hpinned : ∀ snap ∈ snaps, Pinned (fs.repaired v.durable.checkpointId).dev v snap)
    (hlimits : QuotaEncodable limits)
    (hdev : Device.DiffersIn (fun b => b = snapshotTableBlock ∨ b = quotaTableBlock) fs.dev dev')
    (htables : TablesHold dev' snaps) :
    Keeps { fs with snapshots := snaps, nextSnapId := next, quotaLimits := limits, dev := dev' }
      { v with
        snapshots := snaps
        nextSnapId := next
        quotaLimits := limits
        savedSnapshots := snaps.map SnapshotEntry.stored } := by
  refine ⟨?_, h.generation, htables⟩
  refine h.core.retabled (dev'.retabled_faultFree _) hdev.size_eq ?_ next hcount hpinned
    (by rw [map_map]; rfl) ?_ hlimits ?_
  · intro b hsnaps hquota
    have hsame := hdev.block b (by tauto)
    simp only [repaired]
    rw [Device.retabled_block hsnaps hquota, Device.retabled_block hsnaps hquota, hsame]
  · simp only
    rw [Device.retabled_snaps, decodeSnapshots_encode hcount]
    rfl
  · simp only
    rw [Device.retabled_quota, decodeQuota_encode hlimits]
    rfl

theorem limits (h : Keeps fs v) : QuotaEncodable fs.quotaLimits := by
  have hlimits := h.core.sound.limits
  rw [h.state_eq] at hlimits
  exact hlimits

theorem snapCount (h : Keeps fs v) : fs.snapshots.length ≤ maxSnapshots := by
  have hcount := h.core.sound.snapCount
  rw [h.state_eq] at hcount
  exact hcount

theorem pinned (h : Keeps fs v) {snap : SnapshotEntry} (hsnap : snap ∈ fs.snapshots) :
    Pinned (fs.repaired v.durable.checkpointId).dev v snap := by
  refine h.core.pinned ?_
  rw [h.state_eq]
  exact hsnap

omit [TwoxHash] in
theorem tablesHold_store {dev : Device} (h : TablesHold dev snaps')
    (hcount : snaps.length ≤ maxSnapshots) :
    TablesHold (dev.store snapshotTableBlock (encodeSnapshots snaps)) snaps := by
  have hdecode : (decodeSnapshots ((dev.store snapshotTableBlock
      (encodeSnapshots snaps)).block snapshotTableBlock).bytes).getD [] =
      snaps.map SnapshotEntry.stored := by
    rw [Device.store_block_self, decodeSnapshots_encode hcount]
    rfl
  refine ⟨?_, ?_, ?_⟩
  · rw [hdecode]
    intro snap hsnap
    obtain ⟨snap', hmem, rfl⟩ := mem_map.mp hsnap
    exact ⟨snap', hmem, rfl, rfl⟩
  · rw [hdecode, length_map]
    exact hcount
  · rw [Device.store_block_of_ne (by decide)]
    exact h.limits

theorem saveSnapshots (h : Keeps fs v) {snaps : List SnapshotEntry} (next : UInt64)
    (hsub : ∀ snap ∈ fs.snapshots, snap ∈ snaps) (hcount : snaps.length ≤ maxSnapshots)
    (hpinned : ∀ snap ∈ snaps, Pinned (fs.repaired v.durable.checkpointId).dev v snap) :
    Kept (EuroFs.saveSnapshots { fs with snapshots := snaps, nextSnapId := next }).2 := by
  rw [EuroFs.saveSnapshots, get_bind, writeBlock]
  rcases fs.dev.writeBlock_cases snapshotTableBlock (encodeSnapshots snaps) with
    hok | ⟨dev', hfail, hsame⟩
  · simp only [hok]
    exact ⟨_, h.retabled next hcount hpinned h.limits
      (Device.store_differsIn.mono fun b hb => .inl hb) (tablesHold_store h.tables hcount)⟩
  simp only [hfail]
  refine ⟨_, h.retabled next hcount hpinned h.limits (hsame.mono fun _ hno => hno.elim) ?_⟩
  have hold := h.tables.congr (hsame.block _ id) (hsame.block _ id)
  refine ⟨fun snap hsnap => ?_, hold.count, hold.limits⟩
  obtain ⟨snap', hmem, hrest⟩ := hold.saved snap hsnap
  exact ⟨snap', hsub snap' hmem, hrest⟩

theorem saveLimits (h : Keeps fs v) {limits : BTreeMap UInt32 UInt64}
    (hlimits : QuotaEncodable limits) : Kept (saveQuota { fs with quotaLimits := limits }).2 := by
  rw [saveQuota, get_bind, writeBlock]
  rcases fs.dev.writeBlock_cases quotaTableBlock (encodeQuota limits) with
    hok | ⟨dev', hfail, hsame⟩
  · simp only [hok]
    refine ⟨_, h.retabled fs.nextSnapId h.snapCount (fun _ => h.pinned) hlimits
      (Device.store_differsIn.mono fun b hb => .inr hb) ?_⟩
    refine ⟨?_, ?_, ?_⟩
    · rw [Device.store_block_of_ne (by decide)]
      exact h.tables.saved
    · rw [Device.store_block_of_ne (by decide)]
      exact h.tables.count
    · rw [Device.store_block_self, decodeQuota_encode hlimits]
      exact hlimits
  · simp only [hfail]
    exact ⟨_, h.retabled fs.nextSnapId h.snapCount (fun _ => h.pinned) hlimits
      (hsame.mono fun _ hno => hno.elim) (h.tables.congr (hsame.block _ id) (hsame.block _ id))⟩

end Keeps

namespace Kept

theorem ensures_of_snd {α : Type} {pre : EuroFs → Prop} {x : Disk α}
    (h : ∀ fs, pre fs → Kept (x fs).2) : Action.Ensures pre x (fun _ => Kept) Kept := by
  intro fs hfs
  have hkept := h fs hfs
  generalize x fs = outcome at hkept
  obtain ⟨result, fs'⟩ := outcome
  cases result with
  | ok a => exact hkept
  | error e =>
    cases e with
    | err e => exact hkept
    | stop reason => trivial

theorem quotaSet (uid : UInt32) (limitBlocks : UInt64) :
    Action.Ensures Kept (EuroFs.quotaSet uid limitBlocks) (fun _ => Kept) Kept := by
  refine .get_bind fun fs h => ?_
  obtain ⟨v, hv⟩ := h
  split
  · rintro _ rfl
    exact ⟨v, hv⟩
  split
  · refine .known_bind (modify_apply _ fs) (ensures_of_snd ?_)
    rintro _ rfl
    exact hv.saveLimits (Refines.quotaEncodable_erase hv.limits uid)
  rename_i huid hzero
  split
  · rintro _ rfl
    exact ⟨v, hv⟩
  rename_i hfull
  refine .known_bind (modify_apply _ fs) (ensures_of_snd ?_)
  rintro _ rfl
  exact hv.saveLimits (Refines.quotaEncodable_insert hv.limits huid hzero hfull)

theorem snapshotCreate (label : Str) (flags : UInt32) :
    Action.Ensures (fun fs => Kept fs ∧ fs.RebuildReads) (EuroFs.snapshotCreate label flags)
      (fun _ => Kept) Kept := by
  refine .get_bind fun fs ⟨h, hreads⟩ => ?_
  split
  · rintro _ rfl
    exact h
  rename_i hroom
  refine .bind ((Kept.commit fs.snapshots).strengthen ?_) fun _ => ?_
  · rintro _ rfl
    exact ⟨h, hreads, rfl⟩
  refine .get_bind fun fs₁ ⟨v, hv, hcommitted, hsnaps⟩ => ?_
  refine .read_bind (fun _ _ hs _ => hs ▸ ⟨v, hv⟩) fun next => ?_
  refine Action.Ensures.strengthen (.known_bind (modify_apply _ fs₁)
    (.bind (ensures_of_snd ?_) ?_)) fun _ hs => hs.1
  · rintro _ rfl
    refine hv.saveSnapshots next (fun _ hsnap => mem_append_left _ hsnap) ?_ ?_
    · rw [length_append, hsnaps, length_singleton]
      omega
    · intro snap hsnap
      rcases mem_append.mp hsnap with hold | hnew
      · exact hv.pinned hold
      rw [mem_singleton.mp hnew]
      refine hv.core.pinned_current hcommitted ?_ ?_
      · rw [hv.state_eq]
        rfl
      · rw [hv.state_eq]
        rfl
  · exact fun _ _ hs => hs

theorem snapshotDelete (id : UInt64) :
    Action.Ensures (fun fs => Kept fs ∧ fs.RebuildReads ∧
        ∀ t, fs.dev.writeFails t snapshotTableBlock = false)
      (EuroFs.snapshotDelete id) (fun _ => Kept) Kept := by
  apply Action.Ensures.get_bind
  rintro fs ⟨⟨v, hv⟩, hreads, hwrites⟩
  apply Action.Ensures.known_bind (modify_apply _ fs)
  have hsub : (fs.snapshots.filter fun s => s.id ≠ id).Sublist fs.snapshots := filter_sublist
  split
  · -- nothing was deleted
    rename_i hall
    rintro _ rfl
    rw [hsub.eq_of_length hall]
    exact ⟨v, hv⟩
  generalize fs.snapshots.filter (fun s => s.id ≠ id) = kept at hsub
  have hcount : kept.length ≤ maxSnapshots := hsub.length_le.trans hv.snapCount
  have hsaved := hv.retabled fs.nextSnapId hcount (fun snap hsnap => hv.pinned (hsub.subset hsnap))
    hv.limits (Device.store_differsIn.mono fun b hb => .inl hb)
    (Keeps.tablesHold_store hv.tables hcount)
  have hreads' : RebuildReads { fs with
      snapshots := kept
      dev := fs.dev.store snapshotTableBlock (encodeSnapshots kept) } := by
    rcases hreads with ⟨hnone, hhints⟩ | hall
    · rw [hnone] at hsub
      exact .inl ⟨sublist_nil.mp hsub, hhints⟩
    · exact .inr hall
  intro s hs
  have hlt : snapshotTableBlock < fs.dev.size := hv.core.reserved_lt_size (by decide)
  have hput : EuroFs.saveSnapshots s = (.ok (), { fs with
      snapshots := kept
      dev := fs.dev.store snapshotTableBlock (encodeSnapshots kept) }) := by
    rw [hs, EuroFs.saveSnapshots, get_bind, writeBlock, Device.writeBlock, if_pos ⟨hlt, hwrites _⟩]
  rw [bind_of_ok hput]
  exact (Kept.commit kept).weaken (fun _ _ hdone => hdone.imp fun _ hv' => hv'.1) _
    ⟨⟨_, hsaved⟩, hreads', rfl⟩

end Kept

/-! ## Going back, and mounting again -/

theorem EuroFs.countUsage_cases (fs : EuroFs) (oids : List Oid) (s : FsState) :
    (∃ reason, fs.countUsage oids s = .error (.stop reason)) ∨
      ∃ usage, fs.countUsage oids s = .ok { s with usage := usage } := by
  induction oids generalizing s with
  | nil => exact .inr ⟨s.usage, rfl⟩
  | cons oid oids ih =>
    rw [countUsage]
    split
    · exact .inl ⟨_, rfl⟩
    · exact ih s
    rename_i inode _
    obtain ⟨usage, hadd⟩ := s.usageAdd_eq inode.uid (dataBlocksOf inode)
    rw [hadd]
    exact ih _

theorem EuroFs.rebuildUsage_ensures (fs : EuroFs) (err : EuroFs → Prop) :
    Action.Ensures (· = fs) rebuildUsage
      (fun _ fs' => ∃ usage, fs' = { fs with usage := usage }) err := by
  intro s hs
  rw [hs, rebuildUsage, bind_apply, read_apply]
  rcases countUsage_cases _ fs.objmap.keys { fs.toFsState with usage := ∅ } with
    ⟨reason, hcount⟩ | ⟨usage, hcount⟩
  · rw [hcount]
    trivial
  · rw [hcount]
    exact ⟨usage, rfl⟩

namespace Keeps

theorem withSnapshot (h : Keeps fs v) (hsnap : snap ∈ fs.snapshots) (s : FsState)
    (hused : s.used = fs.used) (hsnaps : s.snapshots = fs.snapshots)
    (hlimits : s.quotaLimits = fs.quotaLimits) (hgen : s.sb.checkpointId = fs.sb.checkpointId)
    (hheader : s.sb.HeaderOk) :
    Kept { fs with
      toFsState := s
      objmap := Vol.objmapOf (v.mapAt snap.objmapRoot)
      extentsCache := ∅ } := by
  obtain ⟨hmap, hcover⟩ := h.pinned hsnap
  have hcore := h.core.withTable (s := { s with
      sb := { s.sb with checkpointId := v.durable.checkpointId } }) hmap.stored
    (fun b hb => hcover b (.inr hb)) (hused.trans h.used_eq.symm) ?_ ?_ ?_ hheader
  · refine ⟨{ v with
      toFsState := { s with sb := { s.sb with checkpointId := v.durable.checkpointId } }
      objs := v.mapAt snap.objmapRoot }, ?_, ?_, ?_⟩
    · have hdev : fs.dev.retabled s = fs.dev.retabled fs.toFsState := by
        rw [Device.retabled, Device.retabled, hsnaps, hlimits]
      simp only [repaired] at hcore ⊢
      rw [hdev]
      exact hcore
    · change v.durable.checkpointId ≤ s.sb.checkpointId
      rw [hgen]
      exact h.generation
    · have htables := h.tables
      rw [← hsnaps] at htables
      exact htables
  · rw [h.state_eq]
    exact congrArg (List.map SnapshotEntry.unlabeled) hsnaps
  · rw [h.state_eq]
    exact hlimits
  · exact h.core.sound.generation.symm

theorem loadSnapshot (h : Keeps fs v) (hsnap : snap ∈ fs.snapshots)
    (hreads : ∀ t b, reservedBlocks ≤ b → fs.dev.readFails t b = false) :
    loadObjmap (setSb (fun sb =>
        { sb with objectMapRoot := snap.objmapRoot, extentTreeRoot := snap.mapBlocks }) fs) =
      (.ok (), { setSb (fun sb =>
          { sb with objectMapRoot := snap.objmapRoot, extentTreeRoot := snap.mapBlocks }) fs with
        objmap := Vol.objmapOf (v.mapAt snap.objmapRoot) }) := by
  obtain ⟨hmap, hcover⟩ := h.pinned hsnap
  obtain ⟨data, hread, -, hentries⟩ := @MapStored.readRun _ _ _ _
    (fs.repaired v.durable.checkpointId) hmap h.core.faultFree fun b hb => by
      rw [← h.core.size_eq]
      exact (hcover b hb).2.lt
  rw [← h.readRun_eq (hcover _ (Refines.owns_root hmap)).1 hreads] at hread
  have hrun := @readRun_congr fs (setSb (fun sb =>
    { sb with objectMapRoot := snap.objmapRoot, extentTreeRoot := snap.mapBlocks }) fs) rfl
    snap.objmapRoot.toNat snap.mapBlocks.toNat
  exact Refines.loadObjmap_of_read hmap.blocks_eq (hrun.trans hread) hentries rfl rfl

end Keeps

theorem Kept.snapshotRollback (id : UInt64) :
    Action.Ensures
      (fun fs => Kept fs ∧ ∀ t b, reservedBlocks ≤ b → fs.dev.readFails t b = false)
      (EuroFs.snapshotRollback id) (fun _ => Kept) Kept := by
  refine .get_bind fun fs ⟨⟨v, hv⟩, hreads⟩ => ?_
  split
  · rintro _ rfl
    exact ⟨v, hv⟩
  rename_i snap hfind
  have hsnap := mem_of_find?_eq_some hfind
  refine .known_bind (modify_apply _ fs) ?_
  refine .known_bind (hv.loadSnapshot hsnap hreads) ?_
  refine .read_bind (fun s e hs hnext => ?_) fun next => ?_
  · cases Refines.checkedSucc_error hnext
  refine Action.Ensures.strengthen (.known_bind (modify_apply _ _)
    (.bind (rebuildUsage_ensures _ _) fun _ => ?_)) fun _ hs => hs.1
  refine ((Kept.commit fs.snapshots).weaken fun _ _ ⟨v', hv', _⟩ => ⟨v', hv'⟩).strengthen ?_
  rintro _ ⟨usage, rfl⟩
  exact ⟨hv.withSnapshot hsnap _ rfl rfl rfl rfl hv.header, .inr hreads, rfl⟩

theorem Keeps.onDisk (h : Keeps fs v) (hfree : fs.dev.FaultFree) :
    ∃ fs' v', fs'.dev = fs.dev ∧ fs'.used = fs.used ∧ Refines fs' v' := by
  have hpinned : ∀ snap ∈ (decodeSnapshots (fs.dev.block snapshotTableBlock).bytes).getD [],
      Pinned (fs.repaired v.durable.checkpointId).dev v snap := by
    intro snap hsnap
    obtain ⟨snap', hmem, hroot, hblocks⟩ := h.tables.saved snap hsnap
    have hpinned := h.pinned hmem
    unfold Pinned Vol.snapshotOwns at hpinned ⊢
    rw [hroot, hblocks]
    exact hpinned
  have hdisk := h.core.retabled hfree rfl
    (fun b hsnaps hquota => (Device.retabled_block hsnaps hquota).symm) fs.nextSnapId
    h.tables.count hpinned rfl rfl h.tables.limits rfl
  refine ⟨_, _, ?_, ?_, hdisk⟩
  · rfl
  · rfl

theorem Kept.mount (h : Kept fs) (hfree : fs.dev.FaultFree) {now : UInt64} {fs' : EuroFs}
    (hmount : EuroFs.mount fs.dev now = .ok fs') : Kept fs' := by
  obtain ⟨v, hv⟩ := h
  obtain ⟨fs₀, v₀, hdev, -, href⟩ := hv.onDisk hfree
  rw [← hdev] at hmount
  rcases href.remount now with ⟨-, e, herr⟩ | ⟨fs₁, -, hok, hfinal⟩
  · rw [herr] at hmount
    cases hmount
  · rw [hok, Except.ok.injEq] at hmount
    exact hmount ▸ hfinal.kept

end

/-! ## Runs on a device with errors -/

/-- The block layer on a device whose faults are chosen anew for each command; the
state counts the commands. -/
def faultyHandler [TwoxHash] (faults : Nat → Faults) : Handler fsSignature (EuroFs × Nat) :=
  fun cmd (fs, n) =>
    match diskHandler cmd (fs.withFaults (faults n)) with
    | .ok (answer, fs') => .ok (answer, (fs', n + 1))
    | .error reason => .error reason

/-- What must not fail in a command.  A commit may lose any of its writes, but the
reads of its rebuild have to succeed; a rollback starts without hints, a deleted
snapshot must leave the table on disk, and a mount must see the disk as it is. -/
def Sheltered (faults : Nat → Faults) : FsCmd → EuroFs × Nat → Prop
  | .commit, (fs, n) => (fs.withFaults (faults n)).RebuildReads
  | .snapshotCreate _ _, (fs, n) => (fs.withFaults (faults n)).RebuildReads
  | .snapshotDelete _, (fs, n) => (fs.withFaults (faults n)).RebuildReads ∧
      ∀ t, (faults n).writes t snapshotTableBlock = false
  | .snapshotRollback _, (_, n) => (faults n).DataReadable
  | .remount _, (_, n) => ∀ t b, (faults n).reads t b = false ∧ (faults n).writes t b = false
  | _, _ => True

section

variable [TwoxHash]

theorem faultyHandler_eq_ok {faults : Nat → Faults} {cmd : FsCmd} {s s' : EuroFs × Nat}
    {answer : Except FsError cmd.Ans} (hrun : faultyHandler faults cmd s = .ok (answer, s')) :
    diskHandler cmd (s.1.withFaults (faults s.2)) = .ok (answer, s'.1) ∧ s'.2 = s.2 + 1 := by
  simp only [faultyHandler] at hrun
  split at hrun
  · rename_i answer₁ fs₁ heq
    cases hrun
    exact ⟨heq, rfl⟩
  · cases hrun

theorem kept_of_ensures {α : Type} {pre : EuroFs → Prop} {x : Disk α}
    (hx : Action.Ensures pre x (fun _ => Kept) Kept) (hpre : pre fs)
    {answer : Except FsError α} (hrun : answered (x fs) = .ok (answer, fs')) : Kept fs' := by
  have hout := hx fs hpre
  generalize x fs = outcome at hout hrun
  obtain ⟨result, middle⟩ := outcome
  cases result with
  | ok a =>
    cases hrun
    exact hout
  | error e =>
    cases e with
    | err e =>
      cases hrun
      exact hout
    | stop reason => cases hrun

theorem Kept.withState (h : Kept fs) (s : FsState) (hsb : s.sb = fs.sb) (hused : s.used = fs.used)
    (hsnaps : s.snapshots = fs.snapshots) (hlimits : s.quotaLimits = fs.quotaLimits) :
    Kept { fs with toFsState := s } := by
  obtain ⟨v, hv⟩ := h
  exact hv.withState s hsb hused hsnaps hlimits

theorem Kept.withFaults (h : Kept fs) (f : Faults) : Kept (fs.withFaults f) := by
  obtain ⟨v, hv⟩ := h
  exact ⟨v, hv.withFaults f⟩

theorem Kept.ofState {α : Type} {x : Action FsState α}
    (hx : ∀ s, (x s).2.sb = s.sb ∧ (x s).2.used = s.used ∧ (x s).2.snapshots = s.snapshots ∧
      (x s).2.quotaLimits = s.quotaLimits) :
    Action.Ensures Kept (EuroFs.ofState x) (fun _ => Kept) Kept :=
  Kept.ensures_of_snd fun fs hkept =>
    hkept.withState (x fs.toFsState).2 (hx _).1 (hx _).2.1 (hx _).2.2.1 (hx _).2.2.2

theorem kept_step {faults : Nat → Faults} (cmd : FsCmd) (s : EuroFs × Nat)
    (answer : Except FsError cmd.Ans) (s' : EuroFs × Nat) (hkept : Kept s.1)
    (hsheltered : Sheltered faults cmd s) (hrun : faultyHandler faults cmd s = .ok (answer, s')) :
    Kept s'.1 := by
  obtain ⟨fs, n⟩ := s
  obtain ⟨fs', n'⟩ := s'
  have hstart : Kept (fs.withFaults (faults n)) := hkept.withFaults _
  have hcmd := (faultyHandler_eq_ok hrun).1
  clear hrun
  cases cmd with
  | read q =>
    exact kept_of_ensures (Kept.ensures_of_snd (x := fun fs => (fs.reader.answer q, fs))
      fun _ hsame => hsame) hstart hcmd
  | resolve path followFinal =>
    exact kept_of_ensures (Kept.ofState fun _ => ⟨rfl, rfl, rfl, rfl⟩) hstart hcmd
  | writeObject inode data => exact kept_of_ensures (Kept.writeObject inode data) hstart hcmd
  | forgetObject oid =>
    cases hcmd
    obtain ⟨v, hv⟩ := hstart
    exact ⟨_, hv.forgetObject oid⟩
  | usageSub uid blocks =>
    cases hcmd
    obtain ⟨usage, hsub⟩ := (fs.withFaults (faults n)).toFsState.usageSub_eq uid blocks
    rw [hsub]
    exact hstart.withState _ rfl rfl rfl rfl
  | commit =>
    refine kept_of_ensures ((Kept.commit fs.snapshots).weaken fun _ _ ⟨v, hv, _⟩ => ⟨v, hv⟩)
      ⟨hstart, hsheltered, rfl⟩ hcmd
  | takeOid =>
    refine kept_of_ensures (Kept.ofState fun s => ?_) hstart hcmd
    unfold FsState.takeOid
    split <;> exact ⟨rfl, rfl, rfl, rfl⟩
  | getNow =>
    cases hcmd
    exact hstart
  | setNow now =>
    cases hcmd
    exact hstart.withState _ rfl rfl rfl rfl
  | getUid =>
    cases hcmd
    exact hstart
  | setUid uid =>
    cases hcmd
    exact hstart.withState _ rfl rfl rfl rfl
  | cacheInsert path oid =>
    cases hcmd
    exact hstart.withState _ rfl rfl rfl rfl
  | cacheClear =>
    cases hcmd
    exact hstart.withState _ rfl rfl rfl rfl
  | snapshotCreate label flags =>
    exact kept_of_ensures (Kept.snapshotCreate label flags) ⟨hstart, hsheltered⟩ hcmd
  | snapshotRollback id =>
    exact kept_of_ensures (Kept.snapshotRollback id) ⟨hstart, hsheltered⟩ hcmd
  | snapshotDelete id =>
    exact kept_of_ensures (Kept.snapshotDelete id) ⟨hstart, hsheltered⟩ hcmd
  | quotaSet uid limitBlocks =>
    exact kept_of_ensures (Kept.quotaSet uid limitBlocks) hstart hcmd
  | quotaInfo uid =>
    cases hcmd
    exact hstart
  | remount now =>
    simp only [diskHandler] at hcmd
    split at hcmd
    · rename_i fs₁ hmount
      cases hcmd
      exact hstart.mount ⟨fun t b => (hsheltered t b).1, fun t b => (hsheltered t b).2⟩ hmount
    · cases hcmd

end

/-! ## The committed blocks are marked -/

section

variable [TwoxHash]

def Inode.dataBlocks (inode : Inode) : List Nat :=
  inode.extents.flatMap fun extent => (List.range extent.2).map (extent.1 + ·)

/-- The blocks that the newest valid superblock on disk leads to: its object map,
the inodes that the map lists and their data. -/
def Device.committedBlocks (dev : Device) : List Nat :=
  match EuroFsSuperblock.readFrom dev.calm with
  | none => []
  | some sb =>
    let root := sb.objectMapRoot.toNat
    let blocks := max sb.extentTreeRoot.toNat 1
    (List.range blocks).map (root + ·) ++
      match (blank dev.calm sb 0).readRun root blocks with
      | .error _ => []
      | .ok data => (Objmap.entries data).flatMap fun entry =>
        entry.2 :: match (blank dev.calm sb 0).readInodeAt entry.2 with
          | .error _ => []
          | .ok inode => inode.dataBlocks

/-- Every block of the committed state on disk is marked used in memory. -/
def EuroFs.CoversCommitted (fs : EuroFs) : Prop :=
  ∀ b ∈ fs.dev.committedBlocks, Used fs.used b

instance (fs : EuroFs) : Decidable fs.CoversCommitted :=
  inferInstanceAs (Decidable (∀ b ∈ fs.dev.committedBlocks, fs.used[b]? = some true))

theorem Refines.coversCommitted (h : Refines fs v) : fs.CoversCommitted := by
  intro b hb
  have hused : ∀ b, v.durableOwns b → Used fs.used b := by
    intro b howns
    rw [h.state]
    exact (h.sound.covered b (.inr (.inl howns))).2
  have hfind := h.mountable
  have hblocks : max v.durable.extentTreeRoot.toNat 1 = v.durable.extentTreeRoot.toNat := by
    have hpos : 0 < v.durable.extentTreeRoot.toNat :=
      hfind.map.blocks_eq ▸ Objmap.blocksNeeded_pos _
    exact max_eq_left hpos
  obtain ⟨data, hread, -, hentries⟩ := @MapStored.readRun _ _ _ _
    (blank fs.dev v.durable 0) hfind.map h.faultFree hfind.fit
  simp only [Device.committedBlocks, h.faultFree.calm_eq, hfind.superblock, hblocks, hread,
    hentries, mem_append, mem_map, mem_range, mem_flatMap] at hb
  rcases hb with ⟨i, hi, rfl⟩ | ⟨entry, hentry, hb⟩
  · exact hused _ (.inl ⟨by omega, by omega⟩)
  obtain ⟨obj, hobj, hblk⟩ := mem_toList_objmapOf hentry
  have hstored := hfind.map.stored entry.1 obj hobj
  have hinode : (blank fs.dev v.durable 0).readInodeAt entry.2 = .ok obj.ino := by
    rw [← hblk]
    exact @Stored.readInodeAt _ _ _ (blank fs.dev v.durable 0) hstored h.faultFree
      (hfind.fit _ (.inr ⟨entry.1, obj, hobj, .inl rfl⟩))
  rw [hinode] at hb
  rcases mem_cons.mp hb with rfl | hb
  · exact hused _ (.inr ⟨entry.1, obj, hobj, .inl hblk.symm⟩)
  simp only [Inode.dataBlocks, mem_flatMap, mem_map, mem_range] at hb
  obtain ⟨extent, hextent, i, hi, rfl⟩ := hb
  exact hused _ (.inr ⟨entry.1, obj, hobj, .inr ⟨extent, hextent, by omega, by omega⟩⟩)

theorem Kept.coversCommitted (h : Kept fs) : fs.CoversCommitted := by
  obtain ⟨v, hv⟩ := h
  obtain ⟨fs', v', hdev, hused, href⟩ := (hv.withFaults .none).onDisk fs.dev.calm_faultFree
  have hcovers := href.coversCommitted
  unfold CoversCommitted at hcovers ⊢
  rw [hdev, hused] at hcovers
  exact hcovers

/-! ## The volume can be mounted again -/

/-- The newest superblock leads to a whole object map, and a mount finds that map and writes
nothing, as long as no identifier has reached its largest value. -/
def Device.Recovers (dev : Device) : Prop :=
  ∃ sb table snaps, Mountable dev sb table snaps ∧ ∀ now nextSnapId nextOid,
    checkedSucc ((snaps.map SnapshotEntry.id).foldl max 0) = .ok nextSnapId →
    successorOid (Vol.objmapOf table) = .ok nextOid →
    ∃ fs, mount dev now = .ok fs ∧ fs.dev = dev ∧ fs.objmap = Vol.objmapOf table ∧
      fs.snapshots = snaps ∧ fs.CoversCommitted

theorem Kept.recovers (h : Kept fs) : fs.dev.calm.Recovers := by
  obtain ⟨v, hv⟩ := h
  obtain ⟨fs', v', hdev, -, href⟩ := (hv.withFaults .none).onDisk fs.dev.calm_faultFree
  rw [show fs.dev.calm = fs'.dev from hdev.symm]
  refine ⟨_, _, _, href.mountable, fun now nextSnapId nextOid hsnap hoid => ?_⟩
  obtain ⟨hints, -, hrebuild⟩ := href.rebuild_loaded now nextSnapId nextOid
  have hmount := href.mountable.mount now hsnap hrebuild
  rw [hoid, ok_bind, href.healed_eq] at hmount
  exact ⟨_, hmount, rfl, rfl, rfl, (href.kept.mount href.faultFree hmount).coversCommitted⟩

end

namespace Xxh3

scoped instance : TwoxHash := twoxHash

end Xxh3

open scoped Xxh3

def slotFaults (n : Nat) : Faults :=
  if n = 0 then ⟨fun _ _ => false, fun _ b => b = superblockBlock || b = superblockBackupBlock⟩
  else .none

theorem slotFaults_sheltered (cmd : FsCmd) (s : EuroFs × Nat) (hs : s.2 ≠ 0) :
    Sheltered slotFaults cmd s := by
  obtain ⟨fs, n⟩ := s
  have hnone : slotFaults n = .none := if_neg hs
  cases cmd with
  | commit => exact .inr fun t b _ => congrFun (congrFun (congrArg Faults.reads hnone) t) b
  | snapshotCreate label flags =>
    exact .inr fun t b _ => congrFun (congrFun (congrArg Faults.reads hnone) t) b
  | snapshotDelete id =>
    exact ⟨.inr fun t b _ => congrFun (congrFun (congrArg Faults.reads hnone) t) b,
      fun t => congrFun (congrFun (congrArg Faults.writes hnone) t) _⟩
  | snapshotRollback id =>
    exact fun t b _ => congrFun (congrFun (congrArg Faults.reads hnone) t) b
  | remount now =>
    exact fun t b => ⟨congrFun (congrFun (congrArg Faults.reads hnone) t) b,
      congrFun (congrFun (congrArg Faults.writes hnone) t) b⟩
  | _ => trivial

def rootFaults (n : Nat) : Faults :=
  if n = 12 then ⟨fun _ b => b = 19, fun _ _ => false⟩ else .none

end EuroOS
