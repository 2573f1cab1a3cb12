import EuroOS.Nvme

/-!
# Commands that complete in time do not affect each other

While a command is in flight the controller goes through four stages with it
(`Hal.at`), and nothing else moves.  A call that waits for the completion leaves an
idle controller behind, and a run of such calls is a run on a plain disk
(`Follows`).  A call that gives a command up leaves the command, its entry and the
shared data pages to the controller: what it does with them later falls on the
next calls.
-/

namespace EuroOS.EuroNvme

open Function World List

/-! ## What the controller reads in an entry -/

theorem toNat_halves (x : UInt64) :
    x.toUInt32.toNat + (x >>> 32).toUInt32.toNat <<< 32 = x.toNat := by
  have := x.toNat_lt
  simp [Nat.shiftRight_eq_div_pow, Nat.shiftLeft_eq]
  omega

theorem toNat_firstWord (opcode : UInt8) (cid : UInt16) :
    (opcode.toUInt32 ||| cid.toUInt32 <<< 16).toNat = cid.toNat * 65536 + opcode.toNat := by
  have hop := opcode.toNat_lt
  have hcid := cid.toNat_lt
  have hshift : (cid.toUInt32 <<< 16).toNat = cid.toNat <<< 16 := by
    simp [Nat.shiftLeft_eq]
    omega
  rw [UInt32.toNat_or, hshift, UInt8.toNat_toUInt32, Nat.or_comm,
    ← Nat.shiftLeft_add_eq_or_of_lt (i := 16) (by omega), Nat.shiftLeft_eq]

namespace Nvme

variable (n : Nvme) (write : Bool) (cid : UInt16) (lba : UInt64) (count : UInt16) (bytes : Nat)

theorem opcode_ioCommand : (n.ioCommand write cid lba count bytes).opcode =
    (if write then ioWrite else ioRead).toNat := by
  have := (if write then ioWrite else ioRead).toNat_lt
  simp only [ioCommand, cmdBase, Command.opcode, Command.word, set_cons_succ,
    set_cons_zero, getD_cons_zero, toNat_firstWord]
  omega

theorem cid_ioCommand : (n.ioCommand write cid lba count bytes).cid = cid.toNat := by
  have := (if write then ioWrite else ioRead).toNat_lt
  simp only [ioCommand, cmdBase, Command.cid, Command.word, set_cons_succ,
    set_cons_zero, getD_cons_zero, toNat_firstWord]
  omega

theorem prp1_ioCommand : (n.ioCommand write cid lba count bytes).prp1 = n.data.toNat :=
  toNat_halves n.data

theorem prp2_ioCommand : (n.ioCommand write cid lba count bytes).prp2 =
    (if bytes > page then n.data + 4096 else 0 : UInt64).toNat :=
  toNat_halves _

theorem slba_ioCommand : (n.ioCommand write cid lba count bytes).slba = lba.toNat :=
  toNat_halves lba

theorem sectors_ioCommand (hcount : count ≠ 0) :
    (n.ioCommand write cid lba count bytes).sectors = count.toNat := by
  have hpos : count.toNat ≠ 0 := fun h => hcount (UInt16.toNat_inj.mp h)
  have hlt := count.toNat_lt
  have hword : (n.ioCommand write cid lba count bytes).word 12 = (count - 1).toNat := rfl
  rw [Command.sectors, hword, UInt16.toNat_sub_of_le _ _ (by
    rw [UInt16.le_iff_toNat_le]; simp; omega)]
  simp
  omega

end Nvme

theorem length_overlay {bs : Bytes} (h : pos + bs.length ≤ b.length) :
    (overlay b pos bs).length = b.length := by
  simp [overlay]
  omega

theorem slice_overlay_zero (b bs : Bytes) : slice (overlay b 0 bs) 0 bs.length = bs := by
  simp [overlay, slice]

theorem take_overlay_zero (b bs : Bytes) : (overlay b 0 bs).take bs.length = bs := by simp [overlay]

namespace Hal

variable {env : Nat → List Action} {h : Hal}

def Quiet (h : Hal) : Prop := h.inFlight = [] ∧ h.sqHead = h.sqTail

theorem act_quiet (hq : h.Quiet) (a : Action) : h.act a = h := by cases a <;> simp [act, hq.1, hq.2]

theorem foldl_act_quiet (hq : h.Quiet) (actions : List Action) : actions.foldl act h = h := by
  induction actions with
  | nil => rfl
  | cons a actions ih => rw [foldl_cons, act_quiet hq, ih]

theorem quiet_time (hq : h.Quiet) (time : Nat) : ({ h with time := time } : Hal).Quiet := hq

theorem tick_quiet (hq : h.Quiet) : h.tick env = { h with time := h.time + 1 } :=
  foldl_act_quiet (quiet_time hq (h.time + 1)) _

/-! ## The stages of a command -/

inductive Stage
  | waiting
  | fetched
  | executed
  | posted

/-- The controller at each stage of the command `c` that was submitted in `h`; `disk` and
`data` are what the command makes of the disk and the data pages. -/
def reach (h : Hal) (c : Command) (disk data : Bytes) (time : Nat) : Stage → Hal
  | .waiting => { h with time := time }
  | .fetched => { h with sqHead := h.sqTail, inFlight := [(c, false)], time := time }
  | .executed =>
    { h with
      sqHead := h.sqTail, inFlight := [(c, true)], disk := disk, data := data, time := time }
  | .posted =>
    { h with
      sqHead := h.sqTail
      cq := update h.cq h.cqTail ⟨c.cid, h.phase⟩
      cqTail := (h.cqTail + 1) % qdepth
      phase := if (h.cqTail + 1) % qdepth = 0 then h.phase ^^^ 1 else h.phase
      disk := disk, data := data, time := time }

structure Waiting (h : Hal) (c : Command) (disk data : Bytes) : Prop where
  entry : h.sq h.sqHead = c
  rung : h.sqTail = (h.sqHead + 1) % qdepth
  head_lt : h.sqHead < qdepth
  none_inFlight : h.inFlight = []
  room : (h.cqTail + 1) % qdepth ≠ h.cqHead
  disk_eq : h.movedDisk c = disk
  data_eq : h.movedData c = data

variable {c : Command} {disk data : Bytes}

theorem Waiting.quiet_posted (hw : h.Waiting c disk data) (time : Nat) :
    (h.reach c disk data time .posted).Quiet :=
  ⟨hw.none_inFlight, rfl⟩

theorem Waiting.posted_of_quiet (hw : h.Waiting c disk data) (time : Nat) (stage : Stage)
    (hq : (h.reach c disk data time stage).Quiet) : stage = .posted := by
  cases stage with
  | waiting =>
    have hsame : h.sqHead = h.sqTail := hq.2
    have := hw.rung
    have := hw.head_lt
    simp only [qdepth] at *
    omega
  | fetched => exact absurd hq.1 (cons_ne_nil _ _)
  | executed => exact absurd hq.1 (cons_ne_nil _ _)
  | posted => rfl

theorem movedDisk_frame (sqHead time : Nat) (inFlight : List (Command × Bool)) :
    ({ h with sqHead := sqHead, inFlight := inFlight, time := time } : Hal).movedDisk c =
      h.movedDisk c := by
  unfold movedDisk Reaches
  rfl

theorem movedData_frame (sqHead time : Nat) (inFlight : List (Command × Bool)) :
    ({ h with sqHead := sqHead, inFlight := inFlight, time := time } : Hal).movedData c =
      h.movedData c := by
  unfold movedData Reaches
  rfl

theorem Waiting.act (hw : h.Waiting c disk data) (time : Nat) (stage : Stage) (a : Action) :
    ∃ stage', (h.reach c disk data time stage).act a = h.reach c disk data time stage' := by
  cases stage with
  | waiting =>
    cases a with
    | fetch =>
      have hne : h.sqHead ≠ h.sqTail := fun hsame =>
        Stage.noConfusion (hw.posted_of_quiet time .waiting ⟨hw.none_inFlight, hsame⟩)
      exact ⟨.fetched, by
        simp [Hal.act, reach, hne, ← hw.rung, hw.none_inFlight, hw.entry]⟩
    | execute i => exact ⟨.waiting, by simp [Hal.act, reach, hw.none_inFlight]⟩
    | post i => exact ⟨.waiting, by simp [Hal.act, reach, hw.none_inFlight]⟩
  | fetched =>
    cases a with
    | fetch => exact ⟨.fetched, by simp [Hal.act, reach]⟩
    | execute i =>
      cases i with
      | zero =>
        exact ⟨.executed, by
          simp [Hal.act, reach, transfer, movedDisk_frame, movedData_frame, hw.disk_eq, hw.data_eq]⟩
      | succ i => exact ⟨.fetched, by simp [Hal.act, reach]⟩
    | post i => cases i <;> exact ⟨.fetched, by simp [Hal.act, reach]⟩
  | executed =>
    cases a with
    | fetch => exact ⟨.executed, by simp [Hal.act, reach]⟩
    | execute i => cases i <;> exact ⟨.executed, by simp [Hal.act, reach]⟩
    | post i =>
      cases i with
      | zero =>
        exact ⟨.posted, by
          simp [Hal.act, reach, hw.room, hw.none_inFlight]
          rfl⟩
      | succ i => exact ⟨.executed, by simp [Hal.act, reach]⟩
  | posted => exact ⟨.posted, act_quiet (hw.quiet_posted time) a⟩

theorem Waiting.foldl_act (hw : h.Waiting c disk data) (time : Nat) (stage : Stage)
    (actions : List Action) :
    ∃ stage', actions.foldl Hal.act (h.reach c disk data time stage) =
      h.reach c disk data time stage' := by
  induction actions generalizing stage with
  | nil => exact ⟨stage, rfl⟩
  | cons a actions ih =>
    obtain ⟨next, hnext⟩ := hw.act time stage a
    rw [foldl_cons, hnext]
    exact ih next

theorem Waiting.tick (hw : h.Waiting c disk data) (env : Nat → List Action) (time : Nat) (stage : Stage) :
    ∃ stage', (h.reach c disk data time stage).tick env =
      h.reach c disk data (time + 1) stage' := by
  have hlater : ({ h.reach c disk data time stage with
      time := (h.reach c disk data time stage).time + 1 } : Hal) =
        h.reach c disk data (time + 1) stage := by cases stage <;> rfl
  rw [Hal.tick, hlater]
  exact hw.foldl_act (time + 1) stage _

end Hal

/-! ## The driver and an idle controller -/

structure Geometry where
  sectors : UInt64
  sectorSize : Nat

/-- Driver and controller agree on the queues.  Of the completion queue, the entries
before the controller's place carry the phase it posts with, the others the other one. -/
structure Linked (g : Geometry) (n : Nvme) (h : Hal) : Prop where
  sectors_eq : n.sectors = g.sectors
  driverSize_eq : n.sectorSize = g.sectorSize
  size_eq : h.sectorSize = g.sectorSize
  dataAt_eq : h.dataAt = n.data
  fits : n.data.toNat + dataBytes < 2 ^ 64
  disk_length : h.disk.length = g.sectors.toNat * g.sectorSize
  data_length : h.data.length = dataBytes
  sqTail_eq : h.sqTail = n.io.tail
  tail_lt : n.io.tail < qdepth
  cqHead_eq : h.cqHead = n.io.head
  cqTail_eq : h.cqTail = n.io.head
  head_lt : n.io.head < qdepth
  phase_eq : h.phase = n.io.phase
  phase_lt : n.io.phase < 2
  entries : ∀ i < qdepth, (h.cq i).hi % 2 = if i < h.cqTail then h.phase else h.phase ^^^ 1

structure Idle (g : Geometry) (w : World) : Prop where
  none_pending : w.driver.pending = none
  quiet : w.hal.Quiet
  linked : Linked g w.driver w.hal

structure Request where
  write : Bool
  lba : Nat
  count : Nat
  data : Bytes

namespace Request

def done (size : Nat) (r : Request) (disk : Bytes) : Bytes :=
  if r.write then overlay disk (r.lba * size) r.data else disk

/-- What `complete` returns for the command, with a buffer of `outLen` bytes. -/
def answer (size : Nat) (r : Request) (disk : Bytes) (outLen : Nat) : Except Error Bytes :=
  if r.write then .ok []
  else if outLen ≠ r.count * size then .error .badLength
  else .ok (slice disk (r.lba * size) (r.count * size))

end Request

/-- The request `r` is in flight: it was submitted in the controller state `h`, whose disk
was `disk`, as the entry `c`. -/
structure Flying (g : Geometry) (w : World) (r : Request) (disk : Bytes) (h : Hal) (c : Command)
    (cid count : UInt16) (data : Bytes) : Prop where
  pending : w.driver.pending = some (cid, r.write, count)
  linked : Linked g w.driver h
  disk_eq : h.disk = disk
  cid_eq : c.cid = cid.toNat
  count_eq : count.toNat = r.count
  waiting : h.Waiting c (r.done g.sectorSize disk) data
  disk_length : (r.done g.sectorSize disk).length = disk.length
  data_length : data.length = dataBytes
  fetched : r.write = false →
    slice data 0 (r.count * g.sectorSize) =
      slice disk (r.lba * g.sectorSize) (r.count * g.sectorSize)
  reached : ∃ time stage, w.hal = h.reach c (r.done g.sectorSize disk) data time stage

def Busy (g : Geometry) (w : World) (r : Request) (disk : Bytes) : Prop :=
  ∃ h c cid count data, Flying g w r disk h c cid count data

/-! ## Submitting -/

section Submit

variable {env : Nat → List Action} {g : Geometry} {h : Hal} {w : World} (write : Bool)
  (cid : UInt16) (lba : UInt64) {count : UInt16} {data : Bytes}

variable (hlinked : Linked g n h)
include hlinked

theorem reaches_ioCommand (hcount : count ≠ 0) :
    h.Reaches (n.ioCommand write cid lba count (count.toNat * g.sectorSize)) := by
  have hfits := hlinked.fits
  refine ⟨by rw [Nvme.prp1_ioCommand, hlinked.dataAt_eq], ?_⟩
  rw [Nvme.prp2_ioCommand, Nvme.sectors_ioCommand _ _ _ _ _ _ hcount, hlinked.size_eq,
    hlinked.dataAt_eq]
  by_cases hpage : count.toNat * g.sectorSize ≤ page
  · exact Or.inl hpage
  right
  rw [if_pos (by omega), UInt64.toNat_add]
  simp only [dataBytes, page, UInt64.reduceToNat] at *
  omega

theorem movedDisk_ioCommand (hcount : count ≠ 0) :
    h.movedDisk (n.ioCommand write cid lba count (count.toNat * g.sectorSize)) =
      if write then overlay h.disk (lba.toNat * g.sectorSize)
        (h.data.take (count.toNat * g.sectorSize)) else h.disk := by
  have hreaches := reaches_ioCommand write cid lba hlinked hcount
  rw [Hal.movedDisk, Nvme.opcode_ioCommand, Nvme.slba_ioCommand,
    Nvme.sectors_ioCommand _ _ _ _ _ _ hcount, hlinked.size_eq]
  cases write <;> simp [hreaches, ioRead, ioWrite]

theorem movedData_ioCommand (hcount : count ≠ 0) :
    h.movedData (n.ioCommand write cid lba count (count.toNat * g.sectorSize)) =
      if write then h.data else overlay h.data 0
        (slice h.disk (lba.toNat * g.sectorSize) (count.toNat * g.sectorSize)) := by
  have hreaches := reaches_ioCommand write cid lba hlinked hcount
  rw [Hal.movedData, Nvme.opcode_ioCommand, Nvme.slba_ioCommand,
    Nvme.sectors_ioCommand _ _ _ _ _ _ hcount, hlinked.size_eq]
  cases write <;> simp [hreaches, ioRead, ioWrite]

omit hlinked in
theorem writeData_quiet (hq : h.Quiet) (bs : Bytes) :
    h.writeData env bs = { h with data := overlay h.data 0 bs, time := h.time + 1 } := by
  simp only [Hal.writeData, Hal.tick_quiet hq]

def Hal.withEntry (h : Hal) (tail : Nat) (c : Command) : Hal :=
  { h with
    sq := update h.sq tail c
    sqTail := (tail + 1) % qdepth
    time := h.time + 1 + 1 }

omit hlinked in
theorem submit_quiet (hq : h.Quiet) (q : Queue) (c : Command) :
    q.submit env h c = ({ q with tail := (q.tail + 1) % qdepth }, h.withEntry q.tail c) := by
  have hq' : ({ h with sq := update h.sq q.tail c, time := h.time + 1 } : Hal).Quiet := hq
  simp only [Queue.submit, Hal.writeSq, Hal.ringSq, Hal.tick_quiet hq, Hal.tick_quiet hq',
    Hal.withEntry]

theorem Linked.loaded (bs : Bytes) (hlen : bs.length ≤ dataBytes)
    (time : Nat) : Linked g n { h with data := overlay h.data 0 bs, time := time } :=
  { hlinked with
    data_length := by
      rw [length_overlay (by rw [hlinked.data_length]; omega), hlinked.data_length] }

theorem Linked.submitted (c : Command) (nextCid : UInt16)
    (pending : Option (UInt16 × Bool × UInt16)) :
    Linked g { n with
        io := { n.io with tail := (n.io.tail + 1) % qdepth }, nextCid := nextCid
        pending := pending }
      (h.withEntry n.io.tail c) :=
  { hlinked with
    sqTail_eq := rfl
    tail_lt := Nat.mod_lt _ (by decide) }

theorem Linked.waiting (hquiet : h.Quiet) (c : Command) :
    (h.withEntry n.io.tail c).Waiting c (h.movedDisk c) (h.movedData c) where
  entry := by simp [Hal.withEntry, hquiet.2, hlinked.sqTail_eq]
  rung := by simp [Hal.withEntry, hquiet.2, hlinked.sqTail_eq]
  head_lt := by simp [Hal.withEntry, hquiet.2, hlinked.sqTail_eq, hlinked.tail_lt]
  none_inFlight := hquiet.1
  room := by
    have := hlinked.head_lt
    simp only [Hal.withEntry, hlinked.cqTail_eq, hlinked.cqHead_eq, qdepth] at *
    omega
  disk_eq := by
    unfold Hal.movedDisk Hal.Reaches
    rfl
  data_eq := by
    unfold Hal.movedData Hal.Reaches
    rfl

omit hlinked in
theorem busy_of_submit (hquiet : h.Quiet) (hlinked : Linked g n h) (hcount : count ≠ 0)
    (hbytes : count.toNat * g.sectorSize ≤ dataBytes)
    (hrange : lba.toNat + count.toNat ≤ g.sectors.toNat)
    (hdata : write = true → data.length = count.toNat * g.sectorSize ∧
      h.data.take (count.toNat * g.sectorSize) = data)
    (nextCid : UInt16) :
    Busy g ⟨{ n with
        io := (n.io.submit env h
          (n.ioCommand write cid lba count (count.toNat * g.sectorSize))).1
        nextCid := nextCid, pending := some (cid, write, count) },
      (n.io.submit env h (n.ioCommand write cid lba count (count.toNat * g.sectorSize))).2⟩
      ⟨write, lba.toNat, count.toNat, data⟩ h.disk := by
  set c := n.ioCommand write cid lba count (count.toNat * g.sectorSize) with hc
  have hend : lba.toNat * g.sectorSize + count.toNat * g.sectorSize ≤ h.disk.length := by
    rw [hlinked.disk_length, ← Nat.add_mul]
    exact Nat.mul_le_mul_right _ hrange
  have hslice := length_slice hend
  have hdisk : h.movedDisk c =
      (Request.mk write lba.toNat count.toNat data).done g.sectorSize h.disk := by
    rw [movedDisk_ioCommand write cid lba hlinked hcount, Request.done]
    cases write with
    | false => rfl
    | true => simp [(hdata rfl).2]
  have hwaiting := hlinked.waiting hquiet c
  rw [hdisk] at hwaiting
  rw [submit_quiet hquiet]
  refine ⟨h.withEntry n.io.tail c, c, cid, count, h.movedData c,
    ⟨rfl, hlinked.submitted c _ _, rfl, Nvme.cid_ioCommand .., rfl, hwaiting, ?_, ?_, ?_,
      ⟨_, .waiting, rfl⟩⟩⟩
  · rw [Request.done]
    cases write with
    | false => rfl
    | true => exact length_overlay (by simp only [(hdata rfl).1]; exact hend)
  · rw [movedData_ioCommand write cid lba hlinked hcount]
    cases write with
    | false =>
      have hfits : 0 + (slice h.disk (lba.toNat * g.sectorSize)
          (count.toNat * g.sectorSize)).length ≤ h.data.length := by
        rw [hlinked.data_length]
        omega
      exact (length_overlay hfits).trans hlinked.data_length
    | true => exact hlinked.data_length
  · intro hwrite
    subst hwrite
    rw [movedData_ioCommand false cid lba hlinked hcount]
    have hfetched := slice_overlay_zero h.data
      (slice h.disk (lba.toNat * g.sectorSize) (count.toNat * g.sectorSize))
    rwa [hslice] at hfetched

def InRange (g : Geometry) (lba count : Nat) : Prop :=
  0 < count ∧ count * g.sectorSize ≤ dataBytes ∧ lba + count ≤ g.sectors.toNat

instance (g : Geometry) (lba count : Nat) : Decidable (InRange g lba count) :=
  inferInstanceAs (Decidable (_ ∧ _ ∧ _))

omit hlinked in
theorem ne_zero_of_inRange {lba : Nat} (h : InRange g lba count.toNat) : count ≠ 0 := by
  rintro rfl
  exact absurd h.1 (by decide)

theorem check_inRange (hrange : InRange g lba.toNat count.toNat) :
    n.check lba count = .ok (count.toNat * g.sectorSize) := by
  have hlt := g.sectors.toNat_lt
  rw [Nvme.check, hlinked.driverSize_eq, hlinked.sectors_eq,
    if_neg (by simp only [ne_zero_of_inRange hrange, false_or]; have := hrange.2.1; omega),
    if_neg (by have := hrange.2.2; omega)]

theorem check_not_inRange (hrange : ¬ InRange g lba.toNat count.toNat) :
    ∃ e, n.check lba count = .error e := by
  rw [Nvme.check, hlinked.driverSize_eq, hlinked.sectors_eq]
  by_cases hbytes : count = 0 ∨ count.toNat * g.sectorSize > dataBytes
  · exact ⟨_, if_pos hbytes⟩
  rw [if_neg hbytes]
  refine ⟨_, if_pos (Or.inr ?_)⟩
  push Not at hbytes
  by_contra hend
  have hpos : count.toNat ≠ 0 := fun h => hbytes.1 (UInt16.toNat_inj.mp h)
  exact hrange ⟨by omega, hbytes.2, by omega⟩

omit hlinked

theorem Idle.busy_start (hidle : Idle g w) (hrange : InRange g lba.toNat count.toNat)
    (hdata : write = true → data.length = count.toNat * g.sectorSize) :
    Busy g (w.start env write lba count (count.toNat * g.sectorSize) data)
      ⟨write, lba.toNat, count.toNat, data⟩ w.hal.disk := by
  have hlinked : Linked g w.driver.cid.2 w.hal := { hidle.linked with }
  cases write with
  | false =>
    exact busy_of_submit false w.driver.cid.1 lba hidle.quiet hlinked
      (ne_zero_of_inRange hrange) hrange.2.1 hrange.2.2 (by simp) w.driver.cid.2.nextCid
  | true =>
    have hlen := hdata rfl
    have hloaded := hlinked.loaded data (hlen.trans_le hrange.2.1) (w.hal.time + 1)
    have hquiet : ({ w.hal with
        data := overlay w.hal.data 0 data, time := w.hal.time + 1 } : Hal).Quiet := hidle.quiet
    have htake : (overlay w.hal.data 0 data).take (count.toNat * g.sectorSize) = data := by
      rw [← hlen]
      exact take_overlay_zero _ _
    simp only [start, if_true, writeData_quiet hidle.quiet]
    exact busy_of_submit true w.driver.cid.1 lba hquiet hloaded (ne_zero_of_inRange hrange)
      hrange.2.1 hrange.2.2 (fun _ => ⟨hlen, htake⟩) w.driver.cid.2.nextCid

variable (env) in
theorem Idle.submit_accepted (hidle : Idle g w) (hrange : InRange g lba.toNat count.toNat)
    (hdata : write = true → data.length = count.toNat * g.sectorSize) :
    w.submit env write lba count data =
      (.ok (), w.start env write lba count (count.toNat * g.sectorSize) data) := by
  rw [submit, hidle.none_pending, if_neg (by simp), check_inRange lba hidle.linked hrange]
  exact if_neg (fun h => h.2 (hdata h.1))

variable (env count data) in
theorem Idle.submit_refused (hidle : Idle g w)
    (hbad : ¬ (InRange g lba.toNat count.toNat ∧ (write = true →
      data.length = count.toNat * g.sectorSize))) :
    ∃ e, w.submit env write lba count data = (.error e, w) := by
  rw [submit, hidle.none_pending, if_neg (by simp)]
  by_cases hrange : InRange g lba.toNat count.toNat
  · rw [check_inRange lba hidle.linked hrange]
    refine ⟨_, if_pos ?_⟩
    by_contra hdata
    exact hbad ⟨hrange, fun hwrite => by_contra fun hlen => hdata ⟨hwrite, hlen⟩⟩
  · obtain ⟨e, he⟩ := check_not_inRange lba hidle.linked hrange
    rw [he]
    exact ⟨e, rfl⟩

variable (env count data) in
theorem Busy.submit_refused {r : Request} {disk : Bytes} (hbusy : Busy g w r disk) :
    w.submit env write lba count data = (.error .unexpected, w) := by
  obtain ⟨h, c, cid, count, data, hflying⟩ := hbusy
  rw [submit, hflying.pending]
  rfl

end Submit

/-! ## Completing -/

section Complete

variable {env : Nat → List Action} {g : Geometry} {h : Hal} {w : World} {r : Request} {c : Command}
  {cid count : UInt16} {disk data : Bytes}

theorem xor_one_xor_one (p : Nat) : p ^^^ 1 ^^^ 1 = p := by
  rw [Nat.xor_assoc, Nat.xor_self, Nat.xor_zero]

theorem xor_one_ne (hp : p < 2) : p ^^^ 1 ≠ p := by interval_cases p <;> decide

theorem entries_posted {cq : Nat → Completion} {k p id : Nat} (hk : k < qdepth) (hp : p < 2)
    (h : ∀ i < qdepth, (cq i).hi % 2 = if i < k then p else p ^^^ 1) (i : Nat) (hi : i < qdepth) :
    (update cq k ⟨id, p⟩ i).hi % 2 =
      if i < (k + 1) % qdepth then if (k + 1) % qdepth = 0 then p ^^^ 1 else p
      else (if (k + 1) % qdepth = 0 then p ^^^ 1 else p) ^^^ 1 := by
  have hentry : (update cq k ⟨id, p⟩ i).hi % 2 = if i ≤ k then p else p ^^^ 1 := by
    by_cases hik : i = k
    · subst hik
      simp [Nat.mod_eq_of_lt hp]
    · rw [update_of_ne hik, h i hi]
      exact if_congr (by omega) rfl rfl
  rw [hentry]
  by_cases hwrap : k + 1 = qdepth
  · rw [hwrap, Nat.mod_self, if_pos (by omega), if_neg (by omega), if_pos rfl, xor_one_xor_one]
  · rw [Nat.mod_eq_of_lt (by omega), if_neg (Nat.succ_ne_zero k)]
    exact if_congr (by omega) rfl rfl

def Queue.taken (q : Queue) : Queue :=
  { q with
    head := (q.head + 1) % qdepth
    phase := if (q.head + 1) % qdepth = 0 then q.phase ^^^ 1 else q.phase }

theorem Flying.poll_running (hf : Flying g w r disk h c cid count data)
    (hquiet : ¬ (w.hal.tick env).Quiet) :
    w.driver.io.poll env w.hal = (none, w.driver.io, w.hal.tick env) := by
  obtain ⟨time, stage, hreached⟩ := hf.reached
  obtain ⟨stage', hstage⟩ := hf.waiting.tick env time stage
  have hcq : ((w.hal.tick env).cq w.driver.io.head).hi % 2 = w.driver.io.phase ^^^ 1 := by
    have hold := hf.linked.entries _ hf.linked.head_lt
    rw [hf.linked.cqTail_eq, if_neg (lt_irrefl _), hf.linked.phase_eq] at hold
    rw [hreached, hstage] at hquiet ⊢
    cases stage' with
    | posted => exact absurd (hf.waiting.quiet_posted _) hquiet
    | _ => exact hold
  simp only [Queue.poll, Hal.readHi]
  exact if_pos (by rw [hcq]; exact xor_one_ne hf.linked.phase_lt)

theorem poll_posted (hq : (h.tick env).Quiet) (q : Queue) (hphase : q.phase < 2) {id : Nat}
    (hentry : (h.tick env).cq q.head = ⟨id, q.phase⟩) :
    q.poll env h = (some (id, 0), q.taken,
      { h.tick env with
        cqHead := (q.head + 1) % qdepth, time := (h.tick env).time + 1 + 1 }) := by
  have hq' := Hal.quiet_time hq ((h.tick env).time + 1)
  simp only [Queue.poll, Hal.readHi, Hal.readId, Hal.ringCq, Hal.tick_quiet hq,
    Hal.tick_quiet hq', hentry, Queue.taken]
  rw [if_neg (by rw [Nat.mod_eq_of_lt hphase]; exact not_not.mpr rfl), Nat.div_eq_of_lt hphase]

theorem Flying.linked_taken (hf : Flying g w r disk h c cid count data) (time : Nat) (stats : Stats) :
    Linked g { w.driver with io := w.driver.io.taken, pending := none, stats := stats }
      { h.reach c (r.done g.sectorSize disk) data time .posted with
        cqHead := (w.driver.io.head + 1) % qdepth } :=
  { hf.linked with
    disk_length := hf.disk_length.trans (hf.disk_eq ▸ hf.linked.disk_length)
    data_length := hf.data_length
    cqHead_eq := rfl
    cqTail_eq := by simp only [Hal.reach, hf.linked.cqTail_eq, Queue.taken]
    head_lt := Nat.mod_lt _ (by decide)
    phase_eq := by simp only [Hal.reach, hf.linked.cqTail_eq, hf.linked.phase_eq, Queue.taken]
    phase_lt := by
      have hlt := hf.linked.phase_lt
      simp only [Queue.taken]
      split_ifs
      · exact Nat.xor_lt_two_pow (n := 1) hlt (by decide)
      · exact hlt
    entries := by
      have hk : h.cqTail < qdepth := hf.linked.cqTail_eq ▸ hf.linked.head_lt
      have hp : h.phase < 2 := hf.linked.phase_eq ▸ hf.linked.phase_lt
      exact entries_posted hk hp hf.linked.entries }

theorem Busy.complete_running (hbusy : Busy g w r disk) (hquiet : ¬ (w.hal.tick env).Quiet)
    (outLen : Nat) :
    w.complete env outLen = (none, { w with hal := w.hal.tick env }) ∧
      Busy g { w with hal := w.hal.tick env } r disk := by
  obtain ⟨h, c, cid, count, data, hf⟩ := hbusy
  constructor
  · simp only [complete, hf.pending, hf.poll_running hquiet]
    rw [← hf.pending]
  · obtain ⟨time, stage, hreached⟩ := hf.reached
    obtain ⟨stage', hstage⟩ := hf.waiting.tick env time stage
    exact ⟨h, c, cid, count, data,
      { hf with reached := ⟨time + 1, stage', by rw [hreached, hstage]⟩ }⟩

theorem finish_idle (env : Nat → List Action) (cid : UInt16) (outLen : Nat) (hidle : Idle g w)
    (hcount : count.toNat = r.count)
    (hdata : r.write = false → slice w.hal.data 0 (r.count * g.sectorSize) =
      slice disk (r.lba * g.sectorSize) (r.count * g.sectorSize)) :
    (w.finish env cid r.write count cid.toNat 0 outLen).1 = r.answer g.sectorSize disk outLen ∧
      Idle g (w.finish env cid r.write count cid.toNat 0 outLen).2 ∧
      (w.finish env cid r.write count cid.toNat 0 outLen).2.hal.disk = w.hal.disk := by
  have hstats : ∀ hal stats, Linked g w.driver hal → hal.Quiet →
      Idle g ⟨{ w.driver with stats := stats }, hal⟩ := fun hal stats hlinked hquiet =>
    ⟨hidle.none_pending, hquiet, { hlinked with }⟩
  rw [← hidle.linked.driverSize_eq] at hdata ⊢
  simp only [finish, ne_eq, not_true_eq_false, if_false, hcount, Request.answer]
  cases hwrite : r.write with
  | true => exact ⟨rfl, hstats _ _ hidle.linked hidle.quiet, rfl⟩
  | false =>
    simp only [Bool.false_eq_true, if_false]
    by_cases hlen : outLen = r.count * w.driver.sectorSize
    · simp only [hlen, not_true_eq_false, if_false, Hal.readData, Hal.tick_quiet hidle.quiet,
        hdata hwrite, true_and, and_true]
      exact hstats _ _ { hidle.linked with } hidle.quiet
    · simp only [hlen, not_false_eq_true, if_true, true_and, and_true]
      exact hidle

theorem Busy.complete_posted (hbusy : Busy g w r disk) (hquiet : (w.hal.tick env).Quiet)
    (outLen : Nat) :
    (w.complete env outLen).1 = some (r.answer g.sectorSize disk outLen) ∧
      Idle g (w.complete env outLen).2 ∧
      (w.complete env outLen).2.hal.disk = r.done g.sectorSize disk := by
  obtain ⟨h, c, cid, count, data, hf⟩ := hbusy
  obtain ⟨time, stage, hreached⟩ := hf.reached
  obtain ⟨stage', hstage⟩ := hf.waiting.tick env time stage
  rw [← hreached] at hstage
  obtain rfl := hf.waiting.posted_of_quiet (time + 1) stage' (hstage ▸ hquiet)
  have hentry : (w.hal.tick env).cq w.driver.io.head = ⟨cid.toNat, w.driver.io.phase⟩ := by
    rw [hstage]
    simp [Hal.reach, hf.linked.cqTail_eq, hf.cid_eq, hf.linked.phase_eq]
  have hpoll := poll_posted hquiet w.driver.io hf.linked.phase_lt hentry
  have hidle : Idle g ⟨{ w.driver with io := w.driver.io.taken, pending := none },
      { w.hal.tick env with
        cqHead := (w.driver.io.head + 1) % qdepth, time := (w.hal.tick env).time + 1 + 1 }⟩ := by
    refine ⟨rfl, hquiet, ?_⟩
    rw [hstage]
    exact hf.linked_taken (time + 1 + 1 + 1) w.driver.stats
  have hfinish := finish_idle env cid outLen hidle hf.count_eq
    (fun hwrite => by simpa only [hstage, Hal.reach] using hf.fetched hwrite)
  simp only [complete, hf.pending, hpoll]
  refine ⟨congrArg some hfinish.1, hfinish.2.1, hfinish.2.2.trans ?_⟩
  rw [hstage]
  rfl

theorem Busy.await_posted (hbusy : Busy g w r disk) (outLen : Nat) (hk : k < polls)
    (hquiet : ((Hal.tick env)^[k + 1] w.hal).Quiet) :
    (w.await env outLen polls).1 = r.answer g.sectorSize disk outLen ∧
      Idle g (w.await env outLen polls).2 ∧
      (w.await env outLen polls).2.hal.disk = r.done g.sectorSize disk := by
  induction polls generalizing k w with
  | zero => omega
  | succ polls ih =>
    by_cases hnow : (w.hal.tick env).Quiet
    · obtain ⟨hanswer, hidle, hdisk⟩ := hbusy.complete_posted hnow outLen
      have hsome : w.complete env outLen =
          (some (r.answer g.sectorSize disk outLen), (w.complete env outLen).2) :=
        Prod.ext hanswer rfl
      rw [await, hsome]
      exact ⟨rfl, hidle, hdisk⟩
    · obtain ⟨hnone, hbusy'⟩ := hbusy.complete_running hnow outLen
      rw [await, hnone]
      cases k with
      | zero => exact absurd hquiet hnow
      | succ k =>
        rw [iterate_succ_apply] at hquiet
        exact ih hbusy' (Nat.lt_of_succ_lt_succ hk) hquiet

end Complete

/-! ## Runs on a plain disk -/

/-- The component as its callers see it: a disk, the command submitted to it that has not
been completed, and the commands a call gave up, which may still be executed. -/
structure Volume where
  disk : Bytes
  pend : Option Request
  lost : List Request

def Call.Acceptable (g : Geometry) (v : Volume) : Call → Prop
  | .read lba count outLen =>
    v.pend = none ∧ InRange g lba.toNat count.toNat ∧ outLen = count.toNat * g.sectorSize
  | .write lba data =>
    v.pend = none ∧ InRange g lba.toNat (data.length / g.sectorSize) ∧
      g.sectorSize ∣ data.length
  | .submit isWrite lba count data =>
    v.pend = none ∧ InRange g lba.toNat count.toNat ∧
      (isWrite = true → data.length = count.toNat * g.sectorSize)
  | .complete _ => True

def Call.request (g : Geometry) : Call → Option Request
  | .read lba count _ => some ⟨false, lba.toNat, count.toNat, []⟩
  | .write lba data => some ⟨true, lba.toNat, data.length / g.sectorSize, data⟩
  | _ => none

/-- What a call returns and does to the volume.  Only a call whose command is not completed
in time may give it up. -/
inductive Outcome (g : Geometry) (v : Volume) (inTime : Prop) :
    Call → Option (Except Error Bytes) → Volume → Prop
  | read {lba : UInt64} {count : UInt16} {outLen : Nat} :
      (Call.read lba count outLen).Acceptable g v →
      Outcome g v inTime (.read lba count outLen)
        (some (.ok (slice v.disk (lba.toNat * g.sectorSize) (count.toNat * g.sectorSize)))) v
  | write {lba : UInt64} {data : Bytes} :
      (Call.write lba data).Acceptable g v →
      Outcome g v inTime (.write lba data) (some (.ok []))
        { v with disk := overlay v.disk (lba.toNat * g.sectorSize) data }
  | submit {write : Bool} {lba : UInt64} {count : UInt16} {data : Bytes} :
      (Call.submit write lba count data).Acceptable g v →
      Outcome g v inTime (.submit write lba count data) (some (.ok []))
        { v with pend := some ⟨write, lba.toNat, count.toNat, data⟩ }
  | refuse {c : Call} {e : Error} : ¬ c.Acceptable g v →
      Outcome g v inTime c (some (.error e)) v
  | running {outLen : Nat} : Outcome g v inTime (.complete outLen) none v
  | complete {outLen : Nat} {r : Request} : v.pend = some r →
      Outcome g v inTime (.complete outLen) (some (r.answer g.sectorSize v.disk outLen))
        { v with disk := r.done g.sectorSize v.disk, pend := none }
  | timeout {c : Call} {r : Request} : ¬ inTime → c.request g = some r → v.pend = none →
      Outcome g v inTime c (some (.error .timeout)) { v with lost := v.lost ++ [r] }

inductive Lands (g : Geometry) : Volume → Volume → Prop
  | none (v : Volume) : Lands g v v
  | one {v v' : Volume} {earlier later : List Request} {r : Request} :
      v.lost = earlier ++ r :: later →
      Lands g ⟨r.done g.sectorSize v.disk, v.pend, earlier ++ later⟩ v' → Lands g v v'

/-- The controller's disk holds what the volume holds, or what the submitted command makes
of it. -/
def Shows (g : Geometry) (v : Volume) (w : World) : Prop :=
  w.hal.disk = v.disk ∨ ∃ r, v.pend = some r ∧ w.hal.disk = r.done g.sectorSize v.disk

/-- The controller posts everything it was given within the polls of one call. -/
def World.Responds (env : Nat → List Action) (w : World) : Prop :=
  ∃ k < cmdPolls, ((Hal.tick env)^[k + 1] w.hal).Quiet

/-- A call that waits for its command gets the completion within the polling limit. -/
def InTime (env : Nat → List Action) (w : World) : Call → Prop
  | .read lba count _ =>
    ∀ w', w.submit env false lba count [] = (.ok (), w') → w'.Responds env
  | .write lba data =>
    ∀ w', w.submit env true lba (UInt16.ofNat (data.length / w.driver.sectorSize)) data =
      (.ok (), w') → w'.Responds env
  | _ => True

def Follows (env : Nat → List Action) (g : Geometry) (v : Volume) (w : World) :
    List Call → Prop
  | [] => ∃ v₁, Lands g v v₁ ∧ Shows g v₁ w
  | c :: calls =>
    ∃ v₁, Lands g v v₁ ∧ Shows g v₁ w ∧
      ∃ v', Outcome g v₁ (InTime env w c) c ((machine env).step w c).2 v' ∧
        Follows env g v' ((machine env).step w c).1 calls

section Runs

variable {env : Nat → List Action} {g : Geometry} {w : World} {p : Prop}

/-- Between calls the driver holds the volume: idle, or with its command in flight. -/
def Tracks (g : Geometry) (v : Volume) (w : World) : Prop :=
  (v.pend = none ∧ Idle g w ∧ w.hal.disk = v.disk) ∨ ∃ r, v.pend = some r ∧ Busy g w r v.disk

theorem Tracks.shows (htracks : Tracks g v w) : Shows g v w := by
  obtain ⟨-, -, hdisk⟩ | ⟨r, hr, h, c, cid, count, data, hf⟩ := htracks
  · exact Or.inl hdisk
  obtain ⟨time, stage, hreached⟩ := hf.reached
  rw [Shows, hreached]
  cases stage with
  | waiting => exact Or.inl hf.disk_eq
  | fetched => exact Or.inl hf.disk_eq
  | executed => exact Or.inr ⟨r, hr, rfl⟩
  | posted => exact Or.inr ⟨r, hr, rfl⟩

variable {count : UInt16} {data : Bytes}

theorem Idle.rw_done (hidle : Idle g w) (write : Bool) (outLen : Nat)
    (hrange : InRange g lba.toNat count.toNat)
    (hdata : write = true → data.length = count.toNat * g.sectorSize)
    (htime : ∀ w', w.submit env write lba count data = (.ok (), w') → w'.Responds env) :
    (w.rw env write lba count data outLen).1 =
        (Request.mk write lba.toNat count.toNat data).answer g.sectorSize w.hal.disk outLen ∧
      Idle g (w.rw env write lba count data outLen).2 ∧
      (w.rw env write lba count data outLen).2.hal.disk =
        (Request.mk write lba.toNat count.toNat data).done g.sectorSize w.hal.disk := by
  have hsubmit := hidle.submit_accepted env write lba hrange hdata
  obtain ⟨k, hk, hquiet⟩ := htime _ hsubmit
  rw [rw, hsubmit]
  exact (hidle.busy_start write lba hrange hdata).await_posted outLen hk hquiet

theorem rw_refused {write : Bool} {e : Error}
    (h : w.submit env write lba count data = (.error e, w)) (outLen : Nat) :
    w.rw env write lba count data outLen = (.error e, w) := by rw [rw, h]

theorem not_acceptable_of_busy {r : Request} {c : Call} (hr : v.pend = some r)
    (hc : c.Acceptable g v) : ∃ outLen, c = .complete outLen := by
  cases c with
  | complete outLen => exact ⟨outLen, rfl⟩
  | _ => exact absurd hc.1 (by simp [hr])

variable (htracks : Tracks g v w)
include htracks

theorem Tracks.refused {c : Call} {e : Error}
    (hcall : call env w c = (w, some (.error e))) (hbad : ¬ c.Acceptable g v) :
    ∃ v', Outcome g v p c (call env w c).2 v' ∧ Tracks g v' (call env w c).1 := by
  rw [hcall]
  exact ⟨v, .refuse hbad, htracks⟩

theorem Tracks.step_read {outLen : Nat} (htime : InTime env w (.read lba count outLen)) :
    ∃ v', Outcome g v p (.read lba count outLen) (call env w (.read lba count outLen)).2 v' ∧
      Tracks g v' (call env w (.read lba count outLen)).1 := by
  obtain ⟨hpend, hidle, hdisk⟩ | ⟨r, hr, hbusy⟩ := id htracks
  · by_cases hrange : InRange g lba.toNat count.toNat
    · obtain ⟨hanswer, hidle', hdisk'⟩ :=
        hidle.rw_done false outLen hrange (by simp) htime
      refine ⟨v, ?_, Or.inl ⟨hpend, hidle', hdisk'.trans hdisk⟩⟩
      simp only [call, World.read, hanswer, Request.answer, Bool.false_eq_true, if_false, hdisk]
      by_cases hlen : outLen = count.toNat * g.sectorSize
      · rw [if_neg (not_not.mpr hlen)]
        exact .read ⟨hpend, hrange, hlen⟩
      · rw [if_pos hlen]
        exact .refuse fun hacc => hlen hacc.2.2
    · obtain ⟨e, he⟩ := hidle.submit_refused env false lba count [] fun hok => hrange hok.1
      exact htracks.refused (e := e) (by simp only [call, World.read, rw_refused he])
        fun hacc => hrange hacc.2.1
  · have he := hbusy.submit_refused env false lba count []
    exact htracks.refused (e := .unexpected) (by simp only [call, World.read, rw_refused he])
      fun hacc => by simpa using not_acceptable_of_busy hr hacc

omit htracks in
theorem toNat_sectors {size : Nat} {lba : Nat}
    (hrange : InRange g lba (data.length / g.sectorSize)) (hsize : size = g.sectorSize) :
    (UInt16.ofNat (data.length / size)).toNat = data.length / g.sectorSize := by
  have hpos : 0 < g.sectorSize := by
    by_contra hzero
    have hzero' : g.sectorSize = 0 := by omega
    exact absurd hrange.1 (by simp [hzero'])
  have hle : data.length / g.sectorSize ≤ dataBytes :=
    (Nat.le_mul_of_pos_right _ hpos).trans hrange.2.1
  rw [hsize]
  exact UInt16.toNat_ofNat_of_lt' (hle.trans_lt (by decide))

theorem Tracks.size_eq : w.driver.sectorSize = g.sectorSize := by
  obtain ⟨-, hidle, -⟩ | ⟨r, -, h, c, cid, count, data, hf⟩ := htracks
  · exact hidle.linked.driverSize_eq
  · exact hf.linked.driverSize_eq

theorem Tracks.step_write (htime : InTime env w (.write lba data)) :
    ∃ v', Outcome g v p (.write lba data) (call env w (.write lba data)).2 v' ∧
      Tracks g v' (call env w (.write lba data)).1 := by
  have hsize := htracks.size_eq
  by_cases hargs : data = [] ∨ data.length % w.driver.sectorSize ≠ 0
  · have hcall : call env w (.write lba data) = (w, some (.error .badLength)) := by
      simp only [call, World.write, if_pos hargs]
    refine htracks.refused hcall fun hacc => ?_
    obtain rfl | hmod := hargs
    · exact absurd hacc.2.1.1 (by simp)
    · exact hmod (hsize ▸ Nat.mod_eq_zero_of_dvd hacc.2.2)
  have hwrite : w.write env lba data =
      w.rw env true lba (UInt16.ofNat (data.length / w.driver.sectorSize)) data 0 := by
    rw [World.write, if_neg hargs]
  push Not at hargs
  have hdvd : g.sectorSize ∣ data.length := hsize ▸ Nat.dvd_of_mod_eq_zero hargs.2
  have hmul : data.length = data.length / g.sectorSize * g.sectorSize :=
    (Nat.div_mul_cancel hdvd).symm
  obtain ⟨hpend, hidle, hdisk⟩ | ⟨r, hr, hbusy⟩ := id htracks
  · by_cases hrange : InRange g lba.toNat (data.length / g.sectorSize)
    · have hcount := toNat_sectors hrange hsize
      obtain ⟨hanswer, hidle', hdisk'⟩ := hidle.rw_done true 0 (by rwa [hcount])
        (fun _ => by rw [hcount]; exact hmul) htime
      refine ⟨{ v with disk := overlay v.disk (lba.toNat * g.sectorSize) data }, ?_,
        Or.inl ⟨hpend, ?_, ?_⟩⟩
      · simp only [call, hwrite, hanswer, Request.answer, if_true]
        exact .write ⟨hpend, hrange, hdvd⟩
      · simpa only [call, hwrite] using hidle'
      · simpa only [call, hwrite, Request.done, if_true, hdisk] using hdisk'
    · obtain ⟨e, he⟩ := hidle.submit_refused env true lba
        (UInt16.ofNat (data.length / w.driver.sectorSize)) data fun hok => by
          have hlen := hok.2 rfl
          have hpos : 0 < g.sectorSize := by
            refine Nat.pos_of_ne_zero fun hzero => hargs.1 ?_
            rw [hzero, Nat.mul_zero] at hlen
            exact eq_nil_of_length_eq_zero hlen
          rw [hlen, Nat.mul_div_cancel _ hpos] at hrange
          exact hrange hok.1
      exact htracks.refused (e := e) (by simp only [call, hwrite, rw_refused he])
        fun hacc => hrange hacc.2.1
  · have he := hbusy.submit_refused env true lba
      (UInt16.ofNat (data.length / w.driver.sectorSize)) data
    exact htracks.refused (e := .unexpected) (by simp only [call, hwrite, rw_refused he])
      fun hacc => by simpa using not_acceptable_of_busy hr hacc

theorem Tracks.step_submit {write : Bool} :
    ∃ v', Outcome g v p (.submit write lba count data)
        (call env w (.submit write lba count data)).2 v' ∧
      Tracks g v' (call env w (.submit write lba count data)).1 := by
  obtain ⟨hpend, hidle, hdisk⟩ | ⟨r, hr, hbusy⟩ := id htracks
  · by_cases hok : InRange g lba.toNat count.toNat ∧
        (write = true → data.length = count.toNat * g.sectorSize)
    · have hsubmit := hidle.submit_accepted env write lba hok.1 hok.2
      refine ⟨{ v with pend := some ⟨write, lba.toNat, count.toNat, data⟩ }, ?_,
        Or.inr ⟨⟨write, lba.toNat, count.toNat, data⟩, rfl, ?_⟩⟩
      · simp only [call, hsubmit]
        exact .submit ⟨hpend, hok⟩
      · simpa only [call, hsubmit, hdisk] using hidle.busy_start write lba hok.1 hok.2
    · obtain ⟨e, he⟩ := hidle.submit_refused env write lba count data hok
      exact htracks.refused (e := e) (by simp only [call, he]; rfl) fun hacc => hok hacc.2
  · have he := hbusy.submit_refused env write lba count data
    exact htracks.refused (e := .unexpected) (by simp only [call, he]; rfl)
      fun hacc => by simpa using not_acceptable_of_busy hr hacc

theorem Tracks.step_complete (outLen : Nat) :
    ∃ v', Outcome g v p (.complete outLen) (call env w (.complete outLen)).2 v' ∧
      Tracks g v' (call env w (.complete outLen)).1 := by
  obtain ⟨hpend, hidle, hdisk⟩ | ⟨r, hr, hbusy⟩ := id htracks
  · have hcall : w.complete env outLen = (none, w) := by simp only [complete, hidle.none_pending]
    simp only [call, hcall]
    exact ⟨v, .running, htracks⟩
  · by_cases hquiet : (w.hal.tick env).Quiet
    · obtain ⟨hanswer, hidle, hdisk⟩ := hbusy.complete_posted hquiet outLen
      simp only [call, hanswer]
      exact ⟨_, .complete hr, Or.inl ⟨rfl, hidle, hdisk⟩⟩
    · obtain ⟨hnone, hbusy'⟩ := hbusy.complete_running hquiet outLen
      simp only [call, hnone]
      exact ⟨v, .running, Or.inr ⟨r, hr, hbusy'⟩⟩

theorem Tracks.step (htime : InTime env w c) :
    ∃ v', Outcome g v p c ((machine env).step w c).2 v' ∧
      Tracks g v' ((machine env).step w c).1 := by
  cases c with
  | read lba count outLen => exact htracks.step_read htime
  | write lba data => exact htracks.step_write htime
  | submit write lba count data => exact htracks.step_submit
  | complete outLen => exact htracks.step_complete outLen

theorem Tracks.follows (htime : (machine env).Allowed (InTime env) w calls) :
    Follows env g v w calls := by
  induction calls generalizing v w with
  | nil => exact ⟨v, .none v, htracks.shows⟩
  | cons c calls ih =>
    obtain ⟨v', houtcome, htracks'⟩ := htracks.step htime.1
    exact ⟨v, .none v, htracks.shows, v', houtcome, ih htracks' htime.2⟩

omit htracks

theorem tracks_initialised {disk : Bytes} (hfits : dataAt.toNat + dataBytes < 2 ^ 64)
    (hdisk : disk.length = g.sectors.toNat * g.sectorSize) (hdata : data.length = dataBytes) :
    Tracks g ⟨disk, none, []⟩ (initialised dataAt g.sectors g.sectorSize disk data) :=
  Or.inl ⟨rfl, ⟨rfl, ⟨rfl, rfl⟩, {
    sectors_eq := rfl, driverSize_eq := rfl, size_eq := rfl, dataAt_eq := rfl, fits := hfits
    disk_length := hdisk, data_length := hdata, sqTail_eq := rfl, tail_lt := Nat.zero_lt_succ 15
    cqHead_eq := rfl, cqTail_eq := rfl, head_lt := Nat.zero_lt_succ 15
    phase_eq := rfl, phase_lt := Nat.one_lt_two
    entries := fun i _ => by simp [initialised] }⟩, rfl⟩

/-- In a run whose waiting calls get their completions within the polling limit, every
acceptable call succeeds: reads deliver the sectors as they are, writes put exactly their
data on exactly their sectors, and the disk never holds anything else. -/
theorem commands_isolated (env : Nat → List Action) (g : Geometry) (dataAt : UInt64)
    (disk data : Bytes) (calls : List Call) (hfits : dataAt.toNat + dataBytes < 2 ^ 64)
    (hdisk : disk.length = g.sectors.toNat * g.sectorSize) (hdata : data.length = dataBytes)
    (htime : (machine env).Allowed (InTime env)
      (initialised dataAt g.sectors g.sectorSize disk data) calls) :
    Follows env g ⟨disk, none, []⟩ (initialised dataAt g.sectors g.sectorSize disk data) calls :=
  (tracks_initialised hfits hdisk hdata).follows htime

end Runs

instance (h : Hal) : Decidable h.Quiet := inferInstanceAs (Decidable (_ ∧ _))

def fourSectors : World :=
  initialised 0x105000 4 512 (replicate 2048 0) (replicate dataBytes 0)

def promptly : Nat → List Action := fun _ => [.fetch, .execute 0, .post 0]

theorem responds_at_once {w : World} (h : (w.hal.tick promptly).Quiet) : w.Responds promptly :=
  ⟨0, by decide, h⟩

theorem commands_isolated_promptly :
    Follows promptly ⟨4, 512⟩ ⟨replicate 2048 0, none, []⟩ fourSectors
      [.write 1 (replicate 512 7), .read 1 1 512] := by
  refine commands_isolated promptly ⟨4, 512⟩ 0x105000 _ _ _ (by decide) (by decide +kernel)
    (by decide +kernel) ⟨fun w' hw' => ?_, fun w' hw' => ?_, trivial⟩
  · obtain rfl := congrArg Prod.snd hw'
    exact responds_at_once (by decide +kernel)
  · obtain rfl := congrArg Prod.snd hw'
    exact responds_at_once (by decide +kernel)

/-! ## A completion after the limit -/

variable {env : Nat → List Action}

theorem await_silent {w : World} (outLen : Nat) {polls : Nat} (hpending : w.driver.pending.isSome)
    (hsilent : ∀ t, w.hal.time ≤ t → t < w.hal.time + polls → env t = [])
    (hentry : (w.hal.cq w.driver.io.head).hi % 2 ≠ w.driver.io.phase) :
    w.await env outLen polls = (.error .timeout, ⟨{ w.driver with pending := none },
      { w.hal with time := w.hal.time + polls }⟩) := by
  induction polls generalizing w with
  | zero => rfl
  | succ polls ih =>
    obtain ⟨⟨cid, write, count⟩, hp⟩ := Option.isSome_iff_exists.mp hpending
    have htick : w.hal.tick env = { w.hal with time := w.hal.time + 1 } := by
      rw [Hal.tick, hsilent _ le_rfl (by omega)]
      rfl
    have hcomplete : w.complete env outLen =
        (none, ⟨w.driver, { w.hal with time := w.hal.time + 1 }⟩) := by
      simp only [complete, hp, Queue.poll, Hal.readHi, htick, if_pos hentry]
      rw [← hp]
    have hrest := ih (w := ⟨w.driver, { w.hal with time := w.hal.time + 1 }⟩) hpending
      (fun t (ht : w.hal.time + 1 ≤ t) (ht' : t < w.hal.time + 1 + polls) =>
        hsilent t (by omega) (by omega)) hentry
    rw [await, hcomplete]
    simpa only [Nat.add_assoc, Nat.add_comm 1] using hrest

/-- The controller does nothing until 4000006 accesses have been made, which is after the
first of two writes gave up and the second rang the doorbell; then it does what it was asked. -/
def late : Nat → List Action := fun t =>
  if t = 4000006 then [.fetch, .execute 0, .post 0, .fetch, .execute 0, .post 0] else []

def firstWrite : World := (fourSectors.submit late true 0 1 (replicate 512 1)).2

def gaveUp : World :=
  ⟨{ firstWrite.driver with pending := none }, { firstWrite.hal with time := 4000003 }⟩

theorem write_gaveUp : fourSectors.write late 0 (replicate 512 1) = (.error .timeout, gaveUp) := by
  have hwrite : fourSectors.write late 0 (replicate 512 1) =
      fourSectors.rw late true 0 1 (replicate 512 1) 0 := by
    have hcount : UInt16.ofNat ((replicate 512 (1 : UInt8)).length /
        fourSectors.driver.sectorSize) = 1 := by decide +kernel
    rw [World.write, if_neg (by decide +kernel), hcount]
  have hsubmit : fourSectors.submit late true 0 1 (replicate 512 1) = (.ok (), firstWrite) :=
    Prod.ext (by decide +kernel) (by rw [firstWrite])
  have htime : firstWrite.hal.time = 3 := by decide +kernel
  have hsilent : ∀ t, firstWrite.hal.time ≤ t → t < firstWrite.hal.time + cmdPolls →
      late t = [] := fun t _ ht => if_neg (by simp only [htime, cmdPolls] at ht; omega)
  have hawait := await_silent 0 (by decide +kernel) hsilent (by decide +kernel)
  rw [hwrite, rw, hsubmit]
  rw [htime] at hawait
  exact hawait

/-- The next write succeeds for nobody: its data is on the first write's sector too, where no
write put it, and it is handed the completion of the first write. -/
theorem write_after_gaveUp :
    (gaveUp.write late 1 (replicate 512 2)).1 = .error .unexpected ∧
      (gaveUp.write late 1 (replicate 512 2)).2.hal.disk =
        replicate 1024 2 ++ replicate 1024 0 := by decide +kernel

theorem Lands.pend_eq (h : Lands g v v') : v'.pend = v.pend := by
  induction h with
  | none => rfl
  | one _ _ ih => exact ih

theorem Outcome.write_pend {p : Prop} (h : Outcome g v p (.write lba data) result v') :
    v'.pend = v.pend := by cases h <;> rfl

theorem Outcome.timeout_of_error {p : Prop} (h : Outcome g v p c (some (.error e)) v')
    (hacc : c.Acceptable g v) (hwaits : (c.request g).isSome) : e = .timeout := by
  generalize hresult : (some (Except.error e) : Option (Except Error Bytes)) = result at h
  cases h with
  | refuse hbad => exact absurd hacc hbad
  | timeout => simpa using hresult
  | complete => simp [Call.request] at hwaits
  | _ => simp at hresult

theorem not_follows_of_error (hfirst : w.write env lba data = (out, w'))
    (hsecond : (w'.write env lba' data').1 = .error e) (hpend : v.pend = none) (he : e ≠ .timeout)
    (hrange : InRange g lba'.toNat (data'.length / g.sectorSize))
    (hdvd : g.sectorSize ∣ data'.length) :
    ¬ Follows env g v w [.write lba data, .write lba' data'] := by
  rintro ⟨v₁, hlands₁, -, v₂, houtcome₁, v₃, hlands₂, -, v₄, houtcome₂, -⟩
  have hstep : ((machine env).step w (.write lba data)).1 = w' := by
    simp only [machine, call, hfirst]
  have hresult : ((machine env).step w' (.write lba' data')).2 = some (.error e) := by
    simp only [machine, call, hsecond]
  rw [hstep, hresult] at houtcome₂
  have hpend₃ : v₃.pend = none :=
    (hlands₂.pend_eq.trans (houtcome₁.write_pend.trans hlands₁.pend_eq)).trans hpend
  exact he (houtcome₂.timeout_of_error ⟨hpend₃, hrange, hdvd⟩ rfl)

theorem run_two_writes (hfirst : w.write env lba data = (out, w')) :
    (machine env).run w [.write lba data, .write lba' data'] = (w'.write env lba' data').2 := by
  simp only [CallMachine.run_cons, CallMachine.run_nil, machine, call, hfirst]

/-- A write that comes after one that was given up fails on a controller that answers it,
and the disk then holds data on sector 0 that no write put there. -/
theorem not_follows_late :
    ¬ Follows late ⟨4, 512⟩ ⟨replicate 2048 0, none, []⟩ fourSectors
        [.write 0 (replicate 512 1), .write 1 (replicate 512 2)] ∧
      ((machine late).run fourSectors
        [.write 0 (replicate 512 1), .write 1 (replicate 512 2)]).hal.disk =
          replicate 1024 2 ++ replicate 1024 0 :=
  ⟨not_follows_of_error write_gaveUp write_after_gaveUp.1 rfl (by decide) (by decide +kernel)
      (by decide +kernel),
    (congrArg (fun w => w.hal.disk) (run_two_writes write_gaveUp)).trans write_after_gaveUp.2⟩

end EuroOS.EuroNvme
