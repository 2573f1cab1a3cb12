import EuroOS.Eurofs.Volume

/-!
# Objects and object maps on the device

When the blocks of the device hold an object or a whole object map, and that the
block layer then reads back exactly that.  Each of these facts depends only on
the blocks that the object or the map owns.
-/

namespace EuroOS

open Std (ExtTreeMap)

def Obj.Owns (obj : Obj) (b : Nat) : Prop :=
  b = obj.blk ∨ ∃ e ∈ obj.ino.extents, e.1 ≤ b ∧ b < e.1 + e.2

/-- The content stands in the inode, or in the blocks of its one extent. -/
def ContentStored (dev : Device) (ino : Inode) (data : Bytes) : Prop :=
  (ino.extents = [] ∧ ino.inlineData = data) ∨
    ∃ start, ino.extents = [(start, blocksFor data.length)] ∧ inlineCap < data.length ∧
      ∀ i < blocksFor data.length, dev.block (start + i) = chunk data i

structure Stored [TwoxHash] (dev : Device) (oid : Oid) (obj : Obj) : Prop where
  oid_eq : obj.ino.oid = oid
  encodable : obj.ino.Encodable
  inode : dev.block obj.blk = obj.ino.encode
  size_eq : obj.ino.size = obj.data.length
  checksum : obj.ino.dataChecksum = 0 ∨ obj.ino.dataChecksum = xxh3_64 obj.data
  content : ContentStored dev obj.ino obj.data

def TableOwns (table : Table) (b : Nat) : Prop :=
  ∃ (oid : Oid) (obj : Obj), table[oid]? = some obj ∧ obj.Owns b

/-- The device holds an object map at `root` and every object it lists. -/
structure MapStored [TwoxHash] (dev : Device) (root blocks : Nat) (table : Table) : Prop where
  blocks_eq : blocks = (Vol.objmapOf table).blocksNeeded
  block : ∀ i < blocks, dev.block (root + i) = chunk (Vol.objmapOf table).encode i
  stored : ∀ oid obj, table[oid]? = some obj → Stored dev oid obj

def MapOwns (root blocks : Nat) (table : Table) (b : Nat) : Prop :=
  (root ≤ b ∧ b < root + blocks) ∨ TableOwns table b

section

variable [TwoxHash] {table : Table}

theorem Stored.congr (h : Stored dev oid obj)
    (hsame : ∀ b, obj.Owns b → dev'.block b = dev.block b) : Stored dev' oid obj where
  __ := h
  inode := by rw [hsame _ (.inl rfl), h.inode]
  content := by
    rcases h.content with hinline | ⟨start, hext, hlen, hblock⟩
    · exact .inl hinline
    refine .inr ⟨start, hext, hlen, fun i hi => ?_⟩
    have hown : obj.Owns (start + i) :=
      .inr ⟨(start, blocksFor obj.data.length), by simp [hext], Nat.le_add_right _ _,
        Nat.add_lt_add_left hi _⟩
    rw [hsame _ hown, hblock i hi]

theorem MapStored.congr (h : MapStored dev root blocks table)
    (hsame : ∀ b, MapOwns root blocks table b → dev'.block b = dev.block b) :
    MapStored dev' root blocks table where
  blocks_eq := h.blocks_eq
  block := by
    intro i hi
    rw [hsame _ (.inl ⟨Nat.le_add_right _ _, Nat.add_lt_add_left hi _⟩), h.block i hi]
  stored := fun oid obj hobj =>
    (h.stored oid obj hobj).congr fun b hb => hsame b (.inr ⟨oid, obj, hobj, hb⟩)

/-! ## Reading back -/

omit [TwoxHash] in
theorem EuroFs.readBlock_eq {fs : EuroFs} (hfree : fs.dev.FaultFree) {b : Nat}
    (hb : b < fs.dev.size) : fs.readBlock b = .ok (fs.dev.block b) := by
  rw [EuroFs.readBlock, hfree.readBlock hb]

omit [TwoxHash] in
theorem EuroFs.readRun_eq {fs : EuroFs} (hfree : fs.dev.FaultFree) {start count : Nat}
    (hfit : start + count ≤ fs.dev.size) :
    fs.readRun start count =
      .ok ((List.range count).flatMap fun i => (fs.dev.block (start + i)).bytes) := by
  induction count with
  | zero => rfl
  | succ count ih =>
    rw [EuroFs.readRun, ih (by omega), readBlock_eq hfree (by omega), List.range_succ,
      List.flatMap_append, ok_bind, ok_bind, List.flatMap_singleton]

omit [TwoxHash] in
theorem EuroFs.readRun_chunks {fs : EuroFs} (hfree : fs.dev.FaultFree) {start count : Nat}
    {data : Bytes} (hfit : start + count ≤ fs.dev.size) (hlen : data.length ≤ count * bs)
    (hblock : ∀ i < count, fs.dev.block (start + i) = chunk data i) :
    fs.readRun start count = .ok (padTo (count * bs) data) := by
  rw [readRun_eq hfree hfit, ← flatMap_chunk hlen]
  congr 1
  apply List.flatMap_congr
  intro i hi
  rw [hblock i (List.mem_range.mp hi)]

theorem Stored.readInodeAt {fs : EuroFs} (h : Stored fs.dev oid obj) (hfree : fs.dev.FaultFree)
    (hblk : obj.blk < fs.dev.size) : fs.readInodeAt obj.blk = .ok obj.ino := by
  rw [EuroFs.readInodeAt, EuroFs.readBlock_eq hfree hblk, ok_bind, h.inode,
    Inode.decode_encode h.encodable]

omit [TwoxHash] in
theorem length_le_blocksFor (len : Nat) (h : inlineCap < len) : len ≤ blocksFor len * bs := by
  have hdiv := Nat.div_add_mod (len + (bs - 1)) bs
  have hmod := Nat.mod_lt (len + (bs - 1)) (show 0 < bs by norm_num)
  rw [blocksFor, if_neg (Nat.not_le.mpr h)]
  rw [Nat.mul_comm] at hdiv
  omega

omit [TwoxHash] in
theorem mem_toList_objmapOf (h : entry ∈ (Vol.objmapOf table).toList) :
    ∃ obj, table[entry.1]? = some obj ∧ obj.blk = entry.2 := by
  rw [Vol.objmapOf, ExtTreeMap.mem_toList_iff_getElem?_eq_some, ExtTreeMap.getElem?_map,
    Option.map_eq_some_iff] at h
  exact h

theorem Stored.oid_of_blk (h : Stored dev oid obj) (h' : Stored dev oid' obj')
    (hblk : obj.blk = obj'.blk) : oid = oid' := by
  have hdecode := Inode.decode_encode h.encodable
  rw [← h.inode, hblk, h'.inode, Inode.decode_encode h'.encodable, Except.ok.injEq] at hdecode
  rw [← h.oid_eq, ← h'.oid_eq, hdecode]

theorem MapStored.length_lt {fs : EuroFs} (h : MapStored fs.dev root blocks table)
    (hfit : ∀ b, MapOwns root blocks table b → b < fs.dev.size) :
    (Vol.objmapOf table).toList.length < 2 ^ 64 := by
  refine (length_toList_le (n := fs.dev.size) (f := Prod.snd) ?_ ?_).trans_lt fs.dev.lt_of_size
  · intro entry hentry
    obtain ⟨obj, hobj, heq⟩ := mem_toList_objmapOf hentry
    exact heq ▸ hfit obj.blk (.inr ⟨entry.1, obj, hobj, .inl rfl⟩)
  · intro a ha b hb hab
    obtain ⟨obj, hobj, heq⟩ := mem_toList_objmapOf ha
    obtain ⟨obj', hobj', heq'⟩ := mem_toList_objmapOf hb
    exact (h.stored _ _ hobj).oid_of_blk (h.stored _ _ hobj') (by rw [heq, heq', hab])

theorem MapStored.readRun {fs : EuroFs} (h : MapStored fs.dev root blocks table)
    (hfree : fs.dev.FaultFree) (hfit : ∀ b, MapOwns root blocks table b → b < fs.dev.size) :
    ∃ data, fs.readRun root blocks = .ok data ∧ 8 ≤ data.length ∧
      Objmap.entries data = (Vol.objmapOf table).toList := by
  have hpos : 0 < blocks := h.blocks_eq ▸ Objmap.blocksNeeded_pos _
  have hend : root + blocks ≤ fs.dev.size := by
    have := hfit (root + (blocks - 1)) (.inl ⟨by omega, by omega⟩)
    omega
  have hlen : (Vol.objmapOf table).encode.length ≤ blocks * bs := by
    rw [h.blocks_eq]
    exact Objmap.length_encode_le _
  have hcount := h.length_lt hfit
  have hblk : ∀ entry ∈ (Vol.objmapOf table).toList, entry.2 < 2 ^ 64 := by
    intro entry hentry
    obtain ⟨obj, hobj, heq⟩ := mem_toList_objmapOf hentry
    have hown := hfit obj.blk (.inr ⟨entry.1, obj, hobj, .inl rfl⟩)
    have hdev := fs.dev.lt_of_size
    omega
  refine ⟨padTo (blocks * bs) (Vol.objmapOf table).encode,
    EuroFs.readRun_chunks hfree hend hlen h.block, ?_, Objmap.entries_encode hlen hcount hblk⟩
  have hone : 8 ≤ 1 * bs := by norm_num
  rw [length_padTo hlen]
  exact hone.trans (Nat.mul_le_mul_right _ hpos)

end

end EuroOS
