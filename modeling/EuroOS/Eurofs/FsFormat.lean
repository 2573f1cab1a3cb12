import EuroOS.ByteCodec
import EuroOS.Eurofs.CommandProgram

/-!
# On-disk formats of EuroFS

Blocks, inodes, directory entries, the object map, and the snapshot and quota
tables, as byte strings.  A writer is a concatenation of fields in the order of
their offsets; a reader takes each field at its offset.  For every format there
is one round-trip theorem, and later modules use only these.
-/

namespace EuroOS

open List
open Std (ExtTreeMap TransOrd LawfulEqOrd)

/-- The checksum crate the file system links against. -/
class TwoxHash where
  hash64 : Bytes → UInt64

def xxh3_64 [TwoxHash] (data : Bytes) : UInt64 := TwoxHash.hash64 data

inductive FsError
  | notFound
  | notADirectory
  | notAFile
  | alreadyExists
  | permissionDenied
  | noSpace
  | invalidPath
  | ioError
  | corruption
  | unsupported
  | notEmpty
  | quotaExceeded
  deriving DecidableEq

/-- A failure inside the file system: an error it reports, or a stop. -/
inductive Fail
  | err (e : FsError)
  | stop (reason : Stop)
  deriving DecidableEq

abbrev Oid := UInt64

abbrev bs : Nat := 4096

abbrev inodeMagic : Nat := 0x4546494E
abbrev rootOid : Oid := 1
abbrev maxExtents : Nat := 8
abbrev offExtents : Nat := 64
abbrev offInline : Nat := 192
abbrev offChecksum : Nat := 4088
abbrev inlineCap : Nat := 3896
abbrev typeFile : UInt8 := 1
abbrev typeDir : UInt8 := 2
abbrev typeSymlink : UInt8 := 3
abbrev direntSize : Nat := 64
abbrev direntNameCap : Nat := 48
abbrev snapshotTableBlock : Nat := 8
abbrev snapshotMagic : Nat := 0x53464E53
abbrev quotaTableBlock : Nat := 9
abbrev quotaMagic : Nat := 0x41545145
abbrev quotaEntryLen : Nat := 12
abbrev maxQuotaEntries : Nat := 340
abbrev maxSnapshots : Nat := 32
abbrev snapEntryLen : Nat := 80

/-! ## Blocks -/

structure Buf (n : Nat) where
  bytes : Bytes
  length_bytes : bytes.length = n
  deriving DecidableEq

abbrev Block := Buf bs

namespace Buf

theorem ext_bytes {a b : Buf n} (h : a.bytes = b.bytes) : a = b := by
  cases a
  cases b
  cases h
  rfl

theorem length_take_padTo (b : Bytes) : ((padTo n b).take n).length = n := by
  simp [padTo]
  omega

def ofBytes (b : Bytes) : Buf n where
  bytes := (padTo n b).take n
  length_bytes := length_take_padTo b

theorem bytes_ofBytes (h : b.length ≤ n) : (ofBytes b : Buf n).bytes = padTo n b :=
  take_of_length_le (length_padTo h).le

theorem bytes_ofBytes_of_length {b : Bytes} (h : b.length = n) : (ofBytes b : Buf n).bytes = b := by
  rw [bytes_ofBytes h.le, padTo, h, Nat.sub_self, replicate_zero, append_nil]

theorem ofBytes_bytes (b : Buf n) : ofBytes b.bytes = b :=
  ext_bytes (bytes_ofBytes_of_length b.length_bytes)

end Buf

def chunk (data : Bytes) (i : Nat) : Block :=
  Buf.ofBytes (slice data (i * bs) bs)

theorem padTo_take_append_padTo_drop (data : Bytes) (rest : Nat) :
    padTo bs (data.take bs) ++ padTo rest (data.drop bs) = padTo (rest + bs) data := by
  rcases le_total data.length bs with hlen | hlen
  · have hzeros : bs - data.length + rest = rest + bs - data.length := by omega
    simp only [padTo, drop_eq_nil_of_le hlen, take_of_length_le hlen,
      nil_append, length_nil, Nat.sub_zero, append_assoc,
      replicate_append_replicate, hzeros]
  · have htake : (data.take bs).length = bs := length_take_of_le hlen
    have hzeros : rest - (data.length - bs) = rest + bs - data.length := by omega
    simp only [padTo, htake, Nat.sub_self, replicate_zero, append_nil, length_drop, hzeros]
    rw [← append_assoc, take_append_drop]

/-- Writing a byte string block by block and reading the blocks back in order
gives the string, padded to whole blocks. -/
theorem flatMap_chunk (h : data.length ≤ n * bs) :
    ((List.range n).flatMap fun i => (chunk data i).bytes) = padTo (n * bs) data := by
  induction n generalizing data with
  | zero =>
    have hnil : data = [] := eq_nil_of_length_eq_zero (by omega)
    simp [hnil, padTo]
  | succ n ih =>
    have hlen : (data.drop bs).length ≤ n * bs := by
      rw [Nat.succ_mul] at h
      rw [length_drop]
      omega
    have hshift : (fun i => (chunk data (i + 1)).bytes) =
        fun i => (chunk (data.drop bs) i).bytes := by
      funext i
      simp only [chunk, slice, drop_drop]
      rw [show bs + i * bs = (i + 1) * bs by ring]
    have hfirst : (chunk data 0).bytes = padTo bs (data.take bs) := by
      rw [chunk, Buf.bytes_ofBytes (by simp [slice])]
      simp [slice]
    rw [range_succ_eq_map, flatMap_cons, flatMap_map, hshift, ih hlen, hfirst, Nat.succ_mul]
    exact padTo_take_append_padTo_drop data (n * bs)

/-! ## Inodes -/

structure Inode where
  oid : Oid
  parent : Oid
  otype : UInt8
  flags : UInt32
  uid : UInt32
  mode : UInt16
  size : Nat
  mtime : UInt64
  dataChecksum : UInt64
  /-- Runs of data blocks: first block and number of blocks. -/
  extents : List (Nat × Nat)
  inlineData : Bytes
  deriving DecidableEq

namespace Inode

def new (oid parent : Oid) (otype : UInt8) (now : UInt64) : Inode where
  oid := oid
  parent := parent
  otype := otype
  flags := 0
  uid := 0
  mode := if otype = typeDir then 0o755 else 0o644
  size := 0
  mtime := now
  dataChecksum := 0
  extents := []
  inlineData := []

def encodeExtent (extent : Nat × Nat) : Bytes :=
  le 8 extent.1 ++ le 4 extent.2 ++ le 4 0

def header (inode : Inode) : Bytes :=
  le 4 inodeMagic ++ (le 4 inode.uid.toNat ++ (le 8 inode.oid.toNat ++
    (le 8 inode.parent.toNat ++ (le 1 inode.otype.toNat ++ (le 1 0 ++
      (le 2 inode.mode.toNat ++ (le 4 inode.flags.toNat ++ (le 8 inode.size ++
        (le 4 inode.inlineData.length ++ (le 4 inode.extents.length ++
          (le 8 inode.mtime.toNat ++ le 8 inode.dataChecksum.toNat)))))))))))

def body (inode : Inode) : Bytes :=
  inode.header ++ (padTo (maxExtents * 16) (inode.extents.flatMap encodeExtent) ++
    padTo inlineCap inode.inlineData)

def encode [TwoxHash] (inode : Inode) : Block :=
  Buf.ofBytes (inode.body ++ le 8 (xxh3_64 inode.body).toNat)

def decode [TwoxHash] (b : Bytes) : Except Fail Inode :=
  if rd 4 b 0 ≠ inodeMagic then .error (.err .corruption)
  else if UInt64.ofNat (rd 8 b offChecksum) ≠ xxh3_64 (b.take offChecksum) then
    .error (.err .corruption)
  else
    let inlineLen := rd 4 b 40
    let extCount := rd 4 b 44
    if extCount > maxExtents then .error (.err .corruption)
    -- slicing past the end of the block panics
    else if inlineLen > bs - offInline then .error (.stop .halted)
    else .ok {
      oid := UInt64.ofNat (rd 8 b 8)
      parent := UInt64.ofNat (rd 8 b 16)
      otype := UInt8.ofNat (rd 1 b 24)
      flags := UInt32.ofNat (rd 4 b 28)
      uid := UInt32.ofNat (rd 4 b 4)
      mode := UInt16.ofNat (rd 2 b 26)
      size := rd 8 b 32
      mtime := UInt64.ofNat (rd 8 b 48)
      dataChecksum := UInt64.ofNat (rd 8 b 56)
      extents := (List.range extCount).map fun i =>
        (rd 8 b (offExtents + i * 16), rd 4 b (offExtents + i * 16 + 8))
      inlineData := slice b offInline inlineLen }

structure Encodable (inode : Inode) : Prop where
  extents_le : inode.extents.length ≤ maxExtents
  extent_lt : ∀ extent ∈ inode.extents, extent.1 < 2 ^ 64 ∧ extent.2 < 2 ^ 32
  inline_le : inode.inlineData.length ≤ inlineCap
  size_lt : inode.size < 2 ^ 64

@[simp] theorem length_encodeExtent (extent : Nat × Nat) : (encodeExtent extent).length = 16 := by
  simp [encodeExtent]

@[simp] theorem length_header (inode : Inode) : inode.header.length = 64 := by simp [header]

variable {inode : Inode}

theorem length_body (h : inode.Encodable) : inode.body.length = offChecksum := by
  have hext : (inode.extents.flatMap encodeExtent).length ≤ maxExtents * 16 := by
    rw [length_flatMap_records fun e _ => length_encodeExtent e]
    exact Nat.mul_le_mul_right _ h.extents_le
  rw [body, length_append, length_append, length_header, length_padTo hext,
    length_padTo h.inline_le]
  rfl

theorem bytes_encode [TwoxHash] (h : inode.Encodable) :
    inode.encode.bytes = inode.body ++ le 8 (xxh3_64 inode.body).toNat := by
  have hlen : (inode.body ++ le 8 (xxh3_64 inode.body).toNat).length = bs := by
    rw [length_append, length_body h, length_le]
  rw [encode, Buf.bytes_ofBytes_of_length hlen]

theorem decode_extents (h : inode.Encodable) (rest : Bytes) : (List.range inode.extents.length).map
        (fun i => (rd 8 (inode.body ++ rest) (offExtents + i * 16),
          rd 4 (inode.body ++ rest) (offExtents + i * 16 + 8))) = inode.extents := by
  have hrecord : ∀ e ∈ inode.extents, ∀ tail : Bytes,
      (fun b => (rd 8 b 0, rd 4 b 8)) (encodeExtent e ++ tail) = id e := by
    intro e he tail
    have hbound := h.extent_lt e he
    simp only [encodeExtent, append_assoc, rd_append_right, length_le, Nat.le_refl, Nat.sub_self]
    rw [rd_le_append_of_lt _ hbound.1, rd_le_append_of_lt _ hbound.2]
    rfl
  have htable := parse_records (d := fun b => (rd 8 b 0, rd 4 b 8))
    (fun e _ => length_encodeExtent e) hrecord inode.header
    (List.replicate (maxExtents * 16 - (inode.extents.flatMap encodeExtent).length) 0 ++
      (padTo inlineCap inode.inlineData ++ rest))
  rw [map_id] at htable
  simpa only [rd_drop, length_header, body, padTo, append_assoc, Nat.add_zero]
    using htable

theorem decode_inline (h : inode.Encodable) (rest : Bytes) :
    slice (inode.body ++ rest) offInline inode.inlineData.length = inode.inlineData := by
  have hext : (inode.extents.flatMap encodeExtent).length ≤ maxExtents * 16 := by
    rw [length_flatMap_records fun e _ => length_encodeExtent e]
    exact Nat.mul_le_mul_right _ h.extents_le
  have hfront : (inode.header ++ padTo (maxExtents * 16)
      (inode.extents.flatMap encodeExtent)).length = offInline := by
    rw [length_append, length_header, length_padTo hext]
    rfl
  have hsplit : inode.body ++ rest = (inode.header ++ padTo (maxExtents * 16)
      (inode.extents.flatMap encodeExtent)) ++ (inode.inlineData ++
        (List.replicate (inlineCap - inode.inlineData.length) 0 ++ rest)) := by
    simp [body, padTo]
  rw [hsplit, slice_append_right _ hfront.le, hfront, Nat.sub_self]
  exact slice_zero_length_append _ _

theorem decode_encode [TwoxHash] (h : inode.Encodable) : decode inode.encode.bytes = .ok inode := by
  have hsize := h.size_lt
  have hinline := h.inline_le
  have hextents := h.extents_le
  rw [bytes_encode h]
  generalize hsum : le 8 (xxh3_64 inode.body).toNat = sum
  have hfield : ∀ width o, o + width ≤ 64 →
      rd width (inode.body ++ sum) o = rd width inode.header o := by
    intro width o ho
    rw [body, append_assoc, rd_append_left _ (by simpa using ho)]
  have hcheck : rd 8 (inode.body ++ sum) offChecksum = (xxh3_64 inode.body).toNat := by
    rw [rd_append_right _ (length_body h).le, length_body h, Nat.sub_self, ← hsum,
      ← append_nil (le 8 _), rd_le_append]
    exact Nat.mod_eq_of_lt (UInt64.toNat_lt _)
  have htake : (inode.body ++ sum).take offChecksum = inode.body := by
    rw [← length_body h, take_left]
  have hinlineLen : inode.inlineData.length < 256 ^ 4 := hinline.trans_lt (by norm_num)
  have hextCount : inode.extents.length < 256 ^ 4 := hextents.trans_lt (by norm_num)
  have hmagic : inodeMagic < 256 ^ 4 := by norm_num
  have hsize8 : inode.size < 256 ^ 8 := hsize
  have hlast : rd 8 (le 8 inode.dataChecksum.toNat) 0 = inode.dataChecksum.toNat := by
    simpa using rd_le_uint64 inode.dataChecksum []
  simp only [decode, hcheck, htake, hfield, Nat.reduceLeDiff, Nat.reduceAdd, header,
    rd_append_right, length_le, Nat.reduceSub, rd_le_append_of_lt, hinlineLen, hextCount,
    hmagic, hsize8, rd_le_uint64, rd_le_uint32, rd_le_uint16, rd_le_uint8, hlast]
  have hroom : ¬inode.inlineData.length > bs - offInline :=
    Nat.not_lt.mpr (hinline.trans (by norm_num))
  rw [if_neg (by simp), if_neg (by simp), if_neg (Nat.not_lt.mpr hextents), if_neg hroom,
    decode_extents h, decode_inline h]
  simp

end Inode

structure Dirent where
  name : Str
  oid : Oid
  otype : UInt8
  deriving DecidableEq

namespace Dirent

def encode (entry : Dirent) : Bytes :=
  le 8 entry.oid.toNat ++ (le 1 entry.otype.toNat ++
    (le 1 (min entry.name.bytes.length direntNameCap) ++ (le 6 0 ++
      padTo direntNameCap (entry.name.bytes.take direntNameCap))))

def decode (b : Bytes) : Option Dirent :=
  let oid := UInt64.ofNat (rd 8 b 0)
  let nameLen := rd 1 b 9
  if oid ≠ 0 ∧ nameLen ≤ direntNameCap then
    some {
      name := fromUtf8Lossy (slice b 16 nameLen)
      oid := oid
      otype := UInt8.ofNat (rd 1 b 8) }
  else none

end Dirent

def encodeDirEntries (entries : List Dirent) : Bytes :=
  entries.flatMap Dirent.encode

def decodeDirEntries (data : Bytes) : List Dirent :=
  (List.range (data.length / direntSize)).filterMap fun i =>
    Dirent.decode (data.drop (i * direntSize))

/-! ## The object map -/

abbrev BTreeMap (κ ν : Type) [Ord κ] := ExtTreeMap κ ν compare

theorem ofList_toList {κ ν : Type} [DecidableEq κ] [Ord κ] [TransOrd κ] [LawfulEqOrd κ]
    (m : BTreeMap κ ν) : ExtTreeMap.ofList m.toList compare = m := by
  refine ExtTreeMap.ext_getElem? fun k => ?_
  cases hk : m[k]? with
  | none =>
    have hnot : k ∉ m.toList.map Prod.fst := by
      rw [ExtTreeMap.map_fst_toList_eq_keys, ExtTreeMap.mem_keys,
        ExtTreeMap.mem_iff_isSome_getElem?, hk]
      simp
    exact ExtTreeMap.getElem?_ofList_of_contains_eq_false (by simpa using hnot)
  | some value =>
    exact ExtTreeMap.getElem?_ofList_of_mem Std.ReflCmp.compare_self
      ExtTreeMap.distinct_keys_toList (ExtTreeMap.mem_toList_iff_getElem?_eq_some.mpr hk)

theorem length_toList_le {κ ν : Type} [Ord κ] [TransOrd κ] [LawfulEqOrd κ] {m : BTreeMap κ ν}
    {n : Nat} {f : κ × ν → Nat} (hlt : ∀ entry ∈ m.toList, f entry < n)
    (hinj : ∀ a ∈ m.toList, ∀ b ∈ m.toList, f a = f b → a.1 = b.1) : m.toList.length ≤ n := by
  have hnodup : (m.toList.map f).Nodup := by
    have hdistinct := ExtTreeMap.distinct_keys_toList (t := m)
    rw [List.Nodup, pairwise_map]
    refine hdistinct.imp_of_mem fun {a b} ha hb hne heq => hne ?_
    rw [hinj a ha b hb heq]
    exact Std.ReflCmp.compare_self
  have hsubset : (m.toList.map f).toFinset ⊆ Finset.range n := by
    intro i hi
    rw [mem_toFinset, mem_map] at hi
    obtain ⟨entry, hentry, rfl⟩ := hi
    exact Finset.mem_range.mpr (hlt entry hentry)
  have hcard := Finset.card_le_card hsubset
  rwa [toFinset_card_of_nodup hnodup, Finset.card_range, length_map] at hcard

abbrev Objmap := BTreeMap Oid Nat

namespace Objmap

def encodeEntry (entry : Oid × Nat) : Bytes :=
  le 8 entry.1.toNat ++ le 8 entry.2

def encode (objmap : Objmap) : Bytes :=
  le 8 objmap.toList.length ++ objmap.toList.flatMap encodeEntry

def blocksNeeded (objmap : Objmap) : Nat :=
  max ((8 + objmap.toList.length * 16 + (bs - 1)) / bs) 1

def entries (data : Bytes) : List (Oid × Nat) :=
  (List.range (min (rd 8 data 0) ((data.length - 8) / 16))).map fun i =>
    (UInt64.ofNat (rd 8 data (8 + i * 16)), rd 8 data (8 + i * 16 + 8))

def decode (data : Bytes) : Objmap := ExtTreeMap.ofList (entries data) compare

@[simp] theorem length_encodeEntry (entry : Oid × Nat) : (encodeEntry entry).length = 16 := by
  simp [encodeEntry]

theorem length_encode (objmap : Objmap) :
    objmap.encode.length = 8 + objmap.toList.length * 16 := by
  rw [encode, length_append, length_le,
    length_flatMap_records fun entry _ => length_encodeEntry entry]

theorem length_encode_le (objmap : Objmap) : objmap.encode.length ≤ objmap.blocksNeeded * bs := by
  have hdiv := Nat.div_add_mod (8 + objmap.toList.length * 16 + (bs - 1)) bs
  have hmod := Nat.mod_lt (8 + objmap.toList.length * 16 + (bs - 1)) (show 0 < bs by norm_num)
  have hmax : (8 + objmap.toList.length * 16 + (bs - 1)) / bs * bs ≤
      objmap.blocksNeeded * bs := Nat.mul_le_mul_right _ (le_max_left _ _)
  rw [length_encode]
  rw [Nat.mul_comm] at hdiv
  omega

theorem blocksNeeded_pos (objmap : Objmap) : 0 < objmap.blocksNeeded :=
  lt_of_lt_of_le Nat.one_pos (le_max_right _ _)

theorem entries_encode {objmap : Objmap} {n : Nat} (hn : objmap.encode.length ≤ n)
    (hsize : objmap.toList.length < 2 ^ 64) (hblk : ∀ entry ∈ objmap.toList, entry.2 < 2 ^ 64) :
    entries (padTo n objmap.encode) = objmap.toList := by
  have hrecord : ∀ entry ∈ objmap.toList, ∀ tail : Bytes,
      (fun b => (UInt64.ofNat (rd 8 b 0), rd 8 b 8)) (encodeEntry entry ++ tail) = id entry := by
    intro entry hentry tail
    simp only [encodeEntry, append_assoc, rd_append_right, length_le, Nat.le_refl, Nat.sub_self]
    rw [rd_le_uint64, rd_le_append_of_lt _ (hblk entry hentry), UInt64.ofNat_toNat]
    rfl
  have hrows := parse_records (d := fun b => (UInt64.ofNat (rd 8 b 0), rd 8 b 8))
    (fun entry _ => length_encodeEntry entry) hrecord (le 8 objmap.toList.length)
    (List.replicate (n - objmap.encode.length) 0)
  have hcount : min (rd 8 (padTo n objmap.encode) 0)
      (((padTo n objmap.encode).length - 8) / 16) = objmap.toList.length := by
    rw [length_padTo hn, padTo, encode, append_assoc, rd_le_append_of_lt _ hsize]
    rw [length_encode] at hn
    omega
  have hdata : padTo n objmap.encode = le 8 objmap.toList.length ++
      (objmap.toList.flatMap encodeEntry ++
        List.replicate (n - objmap.encode.length) 0) := by rw [padTo, encode, append_assoc]
  rw [map_id] at hrows
  rw [entries, hcount, hdata]
  simp only [rd_drop, length_le, Nat.add_zero] at hrows
  exact hrows

end Objmap

/-! ## Snapshot table -/

structure SnapshotEntry where
  id : UInt64
  parent : UInt64
  timestamp : UInt64
  objmapRoot : UInt64
  mapBlocks : UInt64
  checkpointId : UInt64
  flags : UInt32
  label : Str
  deriving DecidableEq

namespace SnapshotEntry

def labelField (label : Str) : Bytes := padTo 28 (label.bytes.take 28)

def labelText (field : Bytes) : Str :=
  fromUtf8Lossy (field.takeWhile (· ≠ 0))

def encode (entry : SnapshotEntry) : Bytes :=
  le 8 entry.id.toNat ++ (le 8 entry.parent.toNat ++ (le 8 entry.timestamp.toNat ++
    (le 8 entry.objmapRoot.toNat ++ (le 8 entry.mapBlocks.toNat ++
      (le 8 entry.checkpointId.toNat ++ (le 4 entry.flags.toNat ++
        labelField entry.label))))))

def decode (b : Bytes) : SnapshotEntry where
  id := UInt64.ofNat (rd 8 b 0)
  parent := UInt64.ofNat (rd 8 b 8)
  timestamp := UInt64.ofNat (rd 8 b 16)
  objmapRoot := UInt64.ofNat (rd 8 b 24)
  mapBlocks := UInt64.ofNat (rd 8 b 32)
  checkpointId := UInt64.ofNat (rd 8 b 40)
  flags := UInt32.ofNat (rd 4 b 48)
  label := labelText (slice b 52 28)

/-- The entry as it comes back from the table: all of it but the label is kept,
the label is cut to what fits its field. -/
def stored (entry : SnapshotEntry) : SnapshotEntry :=
  { entry with label := labelText (labelField entry.label) }

theorem length_labelField (label : Str) : (labelField label).length = 28 :=
  length_padTo (length_take_le _ _)

theorem length_encode (entry : SnapshotEntry) : entry.encode.length = snapEntryLen := by
  simp only [encode, length_append, length_le, length_labelField]

theorem decode_encode (entry : SnapshotEntry) (rest : Bytes) :
    decode (entry.encode ++ rest) = entry.stored := by
  have hslice : slice (labelField entry.label ++ rest) 0 28 = labelField entry.label := by
    rw [← length_labelField entry.label, slice_zero_length_append]
  simp [decode, encode, stored, rd_append_right, slice_append_right, length_le, rd_le_uint64,
    rd_le_uint32, hslice]

end SnapshotEntry

def encodeSnapshots (snapshots : List SnapshotEntry) : Block :=
  Buf.ofBytes (table snapshotMagic SnapshotEntry.encode (snapshots.take maxSnapshots))

/-- The snapshots listed in the reserved block; `none` for a foreign block. -/
def decodeSnapshots (b : Bytes) : Option (List SnapshotEntry) :=
  if rd 4 b 0 ≠ snapshotMagic then none
  else
    let count := min (rd 4 b 4) maxSnapshots
    some ((List.range count).map fun i => SnapshotEntry.decode (b.drop (8 + i * snapEntryLen)))

theorem decodeSnapshots_encode (h : snapshots.length ≤ maxSnapshots) :
    decodeSnapshots (encodeSnapshots snapshots).bytes =
      some (snapshots.map SnapshotEntry.stored) := by
  have hlen := length_table (l := snapshots) (fun entry _ => SnapshotEntry.length_encode entry)
    snapshotMagic
  have hfit : (table snapshotMagic SnapshotEntry.encode snapshots).length ≤ bs := by
    rw [hlen]
    exact (Nat.add_le_add_left (Nat.mul_le_mul_right _ h) 8).trans (by norm_num)
  rw [encodeSnapshots, take_of_length_le h, Buf.bytes_ofBytes hfit, padTo,
    decodeSnapshots, table_magic (by norm_num), if_neg (by simp),
    table_count _ (h.trans_lt (by norm_num)), Nat.min_eq_left h]
  exact congrArg some (table_rows (fun entry _ => SnapshotEntry.length_encode entry)
    (fun entry _ rest => SnapshotEntry.decode_encode entry rest) _ _)

/-! ## Quota table -/

def encodeQuotaEntry (entry : UInt32 × UInt64) : Bytes :=
  le 4 entry.1.toNat ++ le 8 entry.2.toNat

def encodeQuota (limits : BTreeMap UInt32 UInt64) : Block :=
  Buf.ofBytes (table quotaMagic encodeQuotaEntry (limits.toList.take maxQuotaEntries))

/-- The limits listed in the reserved block; `none` for a foreign block. -/
def decodeQuota (b : Bytes) : Option (BTreeMap UInt32 UInt64) :=
  if rd 4 b 0 ≠ quotaMagic then none
  else
    let count := min (rd 4 b 4) maxQuotaEntries
    let entries := (List.range count).map fun i =>
      (UInt32.ofNat (rd 4 b (8 + i * quotaEntryLen)),
        UInt64.ofNat (rd 8 b (8 + i * quotaEntryLen + 4)))
    some (ExtTreeMap.ofList (entries.filter fun entry => entry.1 ≠ 0 ∧ entry.2 ≠ 0) compare)

structure QuotaEncodable (limits : BTreeMap UInt32 UInt64) : Prop where
  length_le : limits.toList.length ≤ maxQuotaEntries
  entry_ne : ∀ entry ∈ limits.toList, entry.1 ≠ 0 ∧ entry.2 ≠ 0

theorem decodeQuota_encode (h : QuotaEncodable limits) :
    decodeQuota (encodeQuota limits).bytes = some limits := by
  have hsize : ∀ entry ∈ limits.toList, (encodeQuotaEntry entry).length = quotaEntryLen := by
    intro entry _
    simp [encodeQuotaEntry]
  have hrecord : ∀ entry ∈ limits.toList, ∀ tail : Bytes,
      (fun b => (UInt32.ofNat (rd 4 b 0), UInt64.ofNat (rd 8 b 4)))
        (encodeQuotaEntry entry ++ tail) = id entry := by
    intro entry _ tail
    simp only [encodeQuotaEntry, append_assoc, rd_append_right, length_le, Nat.le_refl,
      Nat.sub_self, rd_le_uint32, rd_le_uint64, UInt32.ofNat_toNat, UInt64.ofNat_toNat]
    rfl
  have hfit : (table quotaMagic encodeQuotaEntry limits.toList).length ≤ bs := by
    rw [length_table hsize]
    exact (Nat.add_le_add_left (Nat.mul_le_mul_right _ h.length_le) 8).trans (by norm_num)
  have hrows := table_rows (d := fun b => (UInt32.ofNat (rd 4 b 0), UInt64.ofNat (rd 8 b 4)))
    hsize hrecord quotaMagic
    (List.replicate (bs - (table quotaMagic encodeQuotaEntry limits.toList).length) 0)
  simp only [rd_drop, Nat.add_zero, map_id] at hrows
  have hkeep : limits.toList.filter (fun entry => entry.1 ≠ 0 ∧ entry.2 ≠ 0) = limits.toList :=
    List.filter_eq_self.mpr fun entry hentry => by simpa using h.entry_ne entry hentry
  rw [encodeQuota, take_of_length_le h.length_le, Buf.bytes_ofBytes hfit, padTo,
    decodeQuota, table_magic (by norm_num), if_neg (by simp),
    table_count _ (h.length_le.trans_lt (by norm_num)), Nat.min_eq_left h.length_le]
  simp only [hrows, hkeep, ofList_toList]

end EuroOS
