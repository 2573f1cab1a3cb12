import EuroOS.ByteCodec
import EuroOS.HashTree

/-!
# Block integrity by a tree of hashes

The tree over the blocks of a system image, its proofs, and the check of one
block against the trusted root; the two salted hashes are parameters.  For the
positions of the image the check accepts exactly the block and the proof of the
position, and for every other index some block of the image.
-/

namespace EuroOS.Verity

/-- The hash of one data block and the hash of an interior node, under a salt. -/
structure Hashes (Salt Digest : Type) where
  hashBlock : Salt → Bytes → Digest
  hashNode : Salt → Digest → Digest → Digest

structure VerityTree (Salt Digest : Type) where
  salt : Salt
  blockSize : Nat
  blockCount : Nat
  /-- The leaf hashes first; the last level is the single root. -/
  levels : List (List Digest)

variable {Salt Digest : Type}

def blockAt (data : Bytes) (blockSize i : Nat) : Bytes :=
  padTo blockSize (slice data (i * blockSize) blockSize)

def blockCount (data : Bytes) (blockSize : Nat) : Nat :=
  max ((data.length + blockSize - 1) / blockSize) 1

def levelsFrom (node : Digest → Digest → Digest) : Nat → List Digest → List (List Digest)
  | 0, level => [level]
  | fuel + 1, level =>
    if level.length ≤ 1 then [level] else level :: levelsFrom node fuel (HashTree.pairUp node level)

namespace VerityTree

def build (H : Hashes Salt Digest) (data : Bytes) (blockSize : Nat) (salt : Salt) :
    Option (VerityTree Salt Digest) :=
  if blockSize = 0 then none
  else
    let count := Verity.blockCount data blockSize
    let leaves := (List.range count).map fun i => H.hashBlock salt (blockAt data blockSize i)
    -- Every level is shorter than the one below, so there are at most as many levels as leaves.
    some ⟨salt, blockSize, count, levelsFrom (H.hashNode salt) count leaves⟩

def root (T : VerityTree Salt Digest) : Option Digest := T.levels.getLast?.bind List.head?

/-- The sibling hashes for a block, from the bottom; `none` outside of the levels. -/
def proof (T : VerityTree Salt Digest) (index : Nat) : Option (List Digest) :=
  HashTree.siblings T.levels index

end VerityTree

def verifyBlock [DecidableEq Digest] (H : Hashes Salt Digest) (root : Digest) (salt : Salt)
    (index : Nat) (block : Bytes) (proof : List Digest) : Bool :=
  HashTree.climb (H.hashNode salt) (H.hashBlock salt block) index proof = root

/-! ## The levels -/

theorem length_blockAt (data : Bytes) (blockSize i : Nat) :
    (blockAt data blockSize i).length = blockSize := by
  refine length_padTo ?_
  simp [slice]

theorem levels_levelsFrom (node : Digest → Digest → Digest) (hpos : 0 < level.length)
    (hfuel : level.length ≤ fuel) :
    ∃ rest x, levelsFrom node fuel level = level :: rest ∧
      HashTree.Levels node (levelsFrom node fuel level) x := by
  induction fuel generalizing level with
  | zero => omega
  | succ fuel ih =>
    unfold levelsFrom
    split_ifs with hone
    · obtain ⟨x, rfl⟩ := List.length_eq_one_iff.mp (show level.length = 1 by omega)
      exact ⟨[], x, rfl, .root x⟩
    have hnext := HashTree.length_pairUp node level
    have hpos' : 0 < (HashTree.pairUp node level).length := by omega
    obtain ⟨rest, x, heq, hlevels⟩ := ih hpos' (by omega)
    refine ⟨_, x, rfl, ?_⟩
    rw [heq] at hlevels ⊢
    exact .level hlevels

theorem root_eq {T : VerityTree Salt Digest} {node : Digest → Digest → Digest} {x : Digest}
    (h : HashTree.Levels node T.levels x) : T.root = some x := by
  obtain ⟨front, hfront⟩ := h.exists_concat
  simp [VerityTree.root, hfront]

theorem build_spec (H : Hashes Salt Digest) (h : VerityTree.build H data blockSize salt = some T) :
    T.salt = salt ∧ ∃ leaves rest x, T.levels = leaves :: rest ∧ T.root = some x ∧
      HashTree.Levels (H.hashNode salt) (leaves :: rest) x ∧ leaves.length = T.blockCount ∧
      ∀ i < T.blockCount, leaves[i]? = some (H.hashBlock salt (blockAt data blockSize i)) := by
  unfold VerityTree.build at h
  split_ifs at h
  cases h
  have hpos : 0 < blockCount data blockSize := by
    unfold blockCount
    omega
  generalize hleaves : (List.range (blockCount data blockSize)).map
    (fun i => H.hashBlock salt (blockAt data blockSize i)) = leaves
  have hlength : leaves.length = blockCount data blockSize := by simp [← hleaves]
  obtain ⟨rest, x, heq, hlevels⟩ := levels_levelsFrom (H.hashNode salt) (hlength ▸ hpos) hlength.le
  refine ⟨rfl, leaves, rest, x, heq, root_eq hlevels, heq ▸ hlevels, hlength, fun i hi => ?_⟩
  rw [← hleaves, List.getElem?_map, List.getElem?_range hi]
  rfl

/-! ## The check -/

/-- The salted hashes do not collide, with themselves or with each other. -/
structure Ideal (H : Hashes Salt Digest) (salt : Salt) : Prop where
  block : ∀ a b, H.hashBlock salt a = H.hashBlock salt b → a = b
  node : ∀ a b c d, H.hashNode salt a b = H.hashNode salt c d → a = c ∧ b = d
  apart : ∀ a b c, H.hashBlock salt a ≠ H.hashNode salt b c

section Check

variable [DecidableEq Digest] {H : Hashes Salt Digest} {data : Bytes} {blockSize : Nat} {salt : Salt}
  {T : VerityTree Salt Digest} {root : Digest} {index : Nat}

theorem eq_of_verifyBlock (hideal : Ideal H salt)
    (hbuild : VerityTree.build H data blockSize salt = some T) (hroot : T.root = some root)
    (hindex : index < T.blockCount) (hverify : verifyBlock H root salt index block proof = true) :
    block = blockAt data blockSize index ∧ T.proof index = some proof := by
  obtain ⟨-, leaves, rest, x, hls, hx, hlevels, hlength, hleaf⟩ := build_spec H hbuild
  obtain rfl : x = root := Option.some_inj.mp (hx.symm.trans hroot)
  have hclimb := of_decide_eq_true hverify
  have hisBlock : ∀ leaf ∈ leaves, ∃ b, leaf = H.hashBlock salt b := by
    intro leaf hmem
    obtain ⟨i, hi⟩ := List.mem_iff_getElem?.mp hmem
    obtain ⟨hlt, -⟩ := List.getElem?_eq_some_iff.mp hi
    rw [hleaf i (hlength ▸ hlt), Option.some_inj] at hi
    exact ⟨_, hi.symm⟩
  -- A block hash is in no level above the lowest, so the proof has full length.
  have hfull : proof.length = rest.length := by
    rcases hlevels.mem_of_climb hideal.node hclimb with
      ⟨front, l, above, hsplit, hlen, hmem⟩ | ⟨leaf, hmem, a, b, hnode⟩
    · rcases List.eq_nil_or_concat' front with rfl | ⟨front, below, rfl⟩
      · rw [List.nil_append, List.cons.injEq] at hsplit
        rw [hsplit.2, hlen]
      rw [List.append_assoc, List.singleton_append] at hsplit
      have hnext : l = HashTree.pairUp (H.hashNode salt) below :=
        HashTree.Levels.next (hsplit ▸ hlevels)
      rw [hnext] at hmem
      obtain ⟨a, b, -, -, hnode⟩ := HashTree.mem_pairUp hmem
      exact absurd hnode (hideal.apart _ _ _)
    · obtain ⟨b', hb'⟩ := hisBlock leaf hmem
      exact absurd (hb'.symm.trans hnode) (hideal.apart _ _ _)
  obtain ⟨hpos, hsiblings⟩ := hlevels.eq_of_climb hideal.node hclimb hfull (hlength ▸ hindex)
  rw [hleaf index hindex, Option.some_inj] at hpos
  refine ⟨(hideal.block _ _ hpos).symm, ?_⟩
  unfold VerityTree.proof
  rw [hls]
  exact hsiblings

theorem verifyBlock_proof (hbuild : VerityTree.build H data blockSize salt = some T)
    (hroot : T.root = some root) (hindex : index < T.blockCount)
    (hproof : T.proof index = some proof) :
    verifyBlock H root salt index (blockAt data blockSize index) proof = true := by
  obtain ⟨-, leaves, rest, x, hls, hx, hlevels, -, hleaf⟩ := build_spec H hbuild
  obtain rfl : x = root := Option.some_inj.mp (hx.symm.trans hroot)
  obtain ⟨p, hsiblings, hclimb⟩ := hlevels.climb_siblings (hleaf index hindex)
  unfold VerityTree.proof at hproof
  rw [hls, hsiblings, Option.some_inj] at hproof
  rw [← hproof]
  exact decide_eq_true hclimb

theorem exists_verifyBlock (hbuild : VerityTree.build H data blockSize salt = some T)
    (hroot : T.root = some root) (index : Nat) :
    ∃ block proof, block.length = blockSize ∧ verifyBlock H root salt index block proof = true := by
  obtain ⟨-, leaves, rest, x, -, hx, hlevels, hlength, hleaf⟩ := build_spec H hbuild
  obtain rfl : x = root := Option.some_inj.mp (hx.symm.trans hroot)
  obtain ⟨leaf, hmem, proof, hclimb⟩ := hlevels.exists_climb index
  obtain ⟨i, hi⟩ := List.mem_iff_getElem?.mp hmem
  obtain ⟨hlt, -⟩ := List.getElem?_eq_some_iff.mp hi
  rw [hleaf i (hlength ▸ hlt), Option.some_inj] at hi
  refine ⟨blockAt data blockSize i, proof, length_blockAt .., decide_eq_true ?_⟩
  rw [hi]
  exact hclimb

/-- The check binds blocks and proofs to an index exactly when the index is a position of the
image. -/
theorem verifyBlock_binds_iff (hideal : Ideal H salt)
    (hbuild : VerityTree.build H data blockSize salt = some T) (hroot : T.root = some root)
    (index : Nat) :
    (∀ block proof, block.length = blockSize →
      (verifyBlock H root salt index block proof = true ↔
        index < T.blockCount ∧ block = blockAt data blockSize index ∧ T.proof index = some proof)) ↔
      index < T.blockCount := by
  constructor
  · intro hbinds
    obtain ⟨block, proof, hlength, hverify⟩ := exists_verifyBlock hbuild hroot index
    exact ((hbinds block proof hlength).mp hverify).1
  · intro hindex block proof _
    constructor
    · intro hverify
      exact ⟨hindex, eq_of_verifyBlock hideal hbuild hroot hindex hverify⟩
    · rintro ⟨-, rfl, hproof⟩
      exact verifyBlock_proof hbuild hroot hindex hproof

theorem getElem?_blockAt (hi : i < data.length) (hsize : 0 < blockSize) :
    (blockAt data blockSize (i / blockSize))[i % blockSize]? = data[i]? := by
  have hmod := Nat.mod_lt i hsize
  have hdiv := Nat.div_add_mod' i blockSize
  have hin : i % blockSize < (slice data (i / blockSize * blockSize) blockSize).length := by
    simp [slice]
    omega
  rw [blockAt, padTo, List.getElem?_append_left hin, slice, List.getElem?_take_of_lt hmod,
    List.getElem?_drop, hdiv]

/-- Images of one length have the same root exactly when they are the same. -/
theorem root_eq_iff_image_eq {data' : Bytes} {T' : VerityTree Salt Digest} (hideal : Ideal H salt)
    (hbuild : VerityTree.build H data blockSize salt = some T)
    (hbuild' : VerityTree.build H data' blockSize salt = some T')
    (hlength : data'.length = data.length) : T'.root = T.root ↔ data' = data := by
  refine ⟨fun hroot => ?_, fun hsame => ?_⟩
  case refine_2 =>
    rw [hsame, hbuild, Option.some_inj] at hbuild'
    rw [hbuild']
  obtain ⟨-, leaves, rest, x, -, hx, hlevels, -, hleaf⟩ := build_spec H hbuild'
  obtain ⟨hsize, hcount, hcount'⟩ : 0 < blockSize ∧ T.blockCount = blockCount data blockSize ∧
      T'.blockCount = blockCount data' blockSize := by
    unfold VerityTree.build at hbuild hbuild'
    split_ifs at hbuild hbuild' with hzero
    cases hbuild
    cases hbuild'
    exact ⟨Nat.pos_of_ne_zero hzero, rfl, rfl⟩
  refine List.ext_getElem? fun i => ?_
  by_cases hi : i < data.length
  · have hblock : i / blockSize < blockCount data blockSize := by
      refine lt_of_lt_of_le ?_ (le_max_left _ _)
      rw [Nat.div_lt_iff_lt_mul hsize]
      have := Nat.div_add_mod' (data.length + blockSize - 1) blockSize
      have := Nat.mod_lt (data.length + blockSize - 1) hsize
      omega
    have hblock' : i / blockSize < T'.blockCount := by rwa [hcount', blockCount, hlength]
    -- The proof of the second image's block also convinces the holder of the first image's root.
    obtain ⟨proof, -, hclimb⟩ := hlevels.climb_siblings (hleaf _ hblock')
    have hsame := (eq_of_verifyBlock hideal hbuild (hroot.symm.trans hx) (hcount ▸ hblock)
      (decide_eq_true hclimb)).1
    rw [← getElem?_blockAt hi hsize, ← hsame, getElem?_blockAt (hlength ▸ hi) hsize]
  · rw [List.getElem?_eq_none (by omega), List.getElem?_eq_none (by omega)]

end Check

inductive Term
  | block (b : Bytes)
  | node (left right : Term)
  deriving DecidableEq

def termHashes : Hashes Unit Term := ⟨fun _ => .block, fun _ => .node⟩

theorem ideal_termHashes : Ideal termHashes () where
  block _ _ h := Term.block.inj h
  node _ _ _ _ h := Term.node.inj h
  apart _ _ _ h := Term.noConfusion h

def threeBlocks : VerityTree Unit Term :=
  ⟨(), 1, 3, [[.block [1], .block [2], .block [3]],
    [.node (.block [1]) (.block [2]), .node (.block [3]) (.block [3])],
    [.node (.node (.block [1]) (.block [2])) (.node (.block [3]) (.block [3]))]]⟩

theorem verifyBlock_binds_threeBlocks :
    VerityTree.build termHashes [1, 2, 3] 1 () = some threeBlocks ∧
      ∀ block proof, block.length = 1 →
        (verifyBlock termHashes (.node (.node (.block [1]) (.block [2]))
            (.node (.block [3]) (.block [3]))) () 2 block proof = true ↔
          2 < threeBlocks.blockCount ∧ block = blockAt [1, 2, 3] 1 2 ∧
            threeBlocks.proof 2 = some proof) :=
  ⟨rfl, (verifyBlock_binds_iff ideal_termHashes (T := threeBlocks) rfl rfl 2).mpr (by decide)⟩

/-- A change of the last of three blocks. -/
theorem root_eq_iff_lastChanged :
    ∃ T', VerityTree.build termHashes [1, 2, 4] 1 () = some T' ∧
      (T'.root = threeBlocks.root ↔ [1, 2, 4] = ([1, 2, 3] : Bytes)) :=
  ⟨_, rfl, root_eq_iff_image_eq ideal_termHashes
    (show VerityTree.build termHashes [1, 2, 3] 1 () = some threeBlocks from rfl) rfl rfl⟩

/-- The last of three blocks is also accepted at the index behind it. -/
theorem verifyBlock_threeBlocks_outside :
    VerityTree.build termHashes [1, 2, 3] 1 () = some threeBlocks ∧
      threeBlocks.root = some (.node (.node (.block [1]) (.block [2]))
        (.node (.block [3]) (.block [3]))) ∧
      verifyBlock termHashes (.node (.node (.block [1]) (.block [2]))
        (.node (.block [3]) (.block [3]))) () 3 [3] [.block [3], .node (.block [1]) (.block [2])] = true ∧
      ¬ 3 < threeBlocks.blockCount :=
  ⟨rfl, rfl, by decide +kernel, by decide⟩

end EuroOS.Verity
