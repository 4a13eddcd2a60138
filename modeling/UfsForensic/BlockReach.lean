import UfsForensic.BlockMap

/-!
# The reach of the block map

The file reader takes it for granted that the size of the partition keeps every logical block within
the reach of the block map. Nothing that is checked relates `fs_nindir` to either of them. Here the
blocks that the reader resolves are listed, and the branches the resolver takes are named. Every
block is within reach exactly when the size of the file is.
-/

namespace UfsForensic

open BlockMap (address addresses nindirOf)

variable {p : Bytes} {sb : Superblock} {inode : Inode}

/-- `readBlocks`, with the block indices passed to `resolveBlock` in order. -/
def readBlocksTraced (partition : Bytes) (sb : Superblock) (inode : Inode) (bsize nindir : ℕ) :
    (left remaining written bi : ℕ) → Bytes → List ℕ × Except UfsError Bytes
  | 0, _, _, _, out => ([], .ok out)
  | left + 1, remaining, written, bi, out =>
    let thisLen := min remaining bsize
    let addr := resolveBlock partition sb inode bi nindir
    let rest :=
      if addr = 0 then
        readBlocksTraced partition sb inode bsize nindir left (remaining - bsize)
          (satAdd written thisLen) (bi + 1) out
      else
        match readBlock partition sb addr thisLen with
        | .error e => ([], .error e)
        | .ok block =>
          let take := min block.len thisLen
          let out :=
            if written + take ≤ out.len then out.copyAt written (block.take take) else out
          readBlocksTraced partition sb inode bsize nindir left (remaining - bsize)
            (satAdd written thisLen) (bi + 1) out
    (bi :: rest.1, rest.2)

/-- `readInodeFile`, with the block indices passed to `resolveBlock` in order. -/
def readInodeFileTraced (partition : Bytes) (sb : Superblock) (inode : Inode) :
    List ℕ × Except UfsError Bytes :=
  if sb.bsize.toInt ≤ 0 then
    ([], .error (.impossibleGeometry "fs_bsize" (i32AsU64 sb.bsize) i64MaxAsU64))
  else if sb.fsize.toInt ≤ 0 then
    ([], .error (.impossibleGeometry "fs_fsize" (i32AsU64 sb.fsize) i64MaxAsU64))
  else if h : partition.len < inode.size.toNat then
    ([], .error (.impossibleGeometry "di_size" inode.size.toNat partition.len))
  else
    let bsize := i32AsU64 sb.bsize
    let size := inode.size.toNat
    let out := fileBuffer partition inode h
    if size = 0 then ([], .ok out)
    else
      let nBlocks := divCeil size bsize
      let nindir := if 0 < sb.nindir.toInt then i32AsU64 sb.nindir else 0
      readBlocksTraced partition sb inode bsize nindir nBlocks size 0 0 out

theorem readBlocksTraced_snd (bsize nindir left remaining written bi : ℕ) (out : Bytes) :
    (readBlocksTraced p sb inode bsize nindir left remaining written bi out).2 =
      readBlocks p sb inode bsize nindir left remaining written bi out := by
  induction left generalizing remaining written bi out with
  | zero => rfl
  | succ left ih =>
    simp only [readBlocksTraced, readBlocks]
    by_cases ha : resolveBlock p sb inode bi nindir = 0
    · rw [if_pos ha, if_pos ha, ih]
    · rw [if_neg ha, if_neg ha]
      cases readBlock p sb (resolveBlock p sb inode bi nindir) (min remaining bsize) with
      | error e => rfl
      | ok block => exact ih _ _ _ _

theorem readInodeFileTraced_snd : (readInodeFileTraced p sb inode).2 = readInodeFile p sb inode := by
  unfold readInodeFileTraced readInodeFile
  by_cases hb : sb.bsize.toInt ≤ 0
  · rw [if_pos hb, if_pos hb]
  rw [if_neg hb, if_neg hb]
  by_cases hf : sb.fsize.toInt ≤ 0
  · rw [if_pos hf, if_pos hf]
  rw [if_neg hf, if_neg hf]
  by_cases hs : p.len < inode.size.toNat
  · rw [dif_pos hs, dif_pos hs]
  rw [dif_neg hs, dif_neg hs]
  dsimp only
  by_cases h0 : inode.size.toNat = 0
  · rw [if_pos h0, if_pos h0]
  · rw [if_neg h0, if_neg h0, readBlocksTraced_snd]

theorem readBlocksTraced_fst (hsb : sb.WellFormed) (bsize nindir left remaining written bi : ℕ)
    (out : Bytes) : (readBlocksTraced p sb inode bsize nindir left remaining written bi out).1 =
      List.range' bi left := by
  induction left generalizing remaining written bi out with
  | zero => rfl
  | succ left ih =>
    simp only [readBlocksTraced, List.range'_succ, readBlock_eq hsb]
    by_cases ha : resolveBlock p sb inode bi nindir = 0
    · rw [if_pos ha, ih]
    · rw [if_neg ha, ih]

theorem mem_readInodeFileTraced (hsb : sb.WellFormed) (hsize : inode.size.toNat ≤ p.len) {bi : ℕ} :
    bi ∈ (readInodeFileTraced p sb inode).1 ↔ bi * sb.blockBytes < inode.size.toNat := by
  have hb := hsb.bsize_pos
  have hf := hsb.fsize_pos
  unfold readInodeFileTraced
  rw [if_neg (by omega), if_neg (by omega), dif_neg (by omega)]
  simp only [hsb.bsize_eq]
  by_cases hs : inode.size.toNat = 0
  · simp [hs]
  · rw [if_neg hs, readBlocksTraced_fst hsb, ← List.range_eq_range', List.mem_range,
      BlockMap.lt_divCeil_iff hsb.blockBytes_pos]

/-- The branch that the resolver takes for a block, with the indices it computes there. -/
inductive Route
  | direct (b : ℕ)
  | noPointers
  | single (i : ℕ)
  | double (i j : ℕ)
  | triple (i j k : ℕ)
  | pastTriple
  deriving DecidableEq

namespace Route

/-- The branches marked unreachable. -/
def Unreachable (r : Route) : Prop := r = noPointers ∨ r = pastTriple

def follow (partition : Bytes) (sb : Superblock) (inode : Inode) : Route → UInt64
  | direct b => inode.direct.toList.getD b 0
  | noPointers => 0
  | single i => indirectPtr partition sb inode.singleRoot i
  | double i j => indirectPtr partition sb (indirectPtr partition sb inode.doubleRoot i) j
  | triple i j k =>
    indirectPtr partition sb
      (indirectPtr partition sb (indirectPtr partition sb inode.tripleRoot i) j) k
  | pastTriple => 0

end Route

def route (bi nindir : ℕ) : Route :=
  if bi < 12 then .direct bi
  else if nindir = 0 then .noPointers
  else
    let i := bi - UFS_NDADDR
    if i < nindir then .single i
    else
      let i := i - nindir
      let nindir2 := satMul nindir nindir
      if i < nindir2 then .double (i / nindir) (i % nindir)
      else
        let i := i - nindir2
        let nindir3 := satMul nindir2 nindir
        if nindir3 ≤ i then .pastTriple
        else
          let rem := i % nindir2
          .triple (i / nindir2) (rem / nindir) (rem % nindir)

theorem resolveBlock_eq_follow (p : Bytes) (sb : Superblock) (inode : Inode) (bi nindir : ℕ) :
    resolveBlock p sb inode bi nindir = (route bi nindir).follow p sb inode := by
  unfold resolveBlock route
  by_cases h1 : bi < 12
  · rw [dif_pos h1, if_pos h1]
    simp [Route.follow, h1]
  rw [dif_neg h1, if_neg h1]
  by_cases h0 : nindir = 0
  · rw [if_pos h0, if_pos h0, Route.follow]
  rw [if_neg h0, if_neg h0]
  dsimp only
  by_cases h2 : bi - UFS_NDADDR < nindir
  · rw [if_pos h2, if_pos h2, Route.follow]
  rw [if_neg h2, if_neg h2]
  by_cases h3 : bi - UFS_NDADDR - nindir < satMul nindir nindir
  · rw [if_pos h3, if_pos h3, Route.follow]
  rw [if_neg h3, if_neg h3]
  by_cases h4 : satMul (satMul nindir nindir) nindir ≤
      bi - UFS_NDADDR - nindir - satMul nindir nindir
  · rw [if_pos h4, if_pos h4, Route.follow]
  · rw [if_neg h4, if_neg h4, Route.follow]

/-- A branch marked unreachable gives a hole, whatever the pointers are. -/
theorem resolveBlock_of_unreachable {bi nindir : ℕ} (h : (route bi nindir).Unreachable) :
    resolveBlock p sb inode bi nindir = 0 := by
  rw [resolveBlock_eq_follow]
  rcases h with h | h <;> rw [h] <;> rfl

/-- The number of blocks that a map with `n` pointers in a pointer block reaches. -/
def reach (n : ℕ) : ℕ := 12 + n + n ^ 2 + n ^ 3

theorem addresses_length (n : ℕ) : (addresses p sb inode n).length = reach n := by
  simp only [addresses, List.length_append, Vector.length_toList, IndexTree.leaves_length, reach,
    pow_one]
  omega

/-- The branches marked unreachable are those of the blocks past the reach. -/
theorem route_unreachable_iff {n bi : ℕ} (hn : n < 2 ^ 31) (hbi : bi < 2 ^ 63) :
    (route bi n).Unreachable ↔ reach n ≤ bi := by
  have hsq : n * n ≤ 2 ^ 31 * 2 ^ 31 := Nat.mul_le_mul hn.le hn.le
  have hn2 : satMul n n = n * n := satMul_eq (hsq.trans (by unfold u64Max; norm_num))
  have hcube : satMul (n * n) n ≤ bi - 12 - n - n * n ↔ n * n * n ≤ bi - 12 - n - n * n :=
    satMul_le_iff (by unfold u64Max; omega)
  have hreach : reach n = 12 + n + n * n + n * n * n := by
    unfold reach
    ring
  unfold route
  simp only [UFS_NDADDR, hn2, hcube, hreach]
  by_cases h1 : bi < 12
  · simp only [if_pos h1, Route.Unreachable, reduceCtorEq, or_self, false_iff]
    omega
  rw [if_neg h1]
  by_cases h0 : n = 0
  · subst h0
    simp only [if_pos, Route.Unreachable, true_or, true_iff]
    omega
  rw [if_neg h0]
  by_cases h2 : bi - 12 < n
  · simp only [if_pos h2, Route.Unreachable, reduceCtorEq, or_self, false_iff]
    omega
  rw [if_neg h2]
  by_cases h3 : bi - 12 - n < n * n
  · simp only [if_pos h3, Route.Unreachable, reduceCtorEq, or_self, false_iff]
    omega
  rw [if_neg h3]
  by_cases h4 : n * n * n ≤ bi - 12 - n - n * n
  · simp only [if_pos h4, Route.Unreachable, or_true, true_iff]
    omega
  · simp only [if_neg h4, Route.Unreachable, reduceCtorEq, or_self, false_iff]
    omega

/-- No block of the file is out of the block map's reach. -/
structure WithinReach (p : Bytes) (sb : Superblock) (inode : Inode) : Prop where
  indices : ∀ bi ∈ (readInodeFileTraced p sb inode).1, bi < reach (nindirOf sb)
  routes : ∀ bi ∈ (readInodeFileTraced p sb inode).1, ¬ (route bi (nindirOf sb)).Unreachable
  -- every byte of the file lies in a block that has a place in the map
  bytes : ∀ i < inode.size.toNat,
    i / sb.blockBytes < (addresses p sb inode (nindirOf sb)).length

theorem forall_block_lt_iff {size s r : ℕ} :
    (∀ bi, bi * s < size → bi < r) ↔ size ≤ r * s := by
  constructor
  · intro h
    by_contra hlt
    exact absurd (h r (Nat.not_le.mp hlt)) (lt_irrefl r)
  · intro h bi hbi
    exact Nat.lt_of_mul_lt_mul_right (hbi.trans_le h)

/-- The blocks of a file are within reach exactly when its size is. -/
theorem withinReach_of_size (hsb : sb.WellFormed) (hsize : inode.size.toNat ≤ p.len) :
    WithinReach p sb inode ↔ inode.size.toNat ≤ reach (nindirOf sb) * sb.blockBytes := by
  have hpos := hsb.blockBytes_pos
  have hlen := p.len_lt
  rw [← forall_block_lt_iff]
  constructor
  · intro h bi hbi
    exact h.indices bi ((mem_readInodeFileTraced hsb hsize).mpr hbi)
  · intro h
    refine ⟨fun bi hbi => ?_, fun bi hbi hun => ?_, fun i hi => ?_⟩
    · exact h bi ((mem_readInodeFileTraced hsb hsize).mp hbi)
    · have hin := (mem_readInodeFileTraced hsb hsize).mp hbi
      have hle : bi ≤ bi * sb.blockBytes := Nat.le_mul_of_pos_right bi hpos
      have hreach := (route_unreachable_iff (BlockMap.nindirOf_lt sb) (by omega)).mp hun
      exact absurd (h bi hin) (Nat.not_lt.mpr hreach)
    · rw [addresses_length]
      exact h _ ((Nat.div_mul_le_self i sb.blockBytes).trans_lt hi)

/-- A file whose size passes the reader's check is within reach exactly when its size is at most the
reach in bytes. -/
theorem withinReach_iff {data : Bytes} (hparse : Superblock.parse data = .ok sb)
    (hsize : inode.size.toNat ≤ p.len) :
    WithinReach p sb inode ↔
      inode.size.toNat ≤
        (12 + nindirOf sb + nindirOf sb ^ 2 + nindirOf sb ^ 3) * sb.blockBytes :=
  withinReach_of_size (Superblock.wellFormed_of_parse hparse) hsize

/-- Every file of a partition is within reach exactly when the partition is no longer than the reach
in bytes. -/
theorem forall_withinReach_iff (hsb : sb.WellFormed) :
    (∀ inode : Inode, inode.size.toNat ≤ p.len → WithinReach p sb inode) ↔
      p.len ≤ reach (nindirOf sb) * sb.blockBytes := by
  constructor
  · intro h
    have hlen := p.len_lt
    have hsize : (UInt64.ofNat p.len).toNat = p.len := 
      UInt64.toNat_ofNat_of_lt (hlen.trans (by decide))
    have hfull := h (Crafted.inode Crafted.REG_MODE .regular (UInt64.ofNat p.len) [] 0) hsize.le
    rw [withinReach_of_size hsb hsize.le] at hfull
    exact hsize ▸ hfull
  · intro h inode hsize
    exact (withinReach_of_size hsb hsize).mpr (hsize.trans h)

namespace Crafted

/-- The tiny geometry with an `fs_nindir` of 1, and a file of 16 blocks at inode 4. -/
def oneNindir : Bytes := Bytes.ofPatches 16384 (by decide)
  ({ tiny with nindir := 1 }.superblock SBLOCK_UFS1 ++ tiny.dinode 4 REG_MODE 8192 [24, 25])

def oneNindirSb : Superblock :=
  Superblock.decode (oneNindir.slice SBLOCK_UFS1 SB_MIN_LEN) .ufs1 .little

def longFile : Inode := Crafted.inode REG_MODE .regular 8192 [24, 25] 0

theorem parse_oneNindir :
    Superblock.parse (oneNindir.slice SBLOCK_UFS1 SB_MIN_LEN) = .ok oneNindirSb := by
  decide +kernel

end Crafted

theorem withinReach_iff_longFile :
    WithinReach Crafted.oneNindir Crafted.oneNindirSb Crafted.longFile ↔
      Crafted.longFile.size.toNat ≤ (12 + nindirOf Crafted.oneNindirSb +
        nindirOf Crafted.oneNindirSb ^ 2 + nindirOf Crafted.oneNindirSb ^ 3) *
          Crafted.oneNindirSb.blockBytes :=
  withinReach_iff Crafted.parse_oneNindir (by decide)

/-- With one pointer in a pointer block the map ends after 15 blocks: the last of 16 is resolved in
the branch past the triple-indirect range. -/
theorem longFile_past_reach :
    Superblock.parse (Crafted.oneNindir.slice SBLOCK_UFS1 SB_MIN_LEN) = .ok Crafted.oneNindirSb ∧
      readInode Crafted.oneNindir Crafted.oneNindirSb 4 = .ok Crafted.longFile ∧
      Crafted.longFile.size.toNat ≤ Crafted.oneNindir.len ∧
      15 ∈ (readInodeFileTraced Crafted.oneNindir Crafted.oneNindirSb Crafted.longFile).1 ∧
      route 15 (nindirOf Crafted.oneNindirSb) = .pastTriple ∧
      resolveBlock Crafted.oneNindir Crafted.oneNindirSb Crafted.longFile 15
        (nindirOf Crafted.oneNindirSb) = 0 ∧
      ¬ WithinReach Crafted.oneNindir Crafted.oneNindirSb Crafted.longFile := by
  have hsb := Superblock.wellFormed_of_parse Crafted.parse_oneNindir
  have hsize : Crafted.longFile.size.toNat ≤ Crafted.oneNindir.len := by decide
  have hmem : 15 ∈
      (readInodeFileTraced Crafted.oneNindir Crafted.oneNindirSb Crafted.longFile).1 := by
    rw [mem_readInodeFileTraced hsb hsize]
    decide +kernel
  have hroute : route 15 (nindirOf Crafted.oneNindirSb) = .pastTriple := by decide +kernel
  refine ⟨Crafted.parse_oneNindir, by decide +kernel, hsize, hmem, hroute,
    resolveBlock_of_unreachable (Or.inr hroute), fun h => ?_⟩
  exact h.routes 15 hmem (Or.inr hroute)

end UfsForensic
