import UfsForensic.Dir

/-!
# File content: the block-map walk from an inode to its bytes

The first 12 logical blocks come from the direct pointers; beyond them `di_ib[0]` is a
single-indirect, `di_ib[1]` a double-indirect and `di_ib[2]` a triple-indirect block. A pointer of
`0` is a hole and reads as zeros.
-/

namespace UfsForensic

/-- The `idx`-th pointer of the indirect block at fragment `indAddr`. -/
def indirectPtr (partition : Bytes) (sb : Superblock) (indAddr : UInt64) (idx : ℕ) : UInt64 :=
  if indAddr = 0 then 0
  else
    let bsize := if 0 < sb.bsize.toInt then i32AsU64 sb.bsize else 0
    match readBlock partition sb indAddr bsize with
    | .error _ => 0
    | .ok block => sb.version.readPtr sb.endian block (satMul idx sb.version.ptrSize)

/-- The data-fragment address of logical block `bi`, `0` for a hole. -/
def resolveBlock (partition : Bytes) (sb : Superblock) (inode : Inode) (bi nindir : ℕ) : UInt64 :=
  if h : bi < 12 then inode.direct[bi]
  else if nindir = 0 then 0
  else
    let i := bi - UFS_NDADDR
    -- single-indirect
    if i < nindir then indirectPtr partition sb inode.singleRoot i
    else
      -- double-indirect
      let i := i - nindir
      let nindir2 := satMul nindir nindir
      if i < nindir2 then
        let sib := indirectPtr partition sb inode.doubleRoot (i / nindir)
        indirectPtr partition sb sib (i % nindir)
      else
        -- triple-indirect; an index past its reach is a hole
        let i := i - nindir2
        let nindir3 := satMul nindir2 nindir
        if nindir3 ≤ i then 0
        else
          let dib := indirectPtr partition sb inode.tripleRoot (i / nindir2)
          let rem := i % nindir2
          let sib := indirectPtr partition sb dib (rem / nindir)
          indirectPtr partition sb sib (rem % nindir)

/-- The loop of `readInodeFile`, with `left` blocks to go. -/
def readBlocks (partition : Bytes) (sb : Superblock) (inode : Inode) (bsize nindir : ℕ) :
    (left remaining written bi : ℕ) → Bytes → Except UfsError Bytes
  | 0, _, _, _, out => .ok out
  | left + 1, remaining, written, bi, out =>
    let thisLen := min remaining bsize
    let addr := resolveBlock partition sb inode bi nindir
    -- a hole leaves its range of the zeroed buffer alone
    if addr = 0 then
      readBlocks partition sb inode bsize nindir left (remaining - bsize)
        (satAdd written thisLen) (bi + 1) out
    else
      match readBlock partition sb addr thisLen with
      | .error e => .error e
      | .ok block =>
        -- the block is short where the image is cut
        let take := min block.len thisLen
        let out :=
          if written + take ≤ out.len then out.copyAt written (block.take take) else out
        readBlocks partition sb inode bsize nindir left (remaining - bsize)
          (satAdd written thisLen) (bi + 1) out

/-- `n.div_ceil(d)` -/
def divCeil (n d : ℕ) : ℕ := if n % d = 0 then n / d else n / d + 1

/-- `vec![0; di_size]` for a size that the partition can hold. -/
def fileBuffer (partition : Bytes) (inode : Inode) (h : ¬ partition.len < inode.size.toNat) :
    Bytes :=
  Bytes.zeros inode.size.toNat ((Nat.not_lt.mp h).trans_lt partition.len_lt)

/-- The byte content of an already-decoded inode. -/
def readInodeFile (partition : Bytes) (sb : Superblock) (inode : Inode) :
    Except UfsError Bytes :=
  if sb.bsize.toInt ≤ 0 then
    .error (.impossibleGeometry "fs_bsize" (i32AsU64 sb.bsize) i64MaxAsU64)
  else if sb.fsize.toInt ≤ 0 then
    .error (.impossibleGeometry "fs_fsize" (i32AsU64 sb.fsize) i64MaxAsU64)
  else if h : partition.len < inode.size.toNat then
    .error (.impossibleGeometry "di_size" inode.size.toNat partition.len)
  else
    let bsize := i32AsU64 sb.bsize
    let size := inode.size.toNat
    let out := fileBuffer partition inode h
    if size = 0 then .ok out
    else
      let nBlocks := divCeil size bsize
      let nindir := if 0 < sb.nindir.toInt then i32AsU64 sb.nindir else 0
      readBlocks partition sb inode bsize nindir nBlocks size 0 0 out

def readFile (partition : Bytes) (sb : Superblock) (ino : ℕ) : Except UfsError Bytes := do
  let inode ← readInode partition sb ino
  readInodeFile partition sb inode

/-- The target of a symbolic link, inline or in its data blocks. -/
def readSymlinkTarget (partition : Bytes) (sb : Superblock) (inode : Inode) :
    Except UfsError Bytes :=
  match inode.symlinkTarget with
  | some inline => .ok inline
  | none => readInodeFile partition sb inode

def readPathContent (partition : Bytes) (sb : Superblock) (path : List UInt8) :
    Except UfsError (Option Bytes) := do
  match ← readByPath partition sb path with
  | none => return none
  | some (_, inode) => return some (← readInodeFile partition sb inode)

section Length

variable {partition : Bytes} {sb : Superblock} {inode : Inode} {content : Bytes}

theorem readBlocks_len {bsize nindir left remaining written bi : ℕ} {out : Bytes}
    (h : readBlocks partition sb inode bsize nindir left remaining written bi out = .ok content) :
    content.len = out.len := by
  induction left generalizing remaining written bi out with
  | zero => rw [Except.ok.inj h]
  | succ left ih =>
    simp only [readBlocks] at h
    -- neither a hole nor a copy changes the length
    split at h
    · exact ih h
    · split at h
      · exact nomatch h
      · have hlen := ih h
        split at hlen
        · rw [hlen, Bytes.copyAt_len]
        · exact hlen

/-- A file is only read when it fits the partition, and then in full. -/
theorem readInodeFile_len (h : readInodeFile partition sb inode = .ok content) :
    inode.size.toNat ≤ partition.len ∧ content.len = inode.size.toNat := by
  unfold readInodeFile at h
  by_cases hb : sb.bsize.toInt ≤ 0
  · rw [if_pos hb] at h
    exact nomatch h
  by_cases hf : sb.fsize.toInt ≤ 0
  · rw [if_neg hb, if_pos hf] at h
    exact nomatch h
  by_cases hs : partition.len < inode.size.toNat
  · rw [if_neg hb, if_neg hf, dif_pos hs] at h
    exact nomatch h
  rw [if_neg hb, if_neg hf, dif_neg hs] at h
  dsimp only at h
  refine ⟨Nat.not_lt.mp hs, ?_⟩
  by_cases h0 : inode.size.toNat = 0
  · rw [if_pos h0] at h
    rw [← Except.ok.inj h]
    rfl
  · rw [if_neg h0] at h
    rw [readBlocks_len h]
    rfl

theorem readFile_eq_ok_iff {ino : ℕ} :
    readFile partition sb ino = .ok content ↔ ∃ inode, readInode partition sb ino = .ok inode ∧
      readInodeFile partition sb inode = .ok content := by
  unfold readFile
  cases readInode partition sb ino with
  | error e => simp [bind, Except.bind]
  | ok inode => simp [bind, Except.bind]

end Length

end UfsForensic
