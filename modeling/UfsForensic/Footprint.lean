import Mathlib.Order.Interval.Set.Basic
import UfsForensic.BlockMap
import UfsForensic.GroupHeader

/-!
# What each reader depends on

Every structure occupies a range of bytes of the partition, given here in exact arithmetic. A
reader gives the same answer on every partition that agrees with the first one on the ranges it
reads.
-/

namespace UfsForensic

open Bytes (AgreeOn)
open UfsFs (parsePrimary)

variable {p q : Bytes} {sb : Superblock}

namespace Superblock

theorem magicBytes_take (data : Bytes) : magicBytes (data.slice 0 SB_MIN_LEN) = magicBytes data := by
  unfold magicBytes
  congr 1
  funext i
  have hi := i.isLt
  rw [u8At, Bytes.slice_byte_of_lt (by unfold FS_MAGIC_OFF SB_MIN_LEN; omega), Nat.zero_add]
  rfl

theorem decode_take (data : Bytes) (version : UfsVersion) (endian : Endian) :
    decode (data.slice 0 SB_MIN_LEN) version endian = decode data version endian := by
  have hu (off : ℕ) (h : off + 4 ≤ SB_MIN_LEN) :
      endian.u32 (data.slice 0 SB_MIN_LEN) off = endian.u32 data off := by
    rw [Endian.u32_slice h, Nat.zero_add]
  have hi (off : ℕ) (h : off + 4 ≤ SB_MIN_LEN) :
      endian.i32 (data.slice 0 SB_MIN_LEN) off = endian.i32 data off :=
    congrArg UInt32.toInt32 (hu off h)
  have hl (off : ℕ) (h : off + 8 ≤ SB_MIN_LEN) :
      endian.i64 (data.slice 0 SB_MIN_LEN) off = endian.i64 data off := by
    rw [Endian.i64_slice h, Nat.zero_add]
  unfold decode
  simp (disch := decide) only [hu, hi, hl]

/-- A superblock is decoded from its 1376 bytes. -/
theorem parse_congr {a b : Bytes} (hlen : a.len = b.len)
    (h : a.slice 0 SB_MIN_LEN = b.slice 0 SB_MIN_LEN) : parse a = parse b := by
  have hmagic : magicBytes a = magicBytes b := by
    rw [← magicBytes_take a, ← magicBytes_take b, h]
  have hdecode (v : UfsVersion) (e : Endian) : decode a v e = decode b v e := by
    rw [← decode_take a, ← decode_take b, h]
  unfold parse
  simp only [hlen, hmagic, hdecode]

end Superblock

theorem parsePrimary_congr {off : ℕ} (h : AgreeOn p q (Set.Ico off (off + SB_MIN_LEN))) :
    parsePrimary p off = parsePrimary q off := by
  unfold parsePrimary
  rcases Nat.lt_or_ge p.len off with hoff | hoff
  · rw [Bytes.getFrom_eq_none hoff, Bytes.getFrom_eq_none (h.len_eq ▸ hoff), h.len_eq]
  · rw [Bytes.getFrom_eq_some hoff, Bytes.getFrom_eq_some (h.len_eq ▸ hoff)]
    apply Superblock.parse_congr
    · rw [Bytes.slice_len, Bytes.slice_len, h.len_eq]
    · have hslice : p.slice off SB_MIN_LEN = q.slice off SB_MIN_LEN :=
        h.slice_eq fun i h1 h2 => ⟨h1, h2⟩
      have hclip (r : Bytes) : (r.slice off (r.len - off)).slice 0 SB_MIN_LEN =
          r.slice off SB_MIN_LEN := by
        apply Bytes.ext_of_lt
        · simp only [Bytes.slice_len]
          omega
        · intro i hi
          simp only [Bytes.slice_len] at hi
          rw [Bytes.slice_byte_of_lt (by omega), Bytes.slice_byte_of_lt (by omega),
            Bytes.slice_byte_of_lt (by omega), Nat.zero_add]
      rw [hclip p, hclip q, hslice]

/-- The two regions that decide the primary superblock. -/
def primaryRegions : Set ℕ :=
  Set.Ico SBLOCK_UFS2 (SBLOCK_UFS2 + SB_MIN_LEN) ∪ Set.Ico SBLOCK_UFS1 (SBLOCK_UFS1 + SB_MIN_LEN)

theorem parsePrimarySb_congr (h : AgreeOn p q primaryRegions) :
    parsePrimarySb p = parsePrimarySb q := by
  unfold parsePrimarySb
  simp only [tryOffsets_cons]
  rw [parsePrimary_congr (h.mono Set.subset_union_left),
    parsePrimary_congr (h.mono Set.subset_union_right)]
  rfl

namespace Crafted

theorem agreeOn_volume {patches : List Patch}
    (h : ∀ r ∈ patches, SBLOCK_UFS1 + SB_MIN_LEN ≤ r.1) :
    AgreeOn (volume patches) (volume []) primaryRegions := by
  refine ⟨rfl, fun i hi => ?_⟩
  rcases hi with ⟨hlow, -⟩ | ⟨-, hhigh⟩
  · have hpast : 32768 ≤ i := le_trans (by decide) hlow
    rw [(volume patches).byte_eq_zero i hpast, (volume []).byte_eq_zero i hpast]
  · unfold volume
    rw [Bytes.ofPatches, Bytes.ofPatches, Bytes.tabulate_byte, Bytes.tabulate_byte, List.append_nil,
      Bytes.patchByte_append_of_past fun r hr => hhigh.trans_le (h r hr)]

theorem parsePrimarySb_volume_nil : parsePrimarySb (volume []) = .ok tinySb := by decide +kernel

theorem parsePrimarySb_volume {patches : List Patch}
    (h : ∀ r ∈ patches, SBLOCK_UFS1 + SB_MIN_LEN ≤ r.1) :
    parsePrimarySb (volume patches) = .ok tinySb := by
  rw [parsePrimarySb_congr (agreeOn_volume h), parsePrimarySb_volume_nil]
end Crafted

namespace Superblock

/-- `fs_ipg` as a count, `0` when it is negative. -/
def inodesPerGroup (sb : Superblock) : ℕ := sb.ipg.toInt.toNat

theorem WellFormed.inodes_le {sb : Superblock} (h : sb.WellFormed) :
    sb.inodesPerGroup * sb.ncg.toNat ≤ u64Max := by
  have hipg : sb.inodesPerGroup ≤ 2 ^ 31 := by
    have := sb.ipg.toInt_lt
    unfold inodesPerGroup
    omega
  calc sb.inodesPerGroup * sb.ncg.toNat
      ≤ 2 ^ 31 * 2 ^ 24 := Nat.mul_le_mul hipg h.ncg_le
    _ ≤ u64Max := by unfold u64Max; norm_num

theorem WellFormed.satMul_inodes {sb : Superblock} (h : sb.WellFormed) :
    satMul sb.inodesPerGroup sb.ncg.toNat = sb.inodesPerGroup * sb.ncg.toNat :=
  satMul_eq h.inodes_le

/-- The number of a cell of the inode tables is computed without saturation. -/
theorem WellFormed.satAdd_satMul_cell {sb : Superblock} (h : sb.WellFormed) {cg within : ℕ}
    (hcg : cg < sb.ncg.toNat) (hw : within < sb.inodesPerGroup) :
    satAdd (satMul cg sb.inodesPerGroup) within = cg * sb.inodesPerGroup + within := by
  have hmax := h.inodes_le
  have hstep : (cg + 1) * sb.inodesPerGroup ≤ sb.ncg.toNat * sb.inodesPerGroup :=
    Nat.mul_le_mul_right _ hcg
  rw [Nat.succ_mul, Nat.mul_comm sb.ncg.toNat] at hstep
  rw [satMul_eq (by omega), satAdd_eq (by omega)]

/-- The bytes of a group's inode bitmap. -/
def bitmapLen (sb : Superblock) : ℕ := divCeil sb.inodesPerGroup 8

end Superblock

/-- The byte offset of the inode bitmap of group `cg`, as its header names it. -/
def bitmapOff (p : Bytes) (sb : Superblock) (cg : ℕ) : ℕ :=
  sb.headerOff cg + (sb.endian.u32 p (sb.headerOff cg + CylinderGroup.OFF_IUSEDOFF)).toNat

/-- The header of group `cg` is valid and its inode bitmap lies in the partition. -/
structure BitmapReadable (p : Bytes) (sb : Superblock) (cg : ℕ) : Prop where
  fpg_pos : 0 < sb.fpg.toInt
  cblkno_nonneg : 0 ≤ sb.cblkno.toInt
  ipg_pos : 0 < sb.ipg.toInt
  header_le : sb.headerOff cg + CylinderGroup.CG_MIN_LEN ≤ p.len
  magic_eq : sb.endian.u32 p (sb.headerOff cg + CylinderGroup.OFF_MAGIC) = CG_MAGIC
  bitmap_le : bitmapOff p sb cg + sb.bitmapLen ≤ p.len

/-- What parses from the header offset on is a header with the magic that lies in the partition. -/
theorem parse_header_eq_ok {off : ℕ} {e : Endian} {cgh : CylinderGroup}
    (h : CylinderGroup.parse (p.slice off (p.len - off)) e = .ok cgh) :
    off + CylinderGroup.CG_MIN_LEN ≤ p.len ∧
      e.u32 p (off + CylinderGroup.OFF_MAGIC) = CG_MAGIC ∧
      cgh.inosusedOff = (e.u32 p (off + CylinderGroup.OFF_IUSEDOFF)).toNat := by
  unfold CylinderGroup.parse at h
  dsimp only at h
  split_ifs at h with hlen hmagic
  rw [Bytes.slice_len] at hlen
  unfold CylinderGroup.CG_MIN_LEN at hlen ⊢
  have hfield (o : ℕ) (ho : o + 4 ≤ 124) :
      e.u32 (p.slice off (p.len - off)) o = e.u32 p (off + o) := Endian.u32_slice (by omega) _
  rw [hfield _ (by decide)] at hmagic
  refine ⟨by omega, not_not.mp hmagic, ?_⟩
  rw [← Except.ok.inj h, ← hfield _ (by decide)]
  rfl

theorem exists_parse_header {off : ℕ} {e : Endian} (hlen : off + CylinderGroup.CG_MIN_LEN ≤ p.len)
    (hmagic : e.u32 p (off + CylinderGroup.OFF_MAGIC) = CG_MAGIC) :
    ∃ cgh, CylinderGroup.parse (p.slice off (p.len - off)) e = .ok cgh := by
  unfold CylinderGroup.CG_MIN_LEN at hlen
  have hfield : e.u32 (p.slice off (p.len - off)) CylinderGroup.OFF_MAGIC =
      e.u32 p (off + CylinderGroup.OFF_MAGIC) :=
    Endian.u32_slice (by unfold CylinderGroup.OFF_MAGIC; omega) _
  unfold CylinderGroup.parse
  rw [if_neg (by rw [Bytes.slice_len]; unfold CylinderGroup.CG_MIN_LEN; omega)]
  dsimp only
  rw [hfield, if_neg (not_not.mpr hmagic)]
  exact ⟨_, rfl⟩

theorem get_rest_eq_some_iff {off a n : ℕ} (hoff : off ≤ p.len) (hn : a + n ≤ u64Max) {s : Bytes} :
    (p.slice off (p.len - off)).get a (satAdd a n) = some s ↔
      off + a + n ≤ p.len ∧ s = p.slice (off + a) n := by
  rw [satAdd_eq hn]
  by_cases hin : off + a + n ≤ p.len
  · rw [Bytes.get_eq_some (by omega) (by rw [Bytes.slice_len]; omega), Nat.add_sub_cancel_left,
      Bytes.slice_slice _ _ _ _ _ (by omega), Option.some.injEq]
    exact ⟨fun h => ⟨hin, h.symm⟩, fun h => h.2.symm⟩
  · rw [Bytes.get_eq_none (by rw [Bytes.slice_len]; omega)]
    exact iff_of_false (by simp) fun h => hin h.1

theorem bitmapLen_le (sb : Superblock) : sb.bitmapLen ≤ 2 ^ 31 := by
  have := sb.ipg.toInt_lt
  unfold Superblock.bitmapLen Superblock.inodesPerGroup divCeil
  split_ifs <;> omega

theorem cgInodeBitmap_eq_some_iff (hsb : sb.WellFormed) {cg : ℕ} {used : Bytes} :
    cgInodeBitmap p sb cg = some used ↔
      BitmapReadable p sb cg ∧ used = p.slice (bitmapOff p sb cg) sb.bitmapLen := by
  have hfs := hsb.fsize_pos
  unfold cgInodeBitmap
  by_cases hgeom : sb.fsize.toInt ≤ 0 ∨ sb.fpg.toInt ≤ 0 ∨ sb.cblkno.toInt < 0 ∨ sb.ipg.toInt ≤ 0
  · rw [if_pos hgeom]
    refine iff_of_false (by simp) fun h => ?_
    have := h.1.fpg_pos
    have := h.1.cblkno_nonneg
    have := h.1.ipg_pos
    omega
  rw [if_neg hgeom]
  have hfpg : 0 < sb.fpg.toInt := by omega
  have hcb : 0 ≤ sb.cblkno.toInt := by omega
  have hipg : 0 < sb.ipg.toInt := by omega
  have hbytes : divCeil (i32AsU64 sb.ipg) 8 = sb.bitmapLen := by
    rw [i32AsU64_of_nonneg hipg.le]
    rfl
  have hheader := getFrom_header (p := p) hsb hfpg.le hcb cg
  unfold satAddr at hheader
  dsimp only
  rw [hbytes, hheader]
  -- neither the offset nor the length of the bitmap comes near 64 bits
  have hsum (x : UInt32) : x.toNat + sb.bitmapLen ≤ u64Max := by
    have := x.toNat_lt
    have := bitmapLen_le sb
    unfold u64Max
    omega
  rcases Nat.lt_or_ge p.len (sb.headerOff cg) with hoff | hoff
  · rw [Bytes.getFrom_eq_none hoff]
    exact iff_of_false (by simp) fun h => absurd h.1.header_le (by omega)
  rw [Bytes.getFrom_eq_some hoff]
  dsimp only
  constructor
  · intro h
    cases hparse : CylinderGroup.parse (p.slice (sb.headerOff cg) (p.len - sb.headerOff cg))
        sb.endian with
    | error err =>
      rw [hparse] at h
      exact nomatch h
    | ok cgh =>
      obtain ⟨hlen, hmagic, hused⟩ := parse_header_eq_ok hparse
      rw [hparse] at h
      dsimp only at h
      rw [hused, get_rest_eq_some_iff hoff (hsum _)] at h
      exact ⟨⟨hfpg, hcb, hipg, hlen, hmagic, h.1⟩, h.2⟩
  · rintro ⟨hread, rfl⟩
    obtain ⟨cgh, hparse⟩ := exists_parse_header hread.header_le hread.magic_eq
    rw [hparse]
    dsimp only
    rw [(parse_header_eq_ok hparse).2.2, get_rest_eq_some_iff hoff (hsum _)]
    exact ⟨hread.bitmap_le, rfl⟩

def headerSpan (sb : Superblock) (cg : ℕ) : Set ℕ :=
  Set.Ico (sb.headerOff cg) (sb.headerOff cg + CylinderGroup.CG_MIN_LEN)

section Header

variable {cg : ℕ} (h : AgreeOn p q (headerSpan sb cg))
include h

theorem headerField_congr (hlen : sb.headerOff cg + CylinderGroup.CG_MIN_LEN ≤ p.len) {off : ℕ}
    (hoff : off + 4 ≤ CylinderGroup.CG_MIN_LEN) :
    sb.endian.u32 p (sb.headerOff cg + off) = sb.endian.u32 q (sb.headerOff cg + off) := by
  apply Endian.u32_congr
  intro i hi
  rw [Bytes.window_eq (by omega) hi, Bytes.window_eq (by rw [← h.len_eq]; omega) hi]
  exact h.byte_eq _ ⟨by omega, by omega⟩

theorem bitmapOff_congr (hlen : sb.headerOff cg + CylinderGroup.CG_MIN_LEN ≤ p.len) :
    bitmapOff p sb cg = bitmapOff q sb cg := by
  rw [bitmapOff, headerField_congr h hlen (by decide), bitmapOff]

theorem BitmapReadable.congr (hr : BitmapReadable p sb cg) : BitmapReadable q sb cg where
  fpg_pos := hr.fpg_pos
  cblkno_nonneg := hr.cblkno_nonneg
  ipg_pos := hr.ipg_pos
  header_le := h.len_eq ▸ hr.header_le
  magic_eq := by rw [← headerField_congr h hr.header_le (by decide), hr.magic_eq]
  bitmap_le := by
    rw [← bitmapOff_congr h hr.header_le, ← h.len_eq]
    exact hr.bitmap_le

end Header

/-- The byte offset of the dinode of `ino`. -/
def Superblock.dinodeOff (sb : Superblock) (ino : ℕ) : ℕ :=
  (ino / sb.inodesPerGroup * sb.fragsPerGroup + sb.iblkno.toInt.toNat) * sb.fragBytes +
    ino % sb.inodesPerGroup * sb.inodeSize

/-- The cell of `size` bytes at an address computed with saturation is the one at the exact
address: a saturated address is past the end of the partition. -/
theorem get_satAddr (g a b w size : ℕ) {n : ℕ} (hn : 0 < n) :
    p.get (satAdd (satAddr g a b n) (satMul w size))
        (satAdd (satAdd (satAddr g a b n) (satMul w size)) size) =
      p.get ((g * a + b) * n + w * size) ((g * a + b) * n + w * size + size) := by
  have hlen := p.len_lt_u64Max
  have hiff := satAddr_le_iff (g := g) (a := a) (b := b) hlen hn
  have hexact := satAddr_eq (g := g) (a := a) (b := b) hlen hn
  by_cases hin : (g * a + b) * n + w * size + size ≤ p.len
  · have hbase : satAddr g a b n = (g * a + b) * n := hexact (hiff.mpr (by omega))
    have hstart : satAdd (satAddr g a b n) (satMul w size) = (g * a + b) * n + w * size := by
      rw [hbase, satMul_eq (by omega), satAdd_eq (by omega)]
    rw [hstart, satAdd_eq (by omega)]
  · rw [Bytes.get_eq_none fun h => hin h.2, Bytes.get_eq_none]
    intro hc
    apply hin
    have hstop := (satAdd_le_iff hlen).mp hc.2
    have hstart := (satAdd_le_iff (a := satAddr g a b n) (b := satMul w size) hlen).mp (by omega)
    have hcell := (satMul_le_iff (a := w) (b := size) hlen).mp (by omega)
    rw [satMul_eq (by omega), hexact (by omega)] at hstart hstop
    rwa [satAdd_eq (by omega)] at hstop

/-- A dinode is found where the geometry puts it. -/
theorem readInode_eq_ok_iff (hsb : sb.WellFormed) {ino : ℕ} {inode : Inode} :
    readInode p sb ino = .ok inode ↔
      0 < sb.ipg.toInt ∧ 0 < sb.fpg.toInt ∧ 0 ≤ sb.iblkno.toInt ∧
        ino < sb.inodesPerGroup * sb.ncg.toNat ∧ sb.dinodeOff ino + sb.inodeSize ≤ p.len ∧
        Inode.parseWithMaxsymlink (p.slice (sb.dinodeOff ino) sb.inodeSize) sb.version sb.endian
          sb.maxsymlinklen = .ok inode := by
  have hfs := hsb.fsize_pos
  unfold readInode
  by_cases h1 : sb.ipg.toInt ≤ 0
  · rw [if_pos h1]
    exact iff_of_false (by simp) (fun h => absurd h.1 (by omega))
  by_cases h2 : sb.fpg.toInt ≤ 0
  · rw [if_neg h1, if_pos h2]
    exact iff_of_false (by simp) (fun h => absurd h.2.1 (by omega))
  by_cases h3 : sb.iblkno.toInt < 0
  · rw [if_neg h1, if_neg h2, if_neg (by omega), if_pos h3]
    exact iff_of_false (by simp) (fun h => absurd h.2.2.1 (by omega))
  rw [if_neg h1, if_neg h2, if_neg (by omega), if_neg h3, hsb.fsize_eq,
    i32AsU64_of_nonneg (x := sb.ipg) (by omega), i32AsU64_of_nonneg (x := sb.fpg) (by omega),
    i32AsU64_of_nonneg (x := sb.iblkno) (by omega)]
  change (if satMul sb.inodesPerGroup sb.ncg.toNat ≤ ino then _ else _) = Except.ok inode ↔ _
  rw [hsb.satMul_inodes]
  by_cases h4 : sb.inodesPerGroup * sb.ncg.toNat ≤ ino
  · rw [if_pos h4]
    exact iff_of_false (by simp) (fun h => absurd h.2.2.2.1 (by omega))
  rw [if_neg h4]
  have hget : _ = p.get (sb.dinodeOff ino) (sb.dinodeOff ino + sb.inodeSize) :=
    get_satAddr (ino / sb.inodesPerGroup) sb.fragsPerGroup sb.iblkno.toInt.toNat
      (ino % sb.inodesPerGroup) sb.inodeSize hsb.fragBytes_pos
  unfold satAddr Superblock.inodesPerGroup Superblock.fragsPerGroup at hget
  dsimp only
  rw [hget]
  by_cases hin : sb.dinodeOff ino + sb.inodeSize ≤ p.len
  · rw [Bytes.get_eq_some (by omega) hin, Nat.add_sub_cancel_left]
    simp only [hin, true_and]
    constructor
    · intro h
      exact ⟨by omega, by omega, by omega, by omega, h⟩
    · intro h
      exact h.2.2.2.2
  · rw [Bytes.get_eq_none fun h => hin h.2]
    exact iff_of_false (by simp) (fun h => absurd h.2.2.2.2.1 hin)

def dinodeSpan (sb : Superblock) (ino : ℕ) : Set ℕ :=
  Set.Ico (sb.dinodeOff ino) (sb.dinodeOff ino + sb.inodeSize)

theorem readInode_congr (hsb : sb.WellFormed) {ino : ℕ} (h : AgreeOn p q (dinodeSpan sb ino))
    {inode : Inode} (hr : readInode p sb ino = .ok inode) : readInode q sb ino = .ok inode := by
  rw [readInode_eq_ok_iff hsb] at hr ⊢
  rw [← h.len_eq, ← h.slice_eq fun i h1 h2 => ⟨h1, h2⟩]
  exact hr

/-- The pointer blocks read to resolve logical block `bi`, in order; an address `0` is not read. -/
def pointerBlocks (p : Bytes) (sb : Superblock) (inode : Inode) (bi nindir : ℕ) : List UInt64 :=
  if bi < 12 ∨ nindir = 0 then []
  else
    let i := bi - UFS_NDADDR
    if i < nindir then [inode.singleRoot]
    else
      let i := i - nindir
      let nindir2 := satMul nindir nindir
      if i < nindir2 then
        [inode.doubleRoot, indirectPtr p sb inode.doubleRoot (i / nindir)]
      else
        let i := i - nindir2
        if satMul nindir2 nindir ≤ i then []
        else
          let dib := indirectPtr p sb inode.tripleRoot (i / nindir2)
          [inode.tripleRoot, dib, indirectPtr p sb dib (i % nindir2 / nindir)]

/-- The pointer and data blocks that reading the content of `inode` visits. -/
def visitedBlocks (p : Bytes) (sb : Superblock) (inode : Inode) : List UInt64 :=
  ((List.range (divCeil inode.size.toNat sb.blockBytes)).flatMap fun bi =>
    pointerBlocks p sb inode bi (BlockMap.nindirOf sb) ++
      [resolveBlock p sb inode bi (BlockMap.nindirOf sb)]).filter fun a => a ≠ 0

theorem mem_visitedBlocks {inode : Inode} {a : UInt64} :
    a ∈ visitedBlocks p sb inode ↔ a ≠ 0 ∧ ∃ bi < divCeil inode.size.toNat sb.blockBytes,
      a ∈ pointerBlocks p sb inode bi (BlockMap.nindirOf sb) ∨
        a = resolveBlock p sb inode bi (BlockMap.nindirOf sb) := by
  simp only [visitedBlocks, List.mem_filter, List.mem_flatMap, List.mem_range, List.mem_append,
    List.mem_singleton, decide_eq_true_eq]
  exact and_comm

/-- The `len` bytes from fragment address `a` on. -/
def blockSpan (sb : Superblock) (a : UInt64) (len : ℕ) : Set ℕ :=
  Set.Ico (a.toNat * sb.fragBytes) (a.toNat * sb.fragBytes + len)

/-- The bytes that reading the content of `inode` looks at: its pointer blocks, and of each data
block the part that belongs to the file. -/
def contentSpan (p : Bytes) (sb : Superblock) (inode : Inode) : Set ℕ :=
  {i | ∃ bi < divCeil inode.size.toNat sb.blockBytes,
    (∃ a ∈ pointerBlocks p sb inode bi (BlockMap.nindirOf sb), a ≠ 0 ∧
      i ∈ blockSpan sb a sb.blockBytes) ∨
    (resolveBlock p sb inode bi (BlockMap.nindirOf sb) ≠ 0 ∧
      i ∈ blockSpan sb (resolveBlock p sb inode bi (BlockMap.nindirOf sb))
        (min (inode.size.toNat - bi * sb.blockBytes) sb.blockBytes))}

section Content

variable (hsb : sb.WellFormed) {inode : Inode}
include hsb

theorem readBlock_congr {a : UInt64} {len : ℕ} (h : AgreeOn p q (blockSpan sb a len)) :
    readBlock p sb a len = readBlock q sb a len := by
  rw [readBlock_eq hsb, readBlock_eq hsb, h.slice_eq fun i h1 h2 => ⟨h1, h2⟩]

theorem indirectPtr_congr {a : UInt64}
    (h : a ≠ 0 → AgreeOn p q (blockSpan sb a sb.blockBytes)) (i : ℕ) :
    indirectPtr p sb a i = indirectPtr q sb a i := by
  unfold indirectPtr
  by_cases ha : a = 0
  · rw [if_pos ha, if_pos ha]
  · rw [if_neg ha, if_neg ha, if_pos hsb.bsize_pos, hsb.bsize_eq]
    simp only [readBlock_congr hsb (h ha)]

/-- A block is resolved from its pointer blocks. -/
theorem resolveBlock_congr {bi nindir : ℕ}
    (h : ∀ a ∈ pointerBlocks p sb inode bi nindir, a ≠ 0 →
      AgreeOn p q (blockSpan sb a sb.blockBytes)) :
    resolveBlock p sb inode bi nindir = resolveBlock q sb inode bi nindir := by
  unfold pointerBlocks at h
  unfold resolveBlock
  by_cases h1 : bi < 12
  · rw [dif_pos h1, dif_pos h1]
  by_cases h2 : nindir = 0
  · rw [dif_neg h1, dif_neg h1, if_pos h2, if_pos h2]
  rw [if_neg (by omega)] at h
  rw [dif_neg h1, dif_neg h1, if_neg h2, if_neg h2]
  dsimp only at h ⊢
  by_cases h3 : bi - UFS_NDADDR < nindir
  · simp only [if_pos h3, List.forall_mem_singleton] at h ⊢
    exact indirectPtr_congr hsb h _
  simp only [if_neg h3] at h ⊢
  by_cases h4 : bi - UFS_NDADDR - nindir < satMul nindir nindir
  · simp only [if_pos h4, List.forall_mem_cons, List.not_mem_nil, false_imp_iff, implies_true,
      and_true] at h ⊢
    rw [← indirectPtr_congr hsb h.1]
    exact indirectPtr_congr hsb h.2 _
  simp only [if_neg h4] at h ⊢
  by_cases h5 : satMul (satMul nindir nindir) nindir ≤
      bi - UFS_NDADDR - nindir - satMul nindir nindir
  · rw [if_pos h5, if_pos h5]
  · simp only [if_neg h5, List.forall_mem_cons, List.not_mem_nil, false_imp_iff, implies_true,
      and_true] at h ⊢
    rw [← indirectPtr_congr hsb h.1, ← indirectPtr_congr hsb h.2.1]
    exact indirectPtr_congr hsb h.2.2 _

theorem readBlocks_congr {nindir : ℕ} (left remaining written bi : ℕ) (out : Bytes)
    (hptr : ∀ k, bi ≤ k → k < bi + left → ∀ a ∈ pointerBlocks p sb inode k nindir, a ≠ 0 →
      AgreeOn p q (blockSpan sb a sb.blockBytes))
    (hdata : ∀ k, bi ≤ k → k < bi + left → resolveBlock p sb inode k nindir ≠ 0 →
      AgreeOn p q (blockSpan sb (resolveBlock p sb inode k nindir)
        (min (remaining - (k - bi) * sb.blockBytes) sb.blockBytes))) :
    readBlocks p sb inode sb.blockBytes nindir left remaining written bi out =
      readBlocks q sb inode sb.blockBytes nindir left remaining written bi out := by
  induction left generalizing remaining written bi out with
  | zero => rfl
  | succ left ih =>
    have hres : resolveBlock p sb inode bi nindir = resolveBlock q sb inode bi nindir :=
      resolveBlock_congr hsb (hptr bi (le_refl _) (by omega))
    have hnext (written : ℕ) (out : Bytes) := ih (remaining - sb.blockBytes) written (bi + 1) out
      (fun k h1 h2 => hptr k (by omega) (by omega)) fun k h1 h2 h0 => by
        have hleft : remaining - sb.blockBytes - (k - (bi + 1)) * sb.blockBytes =
            remaining - (k - bi) * sb.blockBytes := by
          rw [show k - bi = k - (bi + 1) + 1 by omega, Nat.add_mul, Nat.one_mul, Nat.sub_sub,
            Nat.add_comm]
        rw [hleft]
        exact hdata k (by omega) (by omega) h0
    simp only [readBlocks, hnext, ← hres]
    by_cases ha : resolveBlock p sb inode bi nindir = 0
    · rw [if_pos ha, if_pos ha]
    · have hhere := hdata bi (le_refl _) (by omega) ha
      rw [Nat.sub_self, Nat.zero_mul, Nat.sub_zero] at hhere
      rw [if_neg ha, if_neg ha, readBlock_congr hsb hhere]

theorem readInodeFile_congr (h : AgreeOn p q (contentSpan p sb inode)) :
    readInodeFile p sb inode = readInodeFile q sb inode := by
  have hlen := h.len_eq
  have hloop (out : Bytes) := readBlocks_congr hsb (divCeil inode.size.toNat sb.blockBytes)
    inode.size.toNat 0 0 out
    (fun k _ hk a ha h0 => h.mono fun i hi => ⟨k, by omega, Or.inl ⟨a, ha, h0, hi⟩⟩)
    fun k _ hk h0 => h.mono fun i hi => ⟨k, by omega, Or.inr ⟨h0, hi⟩⟩
  unfold BlockMap.nindirOf at hloop
  unfold readInodeFile fileBuffer
  simp only [hlen, hsb.bsize_eq, hloop]

end Content

end UfsForensic
