import UfsForensic.DinodeCodec
import UfsForensic.Footprint

/-!
# Saturated and exact addresses

The readers compute every address with saturation. Beside them stand the same definitions over
unbounded numbers: on an accepted superblock they give the same results, since an address that
saturates lies outside every partition.
-/

namespace UfsForensic

namespace Exact

/-- `readInode` with exact sums and products. -/
def readInode (partition : Bytes) (sb : Superblock) (ino : ℕ) : Except UfsError Inode :=
  if sb.ipg.toInt ≤ 0 then
    .error (.impossibleGeometry "fs_ipg" (i32AsU64 sb.ipg) i64MaxAsU64)
  else if sb.fpg.toInt ≤ 0 then
    .error (.impossibleGeometry "fs_fpg" (i32AsU64 sb.fpg) i64MaxAsU64)
  else if sb.fsize.toInt ≤ 0 then
    .error (.impossibleGeometry "fs_fsize" (i32AsU64 sb.fsize) i64MaxAsU64)
  else if sb.iblkno.toInt < 0 then
    .error (.impossibleGeometry "fs_iblkno" (i32AsU64 sb.iblkno) i64MaxAsU64)
  else
    let ipg := i32AsU64 sb.ipg
    let fpg := i32AsU64 sb.fpg
    let fsize := i32AsU64 sb.fsize
    let iblkno := i32AsU64 sb.iblkno
    let count := ipg * sb.ncg.toNat
    if count ≤ ino then .error (.inodeOutOfRange ino count)
    else
      let cgimin := ino / ipg * fpg + iblkno
      let start := cgimin * fsize + ino % ipg * sb.inodeSize
      let stop := start + sb.inodeSize
      match partition.get start stop with
      | none => .error (.truncated "dinode (located)" stop partition.len)
      | some slice => Inode.parseWithMaxsymlink slice sb.version sb.endian sb.maxsymlinklen

def readBlock (partition : Bytes) (sb : Superblock) (addr : UInt64) (len : ℕ) :
    Except UfsError Bytes :=
  if sb.fsize.toInt ≤ 0 then
    .error (.impossibleGeometry "fs_fsize" (i32AsU64 sb.fsize) i64MaxAsU64)
  else
    let start := addr.toNat * i32AsU64 sb.fsize
    let stop := min (start + len) partition.len
    .ok ((partition.get start (max stop start)).getD .empty)

def cgInodeBitmap (partition : Bytes) (sb : Superblock) (cg : ℕ) : Option Bytes :=
  if sb.fsize.toInt ≤ 0 ∨ sb.fpg.toInt ≤ 0 ∨ sb.cblkno.toInt < 0 ∨ sb.ipg.toInt ≤ 0 then none
  else
    let start := (cg * i32AsU64 sb.fpg + i32AsU64 sb.cblkno) * i32AsU64 sb.fsize
    match partition.getFrom start with
    | none => none
    | some header =>
      match CylinderGroup.parse header sb.endian with
      | .error _ => none
      | .ok cgh =>
        let bmpStart := cgh.inosusedOff
        header.get bmpStart (bmpStart + divCeil (i32AsU64 sb.ipg) 8)

end Exact

/-- An error without the figure of the bytes that a truncated buffer would need. -/
def UfsError.eraseNeed : UfsError → UfsError
  | truncated what _ avail => truncated what 0 avail
  | e => e

/-- On this volume the readers give what their exact versions give, and an inode is read exactly when
its number is in range and its dinode lies in the partition. -/
structure AddressesExact (partition : Bytes) (sb : Superblock) : Prop where
  inode : ∀ ino, (readInode partition sb ino).mapError UfsError.eraseNeed =
    (Exact.readInode partition sb ino).mapError UfsError.eraseNeed
  block : ∀ addr len, readBlock partition sb addr len = Exact.readBlock partition sb addr len
  bitmap : ∀ cg, cgInodeBitmap partition sb cg = Exact.cgInodeBitmap partition sb cg
  located : ∀ ino, (∃ inode, readInode partition sb ino = .ok inode) ↔
    0 < sb.ipg.toInt ∧ 0 < sb.fpg.toInt ∧ 0 ≤ sb.iblkno.toInt ∧
      ino < sb.inodesPerGroup * sb.ncg.toNat ∧
      (ino / sb.inodesPerGroup * sb.fragsPerGroup + sb.iblkno.toInt.toNat) * sb.fragBytes +
        ino % sb.inodesPerGroup * sb.inodeSize + sb.inodeSize ≤ partition.len

variable {partition : Bytes} {sb : Superblock}

theorem readInode_eq_exact (hsb : sb.WellFormed) (ino : ℕ) :
    (readInode partition sb ino).mapError UfsError.eraseNeed =
      (Exact.readInode partition sb ino).mapError UfsError.eraseNeed := by
  have h0 : ¬ sb.fsize.toInt ≤ 0 := Int.not_le.mpr hsb.fsize_pos
  unfold readInode Exact.readInode
  by_cases h1 : sb.ipg.toInt ≤ 0
  · rw [if_pos h1, if_pos h1]
  by_cases h2 : sb.fpg.toInt ≤ 0
  · rw [if_neg h1, if_pos h2, if_neg h1, if_pos h2]
  by_cases h3 : sb.iblkno.toInt < 0
  · rw [if_neg h1, if_neg h2, if_neg h0, if_pos h3, if_neg h1, if_neg h2, if_neg h0, if_pos h3]
  rw [if_neg h1, if_neg h2, if_neg h0, if_neg h3, if_neg h1, if_neg h2, if_neg h0, if_neg h3]
  have hcount : satMul (i32AsU64 sb.ipg) sb.ncg.toNat = i32AsU64 sb.ipg * sb.ncg.toNat := by
    rw [i32AsU64_of_nonneg (x := sb.ipg) (by omega)]
    exact hsb.satMul_inodes
  have hpos : 0 < i32AsU64 sb.fsize := by
    rw [hsb.fsize_eq]
    exact hsb.fragBytes_pos
  have hget := get_satAddr (p := partition) (ino / i32AsU64 sb.ipg) (i32AsU64 sb.fpg)
    (i32AsU64 sb.iblkno) (ino % i32AsU64 sb.ipg) sb.inodeSize hpos
  unfold satAddr at hget
  dsimp only
  rw [hcount, hget]
  split_ifs
  · rfl
  -- only the figure of the truncation error tells the two apart
  · cases partition.get ((ino / i32AsU64 sb.ipg * i32AsU64 sb.fpg + i32AsU64 sb.iblkno) *
        i32AsU64 sb.fsize + ino % i32AsU64 sb.ipg * sb.inodeSize)
      ((ino / i32AsU64 sb.ipg * i32AsU64 sb.fpg + i32AsU64 sb.iblkno) * i32AsU64 sb.fsize +
        ino % i32AsU64 sb.ipg * sb.inodeSize + sb.inodeSize) with
    | none => rfl
    | some slice => rfl

theorem readBlock_eq_exact (hsb : sb.WellFormed) (addr : UInt64) (len : ℕ) :
    readBlock partition sb addr len = Exact.readBlock partition sb addr len := by
  have hf := hsb.fsize_pos
  rw [readBlock_eq hsb, Exact.readBlock, if_neg (by omega)]
  simp only [hsb.fsize_eq]
  congr 1
  generalize addr.toNat * sb.fragBytes = start
  rcases Nat.lt_or_ge partition.len start with h | h
  · rw [Bytes.get_eq_none (by omega)]
    refine Bytes.ext_of_lt ?_ fun i hi => ?_
    · rw [Bytes.slice_len]
      change _ = 0
      omega
    · rw [Bytes.slice_len] at hi
      omega
  · have hstop : start ≤ min (start + len) partition.len := by omega
    rw [max_eq_left hstop, Bytes.get_eq_some hstop (min_le_right _ _), Option.getD_some]
    refine Bytes.ext_of_lt ?_ fun i hi => ?_
    · rw [Bytes.slice_len, Bytes.slice_len]
      omega
    · rw [Bytes.slice_len] at hi
      rw [Bytes.slice_byte_of_lt (by omega), Bytes.slice_byte_of_lt (by omega)]

theorem cgInodeBitmap_eq_exact (hsb : sb.WellFormed) (cg : ℕ) :
    cgInodeBitmap partition sb cg = Exact.cgInodeBitmap partition sb cg := by
  unfold cgInodeBitmap Exact.cgInodeBitmap
  by_cases hgeom : sb.fsize.toInt ≤ 0 ∨ sb.fpg.toInt ≤ 0 ∨ sb.cblkno.toInt < 0 ∨ sb.ipg.toInt ≤ 0
  · rw [if_pos hgeom, if_pos hgeom]
  rw [if_neg hgeom, if_neg hgeom]
  have hpos : 0 < i32AsU64 sb.fsize := by
    rw [hsb.fsize_eq]
    exact hsb.fragBytes_pos
  have hheader := getFrom_satAddr (p := partition) cg (i32AsU64 sb.fpg) (i32AsU64 sb.cblkno) hpos
  unfold satAddr at hheader
  dsimp only
  rw [hheader]
  have hbytes : divCeil (i32AsU64 sb.ipg) 8 = sb.bitmapLen := by
    rw [i32AsU64_of_nonneg (x := sb.ipg) (by omega)]
    rfl
  have hsum (cgh : CylinderGroup) : satAdd cgh.inosusedOff (divCeil (i32AsU64 sb.ipg) 8) =
      cgh.inosusedOff + divCeil (i32AsU64 sb.ipg) 8 := by
    have hoff : cgh.inosusedOff < 2 ^ 32 := cgh.iusedoff.toNat_lt
    have hlen := bitmapLen_le sb
    rw [hbytes]
    apply satAdd_eq
    unfold u64Max
    omega
  cases partition.getFrom ((cg * i32AsU64 sb.fpg + i32AsU64 sb.cblkno) * i32AsU64 sb.fsize) with
  | none => rfl
  | some header =>
    dsimp only
    cases CylinderGroup.parse header sb.endian with
    | error err => rfl
    | ok cgh => exact congrArg (header.get cgh.inosusedOff) (hsum cgh)

theorem readInode_located_iff (hsb : sb.WellFormed) (ino : ℕ) :
    (∃ inode, readInode partition sb ino = .ok inode) ↔
      0 < sb.ipg.toInt ∧ 0 < sb.fpg.toInt ∧ 0 ≤ sb.iblkno.toInt ∧
        ino < sb.inodesPerGroup * sb.ncg.toNat ∧ sb.dinodeOff ino + sb.inodeSize ≤ partition.len := by
  simp only [readInode_eq_ok_iff hsb]
  constructor
  · rintro ⟨inode, h1, h2, h3, h4, h5, -⟩
    exact ⟨h1, h2, h3, h4, h5⟩
  · rintro ⟨h1, h2, h3, h4, h5⟩
    -- a dinode that lies in the partition is decoded
    have hsize : sb.inodeSize = sb.version.dinodeSize := by
      unfold Superblock.inodeSize
      cases sb.version <;> rfl
    have hlen : ¬ (partition.slice (sb.dinodeOff ino) sb.inodeSize).len <
        sb.version.dinodeSize := by
      rw [Bytes.slice_len]
      omega
    exact ⟨_, h1, h2, h3, h4, h5, (Dinode.parse_eq_decode _ _ _ _).trans (if_neg hlen)⟩

/-- On every volume with an accepted superblock the saturating readers are exact. -/
theorem addressesExact {region : Bytes} (hparse : Superblock.parse region = .ok sb)
    (partition : Bytes) : AddressesExact partition sb := by
  have hsb := Superblock.wellFormed_of_parse hparse
  exact ⟨readInode_eq_exact hsb, readBlock_eq_exact hsb, cgInodeBitmap_eq_exact hsb,
    readInode_located_iff hsb⟩

/-- A volume that ends within the inode table. -/
theorem addressesExact_tiny :
    AddressesExact (Crafted.tinyRegion.take 1000) Crafted.tinySb :=
  addressesExact Crafted.parse_tinyRegion _

end UfsForensic
