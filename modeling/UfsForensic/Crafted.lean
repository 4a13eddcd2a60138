import UfsForensic.CylinderGroup
import UfsForensic.Dir

/-!
# Crafted images

Builders for small partitions, in the manner of the repository's own test fixtures: a superblock, a
group header with its inode bitmap, dinodes and directory records, written over zeros. The concrete
inputs of this development are made with them.
-/

namespace UfsForensic.Crafted

/-- A run of bytes at an offset. -/
abbrev Patch := ℕ × List UInt8

/-- An integer of `width` bytes in the given order. -/
def int (endian : Endian) (width n : ℕ) : List UInt8 :=
  match endian with
  | .little => Bytes.leBytes width n
  | .big => (Bytes.leBytes width n).reverse

/-- The fields a crafted superblock sets; the others are zero. -/
structure Geometry where
  version : UfsVersion
  endian : Endian
  bsize : ℕ
  fsize : ℕ
  ncg : ℕ
  ipg : ℕ
  fpg : ℕ
  sblkno : ℕ
  cblkno : ℕ
  iblkno : ℕ
  nindir : ℕ

namespace Geometry

variable (g : Geometry)

def magic : List UInt8 :=
  int g.endian 4 (match g.version with
    | .ufs1 => FS_UFS1_MAGIC.toNat
    | .ufs2 => FS_UFS2_MAGIC.toNat)

def superblock (off : ℕ) : List Patch :=
  let field (o v : ℕ) : Patch := (off + o, int g.endian 4 v)
  [field OFF_SBLKNO g.sblkno, field OFF_CBLKNO g.cblkno, field OFF_IBLKNO g.iblkno,
    field OFF_NCG g.ncg, field OFF_BSIZE g.bsize, field OFF_FSIZE g.fsize,
    field OFF_NINDIR g.nindir, field OFF_IPG g.ipg, field OFF_FPG g.fpg,
    (off + FS_MAGIC_OFF, g.magic)]

def iusedoff : ℕ := 168

def cgHeader (cg : ℕ) (bitmap : List UInt8) : List Patch :=
  let off := (cg * g.fpg + g.cblkno) * g.fsize
  [(off + CylinderGroup.OFF_MAGIC, int g.endian 4 CG_MAGIC.toNat),
    (off + CylinderGroup.OFF_IUSEDOFF, int g.endian 4 iusedoff), (off + iusedoff, bitmap)]

def dinodeOffset (ino : ℕ) : ℕ :=
  (ino / g.ipg * g.fpg + g.iblkno) * g.fsize + ino % g.ipg * g.version.dinodeSize

/-- The dinode of `ino` with one link and the given direct pointers. -/
def dinode (ino mode size : ℕ) (direct : List ℕ) : List Patch :=
  let off := g.dinodeOffset ino
  match g.version with
  | .ufs1 =>
    [(off + U1_MODE, int g.endian 2 mode), (off + U1_NLINK, int g.endian 2 1),
      (off + U1_SIZE, int g.endian 8 size), (off + U1_DB, direct.flatMap (int g.endian 4))]
  | .ufs2 =>
    [(off + U2_MODE, int g.endian 2 mode), (off + U2_NLINK, int g.endian 2 1),
      (off + U2_SIZE, int g.endian 8 size), (off + U2_DB, direct.flatMap (int g.endian 8))]

def indirect (ino ptr : ℕ) : Patch :=
  match g.version with
  | .ufs1 => (g.dinodeOffset ino + U1_IB, int g.endian 4 ptr)
  | .ufs2 => (g.dinodeOffset ino + U2_IB, int g.endian 8 ptr)

/-- One directory record: head, name, padding up to `reclen`. -/
def direct (ino reclen dType : ℕ) (name : List UInt8) : List UInt8 :=
  int g.endian 4 ino ++ int g.endian 2 reclen ++ [UInt8.ofNat dType, UInt8.ofNat name.length] ++
    name ++ List.replicate (reclen - DIRECT_HEAD - name.length) 0

end Geometry

def DIR_MODE : ℕ := 0o040755
def REG_MODE : ℕ := 0o100644

/-- A tiny UFS1 geometry: one group of eight inodes, blocks of one 512-byte fragment; the group
header lies at byte 10240, the inode table at 10752, data from fragment 24 on. -/
def tiny : Geometry where
  version := .ufs1
  endian := .little
  bsize := 512
  fsize := 512
  ncg := 1
  ipg := 8
  fpg := 64
  sblkno := 16
  cblkno := 20
  iblkno := 21
  nindir := 128

/-- The inode that a crafted UFS1 dinode with the given first pointers decodes to. -/
def inode (mode : ℕ) (fileType : FileType) (size : UInt64) (direct : List UInt64)
    (single : UInt64) : Inode where
  version := .ufs1
  mode := UInt16.ofNat mode
  fileType := fileType
  nlink := 1
  uid := 0
  gid := 0
  size := size
  blocks := 0
  atime := ⟨0, 0⟩
  mtime := ⟨0, 0⟩
  ctime := ⟨0, 0⟩
  birthtime := none
  direct := Vector.ofFn fun i => direct.getD i 0
  indirect := Vector.ofFn fun i => [single].getD i 0
  fastSymlink := none

/-- A partition of the tiny geometry: its superblock and the given patches over zeros. -/
def volume (patches : List Patch) : Bytes :=
  Bytes.ofPatches 32768 (by norm_num) (tiny.superblock SBLOCK_UFS1 ++ patches)

def tinySb : Superblock :=
  Superblock.decode ((volume []).slice SBLOCK_UFS1 SB_MIN_LEN) .ufs1 .little

theorem parse_volume_nil :
    Superblock.parse ((volume []).slice SBLOCK_UFS1 SB_MIN_LEN) = .ok tinySb := by decide +kernel

theorem parse_volume {patches : List Patch}
    (h : ∀ r ∈ patches, SBLOCK_UFS1 + SB_MIN_LEN ≤ r.1) :
    Superblock.parse ((volume patches).slice SBLOCK_UFS1 SB_MIN_LEN) = .ok tinySb := by
  have hslice : (volume patches).slice SBLOCK_UFS1 SB_MIN_LEN =
      (volume []).slice SBLOCK_UFS1 SB_MIN_LEN := by
    unfold volume
    rw [Bytes.slice_ofPatches_append _ h, List.append_nil]
  rw [hslice, parse_volume_nil]

end UfsForensic.Crafted
