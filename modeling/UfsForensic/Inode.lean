import UfsForensic.Superblock

/-!
# Inodes: locate and decode

UFS2 dinodes are 256 bytes with 64-bit block pointers, UFS1 dinodes 128 bytes with 32-bit ones.
Inode `ino` of group `cg = ino / fs_ipg` lies at byte
`(cg * fs_fpg + fs_iblkno) * fs_fsize + (ino % fs_ipg) * inode_size` of the partition.
-/

namespace UfsForensic

def UFS_NDADDR : ℕ := 12
def UFS_NIADDR : ℕ := 3
def UFS2_DINODE_SIZE : ℕ := 256
def UFS1_DINODE_SIZE : ℕ := 128

def U2_MODE : ℕ := 0
def U2_NLINK : ℕ := 2
def U2_UID : ℕ := 4
def U2_GID : ℕ := 8
def U2_SIZE : ℕ := 16
def U2_BLOCKS : ℕ := 24
def U2_ATIME : ℕ := 32
def U2_MTIME : ℕ := 40
def U2_CTIME : ℕ := 48
def U2_BIRTHTIME : ℕ := 56
def U2_MTIMENSEC : ℕ := 64
def U2_ATIMENSEC : ℕ := 68
def U2_CTIMENSEC : ℕ := 72
def U2_BIRTHNSEC : ℕ := 76
def U2_DB : ℕ := 112
def U2_IB : ℕ := 208

def U1_MODE : ℕ := 0
def U1_NLINK : ℕ := 2
def U1_SIZE : ℕ := 8
def U1_ATIME : ℕ := 16
def U1_ATIMENSEC : ℕ := 20
def U1_MTIME : ℕ := 24
def U1_MTIMENSEC : ℕ := 28
def U1_CTIME : ℕ := 32
def U1_CTIMENSEC : ℕ := 36
def U1_DB : ℕ := 40
def U1_IB : ℕ := 88
def U1_BLOCKS : ℕ := 104
def U1_UID : ℕ := 112
def U1_GID : ℕ := 116

/-- Mask over `di_mode` selecting the file-type bits. -/
def IFMT : UInt16 := 0o170000

structure Timespec where
  sec : Int64
  nsec : Int32
  deriving DecidableEq

inductive FileType
  | fifo
  | charDevice
  | directory
  | blockDevice
  | regular
  | symlink
  | socket
  | whiteout
  | other (bits : UInt16)
  deriving DecidableEq

/-- Classify the file type from a raw `di_mode`. -/
def FileType.fromMode (mode : UInt16) : FileType :=
  match (mode &&& IFMT).toNat with
  | 0o010000 => .fifo
  | 0o020000 => .charDevice
  | 0o040000 => .directory
  | 0o060000 => .blockDevice
  | 0o100000 => .regular
  | 0o120000 => .symlink
  | 0o140000 => .socket
  | 0o160000 => .whiteout
  | _ => .other (mode &&& IFMT)

structure Inode where
  version : UfsVersion
  mode : UInt16
  fileType : FileType
  nlink : UInt16
  uid : UInt32
  gid : UInt32
  size : UInt64
  blocks : UInt64
  atime : Timespec
  mtime : Timespec
  ctime : Timespec
  birthtime : Option Timespec
  direct : Vector UInt64 12
  indirect : Vector UInt64 3
  fastSymlink : Option Bytes
  deriving DecidableEq

namespace UfsVersion

def dinodeSize : UfsVersion → ℕ
  | .ufs1 => UFS1_DINODE_SIZE
  | .ufs2 => UFS2_DINODE_SIZE

def ptrSize : UfsVersion → ℕ
  | .ufs1 => 4
  | .ufs2 => 8

/-- A block pointer of this version at `off`: 32-bit pointers are zero-extended. -/
def readPtr (version : UfsVersion) (endian : Endian) (data : Bytes) (off : ℕ) : UInt64 :=
  match version with
  | .ufs1 => (endian.u32 data off).toUInt64
  | .ufs2 => endian.u64 data off

theorem ptrSize_pos (version : UfsVersion) : 0 < version.ptrSize := by cases version <;> decide

theorem readPtr_slice {data : Bytes} {a n off : ℕ} {version : UfsVersion}
    (h : off + version.ptrSize ≤ n) (endian : Endian) :
    version.readPtr endian (data.slice a n) off = version.readPtr endian data (a + off) := by
  cases version with
  | ufs1 => exact congrArg UInt32.toUInt64 (Endian.u32_slice h endian)
  | ufs2 => exact Endian.u64_slice h endian

theorem readPtr_eq_zero {data : Bytes} {off : ℕ} {version : UfsVersion}
    (h : data.len < off + version.ptrSize) (endian : Endian) :
    version.readPtr endian data off = 0 := by
  cases version with
  | ufs1 => exact congrArg UInt32.toUInt64 (Endian.u32_eq_zero h endian)
  | ufs2 => exact Endian.u64_eq_zero h endian

end UfsVersion

namespace Inode

def DEFAULT_MAXSYMLINKLEN : Int32 := 120

/-- The pointer area read as symlink text, for a symlink that fits `fs_maxsymlinklen`. -/
def inlineTarget (data : Bytes) (version : UfsVersion) (maxsymlinklen : Int32)
    (fileType : FileType) (size : UInt64) (dbOff : ℕ) : Option Bytes :=
  if fileType = .symlink ∧ 0 < maxsymlinklen.toInt ∧ size.toNat ≤ i32AsU64 maxsymlinklen then
    let regionLen := (UFS_NDADDR + UFS_NIADDR) * version.ptrSize
    let take := min size.toNat regionLen
    data.get dbOff (dbOff + take)
  else none

/-- Decode a dinode from the start of `data`. -/
def parseWithMaxsymlink (data : Bytes) (version : UfsVersion) (endian : Endian)
    (maxsymlinklen : Int32) : Except UfsError Inode :=
  let need := version.dinodeSize
  if data.len < need then .error (.truncated "dinode" need data.len)
  else
    let pointers (off n : ℕ) : Vector UInt64 n :=
      Vector.ofFn fun i : Fin n => version.readPtr endian data (off + i * version.ptrSize)
    match version with
    | .ufs2 =>
      let mode := endian.u16 data U2_MODE
      let size := endian.u64 data U2_SIZE
      let fileType := FileType.fromMode mode
      .ok {
        version := .ufs2
        mode := mode
        fileType := fileType
        nlink := endian.u16 data U2_NLINK
        uid := endian.u32 data U2_UID
        gid := endian.u32 data U2_GID
        size := size
        blocks := endian.u64 data U2_BLOCKS
        atime := ⟨endian.i64 data U2_ATIME, endian.i32 data U2_ATIMENSEC⟩
        mtime := ⟨endian.i64 data U2_MTIME, endian.i32 data U2_MTIMENSEC⟩
        ctime := ⟨endian.i64 data U2_CTIME, endian.i32 data U2_CTIMENSEC⟩
        birthtime := some ⟨endian.i64 data U2_BIRTHTIME, endian.i32 data U2_BIRTHNSEC⟩
        direct := pointers U2_DB 12
        indirect := pointers U2_IB 3
        fastSymlink := inlineTarget data .ufs2 maxsymlinklen fileType size U2_DB }
    | .ufs1 =>
      let mode := endian.u16 data U1_MODE
      let size := endian.u64 data U1_SIZE
      let fileType := FileType.fromMode mode
      .ok {
        version := .ufs1
        mode := mode
        fileType := fileType
        nlink := endian.u16 data U1_NLINK
        uid := endian.u32 data U1_UID
        gid := endian.u32 data U1_GID
        size := size
        blocks := (endian.u32 data U1_BLOCKS).toUInt64
        atime := ⟨(endian.i32 data U1_ATIME).toInt64, endian.i32 data U1_ATIMENSEC⟩
        mtime := ⟨(endian.i32 data U1_MTIME).toInt64, endian.i32 data U1_MTIMENSEC⟩
        ctime := ⟨(endian.i32 data U1_CTIME).toInt64, endian.i32 data U1_CTIMENSEC⟩
        birthtime := none
        direct := pointers U1_DB 12
        indirect := pointers U1_IB 3
        fastSymlink := inlineTarget data .ufs1 maxsymlinklen fileType size U1_DB }

def parse (data : Bytes) (version : UfsVersion) (endian : Endian) : Except UfsError Inode :=
  parseWithMaxsymlink data version endian DEFAULT_MAXSYMLINKLEN

/-- `direct[0]`, the first data block. -/
def firstBlock (inode : Inode) : UInt64 := inode.direct.get ⟨0, by decide⟩

def singleRoot (inode : Inode) : UInt64 := inode.indirect.get ⟨0, by decide⟩

def doubleRoot (inode : Inode) : UInt64 := inode.indirect.get ⟨1, by decide⟩

def tripleRoot (inode : Inode) : UInt64 := inode.indirect.get ⟨2, by decide⟩

def isDir (inode : Inode) : Bool := inode.fileType = .directory

def isRegular (inode : Inode) : Bool := inode.fileType = .regular

def isSymlink (inode : Inode) : Bool := inode.fileType = .symlink

/-- The inline target, when the symlink stores one. -/
def symlinkTarget (inode : Inode) : Option Bytes := inode.fastSymlink

end Inode

/-- Locate and decode the inode numbered `ino`. -/
def readInode (partition : Bytes) (sb : Superblock) (ino : ℕ) : Except UfsError Inode :=
  if sb.ipg.toInt ≤ 0 then
    .error (.impossibleGeometry "fs_ipg" (i32AsU64 sb.ipg) i64MaxAsU64)
  else if sb.fpg.toInt ≤ 0 then
    .error (.impossibleGeometry "fs_fpg" (i32AsU64 sb.fpg) i64MaxAsU64)
  else if sb.fsize.toInt ≤ 0 then
    .error (.impossibleGeometry "fs_fsize" (i32AsU64 sb.fsize) i64MaxAsU64)
  else if sb.iblkno.toInt < 0 then
    .error (.impossibleGeometry "fs_iblkno" (i32AsU64 sb.iblkno) i64MaxAsU64)
  else
    let ipg := i32AsU64 sb.ipg
    let fpg := i32AsU64 sb.fpg
    let fsize := i32AsU64 sb.fsize
    let iblkno := i32AsU64 sb.iblkno
    let inodeSize := sb.inodeSize
    let count := satMul ipg sb.ncg.toNat
    if count ≤ ino then .error (.inodeOutOfRange ino count)
    else
      let cg := ino / ipg
      let within := ino % ipg
      let cgimin := satAdd (satMul cg fpg) iblkno
      let start := satAdd (satMul cgimin fsize) (satMul within inodeSize)
      let stop := satAdd start inodeSize
      match partition.get start stop with
      | none => .error (.truncated "dinode (located)" stop partition.len)
      | some slice => Inode.parseWithMaxsymlink slice sb.version sb.endian sb.maxsymlinklen

end UfsForensic
