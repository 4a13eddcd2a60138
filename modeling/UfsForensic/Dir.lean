import UfsForensic.Inode

/-!
# Directory walk and path resolution

A directory is a sequence of 512-byte blocks of variable-length records: an 8-byte head
(`d_ino`, `d_reclen`, `d_type`, `d_namlen`) followed by the name, the whole record `d_reclen` bytes.
A record with `d_ino = 0` is a free or deleted slot.
-/

namespace UfsForensic

def DIRBLKSIZ : ℕ := 512

def DIRECT_HEAD : ℕ := 8

def OFF_INO : ℕ := 0
def OFF_RECLEN : ℕ := 4
def OFF_TYPE : ℕ := 6
def OFF_NAMLEN : ℕ := 7
def OFF_NAME : ℕ := 8

inductive DirEntryType
  | unknown
  | fifo
  | charDevice
  | directory
  | blockDevice
  | regular
  | symlink
  | socket
  | whiteout
  | other (dType : UInt8)
  deriving DecidableEq

def DirEntryType.fromDType (dType : UInt8) : DirEntryType :=
  match dType.toNat with
  | 0 => .unknown
  | 1 => .fifo
  | 2 => .charDevice
  | 4 => .directory
  | 6 => .blockDevice
  | 8 => .regular
  | 10 => .symlink
  | 12 => .socket
  | 14 => .whiteout
  | _ => .other dType

structure DirEntry where
  name : List UInt8
  ino : ℕ
  fileType : DirEntryType
  deleted : Bool
  deriving DecidableEq

/-- Read at most `len` bytes of the block at fragment address `addr`, clipped to the partition. -/
def readBlock (partition : Bytes) (sb : Superblock) (addr : UInt64) (len : ℕ) :
    Except UfsError Bytes :=
  if sb.fsize.toInt ≤ 0 then
    .error (.impossibleGeometry "fs_fsize" (i32AsU64 sb.fsize) i64MaxAsU64)
  else
    let fsize := i32AsU64 sb.fsize
    let start := satMul addr.toNat fsize
    -- a block that starts past the partition reads as empty
    let stop := min (satAdd start len) partition.len
    .ok ((partition.get start (max stop start)).getD .empty)

/-- A block read gives the exact bytes at the exact address, clipped to the partition: an address
that saturates lies past every partition. -/
theorem readBlock_eq {sb : Superblock} (hsb : sb.WellFormed) (partition : Bytes) (addr : UInt64)
    (len : ℕ) :
    readBlock partition sb addr len = .ok (partition.slice (addr.toNat * sb.fragBytes) len) := by
  have hlen := partition.len_lt_u64Max
  have hf := hsb.fsize_pos
  rw [readBlock, if_neg (by omega)]
  simp only [hsb.fsize_eq]
  congr 1
  rcases Nat.lt_or_ge partition.len (addr.toNat * sb.fragBytes) with h | h
  · -- past the end: both slices are empty
    have hs : partition.len < satMul addr.toNat sb.fragBytes := by
      have := satMul_le_iff (a := addr.toNat) (b := sb.fragBytes) hlen
      omega
    rw [Bytes.get_eq_none (by omega)]
    apply Bytes.ext_of_lt
    · simp only [Option.getD_none, Bytes.slice_len]
      change 0 = _
      omega
    · intro i hi
      exact absurd hi (Nat.not_lt_zero i)
  · have hexact : satMul addr.toNat sb.fragBytes = addr.toNat * sb.fragBytes :=
      satMul_eq (h.trans hlen.le)
    rw [hexact]
    generalize addr.toNat * sb.fragBytes = start at h
    have hstop : start ≤ min (satAdd start len) partition.len := by
      unfold satAdd
      omega
    rw [max_eq_left hstop, Bytes.get_eq_some hstop (min_le_right _ _)]
    apply Bytes.ext_of_lt
    · simp only [Option.getD_some, Bytes.slice_len, satAdd]
      omega
    · intro i hi
      simp only [Option.getD_some, Bytes.slice_len, satAdd] at hi ⊢
      rw [Bytes.slice_byte_of_lt (by omega), Bytes.slice_byte_of_lt (by omega)]

/-- The record at `off`, its name clamped to the record and to the block. -/
def recordAt (block : Bytes) (endian : Endian) (off reclen : ℕ) : DirEntry :=
  let ino := (endian.u32 block (off + OFF_INO)).toNat
  let dType := u8At block (off + OFF_TYPE)
  let namlen := (u8At block (off + OFF_NAMLEN)).toNat
  let nameStart := off + OFF_NAME
  let nameCap := reclen - OFF_NAME
  let take := min namlen nameCap
  let nameEnd := min (satAdd nameStart take) block.len
  { name := ((block.get nameStart nameEnd).map Bytes.toList).getD []
    ino := ino
    fileType := .fromDType dType
    deleted := ino = 0 }

/-- The records of `block` from the cursor `off` on, in order. -/
def walkFrom (block : Bytes) (endian : Endian) (off : ℕ) : List DirEntry :=
  if off + DIRECT_HEAD ≤ block.len then
    let reclen := (endian.u16 block (off + OFF_RECLEN)).toNat
    -- a record shorter than its head ends the block
    if reclen < DIRECT_HEAD then []
    else recordAt block endian off reclen :: walkFrom block endian (satAdd off reclen)
  else []
termination_by block.len - off
decreasing_by
  have := block.len_lt
  simp only [DIRECT_HEAD, satAdd, u64Max] at *
  omega

/-- Append every slot of one directory data block to `out`. -/
def walkBlock (block : Bytes) (endian : Endian) (out : List DirEntry) : List DirEntry :=
  out ++ walkFrom block endian 0

/-- The loop of `listDirEntries` over the remaining direct pointers. -/
def walkPointers (partition : Bytes) (sb : Superblock) (bsize : ℕ) :
    List UInt64 → ℕ → List DirEntry → List DirEntry
  | [], _, entries => entries
  | addr :: rest, remaining, entries =>
    if remaining = 0 then entries
    else if addr = 0 then
      -- a hole still accounts for its block of the logical size
      walkPointers partition sb bsize rest (remaining - bsize) entries
    else
      match readBlock partition sb addr (min remaining bsize) with
      | .error _ => entries
      | .ok block =>
        walkPointers partition sb bsize rest (remaining - bsize)
          (walkBlock block sb.endian entries)

/-- The slots of a directory inode's direct data blocks, bounded by `di_size`. -/
def listDirEntries (partition : Bytes) (sb : Superblock) (inode : Inode) : List DirEntry :=
  if sb.fsize.toInt ≤ 0 then []
  else
    let bsize := if 0 < sb.bsize.toInt then i32AsU64 sb.bsize else DIRBLKSIZ
    walkPointers partition sb bsize inode.direct.toList inode.size.toNat []

/-- The slots of directory `dirIno`, free and deleted ones included. -/
def listDirAll (partition : Bytes) (sb : Superblock) (dirIno : ℕ) :
    Except UfsError (List DirEntry) := do
  let inode ← readInode partition sb dirIno
  return listDirEntries partition sb inode

/-- The live entries of directory `dirIno`. -/
def listDir (partition : Bytes) (sb : Superblock) (dirIno : ℕ) :
    Except UfsError (List DirEntry) := do
  let entries ← listDirAll partition sb dirIno
  return entries.filter fun e => !e.deleted

theorem listDirAll_eq_ok_iff {partition : Bytes} {sb : Superblock} {dirIno : ℕ}
    {entries : List DirEntry} :
    listDirAll partition sb dirIno = .ok entries ↔
      ∃ inode, readInode partition sb dirIno = .ok inode ∧
        listDirEntries partition sb inode = entries := by
  unfold listDirAll
  cases readInode partition sb dirIno with
  | error e => simp [bind, Except.bind]
  | ok inode => simp [bind, Except.bind, pure, Except.pure]

theorem listDir_eq_ok_iff {partition : Bytes} {sb : Superblock} {dirIno : ℕ}
    {entries : List DirEntry} :
    listDir partition sb dirIno = .ok entries ↔
      ∃ inode, readInode partition sb dirIno = .ok inode ∧
        (listDirEntries partition sb inode).filter (fun e => !e.deleted) = entries := by
  unfold listDir listDirAll
  cases readInode partition sb dirIno with
  | error e => simp [bind, Except.bind]
  | ok inode => simp [bind, Except.bind, pure, Except.pure]

/-- Inode `d` is a directory by its mode. -/
def IsDirectory (partition : Bytes) (sb : Superblock) (d : ℕ) : Prop :=
  ∃ inode, readInode partition sb d = .ok inode ∧ inode.isDir = true

/-- The loop of `readByPath` over the remaining path components. -/
def descend (partition : Bytes) (sb : Superblock) :
    List (List UInt8) → ℕ → Inode → Except UfsError (Option (ℕ × Inode))
  | [], curIno, cur => .ok (some (curIno, cur))
  | comp :: rest, curIno, cur =>
    -- a leading, trailing or doubled slash
    if comp = [] then descend partition sb rest curIno cur
    -- no descent through a non-directory
    else if !cur.isDir then .ok none
    else
      match (listDirEntries partition sb cur).find? fun e => !e.deleted && e.name == comp with
      | none => .ok none
      | some hit =>
        match readInode partition sb hit.ino with
        | .error e => .error e
        | .ok inode => descend partition sb rest hit.ino inode

/-- Byte `'/'`. No other character of a UTF-8 path contains it. -/
def SLASH : UInt8 := 47

/-- Resolve an absolute path, given as its UTF-8 bytes, from the root inode. -/
def readByPath (partition : Bytes) (sb : Superblock) (path : List UInt8) :
    Except UfsError (Option (ℕ × Inode)) := do
  let root ← readInode partition sb UFS_ROOTINO
  descend partition sb (path.splitOn SLASH) UFS_ROOTINO root

end UfsForensic
