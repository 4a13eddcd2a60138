import UfsForensic.File

/-!
# The filesystem adapter

`UfsFs` mounts a volume from a byte source: it reads the whole source into memory once and serves
every later call from that buffer. Nodes are addressed by inode number. `ufsProbe` recognises a
volume by its magic before it is mounted.
-/

namespace UfsForensic

/-- The adapter errors; `detail` is the rendered text of the reader's error. -/
inductive VfsError
  | outOfRange (what : String) (offset len bound : ℕ)
  | decode (layer : String) (offset : ℕ) (detail : String) (bytes : List UInt8)
  | unsupported (layer scheme : String)
  deriving DecidableEq

/-- A positioned-read byte source whose content fits in memory: `readAt` returns the number of
bytes read and the buffer after the read. -/
structure DynSource where
  len : ℕ
  len_lt : len < 2 ^ 63
  readAt : ℕ → Bytes → Except VfsError (ℕ × Bytes)

/-- A node identity: an inode number, or the rendered form of a domain UFS does not use. -/
inductive FileId
  | byIno (ino : ℕ)
  | other (scheme : String)
  deriving DecidableEq

def UFS1_MAGIC_LE : List UInt8 := [0x54, 0x19, 0x01, 0x00]
def UFS1_MAGIC_BE : List UInt8 := [0x00, 0x01, 0x19, 0x54]
def UFS1_MAGIC_OFF : ℕ := SBLOCK_UFS1 + 1372
def UFS2_MAGIC_LE : List UInt8 := [0x19, 0x01, 0x54, 0x19]
def UFS2_MAGIC_BE : List UInt8 := [0x19, 0x54, 0x01, 0x19]
def UFS2_MAGIC_OFF : ℕ := SBLOCK_UFS2 + 1372

/-- A view of the first bytes of a source, asked for patterns at offsets. -/
structure SniffWindow where
  hasMagic : ℕ → List UInt8 → Bool

inductive Confidence
  | yes (how : String)
  | no
  deriving DecidableEq

/-- Probe a sniff window for a superblock magic, each version's at its own offset. -/
def ufsProbe (w : SniffWindow) : Confidence :=
  if w.hasMagic UFS2_MAGIC_OFF UFS2_MAGIC_LE || w.hasMagic UFS2_MAGIC_OFF UFS2_MAGIC_BE then
    .yes "UFS2 fs_magic 0x19540119 at offset 66908"
  else if w.hasMagic UFS1_MAGIC_OFF UFS1_MAGIC_LE || w.hasMagic UFS1_MAGIC_OFF UFS1_MAGIC_BE then
    .yes "UFS1 fs_magic 0x00011954 at offset 9564"
  else .no

/-- The stream of a node that a call asks for: the default one, or the rendered form of another. -/
inductive StreamId
  | default
  | other (scheme : String)
  deriving DecidableEq

inductive NodeKind
  | file
  | dir
  | symlink
  | device
  | other
  deriving DecidableEq

inductive TimeSource
  | inodeTable
  deriving DecidableEq

inductive TimeResolution
  | nanos
  deriving DecidableEq

structure TimeStamp where
  unixNanos : ℤ
  source : TimeSource
  resolution : TimeResolution
  deriving DecidableEq

structure MacbTimes where
  modified : Option TimeStamp
  accessed : Option TimeStamp
  changed : Option TimeStamp
  born : Option TimeStamp
  deriving DecidableEq

inductive ResidencyKind
  | resident (inlineLen : ℕ)
  | nonResident
  deriving DecidableEq

structure FsMeta where
  ino : ℕ
  kind : NodeKind
  size : UInt64
  nlink : ℕ
  uid : Option UInt32
  gid : Option UInt32
  mode : Option ℕ
  times : MacbTimes
  residency : ResidencyKind
  deriving DecidableEq

structure VfsDirEntry where
  name : List UInt8
  id : FileId
  kind : NodeKind
  deriving DecidableEq

structure ByteRun where
  imageOffset : ℕ
  len : ℕ
  deriving DecidableEq

inductive RunAlloc
  | allocated
  deriving DecidableEq

structure RunInfo where
  run : ByteRun
  alloc : RunAlloc
  deriving DecidableEq

structure UfsFs where
  image : Bytes
  sb : Superblock

def mapErr : UfsError → VfsError
  | .truncated _ need avail => .outOfRange "ufs image slice" need 1 avail
  | e => .decode "ufs" 0 e.toString []

def inoOf : FileId → Except VfsError ℕ
  | .byIno ino => .ok ino
  | .other scheme => .error (.unsupported "ufs file-id" scheme)

def requireDefaultStream : StreamId → Except VfsError Unit
  | .default => .ok ()
  | .other scheme => .error (.unsupported "ufs stream" scheme)

def nodeKind : FileType → NodeKind
  | .regular => .file
  | .directory => .dir
  | .symlink => .symlink
  | .charDevice | .blockDevice => .device
  | .fifo | .socket | .whiteout | .other _ => .other

def toTs (ts : Timespec) : TimeStamp where
  unixNanos := ts.sec.toInt * 1000000000 + ts.nsec.toInt
  source := .inodeTable
  resolution := .nanos

namespace UfsFs

/-- Parse the superblock at byte offset `off` of `image`. -/
def parsePrimary (image : Bytes) (off : ℕ) : Except UfsError Superblock :=
  match image.getFrom off with
  | none => .error (.truncated "superblock (primary offset)" off image.len)
  | some slice => Superblock.parse slice

/-- Read the whole source and parse its superblock at the UFS2, then at the UFS1 offset. -/
def openSource (source : DynSource) : Except VfsError UfsFs := do
  let (n, image) ← source.readAt 0 (Bytes.zeros source.len source.len_lt)
  let image := image.take n
  match parsePrimary image SBLOCK_UFS2 with
  | .ok sb => return { image := image, sb := sb }
  | .error _ =>
    match parsePrimary image SBLOCK_UFS1 with
    | .ok sb => return { image := image, sb := sb }
    | .error e => throw (mapErr e)

def root (_ : UfsFs) : FileId := .byIno UFS_ROOTINO

/-- The node that the first live entry called `name` in `parent` leads to. -/
def lookup (fs : UfsFs) (parent : FileId) (name : List UInt8) :
    Except VfsError (Option FileId) := do
  let dirIno ← inoOf parent
  match listDir fs.image fs.sb dirIno with
  | .error e => throw (mapErr e)
  | .ok entries => return (entries.find? fun e => e.name == name).map fun e => .byIno e.ino

def inode (fs : UfsFs) (id : FileId) : Except VfsError Inode := do
  let ino ← inoOf id
  (readInode fs.image fs.sb ino).mapError mapErr

/-- The kind of a child, read from its inode; `other` when the inode cannot be read. -/
def entryKind (fs : UfsFs) (ino : ℕ) : NodeKind :=
  match readInode fs.image fs.sb ino with
  | .ok inode => nodeKind inode.fileType
  | .error _ => .other

def readDir (fs : UfsFs) (id : FileId) : Except VfsError (List VfsDirEntry) := do
  let dirIno ← inoOf id
  let entries ← (listDir fs.image fs.sb dirIno).mapError mapErr
  return entries.map fun e => { name := e.name, id := .byIno e.ino, kind := fs.entryKind e.ino }

/-- The loop of `extents` over the remaining direct pointers. -/
def directRuns (fsize bsize : ℕ) : List UInt64 → ℕ → List RunInfo
  | [], _ => []
  | addr :: rest, remaining =>
    if remaining = 0 then []
    else
      let this := min remaining (max bsize 1)
      let runs := directRuns fsize bsize rest (remaining - max bsize 1)
      -- a hole has no run
      if addr = 0 then runs
      else
        { run := { imageOffset := satMul addr.toNat fsize, len := this }, alloc := .allocated } ::
          runs

/-- The runs of the direct blocks, the last one cut at `di_size`. -/
def extents (fs : UfsFs) (id : FileId) (stream : StreamId) : Except VfsError (List RunInfo) := do
  requireDefaultStream stream
  let inode ← fs.inode id
  return directRuns fs.sb.fragBytes fs.sb.blockBytes inode.direct.toList inode.size.toNat

def metadata (fs : UfsFs) (id : FileId) : Except VfsError FsMeta := do
  let ino ← inoOf id
  let inode ← (readInode fs.image fs.sb ino).mapError mapErr
  return {
    ino := ino
    kind := nodeKind inode.fileType
    size := inode.size
    nlink := inode.nlink.toNat
    uid := some inode.uid
    gid := some inode.gid
    mode := some inode.mode.toNat
    times := {
      modified := some (toTs inode.mtime)
      accessed := some (toTs inode.atime)
      changed := some (toTs inode.ctime)
      born := inode.birthtime.map toTs }
    -- a target in the pointer area is resident, everything else lies in blocks
    residency := match inode.symlinkTarget with
      | some t => .resident (min t.len (2 ^ 32 - 1))
      | none => .nonResident }

/-- Fill `buf` from the content of a node, from offset `off` on: the number of bytes copied, and
the buffer after the copy. -/
def readAt (fs : UfsFs) (id : FileId) (stream : StreamId) (off : ℕ) (buf : Bytes) :
    Except VfsError (ℕ × Bytes) := do
  requireDefaultStream stream
  let ino ← inoOf id
  let file ← (readFile fs.image fs.sb ino).mapError mapErr
  match file.getFrom off with
  | none => return (0, buf)
  | some slice =>
    let n := min slice.len buf.len
    return (n, buf.copyAt 0 (slice.take n))

/-- At most `cap` bytes of a symlink's target, none for another node. -/
def readLink (fs : UfsFs) (id : FileId) (cap : ℕ) : Except VfsError Bytes := do
  let inode ← fs.inode id
  if inode.fileType ≠ .symlink then return .empty
  let target ← (readSymlinkTarget fs.image fs.sb inode).mapError mapErr
  return target.take cap

theorem lookup_byIno (fs : UfsFs) (d : ℕ) (name : List UInt8) :
    fs.lookup (.byIno d) name =
      match listDir fs.image fs.sb d with
      | .error e => .error (mapErr e)
      | .ok entries => .ok ((entries.find? fun e => e.name == name).map fun e => .byIno e.ino) := by
  simp only [lookup, inoOf, bind, Except.bind, pure, Except.pure, throw, throwThe,
    MonadExceptOf.throw]

end UfsFs
end UfsForensic
