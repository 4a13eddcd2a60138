import UfsForensic.CheckedAudit
import UfsForensic.Vfs

/-!
# The adapter with checked arithmetic

The calls of the mounted filesystem once more, over the checked reader: the times are computed in
128-bit arithmetic, and a read slices both the content and the buffer it is given. Mounting fails for
one reason, a source that says it is longer than any buffer; no later call fails on any node identity,
name, offset or buffer.
-/

namespace UfsForensic.Checked

/-- A source that may say it has any 64-bit length. -/
structure DynSource where
  len : UInt64
  readAt : ℕ → Bytes → Except VfsError (ℕ × Bytes)

/-- The source when a buffer can hold what it says it has. -/
def DynSource.fitting (source : DynSource) (h : source.len.toNat < 2 ^ 63) :
    UfsForensic.DynSource where
  len := source.len.toNat
  len_lt := h
  readAt := source.readAt

def parsePrimary (image : Bytes) (off : ℕ) : Checked (Except UfsError Superblock) :=
  match image.getFrom off with
  | none => return .error (.truncated "superblock (primary offset)" off image.len)
  | some slice => parseSuperblock slice

def openSource (source : DynSource) : Checked (Except VfsError UfsFs) := do
  let image ← zeros source.len.toNat
  match source.readAt 0 image with
  | .error e => return .error e
  | .ok (n, image) => do
    let image := image.take n
    match ← parsePrimary image SBLOCK_UFS2 with
    | .ok sb => return .ok { image := image, sb := sb }
    | .error _ =>
      match ← parsePrimary image SBLOCK_UFS1 with
      | .ok sb => return .ok { image := image, sb := sb }
      | .error e => return .error (mapErr e)

theorem parsePrimary_eq_ok (image : Bytes) (off : ℕ) :
    parsePrimary image off = .ok (UfsFs.parsePrimary image off) := by
  unfold parsePrimary UfsFs.parsePrimary
  cases image.getFrom off with
  | none => rfl
  | some slice => exact parseSuperblock_eq_ok slice

/-- Mounting returns unless the buffer cannot be made. -/
theorem openSource_eq (source : DynSource) :
    openSource source = if h : source.len.toNat < 2 ^ 63 then
      .ok (UfsFs.openSource (source.fitting h)) else .error .capacityOverflow := by
  unfold openSource zeros
  split_ifs with h
  swap
  · rfl
  rw [ok_bind]
  unfold UfsFs.openSource DynSource.fitting
  dsimp only
  cases source.readAt 0 (Bytes.zeros source.len.toNat h) with
  | error e => rfl
  | ok read =>
    obtain ⟨n, image⟩ := read
    dsimp only
    rw [parsePrimary_eq_ok, ok_bind]
    simp only [bind, Except.bind]
    cases UfsFs.parsePrimary (image.take n) SBLOCK_UFS2 with
    | ok sb => rfl
    | error _ =>
      dsimp only
      rw [parsePrimary_eq_ok]
      cases UfsFs.parsePrimary (image.take n) SBLOCK_UFS1 with
      | ok sb => rfl
      | error e => rfl

section Calls

variable (fs : UfsFs)

def inode (id : FileId) : Checked (Except VfsError Inode) :=
  match inoOf id with
  | .error e => return .error e
  | .ok ino => do
    let read ← readInode fs.image fs.sb ino
    return read.mapError mapErr

def listDir (dirIno : ℕ) : Checked (Except UfsError (List DirEntry)) := do
  match ← listDirAll fs.image fs.sb dirIno with
  | .error e => return .error e
  | .ok entries => return .ok (entries.filter fun e => !e.deleted)

def entryKind (ino : ℕ) : Checked NodeKind := do
  match ← readInode fs.image fs.sb ino with
  | .ok inode => return nodeKind inode.fileType
  | .error _ => return .other

def readDir (id : FileId) : Checked (Except VfsError (List VfsDirEntry)) :=
  match inoOf id with
  | .error e => return .error e
  | .ok dirIno => do
    match ← listDir fs dirIno with
    | .error e => return .error (mapErr e)
    | .ok entries =>
      let out ← entries.mapM fun e => do
        let kind ← entryKind fs e.ino
        return ({ name := e.name, id := .byIno e.ino, kind := kind } : VfsDirEntry)
      return .ok out

def lookup (parent : FileId) (name : List UInt8) : Checked (Except VfsError (Option FileId)) :=
  match inoOf parent with
  | .error e => return .error e
  | .ok dirIno => do
    match ← listDir fs dirIno with
    | .error e => return .error (mapErr e)
    | .ok entries => return .ok ((entries.find? fun e => e.name == name).map fun e => .byIno e.ino)

def toTs (ts : Timespec) : Checked TimeStamp := do
  let secs ← mulI128 ts.sec.toInt 1000000000
  let nanos ← addI128 secs ts.nsec.toInt
  return { unixNanos := nanos, source := .inodeTable, resolution := .nanos }

def bornTs : Option Timespec → Checked (Option TimeStamp)
  | none => return none
  | some ts => do
    let born ← toTs ts
    return some born

def metadata (id : FileId) : Checked (Except VfsError FsMeta) :=
  match inoOf id with
  | .error e => return .error e
  | .ok ino => do
    match ← readInode fs.image fs.sb ino with
    | .error e => return .error (mapErr e)
    | .ok inode =>
      let modified ← toTs inode.mtime
      let accessed ← toTs inode.atime
      let changed ← toTs inode.ctime
      let born ← bornTs inode.birthtime
      return .ok {
        ino := ino
        kind := nodeKind inode.fileType
        size := inode.size
        nlink := inode.nlink.toNat
        uid := some inode.uid
        gid := some inode.gid
        mode := some inode.mode.toNat
        times := {
          modified := some modified
          accessed := some accessed
          changed := some changed
          born := born }
        residency := match inode.symlinkTarget with
          | some t => .resident (min t.len (2 ^ 32 - 1))
          | none => .nonResident }

def extents (id : FileId) (stream : StreamId) : Checked (Except VfsError (List RunInfo)) :=
  match requireDefaultStream stream with
  | .error e => return .error e
  | .ok () => do
    match ← inode fs id with
    | .error e => return .error e
    | .ok inode =>
      return .ok (UfsFs.directRuns fs.sb.fragBytes fs.sb.blockBytes inode.direct.toList
        inode.size.toNat)

def readAt (id : FileId) (stream : StreamId) (off : ℕ) (buf : Bytes) :
    Checked (Except VfsError (ℕ × Bytes)) :=
  match requireDefaultStream stream with
  | .error e => return .error e
  | .ok () =>
    match inoOf id with
    | .error e => return .error e
    | .ok ino => do
      match ← readFile fs.image fs.sb ino with
      | .error e => return .error (mapErr e)
      | .ok file =>
        match file.getFrom off with
        | none => return .ok (0, buf)
        | some rest =>
          let n := min rest.len buf.len
          let _ ← slice buf 0 n
          let src ← slice rest 0 n
          let out ← copyFromSlice buf 0 n src
          return .ok (n, out)

def readLink (id : FileId) (cap : ℕ) : Checked (Except VfsError Bytes) := do
  match ← inode fs id with
  | .error e => return .error e
  | .ok inode =>
    if inode.fileType ≠ .symlink then return .ok .empty
    else
      match ← readSymlinkTarget fs.image fs.sb inode with
      | .error e => return .error (mapErr e)
      | .ok target => return .ok (target.take cap)

end Calls

section CallsReturn

variable {fs : UfsFs}

theorem inode_eq_ok (id : FileId) : inode fs id = .ok (fs.inode id) := by
  unfold inode UfsFs.inode
  cases inoOf id with
  | error e => rfl
  | ok ino =>
    dsimp only
    rw [readInode_eq_ok]
    rfl

theorem listDir_eq_ok (dirIno : ℕ) :
    listDir fs dirIno = .ok (UfsForensic.listDir fs.image fs.sb dirIno) := by
  unfold listDir UfsForensic.listDir
  rw [listDirAll_eq_ok, ok_bind]
  cases UfsForensic.listDirAll fs.image fs.sb dirIno with
  | error e => rfl
  | ok entries => rfl

theorem entryKind_eq_ok (ino : ℕ) : entryKind fs ino = .ok (fs.entryKind ino) := by
  unfold entryKind UfsFs.entryKind
  rw [readInode_eq_ok, ok_bind]
  cases UfsForensic.readInode fs.image fs.sb ino with
  | error e => rfl
  | ok inode => rfl

theorem readDir_eq_ok (id : FileId) : readDir fs id = .ok (fs.readDir id) := by
  unfold readDir UfsFs.readDir
  cases inoOf id with
  | error e => rfl
  | ok dirIno =>
    dsimp only
    rw [listDir_eq_ok, ok_bind]
    simp only [bind, Except.bind]
    cases UfsForensic.listDir fs.image fs.sb dirIno with
    | error e => rfl
    | ok entries =>
      have hmap := mapM_eq_ok (l := entries) (f := fun e => do
          let kind ← entryKind fs e.ino
          return ({ name := e.name, id := .byIno e.ino, kind := kind } : VfsDirEntry))
        (g := fun e => { name := e.name, id := .byIno e.ino, kind := fs.entryKind e.ino })
        fun e _ => by rw [entryKind_eq_ok, ok_bind, pure_eq_ok]
      simp only [bind, Except.bind] at hmap
      dsimp only
      rw [hmap]
      rfl

theorem lookup_eq_ok (parent : FileId) (name : List UInt8) :
    lookup fs parent name = .ok (fs.lookup parent name) := by
  unfold lookup UfsFs.lookup
  cases inoOf parent with
  | error e => rfl
  | ok dirIno =>
    dsimp only
    rw [listDir_eq_ok, ok_bind]
    simp only [bind, Except.bind]
    cases UfsForensic.listDir fs.image fs.sb dirIno with
    | error e => rfl
    | ok entries => rfl

/-- A 64-bit count of seconds is far from the top of the 128-bit range in nanoseconds. -/
theorem toTs_eq_ok (ts : Timespec) : toTs ts = .ok (UfsForensic.toTs ts) := by
  have hsec := ts.sec.le_toInt
  have hsec' := ts.sec.toInt_lt
  have hnsec := ts.nsec.le_toInt
  have hnsec' := ts.nsec.toInt_lt
  rw [toTs, mulI128_eq_ok (by omega), ok_bind, addI128_eq_ok (by omega), ok_bind, pure_eq_ok]
  rfl

theorem bornTs_eq_ok (born : Option Timespec) :
    bornTs born = .ok (born.map UfsForensic.toTs) := by
  cases born with
  | none => rfl
  | some ts =>
    rw [bornTs, toTs_eq_ok]
    rfl

theorem metadata_eq_ok (id : FileId) : metadata fs id = .ok (fs.metadata id) := by
  unfold metadata UfsFs.metadata
  cases inoOf id with
  | error e => rfl
  | ok ino =>
    dsimp only
    rw [readInode_eq_ok, ok_bind]
    simp only [bind, Except.bind]
    cases UfsForensic.readInode fs.image fs.sb ino with
    | error e => rfl
    | ok inode =>
      dsimp only
      rw [toTs_eq_ok, toTs_eq_ok, toTs_eq_ok, bornTs_eq_ok]
      rfl

theorem extents_eq_ok (id : FileId) (stream : StreamId) :
    extents fs id stream = .ok (fs.extents id stream) := by
  unfold extents UfsFs.extents
  cases requireDefaultStream stream with
  | error e => rfl
  | ok _ =>
    dsimp only
    rw [inode_eq_ok, ok_bind]
    simp only [bind, Except.bind]
    cases fs.inode id with
    | error e => rfl
    | ok inode => rfl

/-- The part that is copied is as long as the part of the buffer that it goes to. -/
theorem readAt_eq_ok (id : FileId) (stream : StreamId) (off : ℕ) (buf : Bytes) :
    readAt fs id stream off buf = .ok (fs.readAt id stream off buf) := by
  unfold readAt UfsFs.readAt
  cases requireDefaultStream stream with
  | error e => rfl
  | ok _ =>
    cases inoOf id with
    | error e => rfl
    | ok ino =>
      dsimp only
      rw [readFile_eq_ok, ok_bind]
      simp only [bind, Except.bind]
      cases UfsForensic.readFile fs.image fs.sb ino with
      | error e => rfl
      | ok file =>
        dsimp only [Except.mapError]
        cases file.getFrom off with
        | none => rfl
        | some rest =>
          dsimp only
          have hlen : (rest.slice 0 (min rest.len buf.len - 0)).len = min rest.len buf.len - 0 := by
            rw [Bytes.slice_len]
            omega
          rw [slice_eq_ok (Nat.zero_le _) (min_le_right _ _)]
          dsimp only
          rw [slice_eq_ok (Nat.zero_le _) (min_le_left _ _)]
          dsimp only
          rw [copyFromSlice_eq_ok hlen]
          rfl

theorem readLink_eq_ok (id : FileId) (cap : ℕ) :
    readLink fs id cap = .ok (fs.readLink id cap) := by
  unfold readLink UfsFs.readLink
  rw [inode_eq_ok, ok_bind]
  simp only [bind, Except.bind]
  cases fs.inode id with
  | error e => rfl
  | ok inode =>
    dsimp only
    split_ifs
    · rfl
    · rw [readSymlinkTarget_eq_ok]
      cases UfsForensic.readSymlinkTarget fs.image fs.sb inode with
      | error e => rfl
      | ok target => rfl

end CallsReturn

/-- One operation of the adapter can fail, the allocation for a source that says it is longer than any
buffer. Whatever the source holds otherwise and whatever is asked, mounting and every call of the
mounted filesystem return what the plain functions compute. -/
theorem adapter_returns :
    (∀ source : DynSource, openSource source = if h : source.len.toNat < 2 ^ 63 then
        .ok (UfsFs.openSource (source.fitting h)) else .error .capacityOverflow) ∧
      ∀ (fs : UfsFs) (id : FileId),
        readDir fs id = .ok (fs.readDir id) ∧
        (∀ name, lookup fs id name = .ok (fs.lookup id name)) ∧
        metadata fs id = .ok (fs.metadata id) ∧
        (∀ stream, extents fs id stream = .ok (fs.extents id stream)) ∧
        (∀ stream off buf, readAt fs id stream off buf = .ok (fs.readAt id stream off buf)) ∧
        ∀ cap, readLink fs id cap = .ok (fs.readLink id cap) :=
  ⟨openSource_eq, fun _ id => ⟨readDir_eq_ok id, lookup_eq_ok id, metadata_eq_ok id,
    extents_eq_ok id, readAt_eq_ok id, readLink_eq_ok id⟩⟩

end UfsForensic.Checked
