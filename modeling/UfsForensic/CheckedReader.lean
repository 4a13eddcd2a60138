import UfsForensic.File
import UfsForensic.Lib.Checked

/-!
# The reader with checked arithmetic

The functions of the reader once more, every operation that the source does not write as saturating
or range-checked being a checked one. Each returns what the plain function computes: no operation
of the reader fails, on any input.
-/

namespace UfsForensic.Checked

variable {partition : Bytes} {sb : Superblock}

def pointers (data : Bytes) (version : UfsVersion) (endian : Endian) (off n : ℕ) :
    Checked (Vector UInt64 n) :=
  Vector.ofFnM fun i : Fin n => do
    let skip ← mul i version.ptrSize
    let at_ ← add off skip
    return version.readPtr endian data at_

def inlineTarget (data : Bytes) (version : UfsVersion) (maxsymlinklen : Int32)
    (fileType : FileType) (size : UInt64) (dbOff : ℕ) : Checked (Option Bytes) :=
  if fileType = .symlink ∧ 0 < maxsymlinklen.toInt ∧ size.toNat ≤ i32AsU64 maxsymlinklen then do
    let count ← add UFS_NDADDR UFS_NIADDR
    let regionLen ← mul count version.ptrSize
    let take := min size.toNat regionLen
    let stop ← add dbOff take
    return data.get dbOff stop
  else return none

def parseWithMaxsymlink (data : Bytes) (version : UfsVersion) (endian : Endian)
    (maxsymlinklen : Int32) : Checked (Except UfsError Inode) :=
  let need := version.dinodeSize
  if data.len < need then return .error (.truncated "dinode" need data.len)
  else
    match version with
    | .ufs2 => do
      let mode := endian.u16 data U2_MODE
      let size := endian.u64 data U2_SIZE
      let direct ← pointers data .ufs2 endian U2_DB 12
      let indirect ← pointers data .ufs2 endian U2_IB 3
      let fileType := FileType.fromMode mode
      let fastSymlink ← inlineTarget data .ufs2 maxsymlinklen fileType size U2_DB
      return .ok {
        version := .ufs2
        mode := mode
        fileType := fileType
        nlink := endian.u16 data U2_NLINK
        uid := endian.u32 data U2_UID
        gid := endian.u32 data U2_GID
        size := size
        blocks := endian.u64 data U2_BLOCKS
        atime := ⟨endian.i64 data U2_ATIME, endian.i32 data U2_ATIMENSEC⟩
        mtime := ⟨endian.i64 data U2_MTIME, endian.i32 data U2_MTIMENSEC⟩
        ctime := ⟨endian.i64 data U2_CTIME, endian.i32 data U2_CTIMENSEC⟩
        birthtime := some ⟨endian.i64 data U2_BIRTHTIME, endian.i32 data U2_BIRTHNSEC⟩
        direct := direct
        indirect := indirect
        fastSymlink := fastSymlink }
    | .ufs1 => do
      let mode := endian.u16 data U1_MODE
      let size := endian.u64 data U1_SIZE
      let direct ← pointers data .ufs1 endian U1_DB 12
      let indirect ← pointers data .ufs1 endian U1_IB 3
      let fileType := FileType.fromMode mode
      let fastSymlink ← inlineTarget data .ufs1 maxsymlinklen fileType size U1_DB
      return .ok {
        version := .ufs1
        mode := mode
        fileType := fileType
        nlink := endian.u16 data U1_NLINK
        uid := endian.u32 data U1_UID
        gid := endian.u32 data U1_GID
        size := size
        blocks := (endian.u32 data U1_BLOCKS).toUInt64
        atime := ⟨(endian.i32 data U1_ATIME).toInt64, endian.i32 data U1_ATIMENSEC⟩
        mtime := ⟨(endian.i32 data U1_MTIME).toInt64, endian.i32 data U1_MTIMENSEC⟩
        ctime := ⟨(endian.i32 data U1_CTIME).toInt64, endian.i32 data U1_CTIMENSEC⟩
        birthtime := none
        direct := direct
        indirect := indirect
        fastSymlink := fastSymlink }

def readInode (partition : Bytes) (sb : Superblock) (ino : ℕ) :
    Checked (Except UfsError Inode) :=
  if sb.ipg.toInt ≤ 0 then
    return .error (.impossibleGeometry "fs_ipg" (i32AsU64 sb.ipg) i64MaxAsU64)
  else if sb.fpg.toInt ≤ 0 then
    return .error (.impossibleGeometry "fs_fpg" (i32AsU64 sb.fpg) i64MaxAsU64)
  else if sb.fsize.toInt ≤ 0 then
    return .error (.impossibleGeometry "fs_fsize" (i32AsU64 sb.fsize) i64MaxAsU64)
  else if sb.iblkno.toInt < 0 then
    return .error (.impossibleGeometry "fs_iblkno" (i32AsU64 sb.iblkno) i64MaxAsU64)
  else
    let ipg := i32AsU64 sb.ipg
    let fpg := i32AsU64 sb.fpg
    let fsize := i32AsU64 sb.fsize
    let iblkno := i32AsU64 sb.iblkno
    let inodeSize := sb.inodeSize
    let count := satMul ipg sb.ncg.toNat
    if count ≤ ino then return .error (.inodeOutOfRange ino count)
    else do
      let cg ← div ino ipg
      let within ← rem ino ipg
      let cgimin := satAdd (satMul cg fpg) iblkno
      let start := satAdd (satMul cgimin fsize) (satMul within inodeSize)
      let stop := satAdd start inodeSize
      match partition.get start stop with
      | none => return .error (.truncated "dinode (located)" stop partition.len)
      | some slice => parseWithMaxsymlink slice sb.version sb.endian sb.maxsymlinklen

theorem ptrSize_le (version : UfsVersion) : version.ptrSize ≤ 8 := by cases version <;> decide

theorem pointers_eq_ok {n off : ℕ} (hn : n ≤ 12) (hoff : off ≤ 256) (data : Bytes)
    (version : UfsVersion) (endian : Endian) :
    pointers data version endian off n = .ok (Vector.ofFn fun i : Fin n =>
      version.readPtr endian data (off + i * version.ptrSize)) := by
  apply ofFnM_eq_ok
  intro i
  have hskip : (i : ℕ) * version.ptrSize ≤ 12 * 8 :=
    Nat.mul_le_mul (i.isLt.le.trans hn) (ptrSize_le version)
  rw [mul_eq_ok (by unfold u64Max; omega), ok_bind, add_eq_ok (by unfold u64Max; omega), ok_bind,
    pure_eq_ok]

theorem inlineTarget_eq_ok {dbOff : ℕ} (h : dbOff ≤ 256) (data : Bytes) (version : UfsVersion)
    (maxsymlinklen : Int32) (fileType : FileType) (size : UInt64) :
    inlineTarget data version maxsymlinklen fileType size dbOff =
      .ok (Inode.inlineTarget data version maxsymlinklen fileType size dbOff) := by
  have hregion : (UFS_NDADDR + UFS_NIADDR) * version.ptrSize ≤ 15 * 8 :=
    Nat.mul_le_mul_left 15 (ptrSize_le version)
  unfold inlineTarget Inode.inlineTarget
  split_ifs
  · rw [add_eq_ok (by decide), ok_bind, mul_eq_ok (by unfold u64Max; omega), ok_bind]
    dsimp only
    rw [add_eq_ok (by unfold u64Max; omega), ok_bind, pure_eq_ok]
  · rfl

theorem parseWithMaxsymlink_eq_ok (data : Bytes) (version : UfsVersion) (endian : Endian)
    (maxsymlinklen : Int32) :
    parseWithMaxsymlink data version endian maxsymlinklen =
      .ok (Inode.parseWithMaxsymlink data version endian maxsymlinklen) := by
  unfold parseWithMaxsymlink Inode.parseWithMaxsymlink
  dsimp only
  split_ifs
  · rfl
  · cases version with
    | ufs1 =>
      dsimp only
      rw [pointers_eq_ok (by norm_num) (by decide), ok_bind,
        pointers_eq_ok (by norm_num) (by decide), ok_bind, inlineTarget_eq_ok (by decide), ok_bind,
        pure_eq_ok]
    | ufs2 =>
      dsimp only
      rw [pointers_eq_ok (by norm_num) (by decide), ok_bind,
        pointers_eq_ok (by norm_num) (by decide), ok_bind, inlineTarget_eq_ok (by decide), ok_bind,
        pure_eq_ok]

theorem i32AsU64_ne_zero {x : Int32} (h : 0 < x.toInt) : i32AsU64 x ≠ 0 := by
  rw [i32AsU64_of_nonneg h.le]
  omega

/-- The divisor is guarded in the function itself. -/
theorem readInode_eq_ok (partition : Bytes) (sb : Superblock) (ino : ℕ) :
    readInode partition sb ino = .ok (UfsForensic.readInode partition sb ino) := by
  unfold readInode UfsForensic.readInode
  split_ifs with h1 h2 h3 h4
  · rfl
  · rfl
  · rfl
  · rfl
  · have hipg := i32AsU64_ne_zero (x := sb.ipg) (by omega)
    dsimp only
    split_ifs
    · rfl
    · rw [div_eq_ok hipg, ok_bind, rem_eq_ok hipg, ok_bind]
      generalize partition.get _ _ = located
      cases located with
      | none => rfl
      | some slice => exact parseWithMaxsymlink_eq_ok _ _ _ _

def recordAt (block : Bytes) (off ino reclen : ℕ) (dType : UInt8) (namlen : ℕ) :
    Checked DirEntry := do
  let nameStart ← add off OFF_NAME
  let nameCap := reclen - OFF_NAME
  let take := min namlen nameCap
  let nameEnd := min (satAdd nameStart take) block.len
  return {
    name := ((block.get nameStart nameEnd).map Bytes.toList).getD []
    ino := ino
    fileType := .fromDType dType
    deleted := ino = 0 }

def walkFrom (block : Bytes) (endian : Endian) (off : ℕ) : Checked (List DirEntry) :=
  match _hstop : add off DIRECT_HEAD with
  | .error e => .error e
  | .ok stop =>
    if _hhead : stop ≤ block.len then do
      let inoOff ← add off OFF_INO
      let ino := (endian.u32 block inoOff).toNat
      let reclenOff ← add off OFF_RECLEN
      let reclen := (endian.u16 block reclenOff).toNat
      let typeOff ← add off OFF_TYPE
      let dType := u8At block typeOff
      let namlenOff ← add off OFF_NAMLEN
      let namlen := (u8At block namlenOff).toNat
      if _hlen : reclen < DIRECT_HEAD then return []
      else
        let record ← recordAt block off ino reclen dType namlen
        let rest ← walkFrom block endian (satAdd off reclen)
        return record :: rest
    else return []
termination_by block.len - off
decreasing_by
  have := block.len_lt
  have := of_add_eq_ok _hstop
  simp only [DIRECT_HEAD, satAdd, u64Max] at *
  omega

def walkPointers (partition : Bytes) (sb : Superblock) (bsize : ℕ) :
    List UInt64 → ℕ → List DirEntry → Checked (List DirEntry)
  | [], _, entries => return entries
  | addr :: rest, remaining, entries =>
    if remaining = 0 then return entries
    else if addr = 0 then walkPointers partition sb bsize rest (remaining - bsize) entries
    else
      match readBlock partition sb addr (min remaining bsize) with
      | .error _ => return entries
      | .ok block => do
        let records ← walkFrom block sb.endian 0
        walkPointers partition sb bsize rest (remaining - bsize) (entries ++ records)

def listDirEntries (partition : Bytes) (sb : Superblock) (inode : Inode) :
    Checked (List DirEntry) :=
  if sb.fsize.toInt ≤ 0 then return []
  else
    let bsize := if 0 < sb.bsize.toInt then i32AsU64 sb.bsize else DIRBLKSIZ
    walkPointers partition sb bsize inode.direct.toList inode.size.toNat []

def listDirAll (partition : Bytes) (sb : Superblock) (dirIno : ℕ) :
    Checked (Except UfsError (List DirEntry)) := do
  match ← readInode partition sb dirIno with
  | .error e => return .error e
  | .ok inode =>
    let entries ← listDirEntries partition sb inode
    return .ok entries

def descend (partition : Bytes) (sb : Superblock) :
    List (List UInt8) → ℕ → Inode → Checked (Except UfsError (Option (ℕ × Inode)))
  | [], curIno, cur => return .ok (some (curIno, cur))
  | comp :: rest, curIno, cur =>
    if comp = [] then descend partition sb rest curIno cur
    else if !cur.isDir then return .ok none
    else do
      let entries ← listDirEntries partition sb cur
      match entries.find? fun e => !e.deleted && e.name == comp with
      | none => return .ok none
      | some hit =>
        match ← readInode partition sb hit.ino with
        | .error e => return .error e
        | .ok inode => descend partition sb rest hit.ino inode

def readByPath (partition : Bytes) (sb : Superblock) (path : List UInt8) :
    Checked (Except UfsError (Option (ℕ × Inode))) := do
  match ← readInode partition sb UFS_ROOTINO with
  | .error e => return .error e
  | .ok root => descend partition sb (path.splitOn SLASH) UFS_ROOTINO root

theorem recordAt_eq_ok {off : ℕ} (h : off + DIRECT_HEAD ≤ u64Max) (block : Bytes) (endian : Endian)
    (reclen : ℕ) :
    recordAt block off (endian.u32 block (off + OFF_INO)).toNat reclen (u8At block (off + OFF_TYPE))
      (u8At block (off + OFF_NAMLEN)).toNat =
      .ok (UfsForensic.recordAt block endian off reclen) := by
  unfold DIRECT_HEAD at h
  unfold recordAt
  rw [add_eq_ok (by unfold OFF_NAME; omega), ok_bind]
  rfl

/-- The cursor stays within one record of the block, far from the top of the address space. -/
theorem walkFrom_eq_ok {block : Bytes} (endian : Endian) {off : ℕ} (h : off ≤ 2 ^ 63 + 2 ^ 16) :
    walkFrom block endian off = .ok (UfsForensic.walkFrom block endian off) := by
  have hlen := block.len_lt
  induction hn : block.len - off using Nat.strong_induction_on generalizing off with
  | _ n ih =>
    have hmax : off + DIRECT_HEAD ≤ u64Max := by
      unfold DIRECT_HEAD u64Max
      omega
    have hfield {k : ℕ} (hk : k ≤ DIRECT_HEAD) : add off k = .ok (off + k) :=
      add_eq_ok ((Nat.add_le_add_left hk off).trans hmax)
    rw [walkFrom, UfsForensic.walkFrom]
    split
    · next e he =>
      rw [add_eq_ok hmax] at he
      exact nomatch he
    · next stop hstop =>
      obtain rfl := of_add_eq_ok hstop
      by_cases hhead : off + DIRECT_HEAD ≤ block.len
      · rw [dif_pos hhead, if_pos hhead, hfield (by decide), ok_bind, hfield (by decide), ok_bind,
          hfield (by decide), ok_bind, hfield (by decide), ok_bind]
        dsimp only
        have hreclen := (endian.u16 block (off + OFF_RECLEN)).toNat_lt
        by_cases hshort : (endian.u16 block (off + OFF_RECLEN)).toNat < DIRECT_HEAD
        · rw [dif_pos hshort, if_pos hshort, pure_eq_ok]
        · rw [dif_neg hshort, if_neg hshort, recordAt_eq_ok hmax, ok_bind]
          unfold DIRECT_HEAD at hhead hshort
          -- a record is at most 65535 bytes long, so the cursor does not saturate
          have hexact : satAdd off (endian.u16 block (off + OFF_RECLEN)).toNat =
              off + (endian.u16 block (off + OFF_RECLEN)).toNat :=
            satAdd_eq (by unfold u64Max; omega)
          rw [hexact, ih _ (by omega) (by omega) rfl, ok_bind, pure_eq_ok]
      · rw [dif_neg hhead, if_neg hhead, pure_eq_ok]

theorem walkPointers_eq_ok (bsize : ℕ) (ptrs : List UInt64) (remaining : ℕ)
    (entries : List DirEntry) :
    walkPointers partition sb bsize ptrs remaining entries =
      .ok (UfsForensic.walkPointers partition sb bsize ptrs remaining entries) := by
  induction ptrs generalizing remaining entries with
  | nil => rfl
  | cons addr rest ih =>
    rw [walkPointers, UfsForensic.walkPointers]
    split_ifs
    · rfl
    · exact ih _ _
    · cases readBlock partition sb addr (min remaining bsize) with
      | error e => rfl
      | ok block =>
        dsimp only
        rw [walkFrom_eq_ok sb.endian (by norm_num), ok_bind, ih]
        rfl

theorem listDirEntries_eq_ok (inode : Inode) :
    listDirEntries partition sb inode =
      .ok (UfsForensic.listDirEntries partition sb inode) := by
  unfold listDirEntries UfsForensic.listDirEntries
  split_ifs
  · rfl
  · exact walkPointers_eq_ok _ _ _ _
  · exact walkPointers_eq_ok _ _ _ _

theorem listDirAll_eq_ok (dirIno : ℕ) :
    listDirAll partition sb dirIno = .ok (UfsForensic.listDirAll partition sb dirIno) := by
  unfold listDirAll UfsForensic.listDirAll
  rw [readInode_eq_ok, ok_bind]
  cases UfsForensic.readInode partition sb dirIno with
  | error e => rfl
  | ok inode =>
    dsimp only
    rw [listDirEntries_eq_ok, ok_bind]
    rfl

theorem descend_eq_ok (comps : List (List UInt8)) (curIno : ℕ) (cur : Inode) :
    descend partition sb comps curIno cur =
      .ok (UfsForensic.descend partition sb comps curIno cur) := by
  induction comps generalizing curIno cur with
  | nil => rfl
  | cons comp rest ih =>
    rw [descend, UfsForensic.descend]
    split_ifs
    · exact ih _ _
    · rfl
    · rw [listDirEntries_eq_ok, ok_bind]
      generalize (UfsForensic.listDirEntries partition sb cur).find? _ = found
      cases found with
      | none => rfl
      | some hit =>
        dsimp only
        rw [readInode_eq_ok, ok_bind]
        cases UfsForensic.readInode partition sb hit.ino with
        | error e => rfl
        | ok inode => exact ih _ _

theorem readByPath_eq_ok (path : List UInt8) :
    readByPath partition sb path = .ok (UfsForensic.readByPath partition sb path) := by
  unfold readByPath UfsForensic.readByPath
  rw [readInode_eq_ok, ok_bind]
  cases UfsForensic.readInode partition sb UFS_ROOTINO with
  | error e => rfl
  | ok root => exact descend_eq_ok _ _ _

def resolveBlock (partition : Bytes) (sb : Superblock) (inode : Inode) (bi nindir : ℕ) :
    Checked UInt64 :=
  if bi < UFS_NDADDR then index inode.direct bi
  else if nindir = 0 then return 0
  else do
    let i ← sub bi UFS_NDADDR
    if i < nindir then
      let root ← index inode.indirect 0
      return indirectPtr partition sb root i
    else
      let i ← sub i nindir
      let nindir2 := satMul nindir nindir
      if i < nindir2 then
        let root ← index inode.indirect 1
        let q ← div i nindir
        let sib := indirectPtr partition sb root q
        let r ← rem i nindir
        return indirectPtr partition sb sib r
      else
        let i ← sub i nindir2
        let nindir3 := satMul nindir2 nindir
        if nindir3 ≤ i then return 0
        else
          let root ← index inode.indirect 2
          let q ← div i nindir2
          let dib := indirectPtr partition sb root q
          let rem_ ← rem i nindir2
          let q ← div rem_ nindir
          let sib := indirectPtr partition sb dib q
          let r ← rem rem_ nindir
          return indirectPtr partition sb sib r

def readBlocks (partition : Bytes) (sb : Superblock) (inode : Inode) (bsize nindir : ℕ) :
    (left remaining written bi : ℕ) → Bytes → Checked (Except UfsError Bytes)
  | 0, _, _, _, out => return .ok out
  | left + 1, remaining, written, bi, out => do
    let thisLen := min remaining bsize
    let addr ← resolveBlock partition sb inode bi nindir
    if addr = 0 then
      let next ← add bi 1
      readBlocks partition sb inode bsize nindir left (remaining - bsize)
        (satAdd written thisLen) next out
    else
      match readBlock partition sb addr thisLen with
      | .error e => return .error e
      | .ok block =>
        let take := min block.len thisLen
        let stop ← add written take
        let out ← if stop ≤ out.len then do
            let src ← slice block 0 take
            copyFromSlice out written stop src
          else pure out
        let next ← add bi 1
        readBlocks partition sb inode bsize nindir left (remaining - bsize)
          (satAdd written thisLen) next out

def readInodeFile (partition : Bytes) (sb : Superblock) (inode : Inode) :
    Checked (Except UfsError Bytes) :=
  if sb.bsize.toInt ≤ 0 then
    return .error (.impossibleGeometry "fs_bsize" (i32AsU64 sb.bsize) i64MaxAsU64)
  else if sb.fsize.toInt ≤ 0 then
    return .error (.impossibleGeometry "fs_fsize" (i32AsU64 sb.fsize) i64MaxAsU64)
  else if partition.len < inode.size.toNat then
    return .error (.impossibleGeometry "di_size" inode.size.toNat partition.len)
  else do
    let bsize := i32AsU64 sb.bsize
    let size := inode.size.toNat
    let out ← zeros size
    if size = 0 then return .ok out
    else do
      let nBlocks ← divCeil size bsize
      let nindir := if 0 < sb.nindir.toInt then i32AsU64 sb.nindir else 0
      readBlocks partition sb inode bsize nindir nBlocks size 0 0 out

def readFile (partition : Bytes) (sb : Superblock) (ino : ℕ) : Checked (Except UfsError Bytes) := do
  match ← readInode partition sb ino with
  | .error e => return .error e
  | .ok inode => readInodeFile partition sb inode

def readSymlinkTarget (partition : Bytes) (sb : Superblock) (inode : Inode) :
    Checked (Except UfsError Bytes) :=
  match inode.symlinkTarget with
  | some inline => return .ok inline
  | none => readInodeFile partition sb inode

def readPathContent (partition : Bytes) (sb : Superblock) (path : List UInt8) :
    Checked (Except UfsError (Option Bytes)) := do
  match ← readByPath partition sb path with
  | .error e => return .error e
  | .ok none => return .ok none
  | .ok (some (_, inode)) =>
    match ← readInodeFile partition sb inode with
    | .error e => return .error e
    | .ok content => return .ok (some content)

theorem index_singleRoot (inode : Inode) : index inode.indirect 0 = .ok inode.singleRoot := rfl

theorem index_doubleRoot (inode : Inode) : index inode.indirect 1 = .ok inode.doubleRoot := rfl

theorem index_tripleRoot (inode : Inode) : index inode.indirect 2 = .ok inode.tripleRoot := rfl

/-- The subtractions follow the comparisons that guard them, and a square of a positive count is
positive, saturated or not. -/
theorem resolveBlock_eq_ok (inode : Inode) (bi nindir : ℕ) :
    resolveBlock partition sb inode bi nindir =
      .ok (UfsForensic.resolveBlock partition sb inode bi nindir) := by
  unfold resolveBlock UfsForensic.resolveBlock
  by_cases h1 : bi < UFS_NDADDR
  · have h1' : bi < 12 := h1
    rw [if_pos h1, dif_pos h1', index_eq_ok h1']
  have h1' : ¬ bi < 12 := h1
  rw [if_neg h1, dif_neg h1']
  by_cases h2 : nindir = 0
  · rw [if_pos h2, if_pos h2, pure_eq_ok]
  rw [if_neg h2, if_neg h2, sub_eq_ok (Nat.not_lt.mp h1), ok_bind]
  dsimp only
  by_cases h3 : bi - UFS_NDADDR < nindir
  · rw [if_pos h3, if_pos h3, index_singleRoot, ok_bind, pure_eq_ok]
  rw [if_neg h3, if_neg h3, sub_eq_ok (Nat.not_lt.mp h3), ok_bind]
  have hpos : satMul nindir nindir ≠ 0 := by
    have hsq : 0 < nindir * nindir := Nat.mul_pos (Nat.pos_of_ne_zero h2) (Nat.pos_of_ne_zero h2)
    unfold satMul u64Max
    omega
  by_cases h4 : bi - UFS_NDADDR - nindir < satMul nindir nindir
  · rw [if_pos h4, if_pos h4, index_doubleRoot, ok_bind, div_eq_ok h2, ok_bind,
      rem_eq_ok h2, ok_bind, pure_eq_ok]
  rw [if_neg h4, if_neg h4, sub_eq_ok (Nat.not_lt.mp h4), ok_bind]
  split_ifs
  · rfl
  · rw [index_tripleRoot, ok_bind, div_eq_ok hpos, ok_bind, rem_eq_ok hpos, ok_bind,
      div_eq_ok h2, ok_bind, rem_eq_ok h2, ok_bind, pure_eq_ok]

/-- What is written and what remains never exceed the size of the file together. -/
theorem readBlocks_eq_ok (inode : Inode) (bsize nindir : ℕ) {left remaining written bi : ℕ}
    (out : Bytes) (hsize : written + remaining ≤ 2 ^ 63) (hbi : bi + left ≤ u64Max) :
    readBlocks partition sb inode bsize nindir left remaining written bi out =
      .ok (UfsForensic.readBlocks partition sb inode bsize nindir left remaining written bi out) := by
  induction left generalizing remaining written bi out with
  | zero => rfl
  | succ left ih =>
    -- one pass moves at most what it takes off the remainder
    have hadv : satAdd written (min remaining bsize) + (remaining - bsize) ≤ 2 ^ 63 := by
      have := satAdd_le written (min remaining bsize)
      omega
    have hcount : bi + 1 + left ≤ u64Max := by omega
    rw [readBlocks, UfsForensic.readBlocks]
    dsimp only
    rw [resolveBlock_eq_ok, ok_bind]
    split_ifs
    · rw [add_eq_ok (by omega), ok_bind]
      exact ih out hadv hcount
    · cases readBlock partition sb (UfsForensic.resolveBlock partition sb inode bi nindir)
        (min remaining bsize) with
      | error e => rfl
      | ok block =>
        dsimp only
        rw [add_eq_ok (by unfold u64Max; omega), ok_bind]
        by_cases hfit : written + min block.len (min remaining bsize) ≤ out.len
        · rw [if_pos hfit, if_pos hfit, slice_eq_ok (Nat.zero_le _) (min_le_left _ _), ok_bind,
            copyFromSlice_eq_ok (by rw [Bytes.slice_len]; omega), ok_bind,
            add_eq_ok (by omega), ok_bind]
          exact ih _ hadv hcount
        · rw [if_neg hfit, if_neg hfit, pure_eq_ok, ok_bind, add_eq_ok (by omega), ok_bind]
          exact ih _ hadv hcount

theorem readInodeFile_eq_ok (inode : Inode) :
    readInodeFile partition sb inode =
      .ok (UfsForensic.readInodeFile partition sb inode) := by
  have hlen := partition.len_lt
  unfold readInodeFile UfsForensic.readInodeFile
  by_cases hb : sb.bsize.toInt ≤ 0
  · rw [if_pos hb, if_pos hb, pure_eq_ok]
  rw [if_neg hb, if_neg hb]
  by_cases hf : sb.fsize.toInt ≤ 0
  · rw [if_pos hf, if_pos hf, pure_eq_ok]
  rw [if_neg hf, if_neg hf]
  by_cases hs : partition.len < inode.size.toNat
  · rw [if_pos hs, dif_pos hs, pure_eq_ok]
  rw [if_neg hs, dif_neg hs]
  dsimp only
  rw [zeros_eq_ok (by omega), ok_bind]
  change (if inode.size.toNat = 0 then _ else _) = Except.ok (if inode.size.toNat = 0 then _ else _)
  by_cases h0 : inode.size.toNat = 0
  · rw [if_pos h0, if_pos h0, pure_eq_ok]
    rfl
  rw [if_neg h0, if_neg h0, divCeil_eq_ok (i32AsU64_ne_zero (by omega)) (by unfold u64Max; omega),
    ok_bind]
  apply readBlocks_eq_ok
  · omega
  · -- there are at most as many blocks as bytes
    have hle : inode.size.toNat / i32AsU64 sb.bsize ≤ inode.size.toNat := Nat.div_le_self _ _
    unfold u64Max
    split_ifs
    · omega
    · omega

theorem readFile_eq_ok (ino : ℕ) :
    readFile partition sb ino = .ok (UfsForensic.readFile partition sb ino) := by
  unfold readFile UfsForensic.readFile
  rw [readInode_eq_ok, ok_bind]
  cases UfsForensic.readInode partition sb ino with
  | error e => rfl
  | ok inode => exact readInodeFile_eq_ok inode

theorem readSymlinkTarget_eq_ok (inode : Inode) :
    readSymlinkTarget partition sb inode =
      .ok (UfsForensic.readSymlinkTarget partition sb inode) := by
  unfold readSymlinkTarget UfsForensic.readSymlinkTarget
  cases inode.symlinkTarget with
  | some inline => rfl
  | none => exact readInodeFile_eq_ok inode

theorem readPathContent_eq_ok (path : List UInt8) :
    readPathContent partition sb path =
      .ok (UfsForensic.readPathContent partition sb path) := by
  unfold readPathContent UfsForensic.readPathContent
  rw [readByPath_eq_ok, ok_bind]
  rcases UfsForensic.readByPath partition sb path with e | found
  · rfl
  rcases found with _ | ⟨ino, inode⟩
  · rfl
  dsimp only
  rw [readInodeFile_eq_ok, ok_bind]
  cases hread : UfsForensic.readInodeFile partition sb inode with
  | error e => simp [hread, bind, Except.bind]
  | ok content => simp [hread, bind, Except.bind, pure, Except.pure]

end UfsForensic.Checked
