import UfsForensic.CylinderGroup
import UfsForensic.File
import UfsForensic.Lib.Sweep

/-!
# The image auditor

`auditImage` locates the primary superblock, checks the geometry against the partition, walks every
cylinder group (backup superblock and header magic), and compares the allocated inodes with those a
directory entry names.
-/

namespace UfsForensic

def CG_MAGIC_OFF : ℕ := 4

inductive AnomalyKind
  | superblockMagicInvalid (offset : ℕ) (bytes : Vector UInt8 4)
  | backupSuperblockDivergence (cg : UInt32) (field : String) (primary backup offset : ℕ)
  | cgMagicInvalid (cg found : UInt32) (offset : ℕ)
  | orphanedInode (inode : ℕ) (nlink : UInt16)
  | impossibleGeometry (field : String) (value limit : ℕ)
  deriving DecidableEq

inductive Severity
  | medium
  | high
  deriving DecidableEq

namespace AnomalyKind

def severity : AnomalyKind → Severity
  | superblockMagicInvalid .. => .high
  | backupSuperblockDivergence .. => .high
  | cgMagicInvalid .. => .high
  | impossibleGeometry .. => .high
  | orphanedInode .. => .medium

def code : AnomalyKind → String
  | superblockMagicInvalid .. => "UFS-SUPERBLOCK-MAGIC-INVALID"
  | backupSuperblockDivergence .. => "UFS-BACKUP-SUPERBLOCK-DIVERGENCE"
  | cgMagicInvalid .. => "UFS-CG-MAGIC-INVALID"
  | orphanedInode .. => "UFS-ORPHANED-INODE"
  | impossibleGeometry .. => "UFS-IMPOSSIBLE-GEOMETRY"

def note : AnomalyKind → String
  | superblockMagicInvalid offset bytes =>
    "superblock at byte " ++ offset.repr ++ ": fs_magic bytes " ++ hexBytes bytes ++
      " match neither UFS1 (0x00011954) nor UFS2 (0x19540119) in either byte order — " ++
      "consistent with corruption or an overwritten superblock"
  | backupSuperblockDivergence cg field primary backup _ =>
    "cylinder group " ++ cg.toNat.repr ++ " backup superblock: " ++ field ++ " = " ++
      backup.repr ++ " differs from the primary " ++ primary.repr ++
      " — consistent with a spliced or edited image"
  | cgMagicInvalid cg found _ =>
    "cylinder group " ++ cg.toNat.repr ++ " header: cg_magic = " ++ hexU32 found ++
      " is not 0x00090255 — consistent with corruption or a tampered allocation map"
  | orphanedInode inode nlink =>
    "inode " ++ inode.repr ++ " is allocated (di_nlink " ++ nlink.toNat.repr ++
      ") yet reachable by no directory entry from root — an inode unlinked while still open, " ++
      "or a corruption lead"
  | impossibleGeometry field value limit =>
    "geometry field " ++ field ++ " = " ++ value.repr ++ " exceeds the sane bound " ++
      limit.repr ++ " for this image — consistent with corruption or an allocation-bomb"

end AnomalyKind

structure Anomaly where
  severity : Severity
  code : String
  kind : AnomalyKind
  note : String
  deriving DecidableEq

/-- An anomaly with its severity, code and note derived from `kind`. -/
def Anomaly.new (kind : AnomalyKind) : Anomaly where
  severity := kind.severity
  code := kind.code
  kind := kind
  note := kind.note

@[simp] theorem Anomaly.new_kind (kind : AnomalyKind) : (Anomaly.new kind).kind = kind := rfl

/-- The verdict of locating the primary superblock. -/
inductive SbError
  | magicInvalid (offset : ℕ) (bytes : Vector UInt8 4)
  | notUfs
  deriving DecidableEq

/-- The loop of `parsePrimarySb` over the remaining offsets. -/
def tryOffsets (partition : Bytes) : List ℕ → Except SbError Superblock
  | [] => .error .notUfs
  | off :: rest =>
    match partition.getFrom off with
    | none => tryOffsets partition rest
    | some slice =>
      match Superblock.parse slice with
      | .ok sb => .ok sb
      -- a full-sized region with a wrong magic ends the search
      | .error (.badMagic _ bytes _ _) => .error (.magicInvalid (off + FS_MAGIC_OFF) bytes)
      | .error _ => tryOffsets partition rest

/-- Parse the primary superblock at the UFS2, then at the UFS1 offset. -/
def parsePrimarySb (partition : Bytes) : Except SbError Superblock :=
  tryOffsets partition [SBLOCK_UFS2, SBLOCK_UFS1]

/-- The finding for a last group based past the partition, which also stops the audit. -/
def checkImpossibleGeometry (fsize fpg ncg partLen : ℕ) : Option Anomaly :=
  if fsize = 0 ∨ fpg = 0 ∨ ncg = 0 then none
  else
    let cgBytes := satMul fpg fsize
    let lastBase := satMul (ncg - 1) cgBytes
    if lastBase < partLen then none
    else
      let limit := if cgBytes = 0 then 1 else partLen / cgBytes + 1
      some (Anomaly.new (.impossibleGeometry "fs_ncg" ncg limit))

/-- The geometry fields of the backup at `offset` that differ from the primary's. -/
def checkBackupSb (partition : Bytes) (primary : Superblock) (cg : UInt32) (offset : ℕ) :
    List Anomaly :=
  match partition.getFrom offset with
  | none => []
  | some slice =>
    match Superblock.parse slice with
    -- an unparseable backup is left to the check of the header
    | .error _ => []
    | .ok backup =>
      let checks : List (String × ℕ × ℕ) :=
        [("fs_ipg", i32AsU64 primary.ipg, i32AsU64 backup.ipg),
          ("fs_fpg", i32AsU64 primary.fpg, i32AsU64 backup.fpg),
          ("fs_bsize", i32AsU64 primary.bsize, i32AsU64 backup.bsize),
          ("fs_ncg", primary.ncg.toNat, backup.ncg.toNat)]
      checks.filterMap fun (field, p, b) =>
        if p = b then none
        else some (Anomaly.new (.backupSuperblockDivergence cg field p b offset))

/-- The auditor's own bounds-checked little-endian read. -/
def readU32Le (d : Bytes) (o : ℕ) : UInt32 := UInt32.ofNat (Bytes.leNat (d.window o 4) 4)

def readU32Be (d : Bytes) (o : ℕ) : UInt32 := UInt32.ofNat (Bytes.beNat (d.window o 4) 4)

/-- The finding for a header whose magic is wrong in both byte orders. -/
def checkCgMagic (partition : Bytes) (cg : UInt32) (offset : ℕ) : List Anomaly :=
  match partition.getFrom offset with
  | none => []
  | some slice =>
    if slice.len < CG_MAGIC_OFF + 4 then []
    else
      let le := readU32Le slice CG_MAGIC_OFF
      let be := readU32Be slice CG_MAGIC_OFF
      if le ≠ CG_MAGIC ∧ be ≠ CG_MAGIC then [Anomaly.new (.cgMagicInvalid cg le offset)]
      else []

/-- Check every group's backup superblock (from group 1 on) and header magic. -/
def checkAllCgs (partition : Bytes) (sb : Superblock) (fsize fpg sblkno cblkno ncg : ℕ) :
    List Anomaly :=
  if fsize = 0 ∨ fpg = 0 then []
  else
    (List.range ncg).flatMap fun cg =>
      let cgBaseFrag := satMul cg fpg
      (if 1 ≤ cg ∧ 0 < sblkno then
        checkBackupSb partition sb (UInt32.ofNat cg) (satMul (satAdd cgBaseFrag sblkno) fsize)
      else []) ++
      (if 0 < cblkno then
        checkCgMagic partition (UInt32.ofNat cg) (satMul (satAdd cgBaseFrag cblkno) fsize)
      else [])

/-- The used-inode bitmap of group `cg`. -/
def cgInodeBitmap (partition : Bytes) (sb : Superblock) (cg : ℕ) : Option Bytes :=
  if sb.fsize.toInt ≤ 0 ∨ sb.fpg.toInt ≤ 0 ∨ sb.cblkno.toInt < 0 ∨ sb.ipg.toInt ≤ 0 then none
  else
    let fsize := i32AsU64 sb.fsize
    let fpg := i32AsU64 sb.fpg
    let cblkno := i32AsU64 sb.cblkno
    let start := satMul (satAdd (satMul cg fpg) cblkno) fsize
    match partition.getFrom start with
    | none => none
    | some header =>
      match CylinderGroup.parse header sb.endian with
      | .error _ => none
      | .ok cgh =>
        let bmpStart := cgh.inosusedOff
        let bytes := divCeil (i32AsU64 sb.ipg) 8
        header.get bmpStart (satAdd bmpStart bytes)

/-- Bit `idx` of the bitmap, least significant first within each byte. -/
def bitmapBit (bitmap : Bytes) (idx : ℕ) : Bool :=
  idx / 8 < bitmap.len && ((bitmap.byte (idx / 8)).toNat >>> (idx % 8)) &&& 1 == 1

def DOT : List UInt8 := [46]

def DOTDOT : List UInt8 := [46, 46]

/-- A live entry that names a directory by its `d_type`. -/
def isDirEntry (e : DirEntry) : Bool := e.fileType = .directory

/-- The inner loop of `reachableInodes` over the entries of one directory: the state is the
reachable list and the stack of directories to visit, its top first. -/
def markEntries : List DirEntry → List ℕ → List ℕ → List ℕ × List ℕ
  | [], reachable, queue => (reachable, queue)
  | e :: es, reachable, queue =>
    if e.deleted || e.name == DOT || e.name == DOTDOT then markEntries es reachable queue
    else if e.ino ∈ reachable then markEntries es reachable queue
    else
      markEntries es (reachable ++ [e.ino]) (if isDirEntry e then e.ino :: queue else queue)

/-- The outer loop of `reachableInodes`. -/
def reachLoop (partition : Bytes) (sb : Superblock) : ℕ → List ℕ → List ℕ → List ℕ
  | _, reachable, [] => reachable
  -- the budget is spent with directories left to visit
  | 0, reachable, _ :: _ => reachable
  | budget + 1, reachable, dirIno :: queue =>
    match listDirAll partition sb dirIno with
    | .error _ => reachLoop partition sb budget reachable queue
    | .ok entries =>
      let (reachable, queue) := markEntries entries reachable queue
      reachLoop partition sb budget reachable queue

/-- The number of directories a walk of the tree visits at most. -/
def WALK_BUDGET : ℕ := 2 ^ 20

/-- The inodes named by a live entry of a directory reachable from the root, and the root. -/
def reachableInodes (partition : Bytes) (sb : Superblock) : List ℕ :=
  reachLoop partition sb WALK_BUDGET [UFS_ROOTINO] [UFS_ROOTINO]

/-- The finding for one allocated inode that is not reachable. -/
def orphanAt (partition : Bytes) (sb : Superblock) (reachable : List ℕ) (ipg total : ℕ)
    (used : Bytes) (cg within : ℕ) : Option Anomaly :=
  let ino := satAdd (satMul cg ipg) within
  -- the reserved inodes and the root are never orphans
  if ino < UFS_ROOTINO + 1 ∨ total ≤ ino then none
  else if !bitmapBit used within then none
  else if ino ∈ reachable then none
  else
    match readInode partition sb ino with
    | .error _ => none
    | .ok inode =>
      if inode.nlink = 0 then none else some (Anomaly.new (.orphanedInode ino inode.nlink))

/-- Every allocated inode with links that no directory entry names. -/
def checkOrphanedInodes (partition : Bytes) (sb : Superblock) : List Anomaly :=
  let reachable := reachableInodes partition sb
  if sb.ipg.toInt ≤ 0 then []
  else
    let ipg := i32AsU64 sb.ipg
    let ncg := sb.ncg.toNat
    sweep ncg ipg (cgInodeBitmap partition sb)
      (orphanAt partition sb reachable ipg (satMul ipg ncg))

/-- `auditImage` from the point where the superblock is known. -/
def auditFrom (partition : Bytes) (sb : Superblock) : List Anomaly :=
  let fsize := if 0 < sb.fsize.toInt then i32AsU64 sb.fsize else 0
  let fpg := if 0 < sb.fpg.toInt then i32AsU64 sb.fpg else 0
  let sblkno := if 0 ≤ sb.sblkno.toInt then i32AsU64 sb.sblkno else 0
  let cblkno := if 0 ≤ sb.cblkno.toInt then i32AsU64 sb.cblkno else 0
  let ncg := sb.ncg.toNat
  match checkImpossibleGeometry fsize fpg ncg partition.len with
  | some finding => [finding]
  | none =>
    checkAllCgs partition sb fsize fpg sblkno cblkno ncg ++ checkOrphanedInodes partition sb

def auditImage (partition : Bytes) : List Anomaly :=
  match parsePrimarySb partition with
  | .ok sb => auditFrom partition sb
  | .error (.magicInvalid offset bytes) => [Anomaly.new (.superblockMagicInvalid offset bytes)]
  | .error .notUfs => []

section Kinds

variable {partition : Bytes} {sb : Superblock} {a : Anomaly}

theorem checkImpossibleGeometry_kind {fsize fpg ncg len : ℕ}
    (h : checkImpossibleGeometry fsize fpg ncg len = some a) :
    ∃ limit, a.kind = .impossibleGeometry "fs_ncg" ncg limit := by
  unfold checkImpossibleGeometry at h
  dsimp only at h
  split_ifs at h
  · exact ⟨_, by rw [← Option.some.inj h]; rfl⟩
  · exact ⟨_, by rw [← Option.some.inj h]; rfl⟩

theorem checkBackupSb_kind {cg : UInt32} {off : ℕ} (h : a ∈ checkBackupSb partition sb cg off) :
    ∃ field primary backup, a.kind = .backupSuperblockDivergence cg field primary backup off := by
  unfold checkBackupSb at h
  split at h
  · exact absurd h List.not_mem_nil
  split at h
  · exact absurd h List.not_mem_nil
  obtain ⟨⟨field, primary, backup⟩, -, hx⟩ := List.mem_filterMap.mp h
  dsimp only at hx
  split_ifs at hx
  exact ⟨field, primary, backup, by rw [← Option.some.inj hx]; rfl⟩

theorem checkCgMagic_kind {cg : UInt32} {off : ℕ} (h : a ∈ checkCgMagic partition cg off) :
    ∃ found, a.kind = .cgMagicInvalid cg found off := by
  unfold checkCgMagic at h
  split at h
  · exact absurd h List.not_mem_nil
  dsimp only at h
  split_ifs at h
  · exact absurd h List.not_mem_nil
  · rw [List.mem_singleton.mp h]
    exact ⟨_, rfl⟩
  · exact absurd h List.not_mem_nil

theorem mem_checkAllCgs {fsize fpg sblkno cblkno ncg : ℕ} :
    a ∈ checkAllCgs partition sb fsize fpg sblkno cblkno ncg ↔
      0 < fsize ∧ 0 < fpg ∧ ∃ cg < ncg,
        (1 ≤ cg ∧ 0 < sblkno ∧ a ∈ checkBackupSb partition sb (UInt32.ofNat cg)
          (satMul (satAdd (satMul cg fpg) sblkno) fsize)) ∨
        (0 < cblkno ∧ a ∈ checkCgMagic partition (UInt32.ofNat cg)
          (satMul (satAdd (satMul cg fpg) cblkno) fsize)) := by
  unfold checkAllCgs
  by_cases h : fsize = 0 ∨ fpg = 0
  · rw [if_pos h]
    constructor
    · intro ha
      exact absurd ha List.not_mem_nil
    · intro ha
      omega
  · rw [if_neg h]
    simp only [List.mem_flatMap, List.mem_range, List.mem_append, List.mem_ite_nil_right, and_assoc]
    constructor
    · intro ha
      exact ⟨by omega, by omega, ha⟩
    · intro ha
      exact ha.2.2

theorem orphanAt_kind {reachable : List ℕ} {ipg total cg within : ℕ} {used : Bytes}
    (h : orphanAt partition sb reachable ipg total used cg within = some a) :
    ∃ nlink, a.kind = .orphanedInode (satAdd (satMul cg ipg) within) nlink := by
  unfold orphanAt at h
  dsimp only at h
  split_ifs at h
  split at h
  · exact nomatch h
  · split_ifs at h
    exact ⟨_, by rw [← Option.some.inj h]; rfl⟩

theorem checkOrphanedInodes_kind (h : a ∈ checkOrphanedInodes partition sb) :
    ∃ inode nlink, a.kind = .orphanedInode inode nlink := by
  unfold checkOrphanedInodes at h
  dsimp only at h
  split_ifs at h
  · exact absurd h List.not_mem_nil
  obtain ⟨_, _, _, _, _, _, hx⟩ := mem_sweep.mp h
  obtain ⟨nlink, hk⟩ := orphanAt_kind hx
  exact ⟨_, nlink, hk⟩

/-- An audit that has a superblock never doubts its magic. -/
theorem auditFrom_kind_ne (h : a ∈ auditFrom partition sb) (offset : ℕ)
    (bytes : Vector UInt8 4) : a.kind ≠ .superblockMagicInvalid offset bytes := by
  intro hk
  unfold auditFrom at h
  dsimp only at h
  split at h
  · next finding hfind =>
    rw [List.mem_singleton.mp h] at hk
    obtain ⟨_, hg⟩ := checkImpossibleGeometry_kind hfind
    rw [hg] at hk
    exact nomatch hk
  rcases List.mem_append.mp h with h | h
  · obtain ⟨-, -, cg, -, ⟨-, -, h⟩ | ⟨-, h⟩⟩ := mem_checkAllCgs.mp h
    · obtain ⟨_, _, _, hg⟩ := checkBackupSb_kind h
      rw [hg] at hk
      exact nomatch hk
    · obtain ⟨_, hg⟩ := checkCgMagic_kind h
      rw [hg] at hk
      exact nomatch hk
  · obtain ⟨_, _, hg⟩ := checkOrphanedInodes_kind h
    rw [hg] at hk
    exact nomatch hk

end Kinds

/-- The geometry passes `checkImpossibleGeometry`, so the audit goes on to the groups. -/
def GeometryPossible (partition : Bytes) (sb : Superblock) : Prop :=
  checkImpossibleGeometry (if 0 < sb.fsize.toInt then i32AsU64 sb.fsize else 0)
    (if 0 < sb.fpg.toInt then i32AsU64 sb.fpg else 0) sb.ncg.toNat partition.len = none

instance (partition : Bytes) (sb : Superblock) : Decidable (GeometryPossible partition sb) :=
  inferInstanceAs (Decidable (checkImpossibleGeometry _ _ _ _ = none))

theorem mem_auditImage_iff {partition : Bytes} {sb : Superblock}
    (hp : parsePrimarySb partition = .ok sb) (hg : GeometryPossible partition sb) {a : Anomaly} :
    a ∈ auditImage partition ↔
      a ∈ checkAllCgs partition sb (if 0 < sb.fsize.toInt then i32AsU64 sb.fsize else 0)
        (if 0 < sb.fpg.toInt then i32AsU64 sb.fpg else 0)
        (if 0 ≤ sb.sblkno.toInt then i32AsU64 sb.sblkno else 0)
        (if 0 ≤ sb.cblkno.toInt then i32AsU64 sb.cblkno else 0) sb.ncg.toNat ∨
      a ∈ checkOrphanedInodes partition sb := by
  unfold GeometryPossible at hg
  rw [auditImage, hp]
  simp only [auditFrom, hg, List.mem_append]

end UfsForensic
