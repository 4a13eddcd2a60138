import UfsForensic.CheckedReader
import UfsForensic.Recover

/-!
# The auditor and the recovery with checked arithmetic

The functions that audit an image and recover from it once more, with the operations that the
source does not write as saturating checked. None of them fails either, whatever the bytes: the
superblock's geometry, the pointers and the sizes on the image are never trusted.
-/

namespace UfsForensic.Checked

variable {partition : Bytes} {sb : Superblock}

def magicBytes (data : Bytes) : Checked (Vector UInt8 4) :=
  Vector.ofFnM fun i : Fin 4 => do
    let off ← add FS_MAGIC_OFF i
    return u8At data off

def parseSuperblock (data : Bytes) : Checked (Except UfsError Superblock) :=
  if data.len < SB_MIN_LEN then return .error (.truncated "superblock" SB_MIN_LEN data.len)
  else do
    let bytes ← magicBytes data
    let le := Superblock.fromLeBytes bytes
    let be := Superblock.fromBeBytes bytes
    match Superblock.detect le be with
    | none => return .error (.badMagic FS_MAGIC_OFF bytes le be)
    | some (version, endian) =>
      let sb := Superblock.decode data version endian
      match sb.validateGeometry with
      | .error e => return .error e
      | .ok () => return .ok sb

def tryOffsets (partition : Bytes) : List ℕ → Checked (Except SbError Superblock)
  | [] => return .error .notUfs
  | off :: rest =>
    match partition.getFrom off with
    | none => tryOffsets partition rest
    | some slice => do
      match ← parseSuperblock slice with
      | .ok sb => return .ok sb
      | .error (.badMagic _ bytes _ _) =>
        let offset ← add off FS_MAGIC_OFF
        return .error (.magicInvalid offset bytes)
      | .error _ => tryOffsets partition rest

def parsePrimarySb (partition : Bytes) : Checked (Except SbError Superblock) :=
  tryOffsets partition [SBLOCK_UFS2, SBLOCK_UFS1]

theorem parseSuperblock_eq_ok (data : Bytes) :
    parseSuperblock data = .ok (Superblock.parse data) := by
  have hmagic : magicBytes data = .ok (Superblock.magicBytes data) := by
    apply ofFnM_eq_ok
    intro i
    rw [add_eq_ok (by have := i.isLt; unfold FS_MAGIC_OFF u64Max; omega), ok_bind, pure_eq_ok]
  unfold parseSuperblock Superblock.parse
  split_ifs
  · rfl
  · rw [hmagic, ok_bind]
    dsimp only
    generalize Superblock.detect _ _ = found
    rcases found with _ | ⟨version, endian⟩
    · rfl
    · dsimp only
      cases (Superblock.decode data version endian).validateGeometry with
      | error e => rfl
      | ok _ => rfl

/-- An offset inside the partition is far from the top of the address space. -/
theorem tryOffsets_eq_ok (offs : List ℕ) :
    tryOffsets partition offs = .ok (UfsForensic.tryOffsets partition offs) := by
  have hlen := partition.len_lt
  induction offs with
  | nil => rfl
  | cons off rest ih =>
    rw [tryOffsets, UfsForensic.tryOffsets]
    by_cases hoff : off ≤ partition.len
    · rw [Bytes.getFrom_eq_some hoff]
      dsimp only
      rw [parseSuperblock_eq_ok, ok_bind]
      rcases Superblock.parse _ with e | sb
      · cases e with
        | badMagic offset bytes le be =>
          dsimp only
          rw [add_eq_ok (by unfold FS_MAGIC_OFF u64Max; omega), ok_bind, pure_eq_ok]
        | _ => exact ih
      · rfl
    · rw [Bytes.getFrom_eq_none (Nat.not_le.mp hoff)]
      exact ih

def checkImpossibleGeometry (fsize fpg ncg partLen : ℕ) : Checked (Option Anomaly) :=
  if fsize = 0 ∨ fpg = 0 ∨ ncg = 0 then return none
  else
    let cgBytes := satMul fpg fsize
    let lastBase := satMul (ncg - 1) cgBytes
    if lastBase < partLen then return none
    else do
      let limit ← if cgBytes = 0 then pure 1 else add (partLen / cgBytes) 1
      return some (Anomaly.new (.impossibleGeometry "fs_ncg" ncg limit))

def checkBackupSb (partition : Bytes) (primary : Superblock) (cg : UInt32) (offset : ℕ) :
    Checked (List Anomaly) :=
  match partition.getFrom offset with
  | none => return []
  | some slice => do
    match ← parseSuperblock slice with
    | .error _ => return []
    | .ok backup =>
      let checks : List (String × ℕ × ℕ) :=
        [("fs_ipg", i32AsU64 primary.ipg, i32AsU64 backup.ipg),
          ("fs_fpg", i32AsU64 primary.fpg, i32AsU64 backup.fpg),
          ("fs_bsize", i32AsU64 primary.bsize, i32AsU64 backup.bsize),
          ("fs_ncg", primary.ncg.toNat, backup.ncg.toNat)]
      return checks.filterMap fun (field, p, b) =>
        if p = b then none
        else some (Anomaly.new (.backupSuperblockDivergence cg field p b offset))

def checkCgMagic (partition : Bytes) (cg : UInt32) (offset : ℕ) : Checked (List Anomaly) :=
  match partition.getFrom offset with
  | none => return []
  | some slice => do
    let need ← add CG_MAGIC_OFF 4
    if slice.len < need then return []
    else
      let le := readU32Le slice CG_MAGIC_OFF
      let be := readU32Be slice CG_MAGIC_OFF
      if le ≠ CG_MAGIC ∧ be ≠ CG_MAGIC then return [Anomaly.new (.cgMagicInvalid cg le offset)]
      else return []

def checkAllCgs (partition : Bytes) (sb : Superblock) (fsize fpg sblkno cblkno ncg : ℕ) :
    Checked (List Anomaly) :=
  if fsize = 0 ∨ fpg = 0 then return []
  else do
    let found ← (List.range ncg).mapM fun cg => do
      let cgBaseFrag := satMul cg fpg
      let divergence ← if 1 ≤ cg ∧ 0 < sblkno then
          checkBackupSb partition sb (UInt32.ofNat cg) (satMul (satAdd cgBaseFrag sblkno) fsize)
        else pure []
      let magic ← if 0 < cblkno then
          checkCgMagic partition (UInt32.ofNat cg) (satMul (satAdd cgBaseFrag cblkno) fsize)
        else pure []
      return divergence ++ magic
    return found.flatten

theorem checkImpossibleGeometry_eq_ok {fsize fpg ncg partLen : ℕ} (h : partLen < u64Max) :
    checkImpossibleGeometry fsize fpg ncg partLen =
      .ok (UfsForensic.checkImpossibleGeometry fsize fpg ncg partLen) := by
  have hle : partLen / satMul fpg fsize ≤ partLen := Nat.div_le_self _ _
  unfold checkImpossibleGeometry UfsForensic.checkImpossibleGeometry
  dsimp only
  split_ifs
  · rfl
  · rfl
  · rfl
  · rw [add_eq_ok (by omega), ok_bind, pure_eq_ok]

theorem checkBackupSb_eq_ok (cg : UInt32) (offset : ℕ) :
    checkBackupSb partition sb cg offset =
      .ok (UfsForensic.checkBackupSb partition sb cg offset) := by
  unfold checkBackupSb UfsForensic.checkBackupSb
  cases partition.getFrom offset with
  | none => rfl
  | some slice =>
    dsimp only
    rw [parseSuperblock_eq_ok, ok_bind]
    cases Superblock.parse slice with
    | error e => rfl
    | ok backup => rfl

theorem checkCgMagic_eq_ok (cg : UInt32) (offset : ℕ) :
    checkCgMagic partition cg offset = .ok (UfsForensic.checkCgMagic partition cg offset) := by
  unfold checkCgMagic UfsForensic.checkCgMagic
  cases partition.getFrom offset with
  | none => rfl
  | some slice =>
    dsimp only
    rw [add_eq_ok (by decide), ok_bind]
    split_ifs
    · rfl
    · rfl
    · rfl

theorem checkAllCgs_eq_ok (fsize fpg sblkno cblkno ncg : ℕ) :
    checkAllCgs partition sb fsize fpg sblkno cblkno ncg =
      .ok (UfsForensic.checkAllCgs partition sb fsize fpg sblkno cblkno ncg) := by
  unfold checkAllCgs UfsForensic.checkAllCgs
  by_cases h : fsize = 0 ∨ fpg = 0
  · rw [if_pos h, if_pos h, pure_eq_ok]
  rw [if_neg h, if_neg h, List.flatMap, mapM_eq_ok, ok_bind, pure_eq_ok]
  intro cg _
  simp only [checkBackupSb_eq_ok, checkCgMagic_eq_ok]
  split_ifs <;> rfl

def cgInodeBitmap (partition : Bytes) (sb : Superblock) (cg : ℕ) : Checked (Option Bytes) :=
  if sb.fsize.toInt ≤ 0 ∨ sb.fpg.toInt ≤ 0 ∨ sb.cblkno.toInt < 0 ∨ sb.ipg.toInt ≤ 0 then
    return none
  else
    let fsize := i32AsU64 sb.fsize
    let fpg := i32AsU64 sb.fpg
    let cblkno := i32AsU64 sb.cblkno
    let start := satMul (satAdd (satMul cg fpg) cblkno) fsize
    match partition.getFrom start with
    | none => return none
    | some header =>
      match CylinderGroup.parse header sb.endian with
      | .error _ => return none
      | .ok cgh => do
        let bmpStart := cgh.inosusedOff
        let bytes ← divCeil (i32AsU64 sb.ipg) 8
        return header.get bmpStart (satAdd bmpStart bytes)

def bitmapBit (bitmap : Bytes) (idx : ℕ) : Checked Bool := do
  let byte ← div idx 8
  let bit ← rem idx 8
  if byte < bitmap.len then
    let shifted ← shrByte (bitmap.byte byte) bit
    return shifted &&& 1 == 1
  else return false

theorem i32AsU64_lt_u64Max {x : Int32} (h : 0 < x.toInt) : i32AsU64 x < u64Max := by
  rw [i32AsU64_of_nonneg h.le]
  have := x.toInt_lt
  unfold u64Max
  omega

theorem cgInodeBitmap_eq_ok (cg : ℕ) :
    cgInodeBitmap partition sb cg = .ok (UfsForensic.cgInodeBitmap partition sb cg) := by
  unfold cgInodeBitmap UfsForensic.cgInodeBitmap
  by_cases h : sb.fsize.toInt ≤ 0 ∨ sb.fpg.toInt ≤ 0 ∨ sb.cblkno.toInt < 0 ∨ sb.ipg.toInt ≤ 0
  · rw [if_pos h, if_pos h, pure_eq_ok]
  rw [if_neg h, if_neg h]
  dsimp only
  generalize partition.getFrom _ = located
  cases located with
  | none => rfl
  | some header =>
    dsimp only
    cases CylinderGroup.parse header sb.endian with
    | error e => rfl
    | ok cgh =>
      dsimp only
      rw [divCeil_eq_ok (by norm_num) (i32AsU64_lt_u64Max (by omega)), ok_bind, pure_eq_ok]
      rfl

/-- A remainder by eight is a shift that a byte has. -/
theorem bitmapBit_eq_ok (bitmap : Bytes) (idx : ℕ) :
    bitmapBit bitmap idx = .ok (UfsForensic.bitmapBit bitmap idx) := by
  unfold bitmapBit UfsForensic.bitmapBit
  rw [div_eq_ok (by norm_num), ok_bind, rem_eq_ok (by norm_num), ok_bind,
    shrByte_eq_ok (Nat.mod_lt idx (by norm_num))]
  by_cases h : idx / 8 < bitmap.len
  · simp [h]
  · simp [h]

def reachLoop (partition : Bytes) (sb : Superblock) (budget : ℕ) (reachable : List ℕ) :
    List ℕ → Checked (List ℕ)
  | [] => return reachable
  | dirIno :: queue =>
    if budget = 0 then return reachable
    else
      match _hleft : sub budget 1 with
      | .error e => .error e
      | .ok left => do
        match ← listDirAll partition sb dirIno with
        | .error _ => reachLoop partition sb left reachable queue
        | .ok entries =>
          let (reachable, queue) := markEntries entries reachable queue
          reachLoop partition sb left reachable queue
termination_by budget
decreasing_by
  all_goals
    have := of_sub_eq_ok _hleft
    omega

def reachableInodes (partition : Bytes) (sb : Superblock) : Checked (List ℕ) :=
  reachLoop partition sb WALK_BUDGET [UFS_ROOTINO] [UFS_ROOTINO]

def collectLoop (partition : Bytes) (sb : Superblock) (budget : ℕ) (visited : List ℕ)
    (queue : List ℕ) (deleted : List (String × ℕ)) : Checked (List (String × ℕ)) :=
  match queue with
  | [] => return deleted
  | dirIno :: queue =>
    if budget = 0 then return deleted
    else
      match _hleft : sub budget 1 with
      | .error e => .error e
      | .ok left =>
        if dirIno ∈ visited then collectLoop partition sb left visited queue deleted
        else do
          match ← listDirAll partition sb dirIno with
          | .error _ => collectLoop partition sb left (visited ++ [dirIno]) queue deleted
          | .ok entries =>
            let (queue, deleted) := collectEntries entries queue deleted
            collectLoop partition sb left (visited ++ [dirIno]) queue deleted
termination_by budget
decreasing_by
  all_goals
    have := of_sub_eq_ok _hleft
    omega

def collectDeletedDirents (partition : Bytes) (sb : Superblock) : Checked (List (String × ℕ)) :=
  collectLoop partition sb WALK_BUDGET [] [UFS_ROOTINO] []

/-- The budget is only counted down after the test that it is not used up. -/
theorem reachLoop_eq_ok (budget : ℕ) (reachable queue : List ℕ) :
    reachLoop partition sb budget reachable queue =
      .ok (UfsForensic.reachLoop partition sb budget reachable queue) := by
  induction budget generalizing reachable queue with
  | zero =>
    cases queue with
    | nil => rw [reachLoop, UfsForensic.reachLoop, pure_eq_ok]
    | cons dirIno queue => rw [reachLoop, UfsForensic.reachLoop, if_pos rfl, pure_eq_ok]
  | succ budget ih =>
    cases queue with
    | nil => rw [reachLoop, UfsForensic.reachLoop, pure_eq_ok]
    | cons dirIno queue =>
      rw [reachLoop, UfsForensic.reachLoop, if_neg (Nat.succ_ne_zero budget)]
      split
      · next e he =>
        rw [sub_eq_ok (Nat.le_add_left 1 budget)] at he
        exact nomatch he
      · next left hleft =>
        obtain rfl : left = budget := by
          have := of_sub_eq_ok hleft
          omega
        rw [listDirAll_eq_ok, ok_bind]
        cases UfsForensic.listDirAll partition sb dirIno with
        | error e => exact ih _ _
        | ok entries => exact ih _ _

theorem collectLoop_eq_ok (budget : ℕ) (visited queue : List ℕ) (deleted : List (String × ℕ)) :
    collectLoop partition sb budget visited queue deleted =
      .ok (UfsForensic.collectLoop partition sb budget visited queue deleted) := by
  induction budget generalizing visited queue deleted with
  | zero =>
    cases queue with
    | nil => rw [collectLoop, UfsForensic.collectLoop, pure_eq_ok]
    | cons dirIno queue => rw [collectLoop, UfsForensic.collectLoop, if_pos rfl, pure_eq_ok]
  | succ budget ih =>
    cases queue with
    | nil => rw [collectLoop, UfsForensic.collectLoop, pure_eq_ok]
    | cons dirIno queue =>
      rw [collectLoop, UfsForensic.collectLoop, if_neg (Nat.succ_ne_zero budget)]
      split
      · next e he =>
        rw [sub_eq_ok (Nat.le_add_left 1 budget)] at he
        exact nomatch he
      · next left hleft =>
        obtain rfl : left = budget := by
          have := of_sub_eq_ok hleft
          omega
        by_cases hvisited : dirIno ∈ visited
        · rw [if_pos hvisited, if_pos hvisited]
          exact ih _ _ _
        rw [if_neg hvisited, if_neg hvisited, listDirAll_eq_ok, ok_bind]
        cases UfsForensic.listDirAll partition sb dirIno with
        | error e => exact ih _ _ _
        | ok entries => exact ih _ _ _

section Sweep

variable {β γ : Type}

def sweep (groups width : ℕ) (load : ℕ → Checked (Option β))
    (visit : β → ℕ → ℕ → Checked (Option γ)) : Checked (List γ) := do
  let found ← (List.range groups).mapM fun g => do
    match ← load g with
    | none => return []
    | some b =>
      let cells ← (List.range width).mapM (visit b g)
      return cells.filterMap id
  return found.flatten

theorem sweep_eq_ok {load : ℕ → Checked (Option β)} {load' : ℕ → Option β}
    {visit : β → ℕ → ℕ → Checked (Option γ)} {visit' : β → ℕ → ℕ → Option γ} (groups width : ℕ)
    (hload : ∀ g, load g = .ok (load' g)) (hvisit : ∀ b g w, visit b g w = .ok (visit' b g w)) :
    sweep groups width load visit = .ok (UfsForensic.sweep groups width load' visit') := by
  unfold sweep UfsForensic.sweep
  rw [List.flatMap, mapM_eq_ok, ok_bind, pure_eq_ok]
  intro g _
  rw [hload, ok_bind, visitGroup]
  cases load' g with
  | none => rfl
  | some b =>
    dsimp only
    rw [mapM_eq_ok fun w _ => hvisit b g w, ok_bind, pure_eq_ok, List.filterMap_map]
    rfl

end Sweep

def orphanAt (partition : Bytes) (sb : Superblock) (reachable : List ℕ) (ipg total : ℕ)
    (used : Bytes) (cg within : ℕ) : Checked (Option Anomaly) := do
  let ino := satAdd (satMul cg ipg) within
  let firstIno ← add UFS_ROOTINO 1
  if ino < firstIno ∨ total ≤ ino then return none
  else if !(← bitmapBit used within) then return none
  else if ino ∈ reachable then return none
  else
    match ← readInode partition sb ino with
    | .error _ => return none
    | .ok inode =>
      if inode.nlink = 0 then return none
      else return some (Anomaly.new (.orphanedInode ino inode.nlink))

def checkOrphanedInodes (partition : Bytes) (sb : Superblock) : Checked (List Anomaly) := do
  let reachable ← reachableInodes partition sb
  if sb.ipg.toInt ≤ 0 then return []
  else
    let ipg := i32AsU64 sb.ipg
    let ncg := sb.ncg.toNat
    sweep ncg ipg (cgInodeBitmap partition sb)
      (orphanAt partition sb reachable ipg (satMul ipg ncg))

theorem orphanAt_eq_ok (reachable : List ℕ) (ipg total : ℕ) (used : Bytes) (cg within : ℕ) :
    orphanAt partition sb reachable ipg total used cg within =
      .ok (UfsForensic.orphanAt partition sb reachable ipg total used cg within) := by
  unfold orphanAt UfsForensic.orphanAt
  dsimp only
  rw [add_eq_ok (by decide), ok_bind]
  generalize satAdd (satMul cg ipg) within = ino
  by_cases hreserved : ino < UFS_ROOTINO + 1 ∨ total ≤ ino
  · rw [if_pos hreserved, if_pos hreserved, pure_eq_ok]
  rw [if_neg hreserved, if_neg hreserved, bitmapBit_eq_ok, ok_bind, readInode_eq_ok, ok_bind]
  split_ifs
  · rfl
  · rfl
  · cases UfsForensic.readInode partition sb ino with
    | error e => rfl
    | ok inode =>
      dsimp only
      split_ifs <;> rfl

theorem checkOrphanedInodes_eq_ok :
    checkOrphanedInodes partition sb = .ok (UfsForensic.checkOrphanedInodes partition sb) := by
  unfold checkOrphanedInodes UfsForensic.checkOrphanedInodes reachableInodes
  rw [reachLoop_eq_ok, ok_bind]
  dsimp only
  split_ifs
  · rfl
  · exact sweep_eq_ok _ _ cgInodeBitmap_eq_ok (orphanAt_eq_ok _ _ _)

section Digest

variable (sha256 : Bytes → Vector UInt8 32)

def carveAt (partition : Bytes) (sb : Superblock) (deletedNames : List (String × ℕ))
    (ipg total : ℕ) (used : Bytes) (cg within : ℕ) : Checked (Option RecoveredItem) := do
  let ino := satAdd (satMul cg ipg) within
  let firstIno ← add UFS_ROOTINO 1
  if ino < firstIno ∨ total ≤ ino then return none
  else if ← bitmapBit used within then return none
  else
    match ← readInode partition sb ino with
    | .error _ => return none
    | .ok inode =>
      let firstBlock ← index inode.direct 0
      if !inode.isRegular ∨ inode.size = 0 ∨ firstBlock = 0 then return none
      else
        match ← readFile partition sb ino with
        | .error _ => return none
        | .ok content =>
          if content.len = 0 then return none
          else
            let name := (deletedNames.find? fun d => d.2 == ino).map fun d => d.1
            return some
              (.deletedFile name ino inode.size.toNat content (sha256Hex sha256 content))

def carveDeletedInodes (partition : Bytes) (sb : Superblock) (deletedNames : List (String × ℕ)) :
    Checked (List RecoveredItem) :=
  if sb.ipg.toInt ≤ 0 then return []
  else
    let ipg := i32AsU64 sb.ipg
    let ncg := sb.ncg.toNat
    sweep ncg ipg (cgInodeBitmap partition sb)
      (carveAt sha256 partition sb deletedNames ipg (satMul ipg ncg))

theorem index_firstBlock (inode : Inode) : index inode.direct 0 = .ok inode.firstBlock := rfl

theorem carveAt_eq_ok (deletedNames : List (String × ℕ)) (ipg total : ℕ) (used : Bytes)
    (cg within : ℕ) :
    carveAt sha256 partition sb deletedNames ipg total used cg within =
      .ok (UfsForensic.carveAt sha256 partition sb deletedNames ipg total used cg within) := by
  unfold carveAt UfsForensic.carveAt
  dsimp only
  rw [add_eq_ok (by decide), ok_bind]
  generalize satAdd (satMul cg ipg) within = ino
  by_cases hreserved : ino < UFS_ROOTINO + 1 ∨ total ≤ ino
  · rw [if_pos hreserved, if_pos hreserved, pure_eq_ok]
  rw [if_neg hreserved, if_neg hreserved, bitmapBit_eq_ok, ok_bind, readInode_eq_ok, ok_bind]
  by_cases hused : UfsForensic.bitmapBit used within = true
  · rw [if_pos hused, if_pos hused, pure_eq_ok]
  rw [if_neg hused, if_neg hused]
  cases UfsForensic.readInode partition sb ino with
  | error e => rfl
  | ok inode =>
    dsimp only
    rw [index_firstBlock, ok_bind, readFile_eq_ok, ok_bind]
    split_ifs
    · rfl
    · cases UfsForensic.readFile partition sb ino with
      | error e => rfl
      | ok content =>
        dsimp only
        split_ifs <;> rfl

theorem carveDeletedInodes_eq_ok (deletedNames : List (String × ℕ)) :
    carveDeletedInodes sha256 partition sb deletedNames =
      .ok (UfsForensic.carveDeletedInodes sha256 partition sb deletedNames) := by
  unfold carveDeletedInodes UfsForensic.carveDeletedInodes
  split_ifs
  · rfl
  · exact sweep_eq_ok _ _ cgInodeBitmap_eq_ok (carveAt_eq_ok sha256 _ _ _)

end Digest

def auditFrom (partition : Bytes) (sb : Superblock) : Checked (List Anomaly) := do
  let fsize := if 0 < sb.fsize.toInt then i32AsU64 sb.fsize else 0
  let fpg := if 0 < sb.fpg.toInt then i32AsU64 sb.fpg else 0
  let sblkno := if 0 ≤ sb.sblkno.toInt then i32AsU64 sb.sblkno else 0
  let cblkno := if 0 ≤ sb.cblkno.toInt then i32AsU64 sb.cblkno else 0
  let ncg := sb.ncg.toNat
  match ← checkImpossibleGeometry fsize fpg ncg partition.len with
  | some finding => return [finding]
  | none =>
    let groups ← checkAllCgs partition sb fsize fpg sblkno cblkno ncg
    let orphans ← checkOrphanedInodes partition sb
    return groups ++ orphans

def auditImage (partition : Bytes) : Checked (List Anomaly) := do
  match ← parsePrimarySb partition with
  | .ok sb => auditFrom partition sb
  | .error (.magicInvalid offset bytes) =>
    return [Anomaly.new (.superblockMagicInvalid offset bytes)]
  | .error .notUfs => return []

def recoverFrom (sha256 : Bytes → Vector UInt8 32) (partition : Bytes) (sb : Superblock) :
    Checked (List RecoveredItem) := do
  let deletedNames ← collectDeletedDirents partition sb
  let carved ← carveDeletedInodes sha256 partition sb deletedNames
  return deletedNames.map (fun d => .deletedDirent d.1 d.2) ++ carved

def recoverDeleted (sha256 : Bytes → Vector UInt8 32) (partition : Bytes) :
    Checked (List RecoveredItem) := do
  match ← parsePrimarySb partition with
  | .error _ => return []
  | .ok sb => recoverFrom sha256 partition sb

theorem auditFrom_eq_ok : auditFrom partition sb = .ok (UfsForensic.auditFrom partition sb) := by
  unfold auditFrom UfsForensic.auditFrom
  dsimp only
  rw [checkImpossibleGeometry_eq_ok partition.len_lt_u64Max, ok_bind]
  cases UfsForensic.checkImpossibleGeometry _ _ sb.ncg.toNat partition.len with
  | some finding => rfl
  | none =>
    dsimp only
    rw [checkAllCgs_eq_ok, ok_bind, checkOrphanedInodes_eq_ok, ok_bind, pure_eq_ok]

theorem auditImage_eq_ok (partition : Bytes) :
    auditImage partition = .ok (UfsForensic.auditImage partition) := by
  unfold auditImage UfsForensic.auditImage parsePrimarySb
  rw [tryOffsets_eq_ok, ok_bind, UfsForensic.parsePrimarySb]
  rcases UfsForensic.tryOffsets partition _ with (_ | _) | sb
  · rfl
  · rfl
  · exact auditFrom_eq_ok

theorem recoverDeleted_eq_ok (sha256 : Bytes → Vector UInt8 32) (partition : Bytes) :
    recoverDeleted sha256 partition = .ok (UfsForensic.recoverDeleted sha256 partition) := by
  unfold recoverDeleted UfsForensic.recoverDeleted parsePrimarySb
  rw [tryOffsets_eq_ok, ok_bind, UfsForensic.parsePrimarySb]
  rcases UfsForensic.tryOffsets partition _ with e | sb
  · rfl
  · dsimp only
    unfold recoverFrom collectDeletedDirents
    rw [collectLoop_eq_ok, ok_bind, carveDeletedInodes_eq_ok, ok_bind]
    rfl

/-- No operation of the pipeline fails on any bytes, superblock, inode number or path: every
checked function returns, and returns what the plain one computes. -/
theorem pipeline_never_fails (sha256 : Bytes → Vector UInt8 32) (partition : Bytes) :
    auditImage partition = .ok (UfsForensic.auditImage partition) ∧
      recoverDeleted sha256 partition = .ok (UfsForensic.recoverDeleted sha256 partition) ∧
      (∀ sb ino, listDirAll partition sb ino = .ok (UfsForensic.listDirAll partition sb ino)) ∧
      (∀ sb path, readByPath partition sb path = .ok (UfsForensic.readByPath partition sb path)) ∧
      (∀ sb ino, readFile partition sb ino = .ok (UfsForensic.readFile partition sb ino)) ∧
      (∀ sb path, readPathContent partition sb path =
        .ok (UfsForensic.readPathContent partition sb path)) ∧
      (∀ sb inode, readSymlinkTarget partition sb inode =
        .ok (UfsForensic.readSymlinkTarget partition sb inode)) ∧
      ∀ (data : Bytes) off n, window data off n = .ok (data.window off n) :=
  ⟨auditImage_eq_ok partition, recoverDeleted_eq_ok sha256 partition,
    fun _ ino => listDirAll_eq_ok ino, fun _ path => readByPath_eq_ok path,
    fun sb ino => @readFile_eq_ok partition sb ino, fun _ path => readPathContent_eq_ok path,
    fun _ inode => readSymlinkTarget_eq_ok inode, window_eq_ok⟩

end UfsForensic.Checked
