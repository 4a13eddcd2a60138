import UfsForensic.Carve
import UfsForensic.OrphanedInodes

/-!
# The two inode sweeps

The auditor sweeps the inodes in use for orphans, the recovery the free ones for deleted files. Both
go through the cells of the inode tables in order and look at the same bitmap bit, so neither reports
an inode twice and none is reported by both.
-/

namespace UfsForensic

def Anomaly.orphanIno (a : Anomaly) : Option ℕ :=
  match a.kind with
  | .orphanedInode inode _ => some inode
  | _ => none

def RecoveredItem.fileIno : RecoveredItem → Option ℕ
  | deletedFile _ inode _ _ _ => some inode
  | deletedDirent _ _ => none

/-- The inodes that the audit of `p` reports as orphaned, in the order of the findings. -/
def orphanInos (p : Bytes) : List ℕ := (auditImage p).filterMap Anomaly.orphanIno

/-- The inodes that the recovery from `p` gives a deleted file for, in the order of the items. -/
def deletedFileInos (sha256 : Bytes → Vector UInt8 32) (p : Bytes) : List ℕ :=
  (recoverDeleted sha256 p).filterMap RecoveredItem.fileIno

variable {sha256 : Bytes → Vector UInt8 32} {p : Bytes} {sb : Superblock}

theorem checkAllCgs_orphanIno {fsize fpg sblkno cblkno ncg : ℕ} :
    (checkAllCgs p sb fsize fpg sblkno cblkno ncg).filterMap Anomaly.orphanIno = [] := by
  rw [List.filterMap_eq_nil_iff]
  intro a ha
  obtain ⟨-, -, cg, -, ⟨-, -, ha⟩ | ⟨-, ha⟩⟩ := mem_checkAllCgs.mp ha
  · obtain ⟨_, _, _, hk⟩ := checkBackupSb_kind ha
    rw [Anomaly.orphanIno, hk]
  · obtain ⟨_, hk⟩ := checkCgMagic_kind ha
    rw [Anomaly.orphanIno, hk]

/-- The orphans are those of the sweep, or none when the audit stops before it. -/
theorem orphanInos_eq_nil_or (p : Bytes) :
    orphanInos p = [] ∨ ∃ sb, parsePrimarySb p = .ok sb ∧
      orphanInos p = (checkOrphanedInodes p sb).filterMap Anomaly.orphanIno := by
  unfold orphanInos auditImage
  cases hp : parsePrimarySb p with
  | error err =>
    left
    cases err <;> rfl
  | ok sb =>
    dsimp only
    unfold auditFrom
    dsimp only
    split
    · next finding hfind =>
      left
      obtain ⟨_, hk⟩ := checkImpossibleGeometry_kind hfind
      rw [List.filterMap_cons_none (by rw [Anomaly.orphanIno, hk]), List.filterMap_nil]
    · right
      exact ⟨sb, rfl, by rw [List.filterMap_append, checkAllCgs_orphanIno, List.nil_append]⟩

theorem checkOrphanedInodes_pairwise (hsb : sb.WellFormed) :
    ((checkOrphanedInodes p sb).filterMap Anomaly.orphanIno).Pairwise (· < ·) := by
  have hkeys : (checkOrphanedInodes p sb).Pairwise fun a b =>
      a.orphanIno.getD 0 < b.orphanIno.getD 0 := by
    unfold checkOrphanedInodes
    dsimp only
    by_cases hipg : sb.ipg.toInt ≤ 0
    · rw [if_pos hipg]
      exact List.Pairwise.nil
    rw [if_neg hipg, i32AsU64_of_nonneg (by omega)]
    refine sweep_pairwise (fun a : Anomaly => a.orphanIno.getD 0)
      fun used cg within a hcg hw ha => ?_
    obtain ⟨nlink, hk⟩ := orphanAt_kind ha
    rw [Anomaly.orphanIno, hk]
    exact hsb.satAdd_satMul_cell hcg hw
  rw [List.pairwise_filterMap]
  refine hkeys.imp fun {a b} hab n hn m hm => ?_
  rwa [hn, hm] at hab

theorem exists_of_mem_orphanInos {n : ℕ} (h : n ∈ orphanInos p) :
    ∃ sb, parsePrimarySb p = .ok sb ∧ Allocated p sb n := by
  obtain hnil | ⟨sb, hp, heq⟩ := orphanInos_eq_nil_or p
  · rw [hnil] at h
    exact absurd h List.not_mem_nil
  rw [heq] at h
  obtain ⟨a, ha, hn⟩ := List.mem_filterMap.mp h
  obtain ⟨m, halloc, -, inode, -, rfl⟩ :=
    (mem_checkOrphanedInodes_iff (wellFormed_of_parsePrimarySb hp)).mp ha
  obtain rfl : m = n := Option.some.inj hn
  exact ⟨sb, hp, halloc⟩

theorem deletedFileInos_eq (hp : parsePrimarySb p = .ok sb) :
    deletedFileInos sha256 p = (carveDeletedInodes sha256 p sb
      (collectDeletedDirents p sb)).filterMap RecoveredItem.fileIno := by
  have hdirents : ((collectDeletedDirents p sb).map fun d =>
      RecoveredItem.deletedDirent d.1 d.2).filterMap RecoveredItem.fileIno = [] := by
    rw [List.filterMap_eq_nil_iff]
    intro item hitem
    obtain ⟨d, -, rfl⟩ := List.mem_map.mp hitem
    rfl
  rw [deletedFileInos, recoverDeleted, hp]
  dsimp only
  rw [recoverFrom, List.filterMap_append, hdirents, List.nil_append]

theorem deletedFileInos_of_error {err : SbError} (hp : parsePrimarySb p = .error err) :
    deletedFileInos sha256 p = [] := by
  rw [deletedFileInos, recoverDeleted, hp]
  rfl

theorem exists_of_mem_recoverDeleted {name : Option String} {n size : ℕ} {content : Bytes}
    {digest : String} (h : .deletedFile name n size content digest ∈ recoverDeleted sha256 p) :
    ∃ sb, parsePrimarySb p = .ok sb ∧ 3 ≤ n ∧ n < sb.inodesPerGroup * sb.ncg.toNat ∧
      (∃ used, cgInodeBitmap p sb (n / sb.inodesPerGroup) = some used ∧
        bitmapBit used (n % sb.inodesPerGroup) = false) ∧
      ∃ inode, Intact p sb n inode content ∧ size = inode.size.toNat := by
  unfold recoverDeleted at h
  cases hp : parsePrimarySb p with
  | error err =>
    rw [hp] at h
    exact absurd h List.not_mem_nil
  | ok sb =>
    rw [hp] at h
    rcases List.mem_append.mp h with h | h
    · obtain ⟨d, -, hd⟩ := List.mem_map.mp h
      exact nomatch hd
    obtain ⟨m, h3, hlt, hbit, inode, content', hintact, hitem⟩ :=
      (mem_carveDeletedInodes_iff (wellFormed_of_parsePrimarySb hp)).mp h
    injection hitem with _ hn hsize hcontent _
    subst hn hsize hcontent
    exact ⟨sb, rfl, h3, hlt, hbit, inode, hintact, rfl⟩

theorem exists_of_mem_deletedFileInos {n : ℕ} (h : n ∈ deletedFileInos sha256 p) :
    ∃ sb, parsePrimarySb p = .ok sb ∧ 3 ≤ n ∧ n < sb.inodesPerGroup * sb.ncg.toNat ∧
      ∃ used, cgInodeBitmap p sb (n / sb.inodesPerGroup) = some used ∧
        bitmapBit used (n % sb.inodesPerGroup) = false := by
  obtain ⟨item, hitem, hn⟩ := List.mem_filterMap.mp h
  cases item with
  | deletedDirent name ino => exact nomatch hn
  | deletedFile name ino size content digest =>
    obtain rfl : ino = n := Option.some.inj hn
    obtain ⟨sb, hp, h3, hlt, hbit, -⟩ := exists_of_mem_recoverDeleted hitem
    exact ⟨sb, hp, h3, hlt, hbit⟩

theorem deletedFileInos_pairwise (sha256 : Bytes → Vector UInt8 32) (p : Bytes) :
    (deletedFileInos sha256 p).Pairwise (· < ·) := by
  cases hp : parsePrimarySb p with
  | error err =>
    rw [deletedFileInos_of_error hp]
    exact List.Pairwise.nil
  | ok sb =>
    rw [deletedFileInos_eq hp, List.pairwise_filterMap]
    refine (carveDeletedInodes_pairwise (wellFormed_of_parsePrimarySb hp)).imp
      fun {x y} hxy n hn m hm => ?_
    cases x with
    | deletedDirent name ino => exact nomatch hn
    | deletedFile name ino size content digest =>
      cases y with
      | deletedDirent name' ino' => exact nomatch hm
      | deletedFile name' ino' size' content' digest' =>
        rwa [← Option.some.inj hn, ← Option.some.inj hm]

/-- On every partition the orphans and the deleted files are each reported in strictly increasing
order of their inode numbers, all of them cells of the inode tables from 3 on, and no inode is both;
and every deleted file is what the file reader returns for its inode, in its full `di_size`. -/
theorem sweeps_consistent (sha256 : Bytes → Vector UInt8 32) (p : Bytes) :
    (orphanInos p).Pairwise (· < ·) ∧ (deletedFileInos sha256 p).Pairwise (· < ·) ∧
      (∀ n, n ∈ orphanInos p ∨ n ∈ deletedFileInos sha256 p → ∃ sb,
        parsePrimarySb p = .ok sb ∧ 3 ≤ n ∧ n < sb.inodesPerGroup * sb.ncg.toNat) ∧
      (∀ n ∈ orphanInos p, n ∉ deletedFileInos sha256 p) ∧
      ∀ name n size content digest,
        .deletedFile name n size content digest ∈ recoverDeleted sha256 p →
          ∃ sb inode, parsePrimarySb p = .ok sb ∧ readInode p sb n = .ok inode ∧
            readFile p sb n = .ok content ∧ content.len = size ∧ size = inode.size.toNat ∧
            0 < size ∧ size ≤ p.len := by
  refine ⟨?_, deletedFileInos_pairwise sha256 p, ?_, ?_, ?_⟩
  · obtain hnil | ⟨sb, hp, heq⟩ := orphanInos_eq_nil_or p
    · rw [hnil]
      exact List.Pairwise.nil
    · rw [heq]
      exact checkOrphanedInodes_pairwise (wellFormed_of_parsePrimarySb hp)
  · rintro n (h | h)
    · obtain ⟨sb, hp, halloc⟩ := exists_of_mem_orphanInos h
      exact ⟨sb, hp, halloc.three_le, halloc.lt_inodes⟩
    · obtain ⟨sb, hp, h3, hlt, -⟩ := exists_of_mem_deletedFileInos h
      exact ⟨sb, hp, h3, hlt⟩
  · -- one reads the bit as set, the other as clear
    intro n horphan hdeleted
    obtain ⟨sb, hp, halloc⟩ := exists_of_mem_orphanInos horphan
    obtain ⟨sb', hp', -, -, used', hused', hclear⟩ := exists_of_mem_deletedFileInos hdeleted
    obtain rfl := Except.ok.inj (hp.symm.trans hp')
    obtain ⟨used, hused, hset⟩ := halloc.used
    obtain rfl := Option.some.inj (hused.symm.trans hused')
    rw [hset] at hclear
    exact Bool.noConfusion hclear
  · intro name n size content digest h
    obtain ⟨sb, hp, -, -, -, inode, hintact, rfl⟩ := exists_of_mem_recoverDeleted h
    obtain ⟨inode', hino', hread⟩ := readFile_eq_ok_iff.mp hintact.content_eq
    obtain rfl := Except.ok.inj (hintact.dinode.symm.trans hino')
    obtain ⟨hle, hlen⟩ := readInodeFile_len hread
    have hne := hintact.len_ne
    exact ⟨sb, inode, hp, hintact.dinode, hintact.content_eq, hlen, rfl, by omega, hle⟩

/-- A volume whose root names no file, with inode 5 in use and the dinode of the free inode 6
intact. -/
def Crafted.unnamedFiles : Bytes := volume (tiny.cgHeader 0 [0x3f] ++
  tiny.dinode 2 DIR_MODE 512 [24] ++ tiny.dinode 5 REG_MODE 5 [27] ++
  tiny.dinode 6 REG_MODE 5 [28] ++ [(24 * 512, tiny.direct 2 512 4 [46])])

example : orphanInos Crafted.unnamedFiles = [5] ∧
    deletedFileInos (fun _ => Vector.replicate 32 0) Crafted.unnamedFiles = [6] := by
  decide +kernel

end UfsForensic
