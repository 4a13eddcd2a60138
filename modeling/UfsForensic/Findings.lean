import UfsForensic.GeometryFindings
import UfsForensic.OrphanedInodes
import UfsForensic.PrimarySuperblock

/-!
# The findings of an audit

What there is to find on a partition: where the superblock is sought and something else is, a group
count that the partition has no room for, the groups whose backup superblock or header is not what it
should be, and the inodes that are used and not reached. All but the last are said without the auditor;
what is reached is what its own walk of the tree, `reachableInodes`, returns. On every partition the
audit reports exactly this.
-/

namespace UfsForensic

open UfsFs (parsePrimary)

variable {p : Bytes} {sb : Superblock}

/-- The first place where a superblock is sought and a whole region carries no magic. -/
inductive ForeignFirst (p : Bytes) : ℕ → Prop
  | ufs2 (h : ForeignRegion p SBLOCK_UFS2) : ForeignFirst p SBLOCK_UFS2
  | ufs1 (hnot : ¬ ForeignRegion p SBLOCK_UFS2) (hrejected : ∀ sb, parsePrimary p SBLOCK_UFS2 ≠ .ok sb)
      (h : ForeignRegion p SBLOCK_UFS1) : ForeignFirst p SBLOCK_UFS1

theorem tryOffsets_of_foreign {off : ℕ} {rest : List ℕ} (h : ForeignRegion p off) :
    tryOffsets p (off :: rest) =
      .error (.magicInvalid (off + FS_MAGIC_OFF) (magicAt p off)) := by
  have hattempt := attempt_parsePrimary p off
  rw [tryOffsets_cons]
  generalize parsePrimary p off = r at hattempt ⊢
  cases hattempt with
  | short what need avail hshort => exact absurd h.1 (Nat.not_le.mpr hshort)
  | foreign => rfl
  | rejected field value limit hmagic => exact absurd hmagic.2 h.2
  | found sb hmagic => exact absurd hmagic.2 h.2

theorem tryOffsets_of_passed {off : ℕ} {rest : List ℕ} (hnot : ¬ ForeignRegion p off)
    (hrejected : ∀ sb, parsePrimary p off ≠ .ok sb) :
    tryOffsets p (off :: rest) = tryOffsets p rest := by
  have hattempt := attempt_parsePrimary p off
  rw [tryOffsets_cons]
  generalize parsePrimary p off = r at hattempt hrejected ⊢
  cases hattempt with
  | short => rfl
  | foreign le be h => exact absurd h hnot
  | rejected => rfl
  | found sb => exact absurd rfl (hrejected sb)

theorem ForeignFirst.parses {off : ℕ} (h : ForeignFirst p off) :
    parsePrimarySb p = .error (.magicInvalid (off + FS_MAGIC_OFF) (magicAt p off)) := by
  rw [parsePrimarySb]
  cases h with
  | ufs2 h => exact tryOffsets_of_foreign h
  | ufs1 hnot hrejected h =>
    rw [tryOffsets_of_passed hnot hrejected]
    exact tryOffsets_of_foreign h

theorem exists_foreignFirst {offset : ℕ} {bytes : Vector UInt8 4}
    (hparses : parsePrimarySb p = .error (.magicInvalid offset bytes)) :
    ∃ off, ForeignFirst p off ∧ offset = off + FS_MAGIC_OFF ∧ bytes = magicAt p off := by
  have hplace {off : ℕ} (h : ForeignFirst p off) :
      ∃ off, ForeignFirst p off ∧ offset = off + FS_MAGIC_OFF ∧ bytes = magicAt p off := by
    obtain ⟨hoff, hbytes⟩ := SbError.magicInvalid.inj (Except.error.inj (hparses.symm.trans h.parses))
    exact ⟨off, h, hoff, hbytes⟩
  have hrejected : ∀ sb, parsePrimary p SBLOCK_UFS2 ≠ .ok sb := by
    intro sb hsb
    rw [parsePrimarySb, tryOffsets_cons, hsb] at hparses
    cases hparses
  by_cases h2 : ForeignRegion p SBLOCK_UFS2
  · exact hplace (.ufs2 h2)
  by_cases h1 : ForeignRegion p SBLOCK_UFS1
  · exact hplace (.ufs1 h2 hrejected h1)
  -- both places are passed or the second one is accepted, and neither reports a magic
  rw [parsePrimarySb, tryOffsets_of_passed h2 hrejected] at hparses
  have hrejected1 : ∀ sb, parsePrimary p SBLOCK_UFS1 ≠ .ok sb := by
    intro sb hsb
    rw [tryOffsets_cons, hsb] at hparses
    cases hparses
  rw [tryOffsets_of_passed h1 hrejected1] at hparses
  cases hparses

/-- A field that the auditor compares has the value `v` in the primary superblock and the value `w`, not
the same, in the backup. -/
def Superblock.Differs (primary backup : Superblock) (field : String) (v w : ℕ) : Prop :=
  v ≠ w ∧
    ((field = "fs_ipg" ∧ v = i32AsU64 primary.ipg ∧ w = i32AsU64 backup.ipg) ∨
      (field = "fs_fpg" ∧ v = i32AsU64 primary.fpg ∧ w = i32AsU64 backup.fpg) ∨
      (field = "fs_bsize" ∧ v = i32AsU64 primary.bsize ∧ w = i32AsU64 backup.bsize) ∨
      (field = "fs_ncg" ∧ v = primary.ncg.toNat ∧ w = backup.ncg.toNat))

theorem Superblock.not_differs_self {sb : Superblock} {field : String} {v w : ℕ} :
    ¬ sb.Differs sb field v w := by
  rintro ⟨hne, ⟨-, rfl, rfl⟩ | ⟨-, rfl, rfl⟩ | ⟨-, rfl, rfl⟩ | ⟨-, rfl, rfl⟩⟩
  all_goals exact hne rfl

def ParsesAt (p : Bytes) (off : ℕ) (backup : Superblock) : Prop :=
  Superblock.parse (p.slice off (p.len - off)) = .ok backup

theorem ParsesAt.inside {off : ℕ} {backup : Superblock} (h : ParsesAt p off backup) :
    off + SB_MIN_LEN ≤ p.len := by
  have hlen := (Superblock.parse_eq_ok_iff.mp h).1
  rw [Bytes.slice_len] at hlen
  unfold SB_MIN_LEN at hlen ⊢
  omega

theorem mem_checkBackupSb_iff {cg : UInt32} {off : ℕ} {a : Anomaly} :
    a ∈ checkBackupSb p sb cg off ↔ ∃ backup, ParsesAt p off backup ∧ ∃ field v w,
      sb.Differs backup field v w ∧
        a = Anomaly.new (.backupSuperblockDivergence cg field v w off) := by
  rcases Nat.lt_or_ge p.len off with hoff | hoff
  · rw [checkBackupSb, Bytes.getFrom_eq_none hoff]
    refine iff_of_false List.not_mem_nil ?_
    rintro ⟨backup, hparse, -⟩
    have := hparse.inside
    omega
  · rw [checkBackupSb, Bytes.getFrom_eq_some hoff]
    unfold ParsesAt Superblock.Differs
    dsimp only
    cases Superblock.parse (p.slice off (p.len - off)) with
    | error e => simp
    | ok backup =>
      simp only [List.mem_filterMap, Except.ok.injEq, exists_eq_left']
      constructor
      · rintro ⟨⟨field, v, w⟩, hmem, ha⟩
        split_ifs at ha with hne
        simp only [List.mem_cons, List.not_mem_nil, or_false, Prod.mk.injEq] at hmem
        exact ⟨field, v, w, ⟨hne, hmem⟩, (Option.some.inj ha).symm⟩
      · rintro ⟨field, v, w, ⟨hne, hcase⟩, rfl⟩
        refine ⟨(field, v, w), ?_, if_neg hne⟩
        simpa only [List.mem_cons, List.not_mem_nil, or_false, Prod.mk.injEq] using hcase

theorem mem_checkCgMagic_iff {cg : UInt32} {off : ℕ} {a : Anomaly} :
    a ∈ checkCgMagic p cg off ↔ off + 8 ≤ p.len ∧ leU32 p (off + 4) ≠ CG_MAGIC ∧
      beU32 p (off + 4) ≠ CG_MAGIC ∧ a = Anomaly.new (.cgMagicInvalid cg (leU32 p (off + 4)) off) := by
  rcases Nat.lt_or_ge p.len (off + 8) with hlen | hlen
  · refine iff_of_false (fun ha => ?_) fun ha => Nat.not_le.mpr hlen ha.1
    unfold checkCgMagic at ha
    rcases Nat.lt_or_ge p.len off with hoff | hoff
    · rw [Bytes.getFrom_eq_none hoff] at ha
      exact List.not_mem_nil ha
    · rw [Bytes.getFrom_eq_some hoff] at ha
      dsimp only at ha
      rw [if_pos (by rw [Bytes.slice_len]; unfold CG_MAGIC_OFF; omega)] at ha
      exact List.not_mem_nil ha
  · rw [checkCgMagic_eq hlen, List.mem_ite_nil_right, List.mem_singleton, and_iff_right hlen,
      and_assoc]

theorem satMul_groupOff {β : Type*} {f : ℕ → List β} (hf : ∀ off, p.len < off → f off = [])
    (hsb : sb.WellFormed) (hfpg : 0 < sb.fpg.toInt) {x : Int32} (hx : 0 < x.toInt) (c : ℕ) :
    f (satMul (satAdd (satMul c (if 0 < sb.fpg.toInt then i32AsU64 sb.fpg else 0))
        (if 0 ≤ x.toInt then i32AsU64 x else 0))
      (if 0 < sb.fsize.toInt then i32AsU64 sb.fsize else 0)) =
        f ((c * sb.fragsPerGroup + x.toInt.toNat) * sb.fragBytes) := by
  have hiff := satAddr_le_iff (g := c) (a := sb.fragsPerGroup) (b := x.toInt.toNat) p.len_lt_u64Max
    hsb.fragBytes_pos
  rw [if_pos hsb.fsize_pos, if_pos hfpg, if_pos hx.le, i32AsU64_of_nonneg hfpg.le,
    i32AsU64_of_nonneg hx.le, hsb.fsize_eq]
  rcases Nat.lt_or_ge p.len ((c * sb.fragsPerGroup + x.toInt.toNat) * sb.fragBytes) with hlt | hle
  · rw [hf _ hlt]
    exact hf _ (Nat.lt_of_not_le fun h => Nat.not_le.mpr hlt (hiff.mp h))
  · exact congrArg f (satAddr_eq p.len_lt_u64Max hsb.fragBytes_pos (hiff.mpr hle))

theorem i32AsU64_pos_iff {x : Int32} :
    (0 < if 0 ≤ x.toInt then i32AsU64 x else 0) ↔ 0 < x.toInt := by
  split_ifs with hx
  · rw [i32AsU64_of_nonneg hx]
    omega
  · exact iff_of_false (Nat.lt_irrefl 0) fun h => hx h.le

def groupFindings (p : Bytes) (sb : Superblock) : List Anomaly :=
  checkAllCgs p sb (if 0 < sb.fsize.toInt then i32AsU64 sb.fsize else 0)
    (if 0 < sb.fpg.toInt then i32AsU64 sb.fpg else 0)
    (if 0 ≤ sb.sblkno.toInt then i32AsU64 sb.sblkno else 0)
    (if 0 ≤ sb.cblkno.toInt then i32AsU64 sb.cblkno else 0) sb.ncg.toNat

/-- What there is to find in the groups: a compared field of a backup superblock that differs, and a
header whose magic is there in neither byte order. -/
inductive GroupFinding (p : Bytes) (sb : Superblock) : Anomaly → Prop
  | backup {c : ℕ} {sb' : Superblock} {field : String} {v w : ℕ} (hfpg : 0 < sb.fpg.toInt)
      (hone : 1 ≤ c) (hc : c < sb.ncg.toNat) (hsblkno : 0 < sb.sblkno.toInt)
      (hparse : ParsesAt p (sb.backupOff c) sb') (hdiffers : sb.Differs sb' field v w) :
      GroupFinding p sb
        (Anomaly.new (.backupSuperblockDivergence (UInt32.ofNat c) field v w (sb.backupOff c)))
  | header {c : ℕ} (hfpg : 0 < sb.fpg.toInt) (hc : c < sb.ncg.toNat)
      (hcblkno : 0 < sb.cblkno.toInt) (hin : sb.headerOff c + 8 ≤ p.len)
      (hle : leU32 p (sb.headerOff c + 4) ≠ CG_MAGIC)
      (hbe : beU32 p (sb.headerOff c + 4) ≠ CG_MAGIC) :
      GroupFinding p sb (Anomaly.new
        (.cgMagicInvalid (UInt32.ofNat c) (leU32 p (sb.headerOff c + 4)) (sb.headerOff c)))

/-- Every finding about a group is about its backup superblock or the magic of its header. -/
theorem mem_groupFindings_iff (hsb : sb.WellFormed) {a : Anomaly} :
    a ∈ groupFindings p sb ↔ GroupFinding p sb a := by
  have hbackup (hfpg : 0 < sb.fpg.toInt) (hsblkno : 0 < sb.sblkno.toInt) (cg : UInt32) :=
    satMul_groupOff (p := p) (f := checkBackupSb p sb cg)
      (fun off hoff => by rw [checkBackupSb, Bytes.getFrom_eq_none hoff]) hsb hfpg hsblkno
  have hheader (hfpg : 0 < sb.fpg.toInt) (hcblkno : 0 < sb.cblkno.toInt) (cg : UInt32) :=
    satMul_groupOff (p := p) (f := checkCgMagic p cg)
      (fun off hoff => by rw [checkCgMagic, Bytes.getFrom_eq_none hoff]) hsb hfpg hcblkno
  have hfs : 0 < if 0 < sb.fsize.toInt then i32AsU64 sb.fsize else 0 := by
    rw [if_pos hsb.fsize_pos, hsb.fsize_eq]
    exact hsb.fragBytes_pos
  have hfp : (0 < if 0 < sb.fpg.toInt then i32AsU64 sb.fpg else 0) ↔ 0 < sb.fpg.toInt := by
    split_ifs with hfpg
    · rw [i32AsU64_of_nonneg hfpg.le]
      omega
    · exact iff_of_false (Nat.lt_irrefl 0) hfpg
  rw [groupFindings, mem_checkAllCgs, hfp]
  constructor
  · rintro ⟨-, hfpg, c, hc, ⟨hone, hpos, ha⟩ | ⟨hpos, ha⟩⟩
    · have hsblkno := i32AsU64_pos_iff.mp hpos
      rw [hbackup hfpg hsblkno] at ha
      obtain ⟨backup, hparse, field, v, w, hdiffers, rfl⟩ := mem_checkBackupSb_iff.mp ha
      exact .backup hfpg hone hc hsblkno hparse hdiffers
    · have hcblkno := i32AsU64_pos_iff.mp hpos
      rw [hheader hfpg hcblkno] at ha
      obtain ⟨hin, hle, hbe, rfl⟩ := mem_checkCgMagic_iff.mp ha
      exact .header hfpg hc hcblkno hin hle hbe
  · intro ha
    cases ha with
    | @backup c sb' field v w hfpg hone hc hsblkno hparse hdiffers =>
      refine ⟨hfs, hfpg, c, hc, Or.inl ⟨hone, i32AsU64_pos_iff.mpr hsblkno, ?_⟩⟩
      rw [hbackup hfpg hsblkno]
      exact mem_checkBackupSb_iff.mpr ⟨_, hparse, field, v, w, hdiffers, rfl⟩
    | @header c hfpg hc hcblkno hin hle hbe =>
      refine ⟨hfs, hfpg, c, hc, Or.inr ⟨i32AsU64_pos_iff.mpr hcblkno, ?_⟩⟩
      rw [hheader hfpg hcblkno]
      exact mem_checkCgMagic_iff.mpr ⟨hin, hle, hbe, rfl⟩

/-- The last group starts below the end of the partition, as far as there are groups. -/
def GroupsFit (p : Bytes) (sb : Superblock) : Prop :=
  0 < sb.fpg.toInt → 0 < sb.ncg.toNat → (sb.ncg.toNat - 1) * sb.groupBytes < p.len

inductive Finding (p : Bytes) : Anomaly → Prop
  | superblock {off : ℕ} (h : ForeignFirst p off) :
      Finding p (Anomaly.new (.superblockMagicInvalid (off + FS_MAGIC_OFF) (magicAt p off)))
  | geometry {sb : Superblock} (hparses : parsePrimarySb p = .ok sb) (hfpg : 0 < sb.fpg.toInt)
      (hncg : 0 < sb.ncg.toNat) (hlast : p.len ≤ (sb.ncg.toNat - 1) * sb.groupBytes) :
      Finding p (Anomaly.new
        (.impossibleGeometry "fs_ncg" sb.ncg.toNat (p.len / sb.groupBytes + 1)))
  | group {sb : Superblock} {a : Anomaly} (hparses : parsePrimarySb p = .ok sb)
      (hfit : GroupsFit p sb) (h : GroupFinding p sb a) : Finding p a
  | orphan {sb : Superblock} {n : ℕ} {inode : Inode} (hparses : parsePrimarySb p = .ok sb)
      (hfit : GroupsFit p sb) (h : Allocated p sb n) (hnot : n ∉ reachableInodes p sb)
      (hread : readInode p sb n = .ok inode) :
      Finding p (Anomaly.new (.orphanedInode n inode.nlink))

/-- The check of the group count, without saturation. -/
theorem checkImpossibleGeometry_eq (hsb : sb.WellFormed) :
    checkImpossibleGeometry (if 0 < sb.fsize.toInt then i32AsU64 sb.fsize else 0)
        (if 0 < sb.fpg.toInt then i32AsU64 sb.fpg else 0) sb.ncg.toNat p.len =
      if 0 < sb.fpg.toInt ∧ 0 < sb.ncg.toNat ∧ p.len ≤ (sb.ncg.toNat - 1) * sb.groupBytes then
        some (Anomaly.new
          (.impossibleGeometry "fs_ncg" sb.ncg.toNat (p.len / sb.groupBytes + 1)))
      else none := by
  by_cases hcount : 0 < sb.fpg.toInt ∧ 0 < sb.ncg.toNat
  · have heq := countFinding_eq hsb hcount.1 hcount.2 p.len_lt_u64Max.le
    unfold countFinding at heq
    rw [heq]
    rcases Nat.lt_or_ge ((sb.ncg.toNat - 1) * sb.groupBytes) p.len with hlt | hle
    · rw [if_pos hlt, if_neg fun h => Nat.not_le.mpr hlt h.2.2]
    · rw [if_neg (Nat.not_lt.mpr hle), if_pos ⟨hcount.1, hcount.2, hle⟩]
  · have hnone : ¬ (0 < sb.fpg.toInt ∧ 0 < sb.ncg.toNat ∧
        p.len ≤ (sb.ncg.toNat - 1) * sb.groupBytes) := fun h => hcount ⟨h.1, h.2.1⟩
    rw [if_neg hnone]
    unfold checkImpossibleGeometry
    by_cases hfpg : 0 < sb.fpg.toInt
    · have hncg : sb.ncg.toNat = 0 := Nat.eq_zero_of_not_pos fun h => hcount ⟨hfpg, h⟩
      rw [if_pos (Or.inr (Or.inr hncg))]
    · rw [if_neg hfpg, if_pos (Or.inr (Or.inl rfl))]

theorem not_groupsFit_iff : ¬ GroupsFit p sb ↔
    0 < sb.fpg.toInt ∧ 0 < sb.ncg.toNat ∧ p.len ≤ (sb.ncg.toNat - 1) * sb.groupBytes := by
  unfold GroupsFit
  push Not
  rfl

section Located

variable {a : Anomaly}

theorem not_finding_of_notUfs (hparses : parsePrimarySb p = .error .notUfs) : ¬ Finding p a := by
  intro h
  cases h with
  | superblock hfirst => cases hparses.symm.trans hfirst.parses
  | geometry hok => cases hparses.symm.trans hok
  | group hok => cases hparses.symm.trans hok
  | orphan hok => cases hparses.symm.trans hok

theorem finding_iff_of_magicInvalid {offset : ℕ} {bytes : Vector UInt8 4}
    (hparses : parsePrimarySb p = .error (.magicInvalid offset bytes)) :
    Finding p a ↔ a = Anomaly.new (.superblockMagicInvalid offset bytes) := by
  constructor
  · intro h
    cases h with
    | superblock hfirst =>
      obtain ⟨hoff, hbytes⟩ :=
        SbError.magicInvalid.inj (Except.error.inj (hparses.symm.trans hfirst.parses))
      rw [hoff, hbytes]
    | geometry hok => cases hparses.symm.trans hok
    | group hok => cases hparses.symm.trans hok
    | orphan hok => cases hparses.symm.trans hok
  · rintro rfl
    obtain ⟨off, hfirst, rfl, rfl⟩ := exists_foreignFirst hparses
    exact .superblock hfirst

variable (hparses : parsePrimarySb p = .ok sb)
include hparses

theorem finding_iff_of_not_groupsFit (hunfit : ¬ GroupsFit p sb) : Finding p a ↔
    a = Anomaly.new (.impossibleGeometry "fs_ncg" sb.ncg.toNat (p.len / sb.groupBytes + 1)) := by
  constructor
  · intro h
    cases h with
    | superblock hfirst => cases hparses.symm.trans hfirst.parses
    | geometry hok =>
      obtain rfl := Except.ok.inj (hparses.symm.trans hok)
      rfl
    | group hok hfit =>
      obtain rfl := Except.ok.inj (hparses.symm.trans hok)
      exact absurd hfit hunfit
    | orphan hok hfit =>
      obtain rfl := Except.ok.inj (hparses.symm.trans hok)
      exact absurd hfit hunfit
  · rintro rfl
    obtain ⟨hfpg, hncg, hlast⟩ := not_groupsFit_iff.mp hunfit
    exact .geometry hparses hfpg hncg hlast

theorem finding_iff_of_groupsFit (hfit : GroupsFit p sb) : Finding p a ↔
    GroupFinding p sb a ∨ ∃ n, Allocated p sb n ∧ n ∉ reachableInodes p sb ∧
      ∃ inode, readInode p sb n = .ok inode ∧ a = Anomaly.new (.orphanedInode n inode.nlink) := by
  constructor
  · intro h
    cases h with
    | superblock hfirst => cases hparses.symm.trans hfirst.parses
    | geometry hok hfpg hncg hlast =>
      obtain rfl := Except.ok.inj (hparses.symm.trans hok)
      exact absurd hfit (not_groupsFit_iff.mpr ⟨hfpg, hncg, hlast⟩)
    | group hok _ h =>
      obtain rfl := Except.ok.inj (hparses.symm.trans hok)
      exact Or.inl h
    | orphan hok _ h hnot hread =>
      obtain rfl := Except.ok.inj (hparses.symm.trans hok)
      exact Or.inr ⟨_, h, hnot, _, hread, rfl⟩
  · rintro (h | ⟨n, h, hnot, inode, hread, rfl⟩)
    · exact .group hparses hfit h
    · exact .orphan hparses hfit h hnot hread

end Located

/-- The audit of any partition reports exactly what there is to find. -/
theorem mem_auditImage_iff_finding (p : Bytes) (a : Anomaly) : a ∈ auditImage p ↔ Finding p a := by
  cases hparses : parsePrimarySb p with
  | error e =>
    rw [auditImage, hparses]
    cases e with
    | notUfs => exact iff_of_false List.not_mem_nil (not_finding_of_notUfs hparses)
    | magicInvalid offset bytes =>
      exact List.mem_singleton.trans (finding_iff_of_magicInvalid hparses).symm
  | ok sb =>
    have hsb := wellFormed_of_parsePrimarySb hparses
    rw [auditImage, hparses]
    simp only [auditFrom, checkImpossibleGeometry_eq hsb]
    by_cases hfit : GroupsFit p sb
    · rw [if_neg fun h => not_groupsFit_iff.mpr h hfit, finding_iff_of_groupsFit hparses hfit]
      refine List.mem_append.trans ?_
      rw [mem_checkOrphanedInodes_iff hsb]
      exact or_congr_left (mem_groupFindings_iff hsb)
    · rw [if_pos (not_groupsFit_iff.mp hfit)]
      exact List.mem_singleton.trans (finding_iff_of_not_groupsFit hparses hfit).symm

end UfsForensic
