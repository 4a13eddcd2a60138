import UfsForensic.GroupHeader

/-!
# Geometry findings

Two findings of the audit are about geometry: the group count is impossible for the partition, and
the backup superblock of a group differs from the primary. This module says when each is emitted,
and when what it reports is exact.
-/

namespace UfsForensic

variable {p : Bytes} {sb backup : Superblock} {c : ℕ}

/-- The finding about a group count of `ncg` for a partition of `len` bytes and the group sizes of
`sb`. -/
def countFinding (sb : Superblock) (ncg len : ℕ) : Option Anomaly :=
  checkImpossibleGeometry (if 0 < sb.fsize.toInt then i32AsU64 sb.fsize else 0)
    (if 0 < sb.fpg.toInt then i32AsU64 sb.fpg else 0) ncg len

def Superblock.groupBytes (sb : Superblock) : ℕ := sb.fragsPerGroup * sb.fragBytes

theorem groupBytes_pos (hsb : sb.WellFormed) (hfpg : 0 < sb.fpg.toInt) : 0 < sb.groupBytes := by
  apply Nat.mul_pos
  · unfold Superblock.fragsPerGroup
    omega
  · exact hsb.fragBytes_pos

theorem groupBytes_le (hsb : sb.WellFormed) : sb.groupBytes ≤ u64Max := by
  have hfpg : sb.fragsPerGroup ≤ 2 ^ 31 := by
    have := sb.fpg.toInt_lt
    unfold Superblock.fragsPerGroup
    omega
  have hfrag : sb.fragBytes ≤ 65536 := by
    have := hsb.fsize_le
    have := hsb.bsize_le
    unfold Superblock.fragBytes
    omega
  calc sb.groupBytes ≤ 2 ^ 31 * 65536 := Nat.mul_le_mul hfpg hfrag
    _ ≤ u64Max := by
      unfold u64Max
      norm_num

/-- A count is flagged when the exact base of its last group is not below the partition length. -/
theorem countFinding_eq (hsb : sb.WellFormed) (hfpg : 0 < sb.fpg.toInt) {ncg len : ℕ}
    (hncg : 0 < ncg) (hlen : len ≤ u64Max) :
    countFinding sb ncg len =
      if (ncg - 1) * sb.groupBytes < len then none
      else some (Anomaly.new (.impossibleGeometry "fs_ncg" ncg (len / sb.groupBytes + 1))) := by
  have hf := hsb.fsize_pos
  have hpos := groupBytes_pos hsb hfpg
  have hfs := hsb.fragBytes_pos
  have hfp : 0 < sb.fragsPerGroup := by
    unfold Superblock.fragsPerGroup
    omega
  have hcg : satMul sb.fragsPerGroup sb.fragBytes = sb.groupBytes := satMul_eq (groupBytes_le hsb)
  have hfpg' : i32AsU64 sb.fpg = sb.fragsPerGroup := i32AsU64_of_nonneg hfpg.le
  unfold countFinding checkImpossibleGeometry
  rw [if_pos hf, if_pos hfpg, hsb.fsize_eq, hfpg', if_neg (by omega)]
  simp only [hcg, satMul_lt_iff hlen, if_neg hpos.ne']

/-- The reported limit is never below a count that is not flagged. -/
theorem le_limit (hsb : sb.WellFormed) (hfpg : 0 < sb.fpg.toInt) {n len : ℕ} (hlen : len ≤ u64Max)
    (h : countFinding sb n len = none) : n ≤ len / sb.groupBytes + 1 := by
  rcases Nat.eq_zero_or_pos n with rfl | hn
  · exact Nat.zero_le _
  rw [countFinding_eq hsb hfpg hn hlen] at h
  split_ifs at h with hlt
  have := (Nat.le_div_iff_mul_le (groupBytes_pos hsb hfpg)).mpr hlt.le
  omega

/-- It is itself not flagged unless the partition is a whole number of groups. -/
theorem countFinding_limit (hsb : sb.WellFormed) (hfpg : 0 < sb.fpg.toInt) {len : ℕ}
    (hlen : len ≤ u64Max) :
    countFinding sb (len / sb.groupBytes + 1) len = none ↔ ¬ sb.groupBytes ∣ len := by
  have hpos : 0 < len / sb.groupBytes + 1 := Nat.succ_pos _
  rw [countFinding_eq hsb hfpg hpos hlen, Nat.add_sub_cancel]
  have hle := Nat.div_mul_le_self len sb.groupBytes
  rw [Nat.dvd_iff_div_mul_eq]
  constructor
  · intro h heq
    rw [heq, if_neg (lt_irrefl len)] at h
    simp at h
  · intro h
    exact if_pos (by omega)

/-- The finding is emitted exactly when the last group lies past the partition, and names a limit
that its value exceeds: the largest group count that would not be flagged. -/
structure CountFindingExact (sb : Superblock) (len : ℕ) : Prop where
  finding_iff : (∃ a, countFinding sb sb.ncg.toNat len = some a) ↔
    len ≤ (sb.ncg.toNat - 1) * sb.fragsPerGroup * sb.fragBytes
  limit : ∀ a, countFinding sb sb.ncg.toNat len = some a → ∃ value limit,
    a.kind = .impossibleGeometry "fs_ncg" value limit ∧ limit < value ∧
      IsGreatest {n | countFinding sb n len = none} limit

/-- It does so exactly when nothing is flagged or the partition is not a whole number of groups. -/
theorem countFindingExact_iff (hsb : sb.WellFormed) (hfpg : 0 < sb.fpg.toInt)
    (hncg : 0 < sb.ncg.toNat) {len : ℕ} (hlen : len ≤ u64Max) :
    CountFindingExact sb len ↔
      (sb.ncg.toNat - 1) * sb.fragsPerGroup * sb.fragBytes < len ∨
        ¬ sb.fragsPerGroup * sb.fragBytes ∣ len := by
  have heq := countFinding_eq hsb hfpg hncg hlen
  have hbase : (sb.ncg.toNat - 1) * sb.fragsPerGroup * sb.fragBytes =
      (sb.ncg.toNat - 1) * sb.groupBytes := Nat.mul_assoc _ _ _
  have hlimit := countFinding_limit hsb hfpg hlen
  have hpos := groupBytes_pos hsb hfpg
  change _ ↔ _ ∨ ¬ sb.groupBytes ∣ len
  rw [hbase]
  constructor
  · intro hexact
    by_cases hlt : (sb.ncg.toNat - 1) * sb.groupBytes < len
    · exact Or.inl hlt
    · rw [if_neg hlt] at heq
      obtain ⟨value, limit, hk, -, hgreatest⟩ := hexact.limit _ heq
      rw [Anomaly.new_kind] at hk
      injection hk with _ _ hl
      exact Or.inr (hlimit.mp (by rw [hl]; exact hgreatest.1))
  · intro hcond
    constructor
    · rw [heq, hbase]
      split_ifs with hlt
      · exact iff_of_false (by simp) (by omega)
      · exact iff_of_true ⟨_, rfl⟩ (by omega)
    · intro a ha
      rw [heq] at ha
      split_ifs at ha with hlt
      rw [← Option.some.inj ha]
      have hnd : ¬ sb.groupBytes ∣ len := hcond.resolve_left hlt
      refine ⟨_, _, rfl, ?_, hlimit.mpr hnd, fun n hn => le_limit hsb hfpg hlen hn⟩
      -- the limit itself is not flagged, so it is not the flagged count
      have hle : len / sb.groupBytes ≤ sb.ncg.toNat - 1 := by
        have := Nat.div_le_div_right (c := sb.groupBytes) (Nat.not_lt.mp hlt)
        rwa [Nat.mul_div_cancel _ hpos] at this
      have hne : len / sb.groupBytes ≠ sb.ncg.toNat - 1 := by
        intro h
        rw [Nat.dvd_iff_div_mul_eq, h] at hnd
        have := Nat.div_mul_le_self len sb.groupBytes
        rw [h] at this
        omega
      omega

theorem auditImage_of_countFinding {a : Anomaly} (hp : parsePrimarySb p = .ok sb)
    (h : countFinding sb sb.ncg.toNat p.len = some a) : auditImage p = [a] := by
  unfold countFinding at h
  rw [auditImage, hp]
  simp only [auditFrom, h]

namespace Crafted

def twoGroups : Geometry := { tiny with ncg := 2 }

/-- A partition of one group of 32768 bytes whose superblock counts two. -/
def oneGroupShort : Bytes :=
  Bytes.ofPatches 32768 (by decide) (twoGroups.superblock SBLOCK_UFS1)

def twoGroupsSb : Superblock :=
  Superblock.decode (oneGroupShort.slice SBLOCK_UFS1 SB_MIN_LEN) .ufs1 .little

theorem parsePrimarySb_oneGroupShort : parsePrimarySb oneGroupShort = .ok twoGroupsSb := by
  decide +kernel

end Crafted

theorem countFindingExact_iff_twoGroups :
    CountFindingExact Crafted.twoGroupsSb 40000 ↔
      (Crafted.twoGroupsSb.ncg.toNat - 1) * Crafted.twoGroupsSb.fragsPerGroup *
          Crafted.twoGroupsSb.fragBytes < 40000 ∨
        ¬ Crafted.twoGroupsSb.fragsPerGroup * Crafted.twoGroupsSb.fragBytes ∣ 40000 :=
  countFindingExact_iff (wellFormed_of_parsePrimarySb Crafted.parsePrimarySb_oneGroupShort)
    (by decide +kernel) (by decide +kernel) (by unfold u64Max; norm_num)

/-- The audit of the crafted partition reports the count 2 against the bound 2, where a count of 2
is itself flagged. -/
theorem limit_admits_flagged_count :
    (auditImage Crafted.oneGroupShort).map Anomaly.kind = [.impossibleGeometry "fs_ncg" 2 2] ∧
      ¬ CountFindingExact Crafted.twoGroupsSb Crafted.oneGroupShort.len := by
  have hkind : (countFinding Crafted.twoGroupsSb Crafted.twoGroupsSb.ncg.toNat
      Crafted.oneGroupShort.len).map Anomaly.kind = some (.impossibleGeometry "fs_ncg" 2 2) := by
    decide +kernel
  obtain ⟨a, ha, hk⟩ := Option.map_eq_some_iff.mp hkind
  refine ⟨?_, fun h => ?_⟩
  · rw [auditImage_of_countFinding Crafted.parsePrimarySb_oneGroupShort ha, List.map_singleton, hk]
  · obtain ⟨value, limit, hk', hlt, -⟩ := h.limit a ha
    rw [hk] at hk'
    injection hk' with _ hv hl
    omega

namespace Superblock

def backupOff (sb : Superblock) (c : ℕ) : ℕ :=
  (c * sb.fragsPerGroup + sb.sblkno.toInt.toNat) * sb.fragBytes

/-- The geometry fields, each widened to 64 bits. -/
def geometryFields (sb : Superblock) : List (String × ℕ) :=
  [("fs_sblkno", i32AsU64 sb.sblkno), ("fs_cblkno", i32AsU64 sb.cblkno),
    ("fs_iblkno", i32AsU64 sb.iblkno), ("fs_dblkno", i32AsU64 sb.dblkno),
    ("fs_ncg", sb.ncg.toNat), ("fs_bsize", i32AsU64 sb.bsize), ("fs_fsize", i32AsU64 sb.fsize),
    ("fs_frag", i32AsU64 sb.frag), ("fs_nindir", i32AsU64 sb.nindir),
    ("fs_inopb", sb.inopb.toNat), ("fs_ipg", i32AsU64 sb.ipg), ("fs_fpg", i32AsU64 sb.fpg)]

/-- The decoded geometry of the two differs: in version, byte order or a geometry field. -/
def GeometryDiffers (sb backup : Superblock) : Prop :=
  sb.version ≠ backup.version ∨ sb.endian ≠ backup.endian ∨ sb.sblkno ≠ backup.sblkno ∨
    sb.cblkno ≠ backup.cblkno ∨ sb.iblkno ≠ backup.iblkno ∨ sb.dblkno ≠ backup.dblkno ∨
    sb.ncg ≠ backup.ncg ∨ sb.bsize ≠ backup.bsize ∨ sb.fsize ≠ backup.fsize ∨
    sb.frag ≠ backup.frag ∨ sb.nindir ≠ backup.nindir ∨ sb.inopb ≠ backup.inopb ∨
    sb.ipg ≠ backup.ipg ∨ sb.fpg ≠ backup.fpg

/-- The two differ in one of the four fields that the audit compares. -/
def ComparedDiffers (sb backup : Superblock) : Prop :=
  sb.ipg ≠ backup.ipg ∨ sb.fpg ≠ backup.fpg ∨ sb.bsize ≠ backup.bsize ∨ sb.ncg ≠ backup.ncg

theorem ComparedDiffers.geometryDiffers (h : sb.ComparedDiffers backup) :
    sb.GeometryDiffers backup := by
  unfold ComparedDiffers at h
  unfold GeometryDiffers
  tauto

theorem geometryDiffers_of_nindir (h : sb.nindir ≠ backup.nindir) : sb.GeometryDiffers backup := by
  unfold GeometryDiffers
  tauto

end Superblock

theorem i32AsU64_inj {x y : Int32} : i32AsU64 x = i32AsU64 y ↔ x = y := by
  constructor
  · intro h
    have hx := x.toInt_lt
    have hx' := x.le_toInt
    have hy := y.toInt_lt
    have hy' := y.le_toInt
    unfold i32AsU64 at h
    apply Int32.toInt_inj.mp
    omega
  · exact congrArg i32AsU64

/-- The audit of `p` reports that `field` of the backup of group `c` differs. -/
def ReportsDivergence (p : Bytes) (c : ℕ) (field : String) (primary backup : ℕ) : Prop :=
  ∃ a ∈ auditImage p, ∃ offset,
    a.kind = .backupSuperblockDivergence (UInt32.ofNat c) field primary backup offset

/-- Group `c` is one the audit gets to, and its backup superblock parses. -/
structure BackupInScope (p : Bytes) (sb : Superblock) (c : ℕ) (backup : Superblock) : Prop where
  parses : parsePrimarySb p = .ok sb
  possible : GeometryPossible p sb
  one_le : 1 ≤ c
  lt_ncg : c < sb.ncg.toNat
  fpg_pos : 0 < sb.fpg.toInt
  sblkno_pos : 0 < sb.sblkno.toInt
  backup_parses :
    Superblock.parse (p.slice (sb.backupOff c) (p.len - sb.backupOff c)) = .ok backup

namespace BackupInScope

variable (h : BackupInScope p sb c backup)
include h

theorem wellFormed : sb.WellFormed := wellFormed_of_parsePrimarySb h.parses

theorem backupOff_le : sb.backupOff c ≤ p.len := by
  have hlen := (Superblock.parse_eq_ok_iff.mp h.backup_parses).1
  rw [Bytes.slice_len] at hlen
  unfold SB_MIN_LEN at hlen
  omega

theorem satMul_backupOff : satMul (satAdd (satMul c (i32AsU64 sb.fpg)) (i32AsU64 sb.sblkno))
    (i32AsU64 sb.fsize) = sb.backupOff c := by
  have hpos := h.wellFormed.fragBytes_pos
  rw [i32AsU64_of_nonneg h.fpg_pos.le, i32AsU64_of_nonneg h.sblkno_pos.le, h.wellFormed.fsize_eq]
  exact satAddr_eq p.len_lt_u64Max hpos
    ((satAddr_le_iff p.len_lt_u64Max hpos).mpr h.backupOff_le)

theorem mem_checkBackupSb_iff {cg : UInt32} {field : String} {v w off : ℕ} :
    (∃ a ∈ checkBackupSb p sb cg (sb.backupOff c),
        a.kind = .backupSuperblockDivergence cg field v w off) ↔
      off = sb.backupOff c ∧ v ≠ w ∧
        ((field = "fs_ipg" ∧ v = i32AsU64 sb.ipg ∧ w = i32AsU64 backup.ipg) ∨
          (field = "fs_fpg" ∧ v = i32AsU64 sb.fpg ∧ w = i32AsU64 backup.fpg) ∨
          (field = "fs_bsize" ∧ v = i32AsU64 sb.bsize ∧ w = i32AsU64 backup.bsize) ∨
          (field = "fs_ncg" ∧ v = sb.ncg.toNat ∧ w = backup.ncg.toNat)) := by
  unfold checkBackupSb
  rw [Bytes.getFrom_eq_some h.backupOff_le]
  simp only [h.backup_parses, List.mem_filterMap]
  constructor
  · rintro ⟨a, ⟨⟨f, v', w'⟩, hmem, ha⟩, hk⟩
    split_ifs at ha with hne
    rw [← Option.some.inj ha, Anomaly.new_kind] at hk
    injection hk with _ hf hv hw ho
    subst hf hv hw
    refine ⟨ho.symm, hne, ?_⟩
    simpa only [List.mem_cons, List.not_mem_nil, or_false, Prod.mk.injEq] using hmem
  · rintro ⟨rfl, hne, hcase⟩
    refine ⟨_, ⟨(field, v, w), ?_, if_neg hne⟩, rfl⟩
    simpa only [List.mem_cons, List.not_mem_nil, or_false, Prod.mk.injEq] using hcase

/-- The audit reports exactly the differences among the four compared fields. -/
theorem reportsDivergence_iff {field : String} {v w : ℕ} :
    ReportsDivergence p c field v w ↔ v ≠ w ∧
      ((field = "fs_ipg" ∧ v = i32AsU64 sb.ipg ∧ w = i32AsU64 backup.ipg) ∨
        (field = "fs_fpg" ∧ v = i32AsU64 sb.fpg ∧ w = i32AsU64 backup.fpg) ∨
        (field = "fs_bsize" ∧ v = i32AsU64 sb.bsize ∧ w = i32AsU64 backup.bsize) ∨
        (field = "fs_ncg" ∧ v = sb.ncg.toNat ∧ w = backup.ncg.toNat)) := by
  have hfs := h.wellFormed.fsize_pos
  have hncg := h.wellFormed.ncg_le
  have hlt := h.lt_ncg
  have hpos (x : Int32) (hx : 0 < x.toInt) : 0 < i32AsU64 x := by
    rw [i32AsU64_of_nonneg hx.le]
    omega
  unfold ReportsDivergence
  simp only [mem_auditImage_iff h.parses h.possible, if_pos hfs, if_pos h.fpg_pos,
    if_pos h.sblkno_pos.le, mem_checkAllCgs]
  constructor
  · rintro ⟨a, ha | ha, offset, hk⟩
    · obtain ⟨-, -, cg, hcg, ⟨-, -, ha⟩ | ⟨-, ha⟩⟩ := ha
      · obtain ⟨_, _, _, hk'⟩ := checkBackupSb_kind ha
        rw [hk'] at hk
        injection hk with hcg' hf hv hw ho
        have hcc : cg = c := by
          have := congrArg UInt32.toNat hcg'
          rwa [UInt32.toNat_ofNat_of_lt' (by unfold UInt32.size; omega),
            UInt32.toNat_ofNat_of_lt' (by unfold UInt32.size; omega)] at this
        subst hcc hf hv hw
        rw [h.satMul_backupOff] at ha hk'
        exact (h.mem_checkBackupSb_iff.mp ⟨a, ha, hk'⟩).2
      · obtain ⟨_, hk'⟩ := checkCgMagic_kind ha
        rw [hk'] at hk
        exact nomatch hk
    · obtain ⟨_, _, hk'⟩ := checkOrphanedInodes_kind ha
      rw [hk'] at hk
      exact nomatch hk
  · intro hcase
    obtain ⟨a, ha, hk⟩ : ∃ a ∈ checkBackupSb p sb (UInt32.ofNat c) (sb.backupOff c),
        a.kind = .backupSuperblockDivergence (UInt32.ofNat c) field v w (sb.backupOff c) :=
      h.mem_checkBackupSb_iff.mpr ⟨rfl, hcase⟩
    refine ⟨a, Or.inl ⟨hpos _ hfs, hpos _ h.fpg_pos, c, hlt, Or.inl ⟨h.one_le,
      hpos _ h.sblkno_pos, ?_⟩⟩, _, hk⟩
    rw [h.satMul_backupOff]
    exact ha

theorem exists_reportsDivergence_iff :
    (∃ field v w, ReportsDivergence p c field v w) ↔ sb.ComparedDiffers backup := by
  simp only [h.reportsDivergence_iff]
  unfold Superblock.ComparedDiffers
  constructor
  · rintro ⟨_, _, _, hne, ⟨-, rfl, rfl⟩ | ⟨-, rfl, rfl⟩ | ⟨-, rfl, rfl⟩ | ⟨-, rfl, rfl⟩⟩
    · exact Or.inl (mt i32AsU64_inj.mpr hne)
    · exact Or.inr (Or.inl (mt i32AsU64_inj.mpr hne))
    · exact Or.inr (Or.inr (Or.inl (mt i32AsU64_inj.mpr hne)))
    · exact Or.inr (Or.inr (Or.inr (mt (congrArg UInt32.toNat) hne)))
  · rintro (hne | hne | hne | hne)
    · exact ⟨_, _, _, mt i32AsU64_inj.mp hne, Or.inl ⟨rfl, rfl, rfl⟩⟩
    · exact ⟨_, _, _, mt i32AsU64_inj.mp hne, Or.inr (Or.inl ⟨rfl, rfl, rfl⟩)⟩
    · exact ⟨_, _, _, mt i32AsU64_inj.mp hne, Or.inr (Or.inr (Or.inl ⟨rfl, rfl, rfl⟩))⟩
    · exact ⟨_, _, _, mt UInt32.toNat_inj.mp hne, Or.inr (Or.inr (Or.inr ⟨rfl, rfl, rfl⟩))⟩

end BackupInScope

/-- The audit reports a divergence for group `c` exactly when the geometries differ, and every
reported pair holds the two values of a field that differs. -/
structure DivergenceExact (p : Bytes) (sb : Superblock) (c : ℕ) (backup : Superblock) : Prop where
  finding_iff : (∃ field v w, ReportsDivergence p c field v w) ↔ sb.GeometryDiffers backup
  pair : ∀ field v w, ReportsDivergence p c field v w →
    (field, v) ∈ sb.geometryFields ∧ (field, w) ∈ backup.geometryFields ∧ v ≠ w

/-- It does so exactly when a compared field differs, or the geometries do not differ at all. -/
theorem divergenceExact_iff (h : BackupInScope p sb c backup) :
    DivergenceExact p sb c backup ↔ sb.ComparedDiffers backup ∨ ¬ sb.GeometryDiffers backup := by
  constructor
  · intro hexact
    have hiff := hexact.finding_iff
    rw [h.exists_reportsDivergence_iff] at hiff
    by_cases hd : sb.GeometryDiffers backup
    · exact Or.inl (hiff.mpr hd)
    · exact Or.inr hd
  · intro hcond
    constructor
    · rw [h.exists_reportsDivergence_iff]
      exact ⟨fun hd => hd.geometryDiffers, fun hd => hcond.resolve_right (not_not_intro hd)⟩
    · intro field v w hreport
      obtain ⟨hne, hcase⟩ := h.reportsDivergence_iff.mp hreport
      unfold Superblock.geometryFields
      rcases hcase with ⟨rfl, rfl, rfl⟩ | ⟨rfl, rfl, rfl⟩ | ⟨rfl, rfl, rfl⟩ | ⟨rfl, rfl, rfl⟩ <;>
        exact ⟨by simp, by simp, hne⟩

namespace Crafted

/-- Two groups, the backup superblock of the second with the given number of pointers per
indirect block. -/
def backupWith (nindir : ℕ) : Bytes :=
  Bytes.ofPatches 65536 (by decide) (twoGroups.superblock SBLOCK_UFS1 ++
    { twoGroups with nindir := nindir }.superblock 40960)

def backupSb (nindir : ℕ) : Superblock :=
  Superblock.decode ((backupWith nindir).slice 40960 SB_MIN_LEN) .ufs1 .little

theorem backupWith_inScope : BackupInScope (backupWith 64) twoGroupsSb 1 (backupSb 64) where
  parses := by decide +kernel
  possible := by decide +kernel
  one_le := le_refl 1
  lt_ncg := by decide +kernel
  fpg_pos := by decide +kernel
  sblkno_pos := by decide +kernel
  backup_parses := by decide +kernel

end Crafted

theorem divergenceExact_iff_backupWith :
    DivergenceExact (Crafted.backupWith 64) Crafted.twoGroupsSb 1 (Crafted.backupSb 64) ↔
      Crafted.twoGroupsSb.ComparedDiffers (Crafted.backupSb 64) ∨
        ¬ Crafted.twoGroupsSb.GeometryDiffers (Crafted.backupSb 64) :=
  divergenceExact_iff Crafted.backupWith_inScope

/-- The backup of the crafted volume has another `fs_nindir`, and no divergence is reported. -/
theorem divergence_of_nindir_unreported :
    BackupInScope (Crafted.backupWith 64) Crafted.twoGroupsSb 1 (Crafted.backupSb 64) ∧
      ¬ DivergenceExact (Crafted.backupWith 64) Crafted.twoGroupsSb 1 (Crafted.backupSb 64) := by
  refine ⟨Crafted.backupWith_inScope, fun h => ?_⟩
  have hdiffers : Crafted.twoGroupsSb.GeometryDiffers (Crafted.backupSb 64) :=
    Superblock.geometryDiffers_of_nindir (by decide +kernel)
  obtain ⟨field, v, w, a, ha, offset, hk⟩ := h.finding_iff.mpr hdiffers
  have hkinds : (auditImage (Crafted.backupWith 64)).map Anomaly.kind =
      [.cgMagicInvalid 0 0 10240, .cgMagicInvalid 1 0 43008] := by decide +kernel
  have hmem := List.mem_map_of_mem (f := Anomaly.kind) ha
  rw [hkinds, hk] at hmem
  simp at hmem

end UfsForensic
