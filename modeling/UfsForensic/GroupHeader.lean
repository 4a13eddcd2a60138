import UfsForensic.Audit
import UfsForensic.Crafted
import UfsForensic.PrimarySuperblock

/-!
# Group headers

The reader takes the header of a group in the byte order of the superblock; the auditor reads its
magic in both orders and reports the little-endian value. This module says where a header lies and
when the two verdicts on it agree.
-/

namespace UfsForensic

namespace Superblock

/-- `fs_fpg` as a count, `0` when it is negative. -/
def fragsPerGroup (sb : Superblock) : ℕ := sb.fpg.toInt.toNat

def headerOff (sb : Superblock) (cg : ℕ) : ℕ :=
  (cg * sb.fragsPerGroup + sb.cblkno.toInt.toNat) * sb.fragBytes

end Superblock

variable {p : Bytes} {sb : Superblock} {c : ℕ}

/-- The partition from an address computed with saturation is the partition from the exact one. -/
theorem getFrom_satAddr (g a b : ℕ) {n : ℕ} (hn : 0 < n) :
    p.getFrom (satAddr g a b n) = p.getFrom ((g * a + b) * n) := by
  have hlen := p.len_lt_u64Max
  rcases Nat.lt_or_ge p.len ((g * a + b) * n) with h | h
  · rw [Bytes.getFrom_eq_none h, Bytes.getFrom_eq_none]
    have := satAddr_le_iff (g := g) (a := a) (b := b) hlen hn
    omega
  · rw [satAddr_eq hlen hn ((satAddr_le_iff hlen hn).mpr h)]

theorem getFrom_header (hsb : sb.WellFormed) (hfpg : 0 ≤ sb.fpg.toInt) (hcb : 0 ≤ sb.cblkno.toInt)
    (cg : ℕ) :
    p.getFrom (satAddr cg (i32AsU64 sb.fpg) (i32AsU64 sb.cblkno) (i32AsU64 sb.fsize)) =
      p.getFrom (sb.headerOff cg) := by
  rw [i32AsU64_of_nonneg hfpg, i32AsU64_of_nonneg hcb, hsb.fsize_eq,
    getFrom_satAddr _ _ _ hsb.fragBytes_pos]
  rfl

theorem checkCgMagic_eq {cg : UInt32} {off : ℕ} (h : off + 8 ≤ p.len) :
    checkCgMagic p cg off =
      if leU32 p (off + 4) ≠ CG_MAGIC ∧ beU32 p (off + 4) ≠ CG_MAGIC then
        [Anomaly.new (.cgMagicInvalid cg (leU32 p (off + 4)) off)]
      else [] := by
  have hle : readU32Le (p.slice off (p.len - off)) CG_MAGIC_OFF = leU32 p (off + 4) :=
    Endian.u32_slice (by unfold CG_MAGIC_OFF; omega) .little
  have hbe : readU32Be (p.slice off (p.len - off)) CG_MAGIC_OFF = beU32 p (off + 4) :=
    Endian.u32_slice (by unfold CG_MAGIC_OFF; omega) .big
  unfold checkCgMagic
  rw [Bytes.getFrom_eq_some (by omega)]
  dsimp only
  rw [if_neg (by rw [Bytes.slice_len]; unfold CG_MAGIC_OFF; omega), hle, hbe]

theorem parse_header_eq_badCgMagic_iff {off : ℕ} (h : off + CylinderGroup.CG_MIN_LEN ≤ p.len)
    (e : Endian) (found : UInt32) :
    CylinderGroup.parse (p.slice off (p.len - off)) e = .error (.badCgMagic found e) ↔
      e.u32 p (off + 4) ≠ CG_MAGIC ∧ e.u32 p (off + 4) = found := by
  unfold CylinderGroup.CG_MIN_LEN at h
  rw [CylinderGroup.parse_eq_badCgMagic_iff (by
    rw [Bytes.slice_len]
    unfold CylinderGroup.CG_MIN_LEN
    omega)]
  unfold CylinderGroup.OFF_MAGIC
  rw [Endian.u32_slice (by omega)]

theorem beU32_ne_of_leU32_eq {off : ℕ} (h : leU32 p off = CG_MAGIC) : beU32 p off ≠ CG_MAGIC := by
  let m : ℕ → UInt8 := fun i => [0x55, 0x02, 0x09, 0x00].getD i 0
  have hm : CG_MAGIC = UInt32.ofNat (Bytes.leNat m 4) := by decide
  rw [leU32, hm] at h
  have hbytes := Superblock.ofNat_leNat_inj h
  rw [beU32, Bytes.beNat_congr hbytes]
  decide

/-- The audit of `p` reports the header of group `c` with the magic `found`. -/
def ReportsCgMagic (p : Bytes) (c : ℕ) (found : UInt32) : Prop :=
  ∃ a ∈ auditImage p, ∃ offset, a.kind = .cgMagicInvalid (UInt32.ofNat c) found offset

/-- Group `c` is one the audit gets to, and its whole header lies in the partition. -/
structure HeaderInScope (p : Bytes) (sb : Superblock) (c : ℕ) : Prop where
  parses : parsePrimarySb p = .ok sb
  possible : GeometryPossible p sb
  lt_ncg : c < sb.ncg.toNat
  fpg_pos : 0 < sb.fpg.toInt
  cblkno_pos : 0 < sb.cblkno.toInt
  inside : sb.headerOff c + CylinderGroup.CG_MIN_LEN ≤ p.len

/-- The auditor reports group `c` exactly when the reader rejects its magic, with the value the
reader names, and so reports every group whose header does not parse. -/
structure HeaderVerdictsAgree (p : Bytes) (sb : Superblock) (c : ℕ) : Prop where
  finding_iff : ∀ found, ReportsCgMagic p c found ↔
    CylinderGroup.parse (p.slice (sb.headerOff c) (p.len - sb.headerOff c)) sb.endian =
      .error (.badCgMagic found sb.endian)
  dropped : (∀ cgh, CylinderGroup.parse (p.slice (sb.headerOff c) (p.len - sb.headerOff c))
    sb.endian ≠ .ok cgh) → ∃ found, ReportsCgMagic p c found

/-- The magic bytes of the header of group `c` mean the same to both: on a little-endian image they
are not the magic written backwards, on a big-endian image they are the magic or a palindrome. -/
def MagicUnambiguous (p : Bytes) (sb : Superblock) (c : ℕ) : Prop :=
  match sb.endian with
  | .little => beU32 p (sb.headerOff c + 4) ≠ CG_MAGIC
  | .big => beU32 p (sb.headerOff c + 4) = CG_MAGIC ∨
    leU32 p (sb.headerOff c + 4) = beU32 p (sb.headerOff c + 4)

namespace HeaderInScope

variable (h : HeaderInScope p sb c)
include h

theorem wellFormed : sb.WellFormed := wellFormed_of_parsePrimarySb h.parses

/-- The audit reports group `c` exactly when its header's magic is wrong in both orders. -/
theorem reportsCgMagic_iff (found : UInt32) :
    ReportsCgMagic p c found ↔ leU32 p (sb.headerOff c + 4) ≠ CG_MAGIC ∧
      beU32 p (sb.headerOff c + 4) ≠ CG_MAGIC ∧ leU32 p (sb.headerOff c + 4) = found := by
  have hsb := h.wellFormed
  have hfs := hsb.fsize_pos
  have hfpg := h.fpg_pos
  have hcb := h.cblkno_pos
  have hncg := hsb.ncg_le
  have hin := h.inside
  have hlt := h.lt_ncg
  unfold CylinderGroup.CG_MIN_LEN at hin
  have hoff : satMul (satAdd (satMul c (i32AsU64 sb.fpg)) (i32AsU64 sb.cblkno)) (i32AsU64 sb.fsize)
      = sb.headerOff c := by
    rw [i32AsU64_of_nonneg hfpg.le, i32AsU64_of_nonneg hcb.le, hsb.fsize_eq]
    have hle : sb.headerOff c ≤ p.len := by omega
    exact satAddr_eq p.len_lt_u64Max hsb.fragBytes_pos
      ((satAddr_le_iff p.len_lt_u64Max hsb.fragBytes_pos).mpr hle)
  have hpos (x : Int32) (hx : 0 < x.toInt) : 0 < i32AsU64 x := by
    rw [i32AsU64_of_nonneg hx.le]
    omega
  unfold ReportsCgMagic
  simp only [mem_auditImage_iff h.parses h.possible, if_pos hfs, if_pos hfpg, if_pos hcb.le,
    mem_checkAllCgs]
  constructor
  · rintro ⟨a, ha | ha, offset, hk⟩
    · obtain ⟨-, -, cg, hcg, ⟨-, -, ha⟩ | ⟨-, ha⟩⟩ := ha
      · obtain ⟨_, _, _, hk'⟩ := checkBackupSb_kind ha
        rw [hk'] at hk
        exact nomatch hk
      · obtain ⟨_, hk'⟩ := checkCgMagic_kind ha
        rw [hk'] at hk
        injection hk with hcg' _ _
        have hcc : cg = c := by
          have := congrArg UInt32.toNat hcg'
          rwa [UInt32.toNat_ofNat_of_lt' (by unfold UInt32.size; omega),
            UInt32.toNat_ofNat_of_lt' (by unfold UInt32.size; omega)] at this
        subst hcc
        rw [hoff, checkCgMagic_eq (by omega)] at ha
        split_ifs at ha with hm
        · rw [List.mem_singleton.mp ha, Anomaly.new_kind] at hk'
          injection hk' with _ hf _
          exact ⟨hm.1, hm.2, by rw [hf]; assumption⟩
        · exact absurd ha List.not_mem_nil
    · obtain ⟨_, _, hk'⟩ := checkOrphanedInodes_kind ha
      rw [hk'] at hk
      exact nomatch hk
  · rintro ⟨hle, hbe, rfl⟩
    refine ⟨Anomaly.new (.cgMagicInvalid (UInt32.ofNat c) _ (sb.headerOff c)), Or.inl ?_,
      sb.headerOff c, rfl⟩
    refine ⟨hpos _ hfs, hpos _ hfpg, c, hlt, Or.inr ⟨hpos _ hcb, ?_⟩⟩
    rw [hoff, checkCgMagic_eq (by omega), if_pos ⟨hle, hbe⟩]
    exact List.mem_singleton_self _

end HeaderInScope

/-- The verdicts on the header of a group in scope agree exactly when its magic is unambiguous. -/
theorem headerVerdictsAgree_iff (h : HeaderInScope p sb c) :
    HeaderVerdictsAgree p sb c ↔ MagicUnambiguous p sb c := by
  have hin := h.inside
  have hlt : CylinderGroup.CG_MIN_LEN ≤ (p.slice (sb.headerOff c) (p.len - sb.headerOff c)).len := by
    rw [Bytes.slice_len]
    omega
  have hdrop : (∀ cgh, CylinderGroup.parse (p.slice (sb.headerOff c) (p.len - sb.headerOff c))
      sb.endian ≠ .ok cgh) → ∃ found, CylinderGroup.parse
        (p.slice (sb.headerOff c) (p.len - sb.headerOff c)) sb.endian =
          .error (.badCgMagic found sb.endian) := by
    intro hno
    by_contra hcon
    push Not at hcon
    obtain ⟨cgh, hok⟩ := CylinderGroup.parse_eq_ok_of_ne_badCgMagic hlt hcon
    exact hno cgh hok
  constructor
  · intro hagree
    have hiff := hagree.finding_iff
    simp only [h.reportsCgMagic_iff, parse_header_eq_badCgMagic_iff hin] at hiff
    unfold MagicUnambiguous
    cases he : sb.endian with
    | little =>
      simp only [he, Endian.u32] at hiff
      intro hbe
      have hle : leU32 p (sb.headerOff c + 4) ≠ CG_MAGIC := fun hc =>
        beU32_ne_of_leU32_eq hc hbe
      exact ((hiff _).mpr ⟨hle, rfl⟩).2.1 hbe
    | big =>
      -- the finding carries the little-endian reading
      simp only [he, Endian.u32] at hiff
      by_cases hbe : beU32 p (sb.headerOff c + 4) = CG_MAGIC
      · exact Or.inl hbe
      · exact Or.inr ((hiff _).mpr ⟨hbe, rfl⟩).2.2
  · intro hmagic
    have hiff : ∀ found, ReportsCgMagic p c found ↔
        CylinderGroup.parse (p.slice (sb.headerOff c) (p.len - sb.headerOff c)) sb.endian =
          .error (.badCgMagic found sb.endian) := by
      intro found
      rw [h.reportsCgMagic_iff, parse_header_eq_badCgMagic_iff hin]
      unfold MagicUnambiguous at hmagic
      cases he : sb.endian with
      | little =>
        simp only [he] at hmagic
        simp [Endian.u32, hmagic]
      | big =>
        simp only [he] at hmagic
        rcases hmagic with hm | hm
        · simp [Endian.u32, hm]
        · simp [Endian.u32, hm]
    refine ⟨hiff, fun hno => ?_⟩
    obtain ⟨found, hf⟩ := hdrop hno
    exact ⟨found, (hiff found).mpr hf⟩

namespace Crafted

/-- A little-endian volume whose only group header carries its magic in big-endian order. -/
def reversedHeader : Bytes := volume [(10240 + CylinderGroup.OFF_MAGIC, int .big 4 CG_MAGIC.toNat)]

theorem reversedHeader_inScope : HeaderInScope reversedHeader tinySb 0 where
  parses := by decide +kernel
  possible := by decide +kernel
  lt_ncg := by decide +kernel
  fpg_pos := by decide +kernel
  cblkno_pos := by decide +kernel
  inside := by decide +kernel

end Crafted

theorem headerVerdictsAgree_iff_reversed :
    HeaderVerdictsAgree Crafted.reversedHeader Crafted.tinySb 0 ↔
      MagicUnambiguous Crafted.reversedHeader Crafted.tinySb 0 :=
  headerVerdictsAgree_iff Crafted.reversedHeader_inScope

/-- The reader drops the group of the crafted volume, the audit finds nothing. -/
theorem reversed_header_unreported : HeaderInScope Crafted.reversedHeader Crafted.tinySb 0 ∧
    ¬ HeaderVerdictsAgree Crafted.reversedHeader Crafted.tinySb 0 := by
  refine ⟨Crafted.reversedHeader_inScope, fun h => ?_⟩
  have hbad : CylinderGroup.parse (Crafted.reversedHeader.slice (Crafted.tinySb.headerOff 0)
      (Crafted.reversedHeader.len - Crafted.tinySb.headerOff 0)) Crafted.tinySb.endian =
        .error (.badCgMagic 0x55020900 Crafted.tinySb.endian) := by decide +kernel
  obtain ⟨a, ha, -⟩ := (h.finding_iff 0x55020900).mpr hbad
  have hclean : auditImage Crafted.reversedHeader = [] := by decide +kernel
  rw [hclean] at ha
  exact absurd ha List.not_mem_nil

end UfsForensic
