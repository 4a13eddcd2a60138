import UfsForensic.Vfs
import UfsForensic.Recover
import UfsForensic.Crafted

/-!
# Locating the primary superblock

The adapter and the auditor look for the primary superblock independently, at the same two offsets.
One attempt has three outcomes: the region is cut short, it carries no UFS magic, or it carries one
and its geometry is accepted or rejected. Both locators, and the magic finding, are decided by the
pair of outcomes.
-/

namespace UfsForensic

open UfsFs (parsePrimary)

/-- The four bytes at `fs_magic` of the region at `off`. -/
def magicAt (p : Bytes) (off : ℕ) : Vector UInt8 4 :=
  Vector.ofFn fun i : Fin 4 => p.byte (off + FS_MAGIC_OFF + i)

/-- A whole superblock region at `off` that carries a UFS magic. -/
def HoldsMagic (p : Bytes) (off : ℕ) : Prop :=
  off + SB_MIN_LEN ≤ p.len ∧ magicAt p off ∈ Superblock.ufsMagics

/-- A whole superblock region at `off` that carries no UFS magic. -/
def ForeignRegion (p : Bytes) (off : ℕ) : Prop :=
  off + SB_MIN_LEN ≤ p.len ∧ magicAt p off ∉ Superblock.ufsMagics

theorem magicBytes_slice {p : Bytes} {off : ℕ} (h : off + SB_MIN_LEN ≤ p.len) :
    Superblock.magicBytes (p.slice off (p.len - off)) = magicAt p off := by
  unfold SB_MIN_LEN at h
  unfold Superblock.magicBytes magicAt
  congr 1
  funext i
  have hi := i.isLt
  rw [u8At, Bytes.slice_byte_of_lt (by unfold FS_MAGIC_OFF; omega), Nat.add_assoc]

inductive Attempt (p : Bytes) (off : ℕ) : Except UfsError Superblock → Prop
  | short (what : String) (need avail : ℕ) (h : p.len < off + SB_MIN_LEN) :
    Attempt p off (.error (.truncated what need avail))
  | foreign (le be : UInt32) (h : ForeignRegion p off) :
    Attempt p off (.error (.badMagic FS_MAGIC_OFF (magicAt p off) le be))
  | rejected (field : String) (value limit : ℕ) (h : HoldsMagic p off) :
    Attempt p off (.error (.impossibleGeometry field value limit))
  | found (sb : Superblock) (h : HoldsMagic p off) : Attempt p off (.ok sb)

theorem validateGeometry_cases (sb : Superblock) :
    sb.validateGeometry = .ok () ∨
      ∃ field value limit, sb.validateGeometry = .error (.impossibleGeometry field value limit) := by
  unfold Superblock.validateGeometry
  split_ifs
  · exact Or.inr ⟨_, _, _, rfl⟩
  · exact Or.inr ⟨_, _, _, rfl⟩
  · exact Or.inr ⟨_, _, _, rfl⟩
  · exact Or.inl rfl

theorem attempt_parsePrimary (p : Bytes) (off : ℕ) : Attempt p off (parsePrimary p off) := by
  unfold parsePrimary
  rcases Nat.lt_or_ge p.len off with hoff | hoff
  · rw [Bytes.getFrom_eq_none hoff]
    exact .short _ _ _ (by omega)
  rw [Bytes.getFrom_eq_some hoff]
  simp only [Superblock.parse, Bytes.slice_len, min_self]
  by_cases hlen : p.len - off < SB_MIN_LEN
  · rw [if_pos hlen]
    exact .short _ _ _ (by omega)
  rw [if_neg hlen, magicBytes_slice (by omega)]
  cases hd : Superblock.detect (Superblock.fromLeBytes (magicAt p off))
      (Superblock.fromBeBytes (magicAt p off)) with
  | none => exact .foreign _ _ ⟨by omega, (Superblock.detect_eq_none_iff _).mp hd⟩
  | some ve =>
    have hmagic : HoldsMagic p off := by
      refine ⟨by omega, ?_⟩
      by_contra hcon
      rw [← Superblock.detect_eq_none_iff, hd] at hcon
      exact nomatch hcon
    obtain ⟨v, e⟩ := ve
    dsimp only
    rcases validateGeometry_cases (Superblock.decode (p.slice off (p.len - off)) v e) with
      hv | ⟨field, value, limit, hv⟩
    · rw [hv]
      exact .found _ hmagic
    · rw [hv]
      exact .rejected _ _ _ hmagic

theorem tryOffsets_cons (p : Bytes) (off : ℕ) (rest : List ℕ) :
    tryOffsets p (off :: rest) =
      match parsePrimary p off with
      | .ok sb => .ok sb
      | .error (.badMagic _ bytes _ _) => .error (.magicInvalid (off + FS_MAGIC_OFF) bytes)
      | .error _ => tryOffsets p rest := by
  rw [tryOffsets, parsePrimary]
  cases p.getFrom off with
  | none => rfl
  | some slice => rfl

/-- The superblock the adapter mounts: the one at the UFS2 offset, or, when none is accepted there,
the one at the UFS1 offset. -/
def Mounts (p : Bytes) (sb : Superblock) : Prop :=
  parsePrimary p SBLOCK_UFS2 = .ok sb ∨
    ((∀ sb', parsePrimary p SBLOCK_UFS2 ≠ .ok sb') ∧ parsePrimary p SBLOCK_UFS1 = .ok sb)

theorem mounts_of_rejected {p : Bytes} {sb : Superblock}
    (h2 : (parsePrimary p SBLOCK_UFS2).toBool = false) (h1 : parsePrimary p SBLOCK_UFS1 = .ok sb) :
    Mounts p sb := by
  refine Or.inr ⟨fun sb' hsb' => ?_, h1⟩
  rw [hsb'] at h2
  exact nomatch h2

/-- A read of the whole length of the source counts the bytes of `p` and leaves them at the start of
the buffer. -/
def HandsOver (source : DynSource) (p : Bytes) : Prop :=
  ∃ buf, source.readAt 0 (Bytes.zeros source.len source.len_lt) = .ok (p.len, buf) ∧
    buf.take p.len = p

theorem openSource_eq_ok_iff {source : DynSource} {p : Bytes} (h : HandsOver source p)
    {fs : UfsFs} : UfsFs.openSource source = .ok fs ↔ fs.image = p ∧ Mounts p fs.sb := by
  obtain ⟨buf, hread, htake⟩ := h
  simp only [UfsFs.openSource, hread, bind, Except.bind, htake, Mounts]
  obtain ⟨image, sb⟩ := fs
  cases h2 : parsePrimary p SBLOCK_UFS2 with
  | ok sb2 => simp [pure, Except.pure, eq_comm]
  | error e2 =>
    cases h1 : parsePrimary p SBLOCK_UFS1 with
    | ok sb1 => simp [pure, Except.pure, eq_comm]
    | error e1 => simp [throw, throwThe, MonadExceptOf.throw]

/-- The auditor's locator never finds another superblock than the adapter. -/
theorem mounts_of_parsePrimarySb {p : Bytes} {sb : Superblock} (h : parsePrimarySb p = .ok sb) :
    Mounts p sb := by
  unfold parsePrimarySb at h
  rw [tryOffsets_cons, tryOffsets_cons] at h
  have h2 := attempt_parsePrimary p SBLOCK_UFS2
  have h1 := attempt_parsePrimary p SBLOCK_UFS1
  unfold Mounts
  generalize parsePrimary p SBLOCK_UFS2 = r2 at h h2 ⊢
  generalize parsePrimary p SBLOCK_UFS1 = r1 at h h1 ⊢
  cases h2 with
  | found sb2 _ =>
    exact Or.inl (congrArg _ (Except.ok.inj h))
  | foreign => exact nomatch h
  | short =>
    cases h1 with
    | found sb1 _ =>
      exact Or.inr ⟨fun _ hc => (nomatch hc), congrArg _ (Except.ok.inj h)⟩
    | _ => exact nomatch h
  | rejected =>
    cases h1 with
    | found sb1 _ =>
      exact Or.inr ⟨fun _ hc => (nomatch hc), congrArg _ (Except.ok.inj h)⟩
    | _ => exact nomatch h

theorem Mounts.wellFormed {p : Bytes} {sb : Superblock} (h : Mounts p sb) : sb.WellFormed := by
  have hparse (off : ℕ) (ho : parsePrimary p off = .ok sb) : sb.WellFormed := by
    unfold parsePrimary at ho
    split at ho
    · exact nomatch ho
    · exact Superblock.wellFormed_of_parse ho
  rcases h with h | h
  · exact hparse _ h
  · exact hparse _ h.2

theorem wellFormed_of_parsePrimarySb {p : Bytes} {sb : Superblock}
    (h : parsePrimarySb p = .ok sb) : sb.WellFormed := (mounts_of_parsePrimarySb h).wellFormed

/-- It finds the mounted superblock unless foreign bytes at the UFS2 offset end its search. -/
theorem parsePrimarySb_of_mounts {p : Bytes} {sb : Superblock} (h : Mounts p sb)
    (hf : ¬ (ForeignRegion p SBLOCK_UFS2 ∧ ∃ sb', parsePrimary p SBLOCK_UFS1 = .ok sb')) :
    parsePrimarySb p = .ok sb := by
  unfold parsePrimarySb
  rw [tryOffsets_cons, tryOffsets_cons]
  unfold Mounts at h
  have h2 := attempt_parsePrimary p SBLOCK_UFS2
  generalize parsePrimary p SBLOCK_UFS2 = r2 at h h2 ⊢
  cases h2 with
  | found sb2 _ =>
    rcases h with h | h
    · exact congrArg _ (Except.ok.inj h)
    · exact absurd rfl (h.1 sb2)
  | foreign le be hforeign =>
    -- the search ends here although the adapter goes on
    rcases h with h | h
    · exact nomatch h
    · exact absurd ⟨hforeign, sb, h.2⟩ hf
  | short =>
    rcases h with h | h
    · exact nomatch h
    · simp only [h.2]
  | rejected =>
    rcases h with h | h
    · exact nomatch h
    · simp only [h.2]

theorem parsePrimarySb_of_foreign {p : Bytes} (h : ForeignRegion p SBLOCK_UFS2) :
    parsePrimarySb p =
      .error (.magicInvalid (SBLOCK_UFS2 + FS_MAGIC_OFF) (magicAt p SBLOCK_UFS2)) := by
  unfold parsePrimarySb
  rw [tryOffsets_cons]
  have h2 := attempt_parsePrimary p SBLOCK_UFS2
  generalize parsePrimary p SBLOCK_UFS2 = r2 at h2 ⊢
  cases h2 with
  | foreign => rfl
  | short _ _ _ hs => exact absurd h.1 (by omega)
  | rejected _ _ _ hm => exact absurd hm.2 h.2
  | found _ hm => exact absurd hm.2 h.2

/-- Both locators agree on `p`: the auditor and the recovery proceed with the superblock the
adapter mounts, and whatever the auditor's locator finds the adapter mounts. -/
structure LocatorsAgree (p : Bytes) : Prop where
  proceeds : ∀ sb, Mounts p sb → parsePrimarySb p = .ok sb ∧ auditImage p = auditFrom p sb ∧
    ∀ sha256, recoverDeleted sha256 p = recoverFrom sha256 p sb
  opens : ∀ sb, parsePrimarySb p = .ok sb → ∀ source, HandsOver source p →
    UfsFs.openSource source = .ok { image := p, sb := sb }

/-- The locators agree exactly when it is not the case that a whole region without a UFS magic lies
at the UFS2 offset in front of a superblock accepted at the UFS1 offset. -/
theorem locatorsAgree_iff (p : Bytes) :
    LocatorsAgree p ↔
      ¬ (ForeignRegion p SBLOCK_UFS2 ∧ ∃ sb, parsePrimary p SBLOCK_UFS1 = .ok sb) := by
  constructor
  · rintro ⟨hproceeds, -⟩ ⟨hforeign, sb, hsb⟩
    have hmounts : Mounts p sb := by
      refine Or.inr ⟨fun sb' hsb' => ?_, hsb⟩
      have h2 := attempt_parsePrimary p SBLOCK_UFS2
      rw [hsb'] at h2
      cases h2 with
      | found _ hm => exact hforeign.2 hm.2
    have hlost := (hproceeds sb hmounts).1
    rw [parsePrimarySb_of_foreign hforeign] at hlost
    exact nomatch hlost
  · intro hf
    constructor
    · intro sb hsb
      have h := parsePrimarySb_of_mounts hsb hf
      exact ⟨h, by rw [auditImage, h], fun sha256 => by rw [recoverDeleted, h]⟩
    · intro sb h source hsource
      exact (openSource_eq_ok_iff hsource).mpr ⟨rfl, mounts_of_parsePrimarySb h⟩

namespace Crafted

/-- A UFS1 partition long enough to hold a region at the UFS2 offset, which is all zeros. -/
def ufs1BehindZeros : Bytes := Bytes.ofPatches 70000 (by norm_num) (tiny.superblock SBLOCK_UFS1)

end Crafted

/-- The adapter mounts the crafted partition, the auditor's locator gives up at byte 65536. -/
theorem locators_differ_on_ufs1 : ¬ LocatorsAgree Crafted.ufs1BehindZeros := by
  intro h
  have hmount : Mounts Crafted.ufs1BehindZeros (Superblock.decode
      (Crafted.ufs1BehindZeros.slice SBLOCK_UFS1 (70000 - SBLOCK_UFS1)) .ufs1 .little) :=
    mounts_of_rejected (by decide +kernel) (by decide +kernel)
  have hlost : (parsePrimarySb Crafted.ufs1BehindZeros).toBool = false := by decide +kernel
  rw [(h.proceeds _ hmount).1] at hlost
  exact nomatch hlost

def ReportsMagicInvalid (p : Bytes) : Prop :=
  ∃ a ∈ auditImage p, ∃ offset bytes, a.kind = .superblockMagicInvalid offset bytes

theorem reportsMagicInvalid_iff {p : Bytes} :
    ReportsMagicInvalid p ↔
      ∃ offset bytes, parsePrimarySb p = .error (.magicInvalid offset bytes) := by
  unfold ReportsMagicInvalid auditImage
  cases h : parsePrimarySb p with
  | ok sb =>
    constructor
    · rintro ⟨a, ha, offset, bytes, hk⟩
      exact absurd hk (auditFrom_kind_ne ha offset bytes)
    · rintro ⟨_, _, hc⟩
      exact nomatch hc
  | error e =>
    cases e with
    | notUfs => simp
    | magicInvalid offset bytes => simp

/-- The search ends in a magic failure at the UFS2 offset, or at the UFS1 offset when the attempt
at the UFS2 offset is cut short or rejected. -/
theorem reportsMagicInvalid_iff_regions {p : Bytes} :
    ReportsMagicInvalid p ↔ ForeignRegion p SBLOCK_UFS2 ∨
      ((∀ sb, parsePrimary p SBLOCK_UFS2 ≠ .ok sb) ∧ ForeignRegion p SBLOCK_UFS1) := by
  rw [reportsMagicInvalid_iff, parsePrimarySb, tryOffsets_cons, tryOffsets_cons]
  have h2 := attempt_parsePrimary p SBLOCK_UFS2
  have h1 := attempt_parsePrimary p SBLOCK_UFS1
  generalize parsePrimary p SBLOCK_UFS2 = r2 at h2 ⊢
  generalize parsePrimary p SBLOCK_UFS1 = r1 at h1 ⊢
  have hne (off : ℕ) (hm : HoldsMagic p off) : ¬ ForeignRegion p off := fun hf => hf.2 hm.2
  have hshort (off : ℕ) (hs : p.len < off + SB_MIN_LEN) : ¬ ForeignRegion p off := fun hf => by
    have := hf.1
    omega
  cases h2 with
  | found sb h => simp [hne _ h]
  | foreign le be h => simp [h]
  | short _ _ _ h =>
    cases h1 with
    | found _ h' => simp [hshort _ h, hne _ h']
    | foreign _ _ h' => simp [h']
    | short _ _ _ h' => simp [hshort _ h, hshort _ h', tryOffsets]
    | rejected _ _ _ h' => simp [hshort _ h, hne _ h', tryOffsets]
  | rejected _ _ _ h =>
    cases h1 with
    | found _ h' => simp [hne _ h, hne _ h']
    | foreign _ _ h' => simp [h']
    | short _ _ _ h' => simp [hne _ h, hshort _ h', tryOffsets]
    | rejected _ _ _ h' => simp [hne _ h, hne _ h', tryOffsets]

/-- The magic finding is sound on `p`: it is only reported when neither primary offset holds a
whole region with a UFS magic. -/
def MagicFindingSound (p : Bytes) : Prop :=
  ReportsMagicInvalid p → ¬ HoldsMagic p SBLOCK_UFS2 ∧ ¬ HoldsMagic p SBLOCK_UFS1

/-- The finding is sound exactly when the partition is too short for a region at the UFS2 offset,
or a superblock is accepted there, or the regions at both offsets carry a UFS magic, or neither. -/
theorem magicFindingSound_iff (p : Bytes) :
    MagicFindingSound p ↔ p.len < SBLOCK_UFS2 + SB_MIN_LEN ∨
      (∃ sb, parsePrimary p SBLOCK_UFS2 = .ok sb) ∨
      (magicAt p SBLOCK_UFS2 ∈ Superblock.ufsMagics ↔
        magicAt p SBLOCK_UFS1 ∈ Superblock.ufsMagics) := by
  unfold MagicFindingSound
  rw [reportsMagicInvalid_iff_regions]
  have h2 := attempt_parsePrimary p SBLOCK_UFS2
  generalize parsePrimary p SBLOCK_UFS2 = r2 at h2 ⊢
  unfold HoldsMagic ForeignRegion
  have hle : SBLOCK_UFS2 + SB_MIN_LEN ≤ p.len → SBLOCK_UFS1 + SB_MIN_LEN ≤ p.len := by
    unfold SBLOCK_UFS1 SBLOCK_UFS2
    omega
  cases h2 with
  | short _ _ _ h =>
    have hn : ¬ SBLOCK_UFS2 + SB_MIN_LEN ≤ p.len := Nat.not_le.mpr h
    simp only [h, hn, false_and, false_or, true_or, iff_true, not_false_eq_true, true_and]
    rintro ⟨_, hlen, hm⟩ hc
    exact hm hc.2
  | found sb h => simp [h.2]
  | foreign le be h =>
    have hn : ¬ p.len < SBLOCK_UFS2 + SB_MIN_LEN := Nat.not_lt.mpr h.1
    simp [h.1, h.2, hle h.1, hn]
  | rejected _ _ _ h =>
    have hn : ¬ p.len < SBLOCK_UFS2 + SB_MIN_LEN := Nat.not_lt.mpr h.1
    simp [h.1, h.2, hle h.1, hn]

/-- The crafted partition holds a UFS1 magic, and its audit reports a magic failure. -/
theorem magic_finding_unsound_on_ufs1 : ¬ MagicFindingSound Crafted.ufs1BehindZeros := by
  intro h
  have hreport : ReportsMagicInvalid Crafted.ufs1BehindZeros := by
    refine ⟨Anomaly.new (.superblockMagicInvalid 66908 #v[0, 0, 0, 0]), ?_, 66908, _, rfl⟩
    have hlost : parsePrimarySb Crafted.ufs1BehindZeros =
        .error (.magicInvalid 66908 #v[0, 0, 0, 0]) := by decide +kernel
    simp [auditImage, hlost]
  exact (h hreport).2 ⟨by decide, by decide +kernel⟩

end UfsForensic
