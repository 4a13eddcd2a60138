import UfsForensic.PrimarySuperblock
import UfsForensic.SuperblockCodec

/-!
# The offset of the mounted superblock

The parser takes either magic at either offset, while the probe looks for each magic at its own
offset only. A mounted superblock belongs to the offset it was found at, and its image is
recognised by the probe, exactly when the region it was found in carries that offset's own magic.
-/

namespace UfsForensic

open UfsFs (parsePrimary)

variable {p : Bytes} {sb : Superblock} {off : ℕ}

def UfsVersion.primaryOffset : UfsVersion → ℕ
  | .ufs1 => SBLOCK_UFS1
  | .ufs2 => SBLOCK_UFS2

theorem primaryOffset_eq (sb : Superblock) : sb.primaryOffset = sb.version.primaryOffset := by
  unfold Superblock.primaryOffset
  cases sb.version <;> rfl

/-- The adapter finds `sb` at offset `off`: at the UFS2 offset, or, when none is accepted there, at
the UFS1 offset. -/
def FoundAt (p : Bytes) (sb : Superblock) (off : ℕ) : Prop :=
  parsePrimary p off = .ok sb ∧ (off = SBLOCK_UFS2 ∨
    (off = SBLOCK_UFS1 ∧ ∀ sb', parsePrimary p SBLOCK_UFS2 ≠ .ok sb'))

theorem FoundAt.unique {off' : ℕ} (h : FoundAt p sb off) (h' : FoundAt p sb off') : off = off' := by
  rcases h with ⟨h, rfl | ⟨rfl, hnot⟩⟩ <;> rcases h' with ⟨h', rfl | ⟨rfl, hnot'⟩⟩
  · rfl
  · exact absurd h (hnot' _)
  · exact absurd h' (hnot _)
  · rfl

theorem mounts_iff_foundAt : Mounts p sb ↔ ∃ off, FoundAt p sb off := by
  constructor
  · rintro (h | ⟨hnot, h⟩)
    · exact ⟨SBLOCK_UFS2, h, Or.inl rfl⟩
    · exact ⟨SBLOCK_UFS1, h, Or.inr ⟨rfl, hnot⟩⟩
  · rintro ⟨off, h, rfl | ⟨rfl, hnot⟩⟩
    · exact Or.inl h
    · exact Or.inr ⟨hnot, h⟩

/-- Whatever the source returns, what is mounted is the superblock of the bytes read. -/
theorem mounts_of_openSource {source : DynSource} {fs : UfsFs}
    (h : UfsFs.openSource source = .ok fs) : Mounts fs.image fs.sb := by
  unfold UfsFs.openSource at h
  cases hread : source.readAt 0 (Bytes.zeros source.len source.len_lt) with
  | error e =>
    rw [hread] at h
    cases h
  | ok r =>
    obtain ⟨n, buf⟩ := r
    simp only [hread, bind, Except.bind] at h
    unfold Mounts
    generalize hp : buf.take n = image at h
    cases h2 : parsePrimary image SBLOCK_UFS2 with
    | ok sb2 =>
      simp only [h2, pure, Except.pure, Except.ok.injEq] at h
      subst h
      exact Or.inl h2
    | error e2 =>
      cases h1 : parsePrimary image SBLOCK_UFS1 with
      | ok sb1 =>
        simp only [h2, h1, pure, Except.pure, Except.ok.injEq] at h
        subst h
        refine Or.inr ⟨fun sb' hsb' => ?_, h1⟩
        rw [h2] at hsb'
        cases hsb'
      | error e1 =>
        simp [h2, h1, throw, throwThe, MonadExceptOf.throw] at h

theorem magicAt_of_parsePrimary (h : parsePrimary p off = .ok sb) :
    off + SB_MIN_LEN ≤ p.len ∧ magicAt p off = magicOf sb.version sb.endian := by
  have hlen : off + SB_MIN_LEN ≤ p.len := by
    have hatt := attempt_parsePrimary p off
    rw [h] at hatt
    cases hatt with
    | found _ hm => exact hm.1
  refine ⟨hlen, ?_⟩
  unfold parsePrimary at h
  rw [Bytes.getFrom_eq_some (by omega)] at h
  obtain ⟨-, v, e, hd, rfl, -⟩ := Superblock.parse_eq_ok_iff.mp h
  rw [magicBytes_slice hlen] at hd
  exact Superblock.detect_eq_some_iff.mp hd

theorem magicOf_inj {v v' : UfsVersion} {e e' : Endian} (h : magicOf v e = magicOf v' e') :
    v = v' ∧ e = e' := by
  have hd := Superblock.detect_eq_some_iff.mpr h
  rw [Superblock.detect_eq_some_iff.mpr rfl] at hd
  exact Prod.mk.inj (Option.some.inj hd)

/-- The region at `off` carries the magic of the version whose primary superblock lies there. -/
def OwnMagic (p : Bytes) (off : ℕ) : Prop :=
  ∃ v e, v.primaryOffset = off ∧ magicAt p off = magicOf v e

theorem ownMagic_iff (h : parsePrimary p off = .ok sb) :
    OwnMagic p off ↔ sb.primaryOffset = off := by
  have hmagic := (magicAt_of_parsePrimary h).2
  rw [primaryOffset_eq]
  constructor
  · rintro ⟨v, e, hoff, hm⟩
    rw [(magicOf_inj (hmagic.symm.trans hm)).1]
    exact hoff
  · intro hoff
    exact ⟨_, _, hoff, hmagic⟩

/-- The window holds the bytes of `p` from offset 0: a pattern is found at an offset exactly when
these bytes of `p` are the pattern. -/
def SniffWindow.Holds (w : SniffWindow) (p : Bytes) : Prop :=
  ∀ off pattern, w.hasMagic off pattern = true ↔
    off + pattern.length ≤ p.len ∧ (p.slice off pattern.length).toList = pattern

theorem toList_slice_magic {v : UfsVersion} {e : Endian} (hlen : off + SB_MIN_LEN ≤ p.len)
    (h : magicAt p off = magicOf v e) :
    (p.slice (off + FS_MAGIC_OFF) 4).toList = (magicOf v e).toList := by
  unfold SB_MIN_LEN at hlen
  rw [← h]
  apply List.ext_getElem
  · rw [Bytes.toList_length, Bytes.slice_len, Vector.length_toList]
    unfold FS_MAGIC_OFF
    omega
  · intro i h1 h2
    have hi : i < 4 := by simpa using h2
    rw [Bytes.toList_getElem, Bytes.slice_byte_of_lt hi]
    simp [magicAt]

theorem ufsProbe_of_ownMagic {w : SniffWindow} (hw : w.Holds p) (h : parsePrimary p off = .ok sb)
    (hoff : sb.primaryOffset = off) : ∃ how, ufsProbe w = .yes how := by
  obtain ⟨hlen, hmagic⟩ := magicAt_of_parsePrimary h
  have hbytes := toList_slice_magic hlen hmagic
  have hhas : ∀ pattern, (magicOf sb.version sb.endian).toList = pattern →
      w.hasMagic (off + FS_MAGIC_OFF) pattern = true := by
    rintro _ rfl
    unfold SB_MIN_LEN at hlen
    rw [hw, Vector.length_toList]
    exact ⟨by unfold FS_MAGIC_OFF; omega, hbytes⟩
  unfold ufsProbe
  rw [primaryOffset_eq] at hoff
  subst hoff
  cases hv : sb.version with
  | ufs2 =>
    have hany : (w.hasMagic UFS2_MAGIC_OFF UFS2_MAGIC_LE ||
        w.hasMagic UFS2_MAGIC_OFF UFS2_MAGIC_BE) = true := by
      rw [Bool.or_eq_true]
      rw [hv] at hhas
      cases he : sb.endian with
      | little => exact Or.inl (hhas _ (by rw [he]; decide))
      | big => exact Or.inr (hhas _ (by rw [he]; decide))
    exact ⟨_, if_pos hany⟩
  | ufs1 =>
    have hany : (w.hasMagic UFS1_MAGIC_OFF UFS1_MAGIC_LE ||
        w.hasMagic UFS1_MAGIC_OFF UFS1_MAGIC_BE) = true := by
      rw [Bool.or_eq_true]
      rw [hv] at hhas
      cases he : sb.endian with
      | little => exact Or.inl (hhas _ (by rw [he]; decide))
      | big => exact Or.inr (hhas _ (by rw [he]; decide))
    rw [if_pos hany]
    split_ifs
    · exact ⟨_, rfl⟩
    · exact ⟨_, rfl⟩

/-- The mounted superblock is the one for the offset it was found at, and the probe recognises its
image. -/
structure MountMatches (fs : UfsFs) (w : SniffWindow) : Prop where
  offset_eq : ∀ off, FoundAt fs.image fs.sb off → fs.sb.primaryOffset = off
  recognised : ∃ how, ufsProbe w = .yes how

/-- The region that is mounted carries the magic of the version that belongs to its offset. -/
def MountedMagicOwn (p : Bytes) : Prop :=
  ((∃ sb, parsePrimary p SBLOCK_UFS2 = .ok sb) ∧ OwnMagic p SBLOCK_UFS2) ∨
    ((∀ sb, parsePrimary p SBLOCK_UFS2 ≠ .ok sb) ∧ OwnMagic p SBLOCK_UFS1)

/-- The mounted superblock is the one for its offset, and the probe recognises the image, exactly
when the mounted region carries its own offset's magic. -/
theorem mountMatches_iff {source : DynSource} {fs : UfsFs} {w : SniffWindow}
    (hopen : UfsFs.openSource source = .ok fs) (hw : w.Holds fs.image) :
    MountMatches fs w ↔ MountedMagicOwn fs.image := by
  obtain ⟨off, hfound⟩ := mounts_iff_foundAt.mp (mounts_of_openSource hopen)
  have hcond : MountedMagicOwn fs.image ↔ OwnMagic fs.image off := by
    unfold MountedMagicOwn
    rcases hfound with ⟨h, rfl | ⟨rfl, hnot⟩⟩
    · constructor
      · rintro (⟨-, hown⟩ | ⟨hnot, -⟩)
        · exact hown
        · exact absurd h (hnot _)
      · intro hown
        exact Or.inl ⟨⟨_, h⟩, hown⟩
    · constructor
      · rintro (⟨⟨sb', h'⟩, -⟩ | ⟨-, hown⟩)
        · exact absurd h' (hnot sb')
        · exact hown
      · intro hown
        exact Or.inr ⟨hnot, hown⟩
  rw [hcond, ownMagic_iff hfound.1]
  constructor
  · intro hmatch
    exact hmatch.offset_eq off hfound
  · intro hoff
    refine ⟨fun off' hfound' => ?_, ufsProbe_of_ownMagic hw hfound.1 hoff⟩
    rw [hoff]
    exact hfound.unique hfound'

namespace Crafted

/-- A source that holds the bytes of `p`. -/
def memorySource (p : Bytes) : DynSource where
  len := p.len
  len_lt := p.len_lt
  readAt off buf :=
    match p.getFrom off with
    | none => .ok (0, buf)
    | some slice => .ok (min slice.len buf.len, buf.copyAt 0 (slice.take (min slice.len buf.len)))

def windowOf (p : Bytes) : SniffWindow where
  hasMagic off pattern :=
    off + pattern.length ≤ p.len ∧ (p.slice off pattern.length).toList = pattern

theorem windowOf_holds (p : Bytes) : (windowOf p).Holds p := fun _ _ => decide_eq_true_iff

/-- The UFS1 superblock of the tiny geometry, at the UFS2 offset. -/
def ufs1AtUfs2 : Bytes := Bytes.ofPatches 70000 (by decide) (tiny.superblock SBLOCK_UFS2)

def ufs1AtUfs2Fs : UfsFs where
  image := ufs1AtUfs2
  sb := Superblock.decode (ufs1AtUfs2.slice SBLOCK_UFS2 SB_MIN_LEN) .ufs1 .little

theorem handsOver_memorySource (p : Bytes) : HandsOver (memorySource p) p := by
  have hslice : p.slice 0 (p.len - 0) = p := Bytes.slice_zero_len p
  have hcopy : (Bytes.zeros p.len p.len_lt).copyAt 0 p = p := by
    refine Bytes.ext_of_lt rfl fun i hi => ?_
    have hin : i < 0 + p.len := by rwa [Nat.zero_add]
    exact Bytes.copyAt_byte_of_mem hi (Nat.zero_le i) hin
  have hmin : min p.len (Bytes.zeros p.len p.len_lt).len = p.len := min_self _
  refine ⟨p, ?_, Bytes.slice_zero_len p⟩
  unfold memorySource
  simp only [Bytes.getFrom_eq_some (Nat.zero_le p.len), hslice]
  rw [hmin, Bytes.take, Bytes.slice_zero_len, hcopy]

theorem openSource_ufs1AtUfs2 : UfsFs.openSource (memorySource ufs1AtUfs2) = .ok ufs1AtUfs2Fs := by
  have hparse : parsePrimary ufs1AtUfs2 SBLOCK_UFS2 = .ok ufs1AtUfs2Fs.sb := by decide +kernel
  exact (openSource_eq_ok_iff (handsOver_memorySource _)).mpr ⟨rfl, Or.inl hparse⟩

end Crafted

theorem mountMatches_iff_ufs1AtUfs2 :
    MountMatches Crafted.ufs1AtUfs2Fs (Crafted.windowOf Crafted.ufs1AtUfs2) ↔
      MountedMagicOwn Crafted.ufs1AtUfs2 :=
  mountMatches_iff Crafted.openSource_ufs1AtUfs2 (Crafted.windowOf_holds _)

/-- The adapter mounts a UFS1 superblock at the UFS2 offset, from an image the probe declines. -/
theorem ufs1_mounted_at_ufs2 :
    UfsFs.openSource (Crafted.memorySource Crafted.ufs1AtUfs2) = .ok Crafted.ufs1AtUfs2Fs ∧
      ufsProbe (Crafted.windowOf Crafted.ufs1AtUfs2) = .no ∧
      ¬ MountMatches Crafted.ufs1AtUfs2Fs (Crafted.windowOf Crafted.ufs1AtUfs2) := by
  have hno : ufsProbe (Crafted.windowOf Crafted.ufs1AtUfs2) = .no := by decide +kernel
  refine ⟨Crafted.openSource_ufs1AtUfs2, hno, fun h => ?_⟩
  obtain ⟨how, hyes⟩ := h.recognised
  rw [hno] at hyes
  exact nomatch hyes

end UfsForensic
