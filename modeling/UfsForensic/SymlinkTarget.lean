import UfsForensic.InlineSymlinks

/-!
# The length of a symlink's target

Whether a target is inline is decided by a threshold from outside, while the room for it depends on
the version: 60 bytes on UFS1, 120 on UFS2. A size between the two limits is cut to the room without
an error, and nothing else shortens a target.
-/

namespace UfsForensic

/-- The inode decoded from the dinode `data` keeps its target whole: an inline target is the first
`di_size` bytes of the pointer area, and a target that is read has `di_size` bytes. -/
structure TargetWhole (data : Bytes) (inode : Inode) : Prop where
  fits : ∀ t, inode.symlinkTarget = some t →
    inode.size.toNat ≤ (UFS_NDADDR + UFS_NIADDR) * inode.version.ptrSize
  inline : ∀ t, inode.symlinkTarget = some t → t.len = inode.size.toNat ∧
    ∀ i < inode.size.toNat, t.byte i = data.byte (inode.version.dbOff + i)
  read : ∀ partition sb t, readSymlinkTarget partition sb inode = .ok t →
    t.len = inode.size.toNat

/-- The dinode stores a symlink that is within the threshold, yet longer than its pointer area. -/
def OverfillsArea (data : Bytes) (version : UfsVersion) (e : Endian) (max : Int32) : Prop :=
  FileType.fromMode (Dinode.decode data version e).mode = .symlink ∧
    (UFS_NDADDR + UFS_NIADDR) * version.ptrSize < (Dinode.decode data version e).size.toNat ∧
    (Dinode.decode data version e).size.toNat ≤ max.toInt

/-- A target that is read has `di_size` bytes unless the inline one falls short. -/
theorem readSymlinkTarget_len {partition : Bytes} {sb : Superblock} {inode : Inode} {t : Bytes}
    (h : readSymlinkTarget partition sb inode = .ok t)
    (hinline : ∀ t, inode.symlinkTarget = some t → t.len = inode.size.toNat) :
    t.len = inode.size.toNat := by
  unfold readSymlinkTarget at h
  cases hlink : inode.symlinkTarget with
  | none =>
    rw [hlink] at h
    exact (readInodeFile_len h).2
  | some link =>
    rw [hlink] at h
    rw [← Except.ok.inj h, hinline link hlink]

theorem targetWhole_toInode_iff {data : Bytes} {version : UfsVersion} {e : Endian} {max : Int32}
    (hlen : version.dinodeSize ≤ data.len) :
    TargetWhole data
        ((Dinode.decode data version e).toInode version (Dinode.linkOf data version e max)) ↔
      ¬ OverfillsArea data version e max := by
  have harea := Dinode.area_inside version
  have hlink (t : Bytes) : Dinode.linkOf data version e max = some t ↔ _ :=
    Dinode.linkOf_eq_some_iff hlen
  constructor
  · rintro h ⟨hsym, hover, hmax⟩
    have hfits := h.fits _ ((hlink _).mpr ⟨hsym, by omega, hmax, rfl⟩)
    exact absurd hfits (Nat.not_le.mpr hover)
  · intro h
    have hroom (t : Bytes) (ht : Dinode.linkOf data version e max = some t) :
        (Dinode.decode data version e).size.toNat ≤
            (UFS_NDADDR + UFS_NIADDR) * version.ptrSize ∧
          t = data.slice version.dbOff (Dinode.decode data version e).size.toNat := by
      obtain ⟨hsym, -, hmax, rfl⟩ := (hlink t).mp ht
      have hle := Nat.not_lt.mp fun hover => h ⟨hsym, hover, hmax⟩
      exact ⟨hle, by rw [min_eq_left hle]⟩
    have hinline (t : Bytes) (ht : Dinode.linkOf data version e max = some t) :
        t.len = (Dinode.decode data version e).size.toNat := by
      obtain ⟨hle, rfl⟩ := hroom t ht
      rw [Bytes.slice_len]
      omega
    refine ⟨fun t ht => (hroom t ht).1, fun t ht => ⟨hinline t ht, fun i hi => ?_⟩,
      fun _ _ t ht => readSymlinkTarget_len ht hinline⟩
    obtain ⟨-, rfl⟩ := hroom t ht
    exact Bytes.slice_byte_of_lt hi

/-- The ways to an inode from the bytes of its dinode, with the threshold that applies: one given by
the caller, the default one, that of the superblock. -/
inductive DecodedFrom (inode : Inode) : Bytes → UfsVersion → Endian → Int32 → Prop
  | parseWithMaxsymlink {data : Bytes} {version : UfsVersion} {e : Endian} {max : Int32}
      (h : Inode.parseWithMaxsymlink data version e max = .ok inode) :
      DecodedFrom inode data version e max
  | parse {data : Bytes} {version : UfsVersion} {e : Endian}
      (h : Inode.parse data version e = .ok inode) :
      DecodedFrom inode data version e Inode.DEFAULT_MAXSYMLINKLEN
  | readInode {region partition : Bytes} {sb : Superblock} {ino : ℕ}
      (hparse : Superblock.parse region = .ok sb) (h : readInode partition sb ino = .ok inode) :
      DecodedFrom inode (partition.slice (sb.dinodeOff ino) sb.inodeSize) sb.version sb.endian
        sb.maxsymlinklen

theorem DecodedFrom.parse_eq {data : Bytes} {version : UfsVersion} {e : Endian} {max : Int32}
    {inode : Inode} (h : DecodedFrom inode data version e max) :
    Inode.parseWithMaxsymlink data version e max = .ok inode := by
  cases h with
  | parseWithMaxsymlink h => exact h
  | parse h => exact h
  | readInode hparse h =>
    obtain ⟨-, -, -, -, -, hdinode⟩ :=
      (readInode_eq_ok_iff (Superblock.wellFormed_of_parse hparse)).mp h
    exact hdinode

/-- A decoded inode keeps its target whole exactly when its dinode does not store a symlink within
the threshold that is longer than the pointer area. -/
theorem targetWhole_iff {data : Bytes} {version : UfsVersion} {e : Endian} {max : Int32}
    {inode : Inode} (h : DecodedFrom inode data version e max) :
    TargetWhole data inode ↔ ¬ OverfillsArea data version e max := by
  have hparse := h.parse_eq
  rw [Dinode.parse_eq_decode] at hparse
  split_ifs at hparse with hlen
  obtain rfl := Except.ok.inj hparse
  exact targetWhole_toInode_iff (Nat.not_lt.mp hlen)

namespace Crafted

/-- A UFS1 dinode of a symlink of 61 bytes, with 60 letters in the pointer area. -/
def longLink : Bytes := Bytes.ofPatches 128 (by decide)
  [(U1_MODE, int .little 2 LINK_MODE), (U1_SIZE, int .little 8 61), (U1_DB, List.replicate 60 97)]

def longLinkInode : Inode :=
  (Dinode.decode longLink .ufs1 .little).toInode .ufs1 (longLink.get U1_DB (U1_DB + 60))

theorem parse_longLink : Inode.parse longLink .ufs1 .little = .ok longLinkInode := by
  decide +kernel

end Crafted

theorem targetWhole_iff_longLink :
    TargetWhole Crafted.longLink Crafted.longLinkInode ↔
      ¬ OverfillsArea Crafted.longLink .ufs1 .little Inode.DEFAULT_MAXSYMLINKLEN :=
  targetWhole_iff (.parse Crafted.parse_longLink)

/-- With the default threshold the symlink of 61 bytes is decoded with a target of 60. -/
theorem long_link_shortened :
    Inode.parse Crafted.longLink .ufs1 .little = .ok Crafted.longLinkInode ∧
      Crafted.longLinkInode.isSymlink = true ∧ Crafted.longLinkInode.size = 61 ∧
      Crafted.longLinkInode.symlinkTarget.map Bytes.len = some 60 ∧
      (readSymlinkTarget Crafted.shortLink Crafted.shortLinkFs.sb
        Crafted.longLinkInode).map Bytes.len = .ok 60 ∧
      ¬ TargetWhole Crafted.longLink Crafted.longLinkInode := by
  refine ⟨Crafted.parse_longLink, by decide +kernel, by decide +kernel, by decide +kernel,
    by decide +kernel, fun h => ?_⟩
  have hlink : Crafted.longLinkInode.symlinkTarget =
      some (Crafted.longLink.slice U1_DB (U1_DB + 60 - U1_DB)) := by
    change Crafted.longLink.get U1_DB (U1_DB + 60) = _
    exact Bytes.get_eq_some (by decide) (by decide)
  exact absurd (h.fits _ hlink) (by decide +kernel)

end UfsForensic
