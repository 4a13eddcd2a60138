import UfsForensic.DinodeCodec
import UfsForensic.Footprint
import UfsForensic.Vfs

/-!
# Inline symlinks

A short symlink keeps its target in the pointer area of its dinode. The target reader knows; the
file reader, the path reader and the extents of the adapter take the area for block pointers all the
same. What they give is right only where the text, taken for pointers, is a run of holes that reads
as the text.
-/

namespace UfsForensic

open BlockMap (fileByte nindirOf readInodeFile_eq_ok_iff)

variable {p : Bytes} {sb : Superblock} {inode : Inode}

/-- Every reader gives the symlink's target, and a target that is stored inline has no run. -/
structure TargetKept (fs : UfsFs) (ino : ℕ) (inode : Inode) : Prop where
  content : readInodeFile fs.image fs.sb inode = readSymlinkTarget fs.image fs.sb inode
  file : readFile fs.image fs.sb ino = readSymlinkTarget fs.image fs.sb inode
  path : ∀ path, readByPath fs.image fs.sb path = .ok (some (ino, inode)) →
    readPathContent fs.image fs.sb path = (readSymlinkTarget fs.image fs.sb inode).map some
  runs : inode.symlinkTarget.isSome → fs.extents (.byIno ino) .default = .ok []

/-- The target `t` lies whole in the pointer area, the direct pointers of its blocks are zero, and
it reads as the block map does: as zeros within the direct blocks. -/
structure ReadsAsHoles (p : Bytes) (sb : Superblock) (inode : Inode) (t : Bytes) : Prop where
  fits : inode.size.toNat ≤ (UFS_NDADDR + UFS_NIADDR) * inode.version.ptrSize
  holes : ∀ k < 12, k * sb.blockBytes < inode.size.toNat → inode.direct.toList.getD k 0 = 0
  zeros : ∀ i < inode.size.toNat, i < 12 * sb.blockBytes → t.byte i = 0
  -- a target of 120 bytes at most goes past the direct blocks when `fs_bsize` is below 10
  rest : ∀ i < inode.size.toNat, 12 * sb.blockBytes ≤ i →
    t.byte i = fileByte p sb inode (nindirOf sb) i

/-- The target `t` reads as the block map does, whichever image the inode was decoded from. -/
structure ReadsAsBlocks (p : Bytes) (sb : Superblock) (inode : Inode) (t : Bytes) : Prop where
  inside : inode.size.toNat ≤ p.len
  whole : t.len = inode.size.toNat
  bytes : ∀ i < inode.size.toNat, t.byte i = fileByte p sb inode (nindirOf sb) i

theorem symlinkTarget_len {data : Bytes} {version : UfsVersion} {endian : Endian} {max : Int32}
    (h : Inode.parseWithMaxsymlink data version endian max = .ok inode) {t : Bytes}
    (ht : inode.symlinkTarget = some t) :
    inode.version = version ∧ t.len ≤ data.len ∧
      t.len = min inode.size.toNat ((UFS_NDADDR + UFS_NIADDR) * version.ptrSize) := by
  rw [Dinode.parse_eq_decode] at h
  split_ifs at h with hlen
  obtain rfl := Except.ok.inj h
  have harea := Dinode.area_inside version
  obtain ⟨-, -, -, rfl⟩ := (Dinode.linkOf_eq_some_iff (Nat.not_lt.mp hlen)).mp ht
  refine ⟨rfl, ?_, ?_⟩
  · rw [Bytes.slice_len]
    omega
  · rw [Bytes.slice_len]
    change _ = min (Dinode.decode data version endian).size.toNat _
    omega

/-- The run that the loop of `extents` gives block `b`. -/
def runAt (fsize bsize : ℕ) (ptrs : List UInt64) (size b : ℕ) : RunInfo where
  run := { imageOffset := satMul (ptrs.getD b 0).toNat fsize, len := min bsize (size - b * bsize) }
  alloc := .allocated

/-- The loop with its own count of the bytes that remain gives a run for each block with a
pointer. -/
theorem directRuns_eq_map {fsize bsize : ℕ} (hb : 0 < bsize) (ptrs : List UInt64) (size : ℕ) :
    UfsFs.directRuns fsize bsize ptrs size =
      ((List.range (min ptrs.length (divCeil size bsize))).filter
        fun b => ptrs.getD b 0 ≠ 0).map (runAt fsize bsize ptrs size) := by
  have hmax : max bsize 1 = bsize := max_eq_left hb
  induction ptrs generalizing size with
  | nil => simp [UfsFs.directRuns]
  | cons addr ptrs ih =>
    rw [UfsFs.directRuns, hmax]
    by_cases hs : size = 0
    · simp [hs, divCeil]
    -- the later blocks are those of the rest, one on
    have hshift : runAt fsize bsize (addr :: ptrs) size ∘ Nat.succ =
        runAt fsize bsize ptrs (size - bsize) := by
      funext b
      have : size - (b + 1) * bsize = size - bsize - b * bsize := by
        rw [Nat.succ_mul]
        omega
      simp [runAt, this]
    have hfirst : runAt fsize bsize (addr :: ptrs) size 0 =
        { run := { imageOffset := satMul addr.toNat fsize, len := min size bsize },
          alloc := .allocated } := by
      simp [runAt, min_comm]
    have hfilter : (fun b => decide ((addr :: ptrs).getD b 0 ≠ 0)) ∘ Nat.succ =
        fun b => decide (ptrs.getD b 0 ≠ 0) := rfl
    rw [if_neg hs, BlockMap.divCeil_eq_succ hb (Nat.pos_of_ne_zero hs), List.length_cons,
      Nat.succ_min_succ, List.range_succ_eq_map, List.filter_cons, List.filter_map, hfilter]
    dsimp only
    by_cases ha : addr = 0
    · rw [if_pos ha, if_neg (by simp [ha]), List.map_map, hshift]
      exact ih _
    · rw [if_neg ha, if_pos (by simpa using ha), List.map_cons, hfirst, List.map_map, hshift]
      exact congrArg _ (ih _)

theorem directRuns_eq_nil_iff {fsize bsize : ℕ} (hb : 0 < bsize) (ptrs : List UInt64) (size : ℕ) :
    UfsFs.directRuns fsize bsize ptrs size = [] ↔
      ∀ k < ptrs.length, k * bsize < size → ptrs.getD k 0 = 0 := by
  rw [directRuns_eq_map hb, List.map_eq_nil_iff, List.filter_eq_nil_iff]
  simp only [List.mem_range, lt_min_iff, BlockMap.lt_divCeil_iff hb, ne_eq, decide_not,
    Bool.not_eq_true', decide_eq_false_iff_not, not_not, and_imp]

theorem extents_eq {fs : UfsFs} {ino : ℕ} (hino : readInode fs.image fs.sb ino = .ok inode) :
    fs.extents (.byIno ino) .default =
      .ok (UfsFs.directRuns fs.sb.fragBytes fs.sb.blockBytes inode.direct.toList
        inode.size.toNat) := by
  simp only [UfsFs.extents, requireDefaultStream, UfsFs.inode, inoOf, hino, bind, Except.bind, pure,
    Except.pure, Except.mapError]

theorem metadata_resident_iff {fs : UfsFs} {ino : ℕ}
    (hino : readInode fs.image fs.sb ino = .ok inode) :
    (∃ m n, fs.metadata (.byIno ino) = .ok m ∧ m.residency = .resident n) ↔
      inode.symlinkTarget.isSome := by
  simp only [UfsFs.metadata, inoOf, hino, bind, Except.bind, pure, Except.pure, Except.mapError,
    Except.ok.injEq]
  cases inode.symlinkTarget with
  | none => simp
  | some t => simp

/-- The file reader gives an inline target, and the adapter no run for it, exactly when the target
reads as holes. -/
theorem inline_kept_iff (hsb : sb.WellFormed) {t : Bytes}
    (hlen : t.len ≤ p.len ∧
      t.len = min inode.size.toNat ((UFS_NDADDR + UFS_NIADDR) * inode.version.ptrSize)) :
    (readInodeFile p sb inode = .ok t ∧ UfsFs.directRuns sb.fragBytes sb.blockBytes
      inode.direct.toList inode.size.toNat = []) ↔ ReadsAsHoles p sb inode t := by
  obtain ⟨hin, hmin⟩ := hlen
  have hb := hsb.blockBytes_pos
  rw [readInodeFile_eq_ok_iff hsb, directRuns_eq_nil_iff hb, Vector.length_toList]
  -- within the direct blocks a hole reads as zero
  have hzero (hholes : ∀ k < 12, k * sb.blockBytes < inode.size.toNat →
      inode.direct.toList.getD k 0 = 0) {i : ℕ} (hi : i < inode.size.toNat)
      (hdirect : i < 12 * sb.blockBytes) : fileByte p sb inode (nindirOf sb) i = 0 := by
    have hk : i / sb.blockBytes < 12 := Nat.div_lt_of_lt_mul (by rwa [Nat.mul_comm])
    have hle : i / sb.blockBytes * sb.blockBytes ≤ i := Nat.div_mul_le_self _ _
    apply BlockMap.fileByte_eq_zero_of_hole rfl
    rw [BlockMap.address_of_lt_direct hk]
    simpa [hk] using hholes _ hk (hle.trans_lt hi)
  constructor
  · rintro ⟨⟨-, hsize, hbytes⟩, hholes⟩
    refine ⟨by omega, hholes, fun i hi hdirect => ?_, fun i hi _ => hbytes i hi⟩
    rw [hbytes i hi, hzero hholes hi hdirect]
  · rintro ⟨hfits, hholes, hzeros, hrest⟩
    refine ⟨⟨by omega, by omega, fun i hi => ?_⟩, hholes⟩
    rcases Nat.lt_or_ge i (12 * sb.blockBytes) with hdirect | hpast
    · rw [hzeros i hi hdirect, hzero hholes hi hdirect]
    · exact hrest i hi hpast

/-- The file reader gives the target of an inode exactly when it is not stored inline or reads as the
block map does. -/
theorem readInodeFile_eq_target_iff (hsb : sb.WellFormed) :
    readInodeFile p sb inode = readSymlinkTarget p sb inode ↔
      ∀ t, inode.symlinkTarget = some t → ReadsAsBlocks p sb inode t := by
  unfold readSymlinkTarget
  cases inode.symlinkTarget with
  | none => simp
  | some t =>
    simp only [Option.some.injEq, forall_eq']
    rw [readInodeFile_eq_ok_iff hsb]
    exact ⟨fun ⟨hin, hlen, hbytes⟩ => ⟨hin, hlen, hbytes⟩,
      fun ⟨hin, hlen, hbytes⟩ => ⟨hin, hlen, hbytes⟩⟩

theorem targetKept_iff_of_readInode {fs : UfsFs} (hsb : fs.sb.WellFormed) {ino : ℕ}
    (hino : readInode fs.image fs.sb ino = .ok inode) :
    TargetKept fs ino inode ↔
      ∀ t, inode.symlinkTarget = some t → ReadsAsHoles fs.image fs.sb inode t := by
  have hfile : readFile fs.image fs.sb ino = readInodeFile fs.image fs.sb inode := by
    unfold readFile
    rw [hino]
    rfl
  have hpath {path : List UInt8}
      (h : readByPath fs.image fs.sb path = .ok (some (ino, inode))) :
      readPathContent fs.image fs.sb path =
        (readInodeFile fs.image fs.sb inode).map some := by
    simp only [readPathContent, h, bind, Except.bind]
    cases readInodeFile fs.image fs.sb inode <;> rfl
  have htarget {t : Bytes} (ht : inode.symlinkTarget = some t) : t.len ≤ fs.image.len ∧
      t.len = min inode.size.toNat ((UFS_NDADDR + UFS_NIADDR) * inode.version.ptrSize) := by
    obtain ⟨-, -, -, -, hin, hdinode⟩ := (readInode_eq_ok_iff hsb).mp hino
    obtain ⟨hversion, hle, hlen⟩ := symlinkTarget_len hdinode ht
    rw [Bytes.slice_len] at hle
    exact ⟨by omega, by rw [hlen, hversion]⟩
  constructor
  · intro h t ht
    refine (inline_kept_iff hsb (htarget ht)).mp ⟨?_, ?_⟩
    · rw [h.content, readSymlinkTarget, ht]
    · have hruns := h.runs (by rw [ht]; rfl)
      rw [extents_eq hino] at hruns
      exact Except.ok.inj hruns
  · intro h
    have hcontent : readInodeFile fs.image fs.sb inode =
        readSymlinkTarget fs.image fs.sb inode := by
      unfold readSymlinkTarget
      cases ht : inode.symlinkTarget with
      | none => rfl
      | some t => exact ((inline_kept_iff hsb (htarget ht)).mpr (h t ht)).1
    refine ⟨hcontent, hfile.trans hcontent, fun path hp => ?_, fun hsome => ?_⟩
    · rw [hpath hp, hcontent]
    · obtain ⟨t, ht⟩ := Option.isSome_iff_exists.mp hsome
      rw [extents_eq hino, ((inline_kept_iff hsb (htarget ht)).mpr (h t ht)).2]

/-- The data of a symlink is kept exactly when it is not stored inline or is what the block map reads:
by the file reader for any inode, and by every reader for an inode of the image, where the block map
reads holes. -/
theorem targetKept_iff {fs : UfsFs} {data : Bytes} (hparse : Superblock.parse data = .ok fs.sb) :
    (∀ inode, readInodeFile fs.image fs.sb inode = readSymlinkTarget fs.image fs.sb inode ↔
      ∀ t, inode.symlinkTarget = some t → ReadsAsBlocks fs.image fs.sb inode t) ∧
    ∀ ino inode, readInode fs.image fs.sb ino = .ok inode → (TargetKept fs ino inode ↔
      ∀ t, inode.symlinkTarget = some t → ReadsAsHoles fs.image fs.sb inode t) := by
  have hsb := Superblock.wellFormed_of_parse hparse
  exact ⟨fun _ => readInodeFile_eq_target_iff hsb,
    fun _ _ hino => targetKept_iff_of_readInode hsb hino⟩

namespace Crafted

def LINK_MODE : ℕ := 0o120755

/-- A volume with an `fs_maxsymlinklen` of 60, whose inode 4 is a symlink to `a/b/c`. -/
def shortLink : Bytes := volume ([(SBLOCK_UFS1 + OFF_MAXSYMLINKLEN, int .little 4 60),
  (tiny.dinodeOffset 4 + U1_DB, [97, 47, 98, 47, 99])] ++ tiny.dinode 4 LINK_MODE 5 [])

def shortLinkFs : UfsFs where
  image := shortLink
  sb := Superblock.decode (shortLink.slice SBLOCK_UFS1 SB_MIN_LEN) .ufs1 .little

def shortLinkInode : Inode :=
  { Crafted.inode LINK_MODE .symlink 5 [0x2f622f61, 99] 0 with
    fastSymlink :=
      (shortLink.slice (tiny.dinodeOffset 4) UFS1_DINODE_SIZE).get U1_DB (U1_DB + 5) }

theorem parse_shortLink :
    Superblock.parse (shortLink.slice SBLOCK_UFS1 SB_MIN_LEN) = .ok shortLinkFs.sb := by
  decide +kernel

theorem readInode_shortLink :
    readInode shortLinkFs.image shortLinkFs.sb 4 = .ok shortLinkInode := by decide +kernel

end Crafted

theorem targetKept_iff_shortLink :
    TargetKept Crafted.shortLinkFs 4 Crafted.shortLinkInode ↔
      ∀ t, Crafted.shortLinkInode.symlinkTarget = some t →
        ReadsAsHoles Crafted.shortLink Crafted.shortLinkFs.sb Crafted.shortLinkInode t :=
  (targetKept_iff Crafted.parse_shortLink).2 _ _ Crafted.readInode_shortLink

/-- The text `a/b/c` is taken for two block pointers: the file reader gives zeros, and the adapter a
run of the resident target far past the end of the image. -/
theorem short_link_read_as_pointers :
    Superblock.parse (Crafted.shortLink.slice SBLOCK_UFS1 SB_MIN_LEN) =
        .ok Crafted.shortLinkFs.sb ∧
      readInode Crafted.shortLink Crafted.shortLinkFs.sb 4 = .ok Crafted.shortLinkInode ∧
      Crafted.shortLinkInode.isSymlink = true ∧
      (readSymlinkTarget Crafted.shortLink Crafted.shortLinkFs.sb
        Crafted.shortLinkInode).map Bytes.toList = .ok [97, 47, 98, 47, 99] ∧
      (readInodeFile Crafted.shortLink Crafted.shortLinkFs.sb
        Crafted.shortLinkInode).map Bytes.toList = .ok [0, 0, 0, 0, 0] ∧
      Crafted.shortLinkFs.extents (.byIno 4) .default =
        .ok [{ run := { imageOffset := 0x2f622f61 * 512, len := 5 }, alloc := .allocated }] ∧
      ¬ TargetKept Crafted.shortLinkFs 4 Crafted.shortLinkInode := by
  have hruns : Crafted.shortLinkFs.extents (.byIno 4) .default =
      .ok [{ run := { imageOffset := 0x2f622f61 * 512, len := 5 }, alloc := .allocated }] := by
    rw [extents_eq Crafted.readInode_shortLink]
    decide +kernel
  refine ⟨Crafted.parse_shortLink, Crafted.readInode_shortLink, by decide, by decide +kernel,
    by decide +kernel, hruns, fun h => ?_⟩
  have hnil := h.runs rfl
  rw [hruns] at hnil
  exact List.cons_ne_nil _ _ (Except.ok.inj hnil)

end UfsForensic
