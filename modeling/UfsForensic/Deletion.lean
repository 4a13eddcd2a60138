import UfsForensic.Lib.Bits
import UfsForensic.Carve
import UfsForensic.Crafted

/-!
# Deletion and recovery

Deleting a file zeroes the `d_ino` of its record and clears its bit in the inode bitmap. As long as
this touches nothing the file is read through, recovery brings back exactly one file for the inode,
with the content it had.
-/

namespace UfsForensic

open Bytes (AgreeOn)

/-- `bitmap[idx / 8] &= !(1 << (idx % 8))` for the bitmap at `off`. -/
def clearBit (p : Bytes) (off idx : ℕ) : Bytes :=
  p.set (off + idx / 8) (p.byte (off + idx / 8) &&& ~~~UInt8.ofNat (1 <<< (idx % 8)))

/-- Zero the four bytes at `o` and clear the bit of inode `n` in the bitmap of its group. -/
def deleteInode (p : Bytes) (sb : Superblock) (n o : ℕ) : Bytes :=
  clearBit (p.zeroAt o 4) (bitmapOff p sb (n / sb.inodesPerGroup)) (n % sb.inodesPerGroup)

@[simp] theorem clearBit_len (p : Bytes) (off idx : ℕ) : (clearBit p off idx).len = p.len := rfl

theorem deleteInode_byte {p : Bytes} {sb : Superblock} {n o i : ℕ} (hi : i < o ∨ o + 4 ≤ i)
    (hbit : i ≠ bitmapOff p sb (n / sb.inodesPerGroup) + n % sb.inodesPerGroup / 8) :
    (deleteInode p sb n o).byte i = p.byte i :=
  (Bytes.set_byte_of_ne _ hbit).trans (Bytes.zeroAt_byte_of_not_mem (by omega))

theorem bitmapBit_eq_bitOf (bitmap : Bytes) (idx : ℕ) : bitmapBit bitmap idx =
    (decide (idx / 8 < bitmap.len) && bitOf (bitmap.byte (idx / 8)) (idx % 8)) := rfl

theorem bitmapBit_clearBit {p : Bytes} {off len idx : ℕ} (hlen : off + len ≤ p.len)
    (hidx : idx / 8 < len) : bitmapBit ((clearBit p off idx).slice off len) idx = false := by
  have hbyte : ((clearBit p off idx).slice off len).byte (idx / 8) =
      p.byte (off + idx / 8) &&& ~~~UInt8.ofNat (1 <<< (idx % 8)) := by
    rw [Bytes.slice_byte_of_lt hidx]
    exact Bytes.set_byte_self _ (by omega)
  have hmod := Nat.mod_lt idx (show 0 < 8 by norm_num)
  rw [bitmapBit_eq_bitOf, hbyte, bitOf_clear _ hmod hmod, bne_self_eq_false, Bool.and_false,
    Bool.and_false]

theorem BitmapReadable.bit_lt {p : Bytes} {sb : Superblock} {cg : ℕ}
    (h : BitmapReadable p sb cg) (n : ℕ) : n % sb.inodesPerGroup / 8 < sb.bitmapLen := by
  have hpos : 0 < sb.inodesPerGroup := by
    have := h.ipg_pos
    unfold Superblock.inodesPerGroup
    omega
  have hmod := Nat.mod_lt n hpos
  have hceil := BlockMap.divCeil_mul_ge (a := sb.inodesPerGroup) (d := 8) (by norm_num)
  unfold Superblock.bitmapLen
  omega

/-- Inode `n` is a regular file with content `content` that is not empty and starts in a data
block, and its group's bitmap is readable. -/
structure LiveFile (p : Bytes) (sb : Superblock) (n : ℕ) (inode : Inode) (content : Bytes) :
    Prop where
  parses : parsePrimarySb p = .ok sb
  three_le : 3 ≤ n
  lt_inodes : n < sb.inodesPerGroup * sb.ncg.toNat
  bitmap : ∃ used, cgInodeBitmap p sb (n / sb.inodesPerGroup) = some used
  dinode : readInode p sb n = .ok inode
  regular : inode.isRegular = true
  size_pos : 0 < inode.size.toNat
  direct_ne : inode.firstBlock ≠ 0
  content_eq : readFile p sb n = .ok content

/-- The bytes the file and its recovery are read through: both primary superblock regions, the
header fields of its group, its dinode, its pointer blocks, and its part of each data block. -/
def fileSpan (p : Bytes) (sb : Superblock) (n : ℕ) (inode : Inode) : Set ℕ :=
  primaryRegions ∪ headerSpan sb (n / sb.inodesPerGroup) ∪ dinodeSpan sb n ∪
    contentSpan p sb inode

/-- The item is a file carved for inode `n`. -/
def RecoveredItem.isFileOf (n : ℕ) : RecoveredItem → Bool
  | deletedFile _ inode _ _ _ => inode == n
  | deletedDirent _ _ => false

section Frame

variable {p q : Bytes} {sb : Superblock} {n : ℕ} {inode : Inode} {content : Bytes}

/-- A file reads the same on a partition that keeps the bytes it is read through. -/
theorem LiveFile.intact_of_agreeOn (h : LiveFile p sb n inode content)
    (hq : AgreeOn p q (fileSpan p sb n inode)) : Intact q sb n inode content := by
  have hsb := wellFormed_of_parsePrimarySb h.parses
  have hdinode : readInode q sb n = .ok inode :=
    readInode_congr hsb (hq.mono fun i hi => Or.inl (Or.inr hi)) h.dinode
  obtain ⟨inode', hinode', hread⟩ := readFile_eq_ok_iff.mp h.content_eq
  obtain rfl := Except.ok.inj (h.dinode.symm.trans hinode')
  have hcontent : readInodeFile q sb inode = .ok content := by
    rw [← hread]
    exact (readInodeFile_congr hsb (hq.mono fun i hi => Or.inr hi)).symm
  refine ⟨hdinode, h.regular, ?_, h.direct_ne, readFile_eq_ok_iff.mpr ⟨inode, hdinode, hcontent⟩⟩
  intro h0
  have := h.size_pos
  rw [h0] at this
  exact absurd this (by decide)

/-- After the edit the bitmap of the group is still readable, and marks the inode free. -/
theorem LiveFile.free_of_deleteInode (h : LiveFile p sb n inode content) {o : ℕ}
    (hq : AgreeOn p (deleteInode p sb n o) (fileSpan p sb n inode)) :
    ∃ used, cgInodeBitmap (deleteInode p sb n o) sb (n / sb.inodesPerGroup) = some used ∧
      bitmapBit used (n % sb.inodesPerGroup) = false := by
  have hsb := wellFormed_of_parsePrimarySb h.parses
  have hheader : AgreeOn p (deleteInode p sb n o) (headerSpan sb (n / sb.inodesPerGroup)) :=
    hq.mono fun i hi => Or.inl (Or.inl (Or.inr hi))
  obtain ⟨used, hused⟩ := h.bitmap
  have hreadable := ((cgInodeBitmap_eq_some_iff hsb).mp hused).1
  have hoff := bitmapOff_congr hheader hreadable.header_le
  refine ⟨_, (cgInodeBitmap_eq_some_iff hsb).mpr ⟨hreadable.congr hheader, rfl⟩, ?_⟩
  rw [← hoff]
  exact bitmapBit_clearBit hreadable.bitmap_le (hreadable.bit_lt n)

end Frame

/-- Deleting a file and recovering gives exactly one file for its inode, with its size and with the
content it had. -/
theorem recoverDeleted_deleteInode {p : Bytes} {sb : Superblock} {n : ℕ} {inode : Inode}
    {content : Bytes} (h : LiveFile p sb n inode content) (o : ℕ)
    (hq : ∀ i ∈ fileSpan p sb n inode, (deleteInode p sb n o).byte i = p.byte i)
    (sha256 : Bytes → Vector UInt8 32) :
    ∃ name, (recoverDeleted sha256 (deleteInode p sb n o)).filter (RecoveredItem.isFileOf n) =
      [.deletedFile name n inode.size.toNat content (sha256Hex sha256 content)] := by
  have hsb := wellFormed_of_parsePrimarySb h.parses
  have hagree : AgreeOn p (deleteInode p sb n o) (fileSpan p sb n inode) :=
    ⟨rfl, fun i hi => (hq i hi).symm⟩
  have hparse : parsePrimarySb (deleteInode p sb n o) = .ok sb := by
    rw [← parsePrimarySb_congr (hagree.mono fun i hi => Or.inl (Or.inl (Or.inl hi))), h.parses]
  have hintact := h.intact_of_agreeOn hagree
  have hfree := h.free_of_deleteInode hagree
  -- from here on only what recovery reads of the edited image matters
  generalize deleteInode p sb n o = q at hparse hintact hfree
  rw [recoverDeleted, hparse]
  simp only [recoverFrom]
  generalize collectDeletedDirents q sb = names
  have hmem : carvedItem sha256 names n inode content ∈ carveDeletedInodes sha256 q sb names :=
    (mem_carveDeletedInodes_iff hsb).mpr
      ⟨n, h.three_le, h.lt_inodes, hfree, inode, content, hintact, rfl⟩
  -- the sweep carves each inode at most once
  have honly : ∀ item ∈ carveDeletedInodes sha256 q sb names,
      item.isFileOf n = true ↔ item.ino = (carvedItem sha256 names n inode content).ino := by
    intro item hitem
    obtain ⟨k, -, -, -, inode', content', -, rfl⟩ := (mem_carveDeletedInodes_iff hsb).mp hitem
    simp [carvedItem, RecoveredItem.isFileOf, RecoveredItem.ino]
  have hnames : (names.map fun d => RecoveredItem.deletedDirent d.1 d.2).filter
      (RecoveredItem.isFileOf n) = [] := by
    rw [List.filter_eq_nil_iff]
    intro item hitem
    obtain ⟨d, -, rfl⟩ := List.mem_map.mp hitem
    simp [RecoveredItem.isFileOf]
  rw [List.filter_append, hnames, List.nil_append,
    filter_eq_singleton (carveDeletedInodes_pairwise hsb) hmem honly]
  exact ⟨_, rfl⟩

namespace Crafted

/-- A volume with a root that names inode 3, a regular file holding `hello`. -/
def hello : Bytes := volume (tiny.cgHeader 0 [0x0f] ++ tiny.dinode 2 DIR_MODE 512 [24] ++
  tiny.dinode 3 REG_MODE 5 [26] ++
  [(24 * 512, tiny.direct 3 512 8 [104]), (26 * 512, [104, 101, 108, 108, 111])])

def helloInode : Inode :=
  inode REG_MODE .regular 5 [26] 0

def helloContent : Bytes := Bytes.ofList [104, 101, 108, 108, 111] (by norm_num)

def helloDigest (_ : Bytes) : Vector UInt8 32 :=
  #v[0x2c, 0xf2, 0x4d, 0xba, 0x5f, 0xb0, 0xa3, 0x0e, 0x26, 0xe8, 0x3b, 0x2a, 0xc5, 0xb9, 0xe2, 0x9e,
    0x1b, 0x16, 0x1e, 0x5c, 0x1f, 0xa7, 0x42, 0x5e, 0x73, 0x04, 0x33, 0x62, 0x93, 0x8b, 0x98, 0x24]

theorem readFile_hello : readFile hello tinySb 3 = .ok helloContent := by
  have h : (readFile hello tinySb 3).toOption = some helloContent := by decide +kernel
  generalize readFile hello tinySb 3 = r at h
  cases r with
  | error e => exact nomatch h
  | ok content => rw [Option.some.inj h]

theorem hello_live : LiveFile hello tinySb 3 helloInode helloContent where
  parses := parsePrimarySb_volume (by decide)
  three_le := by norm_num
  lt_inodes := by decide +kernel
  bitmap := ⟨Bytes.ofList [0x0f] (by norm_num), by decide +kernel⟩
  dinode := by decide +kernel
  regular := by decide
  size_pos := by decide
  direct_ne := by decide
  content_eq := readFile_hello

/-- The sizes of the tiny geometry, and where the header of the group of inode 3 and the dinodes 2
and 3 lie. -/
theorem tinySb_places : tinySb.fragBytes = 512 ∧ tinySb.blockBytes = 512 ∧ tinySb.inodeSize = 128 ∧
    tinySb.headerOff (3 / tinySb.inodesPerGroup) = 10240 ∧ tinySb.dinodeOff 2 = 11008 ∧
    tinySb.dinodeOff 3 = 11136 := by decide +kernel

theorem hello_contentSpan {i : ℕ} (hi : i ∈ contentSpan hello tinySb helloInode) :
    13312 ≤ i ∧ i < 13317 := by
  obtain ⟨hfrag, hblock, -⟩ := tinySb_places
  have hblocks : divCeil helloInode.size.toNat tinySb.blockBytes = 1 := by
    rw [hblock]
    decide
  have hptr : pointerBlocks hello tinySb helloInode 0 (BlockMap.nindirOf tinySb) = [] := rfl
  have haddr : resolveBlock hello tinySb helloInode 0 (BlockMap.nindirOf tinySb) = 26 := rfl
  have hpart : min (helloInode.size.toNat - 0 * tinySb.blockBytes) tinySb.blockBytes = 5 := by
    rw [hblock]
    decide
  obtain ⟨bi, hbi, hmem⟩ := hi
  obtain rfl : bi = 0 := by omega
  rw [hptr, haddr, hpart, blockSpan, hfrag] at hmem
  rcases hmem with ⟨a, ha, -⟩ | ⟨-, hmem⟩
  · exact absurd ha List.not_mem_nil
  · exact hmem

theorem hello_span {i : ℕ} (hi : i ∈ fileSpan hello tinySb 3 helloInode) :
    (8192 ≤ i ∧ i < 10364) ∨ (11136 ≤ i ∧ i < 12288) ∨ (13312 ≤ i ∧ i < 13317) ∨ 65536 ≤ i := by
  obtain ⟨-, -, hsize, hheader, -, hdinode⟩ := tinySb_places
  rcases hi with hi | hi
  · simp only [primaryRegions, headerSpan, dinodeSpan, hheader, hdinode, hsize, SBLOCK_UFS1,
      SBLOCK_UFS2, SB_MIN_LEN, CylinderGroup.CG_MIN_LEN, Set.mem_union, Set.mem_Ico] at hi
    omega
  · have := hello_contentSpan hi
    omega

theorem hello_untouched : ∀ i ∈ fileSpan hello tinySb 3 helloInode,
    (deleteInode hello tinySb 3 (24 * 512)).byte i = hello.byte i := by
  intro i hi
  have hbit : bitmapOff hello tinySb (3 / tinySb.inodesPerGroup) + 3 % tinySb.inodesPerGroup / 8 =
      10408 := by decide +kernel
  have := hello_span hi
  exact deleteInode_byte (by omega) (by omega)

end Crafted

theorem recoverDeleted_deleteInode_hello :
    ∃ name, (recoverDeleted Crafted.helloDigest
      (deleteInode Crafted.hello Crafted.tinySb 3 (24 * 512))).filter (RecoveredItem.isFileOf 3) =
        [.deletedFile name 3 Crafted.helloInode.size.toNat Crafted.helloContent
          (sha256Hex Crafted.helloDigest Crafted.helloContent)] :=
  recoverDeleted_deleteInode Crafted.hello_live (24 * 512) Crafted.hello_untouched
    Crafted.helloDigest

end UfsForensic
