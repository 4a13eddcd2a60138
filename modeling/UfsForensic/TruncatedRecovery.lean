import UfsForensic.AbsorbedEntry
import UfsForensic.RecoveryWalk
import UfsForensic.SweepFindings
import UfsForensic.Truncation

/-!
# Recovery from a cut partition

What recovery finds on a partition that was cut off is found on the whole one as well: the same
names, and the same files, whose bytes are those of the whole partition or were cut to zero. So a
cut loses evidence and makes up none.
-/

namespace UfsForensic

variable {p q : Bytes} {sb : Superblock} {sha256 : Bytes → Vector UInt8 32}

/-- An item found on the cut partition against one found on the whole: the same, except for file
bytes that were cut to zero, and their digest. -/
inductive RecoveredItem.Backed (sha256 : Bytes → Vector UInt8 32) :
    RecoveredItem → RecoveredItem → Prop
  | file {name : Option String} {n size : ℕ} {cut content : Bytes} (hlen : content.len = cut.len)
      (hbytes : ∀ i, cut.byte i = content.byte i ∨ cut.byte i = 0) :
      Backed sha256 (.deletedFile name n size cut (sha256Hex sha256 cut))
        (.deletedFile name n size content (sha256Hex sha256 content))
  | dirent (name : String) (n : ℕ) :
      Backed sha256 (.deletedDirent name n) (.deletedDirent name n)

/-- The cut runs through no name of a directory in the tree. -/
def NamesWhole (p q : Bytes) (sb : Superblock) : Prop :=
  ∀ d ∈ tree p sb, ∀ inode, readInode p sb d = .ok inode → ∀ e ∈ entriesOf p sb d,
    ¬ CutName p q sb inode e

theorem exists_parse_of_parsePrimarySb (h : parsePrimarySb p = .ok sb) :
    ∃ data, Superblock.parse data = .ok sb := by
  have hparse {off : ℕ} (ho : UfsFs.parsePrimary p off = .ok sb) :
      ∃ data, Superblock.parse data = .ok sb := by
    unfold UfsFs.parsePrimary at ho
    split at ho
    · exact nomatch ho
    · exact ⟨_, ho⟩
  rcases mounts_of_parsePrimarySb h with h | h
  · exact hparse h
  · exact hparse h.2

theorem headerField_of_isPrefix (hq : q.IsPrefix p) {cg off : ℕ}
    (hlen : sb.headerOff cg + CylinderGroup.CG_MIN_LEN ≤ q.len)
    (hoff : off + 4 ≤ CylinderGroup.CG_MIN_LEN) :
    sb.endian.u32 q (sb.headerOff cg + off) = sb.endian.u32 p (sb.headerOff cg + off) :=
  Endian.u32_congr (fun _ hi => hq.window_eq (by omega) hi) _

theorem cgInodeBitmap_of_isPrefix (hsb : sb.WellFormed) (hq : q.IsPrefix p) {cg : ℕ} {used : Bytes}
    (h : cgInodeBitmap q sb cg = some used) : cgInodeBitmap p sb cg = some used := by
  rw [cgInodeBitmap_eq_some_iff hsb] at h ⊢
  obtain ⟨hread, rfl⟩ := h
  have hoff : bitmapOff q sb cg = bitmapOff p sb cg := by
    unfold bitmapOff
    rw [headerField_of_isPrefix hq hread.header_le (by decide)]
  have hmagic := hread.magic_eq
  rw [headerField_of_isPrefix hq hread.header_le (by decide)] at hmagic
  have hle := hread.bitmap_le
  refine ⟨⟨hread.fpg_pos, hread.cblkno_nonneg, hread.ipg_pos, hread.header_le.trans hq.len_le,
    hmagic, ?_⟩, ?_⟩
  · rw [← hoff]
    exact hle.trans hq.len_le
  · rw [← hoff]
    exact hq.slice_eq hle

theorem Intact.of_isPrefix {data : Bytes} (hparse : Superblock.parse data = .ok sb)
    (hq : q.IsPrefix p) {n : ℕ} {inode : Inode} {cut : Bytes} (h : Intact q sb n inode cut) :
    ∃ content, Intact p sb n inode content ∧ content.len = cut.len ∧
      ∀ i, cut.byte i = content.byte i ∨ cut.byte i = 0 := by
  obtain ⟨content, hcontent, hlen, hbytes⟩ := readFile_of_isPrefix hparse hq h.content_eq
  have hdinode := readInode_of_isPrefix (Superblock.wellFormed_of_parse hparse) hq h.dinode
  exact ⟨content, ⟨hdinode, h.regular, h.size_ne, h.direct_ne, hcontent⟩, hlen, hbytes⟩

theorem not_cutName {inode : Inode} {e : DirEntry}
    (h : ∀ k < 12, (directBytes q sb inode k).len = (directBytes p sb inode k).len) :
    ¬ CutName p q sb inode e := by
  rintro ⟨k, hk, -, off, -, hrecord, hstarts, hends⟩
  rw [h k hk] at hstarts hends
  -- a name ends within its block
  rw [hrecord, recordAt_name hstarts, Bytes.toList_length, Bytes.slice_len] at hends
  omega

theorem entriesOf_sublist {data : Bytes} (hparse : Superblock.parse data = .ok sb)
    (hq : q.IsPrefix p) (hnames : NamesWhole p q sb) {d : ℕ} (hd : d ∈ tree p sb) :
    (entriesOf q sb d).Sublist (entriesOf p sb d) := by
  have hwhole := hnames d hd
  unfold entriesOf at hwhole ⊢
  cases hcut : listDirAll q sb d with
  | error e => exact List.nil_sublist _
  | ok cut =>
    obtain ⟨inode, entries, hinode, hlist, -, hsub⟩ := listDirAll_of_isPrefix hparse hq hcut
    rw [hlist] at hwhole ⊢
    exact hsub (hwhole inode hinode)

theorem tree_of_isPrefix {data : Bytes} (hparse : Superblock.parse data = .ok sb)
    (hq : q.IsPrefix p) (hnames : NamesWhole p q sb) : tree q sb ⊆ tree p sb := by
  refine tree_subset (mem_tree_iff.mpr .refl) fun d hd n hn => ?_
  have hsub := (entriesOf_sublist hparse hq hnames hd).filterMap DirEntry.subdir
  exact mem_tree_iff.mpr ((mem_tree_iff.mp hd).tail (hsub.subset (mem_subdirs_iff.mpr hn)))

/-- A file found on the cut partition is found on the whole one, with its bytes there or zeros. -/
theorem deletedFile_of_isPrefix (hq : q.IsPrefix p) (hcut : parsePrimarySb q = .ok sb)
    (hwhole : parsePrimarySb p = .ok sb) {name : Option String} {n size : ℕ} {cut : Bytes}
    {digest : String} (hitem : .deletedFile name n size cut digest ∈ recoverDeleted sha256 q) :
    ∃ item' ∈ recoverDeleted sha256 p,
      RecoveredItem.Backed sha256 (.deletedFile name n size cut digest) item' := by
  obtain ⟨data, hdata⟩ := exists_parse_of_parsePrimarySb hwhole
  obtain ⟨-, -, h3, -⟩ := exists_of_mem_recoverDeleted hitem
  obtain ⟨rfl, hlt, ⟨used, hused, hfree⟩, inode, hintact, rfl, rfl⟩ :=
    (mem_recoverDeleted_file_iff hcut h3).mp hitem
  obtain ⟨content, hintact', hlen, hbytes⟩ := hintact.of_isPrefix hdata hq
  have hused' := cgInodeBitmap_of_isPrefix (wellFormed_of_parsePrimarySb hwhole) hq hused
  exact ⟨_, (mem_recoverDeleted_file_iff hwhole h3).mpr ⟨rfl, hlt, ⟨used, hused', hfree⟩,
    inode, hintact', rfl, rfl⟩, .file hlen hbytes⟩

/-- A name found on the cut partition is found on the whole one, when its walk has the budget for
the whole tree. -/
theorem deletedDirent_of_isPrefix (hq : q.IsPrefix p) (hcut : parsePrimarySb q = .ok sb)
    (hwhole : parsePrimarySb p = .ok sb) (hnames : NamesWhole p q sb)
    (hbudget : 1 + ∑ d ∈ treeDirs p sb, (subdirs p sb d).length ≤ WALK_BUDGET) {name : String}
    {n : ℕ} (hitem : .deletedDirent name n ∈ recoverDeleted sha256 q) :
    .deletedDirent name n ∈ recoverDeleted sha256 p := by
  obtain ⟨data, hdata⟩ := exists_parse_of_parsePrimarySb hwhole
  obtain ⟨d, hd, e, he, hres, hr⟩ :=
    mem_collectDeletedDirents_iff.mp ((mem_recoverDeleted_dirent_iff hcut).mp hitem)
  -- the directory is in the whole tree, whose walk visits it and finds the slot there
  have hd' := tree_of_isPrefix hdata hq hnames (mem_tree_of_mem_walkedDirs hd)
  have he' := (entriesOf_sublist hdata hq hnames hd').subset he
  have hwalked := ((collectDeletedDirents_complete hbudget).2.1 d).mpr hd'
  exact (mem_recoverDeleted_dirent_iff hwhole).mpr
    (mem_collectDeletedDirents_iff.mpr ⟨d, hwalked, e, he', hres, hr⟩)

/-- Recovery from a cut partition finds nothing that the whole partition does not back: each file
stands among those of the whole, up to bytes that were cut to zero, and with the budget for the
whole tree, its names uncut, so does every item. -/
theorem recoverDeleted_of_isPrefix (hq : q.IsPrefix p) (hcut : parsePrimarySb q = .ok sb)
    (hwhole : parsePrimarySb p = .ok sb) :
    (∀ name n size cut digest, .deletedFile name n size cut digest ∈ recoverDeleted sha256 q →
      ∃ item' ∈ recoverDeleted sha256 p,
        RecoveredItem.Backed sha256 (.deletedFile name n size cut digest) item') ∧
    (NamesWhole p q sb →
      1 + ∑ d ∈ treeDirs p sb, (subdirs p sb d).length ≤ WALK_BUDGET →
        ∀ item ∈ recoverDeleted sha256 q, ∃ item' ∈ recoverDeleted sha256 p,
          RecoveredItem.Backed sha256 item item') := by
  have hfile {name : Option String} {n size : ℕ} {cut : Bytes} {digest : String}
      (hitem : .deletedFile name n size cut digest ∈ recoverDeleted sha256 q) :=
    deletedFile_of_isPrefix hq hcut hwhole hitem
  refine ⟨fun _ _ _ _ _ => hfile, fun hnames hbudget item hitem => ?_⟩
  cases item with
  | deletedFile name n size cut digest => exact hfile hitem
  | deletedDirent name n =>
    exact ⟨_, deletedDirent_of_isPrefix hq hcut hwhole hnames hbudget hitem, .dirent name n⟩

namespace Crafted

/-- A root directory with a free slot called `x`, and the freed inode 3 with two blocks. -/
def freedFile : Bytes := volume (tiny.cgHeader 0 [0x07] ++ tiny.dinode 2 DIR_MODE 512 [24] ++
  tiny.dinode 3 REG_MODE 600 [26, 28] ++
  [(24 * 512, tiny.direct 0 512 8 [120]), (26 * 512, List.replicate 512 97),
    (28 * 512, List.replicate 88 98)])

def freedFileCut : Bytes := freedFile.take (28 * 512 + 8)

theorem subdirs_freedFile : subdirs freedFile tinySb 2 = [] := by decide +kernel

theorem tree_freedFile : tree freedFile tinySb ⊆ {2} := by
  refine tree_subset rfl ?_
  rintro d rfl n hn
  rw [← mem_subdirs_iff, subdirs_freedFile] at hn
  exact absurd hn List.not_mem_nil

theorem namesWhole_freedFile : NamesWhole freedFile freedFileCut tinySb := by
  intro d hd inode hinode e _
  obtain rfl : d = 2 := tree_freedFile hd
  have hblocks : ((readInode freedFile tinySb 2).toOption.all fun inode => (List.range 12).all
      fun k => (directBytes freedFileCut tinySb inode k).len =
        (directBytes freedFile tinySb inode k).len) = true := by decide +kernel
  rw [hinode] at hblocks
  exact not_cutName fun k hk => by simpa using List.all_eq_true.mp hblocks k (List.mem_range.mpr hk)

theorem budget_freedFile :
    1 + ∑ d ∈ treeDirs freedFile tinySb, (subdirs freedFile tinySb d).length ≤ WALK_BUDGET := by
  have hzero : ∀ d ∈ treeDirs freedFile tinySb, (subdirs freedFile tinySb d).length = 0 := by
    intro d hd
    obtain rfl : d = 2 := tree_freedFile (mem_treeDirs_iff.mp hd)
    rw [subdirs_freedFile, List.length_nil]
  rw [Finset.sum_eq_zero hzero]
  decide

end Crafted

/-- The cut partition still gives an item, and the whole one backs it. -/
theorem recoverDeleted_of_isPrefix_freedFile :
    ∃ item ∈ recoverDeleted Crafted.helloDigest Crafted.freedFileCut,
      ∃ item' ∈ recoverDeleted Crafted.helloDigest Crafted.freedFile,
        RecoveredItem.Backed Crafted.helloDigest item item' := by
  obtain ⟨item, hitem⟩ : ∃ item, item ∈ recoverDeleted Crafted.helloDigest Crafted.freedFileCut :=
    List.exists_mem_of_length_pos (by decide +kernel)
  exact ⟨item, hitem, (recoverDeleted_of_isPrefix (Bytes.take_isPrefix _ _) (by decide +kernel)
    (by decide +kernel)).2 Crafted.namesWhole_freedFile Crafted.budget_freedFile item hitem⟩

end UfsForensic
