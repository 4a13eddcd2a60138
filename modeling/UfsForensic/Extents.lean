import UfsForensic.InlineSymlinks
import UfsForensic.MountOffset

/-!
# The extents of a file

The adapter walks the pointers of an inode twice: once for the bytes of the file, once for the runs
of the image that hold them. The runs cover the direct blocks only. On these the two walks agree:
every run holds the bytes that are read at its block, and a block without a run reads as zeros.
-/

namespace UfsForensic

open BlockMap (fileByte nindirOf readInodeFile_eq_ok_iff)

variable {fs : UfsFs} {inode : Inode}

def Inode.directPtr (inode : Inode) (b : ℕ) : UInt64 := inode.direct.toList.getD b 0

/-- The logical blocks of a file that the direct pointers name. -/
def directBlocks (sb : Superblock) (inode : Inode) : List ℕ :=
  List.range (min 12 (divCeil inode.size.toNat sb.blockBytes))

/-- The bytes of the file in logical block `b`: a block, less what lies past `di_size`. -/
def blockLen (sb : Superblock) (inode : Inode) (b : ℕ) : ℕ :=
  min sb.blockBytes (inode.size.toNat - b * sb.blockBytes)

/-- Reading logical block `b` fills the buffer with the bytes `f 0, f 1, …`. -/
def ReadsBlock (fs : UfsFs) (ino : ℕ) (inode : Inode) (b : ℕ) (f : ℕ → UInt8) : Prop :=
  ∀ buf : Bytes, buf.len = blockLen fs.sb inode b →
    ∃ out : Bytes, fs.readAt (.byIno ino) .default (b * fs.sb.blockBytes) buf =
        .ok (blockLen fs.sb inode b, out) ∧
      out.len = buf.len ∧ ∀ i < out.len, out.byte i = f i

structure IsRunOf (fs : UfsFs) (ino : ℕ) (inode : Inode) (b : ℕ) (r : RunInfo) : Prop where
  len_eq : r.run.len = blockLen fs.sb inode b
  -- a byte past the end of the image is zero
  reads : ReadsBlock fs ino inode b fun i => fs.image.byte (r.run.imageOffset + i)

/-- The runs are those of the direct blocks with a pointer, in order; the other direct blocks read
as zeros. -/
structure ExtentsDescribe (fs : UfsFs) (ino : ℕ) (inode : Inode) : Prop where
  runs : ∃ runs, fs.extents (.byIno ino) .default = .ok runs ∧
    List.Forall₂ (IsRunOf fs ino inode)
      ((directBlocks fs.sb inode).filter fun b => inode.directPtr b ≠ 0) runs
  holes : ∀ b ∈ directBlocks fs.sb inode, inode.directPtr b = 0 →
    ReadsBlock fs ino inode b fun _ => 0

theorem readAt_of_readFile {ino off : ℕ} {file buf : Bytes}
    (hread : readFile fs.image fs.sb ino = .ok file) (h : off + buf.len ≤ file.len) :
    fs.readAt (.byIno ino) .default off buf = .ok (buf.len, file.slice off buf.len) := by
  have hfrom : file.getFrom off = some (file.slice off (file.len - off)) :=
    Bytes.getFrom_eq_some (by omega)
  have hn : min (file.slice off (file.len - off)).len buf.len = buf.len := by
    rw [Bytes.slice_len]
    omega
  have htake : (file.slice off (file.len - off)).take buf.len = file.slice off buf.len := by
    rw [Bytes.take, Bytes.slice_slice _ _ _ _ _ (by omega), Nat.add_zero]
  have hcopy : buf.copyAt 0 (file.slice off buf.len) = file.slice off buf.len := by
    have hlen : (file.slice off buf.len).len = buf.len := by
      rw [Bytes.slice_len]
      omega
    refine Bytes.ext_of_lt hlen.symm fun i hi => ?_
    rw [Bytes.copyAt_len] at hi
    exact Bytes.copyAt_byte_of_mem hi (Nat.zero_le i) (by omega)
  simp only [UfsFs.readAt, requireDefaultStream, inoOf, hread, hfrom, hn, htake, hcopy, bind,
    Except.bind, pure, Except.pure, Except.mapError]

theorem readsBlock_of_bytes {ino b : ℕ} {file : Bytes} {f : ℕ → UInt8}
    (hread : readFile fs.image fs.sb ino = .ok file) (hsize : file.len = inode.size.toNat)
    (hb : b * fs.sb.blockBytes < inode.size.toNat)
    (h : ∀ i < blockLen fs.sb inode b, file.byte (b * fs.sb.blockBytes + i) = f i) :
    ReadsBlock fs ino inode b f := by
  intro buf hbuf
  have hin : b * fs.sb.blockBytes + buf.len ≤ file.len := by
    unfold blockLen at hbuf
    omega
  refine ⟨file.slice (b * fs.sb.blockBytes) buf.len, ?_, ?_, fun i hi => ?_⟩
  · rw [← hbuf]
    exact readAt_of_readFile hread hin
  · rw [Bytes.slice_len]
    omega
  · rw [Bytes.slice_len] at hi
    rw [Bytes.slice_byte_of_lt (by omega)]
    exact h i (by omega)

theorem address_eq_directPtr {p : Bytes} {sb : Superblock} {n b : ℕ} (hb : b < 12) :
    BlockMap.address p sb inode n b = inode.directPtr b := by
  rw [BlockMap.address_of_lt_direct hb]
  simp [Inode.directPtr, hb]

/-- An offset that saturates lies past the end of the image, as the exact one does. -/
theorem byte_satMul_add (p : Bytes) (a f i : ℕ) : p.byte (satMul a f + i) = p.byte (a * f + i) := by
  have hlen := p.len_lt_u64Max
  rcases Nat.lt_or_ge u64Max (a * f) with hlt | hle
  · have hsat : satMul a f = u64Max := min_eq_right hlt.le
    rw [p.byte_eq_zero _ (by omega), p.byte_eq_zero _ (by omega)]
  · rw [satMul_eq hle]

theorem mem_directBlocks {sb : Superblock} (hsb : sb.WellFormed) {b : ℕ} :
    b ∈ directBlocks sb inode ↔ b < 12 ∧ b * sb.blockBytes < inode.size.toNat := by
  rw [directBlocks, List.mem_range, lt_min_iff, BlockMap.lt_divCeil_iff hsb.blockBytes_pos]

/-- What the file reader gives at a position of a direct block. -/
theorem file_byte_eq {p : Bytes} {sb : Superblock} (hsb : sb.WellFormed) {file : Bytes}
    (hfile : readInodeFile p sb inode = .ok file) {b i : ℕ} (hb : b < 12)
    (hi : i < blockLen sb inode b) :
    file.byte (b * sb.blockBytes + i) = if inode.directPtr b = 0 then 0
      else p.byte ((inode.directPtr b).toNat * sb.fragBytes + i) := by
  obtain ⟨-, -, hbytes⟩ := (readInodeFile_eq_ok_iff hsb).mp hfile
  unfold blockLen at hi
  obtain ⟨hdiv, hmod⟩ := BlockMap.div_eq_of_mem_block (i := b * sb.blockBytes + i) (b := b)
    (s := sb.blockBytes) (Nat.le_add_right _ _) (by omega)
  have haddr : BlockMap.address p sb inode (nindirOf sb) b = inode.directPtr b :=
    address_eq_directPtr hb
  rw [hbytes _ (by omega)]
  by_cases hptr : inode.directPtr b = 0
  · rw [if_pos hptr]
    exact BlockMap.fileByte_eq_zero_of_hole hdiv (by rwa [haddr])
  · rw [if_neg hptr, BlockMap.fileByte_of_address hdiv (by rwa [haddr]), haddr, hmod,
      Nat.add_sub_cancel_left]

section Blocks

variable {ino : ℕ} {file : Bytes} (hsb : fs.sb.WellFormed)
  (hread : readFile fs.image fs.sb ino = .ok file)
  (hfile : readInodeFile fs.image fs.sb inode = .ok file) {b : ℕ}
  (hb : b ∈ directBlocks fs.sb inode)
include hsb hread hfile hb

theorem isRunOf_runAt (hptr : inode.directPtr b ≠ 0) :
    IsRunOf fs ino inode b (runAt fs.sb.fragBytes fs.sb.blockBytes inode.direct.toList
      inode.size.toNat b) where
  len_eq := rfl
  reads := by
    obtain ⟨hdirect, hin⟩ := (mem_directBlocks hsb).mp hb
    refine readsBlock_of_bytes hread (readInodeFile_len hfile).2 hin fun i hi => ?_
    rw [file_byte_eq hsb hfile hdirect hi, if_neg hptr]
    exact (byte_satMul_add _ _ _ _).symm

theorem readsBlock_hole (hptr : inode.directPtr b = 0) : ReadsBlock fs ino inode b fun _ => 0 := by
  obtain ⟨hdirect, hin⟩ := (mem_directBlocks hsb).mp hb
  refine readsBlock_of_bytes hread (readInodeFile_len hfile).2 hin fun i hi => ?_
  rw [file_byte_eq hsb hfile hdirect hi, if_pos hptr]

end Blocks

/-- The extents of a file that can be read describe the bytes that are read. An inline symlink is no
exception: both walks take its text for pointers. -/
theorem extents_describe_reads {source : DynSource} (hopen : UfsFs.openSource source = .ok fs)
    {ino : ℕ} (hino : readInode fs.image fs.sb ino = .ok inode) {file : Bytes}
    (hread : readFile fs.image fs.sb ino = .ok file) : ExtentsDescribe fs ino inode := by
  have hsb : fs.sb.WellFormed := (mounts_of_openSource hopen).wellFormed
  have hfile : readInodeFile fs.image fs.sb inode = .ok file := by
    obtain ⟨inode', hino', hfile⟩ := readFile_eq_ok_iff.mp hread
    rwa [Except.ok.inj (hino.symm.trans hino')]
  refine ⟨⟨_, extents_eq hino, ?_⟩, fun b hb => readsBlock_hole hsb hread hfile hb⟩
  rw [directRuns_eq_map hsb.blockBytes_pos, Vector.length_toList, List.forall₂_map_right_iff]
  refine List.forall₂_same.mpr fun b hb => ?_
  obtain ⟨hmem, hptr⟩ := List.mem_filter.mp hb
  exact isRunOf_runAt hsb hread hfile hmem (of_decide_eq_true hptr)

namespace Crafted

/-- A volume whose inode 4 is a file of two blocks and 100 bytes, the second block a hole. -/
def holedFile : Bytes := volume (tiny.dinode 4 REG_MODE 1124 [24, 0, 25] ++
  [(24 * 512, [7, 8]), (25 * 512, [9])])

def holedFileFs : UfsFs where
  image := holedFile
  sb := tinySb

def holedInode : Inode := Crafted.inode REG_MODE .regular 1124 [24, 0, 25] 0

theorem openSource_holedFile :
    UfsFs.openSource (memorySource holedFile) = .ok holedFileFs :=
  (openSource_eq_ok_iff (handsOver_memorySource _)).mpr
    ⟨rfl, mounts_of_rejected (by decide +kernel) (by decide +kernel)⟩

end Crafted

theorem extents_describe_reads_holedFile :
    ExtentsDescribe Crafted.holedFileFs 4 Crafted.holedInode := by
  have hino : readInode Crafted.holedFileFs.image Crafted.holedFileFs.sb 4 =
      .ok Crafted.holedInode := by decide +kernel
  have hsb : Crafted.tinySb.WellFormed :=
    Superblock.wellFormed_of_parse Crafted.parse_volume_nil
  have hsize : Crafted.holedInode.size.toNat ≤ Crafted.holedFile.len := by decide
  obtain ⟨file, hfile, -⟩ := BlockMap.readInodeFile_filled hsb hsize
  exact extents_describe_reads Crafted.openSource_holedFile hino
    (readFile_eq_ok_iff.mpr ⟨_, hino, hfile⟩)

end UfsForensic
