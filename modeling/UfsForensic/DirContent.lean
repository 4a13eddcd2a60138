import UfsForensic.DirWalk
import UfsForensic.Footprint

/-!
# Directory listings and directory content

The lister walks the direct pointers on its own. Its records are those of the first twelve pieces
of the content the file reader assembles, provided no visited block is cut by the end of the
partition.
-/

namespace UfsForensic

variable {partition : Bytes} {sb : Superblock} {inode : Inode}

/-- The records of the block at `addr`, of which `remaining` bytes belong to the directory. -/
def directBlock (partition : Bytes) (sb : Superblock) (addr : UInt64) (remaining : ℕ) :
    List DirEntry :=
  if remaining = 0 ∨ addr = 0 then []
  else
    walkFrom (partition.slice (addr.toNat * sb.fragBytes) (min remaining sb.blockBytes)) sb.endian 0

/-- The lister appends the records of its blocks, one block after the other. -/
theorem walkPointers_eq (hsb : sb.WellFormed) (ptrs : List UInt64) (remaining : ℕ)
    (entries : List DirEntry) :
    walkPointers partition sb sb.blockBytes ptrs remaining entries =
      entries ++ (List.range ptrs.length).flatMap fun k =>
        directBlock partition sb (ptrs.getD k 0) (remaining - k * sb.blockBytes) := by
  induction ptrs generalizing remaining entries with
  | nil => simp [walkPointers]
  | cons addr rest ih =>
    have hstep (k : ℕ) : remaining - k.succ * sb.blockBytes =
        remaining - sb.blockBytes - k * sb.blockBytes := by
      rw [Nat.succ_mul]
      omega
    rw [List.length_cons, List.range_succ_eq_map, List.flatMap_cons, List.flatMap_map]
    simp only [List.getD_cons_succ, List.getD_cons_zero, hstep, Nat.zero_mul, Nat.sub_zero]
    rw [walkPointers]
    by_cases hr : remaining = 0
    · rw [if_pos hr, directBlock, if_pos (Or.inl hr)]
      have hnil : ∀ k ∈ List.range rest.length, directBlock partition sb (rest.getD k 0)
          (remaining - sb.blockBytes - k * sb.blockBytes) = [] := by
        intro k _
        rw [directBlock, if_pos (Or.inl (by omega))]
      rw [List.flatMap_congr hnil]
      simp
    rw [if_neg hr]
    by_cases ha : addr = 0
    · rw [if_pos ha, ih, directBlock, if_pos (Or.inr ha), List.nil_append]
    · rw [if_neg ha, readBlock_eq hsb]
      simp only [walkBlock]
      rw [ih, directBlock, if_neg (by simp [hr, ha]), List.append_assoc]

theorem listDirEntries_eq (hsb : sb.WellFormed) :
    listDirEntries partition sb inode = (List.range 12).flatMap fun k =>
      directBlock partition sb (inode.direct.toList.getD k 0)
        (inode.size.toNat - k * sb.blockBytes) := by
  have hb := hsb.bsize_pos
  have hf := hsb.fsize_pos
  unfold listDirEntries
  rw [if_neg (by omega), if_pos hb, hsb.bsize_eq, walkPointers_eq hsb, List.nil_append,
    Vector.length_toList]

theorem flatMap_range_min {α : Type*} {f : ℕ → List α} {m : ℕ} (h : ∀ k, m ≤ k → f k = []) (n : ℕ) :
    (List.range n).flatMap f = (List.range (min n m)).flatMap f := by
  induction n with
  | zero => simp
  | succ n ih =>
    rw [List.range_succ, List.flatMap_append, ih]
    rcases Nat.lt_or_ge n m with hn | hn
    · rw [min_eq_left hn.le, min_eq_left hn, List.range_succ, List.flatMap_append]
    · rw [min_eq_right hn, min_eq_right (by omega)]
      simp [h n hn]

/-- The successive pieces of `size` bytes of `content`, the last one cut at its end. -/
def pieces (content : Bytes) (size : ℕ) : List Bytes :=
  (List.range (divCeil content.len size)).map fun k => content.slice (k * size) size

/-- Every pointer and data block of the content lies wholly inside the partition. -/
def VisitedInside (partition : Bytes) (sb : Superblock) (inode : Inode) : Prop :=
  ∀ a ∈ visitedBlocks partition sb inode, a.toNat * sb.fragBytes + sb.blockBytes ≤ partition.len

instance : Decidable (VisitedInside partition sb inode) :=
  List.decidableBAll _ (visitedBlocks partition sb inode)

/-- The records of one direct block are those of the piece of the content it holds. -/
theorem directBlock_eq_walk_piece (hsb : sb.WellFormed) {content : Bytes}
    (hfill : BlockMap.Filled partition sb inode (BlockMap.nindirOf sb) inode.size.toNat
      inode.size.toNat content) (hin : VisitedInside partition sb inode) {k : ℕ} (hk : k < 12) :
    directBlock partition sb (inode.direct.toList.getD k 0)
        (inode.size.toNat - k * sb.blockBytes) =
      walkFrom (content.slice (k * sb.blockBytes) sb.blockBytes) sb.endian 0 := by
  have hlen := hfill.len_eq
  have hdirect : inode.direct.toList.getD k 0 = inode.direct[k] := by
    simp [hk]
  rw [hdirect, directBlock]
  by_cases hr : inode.size.toNat - k * sb.blockBytes = 0
  · rw [if_pos (Or.inl hr), walkFrom_of_len_zero]
    rw [Bytes.slice_len]
    omega
  have haddr : BlockMap.address partition sb inode (BlockMap.nindirOf sb) k = inode.direct[k] :=
    BlockMap.address_of_lt_direct hk
  have hmem {i : ℕ} (hi : i < sb.blockBytes) :
      (k * sb.blockBytes + i) / sb.blockBytes = k ∧
        (k * sb.blockBytes + i) % sb.blockBytes = i := by
    have := BlockMap.div_eq_of_mem_block (i := k * sb.blockBytes + i) (b := k) (s := sb.blockBytes)
      (by omega) (by omega)
    rw [Nat.add_sub_cancel_left] at this
    exact this
  by_cases ha : inode.direct[k] = 0
  · -- a hole reads as zeros, which hold no record
    rw [if_pos (Or.inr ha), walkFrom_of_zero]
    intro i
    rw [Bytes.slice_byte]
    split_ifs with hi
    · rcases Nat.lt_or_ge (k * sb.blockBytes + i) inode.size.toNat with h | h
      · rw [hfill.byte_eq _ h,
          BlockMap.fileByte_eq_zero_of_hole (hmem hi).1 (haddr.trans ha)]
      · exact hfill.byte_zero _ h
    · rfl
  · rw [if_neg (by simp [hr, ha])]
    have hlt : k < divCeil inode.size.toNat sb.blockBytes := by
      have hge := BlockMap.divCeil_mul_ge (a := inode.size.toNat) hsb.blockBytes_pos
      by_contra hcon
      have := Nat.mul_le_mul_right sb.blockBytes (Nat.not_lt.mp hcon)
      omega
    -- the block is visited, so the premise rules out that it is cut
    have hfit := hin _ (mem_visitedBlocks.mpr ⟨ha, k, hlt, Or.inr (by rw [resolveBlock, dif_pos hk])⟩)
    congr 1
    apply Bytes.ext_of_lt
    · rw [Bytes.slice_len, Bytes.slice_len, hlen]
      omega
    · intro i hi
      rw [Bytes.slice_len] at hi
      have hib : i < sb.blockBytes := by omega
      rw [Bytes.slice_byte_of_lt (by omega), Bytes.slice_byte_of_lt hib,
        hfill.byte_eq _ (by omega),
        BlockMap.fileByte_of_address (hmem hib).1 (by rwa [haddr]), haddr, (hmem hib).2]

/-- A directory listing is the records of the first twelve pieces of the directory's content, in
order. -/
theorem listDirAll_eq_pieces {data : Bytes} (hparse : Superblock.parse data = .ok sb)
    {dirIno : ℕ} (hino : readInode partition sb dirIno = .ok inode)
    {content : Bytes} (hread : readInodeFile partition sb inode = .ok content)
    (hin : VisitedInside partition sb inode) :
    listDirAll partition sb dirIno =
      .ok (((pieces content sb.blockBytes).take 12).flatMap fun piece =>
        walkBlock piece sb.endian []) := by
  have hsb := Superblock.wellFormed_of_parse hparse
  have hsize : inode.size.toNat ≤ partition.len := (readInodeFile_len hread).1
  obtain ⟨out, hout, hfill⟩ := BlockMap.readInodeFile_filled hsb hsize
  rw [hread] at hout
  obtain rfl := Except.ok.inj hout
  have hall : listDirEntries partition sb inode = (List.range 12).flatMap fun k =>
      walkFrom (content.slice (k * sb.blockBytes) sb.blockBytes) sb.endian 0 := by
    rw [listDirEntries_eq hsb]
    refine List.flatMap_congr fun k hk => ?_
    exact directBlock_eq_walk_piece hsb hfill hin (List.mem_range.mp hk)
  rw [listDirAll_eq_ok_iff.mpr ⟨inode, hino, rfl⟩, hall, pieces, ← List.map_take, List.take_range,
    List.flatMap_map]
  simp only [walkBlock, List.nil_append]
  congr 1
  -- the pieces past the end are empty
  generalize hm : divCeil content.len sb.blockBytes = m
  have hpast : ∀ k, m ≤ k →
      walkFrom (content.slice (k * sb.blockBytes) sb.blockBytes) sb.endian 0 = [] := by
    intro k hk
    apply walkFrom_of_len_zero
    have hge := BlockMap.divCeil_mul_ge (a := content.len) hsb.blockBytes_pos
    have := Nat.mul_le_mul_right sb.blockBytes hk
    rw [hm] at hge
    rw [Bytes.slice_len]
    omega
  exact flatMap_range_min hpast 12

namespace Crafted

/-- A directory of 13 blocks with an entry `a` in the first and an entry `x` in the last, which an
indirect block names. -/
def longDirInode : Inode :=
  Crafted.inode DIR_MODE .directory 6656 [24] 25

def longDir : Bytes := volume (tiny.dinode 2 DIR_MODE 6656 [24] ++
  [tiny.indirect 2 25, (24 * 512, tiny.direct 4 512 8 [97]), (25 * 512, int .little 4 26),
    (26 * 512, tiny.direct 3 512 8 [120])])

theorem parse_longDir :
    Superblock.parse (longDir.slice SBLOCK_UFS1 SB_MIN_LEN) = .ok tinySb :=
  parse_volume (by decide)

theorem readInode_longDir : readInode longDir tinySb 2 = .ok longDirInode ∧
    VisitedInside longDir tinySb longDirInode := by decide +kernel

theorem exists_readInodeFile_longDir :
    ∃ content, readInodeFile longDir tinySb longDirInode = .ok content := by
  obtain ⟨content, hread, -⟩ := BlockMap.readInodeFile_filled
    (Superblock.wellFormed_of_parse parse_longDir)
    (show longDirInode.size.toNat ≤ longDir.len by decide)
  exact ⟨content, hread⟩

end Crafted

theorem listDirAll_eq_pieces_longDir :
    ∃ content, readInodeFile Crafted.longDir Crafted.tinySb Crafted.longDirInode = .ok content ∧
      listDirAll Crafted.longDir Crafted.tinySb 2 =
        .ok (((pieces content Crafted.tinySb.blockBytes).take 12).flatMap fun piece =>
          walkBlock piece Crafted.tinySb.endian []) := by
  obtain ⟨content, hread⟩ := Crafted.exists_readInodeFile_longDir
  exact ⟨content, hread, listDirAll_eq_pieces Crafted.parse_longDir
    Crafted.readInode_longDir.1 hread Crafted.readInode_longDir.2⟩

/-- The listing of the crafted directory misses the entry in its thirteenth piece. -/
theorem listing_misses_indirect_block :
    Superblock.parse (Crafted.longDir.slice SBLOCK_UFS1 SB_MIN_LEN) = .ok Crafted.tinySb ∧
      0 < Crafted.tinySb.nindir.toInt ∧
      readInode Crafted.longDir Crafted.tinySb 2 = .ok Crafted.longDirInode ∧
      Crafted.longDirInode.isDir = true ∧
      VisitedInside Crafted.longDir Crafted.tinySb Crafted.longDirInode ∧
      ∃ content, readInodeFile Crafted.longDir Crafted.tinySb Crafted.longDirInode = .ok content ∧
        listDirAll Crafted.longDir Crafted.tinySb 2 ≠
          .ok ((pieces content Crafted.tinySb.blockBytes).flatMap fun piece =>
            walkBlock piece Crafted.tinySb.endian []) := by
  obtain ⟨content, hread⟩ := Crafted.exists_readInodeFile_longDir
  refine ⟨Crafted.parse_longDir, by decide +kernel, Crafted.readInode_longDir.1, by decide,
    Crafted.readInode_longDir.2, content, hread, ?_⟩
  have hlist : listDirAll Crafted.longDir Crafted.tinySb 2 =
      .ok [{ name := [97], ino := 4, fileType := .regular, deleted := false }] := by
    decide +kernel
  have hpieces : (readInodeFile Crafted.longDir Crafted.tinySb Crafted.longDirInode).map
      (fun content => (pieces content Crafted.tinySb.blockBytes).flatMap fun piece =>
        walkBlock piece Crafted.tinySb.endian []) =
      .ok [{ name := [97], ino := 4, fileType := .regular, deleted := false },
        { name := [120], ino := 3, fileType := .regular, deleted := false }] := by
    decide +kernel
  rw [hread] at hpieces
  have hentry := Except.ok.inj hpieces
  dsimp only at hentry
  rw [hlist, hentry]
  simp

end UfsForensic
