import UfsForensic.Crafted
import UfsForensic.File
import UfsForensic.Lib.IndexTree

/-!
# The block map

What a block map means: the addresses of a file's logical blocks are the 12 direct pointers
followed by the leaves of the single-, double- and triple-indirect trees, in order. The resolver
and the file reader are shown to follow it, byte by byte, for every geometry.
-/

namespace UfsForensic
namespace BlockMap

/-- Slot `i` of the pointer block at fragment `a`: a hole when the block is one, or when the slot
does not lie wholly inside the block and the partition. -/
def slotPtr (partition : Bytes) (sb : Superblock) (a : UInt64) (i : ℕ) : UInt64 :=
  let w := sb.version.ptrSize
  if a = 0 then 0
  else if i * w + w ≤ sb.blockBytes ∧ a.toNat * sb.fragBytes + i * w + w ≤ partition.len then
    sb.version.readPtr sb.endian partition (a.toNat * sb.fragBytes + i * w)
  else 0

/-- The addresses of all logical blocks, in order. -/
def addresses (partition : Bytes) (sb : Superblock) (inode : Inode) (n : ℕ) : List UInt64 :=
  inode.direct.toList ++
    (IndexTree.leaves (slotPtr partition sb) n 1 inode.singleRoot ++
      (IndexTree.leaves (slotPtr partition sb) n 2 inode.doubleRoot ++
        IndexTree.leaves (slotPtr partition sb) n 3 inode.tripleRoot))

/-- The address of logical block `b`, `0` when the map does not reach it. -/
def address (partition : Bytes) (sb : Superblock) (inode : Inode) (n b : ℕ) : UInt64 :=
  (addresses partition sb inode n)[b]?.getD 0

/-- Byte `i` of the file: the byte of its block in the partition, `0` in a hole and past the end
of the partition. -/
def fileByte (partition : Bytes) (sb : Superblock) (inode : Inode) (n i : ℕ) : UInt8 :=
  let a := address partition sb inode n (i / sb.blockBytes)
  let pos := a.toNat * sb.fragBytes + i % sb.blockBytes
  if a ≠ 0 ∧ pos < partition.len then partition.byte pos else 0

variable {partition : Bytes} {sb : Superblock} {inode : Inode}

theorem indirectPtr_eq_slotPtr (hsb : sb.WellFormed) (a : UInt64) (i : ℕ) :
    indirectPtr partition sb a i = slotPtr partition sb a i := by
  unfold indirectPtr slotPtr
  by_cases ha : a = 0
  · rw [if_pos ha, if_pos ha]
  rw [if_neg ha, if_neg ha, if_pos hsb.bsize_pos, hsb.bsize_eq]
  simp only [readBlock_eq hsb]
  have hw := sb.version.ptrSize_pos
  have hb := hsb.blockBytes_le
  generalize a.toNat * sb.fragBytes = start
  by_cases hin : i * sb.version.ptrSize + sb.version.ptrSize ≤ sb.blockBytes
  · have hexact : satMul i sb.version.ptrSize = i * sb.version.ptrSize := by
      apply satMul_eq
      unfold u64Max
      omega
    rw [hexact, UfsVersion.readPtr_slice hin]
    by_cases hp : start + i * sb.version.ptrSize + sb.version.ptrSize ≤ partition.len
    · rw [if_pos ⟨hin, hp⟩]
    · rw [if_neg fun h => hp h.2]
      exact UfsVersion.readPtr_eq_zero (by omega) _
  · rw [if_neg fun h => hin h.1]
    apply UfsVersion.readPtr_eq_zero
    rw [Bytes.slice_len]
    unfold satMul u64Max
    omega

variable {n : ℕ}

theorem address_of_lt_direct {b : ℕ} (h : b < 12) :
    address partition sb inode n b = inode.direct[b] := by
  rw [address, addresses, List.getElem?_append_left (by simpa using h)]
  simp [h]

theorem address_single {j : ℕ} (h : j < n) :
    address partition sb inode n (12 + j) = slotPtr partition sb inode.singleRoot j := by
  rw [address, addresses, List.getElem?_append_right (by simp), Vector.length_toList,
    Nat.add_sub_cancel_left, List.getElem?_append_left (by simpa using h),
    IndexTree.leaves_one_getElem? _ _ h]
  rfl

theorem address_double {j : ℕ} (h : j < n * n) :
    address partition sb inode n (12 + (n + j)) =
      slotPtr partition sb (slotPtr partition sb inode.doubleRoot (j / n)) (j % n) := by
  rw [address, addresses, List.getElem?_append_right (by simp), Vector.length_toList,
    Nat.add_sub_cancel_left, List.getElem?_append_right (by simp), IndexTree.leaves_length, pow_one,
    Nat.add_sub_cancel_left,
    List.getElem?_append_left (by rw [IndexTree.leaves_length, pow_two]; exact h),
    IndexTree.leaves_two_getElem? _ _ h]
  rfl

theorem address_triple {j : ℕ} (h : j < n * n * n) :
    address partition sb inode n (12 + (n + (n * n + j))) =
      slotPtr partition sb
        (slotPtr partition sb (slotPtr partition sb inode.tripleRoot (j / (n * n)))
          (j % (n * n) / n)) (j % (n * n) % n) := by
  rw [address, addresses, List.getElem?_append_right (by simp), Vector.length_toList,
    Nat.add_sub_cancel_left, List.getElem?_append_right (by simp), IndexTree.leaves_length, pow_one,
    Nat.add_sub_cancel_left,
    List.getElem?_append_right (by rw [IndexTree.leaves_length, pow_two]; omega),
    IndexTree.leaves_length, pow_two, Nat.add_sub_cancel_left, IndexTree.leaves_three_getElem? _ _ h]
  rfl

theorem address_past {j : ℕ} (h : n * n * n ≤ j) :
    address partition sb inode n (12 + (n + (n * n + j))) = 0 := by
  rw [address, List.getElem?_eq_none]
  · rfl
  · simp only [addresses, List.length_append, Vector.length_toList, IndexTree.leaves_length, pow_succ,
      pow_zero, Nat.one_mul]
    omega

/-- The resolver computes the addresses of the block map. -/
theorem resolveBlock_eq_address (hsb : sb.WellFormed) (hn' : n < 2 ^ 31) {b : ℕ}
    (hb : b < 2 ^ 63) :
    resolveBlock partition sb inode b n = address partition sb inode n b := by
  have hsq : n * n ≤ 2 ^ 31 * 2 ^ 31 := Nat.mul_le_mul hn'.le hn'.le
  have hn2 : satMul n n = n * n := satMul_eq (hsq.trans (by unfold u64Max; norm_num))
  unfold resolveBlock
  by_cases h1 : b < 12
  · rw [dif_pos h1, address_of_lt_direct h1]
  rw [dif_neg h1]
  obtain ⟨i, rfl⟩ := Nat.exists_eq_add_of_le (Nat.not_lt.mp h1)
  by_cases hn : n = 0
  · -- without pointers in a pointer block the map ends with the direct ones
    subst hn
    have hpast : address partition sb inode 0 (12 + (0 + (0 * 0 + i))) = 0 :=
      address_past (Nat.zero_le i)
    rw [if_pos rfl]
    simpa using hpast.symm
  rw [if_neg hn]
  simp only [UFS_NDADDR, Nat.add_sub_cancel_left, hn2, indirectPtr_eq_slotPtr hsb]
  -- each level is entered with the count of the levels before it taken off
  by_cases h2 : i < n
  · rw [if_pos h2, address_single h2]
  rw [if_neg h2]
  obtain ⟨j, rfl⟩ := Nat.exists_eq_add_of_le (Nat.not_lt.mp h2)
  rw [Nat.add_sub_cancel_left]
  by_cases h3 : j < n * n
  · rw [if_pos h3, address_double h3]
  rw [if_neg h3]
  obtain ⟨k, rfl⟩ := Nat.exists_eq_add_of_le (Nat.not_lt.mp h3)
  rw [Nat.add_sub_cancel_left]
  -- the cube may exceed 64 bits, but no block index reaches the clamp
  have hcube : satMul (n * n) n ≤ k ↔ n * n * n ≤ k := satMul_le_iff (by unfold u64Max; omega)
  by_cases h4 : n * n * n ≤ k
  · rw [if_pos (hcube.mpr h4), address_past h4]
  · rw [if_neg fun h => h4 (hcube.mp h), address_triple (Nat.not_le.mp h4)]

theorem fileByte_eq_zero_of_hole {i b : ℕ} (hi : i / sb.blockBytes = b)
    (h : address partition sb inode n b = 0) : fileByte partition sb inode n i = 0 := by
  unfold fileByte
  rw [hi, h]
  exact if_neg fun hc => hc.1 rfl

theorem fileByte_of_address {i b : ℕ} (hi : i / sb.blockBytes = b)
    (h : address partition sb inode n b ≠ 0) :
    fileByte partition sb inode n i = partition.byte
      ((address partition sb inode n b).toNat * sb.fragBytes + i % sb.blockBytes) := by
  unfold fileByte
  rw [hi]
  simp only [h, ne_eq, not_false_eq_true, true_and, ite_eq_left_iff, Nat.not_lt]
  intro hpos
  exact (partition.byte_eq_zero _ hpos).symm

/-- The buffer of `readInodeFile` once the bytes before `filled` have been written. -/
structure Filled (partition : Bytes) (sb : Superblock) (inode : Inode) (n size filled : ℕ)
    (out : Bytes) : Prop where
  len_eq : out.len = size
  byte_eq : ∀ i < filled, out.byte i = fileByte partition sb inode n i
  byte_zero : ∀ i, filled ≤ i → out.byte i = 0

theorem div_eq_of_mem_block {i b s : ℕ} (h1 : b * s ≤ i) (h2 : i < b * s + s) :
    i / s = b ∧ i % s = i - b * s := by
  have hdiv : i / s = b := Nat.div_eq_of_lt_le h1 (by rw [Nat.succ_mul]; exact h2)
  have := Nat.div_add_mod i s
  rw [hdiv, Nat.mul_comm] at this
  omega

theorem Filled.hole {size b : ℕ} {out : Bytes}
    (h : Filled partition sb inode n size (min (b * sb.blockBytes) size) out)
    (ha : address partition sb inode n b = 0) :
    Filled partition sb inode n size (min ((b + 1) * sb.blockBytes) size) out where
  len_eq := h.len_eq
  byte_eq i hi := by
    rw [Nat.succ_mul] at hi
    rcases Nat.lt_or_ge i (min (b * sb.blockBytes) size) with hlt | hge
    · exact h.byte_eq i hlt
    · -- a byte of the hole itself
      have hdiv := div_eq_of_mem_block (i := i) (b := b) (s := sb.blockBytes) (by omega) (by omega)
      rw [h.byte_zero i hge, fileByte_eq_zero_of_hole hdiv.1 ha]
  byte_zero i hi := by
    rw [Nat.succ_mul] at hi
    exact h.byte_zero i (by omega)

theorem Filled.copy {size b : ℕ} {out : Bytes}
    (h : Filled partition sb inode n size (min (b * sb.blockBytes) size) out)
    (hb : b * sb.blockBytes < size) (ha : address partition sb inode n b ≠ 0)
    {block : Bytes} (hblock : block = partition.slice
      ((address partition sb inode n b).toNat * sb.fragBytes)
      (min (size - b * sb.blockBytes) sb.blockBytes)) :
    Filled partition sb inode n size (min ((b + 1) * sb.blockBytes) size)
      (out.copyAt (b * sb.blockBytes) block) where
  len_eq := h.len_eq
  byte_eq i hi := by
    have hblen : block.len = min (min (size - b * sb.blockBytes) sb.blockBytes)
        (partition.len - (address partition sb inode n b).toNat * sb.fragBytes) := by
      rw [hblock, Bytes.slice_len]
    rw [Nat.succ_mul] at hi
    rcases Nat.lt_or_ge i (b * sb.blockBytes) with hlt | hge
    · rw [Bytes.copyAt_byte_of_not_mem (by omega)]
      exact h.byte_eq i (by omega)
    · obtain ⟨hdiv, hmod⟩ := div_eq_of_mem_block (i := i) (b := b) (s := sb.blockBytes) hge
        (by omega)
      rw [fileByte_of_address hdiv ha, hmod]
      rcases Nat.lt_or_ge i (b * sb.blockBytes + block.len) with hin | hout
      · rw [Bytes.copyAt_byte_of_mem (by rw [h.len_eq]; omega) hge hin, hblock,
          Bytes.slice_byte_of_lt (by omega)]
      · -- the block is cut by the end of the partition
        rw [Bytes.copyAt_byte_of_not_mem (by omega), h.byte_zero i (by omega),
          Bytes.byte_eq_zero _ _ (by omega)]
  byte_zero i hi := by
    have hblen : block.len ≤ min (size - b * sb.blockBytes) sb.blockBytes := by
      rw [hblock, Bytes.slice_len]
      exact min_le_left _ _
    rw [Nat.succ_mul] at hi
    rw [Bytes.copyAt_byte_of_not_mem (by omega)]
    exact h.byte_zero i (by omega)

/-- The loop fills one block after the other, up to the last. -/
theorem readBlocks_filled (hsb : sb.WellFormed) (hn' : n < 2 ^ 31) {size : ℕ}
    (hsize : size < 2 ^ 63) (left b : ℕ) (out : Bytes)
    (hb : left = 0 ∨ (b + left - 1) * sb.blockBytes < size)
    (h : Filled partition sb inode n size (min (b * sb.blockBytes) size) out) :
    ∃ out', readBlocks partition sb inode sb.blockBytes n left (size - b * sb.blockBytes)
        (min (b * sb.blockBytes) size) b out = .ok out' ∧
      Filled partition sb inode n size (min ((b + left) * sb.blockBytes) size) out' := by
  induction left generalizing b out with
  | zero => exact ⟨out, rfl, h⟩
  | succ left ih =>
    have hpos := hsb.blockBytes_pos
    have hbs : b * sb.blockBytes ≤ (b + left) * sb.blockBytes := Nat.mul_le_mul_right _ (by omega)
    have hb' : (b + left) * sb.blockBytes < size := by
      rcases hb with hb | hb
      · omega
      · exact hb
    have hble : b ≤ b * sb.blockBytes := Nat.le_mul_of_pos_right b hpos
    have hres : resolveBlock partition sb inode b n = address partition sb inode n b :=
      resolveBlock_eq_address hsb hn' (by omega)
    have hmin : min (b * sb.blockBytes) size = b * sb.blockBytes := by omega
    -- the counters of the loop are the block number times the block size, clipped to the file
    have hnext : left = 0 ∨ (b + 1 + left - 1) * sb.blockBytes < size := by
      right
      rwa [show b + 1 + left - 1 = b + left by omega]
    have hadv : satAdd (b * sb.blockBytes) (min (size - b * sb.blockBytes) sb.blockBytes) =
        min ((b + 1) * sb.blockBytes) size := by
      rw [Nat.succ_mul]
      unfold satAdd u64Max
      omega
    have hrem : size - b * sb.blockBytes - sb.blockBytes = size - (b + 1) * sb.blockBytes := by
      rw [Nat.succ_mul]
      omega
    have hcount : b + (left + 1) = b + 1 + left := by omega
    rw [readBlocks, hmin, hadv, hrem, hcount]
    simp only [hres, readBlock_eq hsb]
    by_cases ha : address partition sb inode n b = 0
    · rw [if_pos ha]
      exact ih (b + 1) out hnext (h.hole ha)
    · rw [if_neg ha]
      generalize hblock : partition.slice ((address partition sb inode n b).toNat * sb.fragBytes)
        (min (size - b * sb.blockBytes) sb.blockBytes) = block
      have hblen : block.len ≤ min (size - b * sb.blockBytes) sb.blockBytes := by
        rw [← hblock, Bytes.slice_len]
        exact min_le_left _ _
      rw [min_eq_left hblen, if_pos (by rw [h.len_eq]; omega), Bytes.take, Bytes.slice_zero_len]
      exact ih (b + 1) _ hnext (h.copy (by omega) ha hblock.symm)

theorem divCeil_mul_ge {a d : ℕ} (hd : 0 < d) : a ≤ divCeil a d * d := by
  have := Nat.div_add_mod a d
  have := Nat.mod_lt a hd
  unfold divCeil
  split_ifs
  · rw [Nat.mul_comm]
    omega
  · rw [Nat.succ_mul, Nat.mul_comm]
    omega

theorem divCeil_pred_mul_lt {a d : ℕ} (ha : 0 < a) : (divCeil a d - 1) * d < a := by
  have := Nat.div_add_mod a d
  unfold divCeil
  split_ifs with h
  · have hq : 0 < a / d := by
      rcases Nat.eq_zero_or_pos (a / d) with h0 | h0
      · rw [h0] at this
        omega
      · exact h0
    have hd : 0 < d := by
      rcases Nat.eq_zero_or_pos d with h0 | h0
      · rw [h0, Nat.div_zero] at hq
        omega
      · exact h0
    have hlt : (a / d - 1) * d < a / d * d := Nat.mul_lt_mul_of_pos_right (by omega) hd
    rw [Nat.mul_comm (a / d)] at hlt
    omega
  · rw [Nat.add_sub_cancel, Nat.mul_comm]
    omega

theorem lt_divCeil_iff {a d k : ℕ} (hd : 0 < d) : k < divCeil a d ↔ k * d < a := by
  constructor
  · intro h
    have ha : 0 < a := by
      rcases Nat.eq_zero_or_pos a with rfl | ha
      · simp [divCeil] at h
      · exact ha
    calc k * d ≤ (divCeil a d - 1) * d := Nat.mul_le_mul_right _ (by omega)
      _ < a := divCeil_pred_mul_lt ha
  · intro h
    by_contra hle
    have hge := divCeil_mul_ge (a := a) hd
    have := Nat.mul_le_mul_right d (Nat.not_lt.mp hle)
    omega

theorem divCeil_eq_succ {a d : ℕ} (hd : 0 < d) (ha : 0 < a) :
    divCeil a d = divCeil (a - d) d + 1 := by
  refine eq_of_forall_lt_iff fun k => ?_
  cases k with
  | zero =>
    rw [lt_divCeil_iff hd, Nat.zero_mul]
    exact iff_of_true ha (Nat.succ_pos _)
  | succ k =>
    rw [lt_divCeil_iff hd, Nat.succ_lt_succ_iff, lt_divCeil_iff hd, Nat.succ_mul]
    omega

/-- The number of pointers of a pointer block, as the file reader takes it. -/
def nindirOf (sb : Superblock) : ℕ := if 0 < sb.nindir.toInt then i32AsU64 sb.nindir else 0

theorem nindirOf_eq (h : 0 < sb.nindir.toInt) : nindirOf sb = sb.nindir.toInt.toNat := by
  rw [nindirOf, if_pos h, i32AsU64_of_nonneg h.le]

theorem nindirOf_lt (sb : Superblock) : nindirOf sb < 2 ^ 31 := by
  have := sb.nindir.toInt_lt
  by_cases h : 0 < sb.nindir.toInt
  · rw [nindirOf_eq h]
    omega
  · rw [nindirOf, if_neg h]
    norm_num

/-- The file reader returns the bytes of the block map. -/
theorem readInodeFile_filled (hsb : sb.WellFormed)
    (hsize : inode.size.toNat ≤ partition.len) :
    ∃ out, readInodeFile partition sb inode = .ok out ∧
      Filled partition sb inode (nindirOf sb) inode.size.toNat inode.size.toNat out := by
  have hb := hsb.bsize_pos
  have hf := hsb.fsize_pos
  have hlen := partition.len_lt
  unfold readInodeFile
  rw [if_neg (by omega), if_neg (by omega), dif_neg (by omega)]
  simp only [hsb.bsize_eq]
  by_cases hs : inode.size.toNat = 0
  · rw [if_pos hs]
    exact ⟨_, rfl, rfl, fun i hi => absurd hi (by omega), fun i _ => Bytes.zeros_byte _ _ i⟩
  rw [if_neg hs]
  have hzero : Filled partition sb inode (nindirOf sb) inode.size.toNat 0
      (Bytes.zeros inode.size.toNat (by omega)) :=
    ⟨rfl, fun i hi => absurd hi (Nat.not_lt_zero i), fun i _ => Bytes.zeros_byte _ _ i⟩
  have hlast := divCeil_pred_mul_lt (d := sb.blockBytes) (Nat.pos_of_ne_zero hs)
  have hbound : inode.size.toNat < 2 ^ 63 := by omega
  obtain ⟨out, hout, hfill⟩ := readBlocks_filled hsb (nindirOf_lt sb) hbound
    (divCeil inode.size.toNat sb.blockBytes) 0 _ (Or.inr (by rwa [Nat.zero_add]))
    (by simpa using hzero)
  refine ⟨out, ?_, ?_⟩
  · simpa [nindirOf, fileBuffer] using hout
  · have hge := divCeil_mul_ge (a := inode.size.toNat) hsb.blockBytes_pos
    rwa [Nat.zero_add, min_eq_right hge] at hfill

/-- What the file reader returns, and when. -/
theorem readInodeFile_eq_ok_iff (hsb : sb.WellFormed) {content : Bytes} :
    readInodeFile partition sb inode = .ok content ↔ inode.size.toNat ≤ partition.len ∧
      content.len = inode.size.toNat ∧
      ∀ i < inode.size.toNat, content.byte i = fileByte partition sb inode (nindirOf sb) i := by
  constructor
  · intro h
    obtain ⟨hsize, hlen⟩ := readInodeFile_len h
    obtain ⟨out, hout, hfill⟩ := readInodeFile_filled hsb hsize
    obtain rfl := Except.ok.inj (h.symm.trans hout)
    exact ⟨hsize, hlen, hfill.byte_eq⟩
  · rintro ⟨hsize, hlen, hbytes⟩
    obtain ⟨out, hout, hfill⟩ := readInodeFile_filled hsb hsize
    have heq : out = content := by
      refine Bytes.ext_of_lt (hfill.len_eq.trans hlen.symm) fun i hi => ?_
      rw [hfill.len_eq] at hi
      rw [hfill.byte_eq i hi, hbytes i hi]
    rw [hout, heq]

/-- Reading an inode that fits the partition succeeds, and every byte is the one the in-order
flattening of the block map names. Inline symlinks are no exception: their pointer area is then
read as addresses. -/
theorem readInodeFile_eq_flattening {data : Bytes} (hparse : Superblock.parse data = .ok sb)
    (hn : 0 < sb.nindir.toInt) (partition : Bytes) (inode : Inode)
    (hsize : inode.size.toNat ≤ partition.len) :
    ∃ out, readInodeFile partition sb inode = .ok out ∧ out.len = inode.size.toNat ∧
      ∀ i < inode.size.toNat,
        out.byte i = fileByte partition sb inode sb.nindir.toInt.toNat i := by
  obtain ⟨out, hout, hfill⟩ :=
    readInodeFile_filled (Superblock.wellFormed_of_parse hparse) hsize
  rw [nindirOf_eq hn] at hfill
  exact ⟨out, hout, hfill.len_eq, hfill.byte_eq⟩

/-- A file of 13 blocks, all holes but the second and the last, which an indirect block names. -/
def sparseInode : Inode :=
  Crafted.inode Crafted.REG_MODE .regular 6200 [0, 24] 25

def sparseVolume : Bytes := Crafted.volume [(24 * 512, [7, 7]), (25 * 512, [26]), (26 * 512, [9])]

theorem readInodeFile_eq_flattening_sparse :
    ∃ out, readInodeFile sparseVolume Crafted.tinySb sparseInode = .ok out ∧
      out.len = sparseInode.size.toNat ∧ ∀ i < sparseInode.size.toNat, out.byte i =
        fileByte sparseVolume Crafted.tinySb sparseInode Crafted.tinySb.nindir.toInt.toNat i :=
  readInodeFile_eq_flattening
    (show Superblock.parse (sparseVolume.slice SBLOCK_UFS1 SB_MIN_LEN) = .ok Crafted.tinySb from
      Crafted.parse_volume (by decide))
    (by decide +kernel) sparseVolume sparseInode (by decide +kernel)

end BlockMap
end UfsForensic
