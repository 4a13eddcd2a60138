import UfsForensic.BlockMap
import UfsForensic.DinodeCodec

/-!
# Laying out a file

How the content of a file is laid out in a volume: a table of pointer blocks, and pieces of the
content at the addresses that the pointers name, with holes where the content is zero. A file laid
out so is read back, through direct, single-, double- and triple-indirect blocks alike.
-/

namespace UfsForensic

open Bytes (Run Stores)
open BlockMap (nindirOf slotPtr)

/-- The pointer blocks of a volume: the fragment address and the slots of each. -/
abbrev PtrBlocks := List (UInt64 × List UInt64)

namespace PtrBlocks

def slot (t : PtrBlocks) (a : UInt64) (i : ℕ) : UInt64 :=
  if a = 0 then 0 else ((t.lookup a).getD []).getD i 0

/-- The pointer blocks of the tree of height `k` at `a` are in the table, with `n` slots each. -/
def covers (t : PtrBlocks) (n : ℕ) : ℕ → UInt64 → Bool
  | 0, _ => true
  | k + 1, a => a == 0 || (t.lookup a).any fun slots =>
      slots.length == n && slots.all (t.covers n k)

def ptrBytes (sb : Superblock) (x : UInt64) : List UInt8 := (sb.version.ptrRun sb.endian 0 x).2

def runs (t : PtrBlocks) (sb : Superblock) : List Run :=
  t.map fun b => (b.1.toNat * sb.fragBytes, b.2.flatMap (ptrBytes sb))

/-- The addresses of the logical blocks of a file, as the table has them. -/
def addresses (t : PtrBlocks) (inode : Inode) (n : ℕ) : List UInt64 :=
  inode.direct.toList ++
    (IndexTree.leaves t.slot n 1 inode.singleRoot ++
      (IndexTree.leaves t.slot n 2 inode.doubleRoot ++
        IndexTree.leaves t.slot n 3 inode.tripleRoot))

/-- The address of logical block `b`, `0` for a hole. -/
def address (t : PtrBlocks) (inode : Inode) (n b : ℕ) : UInt64 := (t.addresses inode n)[b]?.getD 0

/-- The table is stored: each block at its address, and its pointers fit their slots. -/
structure Stored (t : PtrBlocks) (p : Bytes) (sb : Superblock) : Prop where
  runs : ∀ r ∈ t.runs sb, Stores p r
  holds : ∀ b ∈ t, ∀ x ∈ b.2, sb.version.HoldsPtr x
  room : nindirOf sb * sb.version.ptrSize ≤ sb.blockBytes

variable {t : PtrBlocks} {p : Bytes} {sb : Superblock} {n : ℕ}

theorem covers_zero (k : ℕ) : t.covers n k 0 = true := by
  cases k <;> simp [covers]

theorem covers_succ_iff {k : ℕ} {a : UInt64} (ha : a ≠ 0) : t.covers n (k + 1) a = true ↔
    ∃ slots, t.lookup a = some slots ∧ slots.length = n ∧ ∀ x ∈ slots, t.covers n k x = true := by
  rw [covers, beq_false_of_ne ha, Bool.false_or]
  cases t.lookup a with
  | none => simp
  | some slots => simp

theorem slot_of_lookup {a : UInt64} (ha : a ≠ 0) {slots : List UInt64} (h : t.lookup a = some slots)
    (i : ℕ) : t.slot a i = slots.getD i 0 := by
  rw [slot, if_neg ha, h, Option.getD_some]

theorem covers_slot {k : ℕ} {a : UInt64} (h : t.covers n (k + 1) a = true) (i : ℕ) :
    t.covers n k (t.slot a i) = true := by
  by_cases ha : a = 0
  · rw [slot, if_pos ha]
    exact covers_zero k
  obtain ⟨slots, hlook, -, hall⟩ := (covers_succ_iff ha).mp h
  rw [slot_of_lookup ha hlook]
  rcases Nat.lt_or_ge i slots.length with hi | hi
  · rw [List.getD_eq_getElem _ _ hi]
    exact hall _ (List.getElem_mem hi)
  · rw [List.getD_eq_default _ _ hi]
    exact covers_zero k

theorem ptrBytes_length (sb : Superblock) (x : UInt64) :
    (ptrBytes sb x).length = sb.version.ptrSize :=
  congrArg Prod.snd (UfsVersion.ptrRun_span sb.version sb.endian 0 x)

theorem flatMap_ptrBytes_length (sb : Superblock) (l : List UInt64) :
    (l.flatMap (ptrBytes sb)).length = l.length * sb.version.ptrSize := by
  simp [List.length_flatMap, ptrBytes_length]

theorem ptrRun_eq (sb : Superblock) (off : ℕ) (x : UInt64) :
    sb.version.ptrRun sb.endian off x = (off, ptrBytes sb x) := by
  unfold ptrBytes
  cases sb.version <;> rfl

theorem Stored.slotPtr_eq (h : t.Stored p sb) {k : ℕ} {a : UInt64}
    (hcov : t.covers (nindirOf sb) (k + 1) a = true) {i : ℕ} (hi : i < nindirOf sb) :
    slotPtr p sb a i = t.slot a i := by
  by_cases ha : a = 0
  · unfold slotPtr slot
    simp only [if_pos ha]
  obtain ⟨slots, hlook, hlen, -⟩ := (covers_succ_iff ha).mp hcov
  have hmem : (a, slots) ∈ t := by
    obtain ⟨l, r, rfl, -⟩ := List.lookup_eq_some_iff.mp hlook
    simp
  have hstore : Stores p (a.toNat * sb.fragBytes, slots.flatMap (ptrBytes sb)) :=
    h.runs _ (List.mem_map.mpr ⟨(a, slots), hmem, rfl⟩)
  have hinside := hstore.inside
  rw [flatMap_ptrBytes_length, hlen] at hinside
  -- slot `i` ends where the next one starts, at most at the end of the block
  have hend : i * sb.version.ptrSize + sb.version.ptrSize ≤ nindirOf sb * sb.version.ptrSize := by
    rw [← Nat.succ_mul]
    exact Nat.mul_le_mul_right _ hi
  have hroom := h.room
  have hpiece := (Bytes.hasRun_flatMap_iff (ptrBytes_length sb)).mp hstore.hasRun i (hlen ▸ hi)
  rw [← ptrRun_eq] at hpiece
  have hholds : sb.version.HoldsPtr slots[i] := h.holds _ hmem _ (List.getElem_mem _)
  have hread := (hasRun_ptrRun (by omega) hholds).mp hpiece
  unfold slotPtr
  rw [slot_of_lookup ha hlook, List.getD_eq_getElem _ _ (hlen ▸ hi)]
  dsimp only
  rw [if_neg ha, if_pos ⟨by omega, by omega⟩, hread]

theorem Stored.leaves_eq (h : t.Stored p sb) {k : ℕ} {a : UInt64}
    (hcov : t.covers (nindirOf sb) k a = true) :
    IndexTree.leaves (slotPtr p sb) (nindirOf sb) k a =
      IndexTree.leaves t.slot (nindirOf sb) k a := by
  induction k generalizing a with
  | zero => rfl
  | succ k ih =>
    rw [IndexTree.leaves, IndexTree.leaves]
    refine List.flatMap_congr fun i hi => ?_
    rw [h.slotPtr_eq hcov (List.mem_range.mp hi)]
    exact ih (covers_slot hcov i)

end PtrBlocks

/-- The `b`-th piece of `size` bytes of a content. -/
def chunk (content : List UInt8) (size b : ℕ) : List UInt8 := (content.drop (b * size)).take size

/-- The pieces of a content at the addresses of their blocks; a hole takes no room. -/
def dataRuns (t : PtrBlocks) (sb : Superblock) (inode : Inode) (content : List UInt8) : List Run :=
  (List.range (divCeil content.length sb.blockBytes)).filterMap fun b =>
    let a := t.address inode (nindirOf sb) b
    if a = 0 then none else some (a.toNat * sb.fragBytes, chunk content sb.blockBytes b)

/-- `content` is that of `inode` by the table: its size is `di_size`, the pointer blocks of the three
trees are in the table, and the holes are zero. -/
structure LaidOut (t : PtrBlocks) (sb : Superblock) (inode : Inode) (content : List UInt8) :
    Prop where
  size_eq : inode.size.toNat = content.length
  single : t.covers (nindirOf sb) 1 inode.singleRoot = true
  double : t.covers (nindirOf sb) 2 inode.doubleRoot = true
  triple : t.covers (nindirOf sb) 3 inode.tripleRoot = true
  hole : ∀ b < divCeil content.length sb.blockBytes, t.address inode (nindirOf sb) b = 0 →
    ∀ x ∈ chunk content sb.blockBytes b, x = 0

variable {t : PtrBlocks} {p : Bytes} {sb : Superblock} {inode : Inode} {content : List UInt8}

theorem chunk_length (content : List UInt8) (size b : ℕ) :
    (chunk content size b).length = min size (content.length - b * size) := by
  rw [chunk, List.length_take, List.length_drop]

theorem chunk_getElem {size b i : ℕ} (hi : i < (chunk content size b).length)
    (hin : b * size + i < content.length) :
    (chunk content size b)[i] = content[b * size + i] := by
  simp [chunk]

theorem stores_chunk (hdata : ∀ r ∈ dataRuns t sb inode content, Stores p r) {b : ℕ}
    (hb : b < divCeil content.length sb.blockBytes)
    (ha : t.address inode (nindirOf sb) b ≠ 0) :
    Stores p ((t.address inode (nindirOf sb) b).toNat * sb.fragBytes,
      chunk content sb.blockBytes b) := by
  refine hdata _ (List.mem_filterMap.mpr ⟨b, List.mem_range.mpr hb, ?_⟩)
  exact if_neg ha

namespace LaidOut

variable (h : LaidOut t sb inode content)
include h

theorem address_eq (ht : t.Stored p sb) (b : ℕ) :
    BlockMap.address p sb inode (nindirOf sb) b = t.address inode (nindirOf sb) b := by
  unfold BlockMap.address PtrBlocks.address BlockMap.addresses PtrBlocks.addresses
  rw [ht.leaves_eq h.single, ht.leaves_eq h.double, ht.leaves_eq h.triple]

theorem fileByte_eq (hsb : sb.WellFormed) (ht : t.Stored p sb)
    (hdata : ∀ r ∈ dataRuns t sb inode content, Stores p r) {i : ℕ} (hi : i < content.length) :
    BlockMap.fileByte p sb inode (nindirOf sb) i = content[i] := by
  have hpos := hsb.blockBytes_pos
  have hdm := Nat.div_add_mod i sb.blockBytes
  rw [Nat.mul_comm] at hdm
  have hmod := Nat.mod_lt i hpos
  generalize hb : i / sb.blockBytes = b at hdm
  generalize i % sb.blockBytes = j at hdm hmod
  subst hdm
  have hblock : b < divCeil content.length sb.blockBytes := by
    rw [BlockMap.lt_divCeil_iff hpos]
    omega
  have hj : j < (chunk content sb.blockBytes b).length := by
    rw [chunk_length]
    omega
  have haddr := h.address_eq ht b
  rw [← chunk_getElem hj hi]
  by_cases ha : t.address inode (nindirOf sb) b = 0
  · rw [BlockMap.fileByte_eq_zero_of_hole hb (haddr.trans ha)]
    exact (h.hole b hblock ha _ (List.getElem_mem hj)).symm
  · have hoff : (b * sb.blockBytes + j) % sb.blockBytes = j := by
      rw [Nat.mul_comm, Nat.mul_add_mod, Nat.mod_eq_of_lt hmod]
    rw [BlockMap.fileByte_of_address hb (by rwa [haddr]), haddr, hoff]
    exact (stores_chunk hdata hblock ha).hasRun j hj

/-- A file that is laid out and fits the partition is read back. -/
theorem readInodeFile_eq (hsb : sb.WellFormed) (ht : t.Stored p sb)
    (hdata : ∀ r ∈ dataRuns t sb inode content, Stores p r) (hlen : content.length ≤ p.len) :
    (readInodeFile p sb inode).map Bytes.toList = .ok content := by
  have hsize := h.size_eq
  have hfits : inode.size.toNat ≤ p.len := by omega
  obtain ⟨out, hout, hfill⟩ := BlockMap.readInodeFile_filled hsb hfits
  have houtlen := hfill.len_eq
  rw [hout, Except.map]
  congr 1
  apply List.ext_getElem
  · rw [Bytes.toList_length]
    omega
  · intro i h1 h2
    rw [Bytes.toList_getElem, hfill.byte_eq i (by omega)]
    exact h.fileByte_eq hsb ht hdata h2

end LaidOut

/-- The format of file content: pointer blocks and pieces of the content, written anywhere over a
partition in runs that lie apart from each other and from whatever else is written, are read back as
the content, holes included. -/
theorem readInodeFile_writeAll (hsb : sb.WellFormed) (h : LaidOut t sb inode content)
    (hholds : ∀ b ∈ t, ∀ x ∈ b.2, sb.version.HoldsPtr x)
    (hroom : nindirOf sb * sb.version.ptrSize ≤ sb.blockBytes) {base : Bytes}
    (hlen : content.length ≤ base.len) {runs : List Run} (hapart : runs.Pairwise Run.Apart)
    (hinside : ∀ r ∈ runs, r.1 + r.2.length ≤ base.len) (hptrs : t.runs sb ⊆ runs)
    (hdata : dataRuns t sb inode content ⊆ runs) :
    (readInodeFile (base.writeAll runs) sb inode).map Bytes.toList = .ok content := by
  have hstores := Bytes.writeAll_stores hapart hinside
  have ht : t.Stored (base.writeAll runs) sb :=
    ⟨fun r hr => hstores r (hptrs hr), hholds, hroom⟩
  refine h.readInodeFile_eq hsb ht (fun r hr => hstores r (hdata hr)) ?_
  rwa [Bytes.writeAll_len]

namespace Crafted

def narrowSb : Superblock := { tinySb with bsize := 8, fsize := 8, nindir := 2 }

/-- A file of 19 blocks: the third direct block, the second one of the single-indirect block and the
one of the triple-indirect tree are there, the others are holes. -/
def deepInode : Inode := { Crafted.inode REG_MODE .regular 150 [0, 0, 40] 50 with
  indirect := Vector.ofFn fun i => [50, 0, 51].getD i 0 }

def deepTable : PtrBlocks := [(50, [0, 41]), (51, [52, 0]), (52, [53, 0]), (53, [42, 0])]

def deepContent : List UInt8 :=
  List.replicate 16 0 ++ [1, 2, 3, 4, 5, 6, 7, 8] ++ List.replicate 80 0 ++
    [9, 10, 11, 12, 13, 14, 15, 16] ++ List.replicate 32 0 ++ [17, 18, 19, 20, 21, 22]

theorem deepContent_laidOut : LaidOut deepTable narrowSb deepInode deepContent where
  size_eq := by decide +kernel
  single := by decide +kernel
  double := by decide +kernel
  triple := by decide +kernel
  hole := by decide +kernel

theorem deepTable_holds : ∀ b ∈ deepTable, ∀ x ∈ b.2, narrowSb.version.HoldsPtr x := by
  have hall : (deepTable.all fun b => b.2.all fun x => decide (x.toNat < 2 ^ 32)) = true := by
    decide +kernel
  intro b hb x hx _
  exact of_decide_eq_true (List.all_eq_true.mp (List.all_eq_true.mp hall b hb) x hx)

def used : Bytes := Bytes.tabulate 600 (by decide) fun _ => 0xa5

end Crafted

theorem readInodeFile_writeAll_deep :
    (readInodeFile (Crafted.used.writeAll (Crafted.deepTable.runs Crafted.narrowSb ++
      dataRuns Crafted.deepTable Crafted.narrowSb Crafted.deepInode Crafted.deepContent))
        Crafted.narrowSb Crafted.deepInode).map Bytes.toList = .ok Crafted.deepContent := by
  refine readInodeFile_writeAll (Superblock.validateGeometry_eq_ok_iff.mp (by decide +kernel))
    Crafted.deepContent_laidOut Crafted.deepTable_holds (by decide +kernel) (by decide +kernel) ?_
    (by decide +kernel) (List.subset_append_left _ _) (List.subset_append_right _ _)
  rw [Bytes.pairwise_apart_iff]
  decide +kernel

end UfsForensic
