import UfsForensic.Lib.Fields
import UfsForensic.Deletion
import UfsForensic.DeletedNames

/-!
# Runs of edits

A volume that stays in use: files are deleted one after the other and bytes are written in between.
As long as no edit meets what a file is read through, its content reads as before, and recovery
brings the file back exactly when it is among the deleted ones.
-/

namespace UfsForensic

open Bytes (AgreeOn Run)

/-- One edit of a volume: inode `n`, whose record stands at `o`, is deleted, or a run is written. -/
inductive Edit
  | remove (n o : ℕ)
  | write (r : Run)

/-- The byte of the bitmap that holds the bit of inode `n`. -/
def inodeBitByte (p : Bytes) (sb : Superblock) (n : ℕ) : ℕ :=
  bitmapOff p sb (n / sb.inodesPerGroup) + n % sb.inodesPerGroup / 8

def MarkedUsed (p : Bytes) (sb : Superblock) (n : ℕ) : Bool :=
  bitOf (p.byte (inodeBitByte p sb n)) (n % sb.inodesPerGroup % 8)

namespace Edit

def apply (sb : Superblock) (p : Bytes) : Edit → Bytes
  | remove n o => deleteInode p sb n o
  | write r => p.write r

def run (sb : Superblock) (p : Bytes) (edits : List Edit) : Bytes := edits.foldl (apply sb) p

def Removes (n : ℕ) : Edit → Bool
  | remove m _ => m == n
  | write _ => false

/-- The edit leaves alone the bytes in `S` and, unless it deletes `n`, the bit of `n`. -/
def Spares (p : Bytes) (sb : Superblock) (n : ℕ) (S : Set ℕ) : Edit → Prop
  | remove m o => (∀ i ∈ insert (inodeBitByte p sb n) S, i < o ∨ o + 4 ≤ i) ∧
      inodeBitByte p sb m ∉ S ∧
      -- another group's header may place its bitmap over the one of `n`
      (inodeBitByte p sb m = inodeBitByte p sb n → m / sb.inodesPerGroup = n / sb.inodesPerGroup)
  | write r => ∀ i ∈ insert (inodeBitByte p sb n) S, i < r.1 ∨ r.1 + r.2.length ≤ i

/-- Every edit of the run spares `n` and `S`, on the image it is made on. -/
def SparesRun (sb : Superblock) (n : ℕ) (S : Set ℕ) : Bytes → List Edit → Prop
  | _, [] => True
  | p, e :: edits => e.Spares p sb n S ∧ SparesRun sb n S (e.apply sb p) edits

end Edit

section Step

variable {p : Bytes} {sb : Superblock} {n : ℕ} {S : Set ℕ} {e : Edit}

@[simp] theorem Edit.apply_len (sb : Superblock) (p : Bytes) (e : Edit) :
    (e.apply sb p).len = p.len := by
  cases e <;> rfl

theorem Edit.Spares.agreeOn (h : e.Spares p sb n S) : AgreeOn p (e.apply sb p) S := by
  refine ⟨(Edit.apply_len sb p e).symm, fun i hi => ?_⟩
  cases e with
  | remove m o =>
    obtain ⟨hrecord, hbit, -⟩ := h
    have hne : i ≠ inodeBitByte p sb m := fun h => hbit (h ▸ hi)
    exact (deleteInode_byte (hrecord i (Set.mem_insert_of_mem _ hi)) hne).symm
  | write r =>
    have := h i (Set.mem_insert_of_mem _ hi)
    exact (Bytes.write_byte_of_not_mem (by omega)).symm

variable (hread : BitmapReadable p sb (n / sb.inodesPerGroup))
include hread

theorem bitmapBit_eq_markedUsed : bitmapBit (p.slice (bitmapOff p sb (n / sb.inodesPerGroup))
    sb.bitmapLen) (n % sb.inodesPerGroup) = MarkedUsed p sb n := by
  have hlt := hread.bit_lt n
  have hle := hread.bitmap_le
  have hin : n % sb.inodesPerGroup / 8 <
      (p.slice (bitmapOff p sb (n / sb.inodesPerGroup)) sb.bitmapLen).len := by
    rw [Bytes.slice_len]
    omega
  unfold MarkedUsed inodeBitByte
  rw [bitmapBit_eq_bitOf, Bytes.slice_byte_of_lt hlt, decide_eq_true hin, Bool.true_and]

variable (hS : headerSpan sb (n / sb.inodesPerGroup) ⊆ S)
include hS

theorem Edit.Spares.inodeBitByte_eq (h : e.Spares p sb n S) :
    inodeBitByte (e.apply sb p) sb n = inodeBitByte p sb n := by
  unfold inodeBitByte
  rw [← bitmapOff_congr (h.agreeOn.mono hS) hread.header_le]

/-- After an edit that spares `n` its bit is as before, unless the edit deletes `n`. -/
theorem Edit.Spares.markedUsed_eq (h : e.Spares p sb n S) :
    MarkedUsed (e.apply sb p) sb n = (MarkedUsed p sb n && !e.Removes n) := by
  have hlt := hread.bit_lt n
  have hle := hread.bitmap_le
  rw [MarkedUsed, h.inodeBitByte_eq hread hS]
  cases e with
  | write r =>
    have hmiss := h _ (Set.mem_insert _ _)
    rw [Edit.apply, Bytes.write_byte_of_not_mem (by omega), Edit.Removes, Bool.not_false,
      Bool.and_true]
    rfl
  | remove m o =>
    obtain ⟨hrecord, -, hgroup⟩ := h
    have hmiss := hrecord _ (Set.mem_insert _ _)
    by_cases hbyte : inodeBitByte p sb m = inodeBitByte p sb n
    · -- the two bits lie in one byte, so only their positions in it tell them apart
      have hdiv := hgroup hbyte
      have hcell : m % sb.inodesPerGroup / 8 = n % sb.inodesPerGroup / 8 := by
        unfold inodeBitByte at hbyte
        rw [hdiv] at hbyte
        omega
      have hset : (deleteInode p sb m o).byte (inodeBitByte p sb n) =
          p.byte (inodeBitByte p sb n) &&&
            ~~~UInt8.ofNat (1 <<< (m % sb.inodesPerGroup % 8)) := by
        rw [← hbyte]
        refine (Bytes.set_byte_self _ ?_).trans ?_
        · rw [Bytes.zeroAt_len, hdiv, hcell]
          omega
        · rw [← inodeBitByte, hbyte, Bytes.zeroAt_byte_of_not_mem (by omega)]
      have hsame : (m % sb.inodesPerGroup % 8 != n % sb.inodesPerGroup % 8) = !(m == n) := by
        rw [bne, Bool.eq_iff_iff]
        have hm := Nat.div_add_mod m sb.inodesPerGroup
        have hn := Nat.div_add_mod n sb.inodesPerGroup
        rw [hdiv] at hm
        simp only [Bool.not_eq_true', beq_eq_false_iff_ne, ne_eq]
        omega
      rw [Edit.apply, hset, bitOf_clear _ (Nat.mod_lt _ (by norm_num))
        (Nat.mod_lt _ (by norm_num)), hsame]
      rfl
    · have hne : m ≠ n := fun hmn => hbyte (hmn ▸ rfl)
      rw [Edit.apply, deleteInode_byte (by omega) fun h => hbyte h.symm, Edit.Removes,
        beq_eq_false_iff_ne.mpr hne, Bool.not_false, Bool.and_true]
      rfl

end Step

section Run

variable {p : Bytes} {sb : Superblock} {n : ℕ} {inode : Inode} {content : Bytes}
  {edits : List Edit}

/-- A run that spares `n` keeps the bytes in `S`, and frees `n` exactly when it deletes it. -/
theorem Edit.SparesRun.agreeOn_and_markedUsed {S : Set ℕ}
    (hread : BitmapReadable p sb (n / sb.inodesPerGroup))
    (hS : headerSpan sb (n / sb.inodesPerGroup) ⊆ S) (h : Edit.SparesRun sb n S p edits) :
    AgreeOn p (Edit.run sb p edits) S ∧
      MarkedUsed (Edit.run sb p edits) sb n = (MarkedUsed p sb n && !edits.any (Edit.Removes n)) := by
  induction edits generalizing p with
  | nil => exact ⟨⟨rfl, fun _ _ => rfl⟩, by simp [Edit.run]⟩
  | cons e edits ih =>
    obtain ⟨hstep, hrest⟩ := h
    have hkeep := hstep.agreeOn
    obtain ⟨hagree, hbit⟩ := ih (hread.congr (hkeep.mono hS)) hrest
    refine ⟨⟨hkeep.len_eq.trans hagree.len_eq, fun i hi => ?_⟩, ?_⟩
    · exact (hkeep.byte_eq i hi).trans (hagree.byte_eq i hi)
    · change MarkedUsed (Edit.run sb (e.apply sb p) edits) sb n = _
      rw [hbit, hstep.markedUsed_eq hread hS, List.any_cons, Bool.not_or, Bool.and_assoc]

/-- What recovery finds for an intact inode: its file when the bitmap marks it free, and nothing
otherwise. -/
theorem filter_recoverDeleted_eq (sha256 : Bytes → Vector UInt8 32)
    (hparse : parsePrimarySb p = .ok sb) (h3 : 3 ≤ n)
    (hlt : n < sb.inodesPerGroup * sb.ncg.toNat)
    (hread : BitmapReadable p sb (n / sb.inodesPerGroup)) (hintact : Intact p sb n inode content) :
    (recoverDeleted sha256 p).filter (RecoveredItem.isFileOf n) =
      if MarkedUsed p sb n then []
      else [.deletedFile none n inode.size.toNat content (sha256Hex sha256 content)] := by
  have hsb := wellFormed_of_parsePrimarySb hparse
  have hbitmap := (cgInodeBitmap_eq_some_iff hsb).mpr ⟨hread, rfl⟩
  have hnames : ((collectDeletedDirents p sb).map fun d =>
      RecoveredItem.deletedDirent d.1 d.2).filter (RecoveredItem.isFileOf n) = [] := by
    rw [List.filter_eq_nil_iff]
    intro item hitem
    obtain ⟨d, -, rfl⟩ := List.mem_map.mp hitem
    simp [RecoveredItem.isFileOf]
  rw [recoverDeleted, hparse]
  dsimp only
  rw [recoverFrom, List.filter_append, hnames, List.nil_append]
  split_ifs with hused
  · -- the sweep passes over what is marked used
    rw [List.filter_eq_nil_iff]
    intro item hitem hfile
    obtain ⟨k, -, -, ⟨used, hsome, hfree⟩, inode', content', -, rfl⟩ :=
      (mem_carveDeletedInodes_iff hsb).mp hitem
    obtain rfl : k = n := by simpa [carvedItem, RecoveredItem.isFileOf] using hfile
    obtain rfl := Option.some.inj (hbitmap.symm.trans hsome)
    rw [bitmapBit_eq_markedUsed hread, hused] at hfree
    exact Bool.noConfusion hfree
  · have hfree := (bitmapBit_eq_markedUsed hread).trans (Bool.eq_false_iff.mpr hused)
    have hmem : carvedItem sha256 (collectDeletedDirents p sb) n inode content ∈
        carveDeletedInodes sha256 p sb (collectDeletedDirents p sb) :=
      (mem_carveDeletedInodes_iff hsb).mpr
        ⟨n, h3, hlt, ⟨_, hbitmap, hfree⟩, inode, content, hintact, rfl⟩
    have honly : ∀ item ∈ carveDeletedInodes sha256 p sb (collectDeletedDirents p sb),
        item.isFileOf n = true ↔
          item.ino = (carvedItem sha256 (collectDeletedDirents p sb) n inode content).ino := by
      intro item hitem
      obtain ⟨k, -, -, -, inode', content', -, rfl⟩ := (mem_carveDeletedInodes_iff hsb).mp hitem
      simp [carvedItem, RecoveredItem.isFileOf, RecoveredItem.ino]
    rw [filter_eq_singleton (carveDeletedInodes_pairwise hsb) hmem honly,
      carvedItem_unnamed sha256 h3]

/-- Over a run of edits that spares a file in use, its content stays readable, and at the end
recovery finds exactly one file for its inode, with its size and content, when the run deletes it,
and none when it does not. -/
theorem recoverDeleted_run (h : LiveFile p sb n inode content) (hused : MarkedUsed p sb n = true)
    (hrun : Edit.SparesRun sb n (fileSpan p sb n inode) p edits)
    (sha256 : Bytes → Vector UInt8 32) :
    readFile (Edit.run sb p edits) sb n = .ok content ∧
      (recoverDeleted sha256 (Edit.run sb p edits)).filter (RecoveredItem.isFileOf n) =
        if edits.any (Edit.Removes n) then
          [.deletedFile none n inode.size.toNat content (sha256Hex sha256 content)]
        else [] := by
  obtain ⟨used, hsome⟩ := h.bitmap
  have hread := ((cgInodeBitmap_eq_some_iff (wellFormed_of_parsePrimarySb h.parses)).mp hsome).1
  have hS : headerSpan sb (n / sb.inodesPerGroup) ⊆ fileSpan p sb n inode :=
    fun i hi => Or.inl (Or.inl (Or.inr hi))
  obtain ⟨hagree, hbit⟩ := hrun.agreeOn_and_markedUsed hread hS
  have hparse : parsePrimarySb (Edit.run sb p edits) = .ok sb := by
    rw [← parsePrimarySb_congr (hagree.mono fun i hi => Or.inl (Or.inl (Or.inl hi))), h.parses]
  have hintact := h.intact_of_agreeOn hagree
  refine ⟨hintact.content_eq, ?_⟩
  rw [filter_recoverDeleted_eq sha256 hparse h.three_le h.lt_inodes
    (hread.congr (hagree.mono hS)) hintact, hbit, hused]
  cases edits.any (Edit.Removes n) <;> rfl

end Run

namespace Crafted

/-- Inode 3 of `hello` is deleted between the deletion of a neighbour in its bitmap byte and writes
to other blocks. -/
def helloEdits : List Edit :=
  [.write (30 * 512, [1, 2, 3]), .remove 1 (29 * 512), .remove 3 (24 * 512),
    .write (28 * 512, [0xff])]

theorem hello_bit_or_span {b i : ℕ} (hb : b = 10408)
    (hi : i ∈ insert b (fileSpan hello tinySb 3 helloInode)) :
    i < 12288 ∨ (13312 ≤ i ∧ i < 13317) ∨ 65536 ≤ i := by
  rcases Set.mem_insert_iff.mp hi with rfl | hi
  · omega
  · have := hello_span hi
    omega

theorem bit_not_mem_hello_span {b : ℕ} (hb : b = 10408) :
    b ∉ fileSpan hello tinySb 3 helloInode := by
  intro hi
  have := hello_span hi
  omega

theorem helloEdits_spare :
    Edit.SparesRun tinySb 3 (fileSpan hello tinySb 3 helloInode) hello helloEdits := by
  -- none of the edits moves the bitmap, one byte of which holds the bits of inodes 1 and 3
  have hthree : ∀ k : Fin 4, inodeBitByte (Edit.run tinySb hello (helloEdits.take k)) tinySb 3 =
      10408 := by decide +kernel
  have hone : ∀ k : Fin 4, inodeBitByte (Edit.run tinySb hello (helloEdits.take k)) tinySb 1 =
      10408 := by decide +kernel
  have hgroup : 1 / tinySb.inodesPerGroup = 3 / tinySb.inodesPerGroup := by decide +kernel
  refine ⟨fun i hi => ?_, ⟨fun i hi => ?_, bit_not_mem_hello_span (hone 1), fun _ => hgroup⟩,
    ⟨fun i hi => ?_, bit_not_mem_hello_span (hthree 2), fun _ => rfl⟩, fun i hi => ?_, trivial⟩
  · have := hello_bit_or_span (hthree 0) hi
    dsimp only [List.length_cons, List.length_nil]
    omega
  · have := hello_bit_or_span (hthree 1) hi
    omega
  · have := hello_bit_or_span (hthree 2) hi
    omega
  · have := hello_bit_or_span (hthree 3) hi
    dsimp only [List.length_cons, List.length_nil]
    omega

end Crafted

theorem recoverDeleted_run_hello :
    readFile (Edit.run Crafted.tinySb Crafted.hello Crafted.helloEdits) Crafted.tinySb 3 =
        .ok Crafted.helloContent ∧
      (recoverDeleted Crafted.helloDigest (Edit.run Crafted.tinySb Crafted.hello
        Crafted.helloEdits)).filter (RecoveredItem.isFileOf 3) =
        if Crafted.helloEdits.any (Edit.Removes 3) then
          [.deletedFile none 3 Crafted.helloInode.size.toNat Crafted.helloContent
            (sha256Hex Crafted.helloDigest Crafted.helloContent)]
        else [] :=
  recoverDeleted_run Crafted.hello_live (by decide +kernel) Crafted.helloEdits_spare
    Crafted.helloDigest

end UfsForensic
