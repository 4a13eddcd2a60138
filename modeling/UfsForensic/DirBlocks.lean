import UfsForensic.Crafted
import UfsForensic.DirWalk

/-!
# Directory blocks

The walk takes a file-system block as its unit: a record too short for its head ends the walk of all
of it, and an over-long one moves the cursor past the next 512-byte boundary. Up to there the
512-byte blocks are walked as if each stood alone.
-/

namespace UfsForensic

variable {block : Bytes} {endian : Endian}

/-- The `i`-th 512-byte block of a directory data block. -/
def dirblk (block : Bytes) (i : ℕ) : Bytes := block.slice (i * DIRBLKSIZ) DIRBLKSIZ

/-- The records of a block fill it: the walk takes the cursor exactly to its end. -/
def RecordsFill (block : Bytes) (endian : Endian) : Prop :=
  ∃ pre, Walked block endian block.len pre

/-- The walk of a block comes to a record too short for its head. -/
def StopsShort (block : Bytes) (endian : Endian) : Prop :=
  ∃ off pre, Walked block endian off pre ∧ off + DIRECT_HEAD ≤ block.len ∧
    reclenAt block endian off < DIRECT_HEAD

section Slice

variable {base n off : ℕ}

theorem reclenAt_slice (hhead : off + DIRECT_HEAD ≤ n) :
    reclenAt (block.slice base n) endian off = reclenAt block endian (base + off) := by
  unfold DIRECT_HEAD at hhead
  unfold reclenAt OFF_RECLEN
  rw [Nat.add_assoc]
  exact congrArg UInt16.toNat
    (Endian.u16_congr (fun _ hi => Bytes.window_slice (by omega) hi) endian)

theorem namlenAt_slice (hhead : off + DIRECT_HEAD ≤ n) :
    namlenAt (block.slice base n) off = namlenAt block (base + off) := by
  unfold DIRECT_HEAD at hhead
  unfold namlenAt OFF_NAMLEN
  rw [Nat.add_assoc]
  exact congrArg UInt8.toNat (Bytes.slice_byte_of_lt (by omega))

theorem nameEndAt_slice (hhead : off + DIRECT_HEAD ≤ n) :
    nameEndAt block endian (base + off) = base + nameEndAt (block.slice base n) endian off := by
  unfold nameEndAt
  rw [reclenAt_slice hhead, namlenAt_slice hhead]
  omega

/-- A record of a slice is the record at the shifted offset, when its name ends within the slice or
the slice reaches to the end of the block. -/
theorem recordAt_slice (hhead : off + DIRECT_HEAD ≤ (block.slice base n).len)
    (hname : nameEndAt (block.slice base n) endian off ≤ (block.slice base n).len ∨
      base + (block.slice base n).len = block.len) :
    recordAt (block.slice base n) endian off (reclenAt (block.slice base n) endian off) =
      recordAt block endian (base + off) (reclenAt block endian (base + off)) := by
  have hlen : (block.slice base n).len = min n (block.len - base) := rfl
  have hheadn : off + DIRECT_HEAD ≤ n := by omega
  have hhead' : base + off + DIRECT_HEAD ≤ block.len := by
    unfold DIRECT_HEAD at *
    omega
  have hino : endian.u32 (block.slice base n) (off + OFF_INO) =
      endian.u32 block (base + off + OFF_INO) := by
    unfold DIRECT_HEAD at hheadn
    unfold OFF_INO
    exact Endian.u32_congr (fun _ hi => Bytes.window_slice (by omega) hi) endian
  have htype : u8At (block.slice base n) (off + OFF_TYPE) =
      u8At block (base + off + OFF_TYPE) := by
    unfold DIRECT_HEAD at hheadn
    unfold OFF_TYPE u8At
    rw [Nat.add_assoc]
    exact Bytes.slice_byte_of_lt (by omega)
  have hnames : (recordAt (block.slice base n) endian off
        (reclenAt (block.slice base n) endian off)).name =
      (recordAt block endian (base + off) (reclenAt block endian (base + off))).name := by
    have hstart : off + OFF_NAME ≤ n := hheadn
    rw [recordAt_name hhead, recordAt_name hhead', nameEndAt_slice hheadn,
      Bytes.slice_slice _ _ _ _ _ (by omega), Nat.add_assoc base off]
    congr 2
    omega
  exact recordAt_ext hino htype hnames

theorem Walked.append_slice {pre pre' : List DirEntry} (hbase : Walked block endian base pre)
    (h : Walked (block.slice base n) endian off pre') (hoff : off ≤ (block.slice base n).len) :
    Walked block endian (base + off) (pre ++ pre') := by
  induction h with
  | start => simpa using hbase
  | @next off pre' _ hhead hfit ih =>
    have hlen : (block.slice base n).len = min n (block.len - base) := rfl
    have hreclen : reclenAt (block.slice base n) endian off = reclenAt block endian (base + off) :=
      reclenAt_slice (by omega)
    have hname : nameEndAt (block.slice base n) endian off ≤ (block.slice base n).len := by
      unfold DIRECT_HEAD at hfit
      unfold nameEndAt OFF_NAME
      omega
    have hnext := ih (by omega)
    rw [recordAt_slice hhead (Or.inl hname), ← List.append_assoc, ← Nat.add_assoc, hreclen]
    refine .next hnext ?_ (hreclen ▸ hfit)
    unfold DIRECT_HEAD at *
    omega

theorem walkFrom_rest (block : Bytes) (endian : Endian) (base off : ℕ) :
    walkFrom (block.slice base (block.len - base)) endian off =
      walkFrom block endian (base + off) := by
  have hlen : (block.slice base (block.len - base)).len = block.len - base := min_self _
  have hreclen (off : ℕ) (hhead : off + DIRECT_HEAD ≤ block.len - base) :
      reclenAt (block.slice base (block.len - base)) endian off =
        reclenAt block endian (base + off) := reclenAt_slice hhead
  induction off using walk_induction (block.slice base (block.len - base)) endian with
  | past off hpast => rw [walkFrom_of_past hpast, walkFrom_of_past (by omega)]
  | short off hhead hshort =>
    rw [walkFrom_of_short hshort, walkFrom_of_short (hreclen off (hlen ▸ hhead) ▸ hshort)]
  | record off hhead hfit ih =>
    have hreclen := hreclen off (hlen ▸ hhead)
    have hhead' : base + off + DIRECT_HEAD ≤ block.len := by
      unfold DIRECT_HEAD at *
      omega
    rw [walkFrom_of_record hhead' (hreclen ▸ hfit), walkFrom_of_record hhead hfit,
      recordAt_slice hhead (Or.inr (by omega)), hreclen, Nat.add_assoc base off, ← hreclen, ih]

end Slice

theorem RecordsFill.walked {piece : Bytes} (h : RecordsFill piece endian) :
    Walked piece endian piece.len (walkFrom piece endian 0) := by
  obtain ⟨pre, hpre⟩ := h
  have hend : walkFrom piece endian piece.len = [] :=
    walkFrom_of_past (by unfold DIRECT_HEAD; omega)
  rwa [hpre.walkFrom_eq, hend, List.append_nil]

/-- Blocks that their records fill are walked one after the other. -/
theorem walked_dirblks {i : ℕ} (hlen : i * DIRBLKSIZ ≤ block.len)
    (hfill : ∀ j < i, RecordsFill (dirblk block j) endian) :
    Walked block endian (i * DIRBLKSIZ)
      ((List.range i).flatMap fun j => walkFrom (dirblk block j) endian 0) := by
  induction i with
  | zero => simpa using Walked.start
  | succ i ih =>
    rw [Nat.succ_mul] at hlen ⊢
    have hpiece : (dirblk block i).len = DIRBLKSIZ := by
      change min DIRBLKSIZ (block.len - i * DIRBLKSIZ) = DIRBLKSIZ
      omega
    have hwalked := (hfill i (Nat.lt_succ_self i)).walked
    rw [hpiece] at hwalked
    rw [List.range_succ, List.flatMap_append, List.flatMap_singleton]
    exact (ih (by omega) fun j hj => hfill j (by omega)).append_slice hwalked hpiece.ge

/-- In a block of 512-byte blocks of which the first `i` are filled by their records, these are
walked as if each stood alone, and the rest as a block of its own. Where the walk of the next one
comes to a record too short for its head, nothing after it is listed. -/
theorem walkBlock_dirblks (endian : Endian) {k i : ℕ} (hlen : block.len = k * DIRBLKSIZ)
    (hi : i ≤ k) (hfill : ∀ j < i, RecordsFill (dirblk block j) endian) :
    walkBlock block endian [] =
        ((List.range i).flatMap fun j => walkBlock (dirblk block j) endian []) ++
          walkBlock (block.slice (i * DIRBLKSIZ) ((k - i) * DIRBLKSIZ)) endian [] ∧
      (i < k → StopsShort (dirblk block i) endian →
        walkBlock block endian [] =
          (List.range (i + 1)).flatMap fun j => walkBlock (dirblk block j) endian []) := by
  have hle : i * DIRBLKSIZ ≤ block.len := by
    rw [hlen]
    exact Nat.mul_le_mul_right _ hi
  have hwalked := walked_dirblks hle hfill
  simp only [walkBlock, List.nil_append]
  constructor
  · rw [hwalked.walkFrom_eq, Nat.sub_mul, ← hlen, walkFrom_rest, Nat.add_zero]
  · rintro - ⟨off, pre, hpre, hhead, hshort⟩
    have halone : walkFrom (dirblk block i) endian 0 = pre := by
      rw [hpre.walkFrom_eq, walkFrom_of_short hshort, List.append_nil]
    have hreclen : reclenAt (dirblk block i) endian off =
        reclenAt block endian (i * DIRBLKSIZ + off) :=
      reclenAt_slice (hhead.trans (min_le_left _ _))
    have hstop := hwalked.append_slice hpre (Nat.le_of_add_right_le hhead)
    rw [hstop.walkFrom_eq, walkFrom_of_short (hreclen ▸ hshort), List.append_nil, List.range_succ,
      List.flatMap_append, List.flatMap_singleton, halone]

namespace Crafted

/-- Two 512-byte blocks: a record `a` that fills the first, and a record `b` in the second. -/
def twoDirblks : Bytes := Bytes.ofPatches 1024 (by decide)
  [(0, tiny.direct 3 512 8 [97]), (512, tiny.direct 4 512 8 [98])]

theorem recordsFill_twoDirblks : ∀ j < 1, RecordsFill (dirblk twoDirblks j) .little := by
  intro j hj
  obtain rfl := Nat.lt_one_iff.mp hj
  have hnext : Walked (dirblk twoDirblks 0) .little
      (0 + reclenAt (dirblk twoDirblks 0) .little 0) _ :=
    Walked.start.next (by decide +kernel) (by decide +kernel)
  have hend : 0 + reclenAt (dirblk twoDirblks 0) .little 0 = (dirblk twoDirblks 0).len := by
    decide +kernel
  rw [hend] at hnext
  exact ⟨_, hnext⟩

/-- The same with a zero `d_reclen` in the first block. -/
def zeroReclen : Bytes := Bytes.ofPatches 1024 (by decide)
  [(0, tiny.direct 3 0 8 [97]), (512, tiny.direct 4 512 8 [98])]

/-- The same with a `d_reclen` in the first block that reaches to the end of the second. -/
def longReclen : Bytes := Bytes.ofPatches 1024 (by decide)
  [(512, tiny.direct 4 512 8 [98]), (0, tiny.direct 3 1024 8 [97])]

end Crafted

theorem walkBlock_dirblks_twoDirblks :
    walkBlock Crafted.twoDirblks .little [] =
        ((List.range 1).flatMap fun j => walkBlock (dirblk Crafted.twoDirblks j) .little []) ++
          walkBlock (Crafted.twoDirblks.slice (1 * DIRBLKSIZ) ((2 - 1) * DIRBLKSIZ)) .little [] ∧
      (1 < 2 → StopsShort (dirblk Crafted.twoDirblks 1) .little →
        walkBlock Crafted.twoDirblks .little [] =
          (List.range (1 + 1)).flatMap fun j =>
            walkBlock (dirblk Crafted.twoDirblks j) .little []) :=
  walkBlock_dirblks .little rfl (by norm_num) Crafted.recordsFill_twoDirblks

/-- A zero `d_reclen` in the first 512-byte block hides the record in the second one, and so does an
over-long one. -/
theorem damaged_dirblk_hides_next :
    walkBlock Crafted.zeroReclen .little [] ≠
        ((List.range 2).flatMap fun j => walkBlock (dirblk Crafted.zeroReclen j) .little []) ∧
      walkBlock Crafted.longReclen .little [] ≠
        ((List.range 2).flatMap fun j => walkBlock (dirblk Crafted.longReclen j) .little []) := by
  decide +kernel

end UfsForensic
