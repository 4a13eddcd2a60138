import Mathlib.Data.List.Flatten
import UfsForensic.DirContent
import UfsForensic.DirWalk

/-!
# Truncated partitions

What the reader makes of a partition whose end is cut off, compared with the whole one. An inode is
the same or cannot be read; a pointer that the cut reaches is a hole; the content of a file keeps
its length, and bytes are lost to zeros only. The records of a directory are kept up to the cut, and
only the name the cut runs through is shortened.
-/

namespace UfsForensic

open BlockMap (slotPtr addresses address fileByte readInodeFile_filled readInodeFile_eq_ok_iff)

variable {p q : Bytes} {sb : Superblock}

theorem readInode_of_isPrefix (hsb : sb.WellFormed) (hq : q.IsPrefix p) {ino : ℕ} {inode : Inode}
    (h : readInode q sb ino = .ok inode) : readInode p sb ino = .ok inode := by
  rw [readInode_eq_ok_iff hsb] at h ⊢
  obtain ⟨hipg, hfpg, hiblk, hino, hin, hparse⟩ := h
  refine ⟨hipg, hfpg, hiblk, hino, hin.trans hq.len_le, ?_⟩
  rwa [← hq.slice_eq hin]

/-- A pointer of the cut partition is the one of the whole partition, or a hole. -/
def Cut (a b : UInt64) : Prop := a = b ∨ a = 0

theorem slotPtr_cut (hq : q.IsPrefix p) {a b : UInt64} (hab : Cut a b) (i : ℕ) :
    Cut (slotPtr q sb a i) (slotPtr p sb b i) := by
  by_cases ha : a = 0
  · exact Or.inr (if_pos ha)
  obtain rfl : a = b := hab.resolve_right ha
  unfold slotPtr
  dsimp only
  rw [if_neg ha, if_neg ha]
  by_cases hin : i * sb.version.ptrSize + sb.version.ptrSize ≤ sb.blockBytes ∧
      a.toNat * sb.fragBytes + i * sb.version.ptrSize + sb.version.ptrSize ≤ q.len
  · -- the whole pointer lies before the cut
    rw [if_pos hin, if_pos ⟨hin.1, hin.2.trans hq.len_le⟩]
    left
    generalize a.toNat * sb.fragBytes + i * sb.version.ptrSize = off at hin
    have h32 (hoff : off + 4 ≤ q.len) : sb.endian.u32 q off = sb.endian.u32 p off :=
      Endian.u32_congr (fun _ hi => hq.window_eq hoff hi) _
    have h64 (hoff : off + 8 ≤ q.len) : sb.endian.u64 q off = sb.endian.u64 p off :=
      Endian.u64_congr (fun _ hi => hq.window_eq hoff hi) _
    unfold UfsVersion.readPtr
    cases hv : sb.version with
    | ufs1 =>
      rw [hv] at hin
      exact congrArg UInt32.toUInt64 (h32 hin.2)
    | ufs2 =>
      rw [hv] at hin
      exact h64 hin.2
  · exact Or.inr (if_neg hin)

theorem addresses_cut (hq : q.IsPrefix p) (inode : Inode) (n : ℕ) :
    List.Forall₂ Cut (addresses q sb inode n) (addresses p sb inode n) := by
  have hleaves (k : ℕ) (root : UInt64) : List.Forall₂ Cut
      (IndexTree.leaves (slotPtr q sb) n k root) (IndexTree.leaves (slotPtr p sb) n k root) :=
    IndexTree.leaves_rel (fun _ _ i hab => slotPtr_cut hq hab i) (Or.inl rfl)
  have hdirect : List.Forall₂ Cut inode.direct.toList inode.direct.toList :=
    List.forall₂_same.mpr fun _ _ => Or.inl rfl
  exact List.rel_append hdirect (List.rel_append (hleaves 1 _)
    (List.rel_append (hleaves 2 _) (hleaves 3 _)))

theorem getD_cut {l m : List UInt64} (h : List.Forall₂ Cut l m) (i : ℕ) :
    Cut (l[i]?.getD 0) (m[i]?.getD 0) := by
  induction h generalizing i with
  | nil => exact Or.inl rfl
  | cons hab _ ih =>
    cases i with
    | zero => exact hab
    | succ i => simpa using ih i

/-- A byte of a file in the cut partition is the one in the whole partition, or zero. -/
theorem fileByte_cut (hq : q.IsPrefix p) (inode : Inode) (n i : ℕ) :
    fileByte q sb inode n i = fileByte p sb inode n i ∨ fileByte q sb inode n i = 0 := by
  have haddr : Cut (address q sb inode n (i / sb.blockBytes))
      (address p sb inode n (i / sb.blockBytes)) := getD_cut (addresses_cut hq inode n) _
  by_cases h0 : address q sb inode n (i / sb.blockBytes) = 0
  · exact Or.inr (BlockMap.fileByte_eq_zero_of_hole rfl h0)
  · have heq := haddr.resolve_right h0
    rw [BlockMap.fileByte_of_address rfl h0, BlockMap.fileByte_of_address rfl (heq ▸ h0), ← heq]
    exact hq.byte_eq_or _

/-- A file that is read from a cut partition is read from the whole one with the same length, and
each byte is the same there or was cut to zero. -/
theorem readFile_of_isPrefix {data : Bytes} (hparse : Superblock.parse data = .ok sb)
    (hq : q.IsPrefix p) {ino : ℕ} {cut : Bytes} (h : readFile q sb ino = .ok cut) :
    ∃ content, readFile p sb ino = .ok content ∧ content.len = cut.len ∧
      ∀ i, cut.byte i = content.byte i ∨ cut.byte i = 0 := by
  have hsb := Superblock.wellFormed_of_parse hparse
  obtain ⟨inode, hinode, hread⟩ := readFile_eq_ok_iff.mp h
  obtain ⟨hsize, hlen, hbytes⟩ := (readInodeFile_eq_ok_iff hsb).mp hread
  obtain ⟨content, hcontent, hfill⟩ :=
    readInodeFile_filled hsb (show inode.size.toNat ≤ p.len from hsize.trans hq.len_le)
  refine ⟨content, ?_, ?_, fun i => ?_⟩
  · exact readFile_eq_ok_iff.mpr ⟨inode, readInode_of_isPrefix hsb hq hinode, hcontent⟩
  · rw [hfill.len_eq, hlen]
  · rcases Nat.lt_or_ge i inode.size.toNat with hi | hi
    · rw [hbytes i hi, hfill.byte_eq i hi]
      exact fileByte_cut hq inode _ i
    · exact Or.inr (cut.byte_eq_zero i (hlen.trans_le hi))

namespace Crafted

def twoBlocks : Bytes := volume (tiny.dinode 4 REG_MODE 600 [24, 25] ++
  [(24 * 512, List.replicate 512 7), (25 * 512, List.replicate 88 9)])

def twoBlocksCut : Bytes := twoBlocks.take (25 * 512 + 8)

theorem parse_twoBlocks :
    Superblock.parse (twoBlocks.slice SBLOCK_UFS1 SB_MIN_LEN) = .ok tinySb :=
  parse_volume (by decide)

theorem readFile_twoBlocksCut :
    (readFile twoBlocksCut tinySb 4).toOption.isSome = true := by decide +kernel

end Crafted

theorem readFile_of_isPrefix_twoBlocks :
    ∃ cut, readFile Crafted.twoBlocksCut Crafted.tinySb 4 = .ok cut ∧
      ∃ content, readFile Crafted.twoBlocks Crafted.tinySb 4 = .ok content ∧
        content.len = cut.len ∧ ∀ i, cut.byte i = content.byte i ∨ cut.byte i = 0 := by
  cases hread : readFile Crafted.twoBlocksCut Crafted.tinySb 4 with
  | error e =>
    have hsome := Crafted.readFile_twoBlocksCut
    rw [hread] at hsome
    exact Bool.noConfusion hsome
  | ok cut =>
    exact ⟨cut, rfl, readFile_of_isPrefix Crafted.parse_twoBlocks (Bytes.take_isPrefix _ _) hread⟩

/-- An entry of a cut directory: that of the whole one, its name perhaps cut short. -/
structure Clipped (cut whole : DirEntry) : Prop where
  ino_eq : cut.ino = whole.ino
  fileType_eq : cut.fileType = whole.fileType
  deleted_eq : cut.deleted = whole.deleted
  name_prefix : cut.name <+: whole.name

section Block

variable {block block' : Bytes} {endian : Endian} {off : ℕ}

theorem reclenAt_of_isPrefix (hb : block'.IsPrefix block) (hhead : off + DIRECT_HEAD ≤ block'.len) :
    reclenAt block' endian off = reclenAt block endian off := by
  unfold DIRECT_HEAD at hhead
  unfold reclenAt OFF_RECLEN
  exact congrArg UInt16.toNat (Endian.u16_congr (fun _ hi => hb.window_eq (by omega) hi) _)

theorem namlenAt_of_isPrefix (hb : block'.IsPrefix block) (hhead : off + DIRECT_HEAD ≤ block'.len) :
    namlenAt block' off = namlenAt block off := by
  unfold DIRECT_HEAD at hhead
  exact congrArg UInt8.toNat (hb.byte_eq _ (by unfold OFF_NAMLEN; omega))

theorem nameEndAt_of_isPrefix (hb : block'.IsPrefix block)
    (hhead : off + DIRECT_HEAD ≤ block'.len) :
    nameEndAt block' endian off = nameEndAt block endian off := by
  unfold nameEndAt
  rw [reclenAt_of_isPrefix hb hhead, namlenAt_of_isPrefix hb hhead]

theorem inoAt_of_isPrefix (hb : block'.IsPrefix block) (hhead : off + DIRECT_HEAD ≤ block'.len) :
    endian.u32 block' (off + OFF_INO) = endian.u32 block (off + OFF_INO) := by
  unfold DIRECT_HEAD at hhead
  unfold OFF_INO
  exact Endian.u32_congr (fun _ hi => hb.window_eq (by omega) hi) _

theorem typeAt_of_isPrefix (hb : block'.IsPrefix block) (hhead : off + DIRECT_HEAD ≤ block'.len) :
    u8At block' (off + OFF_TYPE) = u8At block (off + OFF_TYPE) := by
  unfold DIRECT_HEAD at hhead
  exact hb.byte_eq _ (by unfold OFF_TYPE; omega)

theorem toList_prefix {a n m : ℕ} (hb : block'.IsPrefix block) (hn : n ≤ m) :
    (block'.slice a n).toList <+: (block.slice a m).toList := by
  have hle := hb.len_le
  rw [List.prefix_iff_eq_take]
  apply List.ext_getElem
  · simp only [Bytes.toList_length, Bytes.slice_len, List.length_take]
    omega
  · intro i h1 h2
    rw [Bytes.toList_length, Bytes.slice_len] at h1
    rw [List.getElem_take, Bytes.toList_getElem, Bytes.toList_getElem,
      Bytes.slice_byte_of_lt (by omega), Bytes.slice_byte_of_lt (by omega)]
    exact hb.byte_eq _ (by omega)

/-- A record whose head lies before the cut is the whole one, its name clipped at the cut. -/
theorem recordAt_clipped (hb : block'.IsPrefix block) (hhead : off + DIRECT_HEAD ≤ block'.len) :
    Clipped (recordAt block' endian off (reclenAt block' endian off))
      (recordAt block endian off (reclenAt block endian off)) := by
  have hle := hb.len_le
  have hino : endian.u32 block' (off + OFF_INO) = endian.u32 block (off + OFF_INO) :=
    inoAt_of_isPrefix hb hhead
  constructor
  · exact congrArg UInt32.toNat hino
  · exact congrArg DirEntryType.fromDType (typeAt_of_isPrefix hb hhead)
  · change decide ((endian.u32 block' (off + OFF_INO)).toNat = 0) = _
    rw [hino]
    rfl
  · rw [recordAt_name hhead, recordAt_name (hhead.trans hle), nameEndAt_of_isPrefix hb hhead]
    exact toList_prefix hb (by omega)

theorem recordAt_of_isPrefix (hb : block'.IsPrefix block) (hhead : off + DIRECT_HEAD ≤ block'.len)
    (hname : off + OFF_NAME + (recordAt block endian off (reclenAt block endian off)).name.length ≤
      block'.len) :
    recordAt block' endian off (reclenAt block' endian off) =
      recordAt block endian off (reclenAt block endian off) := by
  have hle := hb.len_le
  have hclip : Clipped (recordAt block' endian off (reclenAt block' endian off))
      (recordAt block endian off (reclenAt block endian off)) := recordAt_clipped hb hhead
  have hlen : (recordAt block endian off (reclenAt block endian off)).name.length ≤
      (recordAt block' endian off (reclenAt block' endian off)).name.length := by
    rw [recordAt_name (hhead.trans hle), Bytes.toList_length, Bytes.slice_len] at hname
    rw [recordAt_name hhead, recordAt_name (hhead.trans hle), nameEndAt_of_isPrefix hb hhead,
      Bytes.toList_length, Bytes.toList_length, Bytes.slice_len, Bytes.slice_len]
    omega
  exact recordAt_ext (inoAt_of_isPrefix hb hhead) (typeAt_of_isPrefix hb hhead)
    (hclip.name_prefix.eq_of_length_le hlen)

/-- The walk of `block` reaches the record `e` at `off`, and its name runs from before the end of
`block'` past it. -/
structure NameRunsPast (block block' : Bytes) (endian : Endian) (off : ℕ) (e : DirEntry) :
    Prop where
  walked : ∃ pre, Walked block endian off pre
  record : e = recordAt block endian off (reclenAt block endian off)
  starts : off + OFF_NAME ≤ block'.len
  ends : block'.len < off + OFF_NAME + e.name.length

/-- The records of a cut block are, in order, the first ones of the whole block; the one whose name
the cut runs through is clipped. -/
theorem walkFrom_of_isPrefix (hb : block'.IsPrefix block) {off : ℕ}
    (hoff : ∃ pre, Walked block endian off pre) :
    List.SublistForall₂
      (fun cut whole => cut = whole ∨
        Clipped cut whole ∧ ∃ o, NameRunsPast block block' endian o whole)
      (walkFrom block' endian off) (walkFrom block endian off) := by
  induction off using walk_induction block' endian with
  | past off hpast =>
    rw [walkFrom_of_past hpast]
    exact .nil
  | short off _ hshort =>
    rw [walkFrom_of_short hshort]
    exact .nil
  | record off hhead hfit ih =>
    have hreclen : reclenAt block' endian off = reclenAt block endian off :=
      reclenAt_of_isPrefix hb hhead
    have hhead' : off + DIRECT_HEAD ≤ block.len := hhead.trans hb.len_le
    have hfit' : DIRECT_HEAD ≤ reclenAt block endian off := hreclen ▸ hfit
    have hnext : ∃ pre, Walked block endian (off + reclenAt block endian off) pre := by
      obtain ⟨pre, hpre⟩ := hoff
      exact ⟨_, hpre.next hhead' hfit'⟩
    rw [walkFrom_of_record hhead hfit, walkFrom_of_record hhead' hfit']
    refine .cons ?_ ?_
    · by_cases hname : off + OFF_NAME +
          (recordAt block endian off (reclenAt block endian off)).name.length ≤ block'.len
      · exact Or.inl (recordAt_of_isPrefix hb hhead hname)
      · exact Or.inr ⟨recordAt_clipped hb hhead, off, hoff, rfl, hhead, Nat.not_le.mp hname⟩
    · rw [← hreclen] at hnext ⊢
      exact ih hnext

end Block

section SublistForall₂

variable {α β γ : Type*} {R : α → β → Prop}

theorem sublistForall₂_append {l₁ l₂ : List α} {m₁ m₂ : List β} (h₁ : List.SublistForall₂ R l₁ m₁)
    (h₂ : List.SublistForall₂ R l₂ m₂) : List.SublistForall₂ R (l₁ ++ l₂) (m₁ ++ m₂) := by
  rw [List.sublistForall₂_iff] at h₁ h₂ ⊢
  obtain ⟨k₁, hk₁, hs₁⟩ := h₁
  obtain ⟨k₂, hk₂, hs₂⟩ := h₂
  exact ⟨k₁ ++ k₂, List.rel_append hk₁ hk₂, hs₁.append hs₂⟩

theorem sublistForall₂_flatMap {l : List γ} {f : γ → List α} {g : γ → List β}
    (h : ∀ c ∈ l, List.SublistForall₂ R (f c) (g c)) :
    List.SublistForall₂ R (l.flatMap f) (l.flatMap g) := by
  induction l with
  | nil => exact .nil
  | cons c l ih =>
    rw [List.flatMap_cons, List.flatMap_cons]
    exact sublistForall₂_append (h c List.mem_cons_self)
      (ih fun d hd => h d (List.mem_cons_of_mem c hd))

theorem sublistForall₂_mono {S : α → β → Prop} {l : List α} {m : List β}
    (h : List.SublistForall₂ R l m) (hRS : ∀ a, ∀ b ∈ m, R a b → S a b) :
    List.SublistForall₂ S l m := by
  induction h with
  | nil => exact .nil
  | cons hab _ ih =>
    exact .cons (hRS _ _ List.mem_cons_self hab)
      (ih fun a b hb => hRS a b (List.mem_cons_of_mem _ hb))
  | cons_right _ ih => exact .cons_right (ih fun a b hb => hRS a b (List.mem_cons_of_mem _ hb))

theorem sublist_of_sublistForall₂_eq {l m : List α} (h : List.SublistForall₂ (· = ·) l m) :
    l.Sublist m := by
  obtain ⟨k, hk, hs⟩ := List.sublistForall₂_iff.mp h
  rw [List.forall₂_eq_eq_eq] at hk
  exact hk ▸ hs

end SublistForall₂

def directBytes (p : Bytes) (sb : Superblock) (inode : Inode) (k : ℕ) : Bytes :=
  p.slice ((inode.direct.toList.getD k 0).toNat * sb.fragBytes)
    (min (inode.size.toNat - k * sb.blockBytes) sb.blockBytes)

/-- The name of the slot `e` of a directory in `p` runs past the end of `q`. -/
def CutName (p q : Bytes) (sb : Superblock) (inode : Inode) (e : DirEntry) : Prop :=
  ∃ k < 12, inode.direct.toList.getD k 0 ≠ 0 ∧ ∃ off,
    NameRunsPast (directBytes p sb inode k) (directBytes q sb inode k) sb.endian off e

/-- A slot in the cut partition against one in the whole: the same, or clipped by the cut. -/
def SlotKept (p q : Bytes) (sb : Superblock) (inode : Inode) (cut whole : DirEntry) : Prop :=
  cut = whole ∨ Clipped cut whole ∧ CutName p q sb inode whole

/-- A directory that is listed from a cut partition is listed from the whole one, with every slot
there in the same order; only a name that the cut runs through is shortened. -/
theorem listDirAll_of_isPrefix {data : Bytes} (hparse : Superblock.parse data = .ok sb)
    (hq : q.IsPrefix p) {dirIno : ℕ} {cut : List DirEntry}
    (h : listDirAll q sb dirIno = .ok cut) :
    ∃ inode entries, readInode p sb dirIno = .ok inode ∧
      listDirAll p sb dirIno = .ok entries ∧
      List.SublistForall₂ (SlotKept p q sb inode) cut entries ∧
      ((∀ e ∈ entries, ¬ CutName p q sb inode e) → cut.Sublist entries) := by
  have hsb := Superblock.wellFormed_of_parse hparse
  obtain ⟨inode, hinode, rfl⟩ := listDirAll_eq_ok_iff.mp h
  have hinode' := readInode_of_isPrefix hsb hq hinode
  have hkept : List.SublistForall₂ (SlotKept p q sb inode) (listDirEntries q sb inode)
      (listDirEntries p sb inode) := by
    rw [listDirEntries_eq hsb, listDirEntries_eq hsb]
    refine sublistForall₂_flatMap fun k hk => ?_
    unfold directBlock
    split_ifs with hskip
    · exact .nil
    · refine sublistForall₂_mono (walkFrom_of_isPrefix (hq.slice_isPrefix _ _) ⟨_, .start⟩) ?_
      rintro e' e - (heq | ⟨hclip, off, hpast⟩)
      · exact Or.inl heq
      · exact Or.inr ⟨hclip, k, List.mem_range.mp hk, fun h0 => hskip (Or.inr h0), off, hpast⟩
  refine ⟨inode, _, hinode', listDirAll_eq_ok_iff.mpr ⟨inode, hinode', rfl⟩, hkept, fun hno => ?_⟩
  exact sublist_of_sublistForall₂_eq (sublistForall₂_mono hkept fun e' e he hslot =>
    hslot.resolve_right fun hc => hno e he hc.2)

namespace Crafted

def longName : Bytes := volume (tiny.dinode 2 DIR_MODE 512 [24] ++
  tiny.dinode 4 REG_MODE 0 [] ++ [(24 * 512, tiny.direct 4 512 8 [97, 98])])

/-- The partition cut after the first letter of the name. -/
def longNameCut : Bytes := longName.take (24 * 512 + 9)

theorem parse_longName :
    Superblock.parse (longName.slice SBLOCK_UFS1 SB_MIN_LEN) = .ok tinySb :=
  parse_volume (by decide)

theorem listDirAll_longName : listDirAll longName tinySb 2 =
    .ok [{ name := [97, 98], ino := 4, fileType := .regular, deleted := false }] := by
  decide +kernel

theorem listDirAll_longNameCut : listDirAll longNameCut tinySb 2 =
    .ok [{ name := [97], ino := 4, fileType := .regular, deleted := false }] := by
  decide +kernel

end Crafted

theorem listDirAll_of_isPrefix_longName :
    ∃ inode entries, readInode Crafted.longName Crafted.tinySb 2 = .ok inode ∧
      listDirAll Crafted.longName Crafted.tinySb 2 = .ok entries ∧
      List.SublistForall₂ (SlotKept Crafted.longName Crafted.longNameCut Crafted.tinySb inode)
        [{ name := [97], ino := 4, fileType := .regular, deleted := false }] entries ∧
      ((∀ e ∈ entries, ¬ CutName Crafted.longName Crafted.longNameCut Crafted.tinySb inode e) →
        [{ name := [97], ino := 4, fileType := .regular, deleted := false }].Sublist entries) :=
  listDirAll_of_isPrefix Crafted.parse_longName (Bytes.take_isPrefix _ _)
    Crafted.listDirAll_longNameCut

/-- A cut within a name leaves a shorter name, by which a path resolves that the whole partition
does not have. -/
theorem truncation_shortens_name :
    Superblock.parse (Crafted.longName.slice SBLOCK_UFS1 SB_MIN_LEN) = .ok Crafted.tinySb ∧
      Crafted.longNameCut.IsPrefix Crafted.longName ∧
      (∃ cut entries, listDirAll Crafted.longNameCut Crafted.tinySb 2 = .ok cut ∧
        listDirAll Crafted.longName Crafted.tinySb 2 = .ok entries ∧ ¬ cut.Sublist entries) ∧
      (readByPath Crafted.longNameCut Crafted.tinySb [SLASH, 97]).map Option.isSome = .ok true ∧
      readByPath Crafted.longName Crafted.tinySb [SLASH, 97] = .ok none := by
  refine ⟨Crafted.parse_longName, Bytes.take_isPrefix _ _, ?_, by decide +kernel,
    by decide +kernel⟩
  refine ⟨_, _, Crafted.listDirAll_longNameCut, Crafted.listDirAll_longName, fun h => ?_⟩
  simpa using h.subset List.mem_cons_self

end UfsForensic
