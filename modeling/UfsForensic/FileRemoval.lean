import UfsForensic.FreedRecords

/-!
# Removing files from a volume

Deletion on both levels. In the volume a record is freed and an inode is no longer marked used; on disk
four bytes are zeroed and a bit is cleared. The edited partition is the changed volume, so what the
audit and the recovery say of it, between the two edits as well as after them, is what the tree and the
allocation map of that volume say.
-/

namespace UfsForensic

open Bytes (Replaced Run)
open Crafted (int)

namespace Volume

/-- The volume with the record freed. -/
def unlink (V : Volume) (s : Slot V.layout) : Volume := { V with layout := s.freed }

/-- The volume with inode `n` not marked used. -/
def release (V : Volume) (n : ℕ) : Volume := { V with used := fun k => V.used k && k != n }

variable {V : Volume}

theorem unlink_valid (h : V.Valid) (s : Slot V.layout) : (V.unlink s).Valid where
  layout := s.freed_valid h.layout
  inRange := h.inRange
  cblkno_nonneg := h.cblkno_nonneg
  root := (s.isDir_freed_iff _).mpr h.root
  used n hn h3 hused := (s.node_freed_isSome n).trans (h.used n hn h3 hused)
  types x _ r hr hlive :=
    (h.type_iff (s.mem_records_of_freed hr hlive) hlive).trans (s.isDir_freed_iff _).symm
  budget := by
    have hless := Finset.sum_le_sum (s := (V.layout.items.map Item.ino).toFinset)
      fun d _ => s.subdirs_freed_length_le d
    rw [← s.freed_inos] at hless
    have hbudget := h.budget
    rw [← s.freed_inos] at hbudget
    exact (Nat.add_le_add_left hless 1).trans hbudget

theorem release_valid (h : V.Valid) (n : ℕ) : (V.release n).Valid where
  layout := h.layout
  inRange := h.inRange
  cblkno_nonneg := h.cblkno_nonneg
  root := h.root
  used k hk h3 hused := h.used k hk h3 ((Bool.and_eq_true _ _).mp hused).1
  types := h.types
  budget := h.budget

theorem replaced_runs_unlink (h : V.Valid) (s : Slot V.layout) :
    Replaced s.blockRun s.freedRun V.runs (V.unlink s).runs := by
  have hblank : (V.unlink s).blankRuns = V.blankRuns := by
    unfold blankRuns
    refine congrArg _ (List.filter_congr fun n _ => ?_)
    have hsome := s.node_freed_isSome n
    change (s.freed.tree.node n).isNone = _
    rw [← Option.not_isSome, hsome, Option.not_isSome]
  unfold runs Layout.volumeRuns
  rw [hblank]
  exact ((s.replaced_runs h.layout).append_left _).append_right _

end Volume

section Release

variable (V : Volume) (n : ℕ)

def Volume.bitmapRun (c : ℕ) : Run :=
  (V.layout.sb.headerOff c + V.iusedoff.toNat, V.bitmap c)

theorem Volume.bitmapRun_span (c : ℕ) :
    ((V.release n).bitmapRun c).span = (V.bitmapRun c).span := by
  simp [Volume.bitmapRun, Volume.bitmap, Run.span, Volume.release]

theorem Volume.usedIn_release (hpos : 0 < V.layout.sb.inodesPerGroup) (c i : ℕ) :
    (V.release n).usedIn c i = (V.usedIn c i &&
      !(c == n / V.layout.sb.inodesPerGroup && i == n % V.layout.sb.inodesPerGroup)) := by
  unfold Volume.usedIn
  change (decide (i < V.layout.sb.inodesPerGroup) &&
    (V.used _ && (c * V.layout.sb.inodesPerGroup + i != n))) = _
  by_cases hi : i < V.layout.sb.inodesPerGroup
  · have hdiv : (c * V.layout.sb.inodesPerGroup + i) / V.layout.sb.inodesPerGroup = c := by
      rw [Nat.mul_comm, Nat.mul_add_div hpos, Nat.div_eq_of_lt hi, Nat.add_zero]
    have hmod : (c * V.layout.sb.inodesPerGroup + i) % V.layout.sb.inodesPerGroup = i := by
      rw [Nat.mul_comm, Nat.mul_add_mod, Nat.mod_eq_of_lt hi]
    have hiff : (c * V.layout.sb.inodesPerGroup + i == n) =
        (c == n / V.layout.sb.inodesPerGroup && i == n % V.layout.sb.inodesPerGroup) := by
      rw [Bool.eq_iff_iff, Bool.and_eq_true, beq_iff_eq, beq_iff_eq, beq_iff_eq]
      constructor
      · rintro rfl
        exact ⟨hdiv.symm, hmod.symm⟩
      · rintro ⟨rfl, rfl⟩
        exact Nat.div_add_mod' n _
    rw [bne, hiff, Bool.and_assoc]
    rfl
  · rw [decide_eq_false hi, Bool.false_and, Bool.false_and, Bool.false_and]

variable {V n} (hpos : 0 < V.layout.sb.inodesPerGroup)
include hpos

theorem Volume.bitmap_release_of_ne {c : ℕ} (hc : c ≠ n / V.layout.sb.inodesPerGroup) :
    (V.release n).bitmap c = V.bitmap c := by
  unfold Volume.bitmap
  refine List.map_congr_left fun b _ => packBits_congr fun k _ => ?_
  rw [V.usedIn_release n hpos, beq_false_of_ne hc, Bool.false_and, Bool.not_false, Bool.and_true]

theorem Volume.bitmap_release_getElem {b : ℕ}
    (hb : b < ((V.release n).bitmap (n / V.layout.sb.inodesPerGroup)).length)
    (hb' : b < (V.bitmap (n / V.layout.sb.inodesPerGroup)).length) :
    ((V.release n).bitmap (n / V.layout.sb.inodesPerGroup)).get ⟨b, hb⟩ =
      if b = n % V.layout.sb.inodesPerGroup / 8 then
        (V.bitmap (n / V.layout.sb.inodesPerGroup)).get ⟨b, hb'⟩ &&&
          ~~~UInt8.ofNat (1 <<< (n % V.layout.sb.inodesPerGroup % 8))
      else (V.bitmap (n / V.layout.sb.inodesPerGroup)).get ⟨b, hb'⟩ := by
  simp only [Volume.bitmap, List.get_eq_getElem, List.getElem_map, List.getElem_range]
  have hbit (k : ℕ) : (V.release n).usedIn (n / V.layout.sb.inodesPerGroup) (8 * b + k) =
      (V.usedIn (n / V.layout.sb.inodesPerGroup) (8 * b + k) &&
        !(8 * b + k == n % V.layout.sb.inodesPerGroup)) := by
    rw [V.usedIn_release n hpos, beq_self_eq_true, Bool.true_and]
  have hdiv := Nat.div_add_mod (n % V.layout.sb.inodesPerGroup) 8
  have hmod := Nat.mod_lt (n % V.layout.sb.inodesPerGroup) (show 0 < 8 by norm_num)
  split_ifs with heq
  · rw [packBits_clear _ hmod]
    refine packBits_congr fun k hk => ?_
    have hsame : (8 * b + k == n % V.layout.sb.inodesPerGroup) =
        (n % V.layout.sb.inodesPerGroup % 8 == k) := by
      rw [Bool.eq_iff_iff, beq_iff_eq, beq_iff_eq]
      omega
    rw [hbit, hsame]
    rfl
  · refine packBits_congr fun k hk => ?_
    have hne : 8 * b + k ≠ n % V.layout.sb.inodesPerGroup := by omega
    rw [hbit, beq_false_of_ne hne, Bool.not_false, Bool.and_true]

theorem Volume.replaced_runs_release (hn : n < V.layout.sb.inodesPerGroup * V.layout.sb.ncg.toNat) :
    Replaced (V.bitmapRun (n / V.layout.sb.inodesPerGroup))
      ((V.release n).bitmapRun (n / V.layout.sb.inodesPerGroup)) V.runs (V.release n).runs := by
  have hgroup : Replaced (V.bitmapRun (n / V.layout.sb.inodesPerGroup))
      ((V.release n).bitmapRun (n / V.layout.sb.inodesPerGroup))
      (V.headerRuns (n / V.layout.sb.inodesPerGroup))
      ((V.release n).headerRuns (n / V.layout.sb.inodesPerGroup)) :=
    ⟨(V.headerRuns (n / V.layout.sb.inodesPerGroup)).take 2, [], rfl, rfl⟩
  have hgroups : Replaced (V.bitmapRun (n / V.layout.sb.inodesPerGroup))
      ((V.release n).bitmapRun (n / V.layout.sb.inodesPerGroup))
      ((List.range V.layout.sb.ncg.toNat).flatMap V.headerRuns)
      ((List.range V.layout.sb.ncg.toNat).flatMap (V.release n).headerRuns) := by
    refine hgroup.flatMap List.nodup_range (List.mem_range.mpr (Nat.div_lt_of_lt_mul hn))
      fun c _ hc => ?_
    unfold Volume.headerRuns Volume.mapRuns
    rw [Volume.bitmap_release_of_ne hpos hc]
    rfl
  exact (hgroups.append_right _).append_left _

end Release

section Write

variable {V : Volume} {base : Bytes} (h : V.Writable base.len)
include h

theorem Volume.Writable.of_runs {V' : Volume} (hvalid : V'.Valid) (hsb : V'.layout.sb = V.layout.sb)
    {r s : Run} (hruns : Replaced r s V.runs V'.runs) (hspan : s.span = r.span)
    (hitem : ∀ x ∈ V'.layout.items, ∃ y ∈ V.layout.items, y.ino = x.ino ∧
      y.body.content.length = x.body.content.length) : V'.Writable base.len where
  valid := hvalid
  apart := by
    rw [Bytes.pairwise_apart_iff, hruns.map_eq hspan, ← Bytes.pairwise_apart_iff]
    exact h.apart
  inside r' hr' := by
    have hmem : r'.span ∈ V.runs.map Run.span := by
      rw [← hruns.map_eq hspan]
      exact List.mem_map_of_mem hr'
    obtain ⟨r, hr, heq⟩ := List.mem_map.mp hmem
    obtain ⟨hstart, hlength⟩ := Prod.mk.inj heq
    rw [← hstart, ← hlength]
    exact h.inside r hr
  located x hx := by
    obtain ⟨y, hy, hino, -⟩ := hitem x hx
    rw [hsb, ← hino]
    exact h.located y hy
  fits x hx := by
    obtain ⟨y, hy, -, hlen⟩ := hitem x hx
    rw [← hlen]
    exact h.fits y hy
  primaryRoom := hsb ▸ h.primaryRoom
  headerRoom := hsb ▸ h.headerRoom
  backupRoom := hsb ▸ h.backupRoom

theorem Volume.Writable.unlink (s : Slot V.layout) : (V.unlink s).Writable base.len := by
  refine h.of_runs (V.unlink_valid h.valid s) rfl (V.replaced_runs_unlink h.valid s) s.freedRun_span
    fun x hx => ?_
  rcases s.mem_freed_items hx with hx | rfl
  · exact ⟨x, hx, rfl, rfl⟩
  · refine ⟨s.item, s.item_mem, rfl, ?_⟩
    rw [s.body_eq]
    exact (Bytes.zeroRange_length _ _ _).symm

/-- Zeroing the `d_ino` of a record on disk frees it in the volume. -/
theorem Volume.Writable.zeroAt_write (s : Slot V.layout) :
    (V.write base).zeroAt s.offset 4 = (V.unlink s).write base := by
  have hreplaced := V.replaced_runs_unlink h.valid s
  have hskip := s.skip_le h.valid.layout
  have hmem : s.blockRun ∈ V.runs := hreplaced.mem_left
  refine Bytes.eq_writeAll_of_replaced hreplaced s.freedRun_span h.apart (h.inside _ hmem) ?_ ?_
    fun i hi => Bytes.zeroAt_byte_of_not_mem fun hin => hi ?_
  · rw [Bytes.zeroAt_len, Volume.write, Bytes.writeAll_len]
  · exact (h.stores hmem).hasRun.zeroAt s.skip 4
  · unfold Slot.offset at hin
    unfold Slot.blockRun
    dsimp only
    omega

theorem Volume.Writable.ipg_pos : 0 < V.layout.sb.inodesPerGroup := by
  have := h.valid.layout.ipg_pos
  unfold Superblock.inodesPerGroup
  omega

theorem Volume.Writable.release {n : ℕ}
    (hn : n < V.layout.sb.inodesPerGroup * V.layout.sb.ncg.toNat) :
    (V.release n).Writable base.len :=
  h.of_runs (V.release_valid h.valid n) rfl (Volume.replaced_runs_release h.ipg_pos hn)
    (V.bitmapRun_span n _) fun x hx => ⟨x, hx, rfl, rfl⟩

/-- Clearing the bit of an inode on disk releases it in the volume. -/
theorem Volume.Writable.clearBit_write {n : ℕ}
    (hn : n < V.layout.sb.inodesPerGroup * V.layout.sb.ncg.toNat) :
    clearBit (V.write base)
      (V.layout.sb.headerOff (n / V.layout.sb.inodesPerGroup) + V.iusedoff.toNat)
      (n % V.layout.sb.inodesPerGroup) = (V.release n).write base := by
  have hreplaced := Volume.replaced_runs_release h.ipg_pos hn
  have hmem : V.bitmapRun (n / V.layout.sb.inodesPerGroup) ∈ V.runs := hreplaced.mem_left
  have hstores : Bytes.Stores (V.write base) _ := h.stores hmem
  have hlen : (V.bitmap (n / V.layout.sb.inodesPerGroup)).length = V.layout.sb.bitmapLen := by
    simp [Volume.bitmap]
  have hlt : n % V.layout.sb.inodesPerGroup / 8 < V.layout.sb.bitmapLen := by
    have hmod := Nat.mod_lt n h.ipg_pos
    have hceil := BlockMap.divCeil_mul_ge (a := V.layout.sb.inodesPerGroup) (d := 8) (by norm_num)
    unfold Superblock.bitmapLen
    omega
  have hin := hstores.inside
  unfold Volume.bitmapRun at hin
  dsimp only at hin
  refine Bytes.eq_writeAll_of_replaced hreplaced (V.bitmapRun_span n _) h.apart (h.inside _ hmem) ?_
    (fun b hb => ?_) fun i hi => Bytes.set_byte_of_ne _ fun heq => hi ?_
  · rw [clearBit_len, Volume.write, Bytes.writeAll_len]
  · have hb' : b < (V.bitmap (n / V.layout.sb.inodesPerGroup)).length := by
      have hspan := congrArg Prod.snd (V.bitmapRun_span n (n / V.layout.sb.inodesPerGroup))
      exact hb.trans_eq hspan
    have hbyte : (V.write base).byte (V.layout.sb.headerOff (n / V.layout.sb.inodesPerGroup) +
        V.iusedoff.toNat + b) = (V.bitmap (n / V.layout.sb.inodesPerGroup)).get ⟨b, hb'⟩ :=
      hstores.hasRun b hb'
    refine Eq.trans ?_ (Volume.bitmap_release_getElem h.ipg_pos hb hb').symm
    change (clearBit _ _ _).byte (V.layout.sb.headerOff (n / V.layout.sb.inodesPerGroup) +
      V.iusedoff.toNat + b) = _
    unfold clearBit
    split_ifs with heq
    · subst heq
      rw [← hbyte]
      exact Bytes.set_byte_self _ (by omega)
    · rw [← hbyte]
      exact Bytes.set_byte_of_ne _ (by omega)
  · unfold Volume.bitmapRun
    dsimp only
    omega

end Write

theorem Volume.Writable.inos_nodup {V : Volume} {len : ℕ} (h : V.Writable len) :
    (V.layout.items.map Item.ino).Nodup := by
  have hmode (x : Item) : (V.layout.sb.dinodeOff x.ino + 0,
      (V.layout.sb.endian.u16Run 0 x.dinode.mode).2) ∈ x.runs V.layout.table V.layout.sb := by
    refine List.mem_append_left _ (List.mem_map.mpr
      ⟨V.layout.sb.endian.u16Run 0 x.dinode.mode, List.mem_append_left _ ?_, rfl⟩)
    unfold Dinode.scalarFields
    cases V.layout.sb.version <;> exact List.mem_cons_self
  have hitems := (List.pairwise_append.mp (List.pairwise_append.mp
    (List.pairwise_append.mp h.apart).1).2.1).2.1
  rw [List.Nodup, List.pairwise_map]
  refine (List.pairwise_flatMap.mp hitems).2.imp fun {x y} hxy heq => ?_
  -- the modes of two dinodes at one address lie over each other
  have hapart := hxy _ (hmode x) _ (hmode y)
  unfold Run.Apart Endian.u16Run at hapart
  simp only [int_length, heq] at hapart
  omega

/-- The volumes and partitions that a run of edits leads to: records are freed and bits are cleared, in
any order, outside of the regions that the superblock is searched in. -/
inductive Volume.Deletes (V : Volume) (p : Bytes) : Volume → Bytes → Prop
  | refl : V.Deletes p V p
  | unlink {V' : Volume} {q : Bytes} (run : V.Deletes p V' q) (s : Slot V'.layout)
      (clear : ∀ i ∈ primaryRegions, i < s.offset ∨ s.offset + 4 ≤ i) :
      V.Deletes p (V'.unlink s) (q.zeroAt s.offset 4)
  | release {V' : Volume} {q : Bytes} (run : V.Deletes p V' q) (n : ℕ)
      (lt_inodes : n < V'.layout.sb.inodesPerGroup * V'.layout.sb.ncg.toNat)
      (clear : inodeBitByte q V'.layout.sb n ∉ primaryRegions) :
      V.Deletes p (V'.release n) (clearBit q (bitmapOff q V'.layout.sb
        (n / V'.layout.sb.inodesPerGroup)) (n % V'.layout.sb.inodesPerGroup))

section Run

variable {V V' : Volume} {base q : Bytes} (h : V.Writable base.len)
  (hparses : parsePrimarySb (V.write base) = .ok V.layout.sb)
include h hparses

/-- The edits of the partition are those of the volume. -/
theorem Volume.Deletes.refines (hrun : V.Deletes (V.write base) V' q) :
    V'.Writable base.len ∧ q = V'.write base ∧ parsePrimarySb q = .ok V'.layout.sb := by
  induction hrun with
  | refl => exact ⟨h, rfl, hparses⟩
  | unlink hrun s hclear ih =>
    obtain ⟨hw, rfl, hparse⟩ := ih
    refine ⟨hw.unlink s, hw.zeroAt_write s, ?_⟩
    refine (parsePrimarySb_congr ⟨(Bytes.zeroAt_len _ _ _).symm, fun i hi => ?_⟩).symm.trans hparse
    have := hclear i hi
    exact (Bytes.zeroAt_byte_of_not_mem (by omega)).symm
  | release hrun n hn hclear ih =>
    obtain ⟨hw, rfl, hparse⟩ := ih
    have hoff := (Volume.Writable.held hw hparse).bitmapOff_eq (Nat.div_lt_of_lt_mul hn)
    refine ⟨hw.release hn, ?_, ?_⟩
    · rw [hoff]
      exact hw.clearBit_write hn
    · refine (parsePrimarySb_congr ⟨(clearBit_len _ _ _).symm, fun i hi => ?_⟩).symm.trans hparse
      have hne : i ≠ inodeBitByte _ _ n := fun heq => hclear (heq ▸ hi)
      exact (Bytes.set_byte_of_ne _ hne).symm

omit h hparses in
theorem Volume.Deletes.mem_items {p : Bytes} (hrun : V.Deletes p V' q) {x : Item}
    (hx : x ∈ V.layout.items) (hbody : ∀ content blocks, x.body ≠ .dir content blocks) :
    x ∈ V'.layout.items := by
  induction hrun with
  | refl => exact hx
  | unlink hrun s hclear ih => exact s.mem_freed_of_not_dir ih hbody
  | release hrun n hn hclear ih => exact ih

omit h hparses in
theorem Volume.Deletes.sb_eq {p : Bytes} (hrun : V.Deletes p V' q) : V'.layout.sb = V.layout.sb := by
  induction hrun with
  | refl => rfl
  | unlink hrun s hclear ih => exact ih
  | release hrun n hn hclear ih => exact ih

end Run

namespace Crafted

def shelfRootItem : Item :=
  ⟨2, shelfDinode 0o040755 60 [30],
    .dir (shelfRoot.flatMap (DirRecord.encode .big)) [(shelfRoot, [])]⟩

theorem soldShelf_items :
    soldShelf.layout.items = [] ++ shelfRootItem :: soldShelf.layout.items.tail := rfl

def shelfRecord : DirRecord := letter 4 8 102 (Vector.replicate 3 0)

theorem shelfRootItem_body : shelfRootItem.body = .dir (shelfRoot.flatMap (DirRecord.encode .big))
    ([] ++ (shelfRoot.take 2 ++ shelfRecord :: shelfRoot.drop 3, []) :: []) := rfl

theorem shelfRecord_live : shelfRecord.ino ≠ 0 := by decide

/-- The record `f` of the root, one of the two names of inode 4. -/
def shelfSlot : Slot soldShelf.layout where
  front := []
  item := shelfRootItem
  back := soldShelf.layout.items.tail
  content := shelfRoot.flatMap (DirRecord.encode .big)
  earlier := []
  before := shelfRoot.take 2
  record := shelfRecord
  after := shelfRoot.drop 3
  tail := []
  later := []
  items_eq := soldShelf_items
  body_eq := shelfRootItem_body
  live := shelfRecord_live

theorem shelfSlot_clear : ∀ i ∈ primaryRegions, i < shelfSlot.offset ∨ shelfSlot.offset + 4 ≤ i := by
  have hoffset : shelfSlot.offset = 15384 := by decide +kernel
  intro i hi
  simp only [primaryRegions, SBLOCK_UFS1, SBLOCK_UFS2, SB_MIN_LEN, Set.mem_union, Set.mem_Ico] at hi
  omega

theorem shelf_bit_clear {b : ℕ} (hb : b = 10408) : b ∉ primaryRegions := by
  intro hi
  simp only [hb, primaryRegions, SBLOCK_UFS1, SBLOCK_UFS2, SB_MIN_LEN, Set.mem_union,
    Set.mem_Ico] at hi
  omega

theorem soldShelf_deletes : soldShelf.Deletes (soldShelf.write wornOut)
    ((soldShelf.unlink shelfSlot).release 4)
    (clearBit ((soldShelf.write wornOut).zeroAt shelfSlot.offset 4)
      (bitmapOff ((soldShelf.write wornOut).zeroAt shelfSlot.offset 4) shelfSb
        (4 / shelfSb.inodesPerGroup)) (4 % shelfSb.inodesPerGroup)) :=
  .release (.unlink .refl shelfSlot shelfSlot_clear) 4 (by decide +kernel)
    (shelf_bit_clear (show inodeBitByte ((soldShelf.write wornOut).zeroAt shelfSlot.offset 4)
      shelfSb 4 = 10408 by decide +kernel))

def shelfContent : Bytes := Bytes.ofList shelfFile (by decide +kernel)

theorem shelfFile_body : Body.file shelfFile = .file shelfContent.toList :=
  congrArg Body.file (Bytes.toList_ofList _ _).symm

end Crafted

section Remove

variable {V : Volume} {base : Bytes} (h : V.Writable base.len)
  (hparses : parsePrimarySb (V.write base) = .ok V.layout.sb) (s : Slot V.layout)
  (hrecord : ∀ i ∈ primaryRegions, i < s.offset ∨ s.offset + 4 ≤ i)
include h hparses hrecord

theorem Volume.Writable.deletes_deleteInode {n : ℕ}
    (hn : n < V.layout.sb.inodesPerGroup * V.layout.sb.ncg.toNat)
    (hbit : inodeBitByte (V.write base) V.layout.sb n ∉ primaryRegions) :
    V.Deletes (V.write base) ((V.unlink s).release n)
      (deleteInode (V.write base) V.layout.sb n s.offset) := by
  have hunlink : V.Deletes (V.write base) (V.unlink s) ((V.write base).zeroAt s.offset 4) :=
    .unlink .refl s hrecord
  obtain ⟨hw, heq, hparse⟩ := Volume.Deletes.refines h hparses hunlink
  rw [heq] at hparse
  have hoff : bitmapOff ((V.write base).zeroAt s.offset 4) V.layout.sb
      (n / V.layout.sb.inodesPerGroup) =
        bitmapOff (V.write base) V.layout.sb (n / V.layout.sb.inodesPerGroup) := by
    rw [heq, (Volume.Writable.held h hparses).bitmapOff_eq (Nat.div_lt_of_lt_mul hn)]
    exact (Volume.Writable.held hw hparse).bitmapOff_eq (Nat.div_lt_of_lt_mul hn)
  unfold inodeBitByte at hbit
  rw [← hoff] at hbit
  rw [deleteInode, ← hoff]
  exact .release hunlink n hn hbit

end Remove

section Effects

variable {V : Volume} (s : Slot V.layout)

/-- An inode is an orphan after the removal exactly when it was one before: the removed one has its
name before and its bit clear after. -/
theorem Slot.orphan_iff (hnd : (V.layout.items.map Item.ino).Nodup)
    (hbelow : V.layout.tree.Below Dots s.item.ino) (hdots : ¬ Dots s.record.name)
    (hfile : ¬ V.layout.tree.IsDir s.record.ino.toNat) (n : ℕ) :
    (((V.unlink s).release s.record.ino.toNat).used n = true ∧ ¬ s.freed.tree.IsNamed Dots n) ↔
      V.used n = true ∧ ¬ V.layout.tree.IsNamed Dots n := by
  change ((V.used n && n != s.record.ino.toNat) = true ∧ _) ↔ _
  by_cases hn : n = s.record.ino.toNat
  · have hnamed : V.layout.tree.IsNamed Dots n := by
      refine ⟨s.item.ino, s.record.name, hbelow, Layout.mem_entries_iff.mpr
        ⟨s.record, ?_, s.live, by rw [hn]⟩, hdots⟩
      rw [(s.records_item hnd).1]
      simp
    have hbit : (V.used n && n != s.record.ino.toNat) = false := by
      rw [bne, beq_iff_eq.mpr hn, Bool.not_true, Bool.and_false]
    rw [hbit]
    exact iff_of_false (fun hc => Bool.noConfusion hc.1) fun hc => hc.2 hnamed
  · rw [s.isNamed_freed_iff hfile hn, bne, beq_false_of_ne hn, Bool.not_false, Bool.and_true]

theorem Slot.residue_iff (hnd : (V.layout.items.map Item.ino).Nodup)
    (hbelow : V.layout.tree.Below Dots s.item.ino) (hname : s.record.name ≠ [])
    (hdots : ¬ Dots s.record.name) (hfile : ¬ V.layout.tree.IsDir s.record.ino.toNat)
    {item : RecoveredItem} :
    (∃ d, s.freed.tree.Below Dots d ∧ ∃ r ∈ s.freed.records d, r.ino = 0 ∧ r.name ≠ [] ∧
        ¬ Dots r.name ∧ item = .deletedDirent (decodeName r.name) 0) ↔
      (∃ d, V.layout.tree.Below Dots d ∧ ∃ r ∈ V.layout.records d, r.ino = 0 ∧ r.name ≠ [] ∧
        ¬ Dots r.name ∧ item = .deletedDirent (decodeName r.name) 0) ∨
      item = .deletedDirent (decodeName s.record.name) 0 := by
  constructor
  · rintro ⟨d, hd, r, hr, hino, hne, hnot, hitem⟩
    rcases s.mem_records_freed hr with hr | rfl
    · exact Or.inl ⟨d, (s.below_freed_iff hfile).mp hd, r, hr, hino, hne, hnot, hitem⟩
    · exact Or.inr hitem
  · rintro (⟨d, hd, r, hr, hino, hne, hnot, hitem⟩ | hitem)
    · have hother : r ≠ s.record := fun h => s.live (h ▸ hino)
      exact ⟨d, (s.below_freed_iff hfile).mpr hd, r, s.mem_records_freed_of_ne hr hother, hino, hne,
        hnot, hitem⟩
    · refine ⟨s.item.ino, (s.below_freed_iff hfile).mpr hbelow, s.record.free, ?_, rfl, hname, hdots,
        hitem⟩
      rw [(s.records_item hnd).2]
      simp

theorem Slot.unused_iff (hnd : (V.layout.items.map Item.ino).Nodup) {x : Item}
    (hx : x ∈ V.layout.items) (h3 : 3 ≤ x.ino) {content : Bytes}
    (hbody : x.body = .file content.toList) {P : ℕ → Inode → Bytes → Prop} :
    (∃ y ∈ s.freed.items, ∃ c : Bytes, y.body = .file c.toList ∧ 3 ≤ y.ino ∧
        ((V.unlink s).release x.ino).used y.ino = false ∧ P y.ino (y.inode V.layout.sb) c) ↔
      (∃ y ∈ V.layout.items, ∃ c : Bytes, y.body = .file c.toList ∧ 3 ≤ y.ino ∧
        V.used y.ino = false ∧ P y.ino (y.inode V.layout.sb) c) ∨
          P x.ino (x.inode V.layout.sb) content := by
  change (∃ y ∈ s.freed.items, ∃ c : Bytes, y.body = .file c.toList ∧ 3 ≤ y.ino ∧
    (V.used y.ino && y.ino != x.ino) = false ∧ _) ↔ _
  constructor
  · rintro ⟨y, hy, c, hfile, hy3, hused, hp⟩
    rcases s.mem_freed_items hy with hy | rfl
    · by_cases heq : y.ino = x.ino
      · obtain rfl := List.inj_on_of_nodup_map hnd hy hx heq
        have hlist : c.toList = content.toList := Body.file.inj (hfile.symm.trans hbody)
        obtain rfl := Bytes.toList_injective hlist
        exact Or.inr hp
      · rw [bne, beq_false_of_ne heq, Bool.not_false, Bool.and_true] at hused
        exact Or.inl ⟨y, hy, c, hfile, hy3, hused, hp⟩
    · exact nomatch hfile
  · rintro (⟨y, hy, c, hfile, hy3, hused, hp⟩ | hp)
    · have hy' := s.mem_freed_of_not_dir hy fun _ _ hdir => nomatch hfile.symm.trans hdir
      exact ⟨y, hy', c, hfile, hy3, by rw [hused, Bool.false_and], hp⟩
    · have hx' := s.mem_freed_of_not_dir hx fun _ _ hdir => nomatch hbody.symm.trans hdir
      exact ⟨x, hx', content, hbody, h3, by rw [bne_self_eq_false, Bool.and_false], hp⟩

variable {p q : Bytes} {x : Item} (hold : V.Held p) (hnew : ((V.unlink s).release x.ino).Held q)
  (hnd : (V.layout.items.map Item.ino).Nodup) (hbelow : V.layout.tree.Below Dots s.item.ino)
  (hdots : ¬ Dots s.record.name) (hfile : ¬ V.layout.tree.IsDir s.record.ino.toNat)
include hold hnew hnd hbelow hdots hfile

theorem Slot.auditImage_eq (hino : s.record.ino.toNat = x.ino) : auditImage q = auditImage p := by
  have horphan := s.orphan_iff hnd hbelow hdots hfile
  rw [hino] at horphan
  rw [hnew.auditImage_eq, hold.auditImage_eq]
  refine eq_of_increasing hnew.orphans_increasing hold.orphans_increasing fun a => ?_
  rw [hnew.mem_checkOrphanedInodes_iff, hold.mem_checkOrphanedInodes_iff]
  refine (s.exists_freed_items_iff (P := fun n d => 3 ≤ n ∧
    ((V.unlink s).release x.ino).used n = true ∧ 0 < d.nlink.toNat ∧
      ¬ s.freed.tree.IsNamed Dots n ∧ a = Anomaly.new (.orphanedInode n d.nlink))).trans
        (exists_congr fun y => and_congr_right fun _ => ?_)
  constructor
  · rintro ⟨hy3, hused, hlink, hnot, ha⟩
    obtain ⟨hused, hnot⟩ := (horphan y.ino).mp ⟨hused, hnot⟩
    exact ⟨hy3, hused, hlink, hnot, ha⟩
  · rintro ⟨hy3, hused, hlink, hnot, ha⟩
    obtain ⟨hused, hnot⟩ := (horphan y.ino).mpr ⟨hused, hnot⟩
    exact ⟨hy3, hused, hlink, hnot, ha⟩

/-- What recovery finds after the removal and did not find before is the name, and the file. -/
theorem Slot.mem_recoverDeleted_iff (hname : s.record.name ≠ []) (hx : x ∈ V.layout.items)
    (h3 : 3 ≤ x.ino) {content : Bytes} (hbody : x.body = .file content.toList)
    (sha256 : Bytes → Vector UInt8 32) (item : RecoveredItem) :
    item ∈ recoverDeleted sha256 q ↔ item ∈ recoverDeleted sha256 p ∨
      item = .deletedDirent (decodeName s.record.name) 0 ∨
        (content.len ≠ 0 ∧ (x.inode V.layout.sb).firstBlock ≠ 0 ∧
          item = .deletedFile none x.ino content.len content (sha256Hex sha256 content)) := by
  cases item with
  | deletedDirent name n =>
    rw [hnew.mem_recoverDeleted_dirent_iff, hold.mem_recoverDeleted_dirent_iff]
    refine (s.residue_iff hnd hbelow hname hdots hfile).trans (or_congr_right ?_)
    refine (or_iff_left ?_).symm
    rintro ⟨-, -, hitem⟩
    cases hitem
  | deletedFile found n size c digest =>
    have hof : (RecoveredItem.deletedFile found n size c digest).isFileOf n = true :=
      beq_self_eq_true n
    rw [hnew.mem_recoverDeleted_file_iff hof, hold.mem_recoverDeleted_file_iff hof]
    refine (s.unused_iff hnd hx h3 hbody (P := fun m inode c' => c'.len ≠ 0 ∧
      inode.firstBlock ≠ 0 ∧ RecoveredItem.deletedFile found n size c digest =
        .deletedFile none m c'.len c' (sha256Hex sha256 c'))).trans (or_congr_right ?_)
    refine (or_iff_right fun hitem => ?_).symm
    cases hitem

end Effects

end UfsForensic
