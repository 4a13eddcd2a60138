import Mathlib.Data.List.Perm.Basic
import UfsForensic.Deletion
import UfsForensic.ExactAddresses
import UfsForensic.RecoveryWalk

/-!
# Absorbed entries

Removing an entry that has a predecessor in its 512-byte directory block adds its `d_reclen` to the
predecessor's and leaves its own bytes behind. The walk then passes over them: the block decodes to
its former records without the removed one, and none of its free slots is new.
-/

namespace UfsForensic

open Bytes (AgreeOn)

namespace Endian

/-- `data[off..off + 2]` overwritten by the 16-bit `v`. -/
def putU16 (endian : Endian) (data : Bytes) (off v : ℕ) : Bytes :=
  match endian with
  | .little => (data.set off (UInt8.ofNat v)).set (off + 1) (UInt8.ofNat (v / 256))
  | .big => (data.set off (UInt8.ofNat (v / 256))).set (off + 1) (UInt8.ofNat v)

variable {data : Bytes} {off v : ℕ}

@[simp] theorem putU16_len (endian : Endian) : (endian.putU16 data off v).len = data.len := by
  cases endian <;> rfl

theorem putU16_byte_of_ne {endian : Endian} {i : ℕ} (h : i ≠ off) (h' : i ≠ off + 1) :
    (endian.putU16 data off v).byte i = data.byte i := by
  cases endian
  · exact (Bytes.set_byte_of_ne _ h').trans (Bytes.set_byte_of_ne _ h)
  · exact (Bytes.set_byte_of_ne _ h').trans (Bytes.set_byte_of_ne _ h)

theorem u16_putU16 (hoff : off + 2 ≤ data.len) (hv : v < 2 ^ 16) (endian : Endian) :
    (endian.u16 (endian.putU16 data off v) off).toNat = v := by
  have hlow : (UInt8.ofNat v).toNat = v % 256 := UInt8.toNat_ofNat'
  have hhigh : (UInt8.ofNat (v / 256)).toNat = v / 256 := UInt8.toNat_ofNat_of_lt' (by
    unfold UInt8.size
    omega)
  have hfirst (a b : UInt8) : ((data.set off a).set (off + 1) b).window off 2 0 = a := by
    rw [Bytes.window_eq (by simpa using hoff) (by norm_num)]
    exact (Bytes.set_byte_of_ne _ (by omega)).trans (Bytes.set_byte_self _ (by omega))
  have hsecond (a b : UInt8) : ((data.set off a).set (off + 1) b).window off 2 1 = b := by
    rw [Bytes.window_eq (by simpa using hoff) (by norm_num)]
    exact Bytes.set_byte_self _ (by rw [Bytes.set_len]; omega)
  cases endian with
  | little =>
    simp only [u16, leU16, putU16, Bytes.leNat, hfirst, hsecond, hlow, hhigh]
    rw [UInt16.toNat_ofNat_of_lt' (by unfold UInt16.size; omega)]
    omega
  | big =>
    simp only [u16, beU16, putU16, Bytes.beNat, Bytes.leNat, Nat.reduceSub, hfirst, hsecond, hlow,
      hhigh]
    rw [UInt16.toNat_ofNat_of_lt' (by unfold UInt16.size; omega)]
    omega

end Endian

/-- When the length of a record grows by the length of the next, the walk skips the next. -/
theorem walkFrom_absorb {block block' : Bytes} {endian : Endian} {off : ℕ} {pre : List DirEntry}
    (hlen : block.len = block'.len) (hwalk : Walked block endian off pre)
    (hfirst : DIRECT_HEAD + namlenAt block off ≤ reclenAt block endian off)
    (hsecond : DIRECT_HEAD ≤ reclenAt block endian (off + reclenAt block endian off))
    (hin : off + reclenAt block endian off +
      reclenAt block endian (off + reclenAt block endian off) ≤ block.len)
    (hgrow : reclenAt block' endian off = reclenAt block endian off +
      reclenAt block endian (off + reclenAt block endian off))
    (hbytes : ∀ i, ¬ (off + OFF_RECLEN ≤ i ∧ i < off + OFF_TYPE) → block.byte i = block'.byte i) :
    ∃ record tail, walkFrom block endian 0 = pre ++ record ::
        recordAt block endian (off + reclenAt block endian off)
          (reclenAt block endian (off + reclenAt block endian off)) :: tail ∧
      walkFrom block' endian 0 = pre ++ record :: tail := by
  unfold DIRECT_HEAD at hfirst hsecond
  have hwalk' : Walked block' endian off pre :=
    hwalk.congr hlen fun i hi => hbytes i (by unfold OFF_RECLEN; omega)
  have hrecord : recordAt block endian off (reclenAt block endian off) =
      recordAt block' endian off (reclenAt block' endian off) := by
    apply recordAt_congr hlen (by unfold DIRECT_HEAD; omega)
    · unfold OFF_NAME
      omega
    · intro i _ _ hi
      exact hbytes i hi
  have htail : walkFrom block endian (off + reclenAt block endian off +
      reclenAt block endian (off + reclenAt block endian off)) =
        walkFrom block' endian (off + reclenAt block' endian off) := by
    rw [hgrow, ← Nat.add_assoc]
    refine walkFrom_congr hlen fun i hi => hbytes i ?_
    unfold OFF_TYPE
    omega
  refine ⟨recordAt block endian off (reclenAt block endian off),
    walkFrom block endian (off + reclenAt block endian off +
      reclenAt block endian (off + reclenAt block endian off)), ?_, ?_⟩
  · rw [hwalk.walkFrom_eq, walkFrom_of_record (by unfold DIRECT_HEAD; omega)
      (by unfold DIRECT_HEAD; omega), walkFrom_of_record (by unfold DIRECT_HEAD; omega)
        (by unfold DIRECT_HEAD; omega)]
  · rw [hwalk'.walkFrom_eq, walkFrom_of_record (by unfold DIRECT_HEAD; omega)
      (by unfold DIRECT_HEAD; omega), ← hrecord, ← htail]

/-- The place of a record: its directory, the direct block, and the offset within the block. -/
structure Place where
  dir : ℕ
  inode : Inode
  slot : Fin 12
  off : ℕ

namespace Place

variable (s : Place)

def addr : UInt64 := s.inode.direct[s.slot]

/-- The part of the block that belongs to the directory. -/
def block (p : Bytes) (sb : Superblock) : Bytes :=
  p.slice (s.addr.toNat * sb.fragBytes)
    (min (s.inode.size.toNat - s.slot * sb.blockBytes) sb.blockBytes)

def reclen (p : Bytes) (sb : Superblock) : ℕ := reclenAt (s.block p sb) sb.endian s.off

def next (p : Bytes) (sb : Superblock) : Place := { s with off := s.off + s.reclen p sb }

def record (p : Bytes) (sb : Superblock) : DirEntry :=
  recordAt (s.block p sb) sb.endian s.off (s.reclen p sb)

end Place

/-- The record at `s` absorbs the one that follows, whose inode is marked free. -/
def absorb (p : Bytes) (sb : Superblock) (s : Place) : Bytes :=
  let m := ((s.next p sb).record p sb).ino
  clearBit (sb.endian.putU16 p (s.addr.toNat * sb.fragBytes + s.off + OFF_RECLEN)
      (s.reclen p sb + (s.next p sb).reclen p sb))
    (bitmapOff p sb (m / sb.inodesPerGroup)) (m % sb.inodesPerGroup)

/-- The record at `s` and the one that follows are well formed and lie in one 512-byte block of a
directory that the recovery walk visits; the second is live and names an inode that can be freed. -/
structure AdjacentPair (p : Bytes) (sb : Superblock) (s : Place) : Prop where
  parses : parsePrimarySb p = .ok sb
  visited : s.dir ∈ walkedDirs p sb
  dinode : readInode p sb s.dir = .ok s.inode
  addr_ne : s.addr ≠ 0
  walked : ∃ pre, Walked (s.block p sb) sb.endian s.off pre
  first_fits : DIRECT_HEAD + namlenAt (s.block p sb) s.off ≤ s.reclen p sb
  second_fits : DIRECT_HEAD + namlenAt (s.block p sb) (s.next p sb).off ≤ (s.next p sb).reclen p sb
  inside : (s.next p sb).off + (s.next p sb).reclen p sb ≤ (s.block p sb).len
  one_block : s.off / DIRBLKSIZ =
    ((s.next p sb).off + (s.next p sb).reclen p sb - 1) / DIRBLKSIZ
  live : ((s.next p sb).record p sb).Live
  three_le : 3 ≤ ((s.next p sb).record p sb).ino

def bitByte (p : Bytes) (sb : Superblock) (s : Place) : ℕ :=
  bitmapOff p sb (((s.next p sb).record p sb).ino / sb.inodesPerGroup) +
    ((s.next p sb).record p sb).ino % sb.inodesPerGroup / 8

/-- The part of direct block `k` that belongs to the directory with `inode`. -/
def slotSpan (sb : Superblock) (inode : Inode) (k : Fin 12) : Set ℕ :=
  blockSpan sb inode.direct[k] (min (inode.size.toNat - k * sb.blockBytes) sb.blockBytes)

/-- The edit touches no other structure: not the primary superblock regions, nor, of the directories
in the tree, a dinode or what a block other than the one edited holds of a directory, nor the group
header and the dinode of the inode that is freed; and what the edited block holds of its directory
is not the bitmap. -/
structure Isolated (p : Bytes) (sb : Superblock) (s : Place) : Prop where
  superblock : ∀ i ∈ primaryRegions, (absorb p sb s).byte i = p.byte i
  dinodes : ∀ d ∈ tree p sb, ∀ inode, readInode p sb d = .ok inode → ∀ i ∈ dinodeSpan sb d,
    (absorb p sb s).byte i = p.byte i
  blocks : ∀ d ∈ tree p sb, ∀ inode, readInode p sb d = .ok inode →
    ∀ k : Fin 12, ¬ (d = s.dir ∧ k = s.slot) → inode.direct[k] ≠ 0 →
      ∀ i ∈ slotSpan sb inode k, (absorb p sb s).byte i = p.byte i
  bitmap : bitByte p sb s ∉ slotSpan sb s.inode s.slot
  header : ∀ i ∈ headerSpan sb (((s.next p sb).record p sb).ino / sb.inodesPerGroup),
    (absorb p sb s).byte i = p.byte i
  freed : ∀ i ∈ dinodeSpan sb ((s.next p sb).record p sb).ino,
    (absorb p sb s).byte i = p.byte i

/-- The entries of directory `d` but for the one that is absorbed. -/
def remainingEntries (p : Bytes) (sb : Superblock) (s : Place) (d : ℕ) : List DirEntry :=
  if d = s.dir then (entriesOf p sb d).erase ((s.next p sb).record p sb) else entriesOf p sb d

/-- The directories that the entries of the tree lead to without the one that is absorbed. -/
inductive StillNamed (p : Bytes) (sb : Superblock) (s : Place) : ℕ → Prop
  | root : StillNamed p sb s UFS_ROOTINO
  | step {d : ℕ} {e : DirEntry} (hd : StillNamed p sb s d) (he : e ∈ remainingEntries p sb s d)
      (hlive : e.Live) (hdir : isDirEntry e = true) : StillNamed p sb s e.ino

/-- One of these directories holds, before the edit, a free slot whose name reads as `name`. -/
def HeldElsewhere (p : Bytes) (sb : Superblock) (s : Place) (name : List UInt8) : Prop :=
  ∃ d, StillNamed p sb s d ∧ ∃ e ∈ entriesOf p sb d, e.Residue ∧
    decodeName e.name = decodeName name

section Listings

variable {p : Bytes} {sb : Superblock} {s : Place}

@[simp] theorem absorb_len (p : Bytes) (sb : Superblock) (s : Place) :
    (absorb p sb s).len = p.len := by
  unfold absorb
  dsimp only
  rw [clearBit_len, Endian.putU16_len]

theorem absorb_byte {i : ℕ} (h : i < s.addr.toNat * sb.fragBytes + s.off + OFF_RECLEN ∨
    s.addr.toNat * sb.fragBytes + s.off + OFF_TYPE ≤ i) (hbit : i ≠ bitByte p sb s) :
    (absorb p sb s).byte i = p.byte i := by
  unfold OFF_RECLEN OFF_TYPE at h
  unfold absorb OFF_RECLEN
  exact (Bytes.set_byte_of_ne _ hbit).trans (Endian.putU16_byte_of_ne (by omega) (by omega))

theorem Isolated.block_byte (hiso : Isolated p sb s) {i : ℕ}
    (hi : i < min (s.inode.size.toNat - s.slot * sb.blockBytes) sb.blockBytes)
    (hne : ¬ (s.off + OFF_RECLEN ≤ i ∧ i < s.off + OFF_TYPE)) :
    (absorb p sb s).byte (s.addr.toNat * sb.fragBytes + i) =
      p.byte (s.addr.toNat * sb.fragBytes + i) := by
  apply absorb_byte
  · unfold OFF_RECLEN OFF_TYPE at *
    omega
  · intro hc
    apply hiso.bitmap
    rw [← hc]
    exact ⟨Nat.le_add_right _ _, Nat.add_lt_add_left hi _⟩

theorem Place.block_len (s : Place) (p : Bytes) (sb : Superblock) : (s.block p sb).len =
    min (min (s.inode.size.toNat - s.slot * sb.blockBytes) sb.blockBytes)
      (p.len - s.addr.toNat * sb.fragBytes) := Bytes.slice_len _ _ _

/-- The edited block decodes to the former records without the second of the pair. -/
theorem AdjacentPair.walk_absorb (h : AdjacentPair p sb s) (hiso : Isolated p sb s) :
    ∃ pre record tail, walkFrom (s.block p sb) sb.endian 0 =
        pre ++ record :: (s.next p sb).record p sb :: tail ∧
      walkFrom (s.block (absorb p sb s) sb) sb.endian 0 = pre ++ record :: tail := by
  obtain ⟨pre, hwalk⟩ := h.walked
  have hfirst := h.first_fits
  have hsecond := h.second_fits
  have hinside := h.inside
  have hone := h.one_block
  have hnext : (s.next p sb).off = s.off + s.reclen p sb := rfl
  have hblen := s.block_len p sb
  have hlen : (s.block p sb).len = (s.block (absorb p sb s) sb).len := by
    rw [hblen, s.block_len, absorb_len]
  have hgrow : reclenAt (s.block (absorb p sb s) sb) sb.endian s.off =
      s.reclen p sb + (s.next p sb).reclen p sb := by
    unfold DIRECT_HEAD at hfirst hsecond
    unfold DIRBLKSIZ at hone
    unfold reclenAt Place.block OFF_RECLEN
    rw [Endian.u16_slice (by omega)]
    -- the byte of the bitmap is not in the block, so the new length is read back
    have hread : sb.endian.u16 (absorb p sb s) (s.addr.toNat * sb.fragBytes + (s.off + 4)) =
        sb.endian.u16 (sb.endian.putU16 p (s.addr.toNat * sb.fragBytes + s.off + 4)
          (s.reclen p sb + (s.next p sb).reclen p sb))
            (s.addr.toNat * sb.fragBytes + s.off + 4) := by
      rw [← Nat.add_assoc]
      apply Endian.u16_congr
      intro i hi
      rw [Bytes.window_eq (by rw [absorb_len]; omega) hi,
        Bytes.window_eq (by rw [Endian.putU16_len]; omega) hi]
      apply Bytes.set_byte_of_ne
      intro hc
      apply hiso.bitmap
      rw [bitByte, ← hc]
      change s.addr.toNat * sb.fragBytes ≤ _ ∧ _ < s.addr.toNat * sb.fragBytes + _
      omega
    rw [hread, Endian.u16_putU16 (by omega) (by omega)]
  have hhead : DIRECT_HEAD ≤ (s.next p sb).reclen p sb := le_trans (Nat.le_add_right _ _) hsecond
  obtain ⟨record, tail, hold, hnew⟩ := walkFrom_absorb hlen hwalk hfirst hhead hinside hgrow
    fun i hi => by
      unfold Place.block
      rw [Bytes.slice_byte, Bytes.slice_byte]
      split_ifs with hlt
      · exact (hiso.block_byte (by omega) hi).symm
      · rfl
  exact ⟨pre, record, tail, hold, hnew⟩

theorem AdjacentPair.directBlock_perm (h : AdjacentPair p sb s) (hiso : Isolated p sb s) :
    (directBlock p sb s.addr (s.inode.size.toNat - s.slot * sb.blockBytes)).Perm
      ((s.next p sb).record p sb :: directBlock (absorb p sb s) sb s.addr
        (s.inode.size.toNat - s.slot * sb.blockBytes)) := by
  have hne : ¬ (s.inode.size.toNat - s.slot * sb.blockBytes = 0 ∨ s.addr = 0) := by
    rintro (h0 | h0)
    · have hinside := h.inside
      have hsecond := h.second_fits
      unfold DIRECT_HEAD at hsecond
      rw [s.block_len, h0] at hinside
      omega
    · exact h.addr_ne h0
  unfold directBlock
  rw [if_neg hne, if_neg hne]
  obtain ⟨pre, record, tail, hold, hnew⟩ := h.walk_absorb hiso
  unfold Place.block at hold hnew
  rw [hold, hnew, List.append_cons pre record (_ :: tail), List.append_cons pre record tail]
  exact List.perm_middle

theorem Isolated.directBlock_eq (hiso : Isolated p sb s) {d : ℕ} (hd : d ∈ tree p sb)
    {inode : Inode} (hinode : readInode p sb d = .ok inode) {k : ℕ} (hk : k < 12)
    (hother : ¬ (d = s.dir ∧ (⟨k, hk⟩ : Fin 12) = s.slot)) :
    directBlock (absorb p sb s) sb (inode.direct.toList.getD k 0)
        (inode.size.toNat - k * sb.blockBytes) =
      directBlock p sb (inode.direct.toList.getD k 0) (inode.size.toNat - k * sb.blockBytes) := by
  have hdirect : inode.direct.toList.getD k 0 = inode.direct[k] := by
    simp [hk]
  unfold directBlock
  rw [hdirect]
  by_cases hempty : inode.size.toNat - k * sb.blockBytes = 0 ∨ inode.direct[k] = 0
  · rw [if_pos hempty, if_pos hempty]
  rw [if_neg hempty, if_neg hempty]
  have hagree : AgreeOn (absorb p sb s) p (blockSpan sb inode.direct[k]
      (min (inode.size.toNat - k * sb.blockBytes) sb.blockBytes)) :=
    ⟨absorb_len p sb s, hiso.blocks d hd inode hinode ⟨k, hk⟩ hother fun h0 => hempty (Or.inr h0)⟩
  rw [hagree.slice_eq fun i h1 h2 => ⟨h1, h2⟩]

theorem Isolated.readInode_eq (hiso : Isolated p sb s) (hsb : sb.WellFormed) {d : ℕ}
    (hd : d ∈ tree p sb) {inode : Inode} :
    readInode (absorb p sb s) sb d = .ok inode ↔ readInode p sb d = .ok inode := by
  have hkeep {inode : Inode} (hread : readInode p sb d = .ok inode) :
      readInode (absorb p sb s) sb d = .ok inode :=
    readInode_congr hsb ⟨(absorb_len p sb s).symm, fun i hi =>
      (hiso.dinodes d hd inode hread i hi).symm⟩ hread
  refine ⟨fun hread => ?_, hkeep⟩
  -- whether a dinode is decoded depends on where it lies only
  have hlocated := (readInode_located_iff hsb d).mp ⟨inode, hread⟩
  rw [absorb_len] at hlocated
  obtain ⟨inode', hread'⟩ := (readInode_located_iff hsb d).mpr hlocated
  rw [hread', Except.ok.inj (hread.symm.trans (hkeep hread'))]

theorem flatMap_perm_cons {α β : Type*} {l : List α} (hnd : l.Nodup) {a : α} (ha : a ∈ l) {e : β}
    {f g : α → List β} (h : (f a).Perm (e :: g a)) (hrest : ∀ b ∈ l, b ≠ a → f b = g b) :
    (l.flatMap f).Perm (e :: l.flatMap g) := by
  obtain ⟨front, back, rfl⟩ := List.append_of_mem ha
  rw [List.perm_middle.nodup_iff, List.nodup_cons, List.mem_append, not_or] at hnd
  have hfront : front.flatMap f = front.flatMap g :=
    List.flatMap_congr fun b hb => hrest b (List.mem_append_left _ hb) fun h => hnd.1.1 (h ▸ hb)
  have hback : back.flatMap f = back.flatMap g :=
    List.flatMap_congr fun b hb => hrest b (List.mem_append_right _ (List.mem_cons_of_mem _ hb))
      fun h => hnd.1.2 (h ▸ hb)
  rw [List.flatMap_append, List.flatMap_append, List.flatMap_cons, List.flatMap_cons, hfront, hback]
  exact ((h.append_right _).append_left _).trans List.perm_middle

/-- A directory in the tree is listed as before, but for the entry that is absorbed. -/
theorem AdjacentPair.entriesOf_perm (h : AdjacentPair p sb s) (hiso : Isolated p sb s) {d : ℕ}
    (hd : d ∈ tree p sb) : (entriesOf (absorb p sb s) sb d).Perm (remainingEntries p sb s d) := by
  have hsb := wellFormed_of_parsePrimarySb h.parses
  have hread {inode : Inode} :
      readInode (absorb p sb s) sb d = .ok inode ↔ readInode p sb d = .ok inode :=
    hiso.readInode_eq hsb hd
  have hlisted {q : Bytes} {inode : Inode} (hq : readInode q sb d = .ok inode) :
      entriesOf q sb d = (List.range 12).flatMap fun k => directBlock q sb
        (inode.direct.toList.getD k 0) (inode.size.toNat - k * sb.blockBytes) := by
    rw [entriesOf, listDirAll_eq_ok_iff.mpr ⟨inode, hq, rfl⟩, ← listDirEntries_eq hsb]
  unfold remainingEntries
  by_cases hdir : d = s.dir
  · subst hdir
    have haddr : s.inode.direct.toList.getD s.slot 0 = s.addr := by
      unfold Place.addr
      simp
    have hperm : (entriesOf p sb s.dir).Perm
        ((s.next p sb).record p sb :: entriesOf (absorb p sb s) sb s.dir) := by
      rw [hlisted h.dinode, hlisted (hread.mpr h.dinode)]
      refine flatMap_perm_cons List.nodup_range (List.mem_range.mpr s.slot.isLt) ?_ ?_
      · rw [haddr]
        exact h.directBlock_perm hiso
      · intro k hk hne
        exact (hiso.directBlock_eq hd h.dinode (List.mem_range.mp hk)
          fun hc => hne (congrArg Fin.val hc.2)).symm
    rw [if_pos rfl]
    have herase := hperm.erase ((s.next p sb).record p sb)
    rw [List.erase_cons_head] at herase
    exact herase.symm
  · rw [if_neg hdir]
    cases hinode : readInode p sb d with
    | ok inode =>
      rw [hlisted hinode, hlisted (hread.mpr hinode)]
      refine List.Perm.of_eq (List.flatMap_congr fun k hk => ?_)
      exact hiso.directBlock_eq hd hinode (List.mem_range.mp hk) fun hc => hdir hc.1
    | error err =>
      -- what cannot be read before cannot be read after, and neither is listed
      have hnone {q : Bytes} (hq : ∀ inode, readInode q sb d ≠ .ok inode) :
          entriesOf q sb d = [] := by
        unfold entriesOf
        cases hlist : listDirAll q sb d with
        | error e => rfl
        | ok entries =>
          obtain ⟨inode, hok, -⟩ := listDirAll_eq_ok_iff.mp hlist
          exact absurd hok (hq inode)
      have hbefore : ∀ inode, readInode p sb d ≠ .ok inode := by
        intro inode hok
        rw [hinode] at hok
        cases hok
      rw [hnone hbefore, hnone fun inode hok => hbefore inode (hread.mp hok)]

theorem remainingEntries_sublist (d : ℕ) :
    (remainingEntries p sb s d).Sublist (entriesOf p sb d) := by
  unfold remainingEntries
  split_ifs
  · exact List.erase_sublist
  · exact List.Sublist.refl _

theorem AdjacentPair.mem_remainingEntries_iff (h : AdjacentPair p sb s) {d : ℕ} {e : DirEntry}
    (he : e.deleted = true) : e ∈ remainingEntries p sb s d ↔ e ∈ entriesOf p sb d := by
  have hne : e ≠ (s.next p sb).record p sb := by
    rintro rfl
    rw [h.live.1] at he
    cases he
  unfold remainingEntries
  split_ifs
  · exact List.mem_erase_of_ne hne
  · rfl

theorem StillNamed.mem_tree {d : ℕ} (hd : StillNamed p sb s d) : d ∈ tree p sb := by
  induction hd with
  | root => exact mem_tree_iff.mpr .refl
  | step _ he hlive hdir ih =>
    refine mem_tree_iff.mpr ((mem_tree_iff.mp ih).tail ?_)
    exact List.mem_filterMap.mpr ⟨_, (remainingEntries_sublist _).subset he, if_pos ⟨hlive, hdir⟩⟩

theorem AdjacentPair.mem_tree_absorb_iff (h : AdjacentPair p sb s) (hiso : Isolated p sb s)
    {d : ℕ} : d ∈ tree (absorb p sb s) sb ↔ StillNamed p sb s d := by
  rw [mem_tree_iff]
  constructor
  · intro hd
    induction hd with
    | refl => exact .root
    | tail _ hsub ih =>
      obtain ⟨e, he, hsome⟩ := List.mem_filterMap.mp hsub
      have hmem := (h.entriesOf_perm hiso ih.mem_tree).subset he
      unfold DirEntry.subdir at hsome
      split_ifs at hsome with hdir
      rw [← Option.some.inj hsome]
      exact .step ih hmem hdir.1 hdir.2
  · intro hd
    induction hd with
    | root => exact .refl
    | step hd he hlive hdir ih =>
      refine ih.tail (List.mem_filterMap.mpr ⟨_, ?_, if_pos ⟨hlive, hdir⟩⟩)
      exact (h.entriesOf_perm hiso hd.mem_tree).symm.subset he

theorem AdjacentPair.budget_absorb (h : AdjacentPair p sb s) (hiso : Isolated p sb s)
    (hbudget : 1 + ∑ d ∈ treeDirs p sb, (subdirs p sb d).length ≤ WALK_BUDGET) :
    1 + ∑ d ∈ treeDirs (absorb p sb s) sb, (subdirs (absorb p sb s) sb d).length ≤ WALK_BUDGET := by
  have htree : treeDirs (absorb p sb s) sb ⊆ treeDirs p sb := by
    intro d hd
    rw [mem_treeDirs_iff, h.mem_tree_absorb_iff hiso] at hd
    exact mem_treeDirs_iff.mpr hd.mem_tree
  have hless : ∀ d ∈ treeDirs (absorb p sb s) sb,
      (subdirs (absorb p sb s) sb d).length ≤ (subdirs p sb d).length := by
    intro d hd
    have hperm := h.entriesOf_perm hiso (mem_treeDirs_iff.mp (htree hd))
    exact (hperm.filterMap _).length_eq.trans_le
      ((remainingEntries_sublist d).filterMap _).length_le
  have hsum := (Finset.sum_le_sum hless).trans
    (Finset.sum_le_sum_of_subset (f := fun d => (subdirs p sb d).length) htree)
  omega

end Listings

/-- Recovery of `q` brings back the removed entry: its name, and, if inode `m` is carved, the name
with the file. -/
structure RecoversEntry (sha256 : Bytes → Vector UInt8 32) (q : Bytes) (m : ℕ)
    (name : List UInt8) : Prop where
  dirent : ∃ ino, .deletedDirent (decodeName name) ino ∈ recoverDeleted sha256 q
  paired : ∀ found size content digest, .deletedFile found m size content digest ∈
    recoverDeleted sha256 q → found = some (decodeName name)

/-- The bitmap of inode `n` is readable, and its dinode describes a regular file, not empty, that
starts in a data block and fits the partition. -/
structure Carvable (p : Bytes) (sb : Superblock) (n : ℕ) : Prop where
  lt_inodes : n < sb.inodesPerGroup * sb.ncg.toNat
  bitmap : BitmapReadable p sb (n / sb.inodesPerGroup)
  file : ∃ inode, readInode p sb n = .ok inode ∧ inode.isRegular = true ∧ inode.size ≠ 0 ∧
    inode.firstBlock ≠ 0 ∧ inode.size.toNat ≤ p.len

section Freed

variable {p : Bytes} {sb : Superblock} {s : Place}

theorem AdjacentPair.parsePrimarySb_absorb (h : AdjacentPair p sb s) (hiso : Isolated p sb s) :
    parsePrimarySb (absorb p sb s) = .ok sb := by
  have hagree : AgreeOn (absorb p sb s) p primaryRegions := ⟨absorb_len p sb s, hiso.superblock⟩
  rw [parsePrimarySb_congr hagree, h.parses]

/-- Whether a regular file can be read depends on its size only. -/
theorem exists_intact_iff (hsb : sb.WellFormed) {n : ℕ} :
    (∃ inode content, Intact p sb n inode content) ↔
      ∃ inode, readInode p sb n = .ok inode ∧ inode.isRegular = true ∧ inode.size ≠ 0 ∧
        inode.firstBlock ≠ 0 ∧ inode.size.toNat ≤ p.len := by
  constructor
  · rintro ⟨inode, content, h⟩
    obtain ⟨inode', hinode, hread⟩ := readFile_eq_ok_iff.mp h.content_eq
    obtain rfl := Except.ok.inj (h.dinode.symm.trans hinode)
    exact ⟨inode, h.dinode, h.regular, h.size_ne, h.direct_ne, (readInodeFile_len hread).1⟩
  · rintro ⟨inode, hinode, hregular, hsize, hdirect, hle⟩
    obtain ⟨content, hread, -⟩ := BlockMap.readInodeFile_filled hsb hle
    exact ⟨inode, content, hinode, hregular, hsize, hdirect,
      readFile_eq_ok_iff.mpr ⟨inode, hinode, hread⟩⟩

theorem Isolated.readInode_freed_iff (hiso : Isolated p sb s) (hsb : sb.WellFormed)
    {inode : Inode} :
    readInode (absorb p sb s) sb ((s.next p sb).record p sb).ino = .ok inode ↔
      readInode p sb ((s.next p sb).record p sb).ino = .ok inode := by
  have hagree : AgreeOn (absorb p sb s) p (dinodeSpan sb ((s.next p sb).record p sb).ino) :=
    ⟨absorb_len p sb s, hiso.freed⟩
  exact ⟨readInode_congr hsb hagree, readInode_congr hsb hagree.symm⟩

theorem Isolated.bitmap_absorb_iff (hiso : Isolated p sb s) (hsb : sb.WellFormed) :
    (∃ used, cgInodeBitmap (absorb p sb s) sb
        (((s.next p sb).record p sb).ino / sb.inodesPerGroup) = some used ∧
      bitmapBit used (((s.next p sb).record p sb).ino % sb.inodesPerGroup) = false) ↔
    BitmapReadable p sb (((s.next p sb).record p sb).ino / sb.inodesPerGroup) := by
  have hagree : AgreeOn (absorb p sb s) p
      (headerSpan sb (((s.next p sb).record p sb).ino / sb.inodesPerGroup)) :=
    ⟨absorb_len p sb s, hiso.header⟩
  constructor
  · rintro ⟨used, hused, -⟩
    exact ((cgInodeBitmap_eq_some_iff hsb).mp hused).1.congr hagree
  · intro hread
    refine ⟨_, (cgInodeBitmap_eq_some_iff hsb).mpr ⟨hread.congr hagree.symm, rfl⟩, ?_⟩
    rw [← bitmapOff_congr hagree.symm hread.header_le]
    -- the bit is cleared last, in the image that has the new record length
    unfold absorb
    refine bitmapBit_clearBit ?_ (hread.bit_lt _)
    rw [Endian.putU16_len]
    exact hread.bitmap_le

/-- What is carved once its bit is clear can be told before. -/
theorem Isolated.carvable_iff (hiso : Isolated p sb s) (hsb : sb.WellFormed) :
    Carvable p sb ((s.next p sb).record p sb).ino ↔
      ((s.next p sb).record p sb).ino < sb.inodesPerGroup * sb.ncg.toNat ∧
        (∃ used, cgInodeBitmap (absorb p sb s) sb
            (((s.next p sb).record p sb).ino / sb.inodesPerGroup) = some used ∧
          bitmapBit used (((s.next p sb).record p sb).ino % sb.inodesPerGroup) = false) ∧
        ∃ inode content, Intact (absorb p sb s) sb ((s.next p sb).record p sb).ino inode content := by
  rw [hiso.bitmap_absorb_iff hsb, exists_intact_iff hsb, absorb_len]
  simp only [hiso.readInode_freed_iff hsb]
  exact ⟨fun h => ⟨h.lt_inodes, h.bitmap, h.file⟩, fun h => ⟨h.1, h.2.1, h.2.2⟩⟩

end Freed

section Recovery

variable {q : Bytes} {sb : Superblock} {sha256 : Bytes → Vector UInt8 32}

theorem mem_recoverDeleted_dirent_iff (hq : parsePrimarySb q = .ok sb) {name : String} {ino : ℕ} :
    .deletedDirent name ino ∈ recoverDeleted sha256 q ↔
      (name, ino) ∈ collectDeletedDirents q sb := by
  have hsb := wellFormed_of_parsePrimarySb hq
  rw [recoverDeleted, hq]
  simp only [recoverFrom, List.mem_append, List.mem_map]
  constructor
  · rintro (⟨d, hd, hitem⟩ | hitem)
    · injection hitem with hname hino
      rw [← hname, ← hino]
      exact hd
    · obtain ⟨_, -, -, -, _, _, -, hitem⟩ := (mem_carveDeletedInodes_iff hsb).mp hitem
      simp [carvedItem] at hitem
  · intro hd
    exact Or.inl ⟨_, hd, rfl⟩

/-- Every file carved is without a name. -/
theorem mem_recoverDeleted_file_iff (hq : parsePrimarySb q = .ok sb) {m size : ℕ} (hm : 3 ≤ m)
    {found : Option String} {content : Bytes} {digest : String} :
    .deletedFile found m size content digest ∈ recoverDeleted sha256 q ↔ found = none ∧
      m < sb.inodesPerGroup * sb.ncg.toNat ∧
      (∃ used, cgInodeBitmap q sb (m / sb.inodesPerGroup) = some used ∧
        bitmapBit used (m % sb.inodesPerGroup) = false) ∧
      ∃ inode, Intact q sb m inode content ∧ size = inode.size.toNat ∧
        digest = sha256Hex sha256 content := by
  have hsb := wellFormed_of_parsePrimarySb hq
  rw [recoverDeleted, hq]
  simp only [recoverFrom, List.mem_append, List.mem_map, reduceCtorEq, and_false, exists_false,
    false_or]
  rw [mem_carveDeletedInodes_iff hsb]
  constructor
  · rintro ⟨n, hn, hlt, hfree, inode, content', hin, hitem⟩
    rw [carvedItem_unnamed sha256 hn] at hitem
    injection hitem with hfound hino hsize hcontent hdigest
    subst hino hcontent
    exact ⟨hfound, hlt, hfree, inode, hin, hsize, hdigest⟩
  · rintro ⟨rfl, hlt, hfree, inode, hin, rfl, rfl⟩
    refine ⟨m, hm, hlt, hfree, inode, content, hin, ?_⟩
    rw [carvedItem_unnamed sha256 hm]

end Recovery

/-- After an entry is absorbed, recovery brings it back only when a directory that is still named
already had a free slot with that name, and its inode cannot be carved. When the budget of the walk
covers the tree, it does so exactly then. -/
theorem recoversEntry_absorb {p : Bytes} {sb : Superblock} {s : Place}
    (h : AdjacentPair p sb s) (hiso : Isolated p sb s) (sha256 : Bytes → Vector UInt8 32) :
    (RecoversEntry sha256 (absorb p sb s) ((s.next p sb).record p sb).ino
        ((s.next p sb).record p sb).name →
      HeldElsewhere p sb s ((s.next p sb).record p sb).name ∧
        ¬ Carvable p sb ((s.next p sb).record p sb).ino) ∧
    (1 + ∑ d ∈ treeDirs p sb, (subdirs p sb d).length ≤ WALK_BUDGET →
      HeldElsewhere p sb s ((s.next p sb).record p sb).name →
        ¬ Carvable p sb ((s.next p sb).record p sb).ino →
          RecoversEntry sha256 (absorb p sb s) ((s.next p sb).record p sb).ino
            ((s.next p sb).record p sb).name) := by
  have hq := h.parsePrimarySb_absorb hiso
  rw [hiso.carvable_iff (wellFormed_of_parsePrimarySb h.parses)]
  constructor
  · intro hrec
    constructor
    · obtain ⟨ino, hmem⟩ := hrec.dirent
      obtain ⟨d, hd, e, he, hres, hpair⟩ :=
        mem_collectDeletedDirents_iff.mp ((mem_recoverDeleted_dirent_iff hq).mp hmem)
      have hnamed := (h.mem_tree_absorb_iff hiso).mp (mem_tree_of_mem_walkedDirs hd)
      have hkept := (h.entriesOf_perm hiso hnamed.mem_tree).subset he
      exact ⟨d, hnamed, e, (h.mem_remainingEntries_iff hres.1).mp hkept, hres,
        (congrArg Prod.fst hpair).symm⟩
    · -- a carved file is always without a name
      rintro ⟨hlt, hfree, inode, content, hin⟩
      have hcarved := hrec.paired none inode.size.toNat content (sha256Hex sha256 content)
        ((mem_recoverDeleted_file_iff hq h.three_le).mpr ⟨rfl, hlt, hfree, inode, hin, rfl, rfl⟩)
      cases hcarved
  · rintro hbudget ⟨d, hnamed, e, he, hres, hname⟩ hnot
    constructor
    · have hd := ((collectDeletedDirents_complete (h.budget_absorb hiso hbudget)).2.1 d).mpr
        ((h.mem_tree_absorb_iff hiso).mpr hnamed)
      have hkept := (h.mem_remainingEntries_iff hres.1).mpr he
      refine ⟨e.ino, (mem_recoverDeleted_dirent_iff hq).mpr (mem_collectDeletedDirents_iff.mpr
        ⟨d, hd, e, (h.entriesOf_perm hiso hnamed.mem_tree).symm.subset hkept, hres, ?_⟩)⟩
      rw [hname]
    · intro found size content digest hmem
      obtain ⟨-, hlt, hfree, inode, hin, -, -⟩ :=
        (mem_recoverDeleted_file_iff hq h.three_le).mp hmem
      exact absurd ⟨hlt, hfree, inode, content, hin⟩ hnot

namespace Crafted

/-- A volume whose root holds the record `a`, of 16 bytes, and the given ones; inode 3 is a regular
file of the given size. -/
def pairVolume (size : ℕ) (records : List UInt8) : Bytes :=
  volume (tiny.cgHeader 0 [0x1f] ++ tiny.dinode 2 DIR_MODE 512 [24] ++
    tiny.dinode 3 REG_MODE size [26] ++ tiny.dinode 4 REG_MODE 5 [27] ++
    [(24 * 512, tiny.direct 4 16 8 [97] ++ records), (26 * 512, [104, 101, 108, 108, 111])])

/-- The record `b` names inode 3, which holds `hello`. -/
def pair : Bytes := pairVolume 5 (tiny.direct 3 496 8 [98])

/-- The record `b` names inode 3, which is empty, and a free slot is called `b` too. -/
def twin : Bytes := pairVolume 0 (tiny.direct 3 16 8 [98] ++ tiny.direct 0 480 8 [98])

def pairPlace : Place where
  dir := 2
  inode := inode DIR_MODE .directory 512 [24] 0
  slot := 0
  off := 0

theorem adjacentPair_pair : AdjacentPair pair tinySb pairPlace where
  parses := parsePrimarySb_volume (by decide)
  visited := by decide +kernel
  dinode := by decide +kernel
  addr_ne := by decide
  walked := ⟨[], .start⟩
  first_fits := by decide +kernel
  second_fits := by decide +kernel
  inside := by decide +kernel
  one_block := by decide +kernel
  live := by decide +kernel
  three_le := by decide +kernel

theorem adjacentPair_twin : AdjacentPair twin tinySb pairPlace where
  parses := parsePrimarySb_volume (by decide)
  visited := by decide +kernel
  dinode := by decide +kernel
  addr_ne := by decide
  walked := ⟨[], .start⟩
  first_fits := by decide +kernel
  second_fits := by decide +kernel
  inside := by decide +kernel
  one_block := by decide +kernel
  live := by decide +kernel
  three_le := by decide +kernel

theorem pair_slots : ∀ k : Fin 12, pairPlace.inode.direct[k] ≠ 0 → k = pairPlace.slot := by
  decide

theorem pair_slotSpan : slotSpan tinySb pairPlace.inode pairPlace.slot = Set.Ico 12288 12800 := by
  obtain ⟨hfrag, hblock, -⟩ := tinySb_places
  have hstart : pairPlace.inode.direct[pairPlace.slot].toNat * tinySb.fragBytes = 12288 := by
    rw [hfrag]
    decide
  have hsize : min (pairPlace.inode.size.toNat - pairPlace.slot * tinySb.blockBytes)
      tinySb.blockBytes = 512 := by
    rw [hblock]
    decide
  rw [slotSpan, blockSpan, hstart, hsize]

section Isolated

variable {v : Bytes} (hbyte : bitByte v tinySb pairPlace = 10408)
include hbyte

theorem absorb_pair_byte {i : ℕ} (h : i ≠ 12292) (h' : i ≠ 12293) (hbit : i ≠ 10408) :
    (absorb v tinySb pairPlace).byte i = v.byte i := by
  have hrecord : pairPlace.addr.toNat * tinySb.fragBytes + pairPlace.off = 12288 := by
    rw [tinySb_places.1]
    decide
  apply absorb_byte
  · rw [hrecord]
    unfold OFF_RECLEN OFF_TYPE
    omega
  · rwa [hbyte]

theorem isolated_of_tree (h : AdjacentPair v tinySb pairPlace)
    (hino : ((pairPlace.next v tinySb).record v tinySb).ino = 3) (htree : tree v tinySb ⊆ {2}) :
    Isolated v tinySb pairPlace := by
  obtain ⟨-, -, hsize, hheader, hroot, hfile⟩ := tinySb_places
  have hdinode : dinodeSpan tinySb 2 = Set.Ico 11008 11136 := by
    rw [dinodeSpan, hroot, hsize]
  constructor
  · intro i hi
    simp only [primaryRegions, SBLOCK_UFS1, SBLOCK_UFS2, SB_MIN_LEN, Set.mem_union,
      Set.mem_Ico] at hi
    exact absorb_pair_byte hbyte (by omega) (by omega) (by omega)
  · intro d hd inode _ i hi
    rw [htree hd, hdinode, Set.mem_Ico] at hi
    exact absorb_pair_byte hbyte (by omega) (by omega) (by omega)
  · intro d hd inode hinode k hk hne
    rw [htree hd] at hinode
    obtain rfl := Except.ok.inj (h.dinode.symm.trans hinode)
    exact absurd ⟨htree hd, pair_slots k hne⟩ hk
  · rw [pair_slotSpan, hbyte, Set.mem_Ico]
    omega
  · intro i hi
    rw [hino, headerSpan, hheader, CylinderGroup.CG_MIN_LEN, Set.mem_Ico] at hi
    exact absorb_pair_byte hbyte (by omega) (by omega) (by omega)
  · intro i hi
    rw [hino, dinodeSpan, hfile, hsize, Set.mem_Ico] at hi
    exact absorb_pair_byte hbyte (by omega) (by omega) (by omega)

end Isolated

/-- The root names no directory, `b` names inode 3, and there is no free slot after the edit. -/
theorem pair_root : subdirs pair tinySb 2 = [] ∧ bitByte pair tinySb pairPlace = 10408 ∧
    ((pairPlace.next pair tinySb).record pair tinySb).ino = 3 ∧
    collectDeletedDirents (absorb pair tinySb pairPlace) tinySb = [] := by decide +kernel

/-- The root names no directory, `b` names inode 3, which is empty, and a free slot is called `b`. -/
theorem twin_root : subdirs twin tinySb 2 = [] ∧ bitByte twin tinySb pairPlace = 10408 ∧
    ((pairPlace.next twin tinySb).record twin tinySb).ino = 3 ∧
    (readInode twin tinySb 3).map Inode.size = .ok 0 ∧
    ∃ e ∈ entriesOf twin tinySb 2, e.Residue ∧ decodeName e.name =
      decodeName ((pairPlace.next twin tinySb).record twin tinySb).name := by decide +kernel

theorem tree_subset_root {v : Bytes} (h : subdirs v tinySb 2 = []) : tree v tinySb ⊆ {2} := by
  refine tree_subset rfl ?_
  rintro d rfl n hn
  rw [← mem_subdirs_iff, h] at hn
  exact absurd hn List.not_mem_nil

theorem isolated_pair : Isolated pair tinySb pairPlace := by
  obtain ⟨hsub, hbyte, hino, -⟩ := pair_root
  exact isolated_of_tree hbyte adjacentPair_pair hino (tree_subset_root hsub)

theorem isolated_twin : Isolated twin tinySb pairPlace := by
  obtain ⟨hsub, hbyte, hino, -⟩ := twin_root
  exact isolated_of_tree hbyte adjacentPair_twin hino (tree_subset_root hsub)

theorem budget_twin :
    1 + ∑ d ∈ treeDirs twin tinySb, (subdirs twin tinySb d).length ≤ WALK_BUDGET := by
  have hzero : ∀ d ∈ treeDirs twin tinySb, (subdirs twin tinySb d).length = 0 := by
    intro d hd
    obtain rfl : d = 2 := tree_subset_root twin_root.1 (mem_treeDirs_iff.mp hd)
    rw [twin_root.1, List.length_nil]
  rw [Finset.sum_eq_zero hzero]
  decide

theorem heldElsewhere_twin : HeldElsewhere twin tinySb pairPlace
    ((pairPlace.next twin tinySb).record twin tinySb).name := by
  obtain ⟨-, -, -, -, hslot⟩ := twin_root
  exact ⟨UFS_ROOTINO, .root, hslot⟩

theorem not_carvable_twin : ¬ Carvable twin tinySb
    ((pairPlace.next twin tinySb).record twin tinySb).ino := by
  obtain ⟨-, -, hino, hsize, -⟩ := twin_root
  rintro ⟨-, -, inode, hinode, -, hne, -⟩
  rw [hino] at hinode
  rw [hinode] at hsize
  exact hne (Except.ok.inj hsize)

end Crafted

/-- The twin of `b` stands in for it. -/
theorem recoversEntry_absorb_twin :
    RecoversEntry Crafted.helloDigest (absorb Crafted.twin Crafted.tinySb Crafted.pairPlace)
      ((Crafted.pairPlace.next Crafted.twin Crafted.tinySb).record Crafted.twin Crafted.tinySb).ino
      ((Crafted.pairPlace.next Crafted.twin Crafted.tinySb).record Crafted.twin
        Crafted.tinySb).name :=
  (recoversEntry_absorb Crafted.adjacentPair_twin Crafted.isolated_twin Crafted.helloDigest).2
    Crafted.budget_twin Crafted.heldElsewhere_twin Crafted.not_carvable_twin

/-- The name `b` of the crafted volume is lost once `a` absorbs it. -/
theorem absorbed_entry_lost : AdjacentPair Crafted.pair Crafted.tinySb Crafted.pairPlace ∧
    Isolated Crafted.pair Crafted.tinySb Crafted.pairPlace ∧
    ¬ RecoversEntry Crafted.helloDigest (absorb Crafted.pair Crafted.tinySb Crafted.pairPlace)
      ((Crafted.pairPlace.next Crafted.pair Crafted.tinySb).record Crafted.pair Crafted.tinySb).ino
      ((Crafted.pairPlace.next Crafted.pair Crafted.tinySb).record Crafted.pair
        Crafted.tinySb).name := by
  refine ⟨Crafted.adjacentPair_pair, Crafted.isolated_pair, fun h => ?_⟩
  have hq := Crafted.adjacentPair_pair.parsePrimarySb_absorb Crafted.isolated_pair
  obtain ⟨-, -, -, hnone⟩ := Crafted.pair_root
  obtain ⟨ino, hmem⟩ := h.dirent
  rw [mem_recoverDeleted_dirent_iff hq, hnone] at hmem
  exact absurd hmem List.not_mem_nil

end UfsForensic
