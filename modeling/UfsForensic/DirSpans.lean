import UfsForensic.DirContent
import UfsForensic.Lib.Fields

/-!
# The room that directory entries take

Whatever the lengths in a block say, each entry comes from a part of the block of its own, a head and
the bytes of its name. So the entries of a block take no more room than the block, and those of a
directory no more than its `di_size`.
-/

namespace UfsForensic

variable {block : Bytes} {endian : Endian}

/-- The bytes an entry takes: its head and its name. -/
def DirEntry.width (e : DirEntry) : ℕ := DIRECT_HEAD + e.name.length

def room (entries : List DirEntry) : ℕ := (entries.map DirEntry.width).sum

@[simp] theorem room_append (es es' : List DirEntry) : room (es ++ es') = room es + room es' := by
  rw [room, List.map_append, List.sum_append]
  rfl

/-- Each entry, paired with the offset of its head, comes from a part of the block of its own: the
head lies in the block, the name is what follows it, and the next head comes after both. -/
structure Apportioned (block : Bytes) (pairs : List (ℕ × DirEntry)) : Prop where
  order : pairs.Pairwise fun a b => a.1 + DIRECT_HEAD ≤ b.1 ∧ a.1 + a.2.width ≤ b.1
  head_le : ∀ a ∈ pairs, a.1 + DIRECT_HEAD ≤ block.len
  end_le : ∀ a ∈ pairs, a.1 + a.2.width ≤ block.len
  name_eq : ∀ a ∈ pairs,
    a.2.name = (block.slice (a.1 + OFF_NAME) a.2.name.length).toList

/-- The cursor has come to where the walk ends: no head fits, or its `d_reclen` is below 8. -/
def Stops (block : Bytes) (endian : Endian) (off : ℕ) : Prop :=
  block.len < off + DIRECT_HEAD ∨ reclenAt block endian off < DIRECT_HEAD

/-- From every position the walk comes to its end, with the entries it decodes on the way. -/
theorem Walked.exists_stops {off : ℕ} {pre : List DirEntry} (h : Walked block endian off pre) :
    ∃ stop, Walked block endian stop (pre ++ walkFrom block endian off) ∧
      Stops block endian stop := by
  induction off using walk_induction block endian generalizing pre with
  | past off hpast =>
    rw [walkFrom_of_past hpast, List.append_nil]
    exact ⟨off, h, Or.inl hpast⟩
  | short off _ hshort =>
    rw [walkFrom_of_short hshort, List.append_nil]
    exact ⟨off, h, Or.inr hshort⟩
  | record off hhead hfit ih =>
    rw [walkFrom_of_record hhead hfit, List.append_cons]
    exact ih (h.next hhead hfit)

theorem recordAt_name_length {off : ℕ} (hhead : off + DIRECT_HEAD ≤ block.len) :
    (recordAt block endian off (reclenAt block endian off)).name.length =
      min (nameEndAt block endian off) block.len - (off + OFF_NAME) := by
  rw [recordAt_name hhead, Bytes.toList_length, Bytes.slice_len]
  omega

theorem Apportioned.nil : Apportioned block [] where
  order := List.Pairwise.nil
  head_le _ ha := absurd ha List.not_mem_nil
  end_le _ ha := absurd ha List.not_mem_nil
  name_eq _ ha := absurd ha List.not_mem_nil

theorem Apportioned.cons {off : ℕ} {e : DirEntry} {pairs : List (ℕ × DirEntry)}
    (h : Apportioned block pairs)
    (hnext : ∀ a ∈ pairs, off + DIRECT_HEAD ≤ a.1 ∧ off + e.width ≤ a.1)
    (hhead : off + DIRECT_HEAD ≤ block.len) (hend : off + e.width ≤ block.len)
    (hname : e.name = (block.slice (off + OFF_NAME) e.name.length).toList) :
    Apportioned block ((off, e) :: pairs) where
  order := List.pairwise_cons.mpr ⟨hnext, h.order⟩
  head_le := List.forall_mem_cons.mpr ⟨hhead, h.head_le⟩
  end_le := List.forall_mem_cons.mpr ⟨hend, h.end_le⟩
  name_eq := List.forall_mem_cons.mpr ⟨hname, h.name_eq⟩

theorem recordAt_width {off : ℕ} (hhead : off + DIRECT_HEAD ≤ block.len)
    (hfit : DIRECT_HEAD ≤ reclenAt block endian off) :
    off + (recordAt block endian off (reclenAt block endian off)).width ≤ block.len ∧
      (recordAt block endian off (reclenAt block endian off)).width ≤
        reclenAt block endian off := by
  have hlen : (recordAt block endian off (reclenAt block endian off)).name.length =
      min (nameEndAt block endian off) block.len - (off + OFF_NAME) := recordAt_name_length hhead
  unfold nameEndAt OFF_NAME at hlen
  unfold DirEntry.width
  unfold DIRECT_HEAD at hhead hfit ⊢
  omega

/-- The entries decoded from `off` on come from parts of the block that start there. -/
theorem walkFrom_apportioned (block : Bytes) (endian : Endian) (off : ℕ) :
    ∃ pairs : List (ℕ × DirEntry), pairs.map Prod.snd = walkFrom block endian off ∧
      (∀ a ∈ pairs, off ≤ a.1) ∧ Apportioned block pairs := by
  induction off using walk_induction block endian with
  | past off hpast =>
    exact ⟨[], (walkFrom_of_past hpast).symm, fun a ha => absurd ha List.not_mem_nil, .nil⟩
  | short off _ hshort =>
    exact ⟨[], (walkFrom_of_short hshort).symm, fun a ha => absurd ha List.not_mem_nil, .nil⟩
  | record off hhead hfit ih =>
    obtain ⟨pairs, hmap, hstart, hpairs⟩ := ih
    obtain ⟨hend, hwidth⟩ := recordAt_width hhead hfit
    refine ⟨(off, recordAt block endian off (reclenAt block endian off)) :: pairs, ?_, ?_, ?_⟩
    · rw [walkFrom_of_record hhead hfit, List.map_cons, hmap]
    · refine List.forall_mem_cons.mpr ⟨le_refl off, fun a ha => ?_⟩
      exact (Nat.le_add_right _ _).trans (hstart a ha)
    · refine hpairs.cons (fun a ha => ?_) hhead hend ?_
      · have := hstart a ha
        omega
      · rw [recordAt_name_length hhead, ← recordAt_name hhead]

/-- Entries that come from parts of their own take no more room than the block. -/
theorem Apportioned.room_le {pairs : List (ℕ × DirEntry)} (h : Apportioned block pairs) :
    room (pairs.map Prod.snd) ≤ block.len := by
  have horder : (pairs.map fun a => (a.1, a.2.width)).Pairwise fun s t => s.1 + s.2 ≤ t.1 :=
    List.pairwise_map.mpr (h.order.imp fun hab => hab.2)
  have hspans := Bytes.sum_widths_le (Nat.zero_le block.len) horder fun s hs => by
    obtain ⟨a, ha, rfl⟩ := List.mem_map.mp hs
    exact ⟨Nat.zero_le _, h.end_le a ha⟩
  rw [Nat.zero_add, List.map_map] at hspans
  rw [room, List.map_map]
  exact hspans

theorem room_walkFrom_le (block : Bytes) (endian : Endian) :
    room (walkFrom block endian 0) ≤ block.len := by
  obtain ⟨pairs, hmap, -, hpairs⟩ := walkFrom_apportioned block endian 0
  rw [← hmap]
  exact hpairs.room_le

variable {partition : Bytes} {sb : Superblock}

theorem readBlock_len_le {addr : UInt64} {len : ℕ}
    (h : readBlock partition sb addr len = .ok block) : block.len ≤ len := by
  unfold readBlock at h
  split_ifs at h with hf
  rw [← Except.ok.inj h]
  unfold Bytes.get
  split_ifs
  · rw [Option.getD_some, Bytes.slice_len]
    unfold satAdd
    omega
  · exact Nat.zero_le _

theorem room_walkPointers_le (bsize : ℕ) (ptrs : List UInt64) (remaining : ℕ)
    (entries : List DirEntry) :
    room (walkPointers partition sb bsize ptrs remaining entries) ≤ room entries + remaining := by
  induction ptrs generalizing remaining entries with
  | nil => exact Nat.le_add_right _ _
  | cons addr ptrs ih =>
    rw [walkPointers]
    split_ifs with hr ha
    · omega
    · exact (ih _ _).trans (by omega)
    cases hblock : readBlock partition sb addr (min remaining bsize) with
    | error err => exact Nat.le_add_right _ _
    | ok block =>
      have hlen := readBlock_len_le hblock
      have hroom := room_walkFrom_le block sb.endian
      have hnext := ih (remaining - bsize) (walkBlock block sb.endian entries)
      rw [walkBlock, room_append] at hnext
      exact hnext.trans (by omega)

theorem room_listDirEntries_le (inode : Inode) :
    room (listDirEntries partition sb inode) ≤ inode.size.toNat := by
  unfold listDirEntries
  split_ifs
  · exact Nat.zero_le _
  · exact (room_walkPointers_le _ _ _ _).trans_eq (Nat.zero_add _)
  · exact (room_walkPointers_le _ _ _ _).trans_eq (Nat.zero_add _)

/-- The walk of a block comes to its end, and the entries it appends come from disjoint parts of the
block, so they take no more room than it; the entries of a directory take no more than its
`di_size`. -/
theorem walkBlock_apportioned :
    (∀ (block : Bytes) (endian : Endian) (out : List DirEntry),
      ∃ (pairs : List (ℕ × DirEntry)) (stop : ℕ),
        walkBlock block endian out = out ++ pairs.map Prod.snd ∧
          Walked block endian stop (pairs.map Prod.snd) ∧ Stops block endian stop ∧
          Apportioned block pairs ∧ room (pairs.map Prod.snd) ≤ block.len) ∧
    (∀ (partition : Bytes) (sb : Superblock) (dirIno : ℕ) (inode : Inode)
      (entries : List DirEntry), readInode partition sb dirIno = .ok inode →
        listDirAll partition sb dirIno = .ok entries → room entries ≤ inode.size.toNat) := by
  constructor
  · intro block endian out
    obtain ⟨pairs, hmap, -, hpairs⟩ := walkFrom_apportioned block endian 0
    have hstart : Walked block endian 0 [] := .start
    obtain ⟨stop, hwalked, hstop⟩ := hstart.exists_stops
    rw [List.nil_append, ← hmap] at hwalked
    exact ⟨pairs, stop, by rw [walkBlock, hmap], hwalked, hstop, hpairs, hpairs.room_le⟩
  · intro partition sb dirIno inode entries hino hlist
    obtain ⟨inode', hino', rfl⟩ := listDirAll_eq_ok_iff.mp hlist
    obtain rfl := Except.ok.inj (hino.symm.trans hino')
    exact room_listDirEntries_le inode

theorem walkBlock_apportioned_longDir :
    room (listDirEntries Crafted.longDir Crafted.tinySb Crafted.longDirInode) ≤ 6656 :=
  walkBlock_apportioned.2 _ _ 2 Crafted.longDirInode _ Crafted.readInode_longDir.1
    (listDirAll_eq_ok_iff.mpr ⟨_, Crafted.readInode_longDir.1, rfl⟩)

end UfsForensic
