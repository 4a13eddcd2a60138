import UfsForensic.BlockLayout
import UfsForensic.DirContent
import UfsForensic.DirRecords
import UfsForensic.Lib.NodeTree
import UfsForensic.MountOffset
import UfsForensic.PathResolution

/-!
# Volumes

What a volume is for: it holds a tree of files, directories and links. A layout says which bytes
stand where, dinodes, directory records, pointer blocks and content; a partition that holds the
layout, in either version and byte order and whatever else it holds, is read as the tree.
-/

namespace UfsForensic

open Bytes (HasRun Run Stores)
open BlockMap (nindirOf)

/-- A node of a volume: inodes are known by number, names and contents are bytes. -/
abbrev VolumeNode := Node ℕ (List UInt8) UInt8

def VolumeNode.HasType (n : VolumeNode) (fileType : FileType) : Prop :=
  match n with
  | .file _ => fileType = .regular
  | .dir _ => fileType = .directory
  | .link _ => fileType = .symlink
  | .special => fileType ≠ .regular ∧ fileType ≠ .directory ∧ fileType ≠ .symlink

instance (n : VolumeNode) (fileType : FileType) : Decidable (n.HasType fileType) :=
  match n with
  | .file _ => inferInstanceAs (Decidable (fileType = .regular))
  | .dir _ => inferInstanceAs (Decidable (fileType = .directory))
  | .link _ => inferInstanceAs (Decidable (fileType = .symlink))
  | .special => inferInstanceAs (Decidable (_ ∧ _))

/-- The names and inodes of the live records of a directory. -/
def liveNames (blocks : List (List DirRecord × List UInt8)) : List (List UInt8 × ℕ) :=
  ((blocks.flatMap Prod.fst).filter fun r => r.ino ≠ 0).map fun r => (r.name, r.ino.toNat)

/-- What is laid out for an inode: the content of a file, a directory or a link in data blocks, the
target of a link in the pointer area, or nothing. The content of a directory comes with its records,
and what follows them, block by block. -/
inductive Body
  | file (content : List UInt8)
  | dir (content : List UInt8) (blocks : List (List DirRecord × List UInt8))
  | link (target : List UInt8)
  | inlineLink (target : List UInt8)
  | special

namespace Body

def content : Body → List UInt8
  | file content => content
  | dir content _ => content
  | link target => target
  | inlineLink _ => []
  | special => []

/-- The node that the inode is for its users. -/
def node : Body → VolumeNode
  | file content => .file content
  | dir _ blocks => .dir (liveNames blocks)
  | link target => .link target
  | inlineLink target => .link target
  | special => .special

theorem exists_eq_dir {b : Body} {es : List (List UInt8 × ℕ)} (h : b.node = .dir es) :
    ∃ content blocks, b = .dir content blocks ∧ liveNames blocks = es := by
  cases b with
  | dir content blocks => exact ⟨content, blocks, rfl, Node.dir.inj h⟩
  | file content => cases h
  | link target => cases h
  | inlineLink target => cases h
  | special => cases h

theorem eq_file {b : Body} {content : List UInt8} (h : b.node = .file content) :
    b = .file content := by
  cases b with
  | file c => rw [show c = content from Node.file.inj h]
  | dir content blocks => cases h
  | link target => cases h
  | inlineLink target => cases h
  | special => cases h

theorem eq_link {b : Body} {target : List UInt8} (h : b.node = .link target) :
    b = .link target ∨ b = .inlineLink target := by
  cases b with
  | link t => exact Or.inl (by rw [show t = target from Node.link.inj h])
  | inlineLink t => exact Or.inr (by rw [show t = target from Node.link.inj h])
  | file content => cases h
  | dir content blocks => cases h
  | special => cases h

end Body

structure Item where
  ino : ℕ
  dinode : Dinode
  body : Body

namespace Item

def inode (x : Item) (sb : Superblock) : Inode := x.dinode.toInode sb.version none

def area (x : Item) (sb : Superblock) : List UInt8 :=
  (x.dinode.direct.toList ++ x.dinode.indirect.toList).flatMap (PtrBlocks.ptrBytes sb)

/-- The stored fields at the address of the dinode, and the content at the addresses of its
blocks. -/
def runs (x : Item) (t : PtrBlocks) (sb : Superblock) : List Run :=
  ((x.dinode.fields sb.version sb.endian).map fun r => (sb.dinodeOff x.ino + r.1, r.2)) ++
    dataRuns t sb (x.inode sb) x.body.content

end Item

/-- Links with targets of this length are read from the pointer area. -/
def InlineLength (sb : Superblock) (n : ℕ) : Prop :=
  0 < sb.maxsymlinklen.toInt ∧ (n : ℤ) ≤ sb.maxsymlinklen.toInt

/-- The content of a directory is its records, block by block, within the direct blocks. -/
structure DirLaidOut (sb : Superblock) (content : List UInt8)
    (blocks : List (List DirRecord × List UInt8)) : Prop where
  within : content.length ≤ 12 * sb.blockBytes
  count : blocks.length = divCeil content.length sb.blockBytes
  piece : ∀ k, (hk : k < blocks.length) → chunk content sb.blockBytes k =
    blocks[k].1.flatMap (DirRecord.encode sb.endian) ++ blocks[k].2
  ends : ∀ b ∈ blocks, EndsWalk sb.endian b.2

/-- What is laid out for the inode fits its stored fields. -/
structure Item.Valid (x : Item) (t : PtrBlocks) (sb : Superblock) : Prop where
  lt_inodes : x.ino < sb.inodesPerGroup * sb.ncg.toNat
  inRange : x.dinode.InRange sb.version
  fileType : VolumeNode.HasType x.body.node (.fromMode x.dinode.mode)
  laidOut : match x.body with
    | .file content => LaidOut t sb (x.inode sb) content
    | .dir content blocks => LaidOut t sb (x.inode sb) content ∧ DirLaidOut sb content blocks
    | .link target => LaidOut t sb (x.inode sb) target ∧ ¬ InlineLength sb target.length
    | .inlineLink target => x.dinode.size.toNat = target.length ∧
        InlineLength sb target.length ∧ target <+: x.area sb
    | .special => True

namespace Item.Valid

variable {x : Item} {t : PtrBlocks} {sb : Superblock} (h : x.Valid t sb)
include h

theorem regular {content : List UInt8} (hbody : x.body = .file content) :
    FileType.fromMode x.dinode.mode = .regular := by
  have htype := h.fileType
  rw [hbody] at htype
  exact htype

theorem directory {content : List UInt8} {blocks : List (List DirRecord × List UInt8)}
    (hbody : x.body = .dir content blocks) : FileType.fromMode x.dinode.mode = .directory := by
  have htype := h.fileType
  rw [hbody] at htype
  exact htype

theorem laidOut_file {content : List UInt8} (hbody : x.body = .file content) :
    LaidOut t sb (x.inode sb) content := by
  have hlaid := h.laidOut
  rw [hbody] at hlaid
  exact hlaid

theorem laidOut_dir {content : List UInt8} {blocks : List (List DirRecord × List UInt8)}
    (hbody : x.body = .dir content blocks) :
    LaidOut t sb (x.inode sb) content ∧ DirLaidOut sb content blocks := by
  have hlaid := h.laidOut
  rw [hbody] at hlaid
  exact hlaid

theorem exists_file (hregular : FileType.fromMode x.dinode.mode = .regular) :
    ∃ content, x.body = .file content := by
  have htype := h.fileType
  rw [hregular] at htype
  cases hbody : x.body with
  | file content => exact ⟨content, rfl⟩
  | dir content blocks =>
    rw [hbody] at htype
    cases htype
  | link target =>
    rw [hbody] at htype
    cases htype
  | inlineLink target =>
    rw [hbody] at htype
    cases htype
  | special =>
    rw [hbody] at htype
    exact absurd rfl htype.1

end Item.Valid

/-- The geometry, the pointer blocks and the inodes of a volume. -/
structure Layout where
  sb : Superblock
  table : PtrBlocks
  items : List Item

namespace Layout

def runs (L : Layout) : List Run :=
  L.table.runs L.sb ++ L.items.flatMap fun x => x.runs L.table L.sb

/-- The superblock at the offset of its version, and the layout. -/
def volumeRuns (L : Layout) : List Run :=
  (L.sb.fields.map fun r => (L.sb.version.primaryOffset + r.1, r.2)) ++ L.runs

/-- The tree that the layout stands for. -/
def tree (L : Layout) : NodeTree ℕ (List UInt8) UInt8 where
  root := UFS_ROOTINO
  node i := (L.items.find? fun x => x.ino == i).map fun x => x.body.node

/-- The geometry is usable, every inode is laid out, and every live record names one. -/
structure Valid (L : Layout) : Prop where
  wellFormed : L.sb.WellFormed
  ipg_pos : 0 < L.sb.ipg.toInt
  fpg_pos : 0 < L.sb.fpg.toInt
  iblkno_nonneg : 0 ≤ L.sb.iblkno.toInt
  room : nindirOf L.sb * L.sb.version.ptrSize ≤ L.sb.blockBytes
  holds : ∀ b ∈ L.table, ∀ x ∈ b.2, L.sb.version.HoldsPtr x
  item : ∀ x ∈ L.items, x.Valid L.table L.sb
  root : (L.tree.node UFS_ROOTINO).isSome = true
  entry : ∀ x ∈ L.items, ∀ e ∈ L.tree.entries x.ino, (L.tree.node e.2).isSome = true

/-- The partition holds the layout: all its runs, and room for its dinodes and its files. -/
structure Held (L : Layout) (p : Bytes) : Prop where
  valid : L.Valid
  stores : ∀ r ∈ L.runs, Stores p r
  located : ∀ x ∈ L.items, L.sb.dinodeOff x.ino + L.sb.inodeSize ≤ p.len
  fits : ∀ x ∈ L.items, x.body.content.length ≤ p.len

/-- The volume can be written over a partition of `len` bytes: its runs lie apart and inside, and
there is room for its dinodes and its files. -/
structure Writable (L : Layout) (len : ℕ) : Prop where
  valid : L.Valid
  apart : L.volumeRuns.Pairwise Run.Apart
  inside : ∀ r ∈ L.volumeRuns, r.1 + r.2.length ≤ len
  located : ∀ x ∈ L.items, L.sb.dinodeOff x.ino + L.sb.inodeSize ≤ len
  fits : ∀ x ∈ L.items, x.body.content.length ≤ len

def write (L : Layout) (base : Bytes) : Bytes := base.writeAll L.volumeRuns

theorem Writable.held {L : Layout} {base : Bytes} (h : L.Writable base.len) :
    L.Held (L.write base) where
  valid := h.valid
  stores r hr := Bytes.writeAll_stores h.apart h.inside r (List.mem_append_right _ hr)
  located x hx := by
    rw [write, Bytes.writeAll_len]
    exact h.located x hx
  fits x hx := by
    rw [write, Bytes.writeAll_len]
    exact h.fits x hx

theorem exists_item {L : Layout} {i : ℕ} {n : VolumeNode} (h : L.tree.node i = some n) :
    ∃ x ∈ L.items, x.ino = i ∧ x.body.node = n := by
  obtain ⟨x, hx, rfl⟩ := Option.map_eq_some_iff.mp h
  exact ⟨x, List.mem_of_find?_eq_some hx, by simpa using List.find?_some hx, rfl⟩

theorem Valid.closed {L : Layout} (h : L.Valid) : L.tree.Closed where
  root := h.root
  entry i e he := by
    cases hn : L.tree.node i with
    | none =>
      rw [NodeTree.entries, hn] at he
      exact absurd he List.not_mem_nil
    | some n =>
      obtain ⟨x, hx, rfl, -⟩ := exists_item hn
      exact h.entry x hx e he

end Layout

theorem inodeSize_eq (sb : Superblock) : sb.inodeSize = sb.version.dinodeSize := by
  unfold Superblock.inodeSize
  cases sb.version <;> rfl

section Held

variable {L : Layout} {p : Bytes} (h : L.Held p) {x : Item} (hx : x ∈ L.items)
include h

theorem Layout.Held.table_stored : L.table.Stored p L.sb :=
  ⟨fun r hr => h.stores r (List.mem_append_left _ hr), h.valid.holds, h.valid.room⟩

include hx

theorem Layout.Held.item_runs {r : Run} (hr : r ∈ x.runs L.table L.sb) : Stores p r :=
  h.stores r (List.mem_append_right _ (List.mem_flatMap.mpr ⟨x, hx, hr⟩))

theorem Layout.Held.slice_len :
    (p.slice (L.sb.dinodeOff x.ino) L.sb.inodeSize).len = L.sb.version.dinodeSize := by
  have hloc := h.located x hx
  rw [Bytes.slice_len, ← inodeSize_eq]
  omega

theorem Layout.Held.field {r : Run} (hr : r ∈ x.dinode.fields L.sb.version L.sb.endian) :
    Stores p (L.sb.dinodeOff x.ino + r.1, r.2) :=
  h.item_runs hx (List.mem_append_left _ (List.mem_map.mpr ⟨r, hr, rfl⟩))

theorem Layout.Held.decode_eq : Dinode.decode (p.slice (L.sb.dinodeOff x.ino) L.sb.inodeSize)
    L.sb.version L.sb.endian = x.dinode := by
  refine (Dinode.hasRun_fields_iff (h.slice_len hx).ge (h.valid.item x hx).inRange).mp
    fun r hr i hi => ?_
  have hin := Dinode.fields_inside hr
  rw [← inodeSize_eq] at hin
  rw [Bytes.slice_byte_of_lt (by omega), ← Nat.add_assoc]
  exact (h.field hx hr).hasRun i hi

/-- The inline target that the reader finds in the dinode. -/
def Layout.linkAt (L : Layout) (p : Bytes) (x : Item) : Option Bytes :=
  Dinode.linkOf (p.slice (L.sb.dinodeOff x.ino) L.sb.inodeSize) L.sb.version L.sb.endian
    L.sb.maxsymlinklen

theorem Layout.Held.readInode_eq :
    readInode p L.sb x.ino = .ok (x.dinode.toInode L.sb.version (L.linkAt p x)) := by
  have hv := h.valid
  have hlen := h.slice_len hx
  refine (readInode_eq_ok_iff hv.wellFormed).mpr ⟨hv.ipg_pos, hv.fpg_pos, hv.iblkno_nonneg,
    (hv.item x hx).lt_inodes, h.located x hx, ?_⟩
  rw [Dinode.parse_eq_decode, if_neg (by omega), h.decode_eq hx]
  rfl

theorem Layout.Held.linkAt_eq_none (hbody : ¬ (FileType.fromMode x.dinode.mode = .symlink ∧
    InlineLength L.sb x.dinode.size.toNat)) : L.linkAt p x = none := by
  by_contra hne
  obtain ⟨t, ht⟩ := Option.ne_none_iff_exists'.mp hne
  obtain ⟨hlink, hpos, hsize, -⟩ := (Dinode.linkOf_eq_some_iff (h.slice_len hx).ge).mp ht
  rw [h.decode_eq hx] at hlink hsize
  exact hbody ⟨hlink, hpos, hsize⟩

theorem Layout.Held.area_hasRun :
    HasRun p (L.sb.dinodeOff x.ino + L.sb.version.dbOff, x.area L.sb) := by
  refine (Bytes.hasRun_flatMap_iff (PtrBlocks.ptrBytes_length L.sb)).mpr fun j hj => ?_
  have hib : L.sb.version.ibOff = L.sb.version.dbOff + 12 * L.sb.version.ptrSize := by
    cases L.sb.version <;> rfl
  have hptr {n off : ℕ} (ptrs : Vector UInt64 n) {i : ℕ} (hi : i < n)
      (hsub : L.sb.version.ptrRuns L.sb.endian off ptrs ⊆
        x.dinode.fields L.sb.version L.sb.endian) :
      HasRun p (L.sb.dinodeOff x.ino + (off + i * L.sb.version.ptrSize),
        PtrBlocks.ptrBytes L.sb ptrs[i]) := by
    have hmem : L.sb.version.ptrRun L.sb.endian (off + i * L.sb.version.ptrSize) ptrs[i] ∈
        L.sb.version.ptrRuns L.sb.endian off ptrs := List.mem_ofFn.mpr ⟨⟨i, hi⟩, rfl⟩
    have hfield := (h.field hx (hsub hmem)).hasRun
    rwa [PtrBlocks.ptrRun_eq] at hfield
  rw [Nat.add_assoc]
  rcases Nat.lt_or_ge j 12 with hlt | hge
  · rw [List.getElem_append_left (by simpa using hlt)]
    exact hptr x.dinode.direct hlt fun r hr =>
      List.mem_append_right _ (List.mem_append_left _ hr)
  · have hj3 : j - 12 < 3 := by
      rw [List.length_append, Vector.length_toList, Vector.length_toList] at hj
      omega
    have hsplit : j * L.sb.version.ptrSize =
        12 * L.sb.version.ptrSize + (j - 12) * L.sb.version.ptrSize := by
      rw [← Nat.add_mul, Nat.add_sub_cancel' hge]
    have hind := hptr x.dinode.indirect hj3 fun r hr =>
      List.mem_append_right _ (List.mem_append_right _ hr)
    rw [hib, Nat.add_assoc, ← hsplit] at hind
    rw [List.getElem_append_right (by simpa using hge)]
    simpa using hind

theorem Layout.Held.linkAt_inline {target : List UInt8} (hbody : x.body = .inlineLink target) :
    ∃ t, L.linkAt p x = some t ∧ t.toList = target := by
  have hitem := h.valid.item x hx
  have htype := hitem.fileType
  have hlaid := hitem.laidOut
  rw [hbody] at htype hlaid
  obtain ⟨hsize, ⟨hpos, hmax⟩, hpre⟩ := hlaid
  have harea : (x.area L.sb).length = (UFS_NDADDR + UFS_NIADDR) * L.sb.version.ptrSize := by
    rw [Item.area, PtrBlocks.flatMap_ptrBytes_length, List.length_append, Vector.length_toList,
      Vector.length_toList]
    rfl
  have hlen := hpre.length_le
  have hinside := Dinode.area_inside L.sb.version
  have hloc := h.located x hx
  rw [inodeSize_eq] at hloc
  have hfit : L.sb.version.dbOff + target.length ≤ L.sb.inodeSize := by
    rw [inodeSize_eq]
    omega
  refine ⟨p.slice (L.sb.dinodeOff x.ino + L.sb.version.dbOff) target.length, ?_, ?_⟩
  · apply (Dinode.linkOf_eq_some_iff (h.slice_len hx).ge).mpr
    rw [h.decode_eq hx, hsize, min_eq_left (by omega), Bytes.slice_slice _ _ _ _ _ hfit]
    exact ⟨htype, hpos, hmax, rfl⟩
  · obtain ⟨rest, hrest⟩ := hpre
    have hrun := h.area_hasRun hx
    rw [← hrest, Bytes.hasRun_append_iff] at hrun
    exact Bytes.toList_slice_of_hasRun hrun.1 (by omega)

theorem Layout.Held.readInodeFile_eq (hlaid : LaidOut L.table L.sb (x.inode L.sb) x.body.content) :
    (readInodeFile p L.sb (x.inode L.sb)).map Bytes.toList = .ok x.body.content :=
  hlaid.readInodeFile_eq h.valid.wellFormed h.table_stored
    (fun _ hr => h.item_runs hx (List.mem_append_right _ hr)) (h.fits x hx)

/-- What the inode is for its users is what its mode and its length tell the reader. -/
theorem Layout.Held.readInode_block (hlaid : LaidOut L.table L.sb (x.inode L.sb) x.body.content)
    (hnot : FileType.fromMode x.dinode.mode = .symlink → ¬ InlineLength L.sb x.body.content.length) :
    readInode p L.sb x.ino = .ok (x.inode L.sb) := by
  have hsize : x.dinode.size.toNat = x.body.content.length := hlaid.size_eq
  have hnone : L.linkAt p x = none := h.linkAt_eq_none hx fun hc => hnot hc.1 (hsize ▸ hc.2)
  rw [h.readInode_eq hx, hnone]
  rfl

theorem Layout.Held.readInode_file {content : List UInt8} (hbody : x.body = .file content) :
    readInode p L.sb x.ino = .ok (x.inode L.sb) := by
  have hlaid := (h.valid.item x hx).laidOut_file hbody
  refine h.readInode_block hx (by rwa [hbody]) fun hlink => ?_
  rw [(h.valid.item x hx).regular hbody] at hlink
  cases hlink

theorem Layout.Held.readInodeFile_file {content : List UInt8} (hbody : x.body = .file content) :
    (readInodeFile p L.sb (x.inode L.sb)).map Bytes.toList = .ok content := by
  have hlaid := (h.valid.item x hx).laidOut_file hbody
  have hfile := h.readInodeFile_eq hx (by rwa [hbody])
  rwa [hbody] at hfile

theorem Layout.Held.readInode_dir {content : List UInt8}
    {blocks : List (List DirRecord × List UInt8)} (hbody : x.body = .dir content blocks) :
    readInode p L.sb x.ino = .ok (x.inode L.sb) := by
  have hlaid := ((h.valid.item x hx).laidOut_dir hbody).1
  refine h.readInode_block hx (by rwa [hbody]) fun hlink => ?_
  rw [(h.valid.item x hx).directory hbody] at hlink
  cases hlink

end Held

theorem flatMap_range_getD {α β : Type*} (l : List α) (d : α) (f : α → List β) :
    (List.range l.length).flatMap (fun k => f (l.getD k d)) = l.flatMap f := by
  have hmap : (List.range l.length).map (fun k => l.getD k d) = l := by
    refine List.ext_getElem (by simp) fun i h1 h2 => ?_
    rw [List.getElem_map, List.getElem_range]
    exact List.getD_eq_getElem _ _ h2
  conv_rhs => rw [← hmap, List.flatMap_map]

theorem walkFrom_piece {block : Bytes} {e : Endian} {b : List DirRecord × List UInt8}
    (h : block.toList = b.1.flatMap (DirRecord.encode e) ++ b.2) (hends : EndsWalk e b.2) :
    walkFrom block e 0 = b.1.map DirRecord.entry := by
  rw [← List.nil_append (b.1.flatMap _ ++ b.2)] at h
  exact walkFrom_records b.1 h hends

variable {t : PtrBlocks} {p : Bytes} {sb : Superblock} {inode : Inode} {content : List UInt8}
  {blocks : List (List DirRecord × List UInt8)}

theorem DirLaidOut.directBlock_eq (hd : DirLaidOut sb content blocks) (hsb : sb.WellFormed)
    (h : LaidOut t sb inode content) (hdata : ∀ r ∈ dataRuns t sb inode content, Stores p r)
    {k : ℕ} (hk : k < 12) :
    directBlock p sb (inode.direct.toList.getD k 0) (inode.size.toNat - k * sb.blockBytes) =
      (blocks.getD k ([], [])).1.map DirRecord.entry := by
  have hsize := h.size_eq
  have hdirect : inode.direct.toList.getD k 0 = t.address inode (nindirOf sb) k := by
    unfold PtrBlocks.address PtrBlocks.addresses
    rw [List.getElem?_append_left (by simpa using hk)]
    simp [hk]
  rw [hdirect, directBlock]
  rcases Nat.lt_or_ge k blocks.length with hlt | hge
  · have hb : k < divCeil content.length sb.blockBytes := hd.count ▸ hlt
    have hin := (BlockMap.lt_divCeil_iff hsb.blockBytes_pos).mp hb
    have hpiece := hd.piece k hlt
    have hends := hd.ends _ (List.getElem_mem hlt)
    rw [List.getD_eq_getElem _ _ hlt]
    by_cases ha : t.address inode (nindirOf sb) k = 0
    · -- a hole is zero, which holds no record
      have hzero := h.hole k hb ha
      have hlen : (chunk content sb.blockBytes k).length < 2 ^ 63 := by
        rw [chunk_length]
        have := hsb.blockBytes_le
        omega
      have hwalk : walkFrom (Bytes.ofList (chunk content sb.blockBytes k) hlen) sb.endian 0 = [] := by
        refine walkFrom_of_zero (fun i => ?_) _
        rcases Nat.lt_or_ge i (chunk content sb.blockBytes k).length with hi | hi
        · exact (List.getD_eq_getElem _ _ hi).trans (hzero _ (List.getElem_mem hi))
        · exact List.getD_eq_default _ _ hi
      rw [if_pos (Or.inr ha), ← hwalk]
      exact walkFrom_piece ((Bytes.toList_ofList _ _).trans hpiece) hends
    · have hrest : ¬ (inode.size.toNat - k * sb.blockBytes = 0 ∨
          t.address inode (nindirOf sb) k = 0) := by
        rintro (h0 | h0)
        · omega
        · exact ha h0
      rw [if_neg hrest]
      have hstore := stores_chunk hdata hb ha
      have hslice := hstore.slice_toList
      rw [chunk_length, min_comm] at hslice
      rw [hsize]
      exact walkFrom_piece (hslice.trans hpiece) hends
  · have hpast : content.length ≤ k * sb.blockBytes := by
      by_contra hcon
      exact absurd ((BlockMap.lt_divCeil_iff hsb.blockBytes_pos).mpr (Nat.not_le.mp hcon))
        (by rw [← hd.count]; omega)
    rw [if_pos (Or.inl (by omega)), List.getD_eq_default _ _ hge]
    rfl

/-- A directory that is laid out is listed with its records, in order. -/
theorem DirLaidOut.listDirEntries_eq (hd : DirLaidOut sb content blocks) (hsb : sb.WellFormed)
    (h : LaidOut t sb inode content) (hdata : ∀ r ∈ dataRuns t sb inode content, Stores p r) :
    listDirEntries p sb inode = (blocks.flatMap Prod.fst).map DirRecord.entry := by
  have hcount : blocks.length ≤ 12 := by
    rw [hd.count]
    by_contra hcon
    have := (BlockMap.lt_divCeil_iff hsb.blockBytes_pos).mp (Nat.not_le.mp hcon)
    have := hd.within
    omega
  have hblocks : ∀ k ∈ List.range 12, directBlock p sb (inode.direct.toList.getD k 0)
      (inode.size.toNat - k * sb.blockBytes) = (blocks.getD k ([], [])).1.map DirRecord.entry :=
    fun k hk => hd.directBlock_eq hsb h hdata (List.mem_range.mp hk)
  have hpast : ∀ k, blocks.length ≤ k → (blocks.getD k ([], [])).1.map DirRecord.entry = [] := by
    intro k hk
    rw [List.getD_eq_default _ _ hk]
    rfl
  rw [UfsForensic.listDirEntries_eq hsb, List.flatMap_congr hblocks, flatMap_range_min hpast,
    min_eq_right hcount,
    flatMap_range_getD blocks ([], []) fun b => b.1.map DirRecord.entry, List.map_flatMap]

section Reader

variable {L : Layout} (h : L.Held p)
include h

theorem Layout.Held.listDirEntries_dir {x : Item} (hx : x ∈ L.items) {content : List UInt8}
    {blocks : List (List DirRecord × List UInt8)} (hbody : x.body = .dir content blocks) :
    listDirEntries p L.sb (x.inode L.sb) = (blocks.flatMap Prod.fst).map DirRecord.entry := by
  obtain ⟨hlaid, hdir⟩ := (h.valid.item x hx).laidOut_dir hbody
  have hruns : ∀ r ∈ dataRuns L.table L.sb (x.inode L.sb) x.body.content, Stores p r :=
    fun r hr => h.item_runs hx (List.mem_append_right _ hr)
  rw [hbody] at hruns
  exact hdir.listDirEntries_eq h.valid.wellFormed hlaid hruns

theorem Layout.Held.listDir_eq {i : ℕ} {es : List (List UInt8 × ℕ)}
    (hn : L.tree.node i = some (.dir es)) : ∃ cur entries, readInode p L.sb i = .ok cur ∧
      cur.isDir = true ∧ listDir p L.sb i = .ok entries ∧
        (entries.map fun e => (e.name, e.ino)) = es := by
  obtain ⟨x, hx, rfl, hnode⟩ := Layout.exists_item hn
  obtain ⟨content, blocks, hbody, rfl⟩ := Body.exists_eq_dir hnode
  have htype := (h.valid.item x hx).directory hbody
  have hcur := h.readInode_dir hx hbody
  refine ⟨_, _, hcur, decide_eq_true htype, listDir_eq_ok_iff.mpr ⟨_, hcur, rfl⟩, ?_⟩
  rw [h.listDirEntries_dir hx hbody, List.filter_map, List.map_map, liveNames]
  congr 1
  refine List.filter_congr fun r _ => ?_
  simp [DirRecord.entry]

theorem Layout.Held.exists_readInode {i : ℕ} {n : VolumeNode} (hn : L.tree.node i = some n) :
    ∃ inode, readInode p L.sb i = .ok inode ∧ n.HasType inode.fileType := by
  obtain ⟨x, hx, rfl, rfl⟩ := Layout.exists_item hn
  exact ⟨_, h.readInode_eq hx, (h.valid.item x hx).fileType⟩

/-- The descent follows the tree. -/
theorem Layout.Held.descend_eq {comps : List (List UInt8)} (hne : ∀ comp ∈ comps, comp ≠ []) {i : ℕ}
    (hi : (L.tree.node i).isSome = true) {cur : Inode} (hcur : readInode p L.sb i = .ok cur) :
    ∃ r, descend p L.sb comps i cur = .ok r ∧ r.map Prod.fst = L.tree.resolve i comps := by
  induction comps generalizing i cur with
  | nil => exact ⟨_, rfl, rfl⟩
  | cons comp comps ih =>
    obtain ⟨n, hn⟩ := Option.isSome_iff_exists.mp hi
    obtain ⟨cur', hcur', htype⟩ := h.exists_readInode hn
    obtain rfl := Except.ok.inj (hcur.symm.trans hcur')
    rw [descend, if_neg (hne comp List.mem_cons_self), NodeTree.resolve]
    by_cases hdir : cur.isDir = true
    · -- the entries of a directory are those of its node
      obtain ⟨es, rfl⟩ : ∃ es, n = .dir es := by
        have hd : cur.fileType = .directory := by simpa [Inode.isDir] using hdir
        rw [hd] at htype
        cases n with
        | dir es => exact ⟨es, rfl⟩
        | file content => cases htype
        | link target => cases htype
        | special => exact absurd rfl htype.2.1
      obtain ⟨_, entries, -, -, hlist, hes⟩ := h.listDir_eq hn
      obtain ⟨entries', hlist', hfind⟩ := find_listDir hcur comp
      obtain rfl := Except.ok.inj (hlist.symm.trans hlist')
      have hchild : L.tree.child i comp = (entries.find? fun e => e.name == comp).map DirEntry.ino := by
        rw [NodeTree.child, NodeTree.entries_of_node hn, ← hes, List.find?_map, Option.map_map]
        rfl
      rw [if_neg (by simp [hdir]), ← hfind, hchild]
      cases hhit : entries.find? (fun e => e.name == comp) with
      | none => exact ⟨none, rfl, rfl⟩
      | some hit =>
        have hmem : (hit.name, hit.ino) ∈ L.tree.entries i := by
          rw [NodeTree.entries_of_node hn, ← hes]
          exact List.mem_map.mpr ⟨hit, List.mem_of_find?_eq_some hhit, rfl⟩
        have hsome := h.valid.closed.entry i _ hmem
        obtain ⟨m, hm⟩ := Option.isSome_iff_exists.mp hsome
        obtain ⟨next, hnext, -⟩ := h.exists_readInode hm
        simp only [hnext]
        exact ih (fun c hc => hne c (List.mem_cons_of_mem _ hc)) hsome hnext
    · -- another node has none
      have hnone : L.tree.child i comp = none := by
        have hes : L.tree.entries i = [] := by
          rw [NodeTree.entries, hn]
          cases n with
          | dir es => exact absurd (decide_eq_true (show cur.fileType = .directory from htype)) hdir
          | file content => rfl
          | link target => rfl
          | special => rfl
        rw [NodeTree.child, hes]
        rfl
      rw [if_pos (by simpa using hdir), hnone]
      exact ⟨none, rfl, rfl⟩

theorem Layout.Held.readFile_eq {i : ℕ} {content : List UInt8}
    (hn : L.tree.node i = some (.file content)) : ∃ inode, readInode p L.sb i = .ok inode ∧
      (readInodeFile p L.sb inode).map Bytes.toList = .ok content := by
  obtain ⟨x, hx, rfl, hnode⟩ := Layout.exists_item hn
  have hbody := Body.eq_file hnode
  exact ⟨_, h.readInode_file hx hbody, h.readInodeFile_file hx hbody⟩

theorem Layout.Held.readLink_eq {i : ℕ} {target : List UInt8}
    (hn : L.tree.node i = some (.link target)) : ∃ inode, readInode p L.sb i = .ok inode ∧
      (readSymlinkTarget p L.sb inode).map Bytes.toList = .ok target := by
  obtain ⟨x, hx, rfl, hnode⟩ := Layout.exists_item hn
  have hlaid := (h.valid.item x hx).laidOut
  have hread := h.readInode_block hx
  have hfile := h.readInodeFile_eq hx
  rcases Body.eq_link hnode with hbody | hbody
  · rw [hbody] at hlaid hread hfile
    exact ⟨_, hread hlaid.1 fun _ => hlaid.2, hfile hlaid.1⟩
  · obtain ⟨b, hb, hlist⟩ := h.linkAt_inline hx hbody
    refine ⟨_, h.readInode_eq hx, ?_⟩
    rw [hb, ← hlist]
    rfl

end Reader

/-- The reader's answers are those that the tree gives: where paths lead, what directories list,
what files and links hold, and what kind of node an inode is. -/
structure ReadsAs (p : Bytes) (sb : Superblock) (t : NodeTree ℕ (List UInt8) UInt8) : Prop where
  path : ∀ path, ∃ r, readByPath p sb path = .ok r ∧
    r.map Prod.fst = t.resolve t.root (components path)
  content : ∀ path content,
    (t.resolve t.root (components path)).bind t.node = some (.file content) →
      (readPathContent p sb path).map (Option.map Bytes.toList) = .ok (some content)
  file : ∀ i content, t.node i = some (.file content) →
    (readFile p sb i).map Bytes.toList = .ok content
  dir : ∀ i es, t.node i = some (.dir es) →
    (listDir p sb i).map (List.map fun e => (e.name, e.ino)) = .ok es
  link : ∀ i target, t.node i = some (.link target) → ∃ inode, readInode p sb i = .ok inode ∧
    (readSymlinkTarget p sb inode).map Bytes.toList = .ok target
  type : ∀ i n, t.node i = some n → ∃ inode, readInode p sb i = .ok inode ∧
    VolumeNode.HasType n inode.fileType

theorem readInode_of_descend {comps : List (List UInt8)} {i ino : ℕ} {cur inode : Inode}
    (hcur : readInode p sb i = .ok cur) (h : descend p sb comps i cur = .ok (some (ino, inode))) :
    readInode p sb ino = .ok inode := by
  induction comps generalizing i cur with
  | nil =>
    obtain ⟨rfl, rfl⟩ := Prod.mk.inj (Option.some.inj (Except.ok.inj h))
    exact hcur
  | cons comp comps ih =>
    rw [descend] at h
    split_ifs at h
    · exact ih hcur h
    · cases h
    · split at h
      · cases h
      · split at h
        · cases h
        · next hnext => exact ih hnext h

/-- A partition that holds a layout is read as the tree the layout stands for. -/
theorem readsAs_of_held {L : Layout} (h : L.Held p) : ReadsAs p L.sb L.tree := by
  have hpath : ∀ path, ∃ r, readByPath p L.sb path = .ok r ∧
      r.map Prod.fst = L.tree.resolve L.tree.root (components path) := by
    intro path
    obtain ⟨n, hn⟩ := Option.isSome_iff_exists.mp h.valid.root
    obtain ⟨root, hroot, -⟩ := h.exists_readInode hn
    rw [readByPath_eq, hroot]
    exact h.descend_eq (components_ne_nil path) h.valid.root hroot
  refine ⟨hpath, ?_, ?_, ?_, fun i target => h.readLink_eq, fun i n => h.exists_readInode⟩
  · intro path content hnode
    obtain ⟨i, hi, hn⟩ := Option.bind_eq_some_iff.mp hnode
    obtain ⟨r, hr, hfst⟩ := hpath path
    rw [hi] at hfst
    obtain ⟨⟨ino, inode⟩, rfl, rfl⟩ := Option.map_eq_some_iff.mp hfst
    obtain ⟨inode', hinode', hread⟩ := h.readFile_eq hn
    have hinode : readInode p L.sb ino = .ok inode := by
      rw [readByPath_eq] at hr
      cases hroot : readInode p L.sb UFS_ROOTINO with
      | error e =>
        rw [hroot] at hr
        exact nomatch hr
      | ok root =>
        rw [hroot] at hr
        exact readInode_of_descend hroot hr
    obtain rfl := Except.ok.inj (hinode.symm.trans hinode')
    unfold readPathContent
    rw [hr]
    cases hfile : readInodeFile p L.sb inode with
    | error e =>
      rw [hfile] at hread
      exact nomatch hread
    | ok out =>
      rw [hfile] at hread
      obtain rfl := Except.ok.inj hread
      simp [bind, Except.bind, pure, Except.pure, hfile, Except.map]
  · intro i content hn
    obtain ⟨inode, hinode, hread⟩ := h.readFile_eq hn
    rw [readFile, hinode]
    exact hread
  · intro i es hn
    obtain ⟨_, entries, -, -, hlist, hes⟩ := h.listDir_eq hn
    rw [hlist, ← hes]
    rfl

namespace Crafted

/-- A UFS2 geometry in big-endian order: one group of eight inodes, blocks of 512 bytes with four
pointers, links inline up to 119 bytes. -/
def shelfSb : Superblock := { tinySb with
  version := .ufs2
  endian := .big
  nindir := 4
  maxsymlinklen := 119 }

def shelfDinode (mode : UInt16) (size : UInt64) (direct : List UInt64) : Dinode where
  mode := mode
  nlink := 1
  uid := 0
  gid := 0
  size := size
  blocks := 0
  atime := ⟨0, 0⟩
  mtime := ⟨0, 0⟩
  ctime := ⟨0, 0⟩
  birthtime := some ⟨-1, 0⟩
  direct := Vector.ofFn fun i => direct.getD i 0
  indirect := Vector.ofFn fun _ => 0

theorem letter_le (c : UInt8) : [c].length ≤ 255 := by simp

theorem letter_reclen_le (c : UInt8) (padding : Vector UInt8 3) :
    DIRECT_HEAD + [c].length + padding.toList.length ≤ 65535 := by simp [DIRECT_HEAD]

def letter (ino : UInt32) (dType c : UInt8) (padding : Vector UInt8 3) : DirRecord :=
  ⟨ino, dType, [c], padding.toList, letter_le c, letter_reclen_le c padding⟩

/-- The records of the root: the directory `d`, the file `f`, a free slot, and the link `l`. -/
def shelfRoot : List DirRecord :=
  [letter 2 4 46 #v[0, 0, 0], letter 3 4 100 #v[9, 9, 9], letter 4 8 102 #v[0, 0, 0],
    letter 0 8 120 #v[0, 0, 0], letter 5 10 108 #v[0, 0, 0]]

/-- Directory `d` names the file again, as `g`. -/
def shelfSub : List DirRecord := [letter 4 8 103 #v[0, 0, 0]]

/-- The content of the file: a block that starts with `hi`, and a hole. -/
def shelfFile : List UInt8 := [104, 105] ++ List.replicate 518 0

/-- The target `d/g`, which the first pointer of the link spells. -/
def shelfLayout : Layout where
  sb := shelfSb
  table := []
  items := [
    ⟨2, shelfDinode 0o040755 60 [30],
      .dir (shelfRoot.flatMap (DirRecord.encode .big)) [(shelfRoot, [])]⟩,
    ⟨3, shelfDinode 0o040755 12 [31],
      .dir (shelfSub.flatMap (DirRecord.encode .big)) [(shelfSub, [])]⟩,
    ⟨4, shelfDinode 0o100644 520 [32, 0], .file shelfFile⟩,
    ⟨5, shelfDinode 0o120777 3 [0x642f670000000000], .inlineLink [100, 47, 103]⟩]

theorem shelfDinode_inRange (mode : UInt16) (size : UInt64) (direct : List UInt64) :
    (shelfDinode mode size direct).InRange .ufs2 where
  blocks_ufs1 h := nomatch h
  times_ufs1 h := nomatch h
  birthtime_isSome := by simp [shelfDinode]
  direct _ _ h := nomatch h
  indirect _ _ h := nomatch h

theorem shelf_wellFormed : shelfSb.WellFormed :=
  Superblock.validateGeometry_eq_ok_iff.mp (by decide +kernel)

theorem shelf_laidOut {sb : Superblock} {inode : Inode} {content : List UInt8}
    (hsize : inode.size.toNat = content.length)
    (hroots : inode.singleRoot = 0 ∧ inode.doubleRoot = 0 ∧ inode.tripleRoot = 0)
    (hhole : ∀ b < divCeil content.length sb.blockBytes,
      PtrBlocks.address [] inode (nindirOf sb) b = 0 →
        ∀ x ∈ chunk content sb.blockBytes b, x = 0) : LaidOut [] sb inode content where
  size_eq := hsize
  single := hroots.1 ▸ PtrBlocks.covers_zero 1
  double := hroots.2.1 ▸ PtrBlocks.covers_zero 2
  triple := hroots.2.2 ▸ PtrBlocks.covers_zero 3
  hole := hhole

theorem shelf_dirLaidOut {sb : Superblock} (hblock : sb.blockBytes = 512)
    {records : List DirRecord}
    (hlen : 0 < (records.flatMap (DirRecord.encode sb.endian)).length ∧
      (records.flatMap (DirRecord.encode sb.endian)).length ≤ 512) :
    DirLaidOut sb (records.flatMap (DirRecord.encode sb.endian)) [(records, [])] := by
  have hcount : divCeil (records.flatMap (DirRecord.encode sb.endian)).length 512 = 1 := by
    unfold divCeil
    split_ifs <;> omega
  refine ⟨by rw [hblock]; omega, by rw [hblock, hcount]; rfl, fun k hk => ?_, fun b hb => ?_⟩
  · obtain rfl := Nat.lt_one_iff.mp hk
    rw [hblock, chunk, Nat.zero_mul, List.drop_zero, List.take_of_length_le hlen.2]
    exact (List.append_nil _).symm
  · rw [List.mem_singleton.mp hb]
    exact Or.inl (show ([] : List UInt8).length < DIRECT_HEAD by decide)

theorem shelf_valid : shelfLayout.Valid where
  wellFormed := shelf_wellFormed
  ipg_pos := by decide +kernel
  fpg_pos := by decide +kernel
  iblkno_nonneg := by decide +kernel
  room := by decide +kernel
  holds := nofun
  item x hx := by
    have hcases : x ∈ shelfLayout.items := hx
    simp only [shelfLayout, List.mem_cons, List.not_mem_nil, or_false] at hcases
    have hin (i : ℕ) (hi : i < 8) : i < shelfSb.inodesPerGroup * shelfSb.ncg.toNat := by
      rwa [show shelfSb.inodesPerGroup * shelfSb.ncg.toNat = 8 by decide +kernel]
    obtain rfl | rfl | rfl | rfl := hcases
    · exact ⟨hin 2 (by norm_num), shelfDinode_inRange _ _ _, by decide +kernel,
        shelf_laidOut (by decide +kernel) (by decide +kernel) (by decide +kernel),
        shelf_dirLaidOut (by decide +kernel) (by decide +kernel)⟩
    · exact ⟨hin 3 (by norm_num), shelfDinode_inRange _ _ _, by decide +kernel,
        shelf_laidOut (by decide +kernel) (by decide +kernel) (by decide +kernel),
        shelf_dirLaidOut (by decide +kernel) (by decide +kernel)⟩
    · exact ⟨hin 4 (by norm_num), shelfDinode_inRange _ _ _, by decide +kernel,
        shelf_laidOut (by decide +kernel) (by decide +kernel) (by decide +kernel)⟩
    · exact ⟨hin 5 (by norm_num), shelfDinode_inRange _ _ _, by decide +kernel,
        by decide +kernel, by unfold InlineLength; decide +kernel, by decide +kernel⟩
  root := by decide +kernel
  entry := by decide +kernel

theorem shelf_writable : shelfLayout.Writable 70001 where
  valid := shelf_valid
  apart := Bytes.pairwise_apart_of_sorted (by decide +kernel)
  inside := by decide +kernel
  located := by decide +kernel
  fits := by decide +kernel

def wornOut : Bytes := Bytes.tabulate 70001 (by decide) fun i => UInt8.ofNat (i + 1)

end Crafted

theorem readsAs_of_held_shelf : ReadsAs (Crafted.shelfLayout.write Crafted.wornOut)
    Crafted.shelfSb Crafted.shelfLayout.tree :=
  readsAs_of_held (Layout.Writable.held Crafted.shelf_writable)

end UfsForensic
