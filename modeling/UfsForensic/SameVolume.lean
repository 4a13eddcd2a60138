import UfsForensic.AllocatedVolume

/-!
# Layouts of one volume

The same files, directories and names can be laid out in another version and byte order, under another
geometry and at other addresses. What is read, found and recovered is the same.
-/

namespace UfsForensic

def Body.records : Body → List DirRecord
  | dir _ blocks => blocks.flatMap Prod.fst
  | _ => []

/-- The two items stand for one inode: its number, its links, what it is and holds, and the records of
a directory. -/
structure Item.Same (x y : Item) : Prop where
  ino_eq : x.ino = y.ino
  nlink_eq : x.dinode.nlink = y.dinode.nlink
  node_eq : x.body.node = y.body.node
  records_eq : x.body.records = y.body.records

/-- The volumes have the same inodes in the same order, and the same of them are used. -/
structure Volume.Same (V W : Volume) : Prop where
  items : List.Forall₂ Item.Same V.layout.items W.layout.items
  used : ∀ x ∈ V.layout.items, V.used x.ino = W.used x.ino

/-- What is not used starts with a hole in both layouts or in neither. -/
def Volume.SameHoles (V W : Volume) : Prop :=
  ∀ x ∈ V.layout.items, ∀ y ∈ W.layout.items, x.ino = y.ino → V.used x.ino = false →
    ((x.inode V.layout.sb).firstBlock = 0 ↔ (y.inode W.layout.sb).firstBlock = 0)

theorem Item.Same.symm {x y : Item} (h : x.Same y) : y.Same x :=
  ⟨h.ino_eq.symm, h.nlink_eq.symm, h.node_eq.symm, h.records_eq.symm⟩

section Lists

variable {α β γ : Type*} {R : α → β → Prop} {l : List α} {m : List β}

theorem map_find?_of_forall₂ (h : List.Forall₂ R l m) {p : α → Bool} {q : β → Bool} {f : α → γ}
    {g : β → γ} (hpq : ∀ x y, R x y → p x = q y) (hfg : ∀ x y, R x y → f x = g y) :
    (l.find? p).map f = (m.find? q).map g := by
  induction h with
  | nil => rfl
  | @cons x y l m hxy _ ih =>
    rw [List.find?_cons, List.find?_cons, hpq x y hxy]
    cases q y with
    | true => exact congrArg some (hfg x y hxy)
    | false => exact ih

theorem exists_of_mem_of_forall₂ (h : List.Forall₂ R l m) {x : α} (hx : x ∈ l) :
    ∃ y ∈ m, R x y := by
  induction h with
  | nil => exact absurd hx List.not_mem_nil
  | cons hxy _ ih =>
    rcases List.mem_cons.mp hx with rfl | hx
    · exact ⟨_, List.mem_cons_self, hxy⟩
    · obtain ⟨y, hy, hr⟩ := ih hx
      exact ⟨y, List.mem_cons_of_mem _ hy, hr⟩

end Lists

theorem Layout.records_eq_getD (L : Layout) (i : ℕ) :
    L.records i = ((L.items.find? fun x => x.ino == i).map fun x => x.body.records).getD [] := by
  unfold Layout.records
  cases L.items.find? fun x => x.ino == i with
  | none => rfl
  | some x =>
    obtain ⟨ino, dinode, body⟩ := x
    cases body <;> rfl

section Same

variable {V W : Volume} (h : V.Same W)
include h

theorem Volume.Same.symm : W.Same V where
  items := List.Forall₂.flip (h.items.imp fun _ _ hxy => hxy.symm)
  used y hy := by
    obtain ⟨x, hx, hxy⟩ := exists_of_mem_of_forall₂
      (List.Forall₂.flip (R := fun y x => Item.Same x y) h.items) hy
    rw [← hxy.ino_eq]
    exact (h.used x hx).symm

theorem Volume.SameHoles.symm (hholes : V.SameHoles W) : W.SameHoles V := by
  intro y hy x hx hino hused
  rw [hino, ← h.used x hx] at hused
  exact (hholes x hx y hy hino.symm hused).symm

theorem Volume.Same.tree_eq : V.layout.tree = W.layout.tree := by
  unfold Layout.tree
  congr 1
  funext i
  exact map_find?_of_forall₂ h.items (fun x y hxy => by rw [hxy.ino_eq]) fun x y hxy => hxy.node_eq

theorem Volume.Same.records_eq (i : ℕ) : V.layout.records i = W.layout.records i := by
  rw [Layout.records_eq_getD, Layout.records_eq_getD]
  exact congrArg (Option.getD · []) (map_find?_of_forall₂ h.items
    (fun x y hxy => by rw [hxy.ino_eq]) fun x y hxy => hxy.records_eq)

end Same

section Kept

variable {V : Volume} {p : Bytes} (h : V.Kept p)
include h

theorem Volume.Kept.entriesOf_eq {d : ℕ} (hd : d ∈ tree p V.layout.sb) :
    entriesOf p V.layout.sb d = (V.layout.records d).map DirRecord.entry := by
  obtain ⟨es, hes⟩ := ((h.mem_tree_iff.mp hd).isDir h.valid.root).exists_node
  exact h.layout.entriesOf_eq hes

theorem Volume.Kept.carved_increasing (sha256 : Bytes → Vector UInt8 32) :
    (carveDeletedInodes sha256 p V.layout.sb (collectDeletedDirents p V.layout.sb)).Pairwise
      fun x y => x.ino < y.ino := carveDeletedInodes_pairwise h.wellFormed

theorem Volume.Kept.mem_carve_iff {sha256 : Bytes → Vector UInt8 32} {item : RecoveredItem} :
    item ∈ carveDeletedInodes sha256 p V.layout.sb (collectDeletedDirents p V.layout.sb) ↔
      ∃ x ∈ V.layout.items, MagicIntact p V.layout.sb (x.ino / V.layout.sb.inodesPerGroup) ∧
        ∃ content : Bytes, x.body = .file content.toList ∧ 3 ≤ x.ino ∧ V.used x.ino = false ∧
        content.len ≠ 0 ∧ (x.inode V.layout.sb).firstBlock ≠ 0 ∧
          item = .deletedFile none x.ino content.len content (sha256Hex sha256 content) := by
  have hmem {n : ℕ} (hfile : item.isFileOf n = true) : item ∈ recoverDeleted sha256 p ↔
      item ∈ carveDeletedInodes sha256 p V.layout.sb (collectDeletedDirents p V.layout.sb) := by
    rw [recoverDeleted, h.parses]
    refine List.mem_append.trans (or_iff_right fun hname => ?_)
    obtain ⟨d, -, rfl⟩ := List.mem_map.mp hname
    exact Bool.noConfusion hfile
  constructor
  · intro hitem
    obtain ⟨n, -, -, -, inode, content, -, hcarved⟩ :=
      (mem_carveDeletedInodes_iff h.wellFormed).mp hitem
    have hfile : item.isFileOf n = true := by
      rw [hcarved]
      exact beq_self_eq_true n
    exact (h.mem_recoverDeleted_file_iff hfile).mp ((hmem hfile).mpr hitem)
  · rintro ⟨x, hx, hmagic, content, hbody, h3, hused, hlen, hfirst, hitem⟩
    have hfile : item.isFileOf x.ino = true := by
      rw [hitem]
      exact beq_self_eq_true x.ino
    exact (hmem hfile).mp ((h.mem_recoverDeleted_file_iff hfile).mpr
      ⟨x, hx, hmagic, content, hbody, h3, hused, hlen, hfirst, hitem⟩)

end Kept

section Walk

variable {V W : Volume} {p q : Bytes} (hp : V.Kept p) (hq : W.Kept q) (h : V.Same W)
include hp hq h

theorem entriesOf_of_same {d : ℕ} (hd : d ∈ tree p V.layout.sb) :
    entriesOf p V.layout.sb d = entriesOf q W.layout.sb d := by
  have hd' : d ∈ tree q W.layout.sb := by
    rw [hq.mem_tree_iff, ← h.tree_eq]
    exact hp.mem_tree_iff.mp hd
  rw [hp.entriesOf_eq hd, hq.entriesOf_eq hd', h.records_eq]

/-- The walk meets the same directories in the same order, and the same free slots in them. -/
theorem collectDeletedDirents_of_same :
    collectDeletedDirents p V.layout.sb = collectDeletedDirents q W.layout.sb := by
  have hwalk : walkedDirs p V.layout.sb = walkedDirs q W.layout.sb := by
    refine Worklist.order_congr (S := (· ∈ tree p V.layout.sb)) (fun d hd => ⟨?_, fun y hy => ?_⟩)
      WALK_BUDGET fun d hd => ?_
    · rw [entriesOf_of_same hp hq h hd]
    · exact mem_tree_iff.mpr ((mem_tree_iff.mp hd).tail hy)
    · rw [List.mem_singleton.mp hd]
      exact .root
  rw [collectDeletedDirents_eq, collectDeletedDirents_eq, ← hwalk]
  refine List.flatMap_congr fun d hd => ?_
  rw [entriesOf_of_same hp hq h (((collectDeletedDirents_complete hp.walk_budget).2.1 d).mp hd)]

end Walk

section Findings

variable {V W : Volume} {p q : Bytes} (hp : V.Held p) (hq : W.Held q) (h : V.Same W)
include hp hq h

theorem mem_checkOrphanedInodes_of_same {a : Anomaly}
    (ha : a ∈ checkOrphanedInodes p V.layout.sb) : a ∈ checkOrphanedInodes q W.layout.sb := by
  obtain ⟨x, hx, h3, hused, hlink, hnot, rfl⟩ := hp.mem_checkOrphanedInodes_iff.mp ha
  obtain ⟨y, hy, hxy⟩ := exists_of_mem_of_forall₂ h.items hx
  refine hq.mem_checkOrphanedInodes_iff.mpr ⟨y, hy, ?_⟩
  rw [← hxy.ino_eq, ← hxy.nlink_eq, ← h.tree_eq, ← h.used x hx]
  exact ⟨h3, hused, hlink, hnot, rfl⟩

theorem mem_carve_of_same (hholes : V.SameHoles W) {sha256 : Bytes → Vector UInt8 32}
    {item : RecoveredItem}
    (hitem : item ∈ carveDeletedInodes sha256 p V.layout.sb
      (collectDeletedDirents p V.layout.sb)) :
    item ∈ carveDeletedInodes sha256 q W.layout.sb (collectDeletedDirents q W.layout.sb) := by
  obtain ⟨x, hx, -, content, hbody, h3, hused, hlen, hfirst, rfl⟩ := hp.mem_carve_iff.mp hitem
  obtain ⟨y, hy, hxy⟩ := exists_of_mem_of_forall₂ h.items hx
  have hnode := hxy.node_eq
  rw [hbody] at hnode
  have hfirst' : y.dinode.direct[0] ≠ 0 := fun h0 =>
    hfirst ((hholes x hx y hy hxy.ino_eq hused).mpr h0)
  refine hq.mem_carve_iff.mpr
    ⟨y, hy, hq.magicIntact_item hy, content, Body.eq_file hnode.symm, ?_⟩
  rw [← hxy.ino_eq, ← h.used x hx]
  exact ⟨h3, hused, hlen, hfirst', rfl⟩

end Findings

namespace Crafted

def flatSb : Superblock := { tinySb with maxsymlinklen := 60 }

def flatDinode (mode : UInt16) (size : UInt64) (direct : List UInt64) : Dinode :=
  { shelfDinode mode size direct with birthtime := none }

/-- The volume `soldShelf` as UFS1, in the other byte order and at other addresses. -/
def flatShelf : Volume where
  layout := {
    sb := flatSb
    table := []
    items := [
      ⟨2, flatDinode 0o040755 60 [40],
        .dir (shelfRoot.flatMap (DirRecord.encode .little)) [(shelfRoot, [])]⟩,
      ⟨3, flatDinode 0o040755 12 [28],
        .dir (shelfSub.flatMap (DirRecord.encode .little)) [(shelfSub, [])]⟩,
      ⟨4, flatDinode 0o100644 520 [36, 0], .file shelfFile⟩,
      ⟨5, flatDinode 0o120777 3 [0x00672f64], .inlineLink [100, 47, 103]⟩,
      ⟨6, flatDinode 0o100644 3 [29], .file [98, 121, 101]⟩,
      ⟨7, flatDinode 0o100600 2 [24], .file [104, 109]⟩] }
  used n := n ≠ 6
  iusedoff := 200

theorem flatDinode_inRange {mode : UInt16} {size : UInt64} {direct : List UInt64}
    (hdirect : ∀ i : Fin 12, (direct.getD i 0).toNat < 2 ^ 32) :
    (flatDinode mode size direct).InRange .ufs1 where
  blocks_ufs1 _ := (by decide : (0 : UInt64).toNat < 2 ^ 32)
  times_ufs1 _ t ht := by
    obtain rfl : t = ⟨0, 0⟩ := by simpa [flatDinode, shelfDinode] using ht
    decide
  birthtime_isSome := by simp [flatDinode]
  direct i hi _ := by simpa [flatDinode, shelfDinode] using hdirect ⟨i, hi⟩
  indirect i hi _ := by simp [flatDinode, shelfDinode]

theorem flatShelf_valid : flatShelf.Valid where
  layout := {
    wellFormed := Superblock.validateGeometry_eq_ok_iff.mp (by decide +kernel)
    ipg_pos := by decide +kernel
    fpg_pos := by decide +kernel
    iblkno_nonneg := by decide +kernel
    room := by decide +kernel
    holds := nofun
    item := by
      intro x hx
      have hcases : x ∈ flatShelf.layout.items := hx
      simp only [flatShelf, List.mem_cons, List.not_mem_nil, or_false] at hcases
      have hin (i : ℕ) (hi : i < 8) : i < flatSb.inodesPerGroup * flatSb.ncg.toNat := by
        rwa [show flatSb.inodesPerGroup * flatSb.ncg.toNat = 8 by decide +kernel]
      obtain rfl | rfl | rfl | rfl | rfl | rfl := hcases
      · exact ⟨hin 2 (by norm_num), flatDinode_inRange (by decide), by decide +kernel,
          shelf_laidOut (by decide +kernel) (by decide +kernel) (by decide +kernel),
          shelf_dirLaidOut (by decide +kernel) (by decide +kernel)⟩
      · exact ⟨hin 3 (by norm_num), flatDinode_inRange (by decide), by decide +kernel,
          shelf_laidOut (by decide +kernel) (by decide +kernel) (by decide +kernel),
          shelf_dirLaidOut (by decide +kernel) (by decide +kernel)⟩
      · exact ⟨hin 4 (by norm_num), flatDinode_inRange (by decide), by decide +kernel,
          shelf_laidOut (by decide +kernel) (by decide +kernel) (by decide +kernel)⟩
      · exact ⟨hin 5 (by norm_num), flatDinode_inRange (by decide), by decide +kernel,
          by decide +kernel, by unfold InlineLength; decide +kernel, by decide +kernel⟩
      · exact ⟨hin 6 (by norm_num), flatDinode_inRange (by decide), by decide +kernel,
          shelf_laidOut (by decide +kernel) (by decide +kernel) (by decide +kernel)⟩
      · exact ⟨hin 7 (by norm_num), flatDinode_inRange (by decide), by decide +kernel,
          shelf_laidOut (by decide +kernel) (by decide +kernel) (by decide +kernel)⟩
    root := by decide +kernel
    entry := by decide +kernel }
  inRange := ⟨Superblock.validateGeometry_eq_ok_iff.mp (by decide +kernel), fun _ => by decide +kernel,
    fun _ => by decide +kernel, fun _ => by decide +kernel⟩
  cblkno_nonneg := by decide +kernel
  root := by decide +kernel
  used := by decide +kernel
  types := by decide +kernel
  budget := by decide +kernel

def spareDisk : Bytes := Bytes.tabulate 40960 (by decide) fun i => UInt8.ofNat (7 * i)

theorem flatShelf_writable : flatShelf.Writable 40960 where
  valid := flatShelf_valid
  apart := Bytes.pairwise_apart_of_sorted (by decide +kernel)
  inside := by decide +kernel
  located := by decide +kernel
  fits := by decide +kernel
  primaryRoom := by decide +kernel
  headerRoom := by decide +kernel
  backupRoom := by decide +kernel

theorem flatShelf_held : flatShelf.Held (flatShelf.write spareDisk) :=
  Volume.Writable.held flatShelf_writable (by decide +kernel)

theorem soldShelf_same : soldShelf.Same flatShelf where
  items := by
    refine .cons ?_ (.cons ?_ (.cons ?_ (.cons ?_ (.cons ?_ (.cons ?_ .nil)))))
    all_goals exact ⟨rfl, rfl, rfl, rfl⟩
  used _ _ := rfl

theorem soldShelf_sameHoles : soldShelf.SameHoles flatShelf := by
  unfold Volume.SameHoles
  decide +kernel

end Crafted

end UfsForensic
