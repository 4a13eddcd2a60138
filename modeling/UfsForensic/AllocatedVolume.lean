import UfsForensic.AbsorbedEntry
import UfsForensic.DeletionRuns
import UfsForensic.Findings
import UfsForensic.MountedVolume
import UfsForensic.RecoveryWalk
import UfsForensic.SweepFindings

/-!
# Volumes with an allocation map

A volume together with the inodes marked used in it, as a formatter writes them: a header with an
inode bitmap in each group, a backup superblock in each group but the first, and no mode in the
dinodes that hold nothing. On a partition that holds such a volume the audit and the recovery say
exactly what the volume's tree and its allocation map say.
-/

namespace UfsForensic

open Bytes (Run Stores)

/-- The names that the walks do not follow. -/
def Dots (name : List UInt8) : Prop := name = DOT ∨ name = DOTDOT

def Layout.records (L : Layout) (i : ℕ) : List DirRecord :=
  match L.items.find? fun x => x.ino == i with
  | some ⟨_, _, .dir _ blocks⟩ => blocks.flatMap Prod.fst
  | _ => []

/-- What the records of directory `i` name as directories, one for each record. -/
def Layout.subdirs (L : Layout) (i : ℕ) : List ℕ :=
  (L.records i).filterMap fun r => r.entry.subdir

/-- A layout, the inodes marked used, and where in its group each bitmap lies. -/
structure Volume where
  layout : Layout
  used : ℕ → Bool
  iusedoff : UInt32

namespace Volume

/-- The flag of inode `i` of group `c`; the bitmap is padded with clear bits. -/
def usedIn (V : Volume) (c i : ℕ) : Bool :=
  i < V.layout.sb.inodesPerGroup && V.used (c * V.layout.sb.inodesPerGroup + i)

def bitmap (V : Volume) (c : ℕ) : List UInt8 :=
  (List.range V.layout.sb.bitmapLen).map fun b => packBits fun k => V.usedIn c (8 * b + k)

def magicRun (V : Volume) (c : ℕ) : Run :=
  V.layout.sb.endian.u32Run (V.layout.sb.headerOff c + CylinderGroup.OFF_MAGIC) CG_MAGIC

/-- The bitmap of group `c`, and the header field that says where it is. -/
def mapRuns (V : Volume) (c : ℕ) : List Run :=
  [V.layout.sb.endian.u32Run (V.layout.sb.headerOff c + CylinderGroup.OFF_IUSEDOFF) V.iusedoff,
    (V.layout.sb.headerOff c + V.iusedoff.toNat, V.bitmap c)]

def headerRuns (V : Volume) (c : ℕ) : List Run := V.magicRun c :: V.mapRuns c

def backupRuns (V : Volume) (c : ℕ) : List Run :=
  V.layout.sb.fields.map fun r => (V.layout.sb.backupOff c + r.1, r.2)

/-- The empty modes of the dinodes that hold nothing. -/
def blankRuns (V : Volume) : List Run :=
  ((List.range (V.layout.sb.inodesPerGroup * V.layout.sb.ncg.toNat)).filter fun n =>
    (V.layout.tree.node n).isNone).map fun n => V.layout.sb.endian.u16Run (V.layout.sb.dinodeOff n) 0

def runs (V : Volume) : List Run :=
  V.layout.volumeRuns ++ ((List.range V.layout.sb.ncg.toNat).flatMap V.headerRuns ++
    ((List.range' 1 (V.layout.sb.ncg.toNat - 1)).flatMap V.backupRuns ++ V.blankRuns))

/-- The layout is valid, its root is a directory, what is used is laid out, records tell directories
from other nodes, and no more of them name directories than the walks have budget for. -/
structure Valid (V : Volume) : Prop where
  layout : V.layout.Valid
  inRange : V.layout.sb.InRange
  cblkno_nonneg : 0 ≤ V.layout.sb.cblkno.toInt
  root : V.layout.tree.IsDir UFS_ROOTINO
  used : ∀ n < V.layout.sb.inodesPerGroup * V.layout.sb.ncg.toNat, 3 ≤ n → V.used n = true →
    (V.layout.tree.node n).isSome = true
  types : ∀ x ∈ V.layout.items, ∀ r ∈ V.layout.records x.ino, r.ino ≠ 0 →
    (DirEntryType.fromDType r.dType = .directory ↔ V.layout.tree.IsDir r.ino.toNat)
  budget : 1 + ∑ d ∈ (V.layout.items.map Item.ino).toFinset, (V.layout.subdirs d).length ≤
    WALK_BUDGET

/-- The partition has the layout of the volume, found through its primary superblock, and its bitmaps
and empty dinodes. What else is in the groups, the magics of the headers and the backup superblocks,
can be anything. -/
structure Kept (V : Volume) (p : Bytes) : Prop where
  valid : V.Valid
  layout : V.layout.Held p
  parses : parsePrimarySb p = .ok V.layout.sb
  map : ∀ c < V.layout.sb.ncg.toNat, ∀ r ∈ V.mapRuns c, Stores p r
  headerRoom : ∀ c < V.layout.sb.ncg.toNat,
    V.layout.sb.headerOff c + CylinderGroup.CG_MIN_LEN ≤ p.len
  backupRoom : ∀ c, 1 ≤ c → c < V.layout.sb.ncg.toNat →
    V.layout.sb.backupOff c + SB_MIN_LEN ≤ p.len
  blank : ∀ r ∈ V.blankRuns, Stores p r

/-- The partition holds the whole volume. -/
structure Held (V : Volume) (p : Bytes) : Prop extends V.Kept p where
  magic : ∀ c < V.layout.sb.ncg.toNat, Stores p (V.magicRun c)
  backup : ∀ c, 1 ≤ c → c < V.layout.sb.ncg.toNat → ∀ r ∈ V.backupRuns c, Stores p r

end Volume

def MagicIntact (p : Bytes) (sb : Superblock) (c : ℕ) : Prop :=
  sb.endian.u32 p (sb.headerOff c + CylinderGroup.OFF_MAGIC) = CG_MAGIC

instance (p : Bytes) (sb : Superblock) (c : ℕ) : Decidable (MagicIntact p sb c) :=
  inferInstanceAs (Decidable (_ = _))

section Allocation

variable {V : Volume} {p : Bytes} (h : V.Kept p)
include h

theorem Volume.Kept.wellFormed : V.layout.sb.WellFormed := h.valid.layout.wellFormed

section Group

variable {c : ℕ} (hc : c < V.layout.sb.ncg.toNat)
include hc

theorem Volume.Kept.bitmapOff_eq :
    bitmapOff p V.layout.sb c = V.layout.sb.headerOff c + V.iusedoff.toNat := by
  have hroom := h.headerRoom c hc
  have hstored := (h.map c hc _ List.mem_cons_self).hasRun
  unfold CylinderGroup.CG_MIN_LEN at hroom
  rw [bitmapOff, (hasRun_u32Run (by unfold CylinderGroup.OFF_IUSEDOFF; omega) _).mp hstored]

theorem Volume.Kept.bitmap_stores :
    Stores p (bitmapOff p V.layout.sb c, V.bitmap c) := by
  rw [h.bitmapOff_eq hc]
  exact h.map c hc _ (List.mem_cons_of_mem _ List.mem_cons_self)

theorem Volume.Kept.bitmap_inside : bitmapOff p V.layout.sb c + V.layout.sb.bitmapLen ≤ p.len := by
  have hin := (h.bitmap_stores hc).inside
  simpa [Volume.bitmap] using hin

theorem Volume.Kept.bitmapReadable_iff :
    BitmapReadable p V.layout.sb c ↔ MagicIntact p V.layout.sb c :=
  ⟨fun hread => hread.magic_eq, fun hmagic => ⟨h.valid.layout.fpg_pos, h.valid.cblkno_nonneg,
    h.valid.layout.ipg_pos, h.headerRoom c hc, hmagic, h.bitmap_inside hc⟩⟩

end Group

theorem Volume.Kept.markedUsed_eq {n : ℕ}
    (hn : n < V.layout.sb.inodesPerGroup * V.layout.sb.ncg.toNat) :
    MarkedUsed p V.layout.sb n = V.used n := by
  have hc := Nat.div_lt_of_lt_mul hn
  have hlow : n % V.layout.sb.inodesPerGroup < V.layout.sb.inodesPerGroup :=
    Nat.mod_lt n (Nat.pos_of_ne_zero fun h0 => by simp [h0] at hn)
  have hlt : n % V.layout.sb.inodesPerGroup / 8 < V.layout.sb.bitmapLen := by
    have hceil := BlockMap.divCeil_mul_ge (a := V.layout.sb.inodesPerGroup) (d := 8) (by norm_num)
    unfold Superblock.bitmapLen
    omega
  have hbyte := (h.bitmap_stores hc).hasRun (n % V.layout.sb.inodesPerGroup / 8)
    (by simpa [Volume.bitmap] using hlt)
  have hdiv := Nat.div_add_mod' n V.layout.sb.inodesPerGroup
  have hmod := Nat.div_add_mod (n % V.layout.sb.inodesPerGroup) 8
  unfold MarkedUsed inodeBitByte
  rw [hbyte]
  simp only [Volume.bitmap, List.getElem_map, List.getElem_range]
  rw [bitOf_packBits _ (Nat.mod_lt _ (by norm_num)), hmod, Volume.usedIn, decide_eq_true hlow,
    Bool.true_and, hdiv]

theorem Volume.Kept.bitmap_bit_iff {n : ℕ}
    (hn : n < V.layout.sb.inodesPerGroup * V.layout.sb.ncg.toNat) (b : Bool) :
    (∃ used, cgInodeBitmap p V.layout.sb (n / V.layout.sb.inodesPerGroup) = some used ∧
      bitmapBit used (n % V.layout.sb.inodesPerGroup) = b) ↔
        MagicIntact p V.layout.sb (n / V.layout.sb.inodesPerGroup) ∧ V.used n = b := by
  have hiff := h.bitmapReadable_iff (Nat.div_lt_of_lt_mul hn)
  simp only [cgInodeBitmap_eq_some_iff h.wellFormed, hiff, and_assoc]
  constructor
  · rintro ⟨used, hmagic, rfl, hbit⟩
    rw [bitmapBit_eq_markedUsed (hiff.mpr hmagic), h.markedUsed_eq hn] at hbit
    exact ⟨hmagic, hbit⟩
  · rintro ⟨hmagic, hused⟩
    refine ⟨_, hmagic, rfl, ?_⟩
    rw [bitmapBit_eq_markedUsed (hiff.mpr hmagic), h.markedUsed_eq hn, hused]

end Allocation

theorem Volume.Held.magicIntact {V : Volume} {p : Bytes} (h : V.Held p) {c : ℕ}
    (hc : c < V.layout.sb.ncg.toNat) : MagicIntact p V.layout.sb c := by
  have hroom := h.headerRoom c hc
  unfold CylinderGroup.CG_MIN_LEN at hroom
  exact (hasRun_u32Run (by unfold CylinderGroup.OFF_MAGIC; omega) _).mp (h.magic c hc).hasRun

theorem Layout.exists_find {L : Layout} {i : ℕ} {n : VolumeNode} (h : L.tree.node i = some n) :
    ∃ x ∈ L.items, L.items.find? (fun x => x.ino == i) = some x ∧ x.ino = i ∧ x.body.node = n := by
  obtain ⟨x, hx, rfl⟩ := Option.map_eq_some_iff.mp h
  exact ⟨x, List.mem_of_find?_eq_some hx, hx, by simpa using List.find?_some hx, rfl⟩

theorem Layout.records_of_find {L : Layout} {i : ℕ} {x : Item}
    (hfind : (L.items.find? fun x => x.ino == i) = some x) {content : List UInt8}
    {blocks : List (List DirRecord × List UInt8)} (hbody : x.body = .dir content blocks) :
    L.records i = blocks.flatMap Prod.fst := by
  obtain ⟨ino, dinode, body⟩ := x
  obtain rfl : body = .dir content blocks := hbody
  rw [records, hfind]

theorem Layout.mem_entries_iff {L : Layout} {i : ℕ} {e : List UInt8 × ℕ} :
    e ∈ L.tree.entries i ↔ ∃ r ∈ L.records i, r.ino ≠ 0 ∧ e = (r.name, r.ino.toNat) := by
  unfold Layout.records NodeTree.entries Layout.tree
  dsimp only
  cases L.items.find? fun x => x.ino == i with
  | none => simp
  | some x =>
    obtain ⟨ino, dinode, body⟩ := x
    cases body with
    | dir content blocks =>
      simp only [Option.map_some, Body.node, liveNames, List.mem_map, List.mem_filter,
        decide_eq_true_eq, and_assoc, eq_comm (a := e)]
    | file content => simp [Body.node]
    | link target => simp [Body.node]
    | inlineLink target => simp [Body.node]
    | special => simp [Body.node]

theorem Layout.exists_item_of_mem_records {L : Layout} {i : ℕ} {r : DirRecord}
    (hr : r ∈ L.records i) : ∃ x ∈ L.items, x.ino = i := by
  unfold Layout.records at hr
  split at hr
  · next hfind =>
    exact ⟨_, List.mem_of_find?_eq_some hfind, by simpa using List.find?_some hfind⟩
  · exact absurd hr List.not_mem_nil

theorem Volume.Valid.type_iff {V : Volume} (h : V.Valid) {i : ℕ} {r : DirRecord}
    (hr : r ∈ V.layout.records i) (hino : r.ino ≠ 0) :
    DirEntryType.fromDType r.dType = .directory ↔ V.layout.tree.IsDir r.ino.toNat := by
  obtain ⟨x, hx, rfl⟩ := Layout.exists_item_of_mem_records hr
  exact h.types x hx r hr hino

theorem Layout.Held.entriesOf_eq {L : Layout} {p : Bytes} (h : L.Held p) {i : ℕ}
    {es : List (List UInt8 × ℕ)} (hn : L.tree.node i = some (.dir es)) :
    entriesOf p L.sb i = (L.records i).map DirRecord.entry := by
  obtain ⟨x, hx, hfind, rfl, hnode⟩ := Layout.exists_find hn
  obtain ⟨content, blocks, hbody, -⟩ := Body.exists_eq_dir hnode
  rw [Layout.records_of_find hfind hbody, entriesOf,
    listDirAll_eq_ok_iff.mpr ⟨_, h.readInode_dir hx hbody, rfl⟩]
  exact h.listDirEntries_dir hx hbody

theorem named_eq (p : Bytes) (sb : Superblock) (d : ℕ) :
    named p sb d = (entriesOf p sb d).filterMap DirEntry.target := by
  unfold named entriesOf
  cases listDirAll p sb d with
  | error e => rfl
  | ok entries => rfl

theorem target_entry_iff {r : DirRecord} {t : ℕ × Bool} :
    r.entry.target = some t ↔ r.ino ≠ 0 ∧ ¬ Dots r.name ∧ r.ino.toNat = t.1 ∧
      decide (DirEntryType.fromDType r.dType = .directory) = t.2 := by
  rw [target_eq_some_iff]
  unfold DirEntry.Live Dots isDirEntry DirRecord.entry
  simp only [decide_eq_false_iff_not, not_or, ne_eq, and_assoc]

section Tree

variable {V : Volume} {p : Bytes} (h : V.Kept p)
include h

theorem Volume.Kept.mem_named_iff {i : ℕ} (hi : V.layout.tree.Below Dots i) {t : ℕ × Bool} :
    t ∈ named p V.layout.sb i ↔ ∃ r ∈ V.layout.records i, r.ino ≠ 0 ∧ ¬ Dots r.name ∧
      r.ino.toNat = t.1 ∧ decide (DirEntryType.fromDType r.dType = .directory) = t.2 := by
  obtain ⟨es, hes⟩ := (hi.isDir h.valid.root).exists_node
  rw [named_eq, h.layout.entriesOf_eq hes, List.filterMap_map]
  simp only [List.mem_filterMap, Function.comp_apply, target_entry_iff]

theorem Volume.Kept.mem_tree_iff {i : ℕ} :
    i ∈ tree p V.layout.sb ↔ V.layout.tree.Below Dots i := by
  constructor
  · intro hi
    induction hi with
    | root => exact .root
    | step _ hy ih =>
      obtain ⟨r, hr, hino, hname, rfl, hdir⟩ := (h.mem_named_iff ih).mp hy
      exact .step ih (Layout.mem_entries_iff.mpr ⟨r, hr, hino, rfl⟩) hname
        ((h.valid.type_iff hr hino).mp (of_decide_eq_true hdir))
  · intro hi
    induction hi with
    | root => exact .root
    | step hi hmem hname hj ih =>
      obtain ⟨r, hr, hino, heq⟩ := Layout.mem_entries_iff.mp hmem
      obtain ⟨rfl, rfl⟩ := Prod.mk.inj heq
      have hdir := (h.valid.type_iff hr hino).mpr hj
      exact Worklist.Reach.step ih
        ((h.mem_named_iff hi).mpr ⟨r, hr, hino, hname, rfl, decide_eq_true hdir⟩)

theorem Volume.Kept.namedInTree_iff {n : ℕ} :
    NamedInTree p V.layout.sb n ↔ V.layout.tree.IsNamed Dots n := by
  rw [namedInTree_iff_target]
  constructor
  · rintro ⟨d, b, hd, ht⟩
    have hd' := h.mem_tree_iff.mp hd
    obtain ⟨r, hr, hino, hname, rfl, -⟩ := (h.mem_named_iff hd').mp ht
    exact ⟨d, r.name, hd', Layout.mem_entries_iff.mpr ⟨r, hr, hino, rfl⟩, hname⟩
  · rintro ⟨d, name, hd, hmem, hname⟩
    obtain ⟨r, hr, hino, heq⟩ := Layout.mem_entries_iff.mp hmem
    obtain ⟨rfl, rfl⟩ := Prod.mk.inj heq
    exact ⟨d, _, h.mem_tree_iff.mpr hd,
      (h.mem_named_iff hd).mpr ⟨r, hr, hino, hname, rfl, rfl⟩⟩

theorem Volume.Kept.tree_subset_inos {d : ℕ} (hd : d ∈ tree p V.layout.sb) :
    d ∈ (V.layout.items.map Item.ino).toFinset := by
  obtain ⟨es, hes⟩ := ((h.mem_tree_iff.mp hd).isDir h.valid.root).exists_node
  obtain ⟨x, hx, rfl, -⟩ := Layout.exists_item hes
  exact List.mem_toFinset.mpr (List.mem_map_of_mem hx)

theorem Volume.Kept.consistentTypes : ConsistentTypes p V.layout.sb := by
  have htype : ∀ d ∈ tree p V.layout.sb, ∀ entries, listDirAll p V.layout.sb d = .ok entries →
      ∀ e ∈ entries, e.Live →
        (isDirEntry e = true ↔ V.layout.tree.IsDir e.ino) := by
    intro d hd entries hlist e he hlive
    have hmem : (e.ino, isDirEntry e) ∈ named p V.layout.sb d :=
      UfsForensic.mem_named_iff.mpr ⟨entries, hlist, e, he, hlive, rfl, rfl⟩
    obtain ⟨r, hr, hino, -, hrino, hdir⟩ := (h.mem_named_iff (h.mem_tree_iff.mp hd)).mp hmem
    dsimp only at hrino hdir
    rw [← hdir, ← hrino, decide_eq_true_iff]
    exact h.valid.type_iff hr hino
  intro d hd d' hd' entries entries' hlist hlist' e he e' he' hlive hlive' hino _
  rw [Bool.eq_iff_iff, htype d hd entries hlist e he hlive,
    htype d' hd' entries' hlist' e' he' hlive', hino]

theorem Volume.Kept.walk_budget :
    1 + ∑ d ∈ treeDirs p V.layout.sb, (subdirs p V.layout.sb d).length ≤ WALK_BUDGET := by
  have hsub : treeDirs p V.layout.sb ⊆ (V.layout.items.map Item.ino).toFinset :=
    fun d hd => h.tree_subset_inos (mem_treeDirs_iff.mp hd)
  have hsame : ∀ d ∈ treeDirs p V.layout.sb,
      (subdirs p V.layout.sb d).length = (V.layout.subdirs d).length := by
    intro d hd
    obtain ⟨es, hes⟩ :=
      ((h.mem_tree_iff.mp (mem_treeDirs_iff.mp hd)).isDir h.valid.root).exists_node
    rw [subdirs, h.layout.entriesOf_eq hes, List.filterMap_map]
    rfl
  rw [Finset.sum_congr rfl hsame]
  exact (Nat.add_le_add_left (Finset.sum_le_sum_of_subset hsub) 1).trans h.valid.budget

theorem Volume.Kept.tree_small : (tree p V.layout.sb).encard ≤ WALK_BUDGET :=
  tree_encard_le_of_budget h.walk_budget

end Tree

/-- Lists in the order of a key are told apart by their elements. -/
theorem eq_of_increasing {α : Type*} {l m : List α} {key : α → ℕ}
    (hl : l.Pairwise fun x y => key x < key y)
    (hm : m.Pairwise fun x y => key x < key y) (hmem : ∀ x, x ∈ l ↔ x ∈ m) : l = m := by
  have hnodup {l : List α} (hl : l.Pairwise fun x y => key x < key y) : l.Nodup :=
    hl.imp fun {x y} hlt heq => absurd (heq ▸ hlt) (Nat.lt_irrefl _)
  have hperm : l.Perm m := (List.perm_ext_iff_of_nodup (hnodup hl) (hnodup hm)).mpr hmem
  exact hperm.eq_of_pairwise (fun x y _ _ hxy hyx => absurd hyx (Nat.lt_asymm hxy)) hl hm

section Audit

variable {V : Volume} {p : Bytes} (h : V.Kept p)
include h

theorem Volume.Kept.geometryPossible : GeometryPossible p V.layout.sb := by
  have hsb := h.wellFormed
  have hfs := hsb.fsize_pos
  have hfpg := h.valid.layout.fpg_pos
  have hsize : i32AsU64 V.layout.sb.fsize = V.layout.sb.fragBytes := hsb.fsize_eq
  have hfrags : i32AsU64 V.layout.sb.fpg = V.layout.sb.fragsPerGroup := i32AsU64_of_nonneg hfpg.le
  unfold GeometryPossible checkImpossibleGeometry
  rw [if_pos hfs, if_pos hfpg, hsize, hfrags]
  by_cases hzero : V.layout.sb.fragBytes = 0 ∨ V.layout.sb.fragsPerGroup = 0 ∨
      V.layout.sb.ncg.toNat = 0
  · rw [if_pos hzero]
  have hlast := h.headerRoom (V.layout.sb.ncg.toNat - 1) (by omega)
  have hbase : satMul (V.layout.sb.ncg.toNat - 1)
      (satMul V.layout.sb.fragsPerGroup V.layout.sb.fragBytes) < p.len := by
    unfold CylinderGroup.CG_MIN_LEN Superblock.headerOff at hlast
    calc satMul (V.layout.sb.ncg.toNat - 1)
          (satMul V.layout.sb.fragsPerGroup V.layout.sb.fragBytes)
        ≤ (V.layout.sb.ncg.toNat - 1) *
          (V.layout.sb.fragsPerGroup * V.layout.sb.fragBytes) :=
          (min_le_left _ _).trans (Nat.mul_le_mul_left _ (min_le_left _ _))
      _ = (V.layout.sb.ncg.toNat - 1) * V.layout.sb.fragsPerGroup * V.layout.sb.fragBytes :=
          (Nat.mul_assoc _ _ _).symm
      _ ≤ ((V.layout.sb.ncg.toNat - 1) * V.layout.sb.fragsPerGroup +
          V.layout.sb.cblkno.toInt.toNat) * V.layout.sb.fragBytes :=
          Nat.mul_le_mul_right _ (Nat.le_add_right _ _)
      _ < p.len := by omega
  rw [if_neg hzero]
  exact if_pos hbase

theorem Volume.Kept.auditImage_eq :
    auditImage p = groupFindings p V.layout.sb ++ checkOrphanedInodes p V.layout.sb := by
  have hgeometry := h.geometryPossible
  unfold GeometryPossible at hgeometry
  rw [auditImage, h.parses]
  simp only [auditFrom, hgeometry, groupFindings]

theorem Volume.Kept.mem_checkOrphanedInodes_iff {a : Anomaly} :
    a ∈ checkOrphanedInodes p V.layout.sb ↔ ∃ x ∈ V.layout.items, 3 ≤ x.ino ∧
      MagicIntact p V.layout.sb (x.ino / V.layout.sb.inodesPerGroup) ∧ V.used x.ino = true ∧
      0 < x.dinode.nlink.toNat ∧ ¬ V.layout.tree.IsNamed Dots x.ino ∧
        a = Anomaly.new (.orphanedInode x.ino x.dinode.nlink) := by
  have hreach {n : ℕ} (hn : 3 ≤ n) :
      n ∈ reachableInodes p V.layout.sb ↔ V.layout.tree.IsNamed Dots n := by
    rw [mem_reachableInodes_iff h.tree_small h.consistentTypes.nothingHidden,
      h.namedInTree_iff]
    unfold UFS_ROOTINO
    exact or_iff_right (by omega)
  rw [UfsForensic.mem_checkOrphanedInodes_iff h.wellFormed]
  constructor
  · rintro ⟨n, ⟨h3, hlt, hused, ⟨inode', hinode', hlink⟩⟩, hnot, inode, hinode, rfl⟩
    rw [hreach h3] at hnot
    obtain ⟨hmagic, hbit⟩ := (h.bitmap_bit_iff hlt true).mp hused
    obtain ⟨node, hnode⟩ := Option.isSome_iff_exists.mp (h.valid.used n hlt h3 hbit)
    obtain ⟨x, hx, rfl, -⟩ := Layout.exists_item hnode
    have hread := h.layout.readInode_eq hx
    obtain rfl := Except.ok.inj (hinode.symm.trans hread)
    obtain rfl := Except.ok.inj (hinode'.symm.trans hread)
    exact ⟨x, hx, h3, hmagic, hbit, hlink, hnot, rfl⟩
  · rintro ⟨x, hx, h3, hmagic, hused, hlink, hnot, rfl⟩
    have hlt := (h.valid.layout.item x hx).lt_inodes
    have hread := h.layout.readInode_eq hx
    refine ⟨x.ino, ⟨h3, hlt, (h.bitmap_bit_iff hlt true).mpr ⟨hmagic, hused⟩, _, hread, hlink⟩,
      ?_, _, hread, rfl⟩
    rwa [hreach h3]

theorem Volume.Kept.orphans_increasing : (checkOrphanedInodes p V.layout.sb).Pairwise fun a b =>
    a.orphanIno.getD 0 < b.orphanIno.getD 0 := by
  have hpairs := checkOrphanedInodes_pairwise (p := p) h.wellFormed
  rw [List.pairwise_filterMap] at hpairs
  refine hpairs.imp_of_mem fun {a b} ha hb hab => ?_
  obtain ⟨x, -, -, -, -, -, -, rfl⟩ := h.mem_checkOrphanedInodes_iff.mp ha
  obtain ⟨y, -, -, -, -, -, -, rfl⟩ := h.mem_checkOrphanedInodes_iff.mp hb
  exact hab x.ino rfl y.ino rfl

end Audit

section Held

variable {V : Volume} {p : Bytes} (h : V.Held p)
include h

theorem Volume.Held.backup_parses {c : ℕ} (hone : 1 ≤ c) (hc : c < V.layout.sb.ncg.toNat) :
    ParsesAt p (V.layout.sb.backupOff c) V.layout.sb := by
  have hroom := h.backupRoom c hone hc
  have hfound := parsePrimary_of_stores h.valid.inRange hroom fun r hr =>
    h.backup c hone hc _ (List.mem_map_of_mem hr)
  unfold UfsFs.parsePrimary at hfound
  unfold ParsesAt
  rwa [Bytes.getFrom_eq_some (by omega)] at hfound

theorem Volume.Held.magic_reads {c : ℕ} (hc : c < V.layout.sb.ncg.toNat) :
    leU32 p (V.layout.sb.headerOff c + 4) = CG_MAGIC ∨
      beU32 p (V.layout.sb.headerOff c + 4) = CG_MAGIC := by
  have hmagic := h.magicIntact hc
  unfold MagicIntact at hmagic
  cases he : V.layout.sb.endian with
  | little =>
    rw [he] at hmagic
    exact Or.inl hmagic
  | big =>
    rw [he] at hmagic
    exact Or.inr hmagic

/-- Neither a backup nor a header gives rise to a finding. -/
theorem Volume.Held.groupFindings_eq : groupFindings p V.layout.sb = [] := by
  refine List.eq_nil_iff_forall_not_mem.mpr fun a ha => ?_
  cases (mem_groupFindings_iff h.wellFormed).mp ha with
  | backup _ hone hc _ hparse hdiffers =>
    -- the backup is the primary, so no value differs from its own
    obtain rfl := Except.ok.inj ((h.backup_parses hone hc).symm.trans hparse)
    exact Superblock.not_differs_self hdiffers
  | header _ hc _ _ hle hbe => exact (h.magic_reads hc).elim hle hbe

theorem Volume.Held.auditImage_eq : auditImage p = checkOrphanedInodes p V.layout.sb := by
  rw [h.toKept.auditImage_eq, h.groupFindings_eq, List.nil_append]

theorem Volume.Held.magicIntact_item {x : Item} (hx : x ∈ V.layout.items) :
    MagicIntact p V.layout.sb (x.ino / V.layout.sb.inodesPerGroup) :=
  h.magicIntact (Nat.div_lt_of_lt_mul (h.valid.layout.item x hx).lt_inodes)

theorem Volume.Held.mem_checkOrphanedInodes_iff {a : Anomaly} :
    a ∈ checkOrphanedInodes p V.layout.sb ↔ ∃ x ∈ V.layout.items, 3 ≤ x.ino ∧
      V.used x.ino = true ∧ 0 < x.dinode.nlink.toNat ∧ ¬ V.layout.tree.IsNamed Dots x.ino ∧
        a = Anomaly.new (.orphanedInode x.ino x.dinode.nlink) := by
  rw [h.toKept.mem_checkOrphanedInodes_iff]
  refine exists_congr fun x => and_congr_right fun hx => and_congr_right fun _ => ?_
  exact and_iff_right (h.magicIntact_item hx)

end Held

section Recovery

variable {V : Volume} {p : Bytes} (h : V.Kept p)
include h

theorem Volume.Kept.not_regular_of_blank {n : ℕ} (hnone : V.layout.tree.node n = none)
    {inode : Inode} (hread : readInode p V.layout.sb n = .ok inode) : inode.isRegular = false := by
  obtain ⟨-, -, -, hlt, hin, hparse⟩ := (readInode_eq_ok_iff h.wellFormed).mp hread
  rw [inodeSize_eq] at hin hparse
  have hlen : (p.slice (V.layout.sb.dinodeOff n) V.layout.sb.version.dinodeSize).len =
      V.layout.sb.version.dinodeSize := by
    rw [Bytes.slice_len]
    omega
  have hsize : 2 ≤ V.layout.sb.version.dinodeSize := by cases V.layout.sb.version <;> decide
  have hstored := h.blank _ (List.mem_map_of_mem (List.mem_filter.mpr
    ⟨List.mem_range.mpr hlt, by simp [hnone]⟩))
  have hmode := (hasRun_u16Run (by omega) 0).mp hstored.hasRun
  rw [Dinode.parse_eq_decode, if_neg (by omega)] at hparse
  rw [← Except.ok.inj hparse, Inode.isRegular]
  have hfield : V.layout.sb.endian.u16 (p.slice (V.layout.sb.dinodeOff n)
      V.layout.sb.version.dinodeSize) 0 = 0 := by
    rw [Endian.u16_slice hsize, Nat.add_zero]
    exact hmode
  have hdecode : (Dinode.decode (p.slice (V.layout.sb.dinodeOff n)
      V.layout.sb.version.dinodeSize) V.layout.sb.version V.layout.sb.endian).mode = 0 := by
    cases hv : V.layout.sb.version <;> rw [hv] at hfield <;> exact hfield
  change decide (FileType.fromMode (Dinode.decode _ _ _).mode = _) = false
  rw [hdecode]
  decide

/-- The dinodes that recovery takes for files are those of the files laid out. -/
theorem Volume.Kept.intact_iff {n : ℕ} {inode : Inode} {content : Bytes} :
    Intact p V.layout.sb n inode content ↔ ∃ x ∈ V.layout.items, x.ino = n ∧
      x.inode V.layout.sb = inode ∧ x.body = .file content.toList ∧ content.len ≠ 0 ∧
        inode.firstBlock ≠ 0 := by
  constructor
  · intro hin
    cases hnode : V.layout.tree.node n with
    | none =>
      have hblank := h.not_regular_of_blank hnode hin.dinode
      rw [hin.regular] at hblank
      exact Bool.noConfusion hblank
    | some node =>
      obtain ⟨x, hx, rfl, -⟩ := Layout.exists_item hnode
      have hregular : FileType.fromMode x.dinode.mode = .regular := by
        have hmode := hin.regular
        rw [Except.ok.inj (hin.dinode.symm.trans (h.layout.readInode_eq hx))] at hmode
        exact of_decide_eq_true hmode
      obtain ⟨c, hbody⟩ := (h.valid.layout.item x hx).exists_file hregular
      have hcur := h.layout.readInode_file hx hbody
      obtain rfl := Except.ok.inj (hin.dinode.symm.trans hcur)
      have hfile := h.layout.readInodeFile_file hx hbody
      obtain ⟨inode', hinode', hcontent⟩ := readFile_eq_ok_iff.mp hin.content_eq
      obtain rfl := Except.ok.inj (hin.dinode.symm.trans hinode')
      rw [hcontent] at hfile
      obtain rfl : content.toList = c := Except.ok.inj hfile
      exact ⟨x, hx, rfl, rfl, hbody, hin.len_ne, hin.direct_ne⟩
  · rintro ⟨x, hx, rfl, rfl, hbody, hlen, hfirst⟩
    have hitem := h.valid.layout.item x hx
    have hcur := h.layout.readInode_file hx hbody
    have hfile := h.layout.readInodeFile_file hx hbody
    refine ⟨hcur, decide_eq_true (hitem.regular hbody), fun h0 => hlen ?_, hfirst,
      readFile_eq_ok_iff.mpr ⟨_, hcur, ?_⟩⟩
    · have hsize := (hitem.laidOut_file hbody).size_eq
      rw [h0, Bytes.toList_length] at hsize
      exact hsize.symm
    · cases hread : readInodeFile p V.layout.sb (x.inode V.layout.sb) with
      | error e =>
        rw [hread] at hfile
        cases hfile
      | ok out =>
        rw [hread] at hfile
        rw [Bytes.toList_injective (show out.toList = content.toList from Except.ok.inj hfile)]

theorem Volume.Kept.mem_recoverDeleted_dirent_iff {sha256 : Bytes → Vector UInt8 32} {name : String}
    {n : ℕ} : .deletedDirent name n ∈ recoverDeleted sha256 p ↔
      ∃ d, V.layout.tree.Below Dots d ∧ ∃ r ∈ V.layout.records d, r.ino = 0 ∧ r.name ≠ [] ∧
        ¬ Dots r.name ∧ RecoveredItem.deletedDirent name n = .deletedDirent (decodeName r.name) 0 := by
  have hwalked (d : ℕ) : d ∈ walkedDirs p V.layout.sb ↔ V.layout.tree.Below Dots d :=
    ((collectDeletedDirents_complete h.walk_budget).2.1 d).trans h.mem_tree_iff
  have hresidue (r : DirRecord) : r.entry.Residue ↔ r.ino = 0 ∧ r.name ≠ [] ∧ ¬ Dots r.name := by
    unfold DirEntry.Residue DirRecord.entry Dots
    simp only [decide_eq_true_eq, not_or, ne_eq]
  rw [UfsForensic.mem_recoverDeleted_dirent_iff h.parses, mem_collectDeletedDirents_iff]
  constructor
  · rintro ⟨d, hd, e, he, hres, hr⟩
    have hbelow := (hwalked d).mp hd
    obtain ⟨es, hes⟩ := (hbelow.isDir h.valid.root).exists_node
    rw [h.layout.entriesOf_eq hes] at he
    obtain ⟨r, hrec, rfl⟩ := List.mem_map.mp he
    obtain ⟨hino, hname, hdots⟩ := (hresidue r).mp hres
    obtain ⟨rfl, rfl⟩ := Prod.mk.inj hr
    refine ⟨d, hbelow, r, hrec, hino, hname, hdots, ?_⟩
    unfold DirRecord.entry
    rw [hino]
    rfl
  · rintro ⟨d, hbelow, r, hrec, hino, hname, hdots, hitem⟩
    obtain ⟨es, hes⟩ := (hbelow.isDir h.valid.root).exists_node
    obtain ⟨rfl, rfl⟩ := RecoveredItem.deletedDirent.inj hitem
    refine ⟨d, (hwalked d).mpr hbelow, r.entry, ?_, (hresidue r).mpr ⟨hino, hname, hdots⟩, ?_⟩
    · rw [h.layout.entriesOf_eq hes]
      exact List.mem_map_of_mem hrec
    · unfold DirRecord.entry
      rw [hino]
      rfl

theorem Volume.Kept.mem_recoverDeleted_file_iff {sha256 : Bytes → Vector UInt8 32}
    {item : RecoveredItem} {n : ℕ} (hn : item.isFileOf n = true) :
    item ∈ recoverDeleted sha256 p ↔
      ∃ x ∈ V.layout.items, MagicIntact p V.layout.sb (x.ino / V.layout.sb.inodesPerGroup) ∧
        ∃ content : Bytes, x.body = .file content.toList ∧ 3 ≤ x.ino ∧ V.used x.ino = false ∧
        content.len ≠ 0 ∧ (x.inode V.layout.sb).firstBlock ≠ 0 ∧
          item = .deletedFile none x.ino content.len content (sha256Hex sha256 content) := by
  cases item with
  | deletedDirent name m => exact Bool.noConfusion hn
  | deletedFile found m size content digest =>
    constructor
    · intro hitem
      obtain ⟨-, -, h3, -⟩ := exists_of_mem_recoverDeleted hitem
      obtain ⟨rfl, hlt, hfree, inode, hin, rfl, rfl⟩ :=
        (UfsForensic.mem_recoverDeleted_file_iff h.parses h3).mp hitem
      obtain ⟨x, hx, rfl, rfl, hbody, hlen, hfirst⟩ := h.intact_iff.mp hin
      have hlaid := (h.valid.layout.item x hx).laidOut_file hbody
      obtain ⟨hmagic, hused⟩ := (h.bitmap_bit_iff hlt false).mp hfree
      refine ⟨x, hx, hmagic, content, hbody, h3, hused, hlen, hfirst, ?_⟩
      rw [hlaid.size_eq, Bytes.toList_length]
    · rintro ⟨x, hx, hmagic, c, hbody, h3, hused, hlen, hfirst, hitem⟩
      obtain ⟨rfl, rfl, rfl, rfl, rfl⟩ := RecoveredItem.deletedFile.inj hitem
      have hlt := (h.valid.layout.item x hx).lt_inodes
      have hlaid := (h.valid.layout.item x hx).laidOut_file hbody
      have hin := h.intact_iff.mpr ⟨x, hx, rfl, rfl, hbody, hlen, hfirst⟩
      refine (UfsForensic.mem_recoverDeleted_file_iff h.parses h3).mpr
        ⟨rfl, hlt, (h.bitmap_bit_iff hlt false).mpr ⟨hmagic, hused⟩, _, hin, ?_, rfl⟩
      rw [hlaid.size_eq, Bytes.toList_length]

end Recovery

section Held

variable {V : Volume} {p : Bytes} (h : V.Held p)
include h

theorem Volume.Held.mem_recoverDeleted_file_iff {sha256 : Bytes → Vector UInt8 32}
    {item : RecoveredItem} {n : ℕ} (hn : item.isFileOf n = true) :
    item ∈ recoverDeleted sha256 p ↔
      ∃ x ∈ V.layout.items, ∃ content : Bytes, x.body = .file content.toList ∧ 3 ≤ x.ino ∧
        V.used x.ino = false ∧ content.len ≠ 0 ∧ (x.inode V.layout.sb).firstBlock ≠ 0 ∧
          item = .deletedFile none x.ino content.len content (sha256Hex sha256 content) := by
  rw [h.toKept.mem_recoverDeleted_file_iff hn]
  exact exists_congr fun x => and_congr_right fun hx => and_iff_right (h.magicIntact_item hx)

end Held

/-- A superblock at the offset of its version is the primary one, unless a UFS1 volume has something
at the UFS2 offset that ends the search there. -/
theorem parsePrimarySb_of_parsePrimary {p : Bytes} {sb : Superblock}
    (h : UfsFs.parsePrimary p sb.version.primaryOffset = .ok sb)
    (hfirst : sb.version = .ufs1 → ¬ ForeignRegion p SBLOCK_UFS2 ∧
      ∀ sb', UfsFs.parsePrimary p SBLOCK_UFS2 ≠ .ok sb') : parsePrimarySb p = .ok sb := by
  cases hv : sb.version with
  | ufs2 =>
    rw [hv] at h
    have hfound : UfsFs.parsePrimary p SBLOCK_UFS2 = .ok sb := h
    rw [parsePrimarySb, tryOffsets_cons, hfound]
  | ufs1 =>
    rw [hv] at h
    obtain ⟨hforeign, hnot⟩ := hfirst hv
    exact parsePrimarySb_of_mounts (Or.inr ⟨hnot, h⟩) fun hc => hforeign hc.1

/-- The volume can be written over a partition of `len` bytes. -/
structure Volume.Writable (V : Volume) (len : ℕ) : Prop where
  valid : V.Valid
  apart : V.runs.Pairwise Run.Apart
  inside : ∀ r ∈ V.runs, r.1 + r.2.length ≤ len
  located : ∀ x ∈ V.layout.items, V.layout.sb.dinodeOff x.ino + V.layout.sb.inodeSize ≤ len
  fits : ∀ x ∈ V.layout.items, x.body.content.length ≤ len
  primaryRoom : V.layout.sb.version.primaryOffset + SB_MIN_LEN ≤ len
  headerRoom : ∀ c < V.layout.sb.ncg.toNat,
    V.layout.sb.headerOff c + CylinderGroup.CG_MIN_LEN ≤ len
  backupRoom : ∀ c < V.layout.sb.ncg.toNat, 1 ≤ c → V.layout.sb.backupOff c + SB_MIN_LEN ≤ len

def Volume.write (V : Volume) (base : Bytes) : Bytes := base.writeAll V.runs

section Write

variable {V : Volume} {base : Bytes} (h : V.Writable base.len)
include h

theorem Volume.Writable.stores {r : Run} (hr : r ∈ V.runs) : Stores (V.write base) r :=
  Bytes.writeAll_stores h.apart h.inside r hr

/-- A volume that has been written is held, once its superblock is the one that is found. -/
theorem Volume.Writable.held (hparses : parsePrimarySb (V.write base) = .ok V.layout.sb) :
    V.Held (V.write base) := by
  have hlen : (V.write base).len = base.len := Bytes.writeAll_len base _
  have hgroups {r : Run} (hr : r ∈ (List.range V.layout.sb.ncg.toNat).flatMap V.headerRuns ++
      ((List.range' 1 (V.layout.sb.ncg.toNat - 1)).flatMap V.backupRuns ++ V.blankRuns)) :
      Stores (V.write base) r := h.stores (List.mem_append_right _ hr)
  have hheader {c : ℕ} (hc : c < V.layout.sb.ncg.toNat) {r : Run} (hr : r ∈ V.headerRuns c) :
      Stores (V.write base) r :=
    hgroups (List.mem_append_left _ (List.mem_flatMap.mpr ⟨c, List.mem_range.mpr hc, hr⟩))
  refine ⟨⟨h.valid, ⟨h.valid.layout, fun r hr => ?_, fun x hx => ?_, fun x hx => ?_⟩, hparses,
    fun c hc r hr => ?_, fun c hc => ?_, fun c hone hc => ?_, fun r hr => ?_⟩,
    fun c hc => hheader hc List.mem_cons_self, fun c hone hc r hr => ?_⟩
  · exact h.stores (List.mem_append_left _ (List.mem_append_right _ hr))
  · rw [hlen]
    exact h.located x hx
  · rw [hlen]
    exact h.fits x hx
  · exact hheader hc (List.mem_cons_of_mem _ hr)
  · rw [hlen]
    exact h.headerRoom c hc
  · rw [hlen]
    exact h.backupRoom c hc hone
  · exact hgroups (List.mem_append_right _ (List.mem_append_right _ hr))
  · refine hgroups (List.mem_append_right _ (List.mem_append_left _ (List.mem_flatMap.mpr
      ⟨c, ?_, hr⟩)))
    rw [List.mem_range'_1]
    omega

theorem Volume.Writable.parsePrimary_eq :
    UfsFs.parsePrimary (V.write base) V.layout.sb.version.primaryOffset = .ok V.layout.sb := by
  refine parsePrimary_of_stores h.valid.inRange ?_ fun r hr =>
    h.stores (List.mem_append_left _ (List.mem_append_left _ (List.mem_map_of_mem hr)))
  rw [Volume.write, Bytes.writeAll_len]
  exact h.primaryRoom

end Write

namespace Crafted

/-- The shelf with two more files: inode 6, no longer used, and inode 7, used and not named. -/
def soldShelf : Volume where
  layout := { shelfLayout with items := shelfLayout.items ++ [
    ⟨6, shelfDinode 0o100644 3 [33], .file [98, 121, 101]⟩,
    ⟨7, shelfDinode 0o100600 2 [34], .file [104, 109]⟩] }
  used n := n ≠ 6
  iusedoff := 168

theorem soldShelf_valid : soldShelf.Valid where
  layout := {
    wellFormed := shelf_wellFormed
    ipg_pos := shelf_valid.ipg_pos
    fpg_pos := shelf_valid.fpg_pos
    iblkno_nonneg := shelf_valid.iblkno_nonneg
    room := shelf_valid.room
    holds := nofun
    item := by
      intro x hx
      have hlt (i : ℕ) (hi : i < 8) : i < shelfSb.inodesPerGroup * shelfSb.ncg.toNat := by
        rwa [show shelfSb.inodesPerGroup * shelfSb.ncg.toNat = 8 by decide +kernel]
      rcases List.mem_append.mp (show x ∈ shelfLayout.items ++ _ from hx) with hx | hx
      · exact shelf_valid.item x hx
      · simp only [List.mem_cons, List.not_mem_nil, or_false] at hx
        obtain rfl | rfl := hx
        · exact ⟨hlt 6 (by norm_num), shelfDinode_inRange _ _ _, by decide +kernel,
            shelf_laidOut (by decide +kernel) (by decide +kernel) (by decide +kernel)⟩
        · exact ⟨hlt 7 (by norm_num), shelfDinode_inRange _ _ _, by decide +kernel,
            shelf_laidOut (by decide +kernel) (by decide +kernel) (by decide +kernel)⟩
    root := by decide +kernel
    entry := by decide +kernel }
  inRange := shelf_inRange
  cblkno_nonneg := by decide +kernel
  root := by decide +kernel
  used := by decide +kernel
  types := by decide +kernel
  budget := by decide +kernel

theorem soldShelf_writable : soldShelf.Writable 70001 where
  valid := soldShelf_valid
  apart := Bytes.pairwise_apart_of_sorted (by decide +kernel)
  inside := by decide +kernel
  located := by decide +kernel
  fits := by decide +kernel
  primaryRoom := by decide +kernel
  headerRoom := by decide +kernel
  backupRoom := by decide +kernel

theorem soldShelf_held : soldShelf.Held (soldShelf.write wornOut) :=
  Volume.Writable.held soldShelf_writable (parsePrimarySb_of_parsePrimary
    (Volume.Writable.parsePrimary_eq soldShelf_writable) (absurd · shelf_ne_ufs1))

theorem soldShelf_not_named : ¬ soldShelf.layout.tree.IsNamed Dots 7 := by
  rintro ⟨i, name, -, hmem, -⟩
  obtain ⟨r, hr, -, heq⟩ := Layout.mem_entries_iff.mp hmem
  obtain ⟨x, hx, rfl⟩ := Layout.exists_item_of_mem_records hr
  have hall : ∀ x ∈ soldShelf.layout.items, ∀ r ∈ soldShelf.layout.records x.ino,
      r.ino.toNat ≠ 7 := by decide +kernel
  exact hall x hx r hr (Prod.mk.inj heq).2.symm

end Crafted

end UfsForensic
