import UfsForensic.DirContent
import UfsForensic.Lib.Worklist

/-!
# Orphaned inodes

The audit calls an allocated inode orphaned when the walk of the directory tree did not meet its
number. The walk follows the entries that name a directory by their `d_type` and lists direct blocks
only; within its budget, and when no entry of another type hides a directory from it, it meets
exactly the inodes named in the directories so reached. The findings are then right when these are
the inodes named in the directories by their `di_mode`.
-/

namespace UfsForensic

open Worklist (Reach Target)

variable {p : Bytes} {sb : Superblock}

/-- A live entry other than `.` and `..`. -/
def DirEntry.Live (e : DirEntry) : Prop := e.deleted = false ∧ e.name ≠ DOT ∧ e.name ≠ DOTDOT

instance (e : DirEntry) : Decidable e.Live := inferInstanceAs (Decidable (_ ∧ _))

/-- What an entry names, and whether by its `d_type` it is a directory. -/
def DirEntry.target (e : DirEntry) : Option (ℕ × Bool) :=
  if e.Live then some (e.ino, isDirEntry e) else none

/-- What the live entries of directory `d` name. -/
def named (p : Bytes) (sb : Superblock) (d : ℕ) : List (ℕ × Bool) :=
  match listDirAll p sb d with
  | .error _ => []
  | .ok entries => entries.filterMap DirEntry.target

/-- The directories in the tree: the root, and what a live entry of a directory in the tree names
as a directory by its `d_type`. -/
def tree (p : Bytes) (sb : Superblock) : Set ℕ := {d | Reach (named p sb) UFS_ROOTINO d}

/-- A live entry of a directory in the tree names inode `n`. -/
def NamedInTree (p : Bytes) (sb : Superblock) (n : ℕ) : Prop :=
  ∃ d ∈ tree p sb, ∃ entries, listDirAll p sb d = .ok entries ∧ ∃ e ∈ entries, e.Live ∧ e.ino = n

def Names (p : Bytes) (sb : Superblock) (d n : ℕ) : Prop :=
  ∃ entries, listDirAll p sb d = .ok entries ∧ ∃ e ∈ entries, e.Live ∧ e.ino = n

/-- What the tree names is the root, or named by a directory that the walk enters in whatever order
it goes: the first entry that names such a directory calls it one, in every directory that can be
listed before it is met. -/
def NothingHidden (p : Bytes) (sb : Superblock) : Prop :=
  ∀ n, NamedInTree p sb n →
    n = UFS_ROOTINO ∨ ∃ d, Worklist.Sure (named p sb) UFS_ROOTINO d ∧ Names p sb d n

/-- No inode but the root is named in the tree both as a directory and as something else. -/
def ConsistentTypes (p : Bytes) (sb : Superblock) : Prop :=
  ∀ d ∈ tree p sb, ∀ d' ∈ tree p sb, ∀ entries entries',
    listDirAll p sb d = .ok entries → listDirAll p sb d' = .ok entries' →
      ∀ e ∈ entries, ∀ e' ∈ entries', e.Live → e'.Live → e.ino = e'.ino → e.ino ≠ UFS_ROOTINO →
        isDirEntry e = isDirEntry e'

theorem target_eq_some_iff {e : DirEntry} {t : ℕ × Bool} :
    e.target = some t ↔ e.Live ∧ e.ino = t.1 ∧ isDirEntry e = t.2 := by
  obtain ⟨n, b⟩ := t
  unfold DirEntry.target
  by_cases h : e.Live
  · simp [h]
  · simp [h]

theorem mem_named_iff {d : ℕ} {t : ℕ × Bool} :
    t ∈ named p sb d ↔ ∃ entries, listDirAll p sb d = .ok entries ∧
      ∃ e ∈ entries, e.Live ∧ e.ino = t.1 ∧ isDirEntry e = t.2 := by
  unfold named
  cases listDirAll p sb d with
  | error e => simp
  | ok entries => simp [List.mem_filterMap, target_eq_some_iff]

theorem namedInTree_iff_target {n : ℕ} :
    NamedInTree p sb n ↔ Target (named p sb) UFS_ROOTINO n := by
  constructor
  · rintro ⟨d, hd, entries, hlist, e, he, hlive, hino⟩
    exact ⟨d, isDirEntry e, hd, mem_named_iff.mpr ⟨entries, hlist, e, he, hlive, hino, rfl⟩⟩
  · rintro ⟨d, b, hd, ht⟩
    obtain ⟨entries, hlist, e, he, hlive, hino, -⟩ := mem_named_iff.mp ht
    exact ⟨d, hd, entries, hlist, e, he, hlive, hino⟩

theorem names_iff {d n : ℕ} : Names p sb d n ↔ ∃ b, (n, b) ∈ named p sb d := by
  constructor
  · rintro ⟨entries, hlist, e, he, hlive, hino⟩
    exact ⟨isDirEntry e, mem_named_iff.mpr ⟨entries, hlist, e, he, hlive, hino, rfl⟩⟩
  · rintro ⟨b, ht⟩
    obtain ⟨entries, hlist, e, he, hlive, hino, -⟩ := mem_named_iff.mp ht
    exact ⟨entries, hlist, e, he, hlive, hino⟩

theorem tree_subset {dirs : Set ℕ} (hroot : UFS_ROOTINO ∈ dirs)
    (hclosed : ∀ d ∈ dirs, ∀ n, (n, true) ∈ named p sb d → n ∈ dirs) : tree p sb ⊆ dirs := by
  intro d hd
  induction hd with
  | root => exact hroot
  | step _ hy ih => exact hclosed _ ih _ hy

theorem tree_small {a b : ℕ} (h : tree p sb ⊆ {a, b}) : (tree p sb).encard ≤ WALK_BUDGET := by
  calc (tree p sb).encard
      ≤ ({a, b} : Set ℕ).encard := Set.encard_le_encard h
    _ ≤ ({b} : Set ℕ).encard + 1 := Set.encard_insert_le _ _
    _ ≤ WALK_BUDGET := by
      rw [Set.encard_singleton]
      unfold WALK_BUDGET
      norm_num

theorem ConsistentTypes.consistent (h : ConsistentTypes p sb) :
    Worklist.Consistent (named p sb) UFS_ROOTINO := by
  intro d d' n hd hd' ht ht'
  obtain ⟨entries, hlist, e, he, hlive, hino, hdir⟩ := mem_named_iff.mp ht
  obtain ⟨entries', hlist', e', he', hlive', hino', hdir'⟩ := mem_named_iff.mp ht'
  by_contra hne
  have hsame := h d hd d' hd' entries entries' hlist hlist' e he e' he' hlive hlive'
    (hino.trans hino'.symm) (by rwa [hino])
  rw [hdir, hdir'] at hsame
  exact nomatch hsame

theorem ConsistentTypes.nothingHidden (h : ConsistentTypes p sb) : NothingHidden p sb := by
  rintro n ⟨d, hd, hnames⟩
  exact Or.inr ⟨d, h.consistent.sure hd, hnames⟩

theorem markEntries_eq (entries : List DirEntry) (reachable queue : List ℕ) :
    markEntries entries reachable queue =
      Worklist.mark (entries.filterMap DirEntry.target) reachable queue := by
  induction entries generalizing reachable queue with
  | nil => rfl
  | cons e entries ih =>
    rw [markEntries]
    by_cases h : e.Live
    · have hskip : ¬ (e.deleted || e.name == DOT || e.name == DOTDOT) = true := by
        simp [h.1, h.2.1, h.2.2]
      have ht : e.target = some (e.ino, isDirEntry e) := target_eq_some_iff.mpr ⟨h, rfl, rfl⟩
      rw [if_neg hskip, List.filterMap_cons_some ht, Worklist.mark]
      simp only [ih]
    · have hskip : (e.deleted || e.name == DOT || e.name == DOTDOT) = true := by
        unfold DirEntry.Live at h
        simp only [Bool.or_eq_true, beq_iff_eq]
        by_contra hcon
        push Not at hcon
        exact h ⟨by simpa using hcon.1.1, hcon.1.2, hcon.2⟩
      have ht : e.target = none := if_neg h
      rw [if_pos hskip, List.filterMap_cons_none ht, ih]

theorem reachLoop_eq (budget : ℕ) (reachable queue : List ℕ) :
    reachLoop p sb budget reachable queue =
      Worklist.run (named p sb) budget reachable queue := by
  induction budget generalizing reachable queue with
  | zero =>
    cases queue with
    | nil => rfl
    | cons d queue => rfl
  | succ budget ih =>
    cases queue with
    | nil => rfl
    | cons d queue =>
      rw [reachLoop, Worklist.run, named]
      cases listDirAll p sb d with
      | error e => exact ih _ _
      | ok entries =>
        simp only [markEntries_eq]
        exact ih _ _

/-- A walk that stays within its budget meets the root and what the tree names. -/
theorem mem_reachableInodes_iff (hsmall : (tree p sb).encard ≤ WALK_BUDGET)
    (hhidden : NothingHidden p sb) {n : ℕ} :
    n ∈ reachableInodes p sb ↔ n = UFS_ROOTINO ∨ NamedInTree p sb n := by
  have hsure : ∀ y, Target (named p sb) UFS_ROOTINO y → y = UFS_ROOTINO ∨
      ∃ d b, Worklist.Sure (named p sb) UFS_ROOTINO d ∧ (y, b) ∈ named p sb d := by
    intro y hy
    refine (hhidden y (namedInTree_iff_target.mpr hy)).imp_right ?_
    rintro ⟨d, hd, hnames⟩
    obtain ⟨b, hb⟩ := names_iff.mp hnames
    exact ⟨d, b, hd, hb⟩
  rw [reachableInodes, reachLoop_eq, Worklist.mem_run_iff_of_sure hsmall hsure,
    namedInTree_iff_target]

def ReportsOrphan (p : Bytes) (n : ℕ) : Prop :=
  ∃ a ∈ auditImage p, ∃ nlink, a.kind = .orphanedInode n nlink

/-- Inode `n` is marked used in its group's bitmap, and its dinode is readable and has links. -/
structure Allocated (p : Bytes) (sb : Superblock) (n : ℕ) : Prop where
  three_le : 3 ≤ n
  lt_inodes : n < sb.inodesPerGroup * sb.ncg.toNat
  used : ∃ used, cgInodeBitmap p sb (n / sb.inodesPerGroup) = some used ∧
    bitmapBit used (n % sb.inodesPerGroup) = true
  linked : ∃ inode, readInode p sb n = .ok inode ∧ 0 < inode.nlink.toNat

theorem orphanAt_eq_some_iff {reachable : List ℕ} {ipg total cg within : ℕ} {used : Bytes}
    {a : Anomaly} {ino : ℕ} (hino : satAdd (satMul cg ipg) within = ino) :
    orphanAt p sb reachable ipg total used cg within = some a ↔
      3 ≤ ino ∧ ino < total ∧ bitmapBit used within = true ∧ ino ∉ reachable ∧
        ∃ inode, readInode p sb ino = .ok inode ∧ 0 < inode.nlink.toNat ∧
          a = Anomaly.new (.orphanedInode ino inode.nlink) := by
  unfold orphanAt
  rw [hino]
  dsimp only
  unfold UFS_ROOTINO
  by_cases h1 : ino < 2 + 1 ∨ total ≤ ino
  · rw [if_pos h1]
    exact ⟨(nomatch ·), fun h => absurd h1 (by omega)⟩
  rw [if_neg h1]
  by_cases h2 : bitmapBit used within = true
  swap
  · rw [if_pos (by simpa using h2)]
    exact ⟨(nomatch ·), fun h => absurd h.2.2.1 h2⟩
  rw [if_neg (by simp [h2])]
  by_cases h3 : ino ∈ reachable
  · rw [if_pos h3]
    exact ⟨(nomatch ·), fun h => absurd h3 h.2.2.2.1⟩
  rw [if_neg h3]
  have hleft : 3 ≤ ino ∧ ino < total := by omega
  cases hread : readInode p sb ino with
  | error e => simp
  | ok inode =>
    dsimp only
    by_cases h4 : inode.nlink = 0
    · rw [if_pos h4]
      simp [h4]
    · have hpos : 0 < inode.nlink.toNat :=
        Nat.pos_of_ne_zero fun h0 => h4 (UInt16.toNat_inj.mp h0)
      rw [if_neg h4, Option.some.injEq]
      constructor
      · intro h
        exact ⟨hleft.1, hleft.2, h2, h3, inode, rfl, hpos, h.symm⟩
      · rintro ⟨-, -, -, -, inode', hinode', -, rfl⟩
        rw [Except.ok.inj hinode']

theorem mem_checkOrphanedInodes_iff (hsb : sb.WellFormed) {a : Anomaly} :
    a ∈ checkOrphanedInodes p sb ↔ ∃ n, Allocated p sb n ∧ n ∉ reachableInodes p sb ∧
      ∃ inode, readInode p sb n = .ok inode ∧ a = Anomaly.new (.orphanedInode n inode.nlink) := by
  unfold checkOrphanedInodes
  dsimp only
  by_cases hipg : sb.ipg.toInt ≤ 0
  · rw [if_pos hipg]
    have h0 : sb.inodesPerGroup = 0 := by
      unfold Superblock.inodesPerGroup
      omega
    constructor
    · intro h
      exact absurd h List.not_mem_nil
    · rintro ⟨n, hn, -⟩
      have hlt := hn.lt_inodes
      rw [h0, Nat.zero_mul] at hlt
      exact absurd hlt (Nat.not_lt_zero n)
  rw [if_neg hipg, i32AsU64_of_nonneg (by omega)]
  change a ∈ sweep sb.ncg.toNat sb.inodesPerGroup _ (orphanAt p sb _ sb.inodesPerGroup
    (satMul sb.inodesPerGroup sb.ncg.toNat)) ↔ _
  have hmax := hsb.inodes_le
  -- below the inode count nothing saturates, and a cell is its inode number
  rw [hsb.satMul_inodes, mem_sweep_iff_number]
  constructor
  · rintro ⟨n, hn, used, hused, hx⟩
    obtain ⟨h3, -, hbit, hnot, inode, hread, hlink, rfl⟩ :=
      (orphanAt_eq_some_iff (satAdd_satMul_div_mod (by omega))).mp hx
    exact ⟨n, ⟨h3, hn, ⟨used, hused, hbit⟩, ⟨inode, hread, hlink⟩⟩, hnot, inode, hread, rfl⟩
  · rintro ⟨n, ⟨h3, hn, ⟨used, hused, hbit⟩, ⟨inode, hread, hlink⟩⟩, hnot, inode', hread', rfl⟩
    obtain rfl := Except.ok.inj (hread.symm.trans hread')
    exact ⟨n, hn, used, hused, (orphanAt_eq_some_iff (satAdd_satMul_div_mod (by omega))).mpr
      ⟨h3, hn, hbit, hnot, inode, hread, hlink, rfl⟩⟩

theorem reportsOrphan_iff_not_mem (hp : parsePrimarySb p = .ok sb) (hg : GeometryPossible p sb)
    (n : ℕ) : ReportsOrphan p n ↔ Allocated p sb n ∧ n ∉ reachableInodes p sb := by
  have hsb := wellFormed_of_parsePrimarySb hp
  unfold ReportsOrphan
  simp only [mem_auditImage_iff hp hg]
  constructor
  · rintro ⟨a, ha | ha, nlink, hk⟩
    -- the checks of the groups make findings of other kinds
    · obtain ⟨-, -, cg, -, ⟨-, -, ha⟩ | ⟨-, ha⟩⟩ := mem_checkAllCgs.mp ha
      · obtain ⟨_, _, _, hk'⟩ := checkBackupSb_kind ha
        rw [hk'] at hk
        exact nomatch hk
      · obtain ⟨_, hk'⟩ := checkCgMagic_kind ha
        rw [hk'] at hk
        exact nomatch hk
    · obtain ⟨k, halloc, hnot, inode, -, rfl⟩ := (mem_checkOrphanedInodes_iff hsb).mp ha
      rw [Anomaly.new_kind] at hk
      injection hk with hkn _
      exact hkn ▸ ⟨halloc, hnot⟩
  · rintro ⟨halloc, hnot⟩
    obtain ⟨inode, hread, -⟩ := halloc.linked
    exact ⟨_, Or.inr ((mem_checkOrphanedInodes_iff hsb).mpr ⟨n, halloc, hnot, inode, hread, rfl⟩),
      inode.nlink, rfl⟩

/-- Within the budget, with nothing hidden, an inode is reported as orphaned exactly when it is
allocated and no entry of the tree names it. -/
theorem reportsOrphan_iff_named (hp : parsePrimarySb p = .ok sb) (hg : GeometryPossible p sb)
    (hsmall : (tree p sb).encard ≤ WALK_BUDGET) (hhidden : NothingHidden p sb) (n : ℕ) :
    ReportsOrphan p n ↔ Allocated p sb n ∧ ¬ NamedInTree p sb n := by
  rw [reportsOrphan_iff_not_mem hp hg, mem_reachableInodes_iff hsmall hhidden]
  constructor
  · rintro ⟨halloc, hnot⟩
    exact ⟨halloc, fun hnamed => hnot (Or.inr hnamed)⟩
  · rintro ⟨halloc, hnot⟩
    refine ⟨halloc, ?_⟩
    rintro (rfl | hnamed)
    · exact absurd halloc.three_le (by decide)
    · exact hnot hnamed

/-- The entries in the whole content of directory `d`. -/
def contentEntries (p : Bytes) (sb : Superblock) (d : ℕ) : List DirEntry :=
  match readFile p sb d with
  | .error _ => []
  | .ok content => (pieces content sb.blockBytes).flatMap fun piece => walkBlock piece sb.endian []

/-- The directories by their `di_mode` that live entries lead to from the root, whatever the
`d_type` of the entries and wherever in the directories they lie. -/
inductive ModeTree (p : Bytes) (sb : Superblock) : ℕ → Prop
  | root : ModeTree p sb UFS_ROOTINO
  | step {d : ℕ} {e : DirEntry} (hd : ModeTree p sb d) (he : e ∈ contentEntries p sb d)
      (hlive : e.Live) (hdir : IsDirectory p sb e.ino) : ModeTree p sb e.ino

/-- A live entry of a directory in that tree names inode `n`. -/
def NamedByMode (p : Bytes) (sb : Superblock) (n : ℕ) : Prop :=
  ∃ d, ModeTree p sb d ∧ ∃ e ∈ contentEntries p sb d, e.Live ∧ e.ino = n

/-- What the listing of the directories in that tree gives is what their content holds, and the types
of the entries are those of the modes. -/
structure TypesTell (p : Bytes) (sb : Superblock) : Prop where
  listed : ∀ d, ModeTree p sb d → listDirAll p sb d = .ok (contentEntries p sb d)
  type_iff : ∀ d, ModeTree p sb d → ∀ e ∈ contentEntries p sb d, e.Live →
    (isDirEntry e = true ↔ IsDirectory p sb e.ino)

namespace TypesTell

variable (h : TypesTell p sb)
include h

theorem mem_named_iff {d : ℕ} (hd : ModeTree p sb d) {t : ℕ × Bool} :
    t ∈ named p sb d ↔ ∃ e ∈ contentEntries p sb d, e.Live ∧ e.ino = t.1 ∧ isDirEntry e = t.2 := by
  rw [UfsForensic.mem_named_iff, h.listed d hd]
  constructor
  · rintro ⟨entries, hentries, he⟩
    rwa [Except.ok.inj hentries]
  · intro he
    exact ⟨_, rfl, he⟩

theorem mem_tree_iff {d : ℕ} : d ∈ tree p sb ↔ ModeTree p sb d := by
  constructor
  · intro hd
    induction hd with
    | root => exact .root
    | step _ hy ih =>
      obtain ⟨e, he, hlive, rfl, hdir⟩ := (h.mem_named_iff ih).mp hy
      exact .step ih he hlive ((h.type_iff _ ih e he hlive).mp hdir)
  · intro hd
    induction hd with
    | root => exact .root
    | step hd he hlive hdir ih =>
      exact Reach.step ih ((h.mem_named_iff hd).mpr
        ⟨_, he, hlive, rfl, (h.type_iff _ hd _ he hlive).mpr hdir⟩)

theorem namedInTree_iff {n : ℕ} : NamedInTree p sb n ↔ NamedByMode p sb n := by
  constructor
  · rintro ⟨d, hd, entries, hentries, he⟩
    have hmode := h.mem_tree_iff.mp hd
    rw [h.listed d hmode] at hentries
    exact ⟨d, hmode, Except.ok.inj hentries ▸ he⟩
  · rintro ⟨d, hd, he⟩
    exact ⟨d, h.mem_tree_iff.mpr hd, _, h.listed d hd, he⟩

theorem consistentTypes : ConsistentTypes p sb := by
  intro d hd d' hd' entries entries' hlist hlist' e he e' he' hlive hlive' hino _
  have hmode := h.mem_tree_iff.mp hd
  have hmode' := h.mem_tree_iff.mp hd'
  rw [h.listed d hmode] at hlist
  rw [h.listed d' hmode'] at hlist'
  obtain rfl := Except.ok.inj hlist
  obtain rfl := Except.ok.inj hlist'
  rw [Bool.eq_iff_iff, h.type_iff d hmode e he hlive, h.type_iff d' hmode' e' he' hlive', hino]

end TypesTell

namespace Crafted

/-- A volume whose root names the directory 3 with the given `d_type`; directory 3 names the file
4, and inode 5 is allocated but not named. -/
def twoDirs (dType : ℕ) : Bytes := volume (tiny.cgHeader 0 [0x3f] ++
  tiny.dinode 2 DIR_MODE 512 [24] ++ tiny.dinode 3 DIR_MODE 512 [25] ++
  tiny.dinode 4 REG_MODE 5 [26] ++ tiny.dinode 5 REG_MODE 5 [27] ++
  [(24 * 512, tiny.direct 3 512 dType [100]), (25 * 512, tiny.direct 4 512 8 [102])])

theorem named_twoDirs : named (twoDirs 4) tinySb 2 = [(3, true)] ∧
    named (twoDirs 4) tinySb 3 = [(4, false)] := by decide +kernel

theorem tree_twoDirs : tree (twoDirs 4) tinySb ⊆ {2, 3} := by
  refine tree_subset (Or.inl rfl) ?_
  rintro d (rfl | rfl) n hn
  · rw [named_twoDirs.1] at hn
    simp only [List.mem_singleton, Prod.mk.injEq, and_true] at hn
    exact Or.inr hn
  · rw [named_twoDirs.2] at hn
    simp at hn

theorem contentEntries_twoDirs :
    contentEntries (twoDirs 4) tinySb 2 =
        [{ name := [100], ino := 3, fileType := .directory, deleted := false }] ∧
      contentEntries (twoDirs 4) tinySb 3 =
        [{ name := [102], ino := 4, fileType := .regular, deleted := false }] := by decide +kernel

theorem isDirectory_twoDirs {d : ℕ} {b : Bool}
    (h : (readInode (twoDirs 4) tinySb d).map Inode.isDir = .ok b) :
    IsDirectory (twoDirs 4) tinySb d ↔ b = true := by
  unfold IsDirectory
  cases hread : readInode (twoDirs 4) tinySb d with
  | error e =>
    rw [hread] at h
    cases h
  | ok inode =>
    rw [hread] at h
    rw [← Except.ok.inj h]
    simp

theorem modeTree_twoDirs {d : ℕ} (h : ModeTree (twoDirs 4) tinySb d) : d = 2 ∨ d = 3 := by
  induction h with
  | root => exact Or.inl rfl
  | step _ he _ hdir ih =>
    rcases ih with rfl | rfl
    · rw [contentEntries_twoDirs.1] at he
      exact Or.inr (congrArg DirEntry.ino (List.mem_singleton.mp he))
    · rw [contentEntries_twoDirs.2] at he
      rw [List.mem_singleton.mp he] at hdir
      exact absurd ((isDirectory_twoDirs (b := false) (by decide +kernel)).mp hdir) (by decide)

theorem typesTell_twoDirs : TypesTell (twoDirs 4) tinySb where
  listed d hd := by
    rcases modeTree_twoDirs hd with rfl | rfl
    · rw [contentEntries_twoDirs.1]
      decide +kernel
    · rw [contentEntries_twoDirs.2]
      decide +kernel
  type_iff d hd e he _ := by
    rcases modeTree_twoDirs hd with rfl | rfl
    · rw [contentEntries_twoDirs.1] at he
      rw [List.mem_singleton.mp he, isDirectory_twoDirs (b := true) (by decide +kernel)]
      decide
    · rw [contentEntries_twoDirs.2] at he
      rw [List.mem_singleton.mp he, isDirectory_twoDirs (b := false) (by decide +kernel)]
      decide

end Crafted

end UfsForensic
