import UfsForensic.OrphanedInodes

/-!
# Reachable inodes

The audit's walk marks an inode and decides whether to enter it in one step, when it first meets the
inode. An inode met first through an entry that does not call it a directory is not entered, also
when a later entry does. The walk then misses what only that directory names.
-/

namespace UfsForensic

variable {p : Bytes} {sb : Superblock}

/-- The walk's result is the root and every inode named in the tree. -/
def ReachesTree (p : Bytes) (sb : Superblock) : Prop :=
  ∀ n, n ∈ reachableInodes p sb ↔ n = UFS_ROOTINO ∨ NamedInTree p sb n

/-- What the tree names is the root, or named by a directory of the tree that the walk can enter:
in some directory that can be listed before it is met, the first entry that names it calls it a
directory. -/
def NothingOutOfReach (p : Bytes) (sb : Superblock) : Prop :=
  ∀ n, NamedInTree p sb n → n = UFS_ROOTINO ∨
    ∃ d ∈ tree p sb, Worklist.Possible (named p sb) UFS_ROOTINO d ∧ Names p sb d n

namespace Crafted

/-- A volume whose root names inode 3 by two entries of the given types; the directory 3 names the
file 4. -/
def aliased (first second : ℕ) : Bytes := volume (tiny.dinode 2 DIR_MODE 512 [24] ++
  tiny.dinode 3 DIR_MODE 512 [25] ++ tiny.dinode 4 REG_MODE 5 [26] ++
  [(24 * 512, tiny.direct 3 12 first [120] ++ tiny.direct 3 500 second [100]),
    (25 * 512, tiny.direct 4 512 8 [102])])

theorem parse_aliased :
    Superblock.parse ((aliased 8 4).slice SBLOCK_UFS1 SB_MIN_LEN) = .ok tinySb :=
  parse_volume (by decide)

theorem named_aliased :
    (named (aliased 8 4) tinySb UFS_ROOTINO = [(3, false), (3, true)] ∧
      named (aliased 8 4) tinySb 3 = [(4, false)]) ∧
    named (aliased 4 8) tinySb UFS_ROOTINO = [(3, true), (3, false)] ∧
      named (aliased 4 8) tinySb 3 = [(4, false)] := by decide +kernel

theorem tree_aliased : tree (aliased 8 4) tinySb ⊆ {2, 3} := by
  obtain ⟨⟨hroot, hsub⟩, -⟩ := named_aliased
  refine tree_subset (Or.inl rfl) ?_
  rintro d (rfl | rfl) n hn
  · rw [← UFS_ROOTINO, hroot] at hn
    exact Or.inr (by simpa using hn)
  · rw [hsub] at hn
    simp at hn

theorem tree_directory_first : tree (aliased 4 8) tinySb ⊆ {2, 3} := by
  obtain ⟨-, hroot, hsub⟩ := named_aliased
  refine tree_subset (Or.inl rfl) ?_
  rintro d (rfl | rfl) n hn
  · rw [← UFS_ROOTINO, hroot] at hn
    exact Or.inr (by simpa using hn)
  · rw [hsub] at hn
    simp at hn

theorem sure_directory_first :
    Worklist.Sure (named (aliased 4 8) tinySb) UFS_ROOTINO 3 := by
  have hroot : Worklist.firstEdge (named (aliased 4 8) tinySb UFS_ROOTINO) 3 = some true := by
    rw [named_aliased.2.1]
    decide
  refine .step (b := true) .root ?_ fun d hd hfirst => ?_
  · rw [named_aliased.2.1]
    exact List.mem_cons_self
  · rw [hd.eq_root hroot, hroot] at hfirst
    cases hfirst

theorem nothingHidden_directory_first : NothingHidden (aliased 4 8) tinySb := by
  rintro n ⟨d, hd, hnames⟩
  refine Or.inr ⟨d, ?_, hnames⟩
  rcases tree_directory_first hd with rfl | rfl
  · exact .root
  · exact sure_directory_first

end Crafted

end UfsForensic
