import Mathlib.Algebra.Order.BigOperators.Group.Finset
import UfsForensic.DeletedNames

/-!
# The recovery walk

The recovery walk marks a directory when it takes it off its stack, so that it meets a directory as
often as an entry names it and lists it once. A budget for the root and every such entry is enough:
the walk then lists exactly the directories of the tree, each once, and collects the free slots of
each of them.
-/

namespace UfsForensic

variable {p : Bytes} {sb : Superblock}

/-- What the live entries of directory `d` name as directories, one for each entry. -/
def subdirs (p : Bytes) (sb : Superblock) (d : ℕ) : List ℕ :=
  (entriesOf p sb d).filterMap DirEntry.subdir

/-- The names in the free slots of directory `d`: the slots with `d_ino = 0` and a name that is not
empty, `.` or `..`. -/
def freeNames (p : Bytes) (sb : Superblock) (d : ℕ) : List (String × ℕ) :=
  ((entriesOf p sb d).filter fun e =>
    e.ino = 0 ∧ e.name ≠ [] ∧ e.name ≠ DOT ∧ e.name ≠ DOTDOT).map fun e =>
      (decodeName e.name, e.ino)

theorem freeNames_eq (d : ℕ) :
    (entriesOf p sb d).filterMap DirEntry.residue = freeNames p sb d := by
  have hresidue : ∀ e ∈ entriesOf p sb d, (e.Residue ↔
      e.ino = 0 ∧ e.name ≠ [] ∧ e.name ≠ DOT ∧ e.name ≠ DOTDOT) := by
    intro e he
    unfold DirEntry.Residue
    rw [deleted_iff_of_mem_entriesOf he]
  unfold freeNames
  generalize entriesOf p sb d = entries at hresidue
  induction entries with
  | nil => rfl
  | cons e entries ih =>
    have hrest := ih fun e' he' => hresidue e' (List.mem_cons_of_mem e he')
    have he := hresidue e List.mem_cons_self
    by_cases hres : e.Residue
    · have hsome : e.residue = some (decodeName e.name, e.ino) := if_pos hres
      rw [List.filterMap_cons_some hsome, List.filter_cons_of_pos (by simpa using he.mp hres),
        List.map_cons, hrest]
    · have hnone : e.residue = none := if_neg hres
      have hfree : ¬ (e.ino = 0 ∧ e.name ≠ [] ∧ e.name ≠ DOT ∧ e.name ≠ DOTDOT) :=
        fun h => hres (he.mpr h)
      rw [List.filterMap_cons_none hnone, List.filter_cons_of_neg (by simpa using hfree), hrest]

theorem mem_subdirs_iff {d n : ℕ} : n ∈ subdirs p sb d ↔ (n, true) ∈ named p sb d := by
  rw [mem_named_iff]
  unfold subdirs entriesOf
  cases listDirAll p sb d with
  | error e => simp
  | ok entries => simp [List.mem_filterMap, DirEntry.subdir, and_assoc, and_comm, and_left_comm]

theorem mem_tree_iff {d : ℕ} :
    d ∈ tree p sb ↔ Relation.ReflTransGen (fun d n => n ∈ subdirs p sb d) UFS_ROOTINO d := by
  simp only [mem_subdirs_iff]
  exact Worklist.reach_iff_reflTransGen

/-- Entries name inodes by 32-bit numbers, so the tree is finite. -/
theorem tree_finite (p : Bytes) (sb : Superblock) : (tree p sb).Finite := by
  apply (Set.finite_lt_nat (2 ^ 32)).subset
  intro d hd
  rcases Worklist.Reach.followed hd with rfl | ⟨d', -, hmem⟩
  · exact (by decide : UFS_ROOTINO < 2 ^ 32)
  · obtain ⟨e, he, hsome⟩ := List.mem_filterMap.mp (mem_subdirs_iff.mpr hmem)
    unfold DirEntry.subdir at hsome
    split_ifs at hsome
    obtain ⟨block, off, reclen, rfl⟩ := exists_recordAt_of_mem_entriesOf he
    rw [← Option.some.inj hsome]
    exact recordAt_ino_lt _ _ _ _

noncomputable def treeDirs (p : Bytes) (sb : Superblock) : Finset ℕ := (tree_finite p sb).toFinset

theorem mem_treeDirs_iff {d : ℕ} : d ∈ treeDirs p sb ↔ d ∈ tree p sb :=
  (tree_finite p sb).mem_toFinset

theorem treeDirs_card_le :
    (treeDirs p sb).card ≤ 1 + ∑ d ∈ treeDirs p sb, (subdirs p sb d).length := by
  have hsub : treeDirs p sb ⊆
      {UFS_ROOTINO} ∪ (treeDirs p sb).biUnion fun d => (subdirs p sb d).toFinset := by
    intro d hd
    rw [Finset.mem_union, Finset.mem_singleton, Finset.mem_biUnion]
    refine (Worklist.Reach.followed (mem_treeDirs_iff.mp hd)).imp_right ?_
    rintro ⟨d', hd', hmem⟩
    exact ⟨d', mem_treeDirs_iff.mpr hd', List.mem_toFinset.mpr (mem_subdirs_iff.mpr hmem)⟩
  have hsum : ∑ d ∈ treeDirs p sb, (subdirs p sb d).toFinset.card ≤
      ∑ d ∈ treeDirs p sb, (subdirs p sb d).length :=
    Finset.sum_le_sum fun d _ => List.toFinset_card_le _
  calc (treeDirs p sb).card
      ≤ ({UFS_ROOTINO} ∪ (treeDirs p sb).biUnion fun d => (subdirs p sb d).toFinset).card :=
        Finset.card_le_card hsub
    _ ≤ 1 + ((treeDirs p sb).biUnion fun d => (subdirs p sb d).toFinset).card :=
        Finset.card_union_le _ _
    _ ≤ 1 + ∑ d ∈ treeDirs p sb, (subdirs p sb d).length :=
        Nat.add_le_add_left (Finset.card_biUnion_le.trans hsum) 1

/-- A tree that the recovery walk has the budget for is within that of the audit's walk. -/
theorem tree_encard_le_of_budget
    (hbudget : 1 + ∑ d ∈ treeDirs p sb, (subdirs p sb d).length ≤ WALK_BUDGET) :
    (tree p sb).encard ≤ WALK_BUDGET := by
  have hset : tree p sb = (treeDirs p sb : Set ℕ) := (tree_finite p sb).coe_toFinset.symm
  rw [hset, Set.encard_coe_eq_coe_finsetCard]
  exact_mod_cast treeDirs_card_le.trans hbudget

/-- The walk never leaves the tree. -/
theorem mem_tree_of_mem_walkedDirs {d : ℕ} (hd : d ∈ walkedDirs p sb) : d ∈ tree p sb := by
  have hroot : ∀ x ∈ [UFS_ROOTINO], x ∈ treeDirs p sb := by
    intro x hx
    rw [List.mem_singleton.mp hx, mem_treeDirs_iff]
    exact mem_tree_iff.mpr .refl
  refine mem_treeDirs_iff.mp (Worklist.mem_of_mem_order (fun x hx y hy => ?_) hroot hd)
  rw [mem_treeDirs_iff] at hx ⊢
  exact mem_tree_iff.mpr ((mem_tree_iff.mp hx).tail hy)

theorem coe_flatMap_eq_sum {α β : Type*} [DecidableEq α] {l : List α} (h : l.Nodup)
    (f : α → List β) : (l.flatMap f : Multiset β) = ∑ x ∈ l.toFinset, (f x : Multiset β) := by
  rw [List.sum_toFinset _ h]
  clear h
  induction l with
  | nil => rfl
  | cons x l ih =>
    rw [List.flatMap_cons, List.map_cons, List.sum_cons, ← ih]
    rfl

/-- With a budget for the root and every directory entry of the tree, the recovery walk lists each
directory of the tree once and no other, and what it collects is one item for each free slot with a
name in these directories. -/
theorem collectDeletedDirents_complete
    (hbudget : 1 + ∑ d ∈ treeDirs p sb, (subdirs p sb d).length ≤ WALK_BUDGET) :
    (walkedDirs p sb).Nodup ∧ (∀ d, d ∈ walkedDirs p sb ↔ d ∈ tree p sb) ∧
      (collectDeletedDirents p sb : Multiset (String × ℕ)) =
        ∑ d ∈ treeDirs p sb, (freeNames p sb d : Multiset (String × ℕ)) := by
  have hnodup : (walkedDirs p sb).Nodup := (Worklist.order_nodup _ _ _ _).1
  have hmem : ∀ d, d ∈ walkedDirs p sb ↔ d ∈ treeDirs p sb := fun d =>
    Worklist.mem_order_iff (fun y => mem_treeDirs_iff.trans mem_tree_iff) hbudget
  have hset : (walkedDirs p sb).toFinset = treeDirs p sb := by
    ext d
    rw [List.mem_toFinset, hmem]
  refine ⟨hnodup, fun d => (hmem d).trans mem_treeDirs_iff, ?_⟩
  rw [collectDeletedDirents_eq, coe_flatMap_eq_sum hnodup, hset]
  simp only [freeNames_eq]

namespace Crafted

/-- A volume whose root names the directory 3 twice; directory 3 names the root again. Each has a
free slot. -/
def sharedDir : Bytes := volume (tiny.dinode 2 DIR_MODE 512 [24] ++
  tiny.dinode 3 DIR_MODE 512 [25] ++
  [(24 * 512, tiny.direct 3 12 4 [100] ++ tiny.direct 3 12 4 [101] ++ tiny.direct 0 488 8 [120]),
    (25 * 512, tiny.direct 2 12 4 [46, 46] ++ tiny.direct 2 12 4 [117] ++
      tiny.direct 0 488 8 [121])])

theorem subdirs_sharedDir :
    subdirs sharedDir tinySb 2 = [3, 3] ∧ subdirs sharedDir tinySb 3 = [2] := by decide +kernel

theorem budget_sharedDir :
    1 + ∑ d ∈ treeDirs sharedDir tinySb, (subdirs sharedDir tinySb d).length ≤ WALK_BUDGET := by
  have htree : tree sharedDir tinySb ⊆ {2, 3} := by
    refine tree_subset (Or.inl rfl) ?_
    rintro d (rfl | rfl) n hn
    · rw [← mem_subdirs_iff, subdirs_sharedDir.1] at hn
      exact Or.inr (by simpa using hn)
    · rw [← mem_subdirs_iff, subdirs_sharedDir.2] at hn
      exact Or.inl (List.mem_singleton.mp hn)
  have hsub : treeDirs sharedDir tinySb ⊆ {2, 3} := by
    intro d hd
    simpa using htree (mem_treeDirs_iff.mp hd)
  have hsum := Finset.sum_le_sum_of_subset (f := fun d => (subdirs sharedDir tinySb d).length) hsub
  rw [Finset.sum_pair (by decide), subdirs_sharedDir.1, subdirs_sharedDir.2] at hsum
  have hbudget : 1 + 3 ≤ WALK_BUDGET := by
    unfold WALK_BUDGET
    norm_num
  exact (Nat.add_le_add_left hsum 1).trans hbudget

end Crafted

theorem collectDeletedDirents_complete_sharedDir :
    (walkedDirs Crafted.sharedDir Crafted.tinySb).Nodup ∧
      (∀ d, d ∈ walkedDirs Crafted.sharedDir Crafted.tinySb ↔
        d ∈ tree Crafted.sharedDir Crafted.tinySb) ∧
      (collectDeletedDirents Crafted.sharedDir Crafted.tinySb : Multiset (String × ℕ)) =
        ∑ d ∈ treeDirs Crafted.sharedDir Crafted.tinySb,
          (freeNames Crafted.sharedDir Crafted.tinySb d : Multiset (String × ℕ)) :=
  collectDeletedDirents_complete Crafted.budget_sharedDir

end UfsForensic
