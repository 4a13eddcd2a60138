import UfsForensic.Carve
import UfsForensic.DirWalk
import UfsForensic.OrphanedInodes

/-!
# Deleted names

The recovery walk lists the directories it reaches from the root, one after the other, and collects
the names in their free slots. A free slot has inode number 0, so the number it is recorded with
never pairs it with a carved file.
-/

namespace UfsForensic

variable {p : Bytes} {sb : Superblock}

/-- A free slot that keeps a name other than `.` and `..`. -/
def DirEntry.Residue (e : DirEntry) : Prop :=
  e.deleted = true ∧ e.name ≠ [] ∧ e.name ≠ DOT ∧ e.name ≠ DOTDOT

instance (e : DirEntry) : Decidable e.Residue :=
  inferInstanceAs (Decidable (_ ∧ _))

/-- The name a slot is recorded with, and its inode number. -/
def DirEntry.residue (e : DirEntry) : Option (String × ℕ) :=
  if e.Residue then some (decodeName e.name, e.ino) else none

/-- The directory an entry leads the walk to. -/
def DirEntry.subdir (e : DirEntry) : Option ℕ :=
  if e.Live ∧ isDirEntry e = true then some e.ino else none

/-- The entries of directory `d`, none when it cannot be listed. -/
def entriesOf (p : Bytes) (sb : Superblock) (d : ℕ) : List DirEntry :=
  match listDirAll p sb d with
  | .error _ => []
  | .ok entries => entries

/-- The directories that the recovery walk visits, in order. -/
def walkedDirs (p : Bytes) (sb : Superblock) : List ℕ :=
  Worklist.order (fun d => (entriesOf p sb d).filterMap DirEntry.subdir) WALK_BUDGET [] [UFS_ROOTINO]

theorem collectEntries_eq (entries : List DirEntry) (queue : List ℕ)
    (deleted : List (String × ℕ)) :
    collectEntries entries queue deleted =
      ((entries.filterMap DirEntry.subdir).reverse ++ queue,
        deleted ++ entries.filterMap DirEntry.residue) := by
  induction entries generalizing queue deleted with
  | nil => simp [collectEntries]
  | cons e entries ih =>
    rw [collectEntries]
    by_cases hdel : e.deleted = true
    · have hsub : e.subdir = none := if_neg fun h => by simp [h.1.1] at hdel
      rw [if_pos hdel, List.filterMap_cons_none hsub]
      by_cases hname : e.name ≠ [] ∧ e.name ≠ DOT ∧ e.name ≠ DOTDOT
      · have hres : e.residue = some (decodeName e.name, e.ino) := if_pos ⟨hdel, hname⟩
        rw [if_pos hname, List.filterMap_cons_some hres, ih, List.append_assoc,
          List.singleton_append]
      · have hres : e.residue = none := if_neg fun h => hname h.2
        rw [if_neg hname, List.filterMap_cons_none hres, ih]
    · have hres : e.residue = none := if_neg fun h => hdel h.1
      rw [if_neg hdel, List.filterMap_cons_none hres]
      by_cases hdir : isDirEntry e = true ∧ e.name ≠ DOT ∧ e.name ≠ DOTDOT
      · have hsub : e.subdir = some e.ino := if_pos ⟨⟨by simpa using hdel, hdir.2⟩, hdir.1⟩
        rw [if_pos hdir, List.filterMap_cons_some hsub, ih, List.reverse_cons, List.append_assoc,
          List.singleton_append]
      · have hsub : e.subdir = none := if_neg fun h => hdir ⟨h.2, h.1.2⟩
        rw [if_neg hdir, List.filterMap_cons_none hsub, ih]

theorem collectLoop_eq (budget : ℕ) (visited queue : List ℕ) (deleted : List (String × ℕ)) :
    collectLoop p sb budget visited queue deleted = deleted ++
      (Worklist.order (fun d => (entriesOf p sb d).filterMap DirEntry.subdir) budget visited
        queue).flatMap fun d => (entriesOf p sb d).filterMap DirEntry.residue := by
  induction budget generalizing visited queue deleted with
  | zero =>
    cases queue with
    | nil => simp [collectLoop, Worklist.order]
    | cons d queue => simp [collectLoop, Worklist.order]
  | succ budget ih =>
    cases queue with
    | nil => simp [collectLoop, Worklist.order]
    | cons d queue =>
      rw [collectLoop, Worklist.order]
      by_cases hd : d ∈ visited
      · rw [if_pos hd, if_pos hd]
        exact ih _ _ _
      · rw [if_neg hd, if_neg hd, List.flatMap_cons]
        unfold entriesOf
        cases hlist : listDirAll p sb d with
        | error e =>
          have hnext := ih (visited ++ [d]) queue deleted
          unfold entriesOf at hnext
          simpa using hnext
        | ok entries =>
          have hnext := ih (visited ++ [d]) ((entries.filterMap DirEntry.subdir).reverse ++ queue)
            (deleted ++ entries.filterMap DirEntry.residue)
          unfold entriesOf at hnext
          simpa only [collectEntries_eq, List.append_assoc] using hnext

/-- The collected names are those of the free slots of the visited directories. -/
theorem collectDeletedDirents_eq :
    collectDeletedDirents p sb =
      (walkedDirs p sb).flatMap fun d => (entriesOf p sb d).filterMap DirEntry.residue := by
  rw [collectDeletedDirents, collectLoop_eq, List.nil_append]
  rfl

theorem mem_collectDeletedDirents_iff {r : String × ℕ} :
    r ∈ collectDeletedDirents p sb ↔ ∃ d ∈ walkedDirs p sb, ∃ e ∈ entriesOf p sb d,
      e.Residue ∧ r = (decodeName e.name, e.ino) := by
  rw [collectDeletedDirents_eq]
  simp only [List.mem_flatMap, List.mem_filterMap]
  constructor
  · rintro ⟨d, hd, e, he, hr⟩
    unfold DirEntry.residue at hr
    split_ifs at hr with hres
    exact ⟨d, hd, e, he, hres, (Option.some.inj hr).symm⟩
  · rintro ⟨d, hd, e, he, hres, rfl⟩
    exact ⟨d, hd, e, he, if_pos hres⟩

theorem exists_recordAt_of_mem_entriesOf {d : ℕ} {e : DirEntry} (he : e ∈ entriesOf p sb d) :
    ∃ block off reclen, e = recordAt block sb.endian off reclen := by
  unfold entriesOf at he
  cases hlist : listDirAll p sb d with
  | error err =>
    rw [hlist] at he
    exact absurd he List.not_mem_nil
  | ok entries =>
    rw [hlist] at he
    obtain ⟨inode, -, rfl⟩ := listDirAll_eq_ok_iff.mp hlist
    exact exists_recordAt_of_mem_listDirEntries he

theorem deleted_iff_of_mem_entriesOf {d : ℕ} {e : DirEntry} (he : e ∈ entriesOf p sb d) :
    e.deleted = true ↔ e.ino = 0 := by
  obtain ⟨block, off, reclen, rfl⟩ := exists_recordAt_of_mem_entriesOf he
  exact recordAt_deleted _ _ _ _

theorem ino_of_mem_collectDeletedDirents {r : String × ℕ} (hr : r ∈ collectDeletedDirents p sb) :
    r.2 = 0 := by
  obtain ⟨d, -, e, he, hres, rfl⟩ := mem_collectDeletedDirents_iff.mp hr
  exact (deleted_iff_of_mem_entriesOf he).mp hres.1

/-- A carved file never gets a name. -/
theorem carvedItem_unnamed (sha256 : Bytes → Vector UInt8 32) {n : ℕ} (hn : 3 ≤ n)
    (inode : Inode) (content : Bytes) :
    carvedItem sha256 (collectDeletedDirents p sb) n inode content =
      .deletedFile none n inode.size.toNat content (sha256Hex sha256 content) := by
  have hnone : (collectDeletedDirents p sb).find? (fun d => d.2 == n) = none := by
    rw [List.find?_eq_none]
    intro r hr hrn
    have h0 := ino_of_mem_collectDeletedDirents hr
    rw [beq_iff_eq] at hrn
    omega
  rw [carvedItem, hnone, Option.map_none]

end UfsForensic
