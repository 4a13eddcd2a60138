import UfsForensic.Crafted
import UfsForensic.PrimarySuperblock

/-!
# Two ways to resolve a path

`readByPath` descends through directories only; the adapter's `lookup` lists whatever inode it is
given. A chain of first matches relates them: the routes agree on a path exactly when a completed
chain passes through directories.
-/

namespace UfsForensic

def components (path : List UInt8) : List (List UInt8) :=
  (path.splitOn SLASH).filter fun comp => comp ≠ []

/-- Fold `lookup` over the components from `id`, stopping when one is not found. -/
def UfsFs.lookupAll (fs : UfsFs) : FileId → List (List UInt8) → Except VfsError (Option FileId)
  | id, [] => .ok (some id)
  | id, comp :: rest =>
    match fs.lookup id comp with
    | .error e => .error e
    | .ok none => .ok none
    | .ok (some child) => fs.lookupAll child rest

/-- The routes agree on `path`: a node that `readByPath` finds is the node of the fold, and where
`readByPath` finds none the fold finds none. -/
structure RoutesAgree (fs : UfsFs) (path : List UInt8) : Prop where
  resolved : ∀ ino inode, readByPath fs.image fs.sb path = .ok (some (ino, inode)) →
    fs.lookupAll fs.root (components path) = .ok (some (.byIno ino))
  absent : readByPath fs.image fs.sb path = .ok none →
    ∀ id, fs.lookupAll fs.root (components path) ≠ .ok (some id)

/-- The first live record called each component leads from inode `d` to inode `m`; `ds` are the
inodes listed on the way. -/
inductive Leads (image : Bytes) (sb : Superblock) : ℕ → List (List UInt8) → List ℕ → ℕ → Prop
  | nil (d : ℕ) : Leads image sb d [] [] d
  | cons {d m : ℕ} {comp : List UInt8} {rest : List (List UInt8)} {ds : List ℕ}
      {entries : List DirEntry} {hit : DirEntry} (hlist : listDir image sb d = .ok entries)
      (hfind : entries.find? (fun e => e.name == comp) = some hit)
      (htail : Leads image sb hit.ino rest ds m) : Leads image sb d (comp :: rest) (d :: ds) m

variable {image : Bytes} {sb : Superblock}

/-- The fold completes exactly along the chains. -/
theorem lookupAll_eq_some_iff {fs : UfsFs} {d : ℕ} {comps : List (List UInt8)} {id : FileId} :
    fs.lookupAll (.byIno d) comps = .ok (some id) ↔
      ∃ ds m, Leads fs.image fs.sb d comps ds m ∧ id = .byIno m := by
  induction comps generalizing d with
  | nil =>
    constructor
    · intro h
      exact ⟨[], d, .nil d, (Option.some.inj (Except.ok.inj h)).symm⟩
    · rintro ⟨ds, m, hleads, rfl⟩
      cases hleads
      rfl
  | cons comp rest ih =>
    rw [UfsFs.lookupAll, UfsFs.lookup_byIno]
    constructor
    · intro h
      cases hlist : listDir fs.image fs.sb d with
      | error e =>
        rw [hlist] at h
        exact nomatch h
      | ok entries =>
        rw [hlist] at h
        cases hfind : entries.find? (fun e => e.name == comp) with
        | none =>
          simp only [hfind] at h
          exact nomatch h
        | some hit =>
          simp only [hfind] at h
          obtain ⟨ds, m, hleads, hid⟩ := ih.mp h
          exact ⟨d :: ds, m, .cons hlist hfind hleads, hid⟩
    · rintro ⟨ds, m, hleads, hid⟩
      cases hleads with
      | cons hlist hfind htail =>
        simp only [hlist, hfind]
        exact ih.mpr ⟨_, m, htail, hid⟩

theorem descend_filter (comps : List (List UInt8)) (d : ℕ) (cur : Inode) :
    descend image sb comps d cur =
      descend image sb (comps.filter fun comp => comp ≠ []) d cur := by
  induction comps generalizing d cur with
  | nil => rfl
  | cons comp rest ih =>
    by_cases hc : comp = []
    · simp only [descend, hc, ne_eq, not_true_eq_false, decide_false, Bool.false_eq_true,
        not_false_eq_true, List.filter_cons_of_neg, ite_true]
      exact ih d cur
    · rw [List.filter_cons_of_pos (by simpa using hc)]
      simp only [descend, ih]

theorem find_listDir {d : ℕ} {cur : Inode} (hcur : readInode image sb d = .ok cur)
    (comp : List UInt8) :
    ∃ entries, listDir image sb d = .ok entries ∧ entries.find? (fun e => e.name == comp) =
      (listDirEntries image sb cur).find? fun e => !e.deleted && e.name == comp := by
  refine ⟨_, listDir_eq_ok_iff.mpr ⟨cur, hcur, rfl⟩, ?_⟩
  rw [List.find?_filter]
  simp only [Bool.decide_and, Bool.decide_eq_true]

/-- A node the descent finds lies at the end of a chain. -/
theorem leads_of_descend {comps : List (List UInt8)} (hne : ∀ comp ∈ comps, comp ≠ []) {d : ℕ}
    {cur : Inode} (hcur : readInode image sb d = .ok cur) {ino : ℕ} {inode : Inode}
    (h : descend image sb comps d cur = .ok (some (ino, inode))) :
    ∃ ds, Leads image sb d comps ds ino := by
  induction comps generalizing d cur with
  | nil =>
    obtain ⟨rfl, -⟩ := Prod.mk.inj (Option.some.inj (Except.ok.inj h))
    exact ⟨[], .nil d⟩
  | cons comp rest ih =>
    obtain ⟨entries, hlist, hfind⟩ := find_listDir hcur comp
    rw [descend, if_neg (hne comp List.mem_cons_self)] at h
    by_cases hdir : cur.isDir = true
    · rw [if_neg (by simp [hdir]), ← hfind] at h
      cases hhit : entries.find? (fun e => e.name == comp) with
      | none =>
        rw [hhit] at h
        exact nomatch h
      | some hit =>
        simp only [hhit] at h
        cases hread : readInode image sb hit.ino with
        | error e =>
          rw [hread] at h
          exact nomatch h
        | ok next =>
          rw [hread] at h
          obtain ⟨ds, hleads⟩ := ih (fun c hc => hne c (List.mem_cons_of_mem _ hc)) hread h
          exact ⟨d :: ds, .cons hlist hhit hleads⟩
    · rw [if_pos (by simpa using hdir)] at h
      exact nomatch h

/-- Along a chain the descent gives up exactly when it meets something that is no directory. -/
theorem descend_eq_none_iff {comps : List (List UInt8)} (hne : ∀ comp ∈ comps, comp ≠ []) {d m : ℕ}
    {ds : List ℕ} (hleads : Leads image sb d comps ds m) {cur : Inode}
    (hcur : readInode image sb d = .ok cur) :
    descend image sb comps d cur = .ok none ↔ ∃ x ∈ ds, ¬ IsDirectory image sb x := by
  induction hleads generalizing cur with
  | nil d => simp [descend]
  | @cons d m comp rest ds entries hit hlist hhit htail ih =>
    obtain ⟨entries', hlist', hfind⟩ := find_listDir hcur comp
    rw [hlist] at hlist'
    obtain rfl := Except.ok.inj hlist'
    rw [descend, if_neg (hne comp List.mem_cons_self)]
    by_cases hdir : cur.isDir = true
    · have hd : IsDirectory image sb d := ⟨cur, hcur, hdir⟩
      rw [if_neg (by simp [hdir]), ← hfind, hhit]
      simp only [List.exists_mem_cons_iff, hd, not_true_eq_false, false_or]
      cases hread : readInode image sb hit.ino with
      | ok next =>
        simp only [ih (fun c hc => hne c (List.mem_cons_of_mem _ hc)) hread]
      | error e =>
        -- the last inode may be unreadable, but no inode that was listed is
        simp only [reduceCtorEq, false_iff, not_exists, not_and]
        cases htail with
        | nil => exact fun x hx => absurd hx List.not_mem_nil
        | cons hlist2 _ _ =>
          obtain ⟨inode, hinode, -⟩ := listDir_eq_ok_iff.mp hlist2
          rw [hread] at hinode
          exact nomatch hinode
    · rw [if_pos (by simpa using hdir)]
      simp only [true_iff]
      refine ⟨d, List.mem_cons_self, fun hd => ?_⟩
      obtain ⟨inode, hinode, hd⟩ := hd
      rw [hcur] at hinode
      exact hdir (Except.ok.inj hinode ▸ hd)

theorem components_ne_nil (path : List UInt8) : ∀ comp ∈ components path, comp ≠ [] := by
  intro comp hc
  simpa using (List.mem_filter.mp hc).2

theorem readByPath_eq (path : List UInt8) :
    readByPath image sb path =
      match readInode image sb UFS_ROOTINO with
      | .error e => .error e
      | .ok root => descend image sb (components path) UFS_ROOTINO root := by
  unfold readByPath components
  cases readInode image sb UFS_ROOTINO with
  | error e => rfl
  | ok root => exact descend_filter _ _ _

/-- The routes agree on a path exactly when every chain of first matches that completes it from
the root lists directories only. -/
theorem routesAgree_iff (fs : UfsFs) (path : List UInt8) :
    RoutesAgree fs path ↔ ∀ ds m, Leads fs.image fs.sb UFS_ROOTINO (components path) ds m →
      ∀ d ∈ ds, IsDirectory fs.image fs.sb d := by
  have hne := components_ne_nil path
  constructor
  · intro hagree ds m hleads d hd
    by_contra hno
    have hnone : readByPath fs.image fs.sb path = .ok none := by
      rw [readByPath_eq]
      -- a chain that lists the root shows that its inode is readable
      cases hroot : readInode fs.image fs.sb UFS_ROOTINO with
      | ok root => exact (descend_eq_none_iff hne hleads hroot).mpr ⟨d, hd, hno⟩
      | error e =>
        generalize components path = comps at hleads
        cases hleads with
        | nil => exact absurd hd List.not_mem_nil
        | cons hlist _ _ =>
          obtain ⟨inode, hinode, -⟩ := listDir_eq_ok_iff.mp hlist
          rw [hroot] at hinode
          exact nomatch hinode
    exact hagree.absent hnone (.byIno m) (lookupAll_eq_some_iff.mpr ⟨ds, m, hleads, rfl⟩)
  · intro hdirs
    constructor
    · intro ino inode h
      rw [readByPath_eq] at h
      cases hroot : readInode fs.image fs.sb UFS_ROOTINO with
      | error e =>
        rw [hroot] at h
        exact nomatch h
      | ok root =>
        rw [hroot] at h
        obtain ⟨ds, hleads⟩ := leads_of_descend hne hroot h
        exact lookupAll_eq_some_iff.mpr ⟨ds, ino, hleads, rfl⟩
    · intro h id hid
      obtain ⟨ds, m, hleads, rfl⟩ := lookupAll_eq_some_iff.mp hid
      rw [readByPath_eq] at h
      cases hroot : readInode fs.image fs.sb UFS_ROOTINO with
      | error e =>
        rw [hroot] at h
        exact nomatch h
      | ok root =>
        rw [hroot] at h
        obtain ⟨d, hd, hno⟩ := (descend_eq_none_iff hne hleads hroot).mp h
        exact hno (hdirs ds m hleads d hd)

namespace Crafted

/-- A volume whose root names a regular file `f`, whose content decodes as an entry `g`. -/
def recordsInFile : UfsFs where
  image := volume
    (tiny.dinode 2 DIR_MODE 512 [24] ++ tiny.dinode 3 REG_MODE 512 [25] ++
      [(24 * 512, tiny.direct 3 512 8 [102]), (25 * 512, tiny.direct 4 512 8 [103])])
  sb := tinySb

/-- A source that hands over `p`, whatever is asked of it. -/
def sourceOf (p : Bytes) : DynSource where
  len := p.len
  len_lt := p.len_lt
  readAt _ _ := .ok (p.len, p)

theorem handsOver_sourceOf (p : Bytes) : HandsOver (sourceOf p) p :=
  ⟨p, rfl, Bytes.slice_zero_len p⟩

end Crafted

/-- On the path `/f/g` the reader finds nothing, the adapter finds inode 4. -/
theorem routes_differ_through_file :
    UfsFs.openSource (Crafted.sourceOf Crafted.recordsInFile.image) = .ok Crafted.recordsInFile ∧
      ¬ RoutesAgree Crafted.recordsInFile [47, 102, 47, 103] := by
  refine ⟨(openSource_eq_ok_iff (Crafted.handsOver_sourceOf _)).mpr
    ⟨rfl, mounts_of_rejected (by decide +kernel) (by decide +kernel)⟩, fun h => ?_⟩
  have hnone : readByPath Crafted.recordsInFile.image Crafted.recordsInFile.sb
      [47, 102, 47, 103] = .ok none := by decide +kernel
  have hsome : Crafted.recordsInFile.lookupAll Crafted.recordsInFile.root
      (components [47, 102, 47, 103]) = .ok (some (.byIno 4)) := by decide +kernel
  exact h.absent hnone (.byIno 4) hsome

end UfsForensic
