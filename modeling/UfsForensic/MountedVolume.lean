import UfsForensic.AdapterReads
import UfsForensic.Volume

/-!
# Mounted volumes

The adapter on top of the reader: what it serves for a partition that is read as a tree is that tree,
call by call. A volume that has been written, in either version and byte order, is mounted with the
geometry it was written with and served as the tree it was written for.
-/

namespace UfsForensic

open Bytes (Run Stores)
open UfsFs (parsePrimary)

/-- The adapter's kinds of a node. -/
def VolumeNode.HasKind (n : VolumeNode) (kind : NodeKind) : Prop :=
  match n with
  | .file _ => kind = .file
  | .dir _ => kind = .dir
  | .link _ => kind = .symlink
  | .special => kind = .device ∨ kind = .other

theorem VolumeNode.HasType.hasKind {n : VolumeNode} {fileType : FileType} (h : n.HasType fileType) :
    n.HasKind (nodeKind fileType) := by
  cases n with
  | file content =>
    rw [show fileType = .regular from h]
    rfl
  | dir es =>
    rw [show fileType = .directory from h]
    rfl
  | link target =>
    rw [show fileType = .symlink from h]
    rfl
  | special =>
    obtain ⟨hreg, hdir, hlink⟩ := h
    cases fileType with
    | regular => exact absurd rfl hreg
    | directory => exact absurd rfl hdir
    | symlink => exact absurd rfl hlink
    | charDevice => exact Or.inl rfl
    | blockDevice => exact Or.inl rfl
    | fifo => exact Or.inr rfl
    | socket => exact Or.inr rfl
    | whiteout => exact Or.inr rfl
    | other bits => exact Or.inr rfl

/-- What a link is read as; other nodes read as empty links. -/
def VolumeNode.target (n : VolumeNode) : List UInt8 :=
  match n with
  | .link target => target
  | _ => []

/-- The adapter serves the tree: paths lead where they lead in the tree, directories have its
entries, each with the kind of its node, files are read in windows of their content, and links give
their target up to the cap. -/
structure ServesAs (fs : UfsFs) (t : NodeTree ℕ (List UInt8) UInt8) : Prop where
  path : ∀ names i, t.resolve t.root names = some i →
    fs.lookupAll fs.root names = .ok (some (.byIno i))
  lookup : ∀ i es, t.node i = some (.dir es) → ∀ name,
    fs.lookup (.byIno i) name = .ok ((t.child i name).map .byIno)
  readDir : ∀ i es, t.node i = some (.dir es) → ∃ entries, fs.readDir (.byIno i) = .ok entries ∧
    (entries.map fun e => (e.name, e.id)) = (es.map fun e => (e.1, .byIno e.2)) ∧
      ∀ e ∈ entries, ∃ (j : ℕ) (n : VolumeNode), e.id = .byIno j ∧ t.node j = some n ∧
        n.HasKind e.kind
  metadata : ∀ i (n : VolumeNode), t.node i = some n → ∃ m, fs.metadata (.byIno i) = .ok m ∧ m.ino = i ∧
    n.HasKind m.kind ∧ ∀ content, n = .file content → m.size.toNat = content.length
  readAt : ∀ i content, t.node i = some (.file content) → ∀ off buf, ∃ out,
    fs.readAt (.byIno i) .default off buf = .ok (min (content.length - off) buf.len, out) ∧
      out.toList = (content.drop off).take buf.len ++ buf.toList.drop (content.length - off)
  readLink : ∀ i (n : VolumeNode), t.node i = some n → ∀ cap,
    (fs.readLink (.byIno i) cap).map Bytes.toList = .ok (n.target.take cap)

variable {fs : UfsFs} {t : NodeTree ℕ (List UInt8) UInt8}

section Calls

variable (h : ReadsAs fs.image fs.sb t)
include h

theorem ReadsAs.listDir_eq {i : ℕ} {es : List (List UInt8 × ℕ)} (hn : t.node i = some (.dir es)) :
    ∃ entries, listDir fs.image fs.sb i = .ok entries ∧
      (entries.map fun e => (e.name, e.ino)) = es := by
  have hdir := h.dir i es hn
  cases hlist : listDir fs.image fs.sb i with
  | error e =>
    rw [hlist] at hdir
    exact nomatch hdir
  | ok entries =>
    rw [hlist] at hdir
    exact ⟨entries, rfl, Except.ok.inj hdir⟩

theorem ReadsAs.lookup_eq {i : ℕ} {es : List (List UInt8 × ℕ)} (hn : t.node i = some (.dir es))
    (name : List UInt8) : fs.lookup (.byIno i) name = .ok ((t.child i name).map .byIno) := by
  obtain ⟨entries, hlist, hes⟩ := h.listDir_eq hn
  rw [UfsFs.lookup_byIno, hlist]
  dsimp only
  rw [NodeTree.child, NodeTree.entries_of_node hn, ← hes, List.find?_map, Option.map_map,
    Option.map_map]
  rfl

theorem ReadsAs.lookupAll_eq {names : List (List UInt8)} {i j : ℕ}
    (hj : t.resolve i names = some j) : fs.lookupAll (.byIno i) names = .ok (some (.byIno j)) := by
  induction names generalizing i with
  | nil => rw [UfsFs.lookupAll, Option.some.inj hj]
  | cons name names ih =>
    obtain ⟨k, hk, hrest⟩ := Option.bind_eq_some_iff.mp hj
    obtain ⟨n, hmem⟩ := NodeTree.mem_entries_of_child hk
    obtain ⟨es, hn⟩ : ∃ es, t.node i = some (.dir es) := by
      unfold NodeTree.entries at hmem
      split at hmem
      · next es hes => exact ⟨es, hes⟩
      · exact absurd hmem List.not_mem_nil
    rw [UfsFs.lookupAll, h.lookup_eq hn, hk]
    exact ih hrest

theorem ReadsAs.entryKind {i : ℕ} {n : VolumeNode} (hn : t.node i = some n) :
    n.HasKind (fs.entryKind i) := by
  obtain ⟨inode, hinode, htype⟩ := h.type i n hn
  rw [UfsFs.entryKind, hinode]
  exact htype.hasKind

theorem ReadsAs.readFile_ok {i : ℕ} {content : List UInt8} (hn : t.node i = some (.file content)) :
    ∃ file, readFile fs.image fs.sb i = .ok file ∧ file.toList = content := by
  have hfile := h.file i content hn
  cases hread : readFile fs.image fs.sb i with
  | error e =>
    rw [hread] at hfile
    exact nomatch hfile
  | ok file =>
    rw [hread] at hfile
    exact ⟨file, rfl, Except.ok.inj hfile⟩

theorem ReadsAs.readLink_eq {i : ℕ} {n : VolumeNode} (hn : t.node i = some n) (cap : ℕ) :
    (fs.readLink (.byIno i) cap).map Bytes.toList = .ok (n.target.take cap) := by
  obtain ⟨inode, hinode, htype⟩ := h.type i n hn
  have hget : fs.inode (.byIno i) = .ok inode := by
    simp only [UfsFs.inode, inoOf, hinode, bind, Except.bind, Except.mapError]
  by_cases hlink : inode.fileType = .symlink
  · obtain ⟨target, rfl⟩ : ∃ target, n = .link target := by
      rw [hlink] at htype
      cases n with
      | link target => exact ⟨target, rfl⟩
      | file content => cases htype
      | dir es => cases htype
      | special => exact absurd rfl htype.2.2
    obtain ⟨inode', hinode', htarget⟩ := h.link i target hn
    obtain rfl := Except.ok.inj (hinode.symm.trans hinode')
    cases hread : readSymlinkTarget fs.image fs.sb inode with
    | error e =>
      rw [hread] at htarget
      cases htarget
    | ok out =>
      rw [hread] at htarget
      obtain rfl : out.toList = target := Except.ok.inj htarget
      simp only [UfsFs.readLink, hget, hlink, hread, bind, Except.bind, Except.mapError, ne_eq,
        not_true_eq_false, if_false, pure, Except.pure, Except.map, toList_take]
      rfl
  · have hnone : n.target = [] := by
      cases n with
      | link target => exact absurd htype hlink
      | file content => rfl
      | dir es => rfl
      | special => rfl
    simp only [UfsFs.readLink, hget, bind, Except.bind, ne_eq, hlink, not_false_eq_true, if_true,
      pure, Except.pure, Except.map, hnone, List.take_nil]
    rfl

end Calls

/-- Whatever the partition, where the reader reads a tree the adapter serves it. -/
theorem servesAs_of_readsAs (h : ReadsAs fs.image fs.sb t) (hroot : t.root = UFS_ROOTINO)
    (hclosed : t.Closed) : ServesAs fs t where
  path names i hi := by
    rw [hroot] at hi
    exact h.lookupAll_eq hi
  lookup i es hn name := h.lookup_eq hn name
  readDir i es hn := by
    obtain ⟨entries, hlist, hes⟩ := h.listDir_eq hn
    refine ⟨entries.map fun e => { name := e.name, id := .byIno e.ino, kind := fs.entryKind e.ino },
      ?_, ?_, ?_⟩
    · simp only [UfsFs.readDir, inoOf, hlist, bind, Except.bind, pure, Except.pure, Except.mapError]
    · rw [← hes, List.map_map, List.map_map]
      rfl
    · intro e he
      obtain ⟨d, hd, rfl⟩ := List.mem_map.mp he
      have hmem : (d.name, d.ino) ∈ t.entries i := by
        rw [NodeTree.entries_of_node hn, ← hes]
        exact List.mem_map.mpr ⟨d, hd, rfl⟩
      obtain ⟨n, hnode⟩ := Option.isSome_iff_exists.mp (hclosed.entry i _ hmem)
      exact ⟨d.ino, n, rfl, hnode, h.entryKind hnode⟩
  metadata i n hn := by
    obtain ⟨inode, hinode, htype⟩ := h.type i n hn
    unfold UfsFs.metadata
    simp only [inoOf, hinode, bind, Except.bind, pure, Except.pure, Except.mapError]
    refine ⟨_, rfl, rfl, htype.hasKind, ?_⟩
    rintro content rfl
    obtain ⟨file, hread, rfl⟩ := h.readFile_ok hn
    obtain ⟨inode', hinode', hfile⟩ := readFile_eq_ok_iff.mp hread
    obtain rfl := Except.ok.inj (hinode.symm.trans hinode')
    rw [Bytes.toList_length, (readInodeFile_len hfile).2]
  readAt i content hn off buf := by
    obtain ⟨file, hread, rfl⟩ := h.readFile_ok hn
    rw [Bytes.toList_length]
    exact readAt_eq hread off buf
  readLink i n hn cap := h.readLink_eq hn cap

theorem parsePrimary_of_stores {p : Bytes} {sb : Superblock} {off : ℕ} (hrange : sb.InRange)
    (hlen : off + SB_MIN_LEN ≤ p.len) (h : ∀ r ∈ sb.fields, Stores p (off + r.1, r.2)) :
    parsePrimary p off = .ok sb := by
  have hslice : SB_MIN_LEN ≤ (p.slice off (p.len - off)).len := by
    rw [Bytes.slice_len]
    omega
  unfold parsePrimary
  rw [Bytes.getFrom_eq_some (by omega)]
  refine (Superblock.parse_eq_ok_iff_hasRun hslice).mpr ⟨hrange, fun r hr i hi => ?_⟩
  have hin := Superblock.fields_inside hr
  rw [Bytes.slice_byte_of_lt (by omega), ← Nat.add_assoc]
  exact (h r hr).hasRun i hi

theorem Layout.Writable.superblock_stores {L : Layout} {base : Bytes} (h : L.Writable base.len)
    {r : Run} (hr : r ∈ L.sb.fields) : Stores (L.write base) (L.sb.version.primaryOffset + r.1, r.2) :=
  Bytes.writeAll_stores h.apart h.inside _
    (List.mem_append_left _ (List.mem_map.mpr ⟨r, hr, rfl⟩))

/-- A volume written over any bytes is mounted with its geometry and served as its tree. For UFS1
nothing else may be accepted at the UFS2 offset, where the adapter looks first. -/
theorem openSource_write {L : Layout} {base : Bytes} (h : L.Writable base.len)
    (hrange : L.sb.InRange) (hlen : L.sb.version.primaryOffset + SB_MIN_LEN ≤ base.len)
    (hfirst : L.sb.version = .ufs1 → ∀ sb, parsePrimary (L.write base) SBLOCK_UFS2 ≠ .ok sb)
    {source : DynSource} (hsource : HandsOver source (L.write base)) :
    ∃ fs, UfsFs.openSource source = .ok fs ∧ fs.sb = L.sb ∧ ServesAs fs L.tree := by
  have hfound : parsePrimary (L.write base) L.sb.version.primaryOffset = .ok L.sb := by
    apply parsePrimary_of_stores hrange
    · rwa [Layout.write, Bytes.writeAll_len]
    · exact fun r hr => h.superblock_stores hr
  have hmounts : Mounts (L.write base) L.sb := by
    cases hv : L.sb.version with
    | ufs1 =>
      rw [hv] at hfound
      exact Or.inr ⟨hfirst hv, hfound⟩
    | ufs2 =>
      rw [hv] at hfound
      exact Or.inl hfound
  obtain ⟨fs, himage, hsb⟩ : ∃ fs : UfsFs, fs.image = L.write base ∧ fs.sb = L.sb :=
    ⟨⟨_, _⟩, rfl, rfl⟩
  refine ⟨fs, (openSource_eq_ok_iff hsource).mpr ⟨himage, hsb ▸ hmounts⟩, hsb, ?_⟩
  apply servesAs_of_readsAs _ rfl h.valid.closed
  rw [himage, hsb]
  exact readsAs_of_held h.held

theorem Crafted.shelf_ne_ufs1 : shelfSb.version ≠ .ufs1 := by decide

theorem Crafted.shelf_inRange : shelfSb.InRange :=
  ⟨shelf_wellFormed, (absurd · shelf_ne_ufs1), (absurd · shelf_ne_ufs1), (absurd · shelf_ne_ufs1)⟩

theorem openSource_write_shelf : ∃ fs,
    UfsFs.openSource (Crafted.memorySource (Crafted.shelfLayout.write Crafted.wornOut)) = .ok fs ∧
      fs.sb = Crafted.shelfSb ∧ ServesAs fs Crafted.shelfLayout.tree :=
  openSource_write Crafted.shelf_writable Crafted.shelf_inRange (by decide +kernel)
    (absurd · Crafted.shelf_ne_ufs1) (Crafted.handsOver_memorySource _)

end UfsForensic
