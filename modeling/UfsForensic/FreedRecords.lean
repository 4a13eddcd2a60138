import UfsForensic.AllocatedVolume

/-!
# Freed records

A live record in its place in a layout, and the layout with the record freed. Four bytes of one block
are zeroed; every other run is as before, the layout stays valid, and its tree loses one name.
-/

namespace UfsForensic

open Bytes (Replaced Run zeroRange)
open BlockMap (nindirOf)
open Crafted (int)

def DirRecord.free (r : DirRecord) : DirRecord := { r with ino := 0 }

theorem int_zero (e : Endian) : int e 4 0 = List.replicate 4 0 := by cases e <;> decide

/-- Freeing a record zeroes the first four bytes of it. -/
theorem encode_free (e : Endian) (before after : List DirRecord) (r : DirRecord)
    (tail : List UInt8) :
    (before ++ r.free :: after).flatMap (DirRecord.encode e) ++ tail =
      zeroRange ((before ++ r :: after).flatMap (DirRecord.encode e) ++ tail)
        (before.flatMap (DirRecord.encode e)).length 4 := by
  have hzero := Bytes.zeroRange_append (before.flatMap (DirRecord.encode e))
    (int e 4 r.ino.toNat) (int e 2 r.reclen ++
      ([r.dType, UInt8.ofNat r.name.length] ++ (r.name ++ r.padding)) ++
        (after.flatMap (DirRecord.encode e) ++ tail))
  rw [int_length] at hzero
  simp only [List.flatMap_append, List.flatMap_cons, DirRecord.encode, List.append_assoc] at hzero ⊢
  rw [hzero, ← int_zero e]
  rfl

theorem chunk_zeroRange {content : List UInt8} {size block skip b : ℕ}
    (hin : skip + 4 ≤ (chunk content size block).length) :
    chunk (zeroRange content (block * size + skip) 4) size b =
      if b = block then zeroRange (chunk content size b) skip 4 else chunk content size b := by
  have hlen : (chunk (zeroRange content (block * size + skip) 4) size b).length =
      (chunk content size b).length := by
    rw [chunk_length, chunk_length, Bytes.zeroRange_length]
  rw [chunk_length] at hin
  refine List.ext_getElem (by split_ifs <;> simp [hlen]) fun i h1 h2 => ?_
  have hi : i < (chunk content size b).length := hlen ▸ h1
  have hi' := hi
  rw [chunk_length] at hi'
  have hget := chunk_getElem h1 (by rw [Bytes.zeroRange_length]; omega)
  rw [Bytes.zeroRange_getElem _ (by omega)] at hget
  rw [hget]
  split_ifs with hzero hb hb
  · rw [Bytes.zeroRange_getElem _ hi, if_pos (by subst hb; omega)]
  · -- another piece lies before or after the range
    exfalso
    rcases Nat.lt_or_gt_of_ne hb with hlt | hlt
    · have := Nat.mul_le_mul_right size (Nat.succ_le_of_lt hlt)
      rw [Nat.succ_mul] at this
      omega
    · have := Nat.mul_le_mul_right size (Nat.succ_le_of_lt hlt)
      rw [Nat.succ_mul] at this
      omega
  · rw [Bytes.zeroRange_getElem _ hi, if_neg (by subst hb; omega)]
    exact (chunk_getElem hi _).symm
  · exact (chunk_getElem hi _).symm

theorem exists_ne_zero_of_live {e : Endian} {r : DirRecord} (h : r.ino ≠ 0) :
    ∃ x ∈ r.encode e, x ≠ 0 := by
  by_contra hall
  push Not at hall
  have hzero : int e 4 r.ino.toNat = int e 4 0 := by
    rw [int_zero]
    exact List.eq_replicate_iff.mpr
      ⟨int_length e 4 _, fun x hx => hall x (List.mem_append_left _ hx)⟩
  have hnat := nat_int e 4 r.ino.toNat
  rw [hzero, nat_int, Nat.mod_eq_of_lt (show r.ino.toNat < 256 ^ 4 from r.ino.toNat_lt)] at hnat
  exact h (UInt32.toNat_inj.mp hnat.symm)

theorem find_eq_of_nodup {items : List Item} (hnd : (items.map Item.ino).Nodup) {x : Item}
    (hx : x ∈ items) : (items.find? fun y => y.ino == x.ino) = some x := by
  have hsome : (items.find? fun y => y.ino == x.ino).isSome = true :=
    List.find?_isSome.mpr ⟨x, hx, beq_self_eq_true x.ino⟩
  obtain ⟨y, hy⟩ := Option.isSome_iff_exists.mp hsome
  have hino : y.ino = x.ino := by simpa using List.find?_some hy
  rw [hy, List.inj_on_of_nodup_map hnd (List.mem_of_find?_eq_some hy) hx hino]

/-- A live record in its place: the directory, the block in it, and what stands around it there. -/
structure Slot (L : Layout) where
  front : List Item
  item : Item
  back : List Item
  content : List UInt8
  earlier : List (List DirRecord × List UInt8)
  before : List DirRecord
  record : DirRecord
  after : List DirRecord
  tail : List UInt8
  later : List (List DirRecord × List UInt8)
  items_eq : L.items = front ++ item :: back
  body_eq : item.body = .dir content (earlier ++ (before ++ record :: after, tail) :: later)
  live : record.ino ≠ 0

namespace Slot

variable {L : Layout} (s : Slot L)

def skip : ℕ := (s.before.flatMap (DirRecord.encode L.sb.endian)).length

def address : UInt64 := L.table.address (s.item.inode L.sb) (nindirOf L.sb) s.earlier.length

def offset : ℕ := s.address.toNat * L.sb.fragBytes + s.skip

/-- The directory with the record freed. -/
def freedItem : Item := { s.item with
  body := .dir (zeroRange s.content (s.earlier.length * L.sb.blockBytes + s.skip) 4)
    (s.earlier ++ (s.before ++ s.record.free :: s.after, s.tail) :: s.later) }

/-- The layout with the record freed. -/
def freed : Layout := { L with items := s.front ++ s.freedItem :: s.back }

theorem item_mem : s.item ∈ L.items := by
  rw [s.items_eq]
  simp

section Valid

variable (h : L.Valid)
include h

theorem laidOut : LaidOut L.table L.sb (s.item.inode L.sb) s.content ∧
    DirLaidOut L.sb s.content
      (s.earlier ++ (s.before ++ s.record :: s.after, s.tail) :: s.later) :=
  (h.item s.item s.item_mem).laidOut_dir s.body_eq

theorem block_lt : s.earlier.length < divCeil s.content.length L.sb.blockBytes := by
  rw [← (s.laidOut h).2.count]
  simp

theorem piece_eq : chunk s.content L.sb.blockBytes s.earlier.length =
    (s.before ++ s.record :: s.after).flatMap (DirRecord.encode L.sb.endian) ++ s.tail := by
  have hpiece := (s.laidOut h).2.piece s.earlier.length (by simp)
  simpa using hpiece

theorem skip_le : s.skip + 4 ≤ (chunk s.content L.sb.blockBytes s.earlier.length).length := by
  have hlen : DIRECT_HEAD ≤ s.record.reclen := by
    unfold DirRecord.reclen
    omega
  rw [s.piece_eq h, skip, List.flatMap_append, List.flatMap_cons, List.length_append,
    List.length_append, List.length_append, DirRecord.encode_length]
  unfold DIRECT_HEAD at hlen
  omega

theorem address_ne : s.address ≠ 0 := by
  intro h0
  obtain ⟨x, hx, hne⟩ := exists_ne_zero_of_live (e := L.sb.endian) s.live
  refine hne ((s.laidOut h).1.hole _ (s.block_lt h) h0 x ?_)
  rw [s.piece_eq h]
  simp [hx]

end Valid

def blockRun : Run :=
  (s.address.toNat * L.sb.fragBytes, chunk s.content L.sb.blockBytes s.earlier.length)

def freedRun : Run :=
  (s.address.toNat * L.sb.fragBytes,
    zeroRange (chunk s.content L.sb.blockBytes s.earlier.length) s.skip 4)

theorem freedRun_span : s.freedRun.span = s.blockRun.span := by
  simp [freedRun, blockRun, Run.span]

section Freed

variable (h : L.Valid)
include h

theorem freed_chunk (b : ℕ) :
    chunk (zeroRange s.content (s.earlier.length * L.sb.blockBytes + s.skip) 4) L.sb.blockBytes b =
      if b = s.earlier.length then zeroRange (chunk s.content L.sb.blockBytes b) s.skip 4
      else chunk s.content L.sb.blockBytes b := chunk_zeroRange (s.skip_le h)

/-- Freeing the record replaces the run of its block and no other. -/
theorem replaced_dataRuns : Replaced s.blockRun s.freedRun
    (dataRuns L.table L.sb (s.item.inode L.sb) s.item.body.content)
    (dataRuns L.table L.sb (s.freedItem.inode L.sb) s.freedItem.body.content) := by
  rw [s.body_eq]
  unfold dataRuns
  simp only [List.filterMap_eq_flatMap_toList]
  have hlen : (s.freedItem.body.content).length = s.content.length := Bytes.zeroRange_length _ _ _
  rw [hlen]
  refine Replaced.flatMap List.nodup_range (List.mem_range.mpr (s.block_lt h)) ?_ fun b _ hb => ?_
  · have hne : L.table.address (s.item.inode L.sb) (nindirOf L.sb) s.earlier.length ≠ 0 :=
      s.address_ne h
    have hne' : L.table.address (s.freedItem.inode L.sb) (nindirOf L.sb) s.earlier.length ≠ 0 := hne
    refine ⟨[], [], ?_, ?_⟩
    · rw [if_neg hne]
      rfl
    · rw [if_neg hne']
      change [(_, chunk (zeroRange _ _ _) _ _)] = _
      rw [s.freed_chunk h, if_pos rfl]
      rfl
  · change _ = (if _ then none else some (_, chunk (zeroRange _ _ _) _ _)).toList
    rw [s.freed_chunk h, if_neg hb]
    rfl

theorem replaced_runs : Replaced s.blockRun s.freedRun L.runs s.freed.runs := by
  have hitem := ((s.replaced_dataRuns h).append_left
    ((s.item.dinode.fields L.sb.version L.sb.endian).map fun r =>
      (L.sb.dinodeOff s.item.ino + r.1, r.2)))
  have hitems := (hitem.append_right (s.back.flatMap fun x => x.runs L.table L.sb)).append_left
    (s.front.flatMap fun x => x.runs L.table L.sb)
  have hall := hitems.append_left (L.table.runs L.sb)
  unfold Layout.runs
  rw [s.items_eq, List.flatMap_append, List.flatMap_cons]
  change Replaced _ _ _ (L.table.runs L.sb ++
    (s.front ++ s.freedItem :: s.back).flatMap fun x => x.runs L.table L.sb)
  rw [List.flatMap_append, List.flatMap_cons]
  exact hall

theorem freedItem_valid : s.freedItem.Valid L.table L.sb := by
  have hitem := h.item s.item s.item_mem
  obtain ⟨hlaid, hdir⟩ := s.laidOut h
  have htype := hitem.fileType
  rw [s.body_eq] at htype
  refine ⟨hitem.lt_inodes, hitem.inRange, htype, ⟨?_, hlaid.single, hlaid.double, hlaid.triple, ?_⟩,
    ?_, ?_, fun k hk => ?_, fun b hb => ?_⟩
  · exact hlaid.size_eq.trans (Bytes.zeroRange_length _ _ _).symm
  · intro b hb ha
    rw [Bytes.zeroRange_length] at hb
    have hne : b ≠ s.earlier.length := by
      rintro rfl
      exact s.address_ne h ha
    rw [s.freed_chunk h, if_neg hne]
    exact hlaid.hole b hb ha
  · rw [Bytes.zeroRange_length]
    exact hdir.within
  · rw [Bytes.zeroRange_length, ← hdir.count]
    simp
  · have hk' : k < (s.earlier ++ (s.before ++ s.record :: s.after, s.tail) :: s.later).length := by
      simpa using hk
    have hpiece := hdir.piece k hk'
    rw [s.freed_chunk h, hpiece]
    split_ifs with hb
    · subst hb
      simp only [List.getElem_append_right (Nat.le_refl _), Nat.sub_self, List.getElem_cons_zero]
      exact (encode_free _ _ _ _ _).symm
    · rcases Nat.lt_or_gt_of_ne hb with hlt | hgt
      · rw [List.getElem_append_left hlt, List.getElem_append_left hlt]
      · rw [List.getElem_append_right hgt.le, List.getElem_append_right hgt.le]
        obtain ⟨j, hj⟩ := Nat.exists_eq_add_of_lt hgt
        have hsub : k - s.earlier.length = j + 1 := by omega
        simp only [hsub, List.getElem_cons_succ]
  · have hends := hdir.ends
    rcases List.mem_append.mp hb with hb | hb
    · exact hends b (List.mem_append_left _ hb)
    · rcases List.mem_cons.mp hb with rfl | hb
      · exact hends (s.before ++ s.record :: s.after, s.tail) (by simp)
      · exact hends b (by simp [hb])

end Freed

theorem find_freed (i : ℕ) :
    (s.freed.items.find? fun x => x.ino == i) = (L.items.find? fun x => x.ino == i) ∨
      (L.items.find? fun x => x.ino == i) = some s.item ∧
        (s.freed.items.find? fun x => x.ino == i) = some s.freedItem := by
  change ((s.front ++ s.freedItem :: s.back).find? fun x => x.ino == i) = _ ∨
    _ ∧ ((s.front ++ s.freedItem :: s.back).find? fun x => x.ino == i) = _
  rw [s.items_eq, List.find?_append, List.find?_append, List.find?_cons, List.find?_cons]
  have hino : (s.freedItem.ino == i) = (s.item.ino == i) := rfl
  rw [hino]
  cases s.front.find? fun x => x.ino == i with
  | some x => exact Or.inl rfl
  | none =>
    cases s.item.ino == i with
    | true => exact Or.inr ⟨rfl, rfl⟩
    | false => exact Or.inl rfl

/-- The records of a directory are as before, but for the freed one. -/
theorem records_freed (i : ℕ) : s.freed.records i = L.records i ∨
    Replaced s.record s.record.free (L.records i) (s.freed.records i) := by
  rcases s.find_freed i with heq | ⟨hold, hnew⟩
  · left
    rw [Layout.records, heq]
    rfl
  · right
    rw [Layout.records_of_find hold s.body_eq,
      Layout.records_of_find hnew rfl, List.flatMap_append, List.flatMap_append, List.flatMap_cons,
      List.flatMap_cons]
    exact (Replaced.append_right ⟨s.before, s.after, rfl, rfl⟩ _).append_left _

theorem node_freed_isSome (i : ℕ) : (s.freed.tree.node i).isSome = (L.tree.node i).isSome := by
  unfold Layout.tree
  dsimp only
  rcases s.find_freed i with heq | ⟨hold, hnew⟩
  · rw [heq]
  · rw [hold, hnew]
    rfl

theorem isDir_freed_iff (i : ℕ) : s.freed.tree.IsDir i ↔ L.tree.IsDir i := by
  unfold NodeTree.IsDir Layout.tree
  dsimp only
  rcases s.find_freed i with heq | ⟨hold, hnew⟩
  · rw [heq]
  · rw [hold, hnew, Option.map_some, Option.map_some, s.body_eq]
    exact iff_of_true trivial trivial

theorem mem_records_freed {i : ℕ} {r : DirRecord} (hr : r ∈ s.freed.records i) :
    r ∈ L.records i ∨ r = s.record.free := by
  rcases s.records_freed i with heq | ⟨front, back, hold, hnew⟩
  · exact Or.inl (heq ▸ hr)
  · rw [hnew] at hr
    rw [hold]
    rcases List.mem_append.mp hr with hr | hr
    · exact Or.inl (List.mem_append_left _ hr)
    · rcases List.mem_cons.mp hr with rfl | hr
      · exact Or.inr rfl
      · exact Or.inl (List.mem_append_right _ (List.mem_cons_of_mem _ hr))

theorem mem_records_freed_of_ne {i : ℕ} {r : DirRecord} (hr : r ∈ L.records i) (hne : r ≠ s.record) :
    r ∈ s.freed.records i := by
  rcases s.records_freed i with heq | ⟨front, back, hold, hnew⟩
  · rwa [heq]
  · rw [hold] at hr
    rw [hnew]
    rcases List.mem_append.mp hr with hr | hr
    · exact List.mem_append_left _ hr
    · rcases List.mem_cons.mp hr with rfl | hr
      · exact absurd rfl hne
      · exact List.mem_append_right _ (List.mem_cons_of_mem _ hr)

theorem mem_records_of_freed {i : ℕ} {r : DirRecord} (hr : r ∈ s.freed.records i)
    (hlive : r.ino ≠ 0) : r ∈ L.records i := by
  rcases s.mem_records_freed hr with hr | rfl
  · exact hr
  · exact absurd rfl hlive

theorem subdirs_freed_length_le (i : ℕ) :
    (s.freed.subdirs i).length ≤ (L.subdirs i).length := by
  unfold Layout.subdirs
  rcases s.records_freed i with heq | ⟨front, back, hold, hnew⟩
  · rw [heq]
  · have hfree : (s.record.free :: back).filterMap (fun r => r.entry.subdir) =
        back.filterMap fun r => r.entry.subdir := List.filterMap_cons_none rfl
    have hback : (back.filterMap fun r => r.entry.subdir).length ≤
        ((s.record :: back).filterMap fun r => r.entry.subdir).length :=
      ((List.sublist_cons_self s.record back).filterMap _).length_le
    rw [hold, hnew, List.filterMap_append, List.filterMap_append, hfree, List.length_append,
      List.length_append]
    omega

theorem mem_entries_of_freed {i : ℕ} {e : List UInt8 × ℕ} (he : e ∈ s.freed.tree.entries i) :
    e ∈ L.tree.entries i := by
  obtain ⟨r, hr, hlive, rfl⟩ := Layout.mem_entries_iff.mp he
  exact Layout.mem_entries_iff.mpr ⟨r, s.mem_records_of_freed hr hlive, hlive, rfl⟩

theorem freed_inos : s.freed.items.map Item.ino = L.items.map Item.ino := by
  rw [s.items_eq]
  simp [freed, freedItem]

theorem mem_freed_items {x : Item} (hx : x ∈ s.freed.items) : x ∈ L.items ∨ x = s.freedItem := by
  have hmem : x ∈ s.front ++ s.freedItem :: s.back := hx
  rw [s.items_eq]
  rcases List.mem_append.mp hmem with hx | hx
  · exact Or.inl (List.mem_append_left _ hx)
  · rcases List.mem_cons.mp hx with rfl | hx
    · exact Or.inr rfl
    · exact Or.inl (List.mem_append_right _ (List.mem_cons_of_mem _ hx))

theorem mem_freed_of_not_dir {x : Item} (hx : x ∈ L.items)
    (hbody : ∀ content blocks, x.body ≠ .dir content blocks) : x ∈ s.freed.items := by
  rw [s.items_eq] at hx
  change x ∈ s.front ++ s.freedItem :: s.back
  rcases List.mem_append.mp hx with hx | hx
  · exact List.mem_append_left _ hx
  · rcases List.mem_cons.mp hx with rfl | hx
    · exact absurd s.body_eq (hbody _ _)
    · exact List.mem_append_right _ (List.mem_cons_of_mem _ hx)

theorem freed_valid (h : L.Valid) : s.freed.Valid where
  wellFormed := h.wellFormed
  ipg_pos := h.ipg_pos
  fpg_pos := h.fpg_pos
  iblkno_nonneg := h.iblkno_nonneg
  room := h.room
  holds := h.holds
  item x hx := by
    rcases s.mem_freed_items hx with hx | rfl
    · exact h.item x hx
    · exact s.freedItem_valid h
  root := by
    rw [s.node_freed_isSome]
    exact h.root
  entry x _ e he := by
    rw [s.node_freed_isSome]
    exact h.closed.entry x.ino e (s.mem_entries_of_freed he)

theorem exists_freed_items_iff {P : ℕ → Dinode → Prop} :
    (∃ x ∈ s.freed.items, P x.ino x.dinode) ↔ ∃ x ∈ L.items, P x.ino x.dinode := by
  rw [s.items_eq]
  change (∃ x ∈ s.front ++ s.freedItem :: s.back, P x.ino x.dinode) ↔ _
  simp only [List.mem_append, List.mem_cons, or_and_right, exists_or, exists_eq_left]
  rfl

section File

variable (hfile : ¬ L.tree.IsDir s.record.ino.toNat)
include hfile

/-- A record of a file leads to no directory. -/
theorem below_freed_iff {i : ℕ} : s.freed.tree.Below Dots i ↔ L.tree.Below Dots i := by
  constructor
  · intro hi
    induction hi with
    | root => exact .root
    | step _ hmem hname hj ih =>
      exact .step ih (s.mem_entries_of_freed hmem) hname ((s.isDir_freed_iff _).mp hj)
  · intro hi
    induction hi with
    | root => exact .root
    | step _ hmem hname hj ih =>
      obtain ⟨r, hr, hlive, heq⟩ := Layout.mem_entries_iff.mp hmem
      obtain ⟨rfl, rfl⟩ := Prod.mk.inj heq
      have hne : r ≠ s.record := fun h => hfile (h ▸ hj)
      exact .step ih (Layout.mem_entries_iff.mpr ⟨r, s.mem_records_freed_of_ne hr hne, hlive, rfl⟩)
        hname ((s.isDir_freed_iff _).mpr hj)

theorem isNamed_freed_iff {j : ℕ} (hj : j ≠ s.record.ino.toNat) :
    s.freed.tree.IsNamed Dots j ↔ L.tree.IsNamed Dots j := by
  constructor
  · rintro ⟨i, name, hi, hmem, hname⟩
    exact ⟨i, name, (s.below_freed_iff hfile).mp hi, s.mem_entries_of_freed hmem, hname⟩
  · rintro ⟨i, name, hi, hmem, hname⟩
    obtain ⟨r, hr, hlive, heq⟩ := Layout.mem_entries_iff.mp hmem
    obtain ⟨rfl, rfl⟩ := Prod.mk.inj heq
    have hne : r ≠ s.record := fun h => hj (congrArg (UInt32.toNat ∘ DirRecord.ino) h)
    exact ⟨i, r.name, (s.below_freed_iff hfile).mpr hi,
      Layout.mem_entries_iff.mpr ⟨r, s.mem_records_freed_of_ne hr hne, hlive, rfl⟩, hname⟩

end File

variable (hnd : (L.items.map Item.ino).Nodup)
include hnd

theorem records_item :
    L.records s.item.ino = (s.earlier.flatMap Prod.fst ++ (s.before ++ s.record :: s.after)) ++
        s.later.flatMap Prod.fst ∧
      s.freed.records s.item.ino =
        (s.earlier.flatMap Prod.fst ++ (s.before ++ s.record.free :: s.after)) ++
          s.later.flatMap Prod.fst := by
  have hold := find_eq_of_nodup hnd s.item_mem
  have hmem : s.freedItem ∈ s.freed.items := List.mem_append_right _ List.mem_cons_self
  have hnew : (s.freed.items.find? fun y => y.ino == s.item.ino) = some s.freedItem :=
    find_eq_of_nodup (s.freed_inos ▸ hnd) hmem
  rw [Layout.records_of_find hold s.body_eq, Layout.records_of_find hnew rfl]
  simp

end Slot

end UfsForensic
