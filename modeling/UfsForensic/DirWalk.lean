import UfsForensic.Dir

/-!
# The walk of a directory block

The records the walk decodes from a block, by the positions its cursor takes: a position splits the
records into those before it, decoded from the bytes before it, and those from it on.
-/

namespace UfsForensic

variable {block block' : Bytes} {endian : Endian}

def reclenAt (block : Bytes) (endian : Endian) (off : ℕ) : ℕ :=
  (endian.u16 block (off + OFF_RECLEN)).toNat

def namlenAt (block : Bytes) (off : ℕ) : ℕ := (u8At block (off + OFF_NAMLEN)).toNat

theorem reclenAt_lt (block : Bytes) (endian : Endian) (off : ℕ) :
    reclenAt block endian off < 2 ^ 16 := UInt16.toNat_lt _

theorem walkFrom_of_past {off : ℕ} (h : block.len < off + DIRECT_HEAD) :
    walkFrom block endian off = [] := by
  rw [walkFrom, if_neg (by omega)]

theorem walkFrom_of_short {off : ℕ} (h : reclenAt block endian off < DIRECT_HEAD) :
    walkFrom block endian off = [] := by
  rw [walkFrom]
  split_ifs
  · exact if_pos h
  · rfl

theorem walkFrom_of_record {off : ℕ} (hhead : off + DIRECT_HEAD ≤ block.len)
    (hlen : DIRECT_HEAD ≤ reclenAt block endian off) :
    walkFrom block endian off = recordAt block endian off (reclenAt block endian off) ::
      walkFrom block endian (off + reclenAt block endian off) := by
  have hb := block.len_lt
  have hr := reclenAt_lt block endian off
  rw [walkFrom, if_pos hhead]
  change (if reclenAt block endian off < DIRECT_HEAD then [] else
    recordAt block endian off (reclenAt block endian off) ::
      walkFrom block endian (satAdd off (reclenAt block endian off))) = _
  rw [if_neg (Nat.not_lt.mpr hlen), satAdd_eq (by unfold u64Max; omega)]

/-- Induction along a walk: what holds where no head fits and where a record is too short, and holds
at a record when it holds after it, holds at every position of the cursor. -/
@[elab_as_elim]
theorem walk_induction (block : Bytes) (endian : Endian) {motive : ℕ → Prop}
    (past : ∀ off, block.len < off + DIRECT_HEAD → motive off)
    (short : ∀ off, off + DIRECT_HEAD ≤ block.len → reclenAt block endian off < DIRECT_HEAD →
      motive off)
    (record : ∀ off, off + DIRECT_HEAD ≤ block.len → DIRECT_HEAD ≤ reclenAt block endian off →
      motive (off + reclenAt block endian off) → motive off)
    (off : ℕ) : motive off := by
  induction hn : block.len - off using Nat.strong_induction_on generalizing off with
  | _ n ih =>
    rcases Nat.lt_or_ge block.len (off + DIRECT_HEAD) with hpast | hhead
    · exact past off hpast
    rcases Nat.lt_or_ge (reclenAt block endian off) DIRECT_HEAD with hshort | hfit
    · exact short off hhead hshort
    · have hless : block.len - (off + reclenAt block endian off) < n := by
        unfold DIRECT_HEAD at hhead hfit
        omega
      exact record off hhead hfit (ih _ hless _ rfl)

/-- A block of zeros holds no record, since its first `d_reclen` is zero. -/
theorem walkFrom_of_zero (h : ∀ i, block.byte i = 0) (endian : Endian) :
    walkFrom block endian 0 = [] := by
  rcases Nat.lt_or_ge block.len (0 + DIRECT_HEAD) with hpast | hhead
  · exact walkFrom_of_past hpast
  have hw : ∀ i < 2, block.window (0 + OFF_RECLEN) 2 i = Bytes.empty.window 0 2 i := by
    intro i hi
    unfold DIRECT_HEAD at hhead
    unfold OFF_RECLEN
    rw [Bytes.window_eq (by omega) hi, h, Bytes.window_eq_zero (by decide)]
  apply walkFrom_of_short
  rw [reclenAt, Endian.u16_congr hw endian]
  cases endian <;> decide

theorem walkFrom_of_len_zero (h : block.len = 0) (endian : Endian) :
    walkFrom block endian 0 = [] :=
  walkFrom_of_zero (fun i => block.byte_eq_zero i (by omega)) endian

theorem exists_recordAt_of_mem_walkFrom {off : ℕ} {e : DirEntry}
    (he : e ∈ walkFrom block endian off) : ∃ o reclen, e = recordAt block endian o reclen := by
  induction off using walk_induction block endian with
  | past off hpast =>
    rw [walkFrom_of_past hpast] at he
    exact absurd he List.not_mem_nil
  | short off _ hshort =>
    rw [walkFrom_of_short hshort] at he
    exact absurd he List.not_mem_nil
  | record off hhead hfit ih =>
    rw [walkFrom_of_record hhead hfit] at he
    rcases List.mem_cons.mp he with rfl | he
    · exact ⟨off, _, rfl⟩
    · exact ih he

theorem exists_recordAt_of_mem_walkPointers {partition : Bytes} {sb : Superblock} {bsize : ℕ}
    {ptrs : List UInt64} {remaining : ℕ} {entries : List DirEntry} {e : DirEntry}
    (he : e ∈ walkPointers partition sb bsize ptrs remaining entries) :
    e ∈ entries ∨ ∃ block o reclen, e = recordAt block sb.endian o reclen := by
  induction ptrs generalizing remaining entries with
  | nil => exact Or.inl he
  | cons addr ptrs ih =>
    rw [walkPointers] at he
    split_ifs at he
    · exact Or.inl he
    · exact ih he
    cases hblock : readBlock partition sb addr (min remaining bsize) with
    | error err =>
      rw [hblock] at he
      exact Or.inl he
    | ok block =>
      rw [hblock] at he
      rcases ih he with he | he
      · rcases List.mem_append.mp he with he | he
        · exact Or.inl he
        · exact Or.inr ⟨block, exists_recordAt_of_mem_walkFrom he⟩
      · exact Or.inr he

theorem exists_recordAt_of_mem_listDirEntries {partition : Bytes} {sb : Superblock} {inode : Inode}
    {e : DirEntry} (he : e ∈ listDirEntries partition sb inode) :
    ∃ block o reclen, e = recordAt block sb.endian o reclen := by
  unfold listDirEntries at he
  split_ifs at he
  · exact absurd he List.not_mem_nil
  · exact (exists_recordAt_of_mem_walkPointers he).resolve_left List.not_mem_nil
  · exact (exists_recordAt_of_mem_walkPointers he).resolve_left List.not_mem_nil

theorem recordAt_deleted (block : Bytes) (endian : Endian) (off reclen : ℕ) :
    (recordAt block endian off reclen).deleted = true ↔
      (recordAt block endian off reclen).ino = 0 := by
  simp [recordAt]

theorem recordAt_ino_lt (block : Bytes) (endian : Endian) (off reclen : ℕ) :
    (recordAt block endian off reclen).ino < 2 ^ 32 := UInt32.toNat_lt _

/-- The walk from the start of the block reaches `off` after the records `pre`. -/
inductive Walked (block : Bytes) (endian : Endian) : ℕ → List DirEntry → Prop
  | start : Walked block endian 0 []
  | next {off : ℕ} {pre : List DirEntry} (h : Walked block endian off pre)
      (hhead : off + DIRECT_HEAD ≤ block.len) (hlen : DIRECT_HEAD ≤ reclenAt block endian off) :
      Walked block endian (off + reclenAt block endian off)
        (pre ++ [recordAt block endian off (reclenAt block endian off)])

/-- The walk of a block is what lies before a position followed by the walk from it. -/
theorem Walked.walkFrom_eq {off : ℕ} {pre : List DirEntry} (h : Walked block endian off pre) :
    walkFrom block endian 0 = pre ++ walkFrom block endian off := by
  induction h with
  | start => rfl
  | next _ hhead hlen ih =>
    rw [ih, walkFrom_of_record hhead hlen, List.append_assoc, List.singleton_append]

/-- Where the name of the record at `off` ends, by its own lengths. -/
def nameEndAt (block : Bytes) (endian : Endian) (off : ℕ) : ℕ :=
  off + OFF_NAME + min (namlenAt block off) (reclenAt block endian off - OFF_NAME)

theorem recordAt_name {off : ℕ} (hhead : off + DIRECT_HEAD ≤ block.len) :
    (recordAt block endian off (reclenAt block endian off)).name =
      (block.slice (off + OFF_NAME)
        (min (nameEndAt block endian off) block.len - (off + OFF_NAME))).toList := by
  have hlen := block.len_lt_u64Max
  unfold DIRECT_HEAD at hhead
  have hend : min (satAdd (off + OFF_NAME) (min (namlenAt block off)
      (reclenAt block endian off - OFF_NAME))) block.len =
        min (nameEndAt block endian off) block.len := by
    unfold satAdd nameEndAt
    omega
  change ((block.get (off + OFF_NAME) (min (satAdd (off + OFF_NAME) (min (namlenAt block off)
    (reclenAt block endian off - OFF_NAME))) block.len)).map Bytes.toList).getD [] = _
  rw [hend, Bytes.get_eq_some (by unfold nameEndAt OFF_NAME; omega) (min_le_right _ _)]
  rfl

theorem reclenAt_congr {off : ℕ} (hlen : block.len = block'.len)
    (hhead : off + DIRECT_HEAD ≤ block.len)
    (h : ∀ i, off + OFF_RECLEN ≤ i → i < off + OFF_TYPE → block.byte i = block'.byte i) :
    reclenAt block endian off = reclenAt block' endian off := by
  unfold DIRECT_HEAD at hhead
  unfold OFF_RECLEN OFF_TYPE at h
  unfold reclenAt OFF_RECLEN
  congr 1
  apply Endian.u16_congr
  intro i hi
  rw [Bytes.window_eq (by omega) hi, Bytes.window_eq (by omega) hi]
  exact h _ (by omega) (by omega)

theorem recordAt_ext {off off' reclen reclen' : ℕ}
    (hino : endian.u32 block (off + OFF_INO) = endian.u32 block' (off' + OFF_INO))
    (htype : u8At block (off + OFF_TYPE) = u8At block' (off' + OFF_TYPE))
    (hname : (recordAt block endian off reclen).name = (recordAt block' endian off' reclen').name) :
    recordAt block endian off reclen = recordAt block' endian off' reclen' := by
  unfold recordAt at hname ⊢
  dsimp only at hname ⊢
  rw [hname, hino, htype]

theorem recordAt_congr {off reclen reclen' : ℕ} (hlen : block.len = block'.len)
    (hhead : off + DIRECT_HEAD ≤ block.len)
    (htake : min (namlenAt block off) (reclen - OFF_NAME) =
      min (namlenAt block off) (reclen' - OFF_NAME))
    (h : ∀ i, off ≤ i → i < off + OFF_NAME + min (namlenAt block off) (reclen - OFF_NAME) →
      ¬ (off + OFF_RECLEN ≤ i ∧ i < off + OFF_TYPE) → block.byte i = block'.byte i) :
    recordAt block endian off reclen = recordAt block' endian off reclen' := by
  unfold DIRECT_HEAD at hhead
  unfold OFF_RECLEN OFF_TYPE at h
  have hino : endian.u32 block (off + OFF_INO) = endian.u32 block' (off + OFF_INO) := by
    unfold OFF_INO
    apply Endian.u32_congr
    intro i hi
    rw [Bytes.window_eq (by omega) hi, Bytes.window_eq (by omega) hi]
    exact h _ (by omega) (by unfold OFF_NAME; omega) (by omega)
  have htype : u8At block (off + OFF_TYPE) = u8At block' (off + OFF_TYPE) :=
    h _ (by omega) (by unfold OFF_NAME OFF_TYPE; omega) (by unfold OFF_TYPE; omega)
  have hnamlen : namlenAt block off = namlenAt block' off :=
    congrArg UInt8.toNat (h _ (by omega) (by unfold OFF_NAME OFF_NAMLEN; omega)
      (by unfold OFF_NAMLEN; omega))
  have hname : block.get (off + OFF_NAME) (min (satAdd (off + OFF_NAME)
        (min (namlenAt block off) (reclen - OFF_NAME))) block.len) =
      block'.get (off + OFF_NAME) (min (satAdd (off + OFF_NAME)
        (min (namlenAt block' off) (reclen' - OFF_NAME))) block'.len) := by
    rw [← hnamlen, ← htake, ← hlen]
    have hagree : Bytes.AgreeOn block block' {i | off + OFF_NAME ≤ i ∧
        i < off + OFF_NAME + min (namlenAt block off) (reclen - OFF_NAME)} :=
      ⟨hlen, fun i hi => h i (by have := hi.1; omega) hi.2
        (by have := hi.1; unfold OFF_NAME at this; omega)⟩
    apply hagree.get_eq
    intro i h1 h2
    have := satAdd_le (off + OFF_NAME) (min (namlenAt block off) (reclen - OFF_NAME))
    exact ⟨h1, by omega⟩
  exact recordAt_ext hino htype (congrArg (fun b => (b.map Bytes.toList).getD []) hname)

theorem Walked.congr {off : ℕ} {pre : List DirEntry} (h : Walked block endian off pre)
    (hlen : block.len = block'.len) (hbytes : ∀ i < off, block.byte i = block'.byte i) :
    Walked block' endian off pre := by
  induction h with
  | start => exact .start
  | @next off pre _ hhead hfit ih =>
    have hfit' := hfit
    unfold DIRECT_HEAD at hfit'
    have hreclen : reclenAt block endian off = reclenAt block' endian off :=
      reclenAt_congr hlen hhead fun i _ h2 => hbytes i (by unfold OFF_TYPE at h2; omega)
    have hrecord : recordAt block endian off (reclenAt block endian off) =
        recordAt block' endian off (reclenAt block endian off) :=
      recordAt_congr hlen hhead rfl fun i _ h2 _ => hbytes i (by unfold OFF_NAME at h2; omega)
    have hpre := ih fun i hi => hbytes i (by omega)
    rw [hrecord, hreclen]
    exact .next hpre (hlen ▸ hhead) (hreclen ▸ hfit)

theorem walkFrom_congr {off : ℕ} (hlen : block.len = block'.len)
    (hbytes : ∀ i, off ≤ i → block.byte i = block'.byte i) :
    walkFrom block endian off = walkFrom block' endian off := by
  have hreclen (off : ℕ) (hhead : off + DIRECT_HEAD ≤ block.len)
      (hbytes : ∀ i, off ≤ i → block.byte i = block'.byte i) :
      reclenAt block endian off = reclenAt block' endian off :=
    reclenAt_congr hlen hhead fun i h1 _ => hbytes i (by omega)
  induction off using walk_induction block endian with
  | past off hpast => rw [walkFrom_of_past hpast, walkFrom_of_past (hlen ▸ hpast)]
  | short off hhead hshort =>
    rw [walkFrom_of_short hshort, walkFrom_of_short (hreclen off hhead hbytes ▸ hshort)]
  | record off hhead hfit ih =>
    have hreclen := hreclen off hhead hbytes
    have hrecord : recordAt block endian off (reclenAt block endian off) =
        recordAt block' endian off (reclenAt block endian off) :=
      recordAt_congr hlen hhead rfl fun i h1 _ _ => hbytes i h1
    have hhead' : off + DIRECT_HEAD ≤ block'.len := hlen ▸ hhead
    have hfit' : DIRECT_HEAD ≤ reclenAt block' endian off := hreclen ▸ hfit
    rw [walkFrom_of_record hhead hfit, walkFrom_of_record hhead' hfit', hrecord, ← hreclen,
      ih fun i hi => hbytes i (by omega)]

end UfsForensic
