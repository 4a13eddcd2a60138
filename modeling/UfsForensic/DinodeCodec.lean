import Mathlib.Data.List.OfFn
import UfsForensic.SuperblockCodec

/-!
# The dinode format

What a dinode looks like on disk in each version: the stored fields at their offsets, in the image's
byte order. The decoder gives back the fields that were stored, whatever the bytes between them, and
nothing but the fields decides what it gives.
-/

namespace UfsForensic

open Bytes (HasRun Run)

namespace UfsVersion

def dbOff : UfsVersion → ℕ
  | ufs1 => U1_DB
  | ufs2 => U2_DB

def ibOff : UfsVersion → ℕ
  | ufs1 => U1_IB
  | ufs2 => U2_IB

def ptrRun (version : UfsVersion) (e : Endian) (off : ℕ) (x : UInt64) : Run :=
  match version with
  | .ufs1 => e.u32Run off x.toUInt32
  | .ufs2 => e.u64Run off x

def ptrRuns (version : UfsVersion) (e : Endian) (off : ℕ) {n : ℕ} (ptrs : Vector UInt64 n) :
    List Run :=
  List.ofFn fun i : Fin n => version.ptrRun e (off + i * version.ptrSize) ptrs[i]

/-- What a pointer field of this version holds. -/
def HoldsPtr (version : UfsVersion) (x : UInt64) : Prop := version = .ufs1 → x.toNat < 2 ^ 32

@[simp] theorem ptrRun_span (version : UfsVersion) (e : Endian) (off : ℕ) (x : UInt64) :
    (version.ptrRun e off x).span = (off, version.ptrSize) := by
  cases version
  · exact e.u32Run_span off _
  · exact e.u64Run_span off x

theorem ptrRuns_span (version : UfsVersion) (e : Endian) (off : ℕ) {n : ℕ} (ptrs : Vector UInt64 n) :
    (version.ptrRuns e off ptrs).map Run.span =
      List.ofFn fun i : Fin n => (off + i * version.ptrSize, version.ptrSize) := by
  rw [ptrRuns, List.map_ofFn]
  congr 1
  funext i
  exact ptrRun_span _ _ _ _

end UfsVersion

variable {data : Bytes} {e : Endian}

theorem toUInt64_eq_iff {x : UInt32} {y : UInt64} (hy : y.toNat < 2 ^ 32) :
    x = y.toUInt32 ↔ x.toUInt64 = y := by
  rw [← UInt32.toNat_inj, ← UInt64.toNat_inj, UInt32.toNat_toUInt64, UInt64.toNat_toUInt32,
    Nat.mod_eq_of_lt hy]

theorem toInt64_eq_iff {x : Int32} {y : Int64} (hy : -2 ^ 31 ≤ y.toInt ∧ y.toInt < 2 ^ 31) :
    x = y.toInt32 ↔ x.toInt64 = y := by
  constructor
  · rintro rfl
    exact Superblock.toInt64_toInt32 hy
  · rintro rfl
    exact (Int32.toInt32_toInt64 x).symm

theorem hasRun_ptrRun {version : UfsVersion} {off : ℕ} (hlen : off + version.ptrSize ≤ data.len)
    {x : UInt64} (hx : version.HoldsPtr x) :
    HasRun data (version.ptrRun e off x) ↔ version.readPtr e data off = x := by
  cases version with
  | ufs1 => exact (hasRun_u32Run hlen _).trans (toUInt64_eq_iff (hx rfl))
  | ufs2 => exact hasRun_u64Run hlen x

theorem hasRun_pointers_iff {version : UfsVersion} {off n : ℕ}
    (hlen : off + n * version.ptrSize ≤ data.len) {ptrs : Vector UInt64 n}
    (hptrs : ∀ i (hi : i < n), version.HoldsPtr ptrs[i]) :
    (∀ r ∈ version.ptrRuns e off ptrs, HasRun data r) ↔
      (Vector.ofFn fun i : Fin n => version.readPtr e data (off + i * version.ptrSize)) = ptrs := by
  have hslot (i : Fin n) : off + i * version.ptrSize + version.ptrSize ≤ data.len := by
    have := Nat.mul_le_mul_right version.ptrSize (Nat.succ_le_of_lt i.isLt)
    rw [Nat.succ_mul] at this
    omega
  rw [UfsVersion.ptrRuns, List.forall_mem_ofFn_iff]
  constructor
  · intro h
    apply Vector.ext
    intro i hi
    rw [Vector.getElem_ofFn]
    exact (hasRun_ptrRun (hslot ⟨i, hi⟩) (hptrs i hi)).mp (h ⟨i, hi⟩)
  · rintro h i
    refine (hasRun_ptrRun (hslot i) (hptrs i i.isLt)).mpr ?_
    rw [← h, Vector.getElem_ofFn]

/-- The fields that a dinode stores. -/
structure Dinode where
  mode : UInt16
  nlink : UInt16
  uid : UInt32
  gid : UInt32
  size : UInt64
  blocks : UInt64
  atime : Timespec
  mtime : Timespec
  ctime : Timespec
  birthtime : Option Timespec
  direct : Vector UInt64 12
  indirect : Vector UInt64 3
  deriving DecidableEq

namespace Dinode

/-- What the fields of a version can hold: on UFS1 block counts and pointers of 32 bits, times of 32
bits with their sign, and no birthtime; on UFS2 a birthtime. -/
structure InRange (d : Dinode) (version : UfsVersion) : Prop where
  blocks_ufs1 : version = .ufs1 → d.blocks.toNat < 2 ^ 32
  times_ufs1 : version = .ufs1 → ∀ t ∈ [d.atime, d.mtime, d.ctime],
    -2 ^ 31 ≤ t.sec.toInt ∧ t.sec.toInt < 2 ^ 31
  birthtime_isSome : d.birthtime.isSome = true ↔ version = .ufs2
  direct : ∀ i (hi : i < 12), version.HoldsPtr d.direct[i]
  indirect : ∀ i (hi : i < 3), version.HoldsPtr d.indirect[i]

/-- The stored fields that precede the pointers. -/
def scalarFields (d : Dinode) (version : UfsVersion) (e : Endian) : List Run :=
  match version with
  | .ufs1 =>
    [e.u16Run U1_MODE d.mode, e.u16Run U1_NLINK d.nlink, e.u32Run U1_UID d.uid,
      e.u32Run U1_GID d.gid, e.u64Run U1_SIZE d.size, e.u32Run U1_BLOCKS d.blocks.toUInt32,
      e.i32Run U1_ATIME d.atime.sec.toInt32, e.i32Run U1_ATIMENSEC d.atime.nsec,
      e.i32Run U1_MTIME d.mtime.sec.toInt32, e.i32Run U1_MTIMENSEC d.mtime.nsec,
      e.i32Run U1_CTIME d.ctime.sec.toInt32, e.i32Run U1_CTIMENSEC d.ctime.nsec]
  | .ufs2 =>
    let birthtime := d.birthtime.getD ⟨0, 0⟩
    [e.u16Run U2_MODE d.mode, e.u16Run U2_NLINK d.nlink, e.u32Run U2_UID d.uid,
      e.u32Run U2_GID d.gid, e.u64Run U2_SIZE d.size, e.u64Run U2_BLOCKS d.blocks,
      e.i64Run U2_ATIME d.atime.sec, e.i32Run U2_ATIMENSEC d.atime.nsec,
      e.i64Run U2_MTIME d.mtime.sec, e.i32Run U2_MTIMENSEC d.mtime.nsec,
      e.i64Run U2_CTIME d.ctime.sec, e.i32Run U2_CTIMENSEC d.ctime.nsec,
      e.i64Run U2_BIRTHTIME birthtime.sec, e.i32Run U2_BIRTHNSEC birthtime.nsec]

/-- Every stored field at its offset. -/
def fields (d : Dinode) (version : UfsVersion) (e : Endian) : List Run :=
  d.scalarFields version e ++
    (version.ptrRuns e version.dbOff d.direct ++ version.ptrRuns e version.ibOff d.indirect)

/-- `data` with the fields of `d` written over it. -/
def encode (d : Dinode) (version : UfsVersion) (e : Endian) (data : Bytes) : Bytes :=
  data.writeAll (d.fields version e)

/-- The stored fields of a dinode of known version and byte order. -/
def decode (data : Bytes) (version : UfsVersion) (e : Endian) : Dinode :=
  let pointers (off n : ℕ) : Vector UInt64 n :=
    Vector.ofFn fun i : Fin n => version.readPtr e data (off + i * version.ptrSize)
  match version with
  | .ufs1 => {
      mode := e.u16 data U1_MODE
      nlink := e.u16 data U1_NLINK
      uid := e.u32 data U1_UID
      gid := e.u32 data U1_GID
      size := e.u64 data U1_SIZE
      blocks := (e.u32 data U1_BLOCKS).toUInt64
      atime := ⟨(e.i32 data U1_ATIME).toInt64, e.i32 data U1_ATIMENSEC⟩
      mtime := ⟨(e.i32 data U1_MTIME).toInt64, e.i32 data U1_MTIMENSEC⟩
      ctime := ⟨(e.i32 data U1_CTIME).toInt64, e.i32 data U1_CTIMENSEC⟩
      birthtime := none
      direct := pointers U1_DB 12
      indirect := pointers U1_IB 3 }
  | .ufs2 => {
      mode := e.u16 data U2_MODE
      nlink := e.u16 data U2_NLINK
      uid := e.u32 data U2_UID
      gid := e.u32 data U2_GID
      size := e.u64 data U2_SIZE
      blocks := e.u64 data U2_BLOCKS
      atime := ⟨e.i64 data U2_ATIME, e.i32 data U2_ATIMENSEC⟩
      mtime := ⟨e.i64 data U2_MTIME, e.i32 data U2_MTIMENSEC⟩
      ctime := ⟨e.i64 data U2_CTIME, e.i32 data U2_CTIMENSEC⟩
      birthtime := some ⟨e.i64 data U2_BIRTHTIME, e.i32 data U2_BIRTHNSEC⟩
      direct := pointers U2_DB 12
      indirect := pointers U2_IB 3 }

/-- The inode with the stored fields `d` and the given inline target. -/
def toInode (d : Dinode) (version : UfsVersion) (link : Option Bytes) : Inode where
  version := version
  mode := d.mode
  fileType := .fromMode d.mode
  nlink := d.nlink
  uid := d.uid
  gid := d.gid
  size := d.size
  blocks := d.blocks
  atime := d.atime
  mtime := d.mtime
  ctime := d.ctime
  birthtime := d.birthtime
  direct := d.direct
  indirect := d.indirect
  fastSymlink := link

/-- The inline target that the decoder finds next to the stored fields. -/
def linkOf (data : Bytes) (version : UfsVersion) (e : Endian) (max : Int32) : Option Bytes :=
  Inode.inlineTarget data version max (.fromMode (decode data version e).mode)
    (decode data version e).size version.dbOff

/-- The decoder gives the stored fields of every buffer that holds a dinode. -/
theorem parse_eq_decode (data : Bytes) (version : UfsVersion) (e : Endian) (max : Int32) :
    Inode.parseWithMaxsymlink data version e max =
      if data.len < version.dinodeSize then
        .error (.truncated "dinode" version.dinodeSize data.len)
      else .ok ((decode data version e).toInode version (linkOf data version e max)) := by
  cases version <;> rfl

theorem area_inside (version : UfsVersion) :
    version.dbOff + (UFS_NDADDR + UFS_NIADDR) * version.ptrSize ≤ version.dinodeSize := by
  cases version <;> decide

theorem linkOf_eq_some_iff {version : UfsVersion} {max : Int32} {t : Bytes}
    (hlen : version.dinodeSize ≤ data.len) :
    linkOf data version e max = some t ↔
      FileType.fromMode (decode data version e).mode = .symlink ∧ 0 < max.toInt ∧
        (decode data version e).size.toNat ≤ max.toInt ∧
        t = data.slice version.dbOff (min (decode data version e).size.toNat
          ((UFS_NDADDR + UFS_NIADDR) * version.ptrSize)) := by
  have harea := area_inside version
  unfold linkOf Inode.inlineTarget
  dsimp only
  by_cases hinline : FileType.fromMode (decode data version e).mode = .symlink ∧
      0 < max.toInt ∧ (decode data version e).size.toNat ≤ i32AsU64 max
  · obtain ⟨hlink, hpos, hsize⟩ := hinline
    rw [if_pos ⟨hlink, hpos, hsize⟩, Bytes.get_eq_some (by omega) (by omega),
      Nat.add_sub_cancel_left, Option.some.injEq]
    rw [i32AsU64_of_nonneg hpos.le] at hsize
    constructor
    · rintro rfl
      exact ⟨hlink, hpos, by omega, rfl⟩
    · rintro ⟨-, -, -, rfl⟩
      rfl
  · rw [if_neg hinline]
    refine iff_of_false (by simp) ?_
    rintro ⟨hlink, hpos, hsize, -⟩
    exact hinline ⟨hlink, hpos, by rw [i32AsU64_of_nonneg hpos.le]; omega⟩

def spans (version : UfsVersion) : List (ℕ × ℕ) :=
  (match version with
  | .ufs1 => [(U1_MODE, 2), (U1_NLINK, 2), (U1_UID, 4), (U1_GID, 4), (U1_SIZE, 8), (U1_BLOCKS, 4),
      (U1_ATIME, 4), (U1_ATIMENSEC, 4), (U1_MTIME, 4), (U1_MTIMENSEC, 4), (U1_CTIME, 4),
      (U1_CTIMENSEC, 4)]
  | .ufs2 => [(U2_MODE, 2), (U2_NLINK, 2), (U2_UID, 4), (U2_GID, 4), (U2_SIZE, 8), (U2_BLOCKS, 8),
      (U2_ATIME, 8), (U2_ATIMENSEC, 4), (U2_MTIME, 8), (U2_MTIMENSEC, 4), (U2_CTIME, 8),
      (U2_CTIMENSEC, 4), (U2_BIRTHTIME, 8), (U2_BIRTHNSEC, 4)]) ++
    ((List.ofFn fun i : Fin 12 => (version.dbOff + i * version.ptrSize, version.ptrSize)) ++
      List.ofFn fun i : Fin 3 => (version.ibOff + i * version.ptrSize, version.ptrSize))

theorem fields_span (d : Dinode) (version : UfsVersion) (e : Endian) :
    (d.fields version e).map Run.span = spans version := by
  unfold fields spans
  rw [List.map_append, List.map_append, UfsVersion.ptrRuns_span, UfsVersion.ptrRuns_span]
  congr 1
  cases version <;>
    simp only [scalarFields, List.map_cons, List.map_nil, Endian.u16Run_span, Endian.u32Run_span,
      Endian.u64Run_span, Endian.i32Run_span, Endian.i64Run_span]

theorem fields_apart (d : Dinode) (version : UfsVersion) (e : Endian) :
    (d.fields version e).Pairwise Run.Apart := by
  rw [Bytes.pairwise_apart_iff, fields_span]
  cases version <;> decide

theorem spans_inside (version : UfsVersion) :
    ∀ s ∈ spans version, s.1 + s.2 ≤ version.dinodeSize := by
  cases version <;> decide

theorem fields_inside {d : Dinode} {version : UfsVersion} {r : Run}
    (hr : r ∈ d.fields version e) : r.1 + r.2.length ≤ version.dinodeSize := by
  apply spans_inside version r.span
  rw [← fields_span d version e]
  exact List.mem_map_of_mem hr

theorem decode_inRange (data : Bytes) (version : UfsVersion) (e : Endian) :
    (decode data version e).InRange version := by
  have hptr (off i : ℕ) : version.HoldsPtr (version.readPtr e data (off + i)) := by
    rintro rfl
    change (e.u32 data _).toUInt64.toNat < _
    rw [UInt32.toNat_toUInt64]
    exact UInt32.toNat_lt _
  have hfit (x : Int32) : -2 ^ 31 ≤ x.toInt64.toInt ∧ x.toInt64.toInt < 2 ^ 31 := by
    rw [Int32.toInt_toInt64]
    exact ⟨x.le_toInt, x.toInt_lt⟩
  cases version with
  | ufs1 =>
    refine ⟨fun _ => ?_, fun _ t ht => ?_, by simp [decode], fun i hi => ?_, fun i hi => ?_⟩
    · change (e.u32 data _).toUInt64.toNat < _
      rw [UInt32.toNat_toUInt64]
      exact UInt32.toNat_lt _
    · simp only [decode, List.mem_cons, List.not_mem_nil, or_false] at ht
      obtain rfl | rfl | rfl := ht
      · exact hfit _
      · exact hfit _
      · exact hfit _
    · simp only [decode, Vector.getElem_ofFn]
      exact hptr _ _
    · simp only [decode, Vector.getElem_ofFn]
      exact hptr _ _
  | ufs2 =>
    have hne : UfsVersion.ufs2 ≠ .ufs1 := by decide
    exact ⟨(absurd · hne), (absurd · hne), by simp [decode], fun _ _ => (absurd · hne),
      fun _ _ => (absurd · hne)⟩

/-- A buffer holds the fields of `d` exactly when it decodes to `d`. -/
theorem hasRun_fields_iff {d : Dinode} {version : UfsVersion}
    (hlen : version.dinodeSize ≤ data.len) (hd : d.InRange version) :
    (∀ r ∈ d.fields version e, HasRun data r) ↔ decode data version e = d := by
  have u16 (off : ℕ) (x : UInt16) (hoff : off + 2 ≤ version.dinodeSize) :
      HasRun data (e.u16Run off x) ↔ e.u16 data off = x := hasRun_u16Run (by omega) x
  have u32 (off : ℕ) (x : UInt32) (hoff : off + 4 ≤ version.dinodeSize) :
      HasRun data (e.u32Run off x) ↔ e.u32 data off = x := hasRun_u32Run (by omega) x
  have u64 (off : ℕ) (x : UInt64) (hoff : off + 8 ≤ version.dinodeSize) :
      HasRun data (e.u64Run off x) ↔ e.u64 data off = x := hasRun_u64Run (by omega) x
  have i32 (off : ℕ) (x : Int32) (hoff : off + 4 ≤ version.dinodeSize) :
      HasRun data (e.i32Run off x) ↔ e.i32 data off = x := hasRun_i32Run (by omega) x
  have i64 (off : ℕ) (x : Int64) (hoff : off + 8 ≤ version.dinodeSize) :
      HasRun data (e.i64Run off x) ↔ e.i64 data off = x := hasRun_i64Run (by omega) x
  have hdbLen : version.dbOff + 12 * version.ptrSize ≤ data.len :=
    le_trans (by cases version <;> decide) hlen
  have hibLen : version.ibOff + 3 * version.ptrSize ≤ data.len :=
    le_trans (by cases version <;> decide) hlen
  have hdirect := hasRun_pointers_iff (e := e) hdbLen hd.direct
  have hindirect := hasRun_pointers_iff (e := e) hibLen hd.indirect
  have hblocks := hd.blocks_ufs1
  have htimes := hd.times_ufs1
  have hbirth := hd.birthtime_isSome
  unfold fields
  rw [List.forall_mem_append, List.forall_mem_append, hdirect, hindirect]
  obtain ⟨mode, nlink, uid, gid, size, blocks, ⟨atime, ansec⟩, ⟨mtime, mnsec⟩, ⟨ctime, cnsec⟩,
    birthtime, direct, indirect⟩ := d
  cases version with
  | ufs1 =>
    have ht := htimes rfl
    simp only [List.forall_mem_cons, List.not_mem_nil, false_imp_iff, implies_true,
      and_true] at ht
    obtain rfl : birthtime = none := by simpa using hbirth
    unfold scalarFields decode
    simp (disch := decide) only [List.forall_mem_cons, List.not_mem_nil, false_imp_iff,
      implies_true, and_true, u16, u32, u64, i32, Dinode.mk.injEq, Timespec.mk.injEq, true_and,
      toUInt64_eq_iff (hblocks rfl), toInt64_eq_iff ht.1, toInt64_eq_iff ht.2.1,
      toInt64_eq_iff ht.2.2, UfsVersion.dbOff, UfsVersion.ibOff, and_assoc]
  | ufs2 =>
    obtain ⟨⟨birth, bnsec⟩, rfl⟩ := Option.isSome_iff_exists.mp (hbirth.mpr rfl)
    unfold scalarFields decode
    simp (disch := decide) only [List.forall_mem_cons, List.not_mem_nil, false_imp_iff,
      implies_true, and_true, u16, u32, u64, i32, i64, Option.getD_some, Dinode.mk.injEq,
      Timespec.mk.injEq, Option.some.injEq, UfsVersion.dbOff, UfsVersion.ibOff, and_assoc]

def Agree (version : UfsVersion) (a b : Bytes) : Prop :=
  ∀ s ∈ spans version, ∀ i, s.1 ≤ i → i < s.1 + s.2 → a.byte i = b.byte i

section Agree

variable {version : UfsVersion} {a b : Bytes} (ha : version.dinodeSize ≤ a.len)
  (hb : version.dinodeSize ≤ b.len) (h : Agree version a b)
include ha hb h

theorem decode_congr (e : Endian) : decode a version e = decode b version e := by
  have hrange := decode_inRange a version e
  have hruns := (hasRun_fields_iff ha hrange).mpr rfl
  refine ((hasRun_fields_iff hb hrange).mp fun r hr i hi => ?_).symm
  have hspan : r.span ∈ spans version := by
    rw [← fields_span (decode a version e) version e]
    exact List.mem_map_of_mem hr
  rw [← hruns r hr i hi]
  exact (h _ hspan _ (Nat.le_add_right _ _) (Nat.add_lt_add_left hi _)).symm

theorem area_congr {i : ℕ} (hi : i < (UFS_NDADDR + UFS_NIADDR) * version.ptrSize) :
    a.byte (version.dbOff + i) = b.byte (version.dbOff + i) := by
  have hpos := version.ptrSize_pos
  have hdm := Nat.div_add_mod i version.ptrSize
  rw [Nat.mul_comm] at hdm
  have hmod := Nat.mod_lt i hpos
  have hk : i / version.ptrSize < 12 + 3 := Nat.div_lt_of_lt_mul (by rwa [Nat.mul_comm])
  have hib : version.ibOff = version.dbOff + 12 * version.ptrSize := by cases version <;> rfl
  rcases Nat.lt_or_ge (i / version.ptrSize) 12 with hd | hd
  · refine h (version.dbOff + i / version.ptrSize * version.ptrSize, version.ptrSize) ?_ _
      (by omega) (by omega)
    refine List.mem_append_right _ (List.mem_append_left _ ?_)
    exact List.mem_ofFn.mpr ⟨⟨_, hd⟩, rfl⟩
  · have hsplit : i / version.ptrSize * version.ptrSize =
        12 * version.ptrSize + (i / version.ptrSize - 12) * version.ptrSize := by
      rw [← Nat.add_mul, Nat.add_sub_cancel' hd]
    refine h (version.ibOff + (i / version.ptrSize - 12) * version.ptrSize, version.ptrSize) ?_ _
      (by omega) (by omega)
    refine List.mem_append_right _ (List.mem_append_right _ ?_)
    exact List.mem_ofFn.mpr ⟨⟨_, by omega⟩, rfl⟩

theorem linkOf_congr (e : Endian) (max : Int32) : linkOf a version e max = linkOf b version e max := by
  unfold linkOf Inode.inlineTarget
  rw [decode_congr ha hb h]
  dsimp only
  split_ifs
  · generalize hn : min (decode b version e).size.toNat
      ((UFS_NDADDR + UFS_NIADDR) * version.ptrSize) = n
    have harea := area_inside version
    rw [Bytes.get_eq_some (by omega) (by omega), Bytes.get_eq_some (by omega) (by omega)]
    congr 1
    refine Bytes.ext_of_lt (by rw [Bytes.slice_len, Bytes.slice_len]; omega) fun i hi => ?_
    rw [Bytes.slice_len] at hi
    rw [Bytes.slice_byte_of_lt (by omega), Bytes.slice_byte_of_lt (by omega)]
    exact area_congr ha hb h (by omega)
  · rfl

end Agree

/-- The dinode format: stored fields in range, written over any buffer long enough, are decoded
again whatever the symlink threshold, and the inode is decoded from the stored fields alone. -/
theorem parseWithMaxsymlink_encode :
    (∀ (version : UfsVersion) (e : Endian) (d : Dinode) (data : Bytes) (max : Int32),
      version.dinodeSize ≤ data.len → d.InRange version →
        Inode.parseWithMaxsymlink (d.encode version e data) version e max =
          .ok (d.toInode version (linkOf (d.encode version e data) version e max))) ∧
    (∀ (version : UfsVersion) (e : Endian) (max : Int32) (a b : Bytes),
      version.dinodeSize ≤ a.len → version.dinodeSize ≤ b.len → Agree version a b →
        Inode.parseWithMaxsymlink a version e max = Inode.parseWithMaxsymlink b version e max) := by
  constructor
  · intro version e d data max hlen hd
    have hlen' : version.dinodeSize ≤ (d.encode version e data).len := by
      rwa [encode, Bytes.writeAll_len]
    have hruns : ∀ r ∈ d.fields version e, HasRun (d.encode version e data) r := fun r hr =>
      Bytes.writeAll_hasRun (d.fields_apart version e) hr ((fields_inside hr).trans hlen)
    rw [parse_eq_decode, if_neg (by omega), (hasRun_fields_iff hlen' hd).mp hruns]
  · intro version e max a b ha hb h
    rw [parse_eq_decode, parse_eq_decode, if_neg (by omega), if_neg (by omega),
      decode_congr ha hb h, linkOf_congr ha hb h]

end Dinode

namespace Crafted

def oldFile : Dinode where
  mode := 0o100644
  nlink := 1
  uid := 1001
  gid := 1001
  size := 700
  blocks := 2
  atime := ⟨-1, 5⟩
  mtime := ⟨-2, 6⟩
  ctime := ⟨-3, 7⟩
  birthtime := none
  direct := Vector.ofFn fun i => if i.val = 0 then 24 else 0
  indirect := Vector.ofFn fun _ => 0

theorem oldFile_inRange : oldFile.InRange .ufs1 where
  blocks_ufs1 _ := by decide
  times_ufs1 _ := by decide
  birthtime_isSome := by decide
  direct i hi _ := by
    have hall : ∀ i : Fin 12, (oldFile.direct.get i).toNat < 2 ^ 32 := by decide
    exact hall ⟨i, hi⟩
  indirect i hi _ := by
    have hall : ∀ i : Fin 3, (oldFile.indirect.get i).toNat < 2 ^ 32 := by decide
    exact hall ⟨i, hi⟩

def scratch : Bytes := Bytes.tabulate 200 (by decide) fun _ => 0x5a

end Crafted

/-- Written over other bytes in big-endian order, and cut to the dinode. -/
theorem parseWithMaxsymlink_encode_oldFile :
    Inode.parseWithMaxsymlink (Crafted.oldFile.encode .ufs1 .big Crafted.scratch) .ufs1 .big 60 =
        .ok (Crafted.oldFile.toInode .ufs1
          (Dinode.linkOf (Crafted.oldFile.encode .ufs1 .big Crafted.scratch) .ufs1 .big 60)) ∧
      Inode.parseWithMaxsymlink Crafted.scratch .ufs1 .big 60 =
        Inode.parseWithMaxsymlink (Crafted.scratch.take 128) .ufs1 .big 60 := by
  obtain ⟨hencode, hagree⟩ := Dinode.parseWithMaxsymlink_encode
  refine ⟨hencode _ _ _ _ _ (by decide) Crafted.oldFile_inRange,
    hagree _ _ _ _ _ (by decide) (by decide) fun s hs i _ hi => ?_⟩
  have hin := Dinode.spans_inside .ufs1 s hs
  change s.1 + s.2 ≤ 128 at hin
  rw [Bytes.take, Bytes.slice_byte_of_lt (by omega), Nat.zero_add]

end UfsForensic
