import UfsForensic.DirWalk
import UfsForensic.FieldCodec

/-!
# Directory records

What a directory record looks like on disk: the head, the name, and padding up to `d_reclen`. Records
laid out one after the other are decoded again, in order, up to what ends the walk.
-/

namespace UfsForensic

open Bytes (HasRun)
open Crafted (int)

/-- A record: what its head stores, its name, and the bytes that pad it to its `d_reclen`. -/
structure DirRecord where
  ino : UInt32
  dType : UInt8
  name : List UInt8
  padding : List UInt8
  name_le : name.length ≤ 255
  reclen_le : DIRECT_HEAD + name.length + padding.length ≤ 65535

namespace DirRecord

def reclen (r : DirRecord) : ℕ := DIRECT_HEAD + r.name.length + r.padding.length

def encode (e : Endian) (r : DirRecord) : List UInt8 :=
  int e 4 r.ino.toNat ++ (int e 2 r.reclen ++
    ([r.dType, UInt8.ofNat r.name.length] ++ (r.name ++ r.padding)))

/-- The entry that a record stands for. -/
def entry (r : DirRecord) : DirEntry where
  name := r.name
  ino := r.ino.toNat
  fileType := .fromDType r.dType
  deleted := r.ino = 0

@[simp] theorem encode_length (e : Endian) (r : DirRecord) : (r.encode e).length = r.reclen := by
  simp only [encode, reclen, List.length_append, int_length, List.length_cons, List.length_nil,
    DIRECT_HEAD]
  omega

end DirRecord

def headReclen (e : Endian) (tail : List UInt8) : ℕ :=
  e.nat (fun i => tail.getD (OFF_RECLEN + i) 0) 2

/-- The walk ends at `tail`: it is too short for a head, or its head has a `d_reclen` below 8. -/
def EndsWalk (e : Endian) (tail : List UInt8) : Prop :=
  tail.length < DIRECT_HEAD ∨ headReclen e tail < DIRECT_HEAD

variable {block : Bytes} {e : Endian}

theorem reclenAt_eq (block : Bytes) (e : Endian) (off : ℕ) :
    reclenAt block e off = e.nat (block.window (off + OFF_RECLEN) 2) 2 := by
  rw [reclenAt, u16_eq, UInt16.toNat_ofNat_of_lt' (nat_lt e _ 2)]

theorem record_at {off : ℕ} {r : DirRecord} (h : HasRun block (off, r.encode e))
    (hlen : off + r.reclen ≤ block.len) :
    reclenAt block e off = r.reclen ∧ recordAt block e off r.reclen = r.entry := by
  have hle := r.reclen_le
  have hname_le := r.name_le
  have hreclen_le : DIRECT_HEAD + r.name.length ≤ r.reclen := Nat.le_add_right _ _
  unfold DirRecord.encode at h
  rw [Bytes.hasRun_append_iff, Bytes.hasRun_append_iff, Bytes.hasRun_append_iff,
    Bytes.hasRun_append_iff] at h
  simp only [int_length, List.length_cons, List.length_nil] at h
  obtain ⟨hino, hreclen, htype, hname, -⟩ := h
  have hhead : off + DIRECT_HEAD ≤ block.len := by omega
  unfold DIRECT_HEAD at hhead hle hreclen_le
  have hr : reclenAt block e off = r.reclen := by
    rw [reclenAt_eq]
    exact (hasRun_int_iff (by unfold OFF_RECLEN; omega)
      (by unfold DirRecord.reclen DIRECT_HEAD; omega)).mp hreclen
  have hdtype : block.byte (off + OFF_TYPE) = r.dType := htype 0 Nat.zero_lt_two
  have hnamlen : namlenAt block off = r.name.length := by
    have hbyte : block.byte (off + OFF_NAMLEN) = UInt8.ofNat r.name.length :=
      htype 1 Nat.one_lt_two
    rw [namlenAt, u8At, hbyte]
    exact UInt8.toNat_ofNat_of_lt' (show r.name.length < 256 by omega)
  have hend : min (nameEndAt block e off) block.len - (off + OFF_NAME) = r.name.length := by
    unfold nameEndAt OFF_NAME
    rw [hnamlen, hr]
    omega
  have hnames : (recordAt block e off r.reclen).name = r.name := by
    rw [← hr, recordAt_name hhead, hend]
    exact Bytes.toList_slice_of_hasRun hname (by unfold OFF_NAME; omega)
  have hinos : e.u32 block (off + OFF_INO) = r.ino :=
    (hasRun_u32Run (by unfold OFF_INO; omega) r.ino).mp hino
  refine ⟨hr, ?_⟩
  unfold recordAt at hnames ⊢
  dsimp only at hnames ⊢
  rw [hnames, hinos, u8At, hdtype]
  unfold DirRecord.entry
  congr 1
  exact decide_eq_decide.mpr (UInt32.toNat_inj (b := 0))

/-- From the end of `pre` on, the walk decodes the records that stand there. -/
theorem walkFrom_records (records : List DirRecord) {pre tail : List UInt8}
    (h : block.toList = pre ++ (records.flatMap (DirRecord.encode e) ++ tail))
    (htail : EndsWalk e tail) : walkFrom block e pre.length = records.map DirRecord.entry := by
  induction records generalizing pre with
  | nil =>
    rw [List.flatMap_nil, List.nil_append] at h
    have hlen : block.len = pre.length + tail.length := by
      rw [← Bytes.toList_length, h, List.length_append]
    rcases Nat.lt_or_ge tail.length DIRECT_HEAD with hshort | hhead
    · exact walkFrom_of_past (by omega)
    · have hrun : block.HasRun (pre.length, tail) := by
        rw [← List.append_nil tail] at h
        exact Bytes.hasRun_of_toList h
      have hreclen : reclenAt block e pre.length = headReclen e tail := by
        rw [reclenAt_eq]
        unfold DIRECT_HEAD at hhead
        refine nat_congr e fun i hi => ?_
        have hin : OFF_RECLEN + i < tail.length := by
          unfold OFF_RECLEN
          omega
        rw [Bytes.window_eq (by unfold OFF_RECLEN; omega) hi, List.getD_eq_getElem _ _ hin,
          Nat.add_assoc]
        exact hrun _ hin
      apply walkFrom_of_short
      rw [hreclen]
      exact htail.resolve_left (Nat.not_lt.mpr hhead)
  | cons r records ih =>
    rw [List.flatMap_cons, List.append_assoc] at h
    have hrun := Bytes.hasRun_of_toList h
    have hlen : pre.length + r.reclen ≤ block.len := by
      rw [← Bytes.toList_length, h, List.length_append, List.length_append, DirRecord.encode_length]
      omega
    have hhead : DIRECT_HEAD ≤ r.reclen := (Nat.le_add_right _ _).trans (Nat.le_add_right _ _)
    obtain ⟨hreclen, hrecord⟩ := record_at hrun hlen
    have hnext : walkFrom block e (pre ++ r.encode e).length = records.map DirRecord.entry :=
      ih (by rw [h, List.append_assoc])
    rw [List.length_append, DirRecord.encode_length] at hnext
    rw [walkFrom_of_record (by omega) (by omega), hreclen, hrecord, hnext, List.map_cons]

/-- Decoding a directory block undoes laying out its records, whatever pads them: the walk yields
their entries in order and stops at what follows, and so it does for blocks that records tile. -/
theorem walkBlock_encode :
    (∀ (e : Endian) (records : List DirRecord) (tail : List UInt8) (block : Bytes)
      (out : List DirEntry), EndsWalk e tail →
        block.toList = records.flatMap (DirRecord.encode e) ++ tail →
          walkBlock block e out = out ++ records.map DirRecord.entry) ∧
    (∀ (e : Endian) (dirblks : List (List DirRecord)) (block : Bytes) (out : List DirEntry),
      (∀ records ∈ dirblks, (records.flatMap (DirRecord.encode e)).length = DIRBLKSIZ) →
        block.toList = dirblks.flatMap (fun records => records.flatMap (DirRecord.encode e)) →
          walkBlock block e out =
            out ++ dirblks.flatMap fun records => records.map DirRecord.entry) := by
  have hwalk (e : Endian) (records : List DirRecord) (tail : List UInt8) (block : Bytes)
      (out : List DirEntry) (htail : EndsWalk e tail)
      (h : block.toList = records.flatMap (DirRecord.encode e) ++ tail) :
      walkBlock block e out = out ++ records.map DirRecord.entry := by
    rw [walkBlock]
    congr 1
    have hpre : block.toList = [] ++ (records.flatMap (DirRecord.encode e) ++ tail) := h
    exact walkFrom_records records hpre htail
  refine ⟨hwalk, fun e dirblks block out _ h => ?_⟩
  have hflat : block.toList = (dirblks.flatMap id).flatMap (DirRecord.encode e) ++ [] := by
    rw [h, List.append_nil, List.flatMap_assoc]
    rfl
  rw [hwalk e _ _ block out (Or.inl (by decide)) hflat, List.map_flatMap]
  rfl

namespace Crafted

/-- A file `a` with padding of other bytes, and a deleted slot `b`. -/
def records : List DirRecord :=
  [⟨3, 8, [97], [1, 2, 3], by decide, by decide⟩, ⟨0, 8, [98], List.replicate 7 255, by decide,
    by decide⟩]

/-- The two records in big-endian order, with four bytes after them. -/
def recordsBlock : Bytes :=
  Bytes.ofList (records.flatMap (DirRecord.encode .big) ++ [0, 0, 0, 9]) (by decide)

theorem fullRecord_le : DIRECT_HEAD + ([46] : List UInt8).length +
    (List.replicate 503 (7 : UInt8)).length ≤ 65535 := by
  rw [List.length_replicate]
  decide

def fullRecord : DirRecord := ⟨4, 4, [46], List.replicate 503 7, by decide, fullRecord_le⟩

theorem fullRecord_length : (fullRecord.encode .little).length = DIRBLKSIZ := by
  rw [DirRecord.encode_length, DirRecord.reclen, fullRecord, List.length_replicate]
  rfl

def fullBlock : Bytes :=
  Bytes.ofList (fullRecord.encode .little) (fullRecord_length.trans_lt (by decide))

end Crafted

theorem walkBlock_encode_records :
    walkBlock Crafted.recordsBlock .big [] = Crafted.records.map DirRecord.entry ∧
      walkBlock Crafted.fullBlock .little [] = [Crafted.fullRecord.entry] := by
  obtain ⟨hwalk, htiled⟩ := walkBlock_encode
  constructor
  · exact hwalk .big Crafted.records [0, 0, 0, 9] _ [] (Or.inl (by decide))
      (Bytes.toList_ofList _ _)
  · have hblock : Crafted.fullBlock.toList = [[Crafted.fullRecord]].flatMap
        fun records => records.flatMap (DirRecord.encode .little) := by
      rw [List.flatMap_singleton, List.flatMap_singleton]
      exact Bytes.toList_ofList _ _
    refine htiled .little [[Crafted.fullRecord]] _ [] (fun records hr => ?_) hblock
    rw [List.mem_singleton.mp hr, List.flatMap_singleton, Crafted.fullRecord_length]

end UfsForensic
