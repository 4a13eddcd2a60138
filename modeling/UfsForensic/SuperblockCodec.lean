import UfsForensic.FieldCodec

/-!
# The superblock format

What a superblock looks like on disk: each field at its offset, in the image's byte order, with the
magic of its version. The parser accepts exactly the encodings of the superblocks in range, whatever
the bytes between the fields.
-/

namespace UfsForensic

open Bytes (HasRun Run)
open Crafted (int)

def UfsVersion.magic : UfsVersion → UInt32
  | .ufs1 => FS_UFS1_MAGIC
  | .ufs2 => FS_UFS2_MAGIC

def magicOf (version : UfsVersion) (endian : Endian) : Vector UInt8 4 :=
  Vector.ofFn fun i : Fin 4 => (int endian 4 version.magic.toNat).getD i 0

theorem magicOf_mem_ufsMagics (version : UfsVersion) (endian : Endian) :
    magicOf version endian ∈ Superblock.ufsMagics := by
  cases version <;> cases endian <;> decide

namespace Superblock

/-- The magic decides version and byte order, and nothing else is detected as that version. -/
theorem detect_eq_some_iff {bytes : Vector UInt8 4} {v : UfsVersion} {e : Endian} :
    detect (fromLeBytes bytes) (fromBeBytes bytes) = some (v, e) ↔ bytes = magicOf v e := by
  constructor
  · intro h
    have h1 : FS_UFS1_MAGIC = fromLeBytes (magicOf .ufs1 .little) := by decide
    have h2 : FS_UFS2_MAGIC = fromLeBytes (magicOf .ufs2 .little) := by decide
    have h3 : FS_UFS1_MAGIC = fromBeBytes (magicOf .ufs1 .big) := by decide
    have h4 : FS_UFS2_MAGIC = fromBeBytes (magicOf .ufs2 .big) := by decide
    unfold detect at h
    split_ifs at h with hm hm hm hm <;> obtain ⟨rfl, rfl⟩ := Prod.mk.inj (Option.some.inj h)
    · exact fromLeBytes_injective (hm.trans h1)
    · exact fromLeBytes_injective (hm.trans h2)
    · exact fromBeBytes_injective (hm.trans h3)
    · exact fromBeBytes_injective (hm.trans h4)
  · rintro rfl
    cases v <;> cases e <;> decide

/-- Every field of `sb` at its offset, and the magic. -/
def fields (sb : Superblock) : List Run :=
  let e := sb.endian
  [e.i32Run OFF_SBLKNO sb.sblkno, e.i32Run OFF_CBLKNO sb.cblkno, e.i32Run OFF_IBLKNO sb.iblkno,
    e.i32Run OFF_DBLKNO sb.dblkno, e.u32Run OFF_NCG sb.ncg, e.i32Run OFF_BSIZE sb.bsize,
    e.i32Run OFF_FSIZE sb.fsize, e.i32Run OFF_FRAG sb.frag, e.i32Run OFF_BSHIFT sb.bshift,
    e.i32Run OFF_FSHIFT sb.fshift, e.i32Run OFF_FRAGSHIFT sb.fragshift,
    e.i32Run OFF_FSBTODB sb.fsbtodb, e.i32Run OFF_SBSIZE sb.sbsize,
    e.i32Run OFF_NINDIR sb.nindir, e.u32Run OFF_INOPB sb.inopb, e.i32Run OFF_IPG sb.ipg,
    e.i32Run OFF_FPG sb.fpg, e.i64Run OFF_CSADDR sb.csaddr,
    e.i32Run OFF_MAXSYMLINKLEN sb.maxsymlinklen, e.u32Run FS_MAGIC_OFF sb.version.magic] ++
  match sb.version with
  | .ufs1 => [e.i32Run OFF_OLD_SIZE sb.size.toInt32, e.i32Run OFF_OLD_DSIZE sb.dsize.toInt32]
  | .ufs2 => [e.i64Run OFF_SIZE sb.size, e.i64Run OFF_DSIZE sb.dsize,
      e.i64Run OFF_SBLOCKLOC sb.sblockloc]

/-- `data` with the fields of `sb` written over it. -/
def encode (sb : Superblock) (data : Bytes) : Bytes := data.writeAll sb.fields

/-- What the fields of the format can hold: the bounds every accepted superblock satisfies, and on
UFS1 sizes of 32 bits and no `fs_sblockloc`. -/
structure InRange (sb : Superblock) : Prop extends WellFormed sb where
  size_ufs1 : sb.version = .ufs1 → -2 ^ 31 ≤ sb.size.toInt ∧ sb.size.toInt < 2 ^ 31
  dsize_ufs1 : sb.version = .ufs1 → -2 ^ 31 ≤ sb.dsize.toInt ∧ sb.dsize.toInt < 2 ^ 31
  sblockloc_ufs1 : sb.version = .ufs1 → sb.sblockloc = 0

theorem fields_span (sb : Superblock) : sb.fields.map Run.span =
    [(8, 4), (12, 4), (16, 4), (20, 4), (44, 4), (48, 4), (52, 4), (56, 4), (80, 4), (84, 4),
      (96, 4), (100, 4), (104, 4), (116, 4), (120, 4), (184, 4), (188, 4), (1096, 8), (1320, 4),
      (1372, 4)] ++
    match sb.version with
    | .ufs1 => [(36, 4), (40, 4)]
    | .ufs2 => [(1080, 8), (1088, 8), (1000, 8)] := by
  unfold fields
  cases sb.version <;>
    simp only [List.map_append, List.map_cons, List.map_nil, Endian.i32Run_span, Endian.u32Run_span,
      Endian.i64Run_span] <;> rfl

theorem fields_apart (sb : Superblock) : sb.fields.Pairwise Run.Apart := by
  rw [Bytes.pairwise_apart_iff, fields_span]
  cases sb.version <;> decide

theorem fields_inside {sb : Superblock} {r : Run} (hr : r ∈ sb.fields) :
    r.1 + r.2.length ≤ SB_MIN_LEN := by
  have hmem : r.span ∈ sb.fields.map Run.span := List.mem_map_of_mem hr
  have hall : ∀ s ∈ sb.fields.map Run.span, s.1 + s.2 ≤ SB_MIN_LEN := by
    rw [fields_span]
    cases sb.version <;> decide
  exact hall _ hmem

theorem encode_hasRun {sb : Superblock} {data : Bytes} (hlen : SB_MIN_LEN ≤ data.len) {r : Run}
    (hr : r ∈ sb.fields) : HasRun (sb.encode data) r :=
  Bytes.writeAll_hasRun sb.fields_apart hr ((fields_inside hr).trans hlen)

theorem toInt64_toInt32 {x : Int64} (h : -2 ^ 31 ≤ x.toInt ∧ x.toInt < 2 ^ 31) :
    x.toInt32.toInt64 = x := by
  apply Int64.toInt_inj.mp
  rw [Int32.toInt_toInt64, Int64.toInt_toInt32, Int.bmod_def]
  split_ifs <;> omega

/-- A buffer holds the fields of `sb` exactly when it carries the magic and decodes to `sb`. -/
theorem hasRun_fields_iff {sb : Superblock} {data : Bytes} (hlen : SB_MIN_LEN ≤ data.len)
    (hrange : sb.InRange) :
    (∀ r ∈ sb.fields, HasRun data r) ↔
      sb.endian.u32 data FS_MAGIC_OFF = sb.version.magic ∧
        decode data sb.version sb.endian = sb := by
  unfold SB_MIN_LEN at hlen
  have i32 (off : ℕ) (x : Int32) (hoff : off + 4 ≤ 1376) :
      HasRun data (sb.endian.i32Run off x) ↔ sb.endian.i32 data off = x :=
    hasRun_i32Run (by omega) x
  have u32 (off : ℕ) (x : UInt32) (hoff : off + 4 ≤ 1376) :
      HasRun data (sb.endian.u32Run off x) ↔ sb.endian.u32 data off = x :=
    hasRun_u32Run (by omega) x
  have i64 (off : ℕ) (x : Int64) (hoff : off + 8 ≤ 1376) :
      HasRun data (sb.endian.i64Run off x) ↔ sb.endian.i64 data off = x :=
    hasRun_i64Run (by omega) x
  have hsize := hrange.size_ufs1
  have hdsize := hrange.dsize_ufs1
  have hloc := hrange.sblockloc_ufs1
  obtain ⟨version, endian, sblkno, cblkno, iblkno, dblkno, ncg, bsize, fsize, frag, bshift, fshift,
    fragshift, fsbtodb, sbsize, nindir, inopb, ipg, fpg, size, dsize, csaddr, sblockloc,
    maxsymlinklen⟩ := sb
  dsimp only at i32 u32 i64 hsize hdsize hloc
  unfold fields decode
  simp only [List.forall_mem_append, List.forall_mem_cons, List.not_mem_nil, false_imp_iff,
    implies_true, and_true]
  cases version with
  | ufs1 =>
    have hold {x : Int32} {y : Int64} (hy : -2 ^ 31 ≤ y.toInt ∧ y.toInt < 2 ^ 31) :
        x = y.toInt32 ↔ x.toInt64 = y := by
      constructor
      · rintro rfl
        exact toInt64_toInt32 hy
      · rintro rfl
        exact (Int32.toInt32_toInt64 x).symm
    simp (disch := decide) only [List.forall_mem_cons, List.not_mem_nil, false_imp_iff,
      implies_true, and_true, i32, u32, i64, Superblock.mk.injEq, true_and, hold (hsize rfl),
      hold (hdsize rfl), hloc rfl]
    apply iff_of_eq
    ac_rfl
  | ufs2 =>
    simp (disch := decide) only [List.forall_mem_cons, List.not_mem_nil, false_imp_iff,
      implies_true, and_true, i32, u32, i64, Superblock.mk.injEq, true_and]
    apply iff_of_eq
    ac_rfl

theorem magicBytes_eq_iff {data : Bytes} (hlen : SB_MIN_LEN ≤ data.len) {v : UfsVersion}
    {e : Endian} : magicBytes data = magicOf v e ↔ e.u32 data FS_MAGIC_OFF = v.magic := by
  unfold SB_MIN_LEN at hlen
  have hoff : FS_MAGIC_OFF + 4 ≤ data.len := hlen
  rw [← hasRun_u32Run hoff]
  have hbyte (i : ℕ) (hi : i < 4) : (magicOf v e)[i] = (int e 4 v.magic.toNat).getD i 0 := by
    rw [magicOf, Vector.getElem_ofFn]
  have hmagic (i : ℕ) (hi : i < 4) : (magicBytes data)[i] = data.byte (FS_MAGIC_OFF + i) := by
    simp [magicBytes, u8At]
  constructor
  · intro h i hi
    have hi' : i < 4 := by simpa [Endian.u32Run] using hi
    have heq : (magicBytes data)[i] = (magicOf v e)[i] := by rw [h]
    rw [hmagic i hi', hbyte i hi'] at heq
    exact heq.trans (List.getD_eq_getElem _ _ hi)
  · intro h
    apply Vector.ext
    intro i hi
    have hi' : i < (int e 4 v.magic.toNat).length := by rwa [int_length]
    rw [hmagic i hi, hbyte i hi, List.getD_eq_getElem _ _ hi']
    exact h i hi'

theorem InRange.of_parse {data : Bytes} {sb : Superblock} (h : parse data = .ok sb) :
    sb.InRange := by
  obtain ⟨_, v, e, _, rfl, hwf⟩ := parse_eq_ok_iff.mp h
  have hfit (x : Int32) : -2 ^ 31 ≤ x.toInt64.toInt ∧ x.toInt64.toInt < 2 ^ 31 := by
    rw [Int32.toInt_toInt64]
    exact ⟨x.le_toInt, x.toInt_lt⟩
  refine ⟨hwf, ?_, ?_, ?_⟩
  · rintro (rfl : v = .ufs1)
    exact hfit _
  · rintro (rfl : v = .ufs1)
    exact hfit _
  · rintro (rfl : v = .ufs1)
    rfl

/-- A buffer is accepted as `sb` exactly when `sb` is in range and the buffer holds its fields. -/
theorem parse_eq_ok_iff_hasRun {data : Bytes} (hlen : SB_MIN_LEN ≤ data.len) {sb : Superblock} :
    parse data = .ok sb ↔ sb.InRange ∧ ∀ r ∈ sb.fields, HasRun data r := by
  constructor
  · intro h
    have hrange := InRange.of_parse h
    obtain ⟨_, v, e, hd, rfl, _⟩ := parse_eq_ok_iff.mp h
    refine ⟨hrange, (hasRun_fields_iff hlen hrange).mpr ⟨?_, rfl⟩⟩
    exact (magicBytes_eq_iff hlen).mp (detect_eq_some_iff.mp hd)
  · rintro ⟨hrange, hruns⟩
    obtain ⟨hmagic, hdecode⟩ := (hasRun_fields_iff hlen hrange).mp hruns
    have hd := detect_eq_some_iff.mpr ((magicBytes_eq_iff hlen).mpr hmagic)
    exact parse_eq_ok_iff.mpr ⟨hlen, _, _, hd, hdecode.symm, hrange.toWellFormed⟩

/-- The superblock format: a superblock in range, encoded over any buffer long enough, is parsed
back, and every accepted buffer carries one of the four magics and is the encoding, over itself, of
the superblock in range that it is parsed to. -/
theorem parse_encode :
    (∀ (sb : Superblock) (data : Bytes), SB_MIN_LEN ≤ data.len → sb.InRange →
      parse (sb.encode data) = .ok sb) ∧
    (∀ (data : Bytes) (sb : Superblock), parse data = .ok sb →
      magicBytes data ∈ ufsMagics ∧ sb.InRange ∧ sb.encode data = data) := by
  constructor
  · intro sb data hlen hrange
    have hlen' : SB_MIN_LEN ≤ (sb.encode data).len := by rwa [encode, Bytes.writeAll_len]
    exact (parse_eq_ok_iff_hasRun hlen').mpr ⟨hrange, fun r hr => encode_hasRun hlen hr⟩
  · intro data sb h
    obtain ⟨hlen, v, e, hd, -, -⟩ := parse_eq_ok_iff.mp h
    obtain ⟨hrange, hruns⟩ := (parse_eq_ok_iff_hasRun hlen).mp h
    refine ⟨?_, hrange, Bytes.writeAll_eq_self hruns⟩
    rw [detect_eq_some_iff.mp hd]
    exact magicOf_mem_ufsMagics v e

end Superblock

namespace Crafted

def tinyRegion : Bytes := (volume []).slice SBLOCK_UFS1 SB_MIN_LEN

theorem parse_tinyRegion : Superblock.parse tinyRegion = .ok tinySb := parse_volume_nil

end Crafted

/-- Encoded over a buffer of other bytes, and over its own region. -/
theorem parse_encode_tiny :
    Superblock.parse (Crafted.tinySb.encode (Bytes.tabulate 2000 (by decide) fun _ => 0x5a)) =
        .ok Crafted.tinySb ∧
      Crafted.tinySb.encode Crafted.tinyRegion = Crafted.tinyRegion := by
  obtain ⟨hencode, hdecode⟩ := Superblock.parse_encode
  exact ⟨hencode _ _ (by decide) (Superblock.InRange.of_parse Crafted.parse_tinyRegion),
    (hdecode _ _ Crafted.parse_tinyRegion).2.2⟩

end UfsForensic
