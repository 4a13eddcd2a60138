import UfsForensic.Error

/-!
# UFS superblock: parse, geometry, version and byte order

The primary superblock sits at byte 8192 on UFS1 and 65536 on UFS2; `fs_magic`, the last field of
the 1376-byte structure, resolves both the version and the byte order.
-/

namespace UfsForensic

def FS_UFS1_MAGIC : UInt32 := 0x00011954

def FS_UFS2_MAGIC : UInt32 := 0x19540119

def SBLOCK_UFS1 : ℕ := 8192

def SBLOCK_UFS2 : ℕ := 65536

def UFS_ROOTINO : ℕ := 2

def FS_MAGIC_OFF : ℕ := 1372

def SB_MIN_LEN : ℕ := 1376

def OFF_SBLKNO : ℕ := 8
def OFF_CBLKNO : ℕ := 12
def OFF_IBLKNO : ℕ := 16
def OFF_DBLKNO : ℕ := 20
def OFF_OLD_SIZE : ℕ := 36
def OFF_OLD_DSIZE : ℕ := 40
def OFF_NCG : ℕ := 44
def OFF_BSIZE : ℕ := 48
def OFF_FSIZE : ℕ := 52
def OFF_FRAG : ℕ := 56
def OFF_BSHIFT : ℕ := 80
def OFF_FSHIFT : ℕ := 84
def OFF_FRAGSHIFT : ℕ := 96
def OFF_FSBTODB : ℕ := 100
def OFF_SBSIZE : ℕ := 104
def OFF_NINDIR : ℕ := 116
def OFF_INOPB : ℕ := 120
def OFF_IPG : ℕ := 184
def OFF_FPG : ℕ := 188
def OFF_SIZE : ℕ := 1080
def OFF_DSIZE : ℕ := 1088
def OFF_CSADDR : ℕ := 1096
def OFF_SBLOCKLOC : ℕ := 1000
def OFF_MAXSYMLINKLEN : ℕ := 1320

inductive UfsVersion
  | ufs1
  | ufs2
  deriving DecidableEq, Repr

structure Superblock where
  version : UfsVersion
  endian : Endian
  sblkno : Int32
  cblkno : Int32
  iblkno : Int32
  dblkno : Int32
  ncg : UInt32
  bsize : Int32
  fsize : Int32
  frag : Int32
  bshift : Int32
  fshift : Int32
  fragshift : Int32
  fsbtodb : Int32
  sbsize : Int32
  nindir : Int32
  inopb : UInt32
  ipg : Int32
  fpg : Int32
  size : Int64
  dsize : Int64
  csaddr : Int64
  sblockloc : Int64
  maxsymlinklen : Int32
  deriving DecidableEq

namespace Superblock

def MAX_NCG : ℕ := 2 ^ 24

/-- Reject absurd geometry with the offending value. -/
def validateGeometry (sb : Superblock) : Except UfsError Unit :=
  if sb.bsize.toInt ≤ 0 ∨ 65536 < sb.bsize.toInt then
    .error (.impossibleGeometry "fs_bsize" (i32AsU64 sb.bsize) 65536)
  else if sb.fsize.toInt ≤ 0 ∨ sb.bsize.toInt < sb.fsize.toInt then
    .error (.impossibleGeometry "fs_fsize" (i32AsU64 sb.fsize) (i32AsU64 sb.bsize))
  else if MAX_NCG < sb.ncg.toNat then
    .error (.impossibleGeometry "fs_ncg" sb.ncg.toNat MAX_NCG)
  else .ok ()

def detect (le be : UInt32) : Option (UfsVersion × Endian) :=
  if le = FS_UFS1_MAGIC then some (.ufs1, .little)
  else if le = FS_UFS2_MAGIC then some (.ufs2, .little)
  else if be = FS_UFS1_MAGIC then some (.ufs1, .big)
  else if be = FS_UFS2_MAGIC then some (.ufs2, .big)
  else none

def magicBytes (data : Bytes) : Vector UInt8 4 :=
  Vector.ofFn fun i : Fin 4 => u8At data (FS_MAGIC_OFF + i)

/-- `u32::from_le_bytes` -/
def fromLeBytes (bytes : Vector UInt8 4) : UInt32 :=
  UInt32.ofNat (Bytes.leNat (fun i => bytes.toList.getD i 0) 4)

/-- `u32::from_be_bytes` -/
def fromBeBytes (bytes : Vector UInt8 4) : UInt32 :=
  UInt32.ofNat (Bytes.beNat (fun i => bytes.toList.getD i 0) 4)

/-- The fields of a superblock of known version and byte order. -/
def decode (data : Bytes) (version : UfsVersion) (endian : Endian) : Superblock where
  version := version
  endian := endian
  sblkno := endian.i32 data OFF_SBLKNO
  cblkno := endian.i32 data OFF_CBLKNO
  iblkno := endian.i32 data OFF_IBLKNO
  dblkno := endian.i32 data OFF_DBLKNO
  ncg := endian.u32 data OFF_NCG
  bsize := endian.i32 data OFF_BSIZE
  fsize := endian.i32 data OFF_FSIZE
  frag := endian.i32 data OFF_FRAG
  bshift := endian.i32 data OFF_BSHIFT
  fshift := endian.i32 data OFF_FSHIFT
  fragshift := endian.i32 data OFF_FRAGSHIFT
  fsbtodb := endian.i32 data OFF_FSBTODB
  sbsize := endian.i32 data OFF_SBSIZE
  nindir := endian.i32 data OFF_NINDIR
  inopb := endian.u32 data OFF_INOPB
  ipg := endian.i32 data OFF_IPG
  fpg := endian.i32 data OFF_FPG
  -- UFS1 keeps the sizes in the 32-bit `fs_old_*` fields
  size := match version with
    | .ufs1 => (endian.i32 data OFF_OLD_SIZE).toInt64
    | .ufs2 => endian.i64 data OFF_SIZE
  dsize := match version with
    | .ufs1 => (endian.i32 data OFF_OLD_DSIZE).toInt64
    | .ufs2 => endian.i64 data OFF_DSIZE
  csaddr := endian.i64 data OFF_CSADDR
  sblockloc := match version with
    | .ufs1 => 0
    | .ufs2 => endian.i64 data OFF_SBLOCKLOC
  maxsymlinklen := endian.i32 data OFF_MAXSYMLINKLEN

def parse (data : Bytes) : Except UfsError Superblock :=
  if data.len < SB_MIN_LEN then .error (.truncated "superblock" SB_MIN_LEN data.len)
  else
    let bytes := magicBytes data
    let le := fromLeBytes bytes
    let be := fromBeBytes bytes
    match detect le be with
    | none => .error (.badMagic FS_MAGIC_OFF bytes le be)
    | some (version, endian) =>
      let sb := decode data version endian
      match sb.validateGeometry with
      | .error e => .error e
      | .ok () => .ok sb

/-- `fs_bsize` as a byte count, `0` when it is negative. -/
def blockBytes (sb : Superblock) : ℕ := sb.bsize.toInt.toNat

/-- `fs_fsize` as a byte count, `0` when it is negative. -/
def fragBytes (sb : Superblock) : ℕ := sb.fsize.toInt.toNat

def inodeSize (sb : Superblock) : ℕ :=
  match sb.version with
  | .ufs1 => 128
  | .ufs2 => 256

def primaryOffset (sb : Superblock) : ℕ :=
  match sb.version with
  | .ufs1 => SBLOCK_UFS1
  | .ufs2 => SBLOCK_UFS2

theorem ofNat_leNat_inj {b c : ℕ → UInt8}
    (h : UInt32.ofNat (Bytes.leNat b 4) = UInt32.ofNat (Bytes.leNat c 4)) :
    ∀ i < 4, b i = c i := by
  apply Bytes.leNat_inj
  have hb := Bytes.leNat_lt b 4
  have hc := Bytes.leNat_lt c 4
  have := congrArg UInt32.toNat h
  rwa [UInt32.toNat_ofNat_of_lt' hb, UInt32.toNat_ofNat_of_lt' hc] at this

theorem fromLeBytes_injective : Function.Injective fromLeBytes := by
  intro v w h
  apply Vector.ext
  intro i hi
  have := ofNat_leNat_inj h i hi
  simpa [hi] using this

theorem fromBeBytes_injective : Function.Injective fromBeBytes := by
  intro v w h
  apply Vector.ext
  intro i hi
  have := ofNat_leNat_inj h (4 - 1 - i) (by omega)
  rw [show 4 - 1 - (4 - 1 - i) = i by omega] at this
  simpa [hi] using this

/-- The four encodings of the two magics. -/
def ufsMagics : List (Vector UInt8 4) :=
  [#v[0x54, 0x19, 0x01, 0x00], #v[0x19, 0x01, 0x54, 0x19],
    #v[0x00, 0x01, 0x19, 0x54], #v[0x19, 0x54, 0x01, 0x19]]

theorem detect_eq_none_iff (bytes : Vector UInt8 4) :
    detect (fromLeBytes bytes) (fromBeBytes bytes) = none ↔ bytes ∉ ufsMagics := by
  have h1 : FS_UFS1_MAGIC = fromLeBytes #v[0x54, 0x19, 0x01, 0x00] := by decide
  have h2 : FS_UFS2_MAGIC = fromLeBytes #v[0x19, 0x01, 0x54, 0x19] := by decide
  have h3 : FS_UFS1_MAGIC = fromBeBytes #v[0x00, 0x01, 0x19, 0x54] := by decide
  have h4 : FS_UFS2_MAGIC = fromBeBytes #v[0x19, 0x54, 0x01, 0x19] := by decide
  have e1 : fromLeBytes bytes = FS_UFS1_MAGIC ↔ bytes = #v[0x54, 0x19, 0x01, 0x00] := by
    rw [h1, fromLeBytes_injective.eq_iff]
  have e2 : fromLeBytes bytes = FS_UFS2_MAGIC ↔ bytes = #v[0x19, 0x01, 0x54, 0x19] := by
    rw [h2, fromLeBytes_injective.eq_iff]
  have e3 : fromBeBytes bytes = FS_UFS1_MAGIC ↔ bytes = #v[0x00, 0x01, 0x19, 0x54] := by
    rw [h3, fromBeBytes_injective.eq_iff]
  have e4 : fromBeBytes bytes = FS_UFS2_MAGIC ↔ bytes = #v[0x19, 0x54, 0x01, 0x19] := by
    rw [h4, fromBeBytes_injective.eq_iff]
  simp only [detect, e1, e2, e3, e4, ufsMagics, List.mem_cons, List.not_mem_nil, or_false, not_or]
  split_ifs <;> simp_all

/-- The bounds every accepted superblock satisfies. -/
structure WellFormed (sb : Superblock) : Prop where
  bsize_pos : 0 < sb.bsize.toInt
  bsize_le : sb.bsize.toInt ≤ 65536
  fsize_pos : 0 < sb.fsize.toInt
  fsize_le : sb.fsize.toInt ≤ sb.bsize.toInt
  ncg_le : sb.ncg.toNat ≤ 2 ^ 24

theorem validateGeometry_eq_ok_iff {sb : Superblock} :
    sb.validateGeometry = .ok () ↔ sb.WellFormed := by
  unfold validateGeometry MAX_NCG
  constructor
  · intro h
    split_ifs at h with h1 h2 h3
    exact ⟨by omega, by omega, by omega, by omega, by omega⟩
  · intro h
    have := h.bsize_pos
    have := h.bsize_le
    have := h.fsize_pos
    have := h.fsize_le
    have := h.ncg_le
    rw [if_neg (by omega), if_neg (by omega), if_neg (by omega)]

/-- What an accepted buffer looks like. -/
theorem parse_eq_ok_iff {data : Bytes} {sb : Superblock} :
    parse data = .ok sb ↔ SB_MIN_LEN ≤ data.len ∧
      ∃ v e, detect (fromLeBytes (magicBytes data)) (fromBeBytes (magicBytes data)) = some (v, e) ∧
        sb = decode data v e ∧ sb.WellFormed := by
  unfold parse
  by_cases hlen : data.len < SB_MIN_LEN
  · rw [if_pos hlen]
    exact ⟨(nomatch ·), fun h => absurd h.1 (by omega)⟩
  rw [if_neg hlen]
  cases hd : detect (fromLeBytes (magicBytes data)) (fromBeBytes (magicBytes data)) with
  | none => simp [hd]
  | some ve =>
    obtain ⟨v, e⟩ := ve
    simp only [hd]
    cases hv : (decode data v e).validateGeometry with
    | error err =>
      refine ⟨(nomatch ·), fun ⟨_, v', e', hve, hsb, hwf⟩ => ?_⟩
      obtain ⟨rfl, rfl⟩ := Prod.mk.inj (Option.some.inj hve)
      rw [hsb, ← validateGeometry_eq_ok_iff, hv] at hwf
      exact nomatch hwf
    | ok u =>
      constructor
      · intro h
        obtain rfl := Except.ok.inj h
        exact ⟨by omega, v, e, rfl, rfl, validateGeometry_eq_ok_iff.mp hv⟩
      · rintro ⟨_, v', e', hve, rfl, _⟩
        obtain ⟨rfl, rfl⟩ := Prod.mk.inj (Option.some.inj hve)
        rfl

theorem wellFormed_of_parse {data : Bytes} {sb : Superblock} (h : parse data = .ok sb) :
    sb.WellFormed := by
  obtain ⟨_, _, _, _, _, hwf⟩ := parse_eq_ok_iff.mp h
  exact hwf

namespace WellFormed

variable {sb : Superblock} (h : sb.WellFormed)
include h

theorem bsize_eq : i32AsU64 sb.bsize = sb.blockBytes := i32AsU64_of_nonneg h.bsize_pos.le

theorem fsize_eq : i32AsU64 sb.fsize = sb.fragBytes := i32AsU64_of_nonneg h.fsize_pos.le

theorem blockBytes_pos : 0 < sb.blockBytes := by
  have := h.bsize_pos
  unfold blockBytes
  omega

theorem blockBytes_le : sb.blockBytes ≤ 65536 := by
  have := h.bsize_le
  unfold blockBytes
  omega

theorem fragBytes_pos : 0 < sb.fragBytes := by
  have := h.fsize_pos
  unfold fragBytes
  omega

end WellFormed

end Superblock
end UfsForensic
