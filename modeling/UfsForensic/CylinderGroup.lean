import UfsForensic.Error

/-!
# Cylinder-group header

Every cylinder group carries a header (magic `0x00090255`) with the byte offsets, from the header
start, of the used-inode and free-block bitmaps.
-/

namespace UfsForensic

def CG_MAGIC : UInt32 := 0x00090255

namespace CylinderGroup

def OFF_MAGIC : ℕ := 4
def OFF_CGX : ℕ := 12
def OFF_NDBLK : ℕ := 20
def OFF_IUSEDOFF : ℕ := 92
def OFF_FREEOFF : ℕ := 96
def OFF_CLUSTEROFF : ℕ := 108
def OFF_NIBLK : ℕ := 116
def OFF_INITEDIBLK : ℕ := 120

def CG_MIN_LEN : ℕ := 124

end CylinderGroup

structure CylinderGroup where
  cgx : UInt32
  ndblk : UInt32
  niblk : Int32
  initediblk : UInt32
  iusedoff : UInt32
  freeoff : UInt32
  clusteroff : UInt32
  deriving DecidableEq

namespace CylinderGroup

def parse (data : Bytes) (endian : Endian) : Except UfsError CylinderGroup :=
  if data.len < CG_MIN_LEN then .error (.truncated "cylinder group" CG_MIN_LEN data.len)
  else
    let magic := endian.u32 data OFF_MAGIC
    if magic ≠ CG_MAGIC then .error (.badCgMagic magic endian)
    else .ok {
      cgx := endian.u32 data OFF_CGX
      ndblk := endian.u32 data OFF_NDBLK
      niblk := endian.i32 data OFF_NIBLK
      initediblk := endian.u32 data OFF_INITEDIBLK
      iusedoff := endian.u32 data OFF_IUSEDOFF
      freeoff := endian.u32 data OFF_FREEOFF
      clusteroff := endian.u32 data OFF_CLUSTEROFF }

/-- Byte offset of the used-inode bitmap from the header start. -/
def inosusedOff (cg : CylinderGroup) : ℕ := cg.iusedoff.toNat

theorem parse_eq_badCgMagic_iff {data : Bytes} {endian : Endian} {found : UInt32}
    (hlen : CG_MIN_LEN ≤ data.len) :
    parse data endian = .error (.badCgMagic found endian) ↔
      endian.u32 data OFF_MAGIC ≠ CG_MAGIC ∧ endian.u32 data OFF_MAGIC = found := by
  unfold parse
  rw [if_neg (by omega)]
  by_cases hm : endian.u32 data OFF_MAGIC = CG_MAGIC
  · simp [hm]
  · simp [hm]

theorem parse_eq_ok_of_ne_badCgMagic {data : Bytes} {endian : Endian}
    (hlen : CG_MIN_LEN ≤ data.len)
    (h : ∀ found, parse data endian ≠ .error (.badCgMagic found endian)) :
    ∃ cg, parse data endian = .ok cg := by
  unfold parse at h ⊢
  rw [if_neg (by omega)] at h ⊢
  by_cases hm : endian.u32 data OFF_MAGIC = CG_MAGIC
  · simp [hm]
  · simp [hm] at h

end CylinderGroup
end UfsForensic
