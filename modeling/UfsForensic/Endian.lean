import UfsForensic.Lib.Bytes

/-!
# Bounds-checked readers for both byte orders

Every reader yields `0` when its range is not wholly inside the buffer.
-/

namespace UfsForensic

/-- On-disk byte order, resolved from the superblock magic. -/
inductive Endian
  | little
  | big
  deriving DecidableEq, Repr

def leU16 (data : Bytes) (off : ℕ) : UInt16 := UInt16.ofNat (Bytes.leNat (data.window off 2) 2)

def beU16 (data : Bytes) (off : ℕ) : UInt16 := UInt16.ofNat (Bytes.beNat (data.window off 2) 2)

def leU32 (data : Bytes) (off : ℕ) : UInt32 := UInt32.ofNat (Bytes.leNat (data.window off 4) 4)

def beU32 (data : Bytes) (off : ℕ) : UInt32 := UInt32.ofNat (Bytes.beNat (data.window off 4) 4)

def leU64 (data : Bytes) (off : ℕ) : UInt64 := UInt64.ofNat (Bytes.leNat (data.window off 8) 8)

def beU64 (data : Bytes) (off : ℕ) : UInt64 := UInt64.ofNat (Bytes.beNat (data.window off 8) 8)

/-- `data.get(off).copied().unwrap_or(0)` -/
def u8At (data : Bytes) (off : ℕ) : UInt8 := data.byte off

namespace Endian

def u16 : Endian → Bytes → ℕ → UInt16
  | little => leU16
  | big => beU16

def u32 : Endian → Bytes → ℕ → UInt32
  | little => leU32
  | big => beU32

def i32 (e : Endian) (data : Bytes) (off : ℕ) : Int32 := (e.u32 data off).toInt32

def u64 : Endian → Bytes → ℕ → UInt64
  | little => leU64
  | big => beU64

def i64 (e : Endian) (data : Bytes) (off : ℕ) : Int64 := (e.u64 data off).toInt64

theorem u16_congr {data data' : Bytes} {off off' : ℕ}
    (h : ∀ i < 2, data.window off 2 i = data'.window off' 2 i) (e : Endian) :
    e.u16 data off = e.u16 data' off' := by
  cases e
  · exact congrArg UInt16.ofNat (Bytes.leNat_congr h)
  · exact congrArg UInt16.ofNat (Bytes.beNat_congr h)

theorem u32_congr {data data' : Bytes} {off off' : ℕ}
    (h : ∀ i < 4, data.window off 4 i = data'.window off' 4 i) (e : Endian) :
    e.u32 data off = e.u32 data' off' := by
  cases e
  · exact congrArg UInt32.ofNat (Bytes.leNat_congr h)
  · exact congrArg UInt32.ofNat (Bytes.beNat_congr h)

theorem u64_congr {data data' : Bytes} {off off' : ℕ}
    (h : ∀ i < 8, data.window off 8 i = data'.window off' 8 i) (e : Endian) :
    e.u64 data off = e.u64 data' off' := by
  cases e
  · exact congrArg UInt64.ofNat (Bytes.leNat_congr h)
  · exact congrArg UInt64.ofNat (Bytes.beNat_congr h)

theorem u16_slice {data : Bytes} {a n off : ℕ} (h : off + 2 ≤ n) (e : Endian) :
    e.u16 (data.slice a n) off = e.u16 data (a + off) :=
  u16_congr (fun _ hi => Bytes.window_slice h hi) e

theorem u32_slice {data : Bytes} {a n off : ℕ} (h : off + 4 ≤ n) (e : Endian) :
    e.u32 (data.slice a n) off = e.u32 data (a + off) :=
  u32_congr (fun _ hi => Bytes.window_slice h hi) e

theorem u64_slice {data : Bytes} {a n off : ℕ} (h : off + 8 ≤ n) (e : Endian) :
    e.u64 (data.slice a n) off = e.u64 data (a + off) :=
  u64_congr (fun _ hi => Bytes.window_slice h hi) e

theorem u32_eq_zero {data : Bytes} {off : ℕ} (h : data.len < off + 4) (e : Endian) :
    e.u32 data off = 0 := by
  have hw : data.window off 4 = fun _ => 0 := funext (Bytes.window_eq_zero h)
  cases e <;> simp only [u32, leU32, beU32, hw] <;> decide

theorem u64_eq_zero {data : Bytes} {off : ℕ} (h : data.len < off + 8) (e : Endian) :
    e.u64 data off = 0 := by
  have hw : data.window off 8 = fun _ => 0 := funext (Bytes.window_eq_zero h)
  cases e <;> simp only [u64, leU64, beU64, hw] <;> decide

theorem i64_slice {data : Bytes} {a n off : ℕ} (h : off + 8 ≤ n) (e : Endian) :
    e.i64 (data.slice a n) off = e.i64 data (a + off) := congrArg UInt64.toInt64 (u64_slice h e)

end Endian
end UfsForensic
