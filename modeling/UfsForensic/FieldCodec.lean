import UfsForensic.Crafted
import UfsForensic.Lib.Fields

/-!
# Integer fields

An integer field is read as a value exactly when it holds the bytes of that value, in either byte
order and at every width the formats use.
-/

namespace UfsForensic

open Bytes (HasRun Run leNat beNat leBytes)
open Crafted (int)

/-- The number that the `width` bytes `b` hold in the given order. -/
def Endian.nat (e : Endian) (b : ℕ → UInt8) (width : ℕ) : ℕ :=
  match e with
  | .little => leNat b width
  | .big => beNat b width

@[simp] theorem int_length (e : Endian) (width n : ℕ) : (int e width n).length = width := by
  cases e
  · exact Bytes.leBytes_length width n
  · exact (List.length_reverse).trans (Bytes.leBytes_length width n)

theorem getD_reverse {l : List UInt8} {width i : ℕ} (hl : l.length = width) (hi : i < width) :
    l.reverse.getD i 0 = l.getD (width - 1 - i) 0 := by
  rw [List.getD_eq_getElem _ _ (by rw [List.length_reverse]; omega),
    List.getD_eq_getElem _ _ (by omega), List.getElem_reverse]
  simp only [hl]

theorem nat_int (e : Endian) (width n : ℕ) :
    e.nat (fun i => (int e width n).getD i 0) width = n % 256 ^ width := by
  cases e with
  | little => exact Bytes.leNat_leBytes width n
  | big =>
    have hrev : ∀ i < width, (leBytes width n).reverse.getD (width - 1 - i) 0 =
        (leBytes width n).getD i 0 := by
      intro i hi
      rw [getD_reverse (Bytes.leBytes_length width n) (by omega)]
      congr 1
      omega
    exact (Bytes.leNat_congr hrev).trans (Bytes.leNat_leBytes width n)

theorem int_nat_getD (e : Endian) (b : ℕ → UInt8) {width i : ℕ} (hi : i < width) :
    (int e width (e.nat b width)).getD i 0 = b i := by
  cases e with
  | little => exact Bytes.leBytes_leNat_getD b hi
  | big =>
    change (leBytes width (beNat b width)).reverse.getD i 0 = b i
    rw [getD_reverse (Bytes.leBytes_length _ _) hi, beNat, Bytes.leBytes_leNat_getD _ (by omega)]
    congr 1
    omega

theorem nat_congr (e : Endian) {b c : ℕ → UInt8} {width : ℕ} (h : ∀ i < width, b i = c i) :
    e.nat b width = e.nat c width := by
  cases e with
  | little => exact Bytes.leNat_congr h
  | big => exact Bytes.beNat_congr h

variable {data : Bytes} {off : ℕ} {e : Endian}

/-- A field holds the bytes of `n` exactly when it is read as `n`. -/
theorem hasRun_int_iff {width n : ℕ} (hlen : off + width ≤ data.len) (hn : n < 256 ^ width) :
    HasRun data (off, int e width n) ↔ e.nat (data.window off width) width = n := by
  constructor
  · intro h
    have hbytes : ∀ i < width, data.window off width i = (int e width n).getD i 0 := by
      intro i hi
      have hi' : i < (int e width n).length := by rwa [int_length]
      rw [Bytes.window_eq hlen hi, h i hi']
      exact (List.getD_eq_getElem _ _ hi').symm
    rw [nat_congr e hbytes, nat_int, Nat.mod_eq_of_lt hn]
  · rintro rfl i hi
    have hi' : i < width := by simpa using hi
    have hdigit := int_nat_getD e (data.window off width) hi'
    rw [List.getD_eq_getElem _ _ hi, Bytes.window_eq hlen hi'] at hdigit
    exact hdigit.symm

theorem u16_eq (e : Endian) (data : Bytes) (off : ℕ) :
    e.u16 data off = UInt16.ofNat (e.nat (data.window off 2) 2) := by cases e <;> rfl

theorem u32_eq (e : Endian) (data : Bytes) (off : ℕ) :
    e.u32 data off = UInt32.ofNat (e.nat (data.window off 4) 4) := by cases e <;> rfl

theorem u64_eq (e : Endian) (data : Bytes) (off : ℕ) :
    e.u64 data off = UInt64.ofNat (e.nat (data.window off 8) 8) := by cases e <;> rfl

theorem nat_lt (e : Endian) (b : ℕ → UInt8) (width : ℕ) : e.nat b width < 256 ^ width := by
  cases e
  · exact Bytes.leNat_lt _ _
  · exact Bytes.leNat_lt _ _

namespace Endian

def u16Run (e : Endian) (off : ℕ) (x : UInt16) : Run := (off, int e 2 x.toNat)

def u32Run (e : Endian) (off : ℕ) (x : UInt32) : Run := (off, int e 4 x.toNat)

def u64Run (e : Endian) (off : ℕ) (x : UInt64) : Run := (off, int e 8 x.toNat)

def i32Run (e : Endian) (off : ℕ) (x : Int32) : Run := e.u32Run off x.toUInt32

def i64Run (e : Endian) (off : ℕ) (x : Int64) : Run := e.u64Run off x.toUInt64

@[simp] theorem u16Run_span (e : Endian) (off : ℕ) (x : UInt16) :
    (e.u16Run off x).span = (off, 2) := congrArg (Prod.mk off) (int_length e 2 _)

@[simp] theorem u32Run_span (e : Endian) (off : ℕ) (x : UInt32) :
    (e.u32Run off x).span = (off, 4) := congrArg (Prod.mk off) (int_length e 4 _)

@[simp] theorem u64Run_span (e : Endian) (off : ℕ) (x : UInt64) :
    (e.u64Run off x).span = (off, 8) := congrArg (Prod.mk off) (int_length e 8 _)

@[simp] theorem i32Run_span (e : Endian) (off : ℕ) (x : Int32) :
    (e.i32Run off x).span = (off, 4) := congrArg (Prod.mk off) (int_length e 4 _)

@[simp] theorem i64Run_span (e : Endian) (off : ℕ) (x : Int64) :
    (e.i64Run off x).span = (off, 8) := congrArg (Prod.mk off) (int_length e 8 _)

end Endian

theorem hasRun_u16Run (hlen : off + 2 ≤ data.len) (x : UInt16) :
    HasRun data (e.u16Run off x) ↔ e.u16 data off = x := by
  have hlt := nat_lt e (data.window off 2) 2
  rw [Endian.u16Run, hasRun_int_iff hlen x.toNat_lt, u16_eq, ← UInt16.toNat_inj,
    UInt16.toNat_ofNat_of_lt' hlt]

theorem hasRun_u32Run (hlen : off + 4 ≤ data.len) (x : UInt32) :
    HasRun data (e.u32Run off x) ↔ e.u32 data off = x := by
  have hlt := nat_lt e (data.window off 4) 4
  rw [Endian.u32Run, hasRun_int_iff hlen x.toNat_lt, u32_eq, ← UInt32.toNat_inj,
    UInt32.toNat_ofNat_of_lt' hlt]

theorem hasRun_u64Run (hlen : off + 8 ≤ data.len) (x : UInt64) :
    HasRun data (e.u64Run off x) ↔ e.u64 data off = x := by
  have hlt := nat_lt e (data.window off 8) 8
  rw [Endian.u64Run, hasRun_int_iff hlen x.toNat_lt, u64_eq, ← UInt64.toNat_inj,
    UInt64.toNat_ofNat_of_lt' hlt]

theorem hasRun_i32Run (hlen : off + 4 ≤ data.len) (x : Int32) :
    HasRun data (e.i32Run off x) ↔ e.i32 data off = x := by
  rw [Endian.i32Run, hasRun_u32Run hlen, Endian.i32]
  constructor
  · intro h
    rw [h, Int32.toInt32_toUInt32]
  · intro h
    rw [← h, UInt32.toUInt32_toInt32]

theorem hasRun_i64Run (hlen : off + 8 ≤ data.len) (x : Int64) :
    HasRun data (e.i64Run off x) ↔ e.i64 data off = x := by
  rw [Endian.i64Run, hasRun_u64Run hlen, Endian.i64]
  constructor
  · intro h
    rw [h, Int64.toInt64_toUInt64]
  · intro h
    rw [← h, UInt64.toUInt64_toInt64]

end UfsForensic
