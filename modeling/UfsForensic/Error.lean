import Mathlib.Data.Nat.Digits.Defs
import UfsForensic.Endian

/-!
# Error types for the UFS reader

Every variant names the offending value. `UfsError.toString` is the text the error renders to.
-/

namespace UfsForensic

/-- `x as u64` and `x as usize` for an `i32`: the sign is extended. -/
def i32AsU64 (x : Int32) : ℕ := (x.toInt % 2 ^ 64).toNat

def i64MaxAsU64 : ℕ := 2 ^ 63 - 1

theorem i32AsU64_of_nonneg {x : Int32} (h : 0 ≤ x.toInt) : i32AsU64 x = x.toInt.toNat := by
  have := x.toInt_lt
  unfold i32AsU64
  omega

inductive UfsError
  | truncated (what : String) (need avail : ℕ)
  | badMagic (offset : ℕ) (bytes : Vector UInt8 4) (le be : UInt32)
  | badCgMagic (found : UInt32) (endian : Endian)
  | impossibleGeometry (field : String) (value limit : ℕ)
  | inodeOutOfRange (ino count : ℕ)
  deriving DecidableEq

/-- The lower-case hexadecimal digits of `n`, padded with zeros to `width`. -/
def hexPadded (width n : ℕ) : String :=
  let ds := Nat.toDigits 16 n
  String.ofList (List.replicate (width - ds.length) '0' ++ ds)

def hexU32 (x : UInt32) : String := "0x" ++ hexPadded 8 x.toNat

def hexBytes (bytes : Vector UInt8 4) : String :=
  "[" ++ ", ".intercalate (bytes.toList.map fun b => hexPadded 2 b.toNat) ++ "]"

def Endian.toString : Endian → String
  | .little => "Little"
  | .big => "Big"

def UfsError.toString : UfsError → String
  | .truncated what need avail =>
    "buffer too small for " ++ what ++ ": need " ++ need.repr ++ " bytes, have " ++ avail.repr
  | .badMagic offset bytes le be =>
    "bad UFS superblock magic at offset " ++ offset.repr ++ ": bytes " ++ hexBytes bytes ++
      " (LE " ++ hexU32 le ++ ", BE " ++ hexU32 be ++
      "); expected UFS1 0x00011954 or UFS2 0x19540119"
  | .badCgMagic found endian =>
    "bad cylinder-group magic: found " ++ hexU32 found ++ " (endian " ++ endian.toString ++
      "), expected 0x00090255"
  | .impossibleGeometry field value limit =>
    "impossible geometry: " ++ field ++ " = " ++ value.repr ++ " exceeds bound " ++ limit.repr
  | .inodeOutOfRange ino count =>
    "inode " ++ ino.repr ++ " out of range: filesystem has " ++ count.repr ++
      " inodes (0.." ++ count.repr ++ ")"

end UfsForensic
