import Mathlib.Algebra.BigOperators.Group.List.Basic
import Mathlib.Tactic.NormNum

/-!
# Bits of a byte

A byte as its eight flags, the first one in the lowest bit.
-/

namespace UfsForensic

def bitOf (x : UInt8) (k : ℕ) : Bool := (x.toNat >>> k) &&& 1 == 1

theorem bitOf_eq_testBit (x : UInt8) (k : ℕ) : bitOf x k = x.toNat.testBit k := by
  unfold bitOf
  rw [Nat.testBit_eq_decide_div_mod_eq, Nat.and_one_is_mod, Nat.shiftRight_eq_div_pow]
  rfl

theorem bitOf_clear (x : UInt8) {j k : ℕ} (hj : j < 8) (hk : k < 8) :
    bitOf (x &&& ~~~UInt8.ofNat (1 <<< j)) k = (bitOf x k && j != k) := by
  have hlt : 1 <<< j < 2 ^ 8 := by
    rw [Nat.one_shiftLeft]
    exact Nat.pow_lt_pow_right (by norm_num) hj
  have hmask : (~~~UInt8.ofNat (1 <<< j)).toNat = 2 ^ 8 - (1 <<< j + 1) := by
    rw [UInt8.toNat_not, UInt8.toNat_ofNat_of_lt' hlt, Nat.sub_sub, Nat.add_comm 1]
    rfl
  rw [bitOf_eq_testBit, bitOf_eq_testBit, UInt8.toNat_and, Nat.testBit_and, hmask,
    Nat.testBit_two_pow_sub_succ hlt, Nat.one_shiftLeft, Nat.testBit_two_pow, decide_eq_true hk,
    Bool.true_and]
  rfl

theorem ext_bitOf {x y : UInt8} (h : ∀ k < 8, bitOf x k = bitOf y k) : x = y := by
  refine UInt8.toNat_inj.mp (Nat.eq_of_testBit_eq fun k => ?_)
  by_cases hk : k < 8
  · rw [← bitOf_eq_testBit, ← bitOf_eq_testBit, h k hk]
  · have hpow := Nat.pow_le_pow_right (show 0 < 2 by norm_num) (Nat.le_of_not_lt hk)
    rw [Nat.testBit_lt_two_pow ((UInt8.toNat_lt x).trans_le hpow),
      Nat.testBit_lt_two_pow ((UInt8.toNat_lt y).trans_le hpow)]

/-- The number whose low `n` bits are the flags. -/
def flagSum (f : ℕ → Bool) (n : ℕ) : ℕ := ((List.range n).map fun k => if f k then 2 ^ k else 0).sum

theorem flagSum_succ (f : ℕ → Bool) (n : ℕ) :
    flagSum f (n + 1) = (if f n then 2 ^ n else 0) + flagSum f n := by
  rw [flagSum, List.range_succ, List.map_append, List.sum_append, List.map_singleton,
    List.sum_singleton, Nat.add_comm]
  rfl

theorem flagSum_lt (f : ℕ → Bool) (n : ℕ) : flagSum f n < 2 ^ n := by
  induction n with
  | zero => exact Nat.one_pos
  | succ n ih =>
    rw [flagSum_succ, Nat.pow_succ]
    split_ifs <;> omega

theorem testBit_flagSum (f : ℕ → Bool) {n k : ℕ} (hk : k < n) : (flagSum f n).testBit k = f k := by
  induction n with
  | zero => exact absurd hk (Nat.not_lt_zero k)
  | succ n ih =>
    rw [flagSum_succ]
    rcases Nat.lt_succ_iff_lt_or_eq.mp hk with hlt | rfl
    · split_ifs
      · rw [Nat.testBit_two_pow_add_gt hlt, ih hlt]
      · rw [Nat.zero_add, ih hlt]
    · have hhigh := Nat.testBit_lt_two_pow (flagSum_lt f k)
      split_ifs with hf
      · rw [Nat.testBit_two_pow_add_eq, hhigh, hf]
        rfl
      · rw [Nat.zero_add, hhigh, Bool.eq_false_iff.mpr hf]

/-- Eight flags in a byte, the first one in the lowest bit. -/
def packBits (f : ℕ → Bool) : UInt8 :=
  UInt8.ofNat ((List.range 8).map fun k => if f k then 2 ^ k else 0).sum

theorem bitOf_packBits (f : ℕ → Bool) {k : ℕ} (hk : k < 8) : bitOf (packBits f) k = f k := by
  have hpack : packBits f = UInt8.ofNat (flagSum f 8) := rfl
  rw [bitOf_eq_testBit, hpack, UInt8.toNat_ofNat_of_lt' (flagSum_lt f 8), testBit_flagSum f hk]

theorem packBits_congr {f g : ℕ → Bool} (h : ∀ k < 8, f k = g k) : packBits f = packBits g := by
  unfold packBits
  congr 2
  refine List.map_congr_left fun k hk => ?_
  rw [h k (List.mem_range.mp hk)]

theorem packBits_clear (f : ℕ → Bool) {j : ℕ} (hj : j < 8) :
    packBits f &&& ~~~UInt8.ofNat (1 <<< j) = packBits fun k => f k && j != k := by
  refine ext_bitOf fun k hk => ?_
  rw [bitOf_clear _ hj hk, bitOf_packBits _ hk, bitOf_packBits _ hk]

end UfsForensic
