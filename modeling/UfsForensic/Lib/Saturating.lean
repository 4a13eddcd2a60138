import Mathlib.Tactic.Ring
import Mathlib.Tactic.Linarith

/-!
# Saturating 64-bit arithmetic

`u64` and `usize` operands are natural numbers; the saturating operations clamp at `u64::MAX`.
A clamped result is only ever larger than every length that fits in memory, so a bound by such a
length turns each of them back into the exact operation.
-/

namespace UfsForensic

/-- `u64::MAX`, also `usize::MAX` on the 64-bit targets. -/
def u64Max : ℕ := 2 ^ 64 - 1

/-- `a.saturating_add(b)` -/
def satAdd (a b : ℕ) : ℕ := min (a + b) u64Max

/-- `a.saturating_mul(b)` -/
def satMul (a b : ℕ) : ℕ := min (a * b) u64Max

theorem satAdd_le (a b : ℕ) : satAdd a b ≤ a + b := min_le_left _ _

theorem satAdd_eq {a b : ℕ} (h : a + b ≤ u64Max) : satAdd a b = a + b := min_eq_left h

theorem satMul_eq {a b : ℕ} (h : a * b ≤ u64Max) : satMul a b = a * b := min_eq_left h

theorem satAdd_le_iff {a b m : ℕ} (hm : m < u64Max) : satAdd a b ≤ m ↔ a + b ≤ m := by
  unfold satAdd
  omega

theorem satMul_le_iff {a b m : ℕ} (hm : m < u64Max) : satMul a b ≤ m ↔ a * b ≤ m := by
  unfold satMul
  omega

theorem satMul_lt_iff {a b m : ℕ} (hm : m ≤ u64Max) : satMul a b < m ↔ a * b < m := by
  unfold satMul
  omega

/-- A number that fits is recovered from its quotient and remainder. -/
theorem satAdd_satMul_div_mod {n d : ℕ} (h : n ≤ u64Max) : satAdd (satMul (n / d) d) (n % d) = n := by
  have hdm : n / d * d + n % d = n := by
    rw [Nat.mul_comm]
    exact Nat.div_add_mod n d
  rw [satMul_eq (by omega), satAdd_eq (by omega), hdm]

/-- The address of a fragment within a group, `(g * a + b) * c`, computed with saturation. -/
def satAddr (g a b c : ℕ) : ℕ := satMul (satAdd (satMul g a) b) c

theorem satAddr_le_iff {g a b c m : ℕ} (hm : m < u64Max) (hc : 0 < c) :
    satAddr g a b c ≤ m ↔ (g * a + b) * c ≤ m := by
  have hle : satAdd (satMul g a) b ≤ g * a + b :=
    (satAdd_le _ _).trans (Nat.add_le_add_right (min_le_left _ _) _)
  constructor
  · intro h
    rw [satAddr, satMul_le_iff hm] at h
    have hsum : satAdd (satMul g a) b ≤ m := (Nat.le_mul_of_pos_right _ hc).trans h
    have hexact : satAdd (satMul g a) b = g * a + b := by
      unfold satAdd satMul at *
      omega
    rwa [hexact] at h
  · intro h
    rw [satAddr, satMul_le_iff hm]
    exact (Nat.mul_le_mul_right c hle).trans h

theorem satAddr_eq {g a b c m : ℕ} (hm : m < u64Max) (hc : 0 < c)
    (h : satAddr g a b c ≤ m) : satAddr g a b c = (g * a + b) * c := by
  have hx := (satAddr_le_iff hm hc).mp h
  have hs : g * a + b ≤ u64Max := ((Nat.le_mul_of_pos_right _ hc).trans hx).trans hm.le
  have hm' : satMul g a = g * a := satMul_eq (by omega)
  rw [satAddr, hm', satAdd_eq hs, satMul_eq (hx.trans hm.le)]

end UfsForensic
