import Mathlib.Data.List.Basic
import Mathlib.Data.List.Forall2
import Mathlib.Algebra.BigOperators.Group.List.Basic
import Mathlib.Tactic.Ring

/-!
# Leaves of uniform trees

Every node of the tree has the same number `n` of ordered children, given by a function. The leaves
at depth `k` are listed in order, and the leaf at an index is reached by the digits of the index in
base `n`, the most significant one first.
-/

namespace UfsForensic.IndexTree

variable {α : Type*}

/-- The leaves of the tree of depth `k` at `a`, in order. -/
def leaves (child : α → ℕ → α) (n : ℕ) : ℕ → α → List α
  | 0, a => [a]
  | k + 1, a => (List.range n).flatMap fun i => leaves child n k (child a i)

theorem flatMap_range_length (f : ℕ → List α) {m : ℕ} (hf : ∀ i, (f i).length = m) (n : ℕ) :
    ((List.range n).flatMap f).length = n * m := by
  induction n with
  | zero => simp
  | succ n ih =>
    rw [List.range_succ, List.flatMap_append, List.length_append, ih]
    simp only [List.flatMap_cons, List.flatMap_nil, List.append_nil, hf]
    ring

theorem flatMap_range_getElem? (f : ℕ → List α) {m : ℕ} (hf : ∀ i, (f i).length = m) {n i : ℕ}
    (hi : i < n * m) : ((List.range n).flatMap f)[i]? = (f (i / m))[i % m]? := by
  induction n with
  | zero => omega
  | succ n ih =>
    have hlen := flatMap_range_length f hf n
    have hsucc : (n + 1) * m = n * m + m := by ring
    rw [List.range_succ, List.flatMap_append]
    simp only [List.flatMap_cons, List.flatMap_nil, List.append_nil]
    rcases Nat.lt_or_ge i (n * m) with h | h
    · rw [List.getElem?_append_left (by omega)]
      exact ih h
    · have hdiv : i / m = n := by
        apply Nat.div_eq_of_lt_le
        · exact h
        · omega
      have hmod : i % m = i - n * m := by
        have := Nat.div_add_mod i m
        rw [hdiv, Nat.mul_comm] at this
        omega
      rw [List.getElem?_append_right (by omega), hlen, hdiv, hmod]

@[simp] theorem leaves_length (child : α → ℕ → α) (n k : ℕ) (a : α) :
    (leaves child n k a).length = n ^ k := by
  induction k generalizing a with
  | zero => rfl
  | succ k ih =>
    rw [leaves, flatMap_range_length _ fun i => ih (child a i), pow_succ, Nat.mul_comm]

/-- One level down: the leading digit selects the child, the rest the leaf below it. -/
theorem leaves_succ_getElem? (child : α → ℕ → α) {n k i : ℕ} (a : α) (hi : i < n ^ (k + 1)) :
    (leaves child n (k + 1) a)[i]? = (leaves child n k (child a (i / n ^ k)))[i % n ^ k]? := by
  rw [leaves]
  apply flatMap_range_getElem? _ fun j => leaves_length child n k (child a j)
  rw [Nat.mul_comm, ← pow_succ]
  exact hi

theorem leaves_rel {r : α → α → Prop} {child child' : α → ℕ → α}
    (hchild : ∀ a b i, r a b → r (child a i) (child' b i)) {n k : ℕ} {a b : α} (hab : r a b) :
    List.Forall₂ r (leaves child n k a) (leaves child' n k b) := by
  induction k generalizing a b with
  | zero => exact .cons hab .nil
  | succ k ih =>
    apply List.rel_flatMap (R := Eq) (List.forall₂_same.mpr fun _ _ => rfl)
    rintro i _ rfl
    exact ih (hchild a b i hab)

variable (child : α → ℕ → α) {n i : ℕ} (a : α)

theorem leaves_one_getElem? (hi : i < n) : (leaves child n 1 a)[i]? = some (child a i) := by
  rw [leaves_succ_getElem? child a (by simpa using hi), pow_zero, Nat.div_one, Nat.mod_one]
  rfl

theorem leaves_two_getElem? (hi : i < n * n) :
    (leaves child n 2 a)[i]? = some (child (child a (i / n)) (i % n)) := by
  have hn : 0 < n := Nat.pos_of_ne_zero (by rintro rfl; omega)
  rw [leaves_succ_getElem? child a (by rwa [pow_two]), pow_one]
  exact leaves_one_getElem? child _ (Nat.mod_lt _ hn)

theorem leaves_three_getElem? (hi : i < n * n * n) :
    (leaves child n 3 a)[i]? = some (child (child (child a (i / (n * n))) (i % (n * n) / n))
      (i % (n * n) % n)) := by
  have hn : 0 < n := Nat.pos_of_ne_zero (by rintro rfl; omega)
  rw [leaves_succ_getElem? child a (by rwa [pow_succ, pow_two]), pow_two]
  exact leaves_two_getElem? child _ (Nat.mod_lt _ (Nat.mul_pos hn hn))

end UfsForensic.IndexTree
