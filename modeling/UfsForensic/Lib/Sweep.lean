import Mathlib.Data.List.Pairwise
import Mathlib.Data.List.Range
import Mathlib.Tactic.Linarith

/-!
# Sweeps over groups of numbered cells

A sweep goes through `groups` groups of `width` cells each, skips a group that yields no data, and
collects what a visit of each cell of the others returns. Cell `w` of group `g` has number
`g * width + w`, so the results come in the order of their numbers.
-/

namespace UfsForensic

variable {β γ : Type*}

/-- The results of `visit` over the cells of group `g`, none when it yields no data. -/
def visitGroup (width : ℕ) (load : ℕ → Option β) (visit : β → ℕ → ℕ → Option γ) (g : ℕ) : List γ :=
  match load g with
  | none => []
  | some b => (List.range width).filterMap (visit b g)

/-- Collect the results of `visit` over all cells, in order. -/
def sweep (groups width : ℕ) (load : ℕ → Option β) (visit : β → ℕ → ℕ → Option γ) : List γ :=
  (List.range groups).flatMap (visitGroup width load visit)

section Membership

variable {groups width : ℕ} {load : ℕ → Option β} {visit : β → ℕ → ℕ → Option γ} {x : γ}

theorem mem_visitGroup {g : ℕ} :
    x ∈ visitGroup width load visit g ↔
      ∃ b, load g = some b ∧ ∃ w < width, visit b g w = some x := by
  unfold visitGroup
  cases load g with
  | none => simp
  | some b => simp

theorem mem_sweep :
    x ∈ sweep groups width load visit ↔
      ∃ g < groups, ∃ b, load g = some b ∧ ∃ w < width, visit b g w = some x := by
  simp only [sweep, List.mem_flatMap, List.mem_range, mem_visitGroup]

/-- A sweep visits the cells by their numbers. -/
theorem mem_sweep_iff_number :
    x ∈ sweep groups width load visit ↔ ∃ n < width * groups, ∃ b, load (n / width) = some b ∧
      visit b (n / width) (n % width) = some x := by
  rw [mem_sweep]
  constructor
  · rintro ⟨g, hg, b, hb, w, hw, hx⟩
    have hdiv : (g * width + w) / width = g := by
      rw [Nat.mul_comm, Nat.mul_add_div (by omega), Nat.div_eq_of_lt hw, Nat.add_zero]
    have hmod : (g * width + w) % width = w := by
      rw [Nat.mul_comm, Nat.mul_add_mod, Nat.mod_eq_of_lt hw]
    refine ⟨g * width + w, ?_, b, by rwa [hdiv], by rwa [hdiv, hmod]⟩
    have hstep : (g + 1) * width ≤ groups * width := Nat.mul_le_mul_right width hg
    rw [Nat.succ_mul] at hstep
    rw [Nat.mul_comm width]
    omega
  · rintro ⟨n, hn, b, hb, hx⟩
    have hpos : 0 < width := Nat.pos_of_ne_zero fun h => by simp [h] at hn
    exact ⟨n / width, Nat.div_lt_of_lt_mul hn, b, hb, n % width, Nat.mod_lt n hpos, hx⟩

/-- Results that record the number of their cell come in strictly increasing order. -/
theorem sweep_pairwise (key : γ → ℕ)
    (hkey : ∀ b g w x, g < groups → w < width → visit b g w = some x → key x = g * width + w) :
    (sweep groups width load visit).Pairwise fun x y => key x < key y := by
  rw [sweep, List.pairwise_flatMap]
  constructor
  · intro g hg
    rw [List.mem_range] at hg
    unfold visitGroup
    cases load g with
    | none => exact List.Pairwise.nil
    | some b =>
      simp only [List.pairwise_filterMap]
      refine List.pairwise_lt_range.imp_of_mem fun {v w} hv hw hvw x hx y hy => ?_
      rw [List.mem_range] at hv hw
      rw [hkey b g v x hg hv hx, hkey b g w y hg hw hy]
      omega
  · refine List.pairwise_lt_range.imp_of_mem fun {g k} hg hk hgk x hx y hy => ?_
    rw [List.mem_range] at hg hk
    obtain ⟨b, _, v, hv, hx⟩ := mem_visitGroup.mp hx
    obtain ⟨c, _, w, _, hy⟩ := mem_visitGroup.mp hy
    rw [hkey b g v x hg hv hx, hkey c k w y hk ‹_› hy]
    have hstep : (g + 1) * width ≤ k * width := Nat.mul_le_mul_right width hgk
    rw [Nat.succ_mul] at hstep
    omega

theorem filter_eq_singleton {l : List γ} {key : γ → ℕ}
    (hl : l.Pairwise fun x y => key x < key y) (hx : x ∈ l) {P : γ → Bool}
    (hP : ∀ y ∈ l, P y = true ↔ key y = key x) : l.filter P = [x] := by
  induction l with
  | nil => exact absurd hx List.not_mem_nil
  | cons a l ih =>
    rw [List.pairwise_cons] at hl
    rcases List.mem_cons.mp hx with rfl | hmem
    · have hrest : l.filter P = [] := by
        rw [List.filter_eq_nil_iff]
        intro y hy hPy
        have := (hP y (List.mem_cons_of_mem _ hy)).mp hPy
        have := hl.1 y hy
        omega
      rw [List.filter_cons_of_pos ((hP x List.mem_cons_self).mpr rfl), hrest]
    · have ha : ¬ P a = true := by
        intro hPa
        have := (hP a List.mem_cons_self).mp hPa
        have := hl.1 x hmem
        omega
      rw [List.filter_cons_of_neg ha]
      exact ih hl.2 hmem fun y hy => hP y (List.mem_cons_of_mem _ hy)

end Membership

end UfsForensic
