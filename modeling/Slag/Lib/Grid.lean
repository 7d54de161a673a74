import Mathlib.Algebra.Order.Ring.Int
import Mathlib.Tactic.Linarith
import Mathlib.Tactic.Ring

/-!
Rounding to the multiples of a number. A rule picks an end of the cell that a point is
in; everything else follows from the rule's being monotone within each cell.
-/

namespace Slag.Grid

variable {a : Int}

/-- Which end a point goes to, by the index of its cell and its place there. -/
structure Rule (a : Int) where
  up : Int → Int → Bool
  mono : ∀ q r s, 0 < r → r ≤ s → s < a → up q r = true → up q s = true

/-- The rule goes to the nearer end, where there is one. -/
def Rule.Nearest (rule : Rule a) : Prop :=
  ∀ q r, 0 < r → r < a → (2 * r < a → rule.up q r = false) ∧ (a < 2 * r → rule.up q r = true)

def round (rule : Rule a) (x : Int) : Int :=
  if x % a = 0 then x
  else if rule.up (x / a) (x % a) then (x / a + 1) * a
  else x / a * a

variable {rule rule' : Rule a} {x y : Int}

theorem place_pos (ha : 0 < a) (h : x % a ≠ 0) : 0 < x % a ∧ x % a < a := by
  have hlo := Int.emod_nonneg x ha.ne'
  have hhi := Int.emod_lt_of_pos x ha
  omega

theorem cell_eq (x a : Int) : x = x / a * a + x % a := by
  have := Int.mul_ediv_add_emod x a
  rw [Int.mul_comm] at this
  exact this.symm

theorem dvd_round (rule : Rule a) (x : Int) : a ∣ round rule x := by
  unfold round
  split
  · rename_i hzero
    exact Int.dvd_of_emod_eq_zero hzero
  · split
    · exact Dvd.intro_left _ rfl
    · exact Dvd.intro_left _ rfl

/-- A point stays in its cell. -/
theorem round_mem_cell (ha : 0 < a) (rule : Rule a) (x : Int) :
    x / a * a ≤ round rule x ∧ round rule x ≤ (x / a + 1) * a := by
  have hcell := cell_eq x a
  have hlo := Int.emod_nonneg x ha.ne'
  have hhi := Int.emod_lt_of_pos x ha
  have hstep : (x / a + 1) * a = x / a * a + a := by ring
  unfold round
  split
  · omega
  · split <;> omega

theorem abs_round_sub_lt (ha : 0 < a) (rule : Rule a) (x : Int) : |round rule x - x| < a := by
  by_cases hzero : x % a = 0
  · rw [round, if_pos hzero, sub_self, abs_zero]
    exact ha
  · obtain ⟨hlo, hhi⟩ := place_pos ha hzero
    have hcell := cell_eq x a
    have hstep : (x / a + 1) * a = x / a * a + a := by ring
    rw [round, if_neg hzero, abs_lt]
    split <;> omega

theorem two_mul_abs_round_sub_le (ha : 0 < a) (hnear : rule.Nearest) (x : Int) :
    2 * |round rule x - x| ≤ a := by
  by_cases hzero : x % a = 0
  · rw [round, if_pos hzero, sub_self, abs_zero]
    omega
  · obtain ⟨hlo, hhi⟩ := place_pos ha hzero
    have hcell := cell_eq x a
    have hstep : (x / a + 1) * a = x / a * a + a := by ring
    obtain ⟨hdown, hup⟩ := hnear (x / a) (x % a) hlo hhi
    rw [round, if_neg hzero]
    split
    · rename_i htaken
      have hfar : ¬2 * (x % a) < a := by
        intro h
        rw [hdown h] at htaken
        cases htaken
      rw [abs_of_nonneg (by omega)]
      omega
    · rename_i htaken
      have hfar : ¬a < 2 * (x % a) := fun h => htaken (hup h)
      rw [abs_of_nonpos (by omega)]
      omega

theorem round_mono (ha : 0 < a) (rule : Rule a) (h : x ≤ y) : round rule x ≤ round rule y := by
  have hindex := Int.ediv_le_ediv ha h
  rcases hindex.lt_or_eq with hlt | heq
  · calc round rule x ≤ (x / a + 1) * a := (round_mem_cell ha rule x).2
      _ ≤ y / a * a := Int.mul_le_mul_of_nonneg_right hlt ha.le
      _ ≤ round rule y := (round_mem_cell ha rule y).1
  · have hx := cell_eq x a
    have hy := cell_eq y a
    have hmem := round_mem_cell ha rule y
    by_cases hxzero : x % a = 0
    · rw [round, if_pos hxzero]
      rw [← heq] at hmem
      omega
    · obtain ⟨hxlo, hxhi⟩ := place_pos ha hxzero
      rw [← heq] at hy hmem
      have hyzero : y % a ≠ 0 := by omega
      obtain ⟨hylo, hyhi⟩ := place_pos ha hyzero
      unfold round
      rw [if_neg hxzero, if_neg hyzero, ← heq]
      have hstep : (x / a + 1) * a = x / a * a + a := by ring
      by_cases hup : rule.up (x / a) (x % a) = true
      · rw [if_pos hup, if_pos (rule.mono _ _ _ hxlo (by omega) hyhi hup)]
      · rw [if_neg hup]
        split <;> omega

theorem round_congr (ha : 0 < a) (h : ∀ r, 0 < r → r < a → rule.up (x / a) r = rule'.up (x / a) r) :
    round rule x = round rule' x := by
  by_cases hzero : x % a = 0
  · rw [round, round, if_pos hzero, if_pos hzero]
  · obtain ⟨hlo, hhi⟩ := place_pos ha hzero
    rw [round, round, if_neg hzero, if_neg hzero, h _ hlo hhi]

/-- The cell of the opposite point is the opposite cell, seen from its other end. -/
theorem neg_cell (ha : 0 < a) (h : x % a ≠ 0) : -x / a = -(x / a) - 1 ∧ -x % a = a - x % a := by
  obtain ⟨hlo, hhi⟩ := place_pos ha h
  have hcell := cell_eq x a
  apply (Int.ediv_emod_unique ha).2
  have hring : a * (-(x / a) - 1) = -(x / a * a) - a := by ring
  omega

theorem round_neg (ha : 0 < a)
    (h : ∀ q r, 0 < r → r < a → rule'.up (-q - 1) (a - r) = !rule.up q r) :
    round rule' (-x) = -round rule x := by
  by_cases hzero : x % a = 0
  · have hneg : -x % a = 0 :=
      Int.emod_eq_zero_of_dvd (Int.dvd_neg.2 (Int.dvd_of_emod_eq_zero hzero))
    rw [round, round, if_pos hzero, if_pos hneg]
  · obtain ⟨hlo, hhi⟩ := place_pos ha hzero
    obtain ⟨hdiv, hmod⟩ := neg_cell ha hzero
    have hneg : -x % a ≠ 0 := by omega
    rw [round, round, if_neg hzero, if_neg hneg, hdiv, hmod, h _ _ hlo hhi]
    cases rule.up (x / a) (x % a) with
    | true =>
        simp only [Bool.not_true, Bool.false_eq_true, if_false, if_true]
        ring
    | false =>
        simp only [Bool.not_false, Bool.false_eq_true, if_false, if_true]
        ring

end Slag.Grid
