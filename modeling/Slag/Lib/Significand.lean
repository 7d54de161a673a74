import Mathlib.Algebra.Order.Field.Power
import Slag.Lib.BinaryFormat

/-!
Floating-point numbers with a bounded significand and an unbounded exponent, and the
one nearest to a rational.
-/

namespace Slag

/-- No other number of `p + 1` significant bits is nearer, and one as near only where
this significand is even. -/
structure NearestFloat (p : Nat) (v : ℚ) (m : Nat) (k : Int) : Prop where
  lower : 2 ^ p ≤ m
  upper : m < 2 ^ (p + 1)
  nearest : ∀ n j, 2 ^ p ≤ n → n < 2 ^ (p + 1) → (n, j) ≠ (m, k) →
    |v - m * 2 ^ k| < |v - n * 2 ^ j| ∨ |v - m * 2 ^ k| = |v - n * 2 ^ j| ∧ m % 2 = 0

variable {p N D : Nat}

namespace F64

theorem roundHalfEven_near (hD : 0 < D) :
    (roundHalfEven N D : ℚ) - 1 / 2 ≤ N / D ∧ (N / D : ℚ) ≤ roundHalfEven N D + 1 / 2 ∧
      (roundHalfEven N D % 2 = 1 →
        (roundHalfEven N D : ℚ) - 1 / 2 < N / D ∧ (N / D : ℚ) < roundHalfEven N D + 1 / 2) := by
  obtain ⟨hbelow, hbelowEven⟩ := two_mul_roundHalfEven_le N hD
  obtain ⟨habove, haboveEven⟩ := le_two_mul_roundHalfEven N hD
  generalize roundHalfEven N D = q at *
  have hDq : (0 : ℚ) < D := by exact_mod_cast hD
  have hbelow' : (2 * q * D : ℚ) ≤ 2 * N + D := by exact_mod_cast hbelow
  have habove' : (2 * N : ℚ) ≤ (2 * q + 1) * D := by exact_mod_cast habove
  refine ⟨?_, ?_, ?_⟩
  · rw [le_div_iff₀ hDq]
    linarith
  · rw [div_le_iff₀ hDq]
    linarith
  · intro hodd
    have hlt : (2 * q * D : ℚ) < 2 * N + D := by
      exact_mod_cast Nat.lt_of_le_of_ne hbelow fun heq => by have := hbelowEven heq; omega
    have hgt : (2 * N : ℚ) < (2 * q + 1) * D := by
      exact_mod_cast Nat.lt_of_le_of_ne habove fun heq => by have := haboveEven heq; omega
    constructor
    · rw [lt_div_iff₀ hDq]
      linarith
    · rw [div_lt_iff₀ hDq]
      linarith

/-- No other integer is nearer. -/
theorem roundHalfEven_nearest (hD : 0 < D) {y : Nat} (hy : y ≠ roundHalfEven N D) :
    |(N / D : ℚ) - roundHalfEven N D| < |(N / D : ℚ) - y| ∨
      |(N / D : ℚ) - roundHalfEven N D| = |(N / D : ℚ) - y| ∧ roundHalfEven N D % 2 = 0 := by
  obtain ⟨hlo, hhi, hodd⟩ := roundHalfEven_near (N := N) hD
  generalize roundHalfEven N D = q at *
  generalize (N / D : ℚ) = w at *
  rcases Nat.lt_or_gt_of_ne hy with hlt | hgt
  · have hstep : (y : ℚ) + 1 ≤ q := by exact_mod_cast hlt
    rw [BinaryFormat.abs_sub_lt_iff (by linarith), BinaryFormat.abs_sub_eq_iff (by linarith)]
    rcases Nat.mod_two_eq_zero_or_one q with hq | hq
    · rcases lt_or_eq_of_le (show (q : ℚ) + y ≤ 2 * w by linarith) with h | h
      · exact Or.inl h
      · exact Or.inr ⟨h, hq⟩
    · have := (hodd hq).1
      left
      linarith
  · have hstep : (q : ℚ) + 1 ≤ y := by exact_mod_cast hgt
    rw [BinaryFormat.abs_sub_gt_iff (by linarith), eq_comm,
      BinaryFormat.abs_sub_eq_iff (by linarith)]
    rcases Nat.mod_two_eq_zero_or_one q with hq | hq
    · rcases lt_or_eq_of_le (show 2 * w ≤ (y : ℚ) + q by linarith) with h | h
      · exact Or.inl h
      · exact Or.inr ⟨h.symm, hq⟩
    · have := (hodd hq).2
      left
      linarith

/-- Below the binade of a quotient the numbers stand closer, but none is as near. -/
theorem roundHalfEven_below (hD : 0 < D) (hlo : 2 ^ p * D ≤ N) {y : ℚ} (hy : y + 1 / 2 ≤ 2 ^ p) :
    |(N / D : ℚ) - roundHalfEven N D| < |(N / D : ℚ) - y| := by
  have hDq : (0 : ℚ) < D := by exact_mod_cast hD
  have hw : (2 ^ p : ℚ) ≤ N / D := by
    rw [le_div_iff₀ hDq]
    exact_mod_cast hlo
  have hq : (2 ^ p : ℚ) ≤ roundHalfEven N D := by exact_mod_cast le_roundHalfEven hD hlo
  rw [BinaryFormat.abs_sub_lt_iff (by linarith)]
  rcases lt_or_eq_of_le hw with hlt | heq
  · have := (roundHalfEven_near (N := N) hD).1
    linarith
  · have hle : (roundHalfEven N D : ℚ) ≤ 2 ^ p := by
      have hN : N = 2 ^ p * D := by
        rw [eq_div_iff hDq.ne'] at heq
        exact_mod_cast heq.symm
      exact_mod_cast roundHalfEven_le hD hN.le
    linarith

end F64

open F64

theorem float_ne {n m : Nat} {j k : Int} (hn : n < 2 ^ (p + 1)) (hm : 2 ^ p ≤ m) (hjk : j < k) :
    (n * 2 ^ j : ℚ) < m * 2 ^ k := by
  obtain ⟨d, hd⟩ := Int.eq_ofNat_of_zero_le (show 0 ≤ k - j - 1 by omega)
  have hk : k = j + (d + 1 : Nat) := by
    push_cast
    omega
  rw [hk, zpow_add₀ two_ne_zero, zpow_natCast, mul_comm (2 ^ j : ℚ), ← mul_assoc]
  apply mul_lt_mul_of_pos_right _ (by positivity)
  have hlt : n < m * 2 ^ (d + 1) := by
    calc n < 2 ^ p * 2 ^ 1 := by rwa [← pow_add]
      _ ≤ m * 2 ^ (d + 1) := Nat.mul_le_mul hm (Nat.pow_le_pow_right (by decide) (by omega))
  exact_mod_cast hlt

/-- Each number has one significand and one exponent. -/
theorem float_inj {n m : Nat} {j k : Int} (hn : 2 ^ p ≤ n) (hn' : n < 2 ^ (p + 1)) (hm : 2 ^ p ≤ m)
    (hm' : m < 2 ^ (p + 1)) (heq : (n * 2 ^ j : ℚ) = m * 2 ^ k) : (n, j) = (m, k) := by
  rcases lt_trichotomy j k with hjk | hjk | hjk
  · exact absurd heq (float_ne hn' hm hjk).ne
  · subst hjk
    have hnm : (n : ℚ) = m := mul_right_cancel₀ (by positivity) heq
    rw [Nat.cast_inj.1 hnm]
  · exact absurd heq (float_ne hm' hn hjk).ne'

/-- One rounding of a quotient in its binade gives the nearest number, also where it
carries into the next binade. -/
theorem nearestFloat_roundHalfEven (hp : 0 < p) (hD : 0 < D) (hlo : 2 ^ p * D ≤ N)
    (hhi : N ≤ 2 ^ (p + 1) * D) (k : Int) :
    ∃ (m : Nat) (j : Int), NearestFloat p (N / D * 2 ^ k) m j ∧ (m * 2 ^ j : ℚ) = roundHalfEven N D * 2 ^ k := by
  have hqlo := le_roundHalfEven hD hlo
  have hqhi := roundHalfEven_le hD hhi
  obtain ⟨m, j, hm, hm', hvalue, heven⟩ : ∃ (m : Nat) (j : Int), 2 ^ p ≤ m ∧ m < 2 ^ (p + 1) ∧
      (m * 2 ^ j : ℚ) = roundHalfEven N D * 2 ^ k ∧ (roundHalfEven N D % 2 = 0 → m % 2 = 0) := by
    rcases Nat.lt_or_eq_of_le hqhi with hlt | heq
    · exact ⟨_, k, hqlo, hlt, rfl, id⟩
    · refine ⟨2 ^ p, k + 1, Nat.le_refl _, Nat.pow_lt_pow_right (by decide) (by omega), ?_, ?_⟩
      · rw [heq, zpow_add₀ two_ne_zero]
        push_cast
        ring
      · intro _
        obtain ⟨r, rfl⟩ := Nat.exists_eq_succ_of_ne_zero hp.ne'
        rw [pow_succ, Nat.mul_mod_left]
  refine ⟨m, j, ⟨hm, hm', ?_⟩, hvalue⟩
  intro n i hn hn' hne
  have hscale : (0 : ℚ) < 2 ^ k := by positivity
  have habs : ∀ x : ℚ, |(N / D : ℚ) * 2 ^ k - x * 2 ^ k| = |(N / D : ℚ) - x| * 2 ^ k := by
    intro x
    rw [← sub_mul, abs_mul, abs_of_pos hscale]
  rcases lt_or_ge i k with hik | hik
  · -- Half a significand of this binade at most.
    have hy : (n * 2 ^ (i - k) : ℚ) + 1 / 2 ≤ 2 ^ p := by
      obtain ⟨d, hd⟩ := Int.eq_ofNat_of_zero_le (show 0 ≤ k - i - 1 by omega)
      have hexp : i - k = -(d + 1 : Nat) := by
        push_cast
        omega
      rw [hexp, zpow_neg, zpow_natCast, ← div_eq_mul_inv]
      have hle : (n : ℚ) / 2 ^ (d + 1) ≤ n / 2 := by
        apply div_le_div_of_nonneg_left (by positivity) (by norm_num)
        exact_mod_cast Nat.le_self_pow (by omega) 2
      have hn2 : (n : ℚ) + 1 ≤ 2 ^ p * 2 := by exact_mod_cast hn'
      linarith
    left
    have hni : (n * 2 ^ i : ℚ) = n * 2 ^ (i - k) * 2 ^ k := by
      rw [mul_assoc, ← zpow_add₀ two_ne_zero, sub_add_cancel]
    rw [hvalue, hni, habs, habs]
    exact mul_lt_mul_of_pos_right (roundHalfEven_below hD hlo hy) hscale
  · obtain ⟨d, hd⟩ := Int.eq_ofNat_of_zero_le (show 0 ≤ i - k by omega)
    have hni : (n * 2 ^ i : ℚ) = (n * 2 ^ d : Nat) * 2 ^ k := by
      have hi : i = d + k := by omega
      rw [hi, zpow_add₀ two_ne_zero, zpow_natCast]
      push_cast
      ring
    have hdiffer : n * 2 ^ d ≠ roundHalfEven N D := by
      intro heq
      apply hne
      apply float_inj hn hn' hm hm'
      rw [hni, heq, hvalue]
    rw [hvalue, hni, habs, habs]
    rcases roundHalfEven_nearest hD hdiffer with hlt | ⟨heq, hq⟩
    · exact Or.inl (mul_lt_mul_of_pos_right hlt hscale)
    · exact Or.inr ⟨by rw [heq], heven hq⟩

end Slag
