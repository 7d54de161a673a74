import Mathlib.Algebra.Order.Field.Basic
import Mathlib.Data.EReal.Operations
import Mathlib.Data.Rat.Cast.Order
import Mathlib.Order.Monotone.Basic
import Mathlib.Tactic.IntervalCases
import Mathlib.Tactic.Linarith
import Mathlib.Tactic.Positivity
import Slag.Lib.Float64

/-!
Binary floating-point formats. The magnitudes of a format are numbered by their bit
patterns, in order; infinity is the pattern after the largest number, and for
rounding it stands where the next number would be.
-/

namespace Slag

/-- The magnitude of a pattern in units of the least subnormal. -/
def patternUnits (fractionBits n : Nat) : Nat :=
  if n / 2 ^ fractionBits = 0 then n % 2 ^ fractionBits
  else (2 ^ fractionBits + n % 2 ^ fractionBits) * 2 ^ (n / 2 ^ fractionBits - 1)

theorem patternUnits_succ (f n : Nat) :
    patternUnits f (n + 1) = patternUnits f n + 2 ^ (n / 2 ^ f - 1) := by
  have hpos : 0 < 2 ^ f := Nat.two_pow_pos f
  have hsplit := Nat.div_add_mod n (2 ^ f)
  have hlt := Nat.mod_lt n hpos
  generalize hE : n / 2 ^ f = E at hsplit ⊢
  generalize hF : n % 2 ^ f = F at hsplit hlt
  rcases Nat.lt_or_ge (F + 1) (2 ^ f) with hnext | hnext
  · have hdiv : (n + 1) / 2 ^ f = E := by
      rw [← hsplit, Nat.add_assoc, Nat.mul_add_div hpos, Nat.div_eq_of_lt hnext, Nat.add_zero]
    have hmod : (n + 1) % 2 ^ f = F + 1 := by
      rw [← hsplit, Nat.add_assoc, Nat.mul_add_mod, Nat.mod_eq_of_lt hnext]
    rw [patternUnits, patternUnits, hdiv, hmod, hE, hF]
    split
    · rename_i hzero
      simp [hzero]
    · ring
  · have hlast : F + 1 = 2 ^ f := by omega
    have hwhole : n + 1 = 2 ^ f * (E + 1) := by
      rw [← hsplit, Nat.add_assoc, hlast]
      ring
    have hdiv : (n + 1) / 2 ^ f = E + 1 := by rw [hwhole, Nat.mul_div_cancel_left _ hpos]
    have hmod : (n + 1) % 2 ^ f = 0 := by rw [hwhole, Nat.mul_mod_right]
    rw [patternUnits, patternUnits, hdiv, hmod, hE, hF, if_neg (Nat.succ_ne_zero E), Nat.add_zero,
      Nat.add_sub_cancel]
    split
    · rename_i hzero
      subst hzero
      simpa using hlast.symm
    · rename_i hne
      obtain ⟨e, rfl⟩ := Nat.exists_eq_succ_of_ne_zero hne
      rw [Nat.succ_eq_add_one, Nat.add_sub_cancel, pow_succ]
      have hF' : F = 2 ^ f - 1 := by omega
      subst hF'
      calc 2 ^ f * (2 ^ e * 2) = (2 ^ f + (2 ^ f - 1) + 1) * 2 ^ e := by
            rw [Nat.add_assoc, hlast]
            ring
        _ = _ := by ring

theorem patternUnits_strictMono (f : Nat) : StrictMono (patternUnits f) := by
  apply strictMono_nat_of_lt_succ
  intro n
  rw [patternUnits_succ]
  exact Nat.lt_add_of_pos_right (Nat.two_pow_pos _)

/-- A significand in its binade; the end of a binade is the start of the next. -/
theorem patternUnits_significand {f r B : Nat} (hlo : B = 0 ∨ 2 ^ f ≤ r) (hhi : r ≤ 2 ^ (f + 1)) :
    patternUnits f (r + 2 ^ f * B) = r * 2 ^ B := by
  have hpos : 0 < 2 ^ f := Nat.two_pow_pos f
  have hmul : r % 2 ^ f + 2 ^ f * (r / 2 ^ f) = r := Nat.mod_add_div r (2 ^ f)
  have hdiv : (r + 2 ^ f * B) / 2 ^ f = r / 2 ^ f + B := Nat.add_mul_div_left _ _ hpos
  have hmod : (r + 2 ^ f * B) % 2 ^ f = r % 2 ^ f := Nat.add_mul_mod_self_left _ _ _
  have hle : r / 2 ^ f ≤ 2 := by
    rw [Nat.div_le_iff_le_mul hpos]
    rw [pow_succ] at hhi
    omega
  rw [patternUnits, hdiv, hmod]
  generalize r / 2 ^ f = q at hmul hle ⊢
  interval_cases q
  · rcases hlo with rfl | hlo
    · simp only [Nat.add_zero, if_true, pow_zero, Nat.mul_one]
      omega
    · have := Nat.mod_lt r hpos
      omega
  · rw [if_neg (by omega), Nat.add_sub_cancel_left]
    congr 1
    omega
  · rw [if_neg (by omega), show 2 + B - 1 = B + 1 by omega]
    rw [pow_succ] at hhi
    have hzero : r % 2 ^ f = 0 := by omega
    have hr : r = 2 ^ f * 2 := by omega
    rw [hzero, hr]
    ring

theorem patternUnits_gap {f r B : Nat} (hlo : B = 0 ∨ 2 ^ f ≤ r) :
    2 ^ B ≤ 2 ^ ((r + 2 ^ f * B) / 2 ^ f - 1) := by
  have hpos : 0 < 2 ^ f := Nat.two_pow_pos f
  rw [Nat.add_mul_div_left _ _ hpos]
  apply Nat.pow_le_pow_right (by decide)
  rcases hlo with rfl | hlo
  · exact Nat.zero_le _
  · have := Nat.div_pos hlo hpos
    omega

/-- The step to a significand is half as long only where a binade begins. -/
theorem patternUnits_gap_before {f r B : Nat} (hlo : B = 0 ∨ 2 ^ f ≤ r) (hhi : r < 2 ^ (f + 1)) :
    2 ^ ((r + 2 ^ f * B) / 2 ^ f - 1) = 2 ^ B := by
  have hpos : 0 < 2 ^ f := Nat.two_pow_pos f
  rw [Nat.add_mul_div_left _ _ hpos]
  congr 1
  have hlt : r / 2 ^ f < 2 := by
    rw [Nat.div_lt_iff_lt_mul hpos]
    rw [pow_succ] at hhi
    omega
  rcases hlo with rfl | hlo
  · omega
  · have := Nat.div_pos hlo hpos
    omega

namespace F64

theorem two_mul_roundHalfEven_le (num : Nat) {den : Nat} (hden : 0 < den) :
    2 * roundHalfEven num den * den ≤ 2 * num + den ∧
      (2 * roundHalfEven num den * den = 2 * num + den → roundHalfEven num den % 2 = 0) := by
  have hsplit := Nat.div_add_mod' num den
  have hmod := Nat.mod_lt num hden
  unfold roundHalfEven
  generalize num / den = q at *
  generalize num % den = t at *
  dsimp only
  split
  · constructor
    · rw [Nat.mul_assoc]
      omega
    · intro heq
      rw [Nat.mul_assoc] at heq
      omega
  · split
    · constructor
      · rw [Nat.mul_assoc, Nat.add_mul]
        omega
      · intro heq
        rw [Nat.mul_assoc, Nat.add_mul] at heq
        omega
    · rcases Nat.mod_two_eq_zero_or_one q with hq | hq <;> rw [hq]
      · constructor
        · rw [Nat.mul_assoc, Nat.add_mul]
          omega
        · intro heq
          exact hq
      · constructor
        · rw [Nat.mul_assoc, Nat.add_mul]
          omega
        · intro heq
          omega

theorem le_two_mul_roundHalfEven (num : Nat) {den : Nat} (hden : 0 < den) :
    2 * num ≤ (2 * roundHalfEven num den + 1) * den ∧
      (2 * num = (2 * roundHalfEven num den + 1) * den → roundHalfEven num den % 2 = 0) := by
  have hsplit := Nat.div_add_mod' num den
  have hmod := Nat.mod_lt num hden
  unfold roundHalfEven
  generalize num / den = q at *
  generalize num % den = t at *
  dsimp only
  split
  · constructor
    · rw [Nat.add_mul, Nat.mul_assoc]
      omega
    · intro heq
      rw [Nat.add_mul, Nat.mul_assoc] at heq
      omega
  · split
    · constructor
      · rw [Nat.add_mul, Nat.mul_assoc, Nat.add_mul]
        omega
      · intro heq
        rw [Nat.add_mul, Nat.mul_assoc, Nat.add_mul] at heq
        omega
    · rcases Nat.mod_two_eq_zero_or_one q with hq | hq <;> rw [hq]
      · constructor
        · rw [Nat.add_mul, Nat.mul_assoc, Nat.add_mul]
          omega
        · intro heq
          exact hq
      · constructor
        · rw [Nat.add_mul, Nat.mul_assoc, Nat.add_mul]
          omega
        · intro heq
          omega

theorem le_roundHalfEven {num den k : Nat} (hden : 0 < den) (h : k * den ≤ num) :
    k ≤ roundHalfEven num den := by
  have hk : k ≤ num / den := (Nat.le_div_iff_mul_le hden).2 h
  unfold roundHalfEven
  dsimp only
  split
  · exact hk
  · split <;> omega

theorem roundHalfEven_le {num den k : Nat} (hden : 0 < den) (h : num ≤ k * den) :
    roundHalfEven num den ≤ k := by
  by_contra hlt
  have hle := (two_mul_roundHalfEven_le num hden).1
  have hmul : (k + 1) * den ≤ roundHalfEven num den * den :=
    Nat.mul_le_mul_right den (by omega)
  rw [Nat.mul_assoc] at hle
  rw [Nat.add_mul, Nat.one_mul] at hmul
  omega

end F64

structure BinaryFormat where
  fractionBits : Nat
  /-- The least subnormal is the power of two with the opposite of this exponent. -/
  scale : Nat
  /-- The pattern of infinity. -/
  top : Nat
  fraction_pos : 0 < fractionBits

namespace BinaryFormat

variable (F : BinaryFormat)

/-- The magnitude of a pattern. -/
def value (n : Nat) : ℚ := patternUnits F.fractionBits n / 2 ^ F.scale

/-- No pattern up to infinity is nearer, and one as near only where this is even. -/
def Nearest (v : ℚ) (n : Nat) : Prop :=
  n ≤ F.top ∧ ∀ k ≤ F.top, k ≠ n →
    |v - F.value n| < |v - F.value k| ∨ |v - F.value n| = |v - F.value k| ∧ n % 2 = 0

theorem value_strictMono : StrictMono F.value := by
  intro m n hmn
  have hunits : (patternUnits F.fractionBits m : ℚ) < patternUnits F.fractionBits n := by
    exact_mod_cast patternUnits_strictMono F.fractionBits hmn
  exact div_lt_div_of_pos_right hunits (by positivity)

theorem abs_sub_lt_iff {a b v : ℚ} (h : b < a) : |v - a| < |v - b| ↔ a + b < 2 * v := by
  rcases abs_cases (v - a) with ⟨ha, _⟩ | ⟨ha, _⟩ <;>
    rcases abs_cases (v - b) with ⟨hb, _⟩ | ⟨hb, _⟩ <;> rw [ha, hb] <;>
    constructor <;> intro <;> linarith

theorem abs_sub_eq_iff {a b v : ℚ} (h : b < a) : |v - a| = |v - b| ↔ a + b = 2 * v := by
  rcases abs_cases (v - a) with ⟨ha, _⟩ | ⟨ha, _⟩ <;>
    rcases abs_cases (v - b) with ⟨hb, _⟩ | ⟨hb, _⟩ <;> rw [ha, hb] <;>
    constructor <;> intro <;> linarith

theorem abs_sub_gt_iff {a b v : ℚ} (h : b < a) : |v - b| < |v - a| ↔ 2 * v < a + b := by
  rcases abs_cases (v - a) with ⟨ha, _⟩ | ⟨ha, _⟩ <;>
    rcases abs_cases (v - b) with ⟨hb, _⟩ | ⟨hb, _⟩ <;> rw [ha, hb] <;>
    constructor <;> intro <;> linarith

/-- A number between the midpoints around a pattern; a midpoint goes to the even one. -/
structure Between (v : ℚ) (n : Nat) : Prop where
  lower : ∀ m, n = m + 1 → F.value n + F.value m ≤ 2 * v
  lower_even : ∀ m, n = m + 1 → F.value n + F.value m = 2 * v → n % 2 = 0
  upper : 2 * v ≤ F.value (n + 1) + F.value n
  upper_even : 2 * v = F.value (n + 1) + F.value n → n % 2 = 0

variable {F} {v w : ℚ} {m n k : Nat}

/-- Beyond the largest number the nearest is infinity. -/
theorem Between.nearest (h : F.Between v n) : F.Nearest v (min n F.top) := by
  have hmono := F.value_strictMono
  refine ⟨Nat.min_le_right _ _, ?_⟩
  intro k hk hne
  rcases Nat.lt_or_ge k (min n F.top) with hlt | hge
  · obtain ⟨m, rfl⟩ : ∃ m, n = m + 1 := ⟨n - 1, by omega⟩
    have hlower := h.lower m rfl
    have hkm : F.value k ≤ F.value m := hmono.monotone (by omega)
    rw [abs_sub_lt_iff (hmono hlt), abs_sub_eq_iff (hmono hlt)]
    rcases Nat.lt_or_ge F.top (m + 1) with htop | htop
    · -- Infinity stands below the number.
      have hle : F.value F.top ≤ F.value m := hmono.monotone (by omega)
      have hstep := hmono (Nat.lt_succ_self m)
      have hkt := hmono hlt
      rw [Nat.min_eq_right htop.le] at hkt ⊢
      left
      linarith
    · rw [Nat.min_eq_left htop]
      rcases (lt_or_eq_of_le (show F.value (m + 1) + F.value k ≤ 2 * v by linarith)) with hs | hs
      · exact Or.inl hs
      · have hsame : F.value k = F.value m := by linarith
        exact Or.inr ⟨hs, h.lower_even m rfl (by rw [← hsame]; exact hs)⟩
  · have hgt : n < k := by omega
    rw [Nat.min_eq_left (by omega)]
    have hupper := h.upper
    have hkn : F.value (n + 1) ≤ F.value k := hmono.monotone hgt
    rw [abs_sub_gt_iff (hmono hgt), eq_comm, abs_sub_eq_iff (hmono hgt)]
    rcases (lt_or_eq_of_le (show 2 * v ≤ F.value k + F.value n by linarith)) with hs | hs
    · exact Or.inl hs
    · have hsame : F.value k = F.value (n + 1) := by linarith
      exact Or.inr ⟨hs.symm, h.upper_even (by rw [← hsame]; exact hs)⟩

/-- Rounding a significand that is long enough gives the pattern of its number. -/
theorem between_round {s d B : Nat} (hv : v * 2 ^ F.scale * 2 ^ d = s * 2 ^ B)
    (hlo : B = 0 ∨ 2 ^ F.fractionBits * 2 ^ d ≤ s)
    (hhi : s ≤ 2 ^ (F.fractionBits + 1) * 2 ^ d) :
    F.Between v (F64.roundHalfEven s (2 ^ d) + 2 ^ F.fractionBits * B) := by
  have hden : 0 < 2 ^ d := Nat.two_pow_pos d
  obtain ⟨hbelow, hbelowEven⟩ := F64.two_mul_roundHalfEven_le s hden
  obtain ⟨habove, haboveEven⟩ := F64.le_two_mul_roundHalfEven s hden
  have hrlo : B = 0 ∨ 2 ^ F.fractionBits ≤ F64.roundHalfEven s (2 ^ d) :=
    hlo.imp_right (F64.le_roundHalfEven hden)
  have hrhi := F64.roundHalfEven_le hden hhi
  generalize F64.roundHalfEven s (2 ^ d) = q at *
  have hunits := patternUnits_significand hrlo hrhi
  have heven : (q + 2 ^ F.fractionBits * B) % 2 = q % 2 := by
    obtain ⟨f, hf⟩ := Nat.exists_eq_succ_of_ne_zero (Nat.ne_of_gt F.fraction_pos)
    rw [hf, pow_succ, Nat.mul_assoc, Nat.mul_left_comm, Nat.add_mul_mod_self_left]
  have hscale : (0 : ℚ) < 2 ^ F.scale * 2 ^ d := by positivity
  have hsum : ∀ a b, (F.value a + F.value b) * (2 ^ F.scale * 2 ^ d) =
      (((patternUnits F.fractionBits a + patternUnits F.fractionBits b) * 2 ^ d : Nat) : ℚ) := by
    intro a b
    rw [value, value]
    push_cast
    rw [← add_div, ← mul_assoc, div_mul_cancel₀ _ (by positivity)]
  have htwice : 2 * v * (2 ^ F.scale * 2 ^ d) = ((2 * (s * 2 ^ B) : Nat) : ℚ) := by
    push_cast
    rw [← hv]
    ring
  have hle : ∀ a b, F.value a + F.value b ≤ 2 * v ↔
      (patternUnits F.fractionBits a + patternUnits F.fractionBits b) * 2 ^ d ≤
        2 * (s * 2 ^ B) := by
    intro a b
    rw [← mul_le_mul_iff_left₀ hscale, hsum, htwice, Nat.cast_le]
  have hge : ∀ a b, 2 * v ≤ F.value a + F.value b ↔ 2 * (s * 2 ^ B) ≤
      (patternUnits F.fractionBits a + patternUnits F.fractionBits b) * 2 ^ d := by
    intro a b
    rw [← mul_le_mul_iff_left₀ hscale, hsum, htwice, Nat.cast_le]
  have hB : 0 < 2 ^ B := Nat.two_pow_pos B
  have hnext := patternUnits_succ F.fractionBits (q + 2 ^ F.fractionBits * B)
  have hgap := Nat.mul_le_mul_right (2 ^ d) (patternUnits_gap hrlo)
  have hbefore : ∀ m, q + 2 ^ F.fractionBits * B = m + 1 →
      q * 2 ^ d ≤ s ∧ patternUnits F.fractionBits m < q * 2 ^ B ∨
        patternUnits F.fractionBits m + 2 ^ B = q * 2 ^ B := by
    intro m hm
    have hstep := patternUnits_succ F.fractionBits m
    rw [← hm, hunits] at hstep
    rcases hlo with hzero | hlo
    · subst hzero
      rw [Nat.mul_zero, Nat.add_zero] at hm
      have hgapBefore := patternUnits_gap_before (f := F.fractionBits) (r := m) (B := 0)
        (Or.inl rfl) (by omega)
      simp only [Nat.mul_zero, Nat.add_zero] at hgapBefore
      right
      rw [hstep, hgapBefore]
    · rcases Nat.lt_or_ge (2 ^ F.fractionBits) q with hlt | hge
      · obtain ⟨p, rfl⟩ := Nat.exists_eq_succ_of_ne_zero (Nat.ne_of_gt (Nat.zero_lt_of_lt hlt))
        have hgapBefore := patternUnits_gap_before (f := F.fractionBits) (r := p) (B := B)
          (Or.inr (Nat.le_of_lt_succ hlt)) hrhi
        have hp : p + 2 ^ F.fractionBits * B = m := by omega
        rw [hp] at hgapBefore
        right
        rw [hstep, hgapBefore]
      · left
        refine ⟨Nat.le_trans (Nat.mul_le_mul_right _ hge) hlo, ?_⟩
        rw [hstep]
        exact Nat.lt_add_of_pos_right (Nat.two_pow_pos _)
  have hbelowB := Nat.mul_le_mul_right (2 ^ B) hbelow
  have haboveB := Nat.mul_le_mul_right (2 ^ B) habove
  constructor
  case lower =>
    intro m hm
    rw [hle, hunits]
    rcases hbefore m hm with ⟨hs, hlt⟩ | heq
    · have hsB := Nat.mul_le_mul_right (2 ^ B) hs
      have hltD := Nat.mul_le_mul_right (2 ^ d) hlt.le
      linarith only [hsB, hltD]
    · have heqD := congrArg (· * 2 ^ d) heq
      linarith only [heqD, hbelowB]
  case lower_even =>
    intro m hm heq
    have heq := (hge _ _).1 heq.ge
    rw [hunits] at heq
    rw [heven]
    rcases hbefore m hm with ⟨hs, hlt⟩ | hm
    · have hsB := Nat.mul_le_mul_right (2 ^ B) hs
      have hltD := Nat.mul_lt_mul_of_pos_right hlt hden
      linarith only [heq, hsB, hltD]
    · have hmD := congrArg (· * 2 ^ d) hm
      apply hbelowEven
      apply Nat.le_antisymm hbelow
      apply Nat.le_of_mul_le_mul_right _ hB
      linarith only [heq, hmD]
  case upper =>
    rw [hge, hunits, hnext, hunits]
    linarith only [haboveB, hgap]
  case upper_even =>
    intro heq
    have heq := (hle _ _).1 heq.ge
    rw [hunits, hnext, hunits] at heq
    rw [heven]
    apply haboveEven
    apply Nat.le_antisymm habove
    apply Nat.le_of_mul_le_mul_right _ hB
    linarith only [heq, hgap]

theorem nearest_mono (hvw : v ≤ w) (hn : F.Nearest v n) (hm : F.Nearest w m) : n ≤ m := by
  by_contra hlt
  have hlt : m < n := Nat.lt_of_not_le hlt
  have hmono := F.value_strictMono
  have hv : F.value n + F.value m ≤ 2 * v ∧ (F.value n + F.value m = 2 * v → n % 2 = 0) := by
    have h := hn.2 m hm.1 (Nat.ne_of_lt hlt)
    rw [abs_sub_lt_iff (hmono hlt), abs_sub_eq_iff (hmono hlt)] at h
    exact ⟨h.elim le_of_lt fun h => h.1.le, fun heq => h.elim (fun h => absurd heq h.ne)
      fun h => h.2⟩
  have hw : 2 * w ≤ F.value n + F.value m ∧ (F.value n + F.value m = 2 * w → m % 2 = 0) := by
    have h := hm.2 n hn.1 (Nat.ne_of_gt hlt)
    rw [abs_sub_gt_iff (hmono hlt), eq_comm, abs_sub_eq_iff (hmono hlt)] at h
    exact ⟨h.elim le_of_lt fun h => h.1.symm.le, fun heq => h.elim (fun h => absurd heq h.ne')
      fun h => h.2⟩
  -- Both are at one midpoint, so both patterns are even, and one between them is nearer.
  have heven := hv.2 (by linarith)
  have heven' := hw.2 (by linarith)
  have h := hn.2 (m + 1) (by have := hn.1; omega) (by omega)
  have hbetween := hmono (show m < m + 1 by omega)
  have hstep := hmono (show m + 1 < n by omega)
  rw [abs_sub_lt_iff hstep, abs_sub_eq_iff hstep] at h
  rcases h with h | h <;> linarith [h]

theorem Nearest.unique (hn : F.Nearest v n) (hm : F.Nearest v m) : n = m :=
  Nat.le_antisymm (nearest_mono le_rfl hn hm) (nearest_mono le_rfl hm hn)

theorem nearest_value (hk : k ≤ F.top) : F.Nearest (F.value k) k := by
  refine ⟨hk, ?_⟩
  intro j _ hne
  left
  rw [sub_self, abs_zero, abs_pos, sub_ne_zero]
  exact fun heq => hne (F.value_strictMono.injective heq).symm

/-- Overflow begins at the midpoint before infinity. -/
theorem nearest_top_iff (htop : F.top = n + 1) (heven : F.top % 2 = 0) (hm : F.Nearest v m) :
    m = F.top ↔ F.value F.top + F.value n ≤ 2 * v := by
  have hmono := F.value_strictMono
  constructor
  · rintro rfl
    have hlt : n < F.top := by omega
    have h := hm.2 n hlt.le (Nat.ne_of_lt hlt)
    rw [abs_sub_lt_iff (hmono hlt), abs_sub_eq_iff (hmono hlt)] at h
    exact h.elim le_of_lt fun h => h.1.le
  · intro hle
    by_contra hne
    have hlt : m < F.top := Nat.lt_of_le_of_ne hm.1 hne
    have h := hm.2 F.top (Nat.le_refl _) (Nat.ne_of_gt hlt)
    have hmn : F.value m ≤ F.value n := hmono.monotone (by omega)
    rw [abs_sub_gt_iff (hmono hlt), eq_comm, abs_sub_eq_iff (hmono hlt)] at h
    rcases h with h | ⟨h, hpar⟩
    · linarith
    · have hsame : F.value m = F.value n := by linarith
      have := hmono.injective hsame
      omega

theorem value_zero : F.value 0 = 0 := by
  simp [value, patternUnits]

theorem value_nonneg (n : Nat) : 0 ≤ F.value n := by
  rw [← F.value_zero]
  exact F.value_strictMono.monotone (Nat.zero_le n)

variable (F)

/-- The number of a pattern, infinity among them. -/
noncomputable def magnitude (n : Nat) : EReal :=
  if n = F.top then ⊤ else ((F.value n : ℝ) : EReal)

noncomputable def extended (neg : Bool) (n : Nat) : EReal :=
  if neg then -F.magnitude n else F.magnitude n

variable {F}

theorem magnitude_le_iff (hn : n ≤ F.top) (hm : m ≤ F.top) :
    F.magnitude n ≤ F.magnitude m ↔ n ≤ m := by
  unfold magnitude
  split
  · rename_i htop
    subst htop
    split
    · rename_i hmt
      simp [hmt]
    · rename_i hmt
      simp only [top_le_iff, EReal.coe_ne_top, false_iff, Nat.not_le]
      omega
  · split
    · rename_i hmt
      simp [hmt, hn]
    · rw [EReal.coe_le_coe_iff, Rat.cast_le, F.value_strictMono.le_iff_le]

theorem magnitude_nonneg (n : Nat) : 0 ≤ F.magnitude n := by
  unfold magnitude
  split
  · exact le_top
  · exact_mod_cast F.value_nonneg n

theorem magnitude_inj (hn : n ≤ F.top) (hm : m ≤ F.top) :
    F.magnitude n = F.magnitude m ↔ n = m := by
  rw [le_antisymm_iff, magnitude_le_iff hn hm, magnitude_le_iff hm hn, Nat.le_antisymm_iff]

theorem magnitude_zero (htop : 0 < F.top) : F.magnitude 0 = 0 := by
  simp [magnitude, htop.ne, value_zero]

variable {G : BinaryFormat} {a b : Nat}

/-- The patterns of one format that stand for a pattern of another. -/
structure Rounds (G F : BinaryFormat) (a n : Nat) : Prop where
  le_top : n ≤ F.top
  infinity : a = G.top → n = F.top
  number : a < G.top → F.Nearest (G.value a) n

theorem Rounds.mono (hn : Rounds G F a n) (hm : Rounds G F b m) (hb : b ≤ G.top) (hab : a ≤ b) :
    n ≤ m := by
  rcases Nat.lt_or_eq_of_le hb with hb | hb
  · exact nearest_mono (G.value_strictMono.monotone hab) (hn.number (by omega)) (hm.number hb)
  · rw [hm.infinity hb]
    exact hn.le_top

theorem Rounds.zero (hn : Rounds G F 0 n) (htop : 0 < G.top) : n = 0 := by
  have h := hn.number htop
  rw [value_zero, ← F.value_zero] at h
  exact h.unique (nearest_value (Nat.zero_le _))

theorem Rounds.extended_le {s t : Bool} (hn : Rounds G F a n) (hm : Rounds G F b m)
    (ha : a ≤ G.top) (hb : b ≤ G.top) (hG : 0 < G.top) (hF : 0 < F.top)
    (hle : G.extended s a ≤ G.extended t b) : F.extended s n ≤ F.extended t m := by
  cases s <;> cases t <;> simp only [extended, Bool.false_eq_true, if_false, if_true] at hle ⊢
  · rw [magnitude_le_iff ha hb] at hle
    rw [magnitude_le_iff hn.le_top hm.le_top]
    exact hn.mono hm hb hle
  · -- Only zero is neither above nor below zero.
    have hnonpos : -G.magnitude b ≤ 0 := by
      simpa using G.magnitude_nonneg b
    have hza : G.magnitude a = G.magnitude 0 := by
      rw [magnitude_zero hG]
      exact le_antisymm (hle.trans hnonpos) (G.magnitude_nonneg a)
    have hzb : G.magnitude b = G.magnitude 0 := by
      rw [magnitude_zero hG]
      apply le_antisymm _ (G.magnitude_nonneg b)
      have h := (G.magnitude_nonneg a).trans hle
      simpa using h
    rw [magnitude_inj ha (Nat.zero_le _)] at hza
    rw [magnitude_inj hb (Nat.zero_le _)] at hzb
    subst hza hzb
    rw [hn.zero hG, hm.zero hG, magnitude_zero hF, neg_zero]
  · have hneg : -F.magnitude n ≤ 0 := by
      simpa using F.magnitude_nonneg n
    exact hneg.trans (F.magnitude_nonneg m)
  · rw [EReal.neg_le_neg_iff, magnitude_le_iff hb ha] at hle
    rw [EReal.neg_le_neg_iff, magnitude_le_iff hm.le_top hn.le_top]
    exact hm.mono hn ha hle

/-- A number of both formats is its own rounding. -/
theorem Rounds.eq_of_magnitude (hn : Rounds G F a n) (hk : k ≤ F.top) (ha : a ≤ G.top)
    (heq : G.magnitude a = F.magnitude k) : n = k := by
  rcases Nat.lt_or_eq_of_le ha with ha | ha
  · have hne : k ≠ F.top := by
      rintro rfl
      simp [magnitude, ha.ne] at heq
    rw [magnitude, magnitude, if_neg ha.ne, if_neg hne, EReal.coe_eq_coe_iff, Rat.cast_inj] at heq
    have h := hn.number ha
    rw [heq] at h
    exact h.unique (nearest_value hk)
  · rw [hn.infinity ha]
    rw [magnitude, if_pos ha, magnitude] at heq
    split at heq
    · rename_i htop
      exact htop.symm
    · exact absurd heq.symm (EReal.coe_ne_top _)

end BinaryFormat

end Slag
