import Mathlib.Algebra.Order.Floor.Semiring
import Mathlib.Data.Rat.Cast.Order
import Mathlib.Tactic.FieldSimp
import Slag.Crux.BigU
import Slag.Lib.Float64

/-!
Numbers as dyadic rationals (`number.rs`): the mantissa and exponent of a number, its
exact fraction, and the digits of the part below the point.
-/

namespace Slag.Crux

/-- The exponent and the fraction of the bits; a NaN is the canonical one. -/
def fields : F64 → Nat × Nat
  | .nan => (0x7FF, 2 ^ 51)
  | .infinity _ => (0x7FF, 0)
  | .finite _ exponent mantissa => (exponent, mantissa)

def decompose (x : F64) : Nat × Int :=
  let (biased, fraction) := fields x
  if biased = 0 then (fraction, -1074) else (fraction ||| 1 <<< 52, biased - 1075)

def exactFraction (x : F64) : BigU × Nat :=
  let (mantissa, exp) := decompose x
  if 0 ≤ exp then ((BigU.fromU64 (UInt64.ofNat mantissa)).shl exp.toNat, 0)
  else (BigU.fromU64 (UInt64.ofNat mantissa), (-exp).toNat)

/-- The digits of `fraction / 2 ^ p`, and what is left after `guard` of them. -/
def fractionDigits (radix : Radix) (p : Nat) : Nat → BigU → List UInt64 × BigU
  | 0, fraction => ([], fraction)
  | guard + 1, fraction =>
    if fraction.isZero then ([], fraction)
    else
      let scaled := fraction.mulSmall radix.limb
      let digit := (scaled.shr p).getLimb 0
      let (digits, rest) := fractionDigits radix p guard (scaled.mask p)
      (digit :: digits, rest)

/-- The magnitude of a finite number. -/
def exactValue (x : F64) : ℚ := x.toUnits.natAbs / 2 ^ 1074

theorem decompose_spec {x : F64} (h : x.isFinite) :
    (decompose x).1 < 2 ^ 53 ∧ -1074 ≤ (decompose x).2 ∧ (decompose x).2 ≤ 971 ∧
      (decompose x).1 * 2 ^ ((decompose x).2 + 1074).toNat = x.toUnits.natAbs := by
  cases x with
  | nan => cases h
  | infinity neg => cases h
  | finite neg exponent mantissa =>
      have hunits : (F64.finite neg exponent mantissa).toUnits.natAbs =
          F64.units exponent mantissa := by
        cases neg <;> simp [F64.toUnits]
      have hmantissa := mantissa.isLt
      have hexponent := exponent.isLt
      rw [hunits]
      unfold decompose fields F64.units
      dsimp only
      split
      · exact ⟨by omega, by omega, by omega, by simp⟩
      · have hor : (mantissa : Nat) ||| 1 <<< 52 = 2 ^ 52 + mantissa := by
          rw [Nat.or_comm, ← Nat.shiftLeft_add_eq_or_of_lt hmantissa, Nat.shiftLeft_eq, Nat.one_mul]
        have hshift : ((exponent : Int) - 1075 + 1074).toNat = exponent - 1 := by omega
        dsimp only
        rw [hor, hshift]
        exact ⟨by omega, by omega, by omega, rfl⟩

theorem toNat_mantissa {x : F64} (h : x.isFinite) :
    (UInt64.ofNat (decompose x).1).toNat = (decompose x).1 := by
  have := (decompose_spec h).1
  rw [UInt64.toNat_ofNat']
  omega

theorem exactFraction_spec {x : F64} (h : x.isFinite) :
    ((exactFraction x).1.value : ℚ) / 2 ^ (exactFraction x).2 = exactValue x ∧
      (exactFraction x).2 ≤ 1074 := by
  obtain ⟨_, hlow, _, hunits⟩ := decompose_spec h
  have hmantissa := toNat_mantissa h
  unfold exactFraction exactValue
  rw [← hunits]
  generalize decompose x = p at *
  obtain ⟨m, exp⟩ := p
  dsimp only at *
  split
  · have hshift : (exp + 1074).toNat = exp.toNat + 1074 := by omega
    rw [BigU.value_shl, BigU.value_fromU64, hmantissa, hshift, pow_add]
    refine ⟨?_, Nat.zero_le _⟩
    push_cast
    rw [pow_zero, div_one, ← mul_assoc, mul_div_cancel_right₀ _ (pow_ne_zero 1074 two_ne_zero)]
  · have hshift : (exp + 1074).toNat + (-exp).toNat = 1074 := by omega
    rw [BigU.value_fromU64, hmantissa]
    refine ⟨?_, by omega⟩
    rw [div_eq_div_iff (by positivity) (by positivity), ← hshift, pow_add]
    push_cast
    ring

theorem exactValue_pos {x : F64} (h : x.toUnits ≠ 0) : 0 < exactValue x := by
  unfold exactValue
  have := Int.natAbs_pos.mpr h
  positivity

section fractionDigits

variable (radix : Radix) (p : Nat)

theorem fractionDigits_spec (guard : Nat) {fraction : BigU} (h : fraction.value < 2 ^ p) :
    fraction.value * radix.value ^ (fractionDigits radix p guard fraction).1.length =
        Numeral.value radix.value ((fractionDigits radix p guard fraction).1.map UInt64.toNat) *
          2 ^ p + (fractionDigits radix p guard fraction).2.value ∧
      ∀ d ∈ (fractionDigits radix p guard fraction).1, d.toNat < radix.value := by
  induction guard generalizing fraction with
  | zero => simp [fractionDigits]
  | succ guard ih =>
      rw [fractionDigits]
      split
      · simp
      · have hpos := Nat.two_pow_pos p
        have hdigit : fraction.value * radix.value / 2 ^ p < radix.value := by
          rw [Nat.div_lt_iff_lt_mul hpos, Nat.mul_comm]
          exact Nat.mul_lt_mul_of_pos_left h radix.pos
        have htoNat : (((fraction.mulSmall radix.limb).shr p).getLimb 0).toNat =
            fraction.value * radix.value / 2 ^ p := by
          rw [BigU.toNat_getLimb, BigU.value_shr, BigU.value_mulSmall, radix.toNat_limb, Nat.mul_zero,
            pow_zero, Nat.div_one]
          have := radix.le_max
          exact Nat.mod_eq_of_lt (by omega)
        have hmask : ((fraction.mulSmall radix.limb).mask p).value =
            fraction.value * radix.value % 2 ^ p := by
          rw [BigU.value_mask, BigU.value_mulSmall, radix.toNat_limb]
        have hlt : ((fraction.mulSmall radix.limb).mask p).value < 2 ^ p := by
          rw [hmask]
          exact Nat.mod_lt _ hpos
        obtain ⟨hvalue, hdigits⟩ := ih hlt
        have hsplit := Nat.div_add_mod (fraction.value * radix.value) (2 ^ p)
        dsimp only
        constructor
        · rw [List.length_cons, pow_succ', ← Nat.mul_assoc, List.map_cons, Numeral.value_cons, htoNat,
            List.length_map, Nat.add_mul, Nat.add_assoc, ← hvalue, hmask]
          nth_rewrite 1 [← hsplit]
          ring
        · intro d hd
          rcases List.mem_cons.mp hd with rfl | hd
          · rw [htoNat]
            exact hdigit
          · exact hdigits d hd

/-- Each digit in an even base leaves one binary place fewer. -/
theorem fractionDigits_rest (heven : 2 ∣ radix.value) {guard k : Nat} {fraction : BigU}
    (h : fraction.value < 2 ^ p) (hdvd : 2 ^ k ∣ fraction.value) (hguard : p ≤ k + guard) :
    (fractionDigits radix p guard fraction).2.isZero := by
  induction guard generalizing fraction k with
  | zero =>
      rw [fractionDigits, BigU.isZero_iff]
      apply Nat.eq_zero_of_dvd_of_lt hdvd
      exact Nat.lt_of_lt_of_le h (Nat.pow_le_pow_right (by decide) hguard)
  | succ guard ih =>
      rw [fractionDigits]
      split
      · assumption
      · have hmask : ((fraction.mulSmall radix.limb).mask p).value =
            fraction.value * radix.value % 2 ^ p := by
          rw [BigU.value_mask, BigU.value_mulSmall, radix.toNat_limb]
        have hscaled : 2 ^ (k + 1) ∣ fraction.value * radix.value := by
          rw [pow_succ]
          exact Nat.mul_dvd_mul hdvd heven
        rcases Nat.le_total (k + 1) p with hk | hk
        · apply ih (k := k + 1)
          · rw [hmask]
            exact Nat.mod_lt _ (Nat.two_pow_pos p)
          · rw [hmask]
            exact (Nat.dvd_mod_iff (Nat.pow_dvd_pow 2 hk)).mpr hscaled
          · omega
        · apply ih (k := p)
          · rw [hmask]
            exact Nat.mod_lt _ (Nat.two_pow_pos p)
          · rw [hmask, Nat.mod_eq_zero_of_dvd (Nat.dvd_trans (Nat.pow_dvd_pow 2 hk) hscaled)]
            exact Nat.dvd_zero _
          · omega

end fractionDigits

end Slag.Crux
