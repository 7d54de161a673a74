import Mathlib.Data.Int.Log
import Slag.Crux.Float16
import Slag.Crux.RadixExact

/-!
The odd bases: the numeral that is found reads back as the number wherever the point
is put in the right place, which below one rests on the platform's logarithm alone.
-/

namespace Slag.Crux

open BigU (cmp_eq fromU64 value_addSmall value_fromU64 value_mulSmall value_shl value_shr value_sub)
open Float16 (binary64)
open Numeral (digitChar parsePoint)

/-- The bits of a finite number without its sign. -/
def pattern : F64 → Nat
  | .finite _ exponent mantissa => exponent * 2 ^ 52 + mantissa
  | _ => 0

theorem isPowerOfTwo_significand {F : Nat} (hF : F < 2 ^ 52) :
    isPowerOfTwo (2 ^ 52 + F) = true ↔ F = 0 := by
  have hlog : (2 ^ 52 + F).log2 = 52 := by
    rw [Nat.log2_eq_iff (by omega)]
    omega
  rw [isPowerOfTwo, hlog, Bool.and_eq_true, beq_iff_eq, decide_eq_true_iff]
  omega

section bounds

variable {x : F64} (h : x.isFinite)
include h

theorem patternUnits_pattern : patternUnits 52 (pattern x) = x.toUnits.natAbs := by
  cases x with
  | nan => cases h
  | infinity neg => cases h
  | finite neg e m =>
      have hdiv : ((e : Nat) * 2 ^ 52 + m) / 2 ^ 52 = e := by omega
      have hmod : ((e : Nat) * 2 ^ 52 + m) % 2 ^ 52 = m := by omega
      have hunits : (F64.finite neg e m).toUnits.natAbs = F64.units e m := by
        cases neg <;> simp [F64.toUnits]
      rw [hunits, pattern, patternUnits, hdiv, hmod, F64.units]

theorem pattern_ne_zero (hne : x.toUnits ≠ 0) : pattern x ≠ 0 := by
  intro hzero
  have hunits := patternUnits_pattern h
  rw [hzero] at hunits
  exact absurd hunits.symm (by simpa [patternUnits] using hne)

theorem pattern_lt_top : pattern x < binary64.top := by
  cases x with
  | nan => cases h
  | infinity neg => cases h
  | finite neg e m =>
      have htop : binary64.top = 2047 * 2 ^ 52 := rfl
      rw [htop, pattern]
      omega

theorem value_scaled (k : Nat) :
    ((fromU64 (UInt64.ofNat (decompose x).1)).shl ((decompose x).2 + (1074 + k : Nat)).toNat).value =
      x.toUnits.natAbs * 2 ^ k := by
  obtain ⟨_, hlow, _, hunits⟩ := decompose_spec h
  have hshift : ((decompose x).2 + (1074 + k : Nat)).toNat = ((decompose x).2 + 1074).toNat + k := by
    omega
  rw [value_shl, value_fromU64, toNat_mantissa h, hshift, pow_add, ← Nat.mul_assoc, hunits]

/-- The mantissa and the exponent are fields of the pattern. -/
theorem decompose_pattern :
    (decompose x = (pattern x, -1074) ∧ pattern x < 2 ^ 52) ∨
      ∃ E F : Nat, decompose x = (2 ^ 52 + F, (E : Int) - 1074) ∧ F < 2 ^ 52 ∧
        pattern x = (E + 1) * 2 ^ 52 + F := by
  cases x with
  | nan => cases h
  | infinity neg => cases h
  | finite neg e m =>
      have hm := m.isLt
      unfold decompose fields pattern
      dsimp only
      split
      · left
        rename_i hzero
        rw [hzero, Nat.zero_mul, Nat.zero_add]
        exact ⟨rfl, hm⟩
      · right
        rename_i hne
        obtain ⟨E, hE⟩ := Nat.exists_eq_succ_of_ne_zero hne
        have hor : (m : Nat) ||| 1 <<< 52 = 2 ^ 52 + m := by
          rw [Nat.or_comm, ← Nat.shiftLeft_add_eq_or_of_lt hm, Nat.shiftLeft_eq, Nat.one_mul]
        refine ⟨E, m, ?_, hm, by rw [hE]⟩
        rw [hor, hE]
        congr 1
        omega

/-- The ends are the midpoints to the numbers next to it. -/
theorem roundingBounds_spec (hne : x.toUnits ≠ 0) :
    (roundingBounds (decompose x).1 (decompose x).2).1.value + 2 ^ ((pattern x - 1) / 2 ^ 52 - 1) =
        2 * x.toUnits.natAbs ∧
      (roundingBounds (decompose x).1 (decompose x).2).2.1.value =
        2 * x.toUnits.natAbs + 2 ^ (pattern x / 2 ^ 52 - 1) ∧
      (roundingBounds (decompose x).1 (decompose x).2).2.2 = decide (pattern x % 2 = 0) := by
  have hvalue : ((fromU64 (UInt64.ofNat (decompose x).1)).shl
      ((decompose x).2 + 1075).toNat).value = 2 * x.toUnits.natAbs := by
    rw [Nat.mul_comm]
    exact value_scaled h 1
  have hunits := patternUnits_pattern h
  have hshl : ∀ k, ((fromU64 1).shl k).value = 2 ^ k := by
    intro k
    rw [value_shl, value_fromU64]
    exact Nat.one_mul _
  -- The step down is not above the number.
  have hdown : 2 ^ ((pattern x - 1) / 2 ^ 52 - 1) ≤ 2 * x.toUnits.natAbs := by
    have hstep := patternUnits_succ 52 (pattern x - 1)
    rw [Nat.sub_add_cancel (Nat.pos_of_ne_zero (pattern_ne_zero h hne)), hunits] at hstep
    omega
  unfold roundingBounds
  rcases decompose_pattern h with ⟨hd, hlt⟩ | ⟨E, F, hd, hF, hN⟩
  · have hlast : (pattern x - 1) / 2 ^ 52 - 1 = 0 := by omega
    have hfirst : pattern x / 2 ^ 52 - 1 = 0 := by omega
    have hone : (fromU64 1).value = 1 := value_fromU64 1
    rw [hlast] at hdown
    rw [hd] at hvalue ⊢
    rw [hlast, hfirst]
    dsimp only at hvalue ⊢
    rw [if_pos (show pattern x < 1 <<< 52 from hlt)]
    dsimp only
    rw [value_sub (by rw [hvalue, hone]; exact hdown), BigU.value_add, hvalue, hone]
    exact ⟨by omega, rfl, rfl⟩
  · have hfirst : pattern x / 2 ^ 52 - 1 = E := by omega
    have heven : (2 ^ 52 + F) % 2 = pattern x % 2 := by omega
    rw [hd] at hvalue ⊢
    rw [hfirst]
    dsimp only at hvalue ⊢
    rw [if_neg (show ¬ 2 ^ 52 + F < 1 <<< 52 by simp)]
    have hhalf : (if isPowerOfTwo (2 ^ 52 + F) = true ∧ -1074 < (E : Int) - 1074 then
        (fromU64 1).shl ((E : Int) - 1074 + 1073).toNat
        else (fromU64 1).shl ((E : Int) - 1074 + 1074).toNat).value =
        2 ^ ((pattern x - 1) / 2 ^ 52 - 1) := by
      simp only [isPowerOfTwo_significand hF]
      split
      · rename_i hfirst
        rw [hshl]
        congr 1
        omega
      · rename_i hother
        rw [hshl]
        congr 1
        omega
    dsimp only
    rw [value_sub (by rw [hvalue, hhalf]; exact hdown), BigU.value_add, hvalue, hhalf, hshl,
      heven]
    refine ⟨by omega, ?_, rfl⟩
    congr 2
    omega

end bounds

theorem value_mulSmall_pow (b : UInt64) (u : BigU) (n : Nat) :
    ((fun u : BigU => u.mulSmall b)^[n] u).value = u.value * b.toNat ^ n := by
  induction n with
  | zero => simp
  | succ n ih => rw [Function.iterate_succ_apply', value_mulSmall, ih, pow_succ, Nat.mul_assoc]

theorem value_powSmall (b : UInt64) (n : Nat) : (powSmall b n).value = b.toNat ^ n := by
  rw [powSmall, value_mulSmall_pow, value_fromU64]
  exact Nat.one_mul _

variable {n : Int}

section logarithm

variable {x : F64} (h : x.isFinite) {radix : Radix}
include h

/-- The comparisons are with powers of the base. -/
theorem adjust_eq (fuel : Nat) (n : Int) :
    adjust ((fromU64 (UInt64.ofNat (decompose x).1)).shl ((decompose x).2 + 1074).toNat)
        radix.limb (fuel + 1) n =
      if (radix.value : ℚ) ^ n.toNat < exactValue x then
        adjust ((fromU64 (UInt64.ofNat (decompose x).1)).shl ((decompose x).2 + 1074).toNat)
          radix.limb fuel (n + 1)
      else if 1 < n ∧ exactValue x < (radix.value : ℚ) ^ (n - 1).toNat then
        adjust ((fromU64 (UInt64.ofNat (decompose x).1)).shl ((decompose x).2 + 1074).toNat)
          radix.limb fuel (n - 1)
      else some n := by
  have hvalue : ((fromU64 (UInt64.ofNat (decompose x).1)).shl
      ((decompose x).2 + 1074).toNat).value = x.toUnits.natAbs := by
    have hscaled := value_scaled h 0
    rw [pow_zero, Nat.mul_one] at hscaled
    exact hscaled
  have hpow : ∀ k, ((powSmall radix.limb k).shl 1074).value = radix.value ^ k * 2 ^ 1074 := by
    intro k
    rw [value_shl, value_powSmall, radix.toNat_limb]
  have hlt : ∀ k, radix.value ^ k * 2 ^ 1074 < x.toUnits.natAbs ↔
      (radix.value : ℚ) ^ k < exactValue x := by
    intro k
    rw [exactValue, lt_div_iff₀ (by positivity)]
    exact_mod_cast Iff.rfl
  have hgt : ∀ k, x.toUnits.natAbs < radix.value ^ k * 2 ^ 1074 ↔
      exactValue x < (radix.value : ℚ) ^ k := by
    intro k
    rw [exactValue, div_lt_iff₀ (by positivity)]
    exact_mod_cast Iff.rfl
  rw [adjust]
  simp only [cmp_eq, hvalue, hpow, compare_gt_iff_gt, compare_lt_iff_lt, hlt, hgt]

/-- Below one the estimate is left as it is. -/
theorem adjust_below (hv : exactValue x < 1) (fuel : Nat) (hn : n ≤ 1) :
    adjust ((fromU64 (UInt64.ofNat (decompose x).1)).shl ((decompose x).2 + 1074).toNat)
      radix.limb (fuel + 1) n = some n := by
  have hone : (1 : ℚ) ≤ (radix.value : ℚ) ^ n.toNat :=
    one_le_pow₀ (by exact_mod_cast radix.pos)
  rw [adjust_eq h, if_neg (not_lt.mpr (hv.le.trans hone)), if_neg (by omega)]

theorem adjust_above (hv : 1 < exactValue x) (hpow : ∀ k : Nat, exactValue x ≠ (radix.value : ℚ) ^ k)
    (hlow : Int.log radix.value (exactValue x) ≤ n) (hhigh : n ≤ Int.log radix.value (exactValue x) + 2) :
    adjust ((fromU64 (UInt64.ofNat (decompose x).1)).shl ((decompose x).2 + 1074).toNat)
      radix.limb 2 n = some (Int.log radix.value (exactValue x) + 1) := by
  have hpos : (0 : ℚ) < exactValue x := zero_lt_one.trans hv
  have hle : ∀ k : Nat, (radix.value : ℚ) ^ k ≤ exactValue x ↔
      (k : Int) ≤ Int.log radix.value (exactValue x) := by
    intro k
    rw [← Int.zpow_le_iff_le_log radix.two_le hpos, zpow_natCast]
  have hlt : ∀ k : Nat, (radix.value : ℚ) ^ k < exactValue x ↔
      (k : Int) ≤ Int.log radix.value (exactValue x) := by
    intro k
    rw [← hle, lt_iff_le_and_ne]
    exact ⟨And.left, fun hle => ⟨hle, (hpow k).symm⟩⟩
  have hgt : ∀ k : Nat, exactValue x < (radix.value : ℚ) ^ k ↔
      Int.log radix.value (exactValue x) < (k : Int) := by
    intro k
    rw [← not_le, hle, not_le]
  have hnonneg : 0 ≤ Int.log radix.value (exactValue x) := by
    have hzero := (hle 0).mp (by rw [pow_zero]; exact hv.le)
    exact_mod_cast hzero
  generalize Int.log radix.value (exactValue x) = L at *
  have hstay : adjust ((fromU64 (UInt64.ofNat (decompose x).1)).shl
      ((decompose x).2 + 1074).toNat) radix.limb 1 (L + 1) = some (L + 1) := by
    rw [adjust_eq h]
    simp only [hlt, hgt]
    rw [if_neg (by omega), if_neg (by omega)]
  rw [adjust_eq h]
  simp only [hlt, hgt]
  rcases (show n = L ∨ n = L + 1 ∨ n = L + 2 by omega) with rfl | rfl | rfl
  · rw [if_pos (by omega), hstay]
  · rw [if_neg (by omega), if_neg (by omega)]
  · rw [if_neg (by omega), if_pos (by omega), show L + 2 - 1 = L + 1 by ring, hstay]

/-- A number with a power of an odd base as its value is an integer of 53 bits. -/
theorem ne_odd_pow (hint : ∀ k : Nat, k < 2 ^ 53 → exactValue x ≠ k)
    (hodd : radix.value % 2 = 1) (k : Nat) : exactValue x ≠ (radix.value : ℚ) ^ k := by
  intro heq
  obtain ⟨hmantissa, hlow, _, hunits⟩ := decompose_spec h
  have hoddPow : radix.value ^ k % 2 = 1 := by rw [Nat.pow_mod, hodd, Nat.one_pow]
  have hlarge : 2 ^ 53 ≤ radix.value ^ k := by
    by_contra hsmall
    exact hint _ (Nat.lt_of_not_le hsmall) (by rw [heq]; push_cast; rfl)
  rw [exactValue, div_eq_iff (by positivity)] at heq
  have heq : x.toUnits.natAbs = radix.value ^ k * 2 ^ 1074 := by exact_mod_cast heq
  rw [heq] at hunits
  generalize decompose x = d at *
  obtain ⟨m, exp⟩ := d
  dsimp only at *
  rcases lt_or_ge 0 exp with hexp | hexp
  · have hshift : (exp + 1074).toNat = 1 + ((exp - 1).toNat + 1074) := by omega
    rw [hshift, pow_add, pow_add _ _ 1074, ← Nat.mul_assoc, ← Nat.mul_assoc] at hunits
    have hcancel := Nat.eq_of_mul_eq_mul_right (Nat.two_pow_pos 1074) hunits
    rw [← hcancel, pow_one, Nat.mul_assoc, Nat.mul_left_comm, Nat.mul_mod_right] at hoddPow
    exact absurd hoddPow (by decide)
  · have hle : 2 ^ (exp + 1074).toNat ≤ 2 ^ 1074 := Nat.pow_le_pow_right (by decide) (by omega)
    have hmul := Nat.mul_le_mul_left m hle
    rw [hunits] at hmul
    have := Nat.le_of_mul_le_mul_right hmul (Nat.two_pow_pos 1074)
    omega

end logarithm

section multiples

variable {r unit : Nat} (hr : r < unit) (q d : Nat)
include hr

theorem le_multiple_iff : unit * q + r ≤ d * unit ↔ q < d ∨ q = d ∧ r = 0 := by
  rw [Nat.mul_comm d]
  rcases Nat.lt_trichotomy q d with hlt | rfl | hgt
  · have := Nat.mul_le_mul_left unit (show q + 1 ≤ d from hlt)
    rw [Nat.mul_succ] at this
    omega
  · omega
  · have := Nat.mul_le_mul_left unit (show d + 1 ≤ q from hgt)
    rw [Nat.mul_succ] at this
    omega

theorem multiple_le_iff : d * unit ≤ unit * q + r ↔ d ≤ q := by
  rw [Nat.mul_comm d]
  rcases Nat.lt_or_ge q d with hlt | hge
  · have := Nat.mul_le_mul_left unit (show q + 1 ≤ d from hlt)
    rw [Nat.mul_succ] at this
    omega
  · have := Nat.mul_le_mul_left unit hge
    omega

theorem eq_multiple_iff : unit * q + r = d * unit ↔ q = d ∧ r = 0 := by
  have hle := le_multiple_iff hr q d
  have hge := multiple_le_iff hr q d
  omega

end multiples

variable {radix : Radix}

namespace Scaled

/-- A significand of the length that is searched, in the rounding interval. -/
structure Fits (s : Scaled) (even : Bool) (d : Nat) : Prop where
  least : s.powMinus.value ≤ d
  last : d < s.pow.value
  lower : s.low.value ≤ d * 2 ^ 1075
  upper : d * 2 ^ 1075 ≤ s.high.value
  ends : even = false → s.low.value ≠ d * 2 ^ 1075 ∧ s.high.value ≠ d * 2 ^ 1075

variable {s : Scaled} {even : Bool}

theorem value_clampLow (a m : BigU) :
    (if BigU.cmp a m = .lt then m else a).value = max m.value a.value := by
  simp only [cmp_eq, compare_lt_iff_lt]
  split <;> omega

theorem value_clampHigh (a m : BigU) :
    (if BigU.cmp a m = .gt then m else a).value = min m.value a.value := by
  simp only [cmp_eq, compare_gt_iff_gt]
  split <;> omega

theorem isZero_mask (u : BigU) : (u.mask 1075).isZero = decide (u.value % 2 ^ 1075 = 0) := by
  rw [Bool.eq_iff_iff, BigU.isZero_iff, BigU.value_mask, decide_eq_true_iff]

theorem value_sMin : (s.bounds even).1.value = max s.powMinus.value
    (s.low.value / 2 ^ 1075 + if s.low.value % 2 ^ 1075 = 0 ∧ even = true then 0 else 1) := by
  unfold bounds
  dsimp only
  rw [value_clampLow, isZero_mask]
  congr 1
  have hone : (1 : UInt64).toNat = 1 := rfl
  by_cases hzero : s.low.value % 2 ^ 1075 = 0
  · cases even with
    | true =>
        simp only [hzero, decide_true, Bool.not_true, Bool.false_and, Bool.false_eq_true, if_false,
          if_true, and_self, value_shr, Nat.add_zero]
    | false =>
        simp only [hzero, decide_true, Bool.not_false, Bool.and_self, Bool.false_eq_true, if_true,
          and_false, if_false, value_addSmall, value_shr, hone]
  · simp only [hzero, decide_false, Bool.and_false, Bool.false_eq_true, if_false, false_and,
      value_addSmall, value_shr, hone]

theorem value_sMax (hpow : 0 < s.pow.value) (hhigh : 0 < s.high.value) :
    (s.bounds even).2.value = min (s.pow.value - 1)
      (s.high.value / 2 ^ 1075 - if s.high.value % 2 ^ 1075 = 0 ∧ even = false then 1 else 0) := by
  have hone : (fromU64 1).value = 1 := value_fromU64 1
  unfold bounds
  dsimp only
  rw [value_clampHigh, isZero_mask, value_sub (by rw [hone]; exact hpow), hone]
  congr 1
  by_cases hzero : s.high.value % 2 ^ 1075 = 0
  · have hle : 1 ≤ (s.high.shr 1075).value := by
      rw [value_shr]
      have hsplit := Nat.div_add_mod s.high.value (2 ^ 1075)
      rw [hzero, Nat.add_zero] at hsplit
      rw [← hsplit] at hhigh
      exact Nat.pos_of_mul_pos_left hhigh
    cases even with
    | true =>
        simp only [hzero, Bool.not_true, Bool.false_and, Bool.false_eq_true, if_false,
          Bool.true_eq_false, and_false, value_shr, Nat.sub_zero]
    | false =>
        simp only [hzero, Bool.not_false, decide_true, Bool.and_self, if_true, and_self]
        rw [value_sub (by rw [hone]; exact hle), hone, value_shr]
  · simp only [hzero, decide_false, Bool.and_false, Bool.false_eq_true, if_false, false_and,
      value_shr, Nat.sub_zero]

theorem bounds_iff (hpow : 0 < s.pow.value) (hhigh : 0 < s.high.value) (d : Nat) :
    (s.bounds even).1.value ≤ d ∧ d ≤ (s.bounds even).2.value ↔ s.Fits even d := by
  have hfits : s.Fits even d ↔ s.powMinus.value ≤ d ∧ d < s.pow.value ∧
      s.low.value ≤ d * 2 ^ 1075 ∧ d * 2 ^ 1075 ≤ s.high.value ∧
      (even = false → s.low.value ≠ d * 2 ^ 1075 ∧ s.high.value ≠ d * 2 ^ 1075) :=
    ⟨fun f => ⟨f.least, f.last, f.lower, f.upper, f.ends⟩, fun ⟨a, b, c, e, f⟩ => ⟨a, b, c, e, f⟩⟩
  rw [value_sMin, value_sMax hpow hhigh, hfits]
  have hlow := Nat.div_add_mod s.low.value (2 ^ 1075)
  have hlowLt := Nat.mod_lt s.low.value (Nat.two_pow_pos 1075)
  have hup := Nat.div_add_mod s.high.value (2 ^ 1075)
  have hupLt := Nat.mod_lt s.high.value (Nat.two_pow_pos 1075)
  have hle := le_multiple_iff hlowLt (s.low.value / 2 ^ 1075) d
  have heq := eq_multiple_iff hlowLt (s.low.value / 2 ^ 1075) d
  have hge := multiple_le_iff hupLt (s.high.value / 2 ^ 1075) d
  have heqUp := eq_multiple_iff hupLt (s.high.value / 2 ^ 1075) d
  rw [hlow] at hle heq
  rw [hup] at hge heqUp
  rw [hle, hge, ne_eq, ne_eq, heq, heqUp]
  have hnotBoth : s.high.value % 2 ^ 1075 = 0 → s.high.value / 2 ^ 1075 ≠ 0 := by
    intro hzero hdiv
    rw [hzero, hdiv, Nat.mul_zero] at hup
    exact hhigh.ne hup
  generalize s.low.value / 2 ^ 1075 = q at *
  generalize s.low.value % 2 ^ 1075 = t at *
  generalize s.high.value / 2 ^ 1075 = Q at *
  generalize s.high.value % 2 ^ 1075 = T at *
  clear hlow hlowLt hup hupLt hle heq hge heqUp hfits
  cases even with
  | true =>
      simp only [and_true, Bool.true_eq_false, and_false, if_false, false_implies]
      split <;> omega
  | false =>
      simp only [Bool.false_eq_true, and_false, if_false, and_true, true_implies]
      split <;> omega

theorem choose_fits (hpow : 0 < s.pow.value) (hhigh : 0 < s.high.value) {d : BigU}
    (h : s.choose even = some d) : s.Fits even d.value := by
  rw [← bounds_iff hpow hhigh]
  unfold choose at h
  simp only [cmp_eq, compare_lt_iff_lt, compare_gt_iff_gt, ne_eq, not_lt] at h
  split at h
  · rename_i hle
    split at h
    · obtain rfl := Option.some.inj h
      exact ⟨Nat.le_refl _, hle⟩
    · split at h
      · obtain rfl := Option.some.inj h
        exact ⟨hle, Nat.le_refl _⟩
      · obtain rfl := Option.some.inj h
        omega
  · cases h

theorem exists_choose (hpow : 0 < s.pow.value) (hhigh : 0 < s.high.value) {d : Nat}
    (h : s.Fits even d) : ∃ e, s.choose even = some e := by
  rw [← bounds_iff hpow hhigh] at h
  unfold choose
  simp only [cmp_eq, compare_lt_iff_lt, compare_gt_iff_gt, ne_eq, not_lt]
  rw [if_pos (Nat.le_trans h.1 h.2)]
  split
  · exact ⟨_, rfl⟩
  · split <;> exact ⟨_, rfl⟩

/-- The state of the search, `M` multiplications after the start of the scale. -/
structure At (lo hi b M k : Nat) (s : Scaled) : Prop where
  low : s.low.value = lo * b ^ M
  high : s.high.value = hi * b ^ M
  powMinus : s.powMinus.value * b = b ^ k
  pow : s.pow.value = b ^ k

theorem At.next {lo hi b M k : Nat} (hb : radix.value = b) (h : s.At lo hi b M k) :
    (s.next radix.limb).At lo hi b (M + 1) (k + 1) := by
  constructor
  case low => rw [Scaled.next, value_mulSmall, h.low, radix.toNat_limb, hb, pow_succ, Nat.mul_assoc]
  case high => rw [Scaled.next, value_mulSmall, h.high, radix.toNat_limb, hb, pow_succ, Nat.mul_assoc]
  case powMinus => rw [Scaled.next, value_mulSmall, radix.toNat_limb, hb, h.powMinus, pow_succ]
  case pow => rw [Scaled.next, value_mulSmall, h.pow, radix.toNat_limb, hb, pow_succ]

end Scaled

/-- A significand of `k` digits whose number is in the interval. -/
structure Admissible (lo hi : Nat) (even : Bool) (b M k d : Nat) : Prop where
  least : b ^ k ≤ d * b
  last : d < b ^ k
  lower : lo * b ^ M ≤ d * 2 ^ 1075
  upper : d * 2 ^ 1075 ≤ hi * b ^ M
  ends : even = false → lo * b ^ M ≠ d * 2 ^ 1075 ∧ hi * b ^ M ≠ d * 2 ^ 1075

section search

variable {lo hi b M k : Nat} {even : Bool} {radix : Radix} (hb : radix.value = b)
include hb

theorem Scaled.At.fits_iff {s : Scaled} (h : s.At lo hi b M k) (d : Nat) :
    s.Fits even d ↔ Admissible lo hi even b M k d := by
  have hpos : 0 < b := by
    rw [← hb]
    exact radix.pos
  have hleast : s.powMinus.value ≤ d ↔ b ^ k ≤ d * b := by
    rw [← h.powMinus]
    exact (Nat.mul_le_mul_right_iff hpos).symm
  constructor
  · intro f
    constructor
    case least => exact hleast.mp f.least
    case last => rw [← h.pow]; exact f.last
    case lower => rw [← h.low]; exact f.lower
    case upper => rw [← h.high]; exact f.upper
    case ends => rw [← h.low, ← h.high]; exact f.ends
  · intro f
    constructor
    case least => exact hleast.mpr f.least
    case last => rw [h.pow]; exact f.last
    case lower => rw [h.low]; exact f.lower
    case upper => rw [h.high]; exact f.upper
    case ends => rw [h.low, h.high]; exact f.ends

/-- The search ends at the first length that has a significand. -/
theorem searchDigits_spec (hhi : 0 < hi) {left j : Nat} {s : Scaled} (h : s.At lo hi b M k) (hj : j < left) {d : Nat}
    (hd : Admissible lo hi even b (M + j) (k + j) d) :
    ∃ e i, searchDigits even radix.limb left k s = some (e, k + i) ∧
      Admissible lo hi even b (M + i) (k + i) e.value := by
  have hpos : 0 < b := by
    rw [← hb]
    exact radix.pos
  induction left generalizing j s M k with
  | zero => omega
  | succ left ih =>
      have hpow : 0 < s.pow.value := by
        rw [h.pow]
        exact Nat.pow_pos hpos
      have hhigh : 0 < s.high.value := by
        rw [h.high]
        exact Nat.mul_pos hhi (Nat.pow_pos hpos)
      rw [searchDigits]
      cases hchoose : s.choose even with
      | some e =>
          refine ⟨e, 0, rfl, ?_⟩
          exact (h.fits_iff hb e.value).mp (Scaled.choose_fits hpow hhigh hchoose)
      | none =>
          cases j with
          | zero =>
              obtain ⟨e, he⟩ := Scaled.exists_choose hpow hhigh ((h.fits_iff hb d).mpr hd)
              rw [he] at hchoose
              cases hchoose
          | succ j =>
              rw [Nat.add_comm j 1, ← Nat.add_assoc, ← Nat.add_assoc] at hd
              obtain ⟨e, i, hsearch, hadmissible⟩ := ih (h.next hb) (Nat.lt_of_succ_lt_succ hj) hd
              rw [Nat.add_assoc, Nat.add_assoc, Nat.add_comm 1 i] at hadmissible
              refine ⟨e, i + 1, ?_, hadmissible⟩
              rw [Nat.add_assoc, Nat.add_comm 1 i] at hsearch
              exact hsearch

end search

variable {even : Bool}

/-- Far enough along there is room between the number and the upper end. -/
theorem exists_admissible {lo hi U b M k t unit : Nat} (hunit : 2 ^ 1075 = 2 * unit) (hpos : 0 < unit)
    (hlo : lo < 2 * U) (hhi : 2 * U < hi) (hleast : unit * b ^ k ≤ U * b ^ M * b)
    (hlast : U * b ^ M + b ^ t ≤ unit * b ^ k) (ht : unit ≤ b ^ t) (hM : 2 * unit ≤ b ^ M) :
    ∃ d, Admissible lo hi even b M k d := by
  have hbM : 0 < b ^ M := by omega
  have hdiv := Nat.div_add_mod (U * b ^ M + unit - 1) unit
  have hmod := Nat.mod_lt (U * b ^ M + unit - 1) hpos
  generalize (U * b ^ M + unit - 1) / unit = d at hdiv
  have hge : U * b ^ M ≤ unit * d := by omega
  have hlt : unit * d < U * b ^ M + unit := by omega
  have hloM : lo * b ^ M < 2 * U * b ^ M := Nat.mul_lt_mul_of_pos_right hlo hbM
  have hhiM : (2 * U + 1) * b ^ M ≤ hi * b ^ M := Nat.mul_le_mul_right _ hhi
  rw [Nat.mul_assoc] at hloM
  rw [Nat.add_mul, Nat.one_mul, Nat.mul_assoc] at hhiM
  have hscale : d * (2 * unit) = 2 * (unit * d) := by ring
  refine ⟨d, ?_, ?_, ?_, ?_, ?_⟩
  · apply Nat.le_of_mul_le_mul_left _ hpos
    calc unit * b ^ k ≤ U * b ^ M * b := hleast
      _ ≤ unit * d * b := Nat.mul_le_mul_right b hge
      _ = unit * (d * b) := Nat.mul_assoc _ _ _
  · apply Nat.lt_of_mul_lt_mul_left (a := unit)
    omega
  · rw [hunit, hscale]
    omega
  · rw [hunit, hscale]
    omega
  · intro _
    rw [hunit, hscale]
    omega

theorem parsePoint_format {d : BigU} {k M : Nat} (hleast : radix.value ^ k ≤ d.value * radix.value)
    (hlast : d.value < radix.value ^ k) :
    parsePoint radix.value (formatFixedDigits d radix k ((k : Int) - M)) =
      some ((d.value : ℚ) / radix.value ^ M) := by
  have hbase := radix.two_le
  obtain ⟨k, rfl⟩ : ∃ l, k = l + 1 := by
    cases k with
    | zero =>
        have hzero : d.value = 0 := by simpa using hlast
        rw [hzero] at hleast
        simp at hleast
    | succ l => exact ⟨l, rfl⟩
  have hlow : radix.value ^ k ≤ d.value := by
    rw [pow_succ] at hleast
    exact Nat.le_of_mul_le_mul_right hleast radix.pos
  have hlength := Numeral.length_digits hbase hlow hlast
  have hvalue := Numeral.value_digits radix.value d.value
  have hdigits : ∀ e ∈ Numeral.digits radix.value d.value, e < radix.value := fun e he =>
    Numeral.digits_lt hbase he
  have hne : d.value ≠ 0 := Nat.ne_of_gt (Nat.lt_of_lt_of_le (Nat.pow_pos radix.pos) hlow)
  have htext : d.toBase radix = (Numeral.digits radix.value d.value).map digitChar := by
    rw [BigU.toBase_eq, Numeral.text, if_neg hne]
  have hradix : (radix.value : ℚ) ≠ 0 := by exact_mod_cast radix.pos.ne'
  have hpoint : ∀ ds : List Nat, (∀ e ∈ ds, e < radix.value) → ∀ c ∈ ds.map digitChar, c ≠ '.' := by
    intro ds hds c hc
    obtain ⟨e, he, rfl⟩ := List.mem_map.mp hc
    exact Numeral.digitChar_ne_point (Nat.lt_of_lt_of_le (hds e he) radix.le_max)
  unfold formatFixedDigits
  dsimp only
  rw [htext]
  generalize Numeral.digits radix.value d.value = ds at *
  have hnil : ds ≠ [] := by
    rintro rfl
    simp at hlength
  split
  · have hM : M = 0 := by omega
    subst hM
    have hzeros : ((k + 1 : Nat) - (0 : Nat) - (k + 1 : Nat) : Int).toNat = 0 := by omega
    rw [hzeros, List.replicate_zero, List.append_nil, Numeral.parsePoint_of_digits (hpoint ds hdigits),
      Numeral.parse_digits hdigits radix.le_max hnil, hvalue, pow_zero, div_one]
    rfl
  · split
    · have hn : (((k + 1 : Nat) : Int) - M).toNat = k + 1 - M := by omega
      have htake : ∀ e ∈ ds.take (k + 1 - M), e < radix.value := fun e he =>
        hdigits e (List.mem_of_mem_take he)
      have hdrop : ∀ e ∈ ds.drop (k + 1 - M), e < radix.value := fun e he =>
        hdigits e (List.mem_of_mem_drop he)
      have htakeNil : ds.take (k + 1 - M) ≠ [] := by
        intro hzero
        have hcut := congrArg List.length hzero
        rw [List.length_take, List.length_nil] at hcut
        omega
      have hdropLength : (ds.drop (k + 1 - M)).length = M := by
        rw [List.length_drop]
        omega
      have hdropNil : ds.drop (k + 1 - M) ≠ [] := by
        intro hzero
        rw [hzero, List.length_nil] at hdropLength
        omega
      have hsplit := congrArg (Numeral.value radix.value) (List.take_append_drop (k + 1 - M) ds)
      rw [Numeral.value_append, hdropLength, hvalue] at hsplit
      rw [hn, ← List.map_take, ← List.map_drop, Numeral.parsePoint_append (hpoint _ htake),
        Numeral.parse_digits htake radix.le_max htakeNil,
        Numeral.parse_digits hdrop radix.le_max hdropNil, Option.bind_some, Option.map_some,
        List.length_map, hdropLength, ← hsplit]
      congr 1
      rw [eq_div_iff (pow_ne_zero _ hradix), add_mul, div_mul_cancel₀ _ (pow_ne_zero _ hradix)]
      push_cast
      rfl
    · -- Only zeros stand before the digits.
      have hn : (-(((k + 1 : Nat) : Int) - M)).toNat = M - (k + 1) := by omega
      have hall : ∀ e ∈ List.replicate (M - (k + 1)) 0 ++ ds, e < radix.value := by
        intro e he
        rcases List.mem_append.mp he with he | he
        · rw [List.eq_of_mem_replicate he]
          exact radix.pos
        · exact hdigits e he
      have hzeros : List.replicate (M - (k + 1)) '0' ++ ds.map digitChar =
          (List.replicate (M - (k + 1)) 0 ++ ds).map digitChar := by
        rw [List.map_append, List.map_replicate]
        rfl
      have hzero : ∀ e ∈ ([0] : List Nat), e < radix.value := by
        intro e he
        rw [List.mem_singleton.mp he]
        exact radix.pos
      have hsum : M - (k + 1) + (k + 1) = M := by omega
      have hshape : ['0', '.'] ++ List.replicate (M - (k + 1)) '0' ++ ds.map digitChar =
          ([0] : List Nat).map digitChar ++
            '.' :: (List.replicate (M - (k + 1)) 0 ++ ds).map digitChar := by
        rw [← hzeros]
        rfl
      rw [hn, hshape, Numeral.parsePoint_append (hpoint _ hzero),
        Numeral.parse_digits hzero radix.le_max (List.cons_ne_nil _ _),
        Numeral.parse_digits hall radix.le_max (by simp [hnil]), Option.bind_some, Option.map_some,
        Numeral.value_append, Numeral.value_replicate_zero, List.length_map, List.length_append,
        List.length_replicate, hlength, hsum, hvalue, Numeral.value_singleton]
      simp

/-- What is admissible denotes a number in the rounding interval. -/
theorem between_of_admissible {x : F64} (h : x.isFinite) {lo hi b M k d : Nat} (hb : 0 < b)
    (hlo : lo + 2 ^ ((pattern x - 1) / 2 ^ 52 - 1) = 2 * x.toUnits.natAbs)
    (hhi : hi = 2 * x.toUnits.natAbs + 2 ^ (pattern x / 2 ^ 52 - 1))
    (heven : even = decide (pattern x % 2 = 0)) (hd : Admissible lo hi even b M k d) :
    binary64.Between (d / b ^ M) (pattern x) := by
  have hunits := patternUnits_pattern h
  have hpow : (0 : ℚ) < (b : ℚ) ^ M := by positivity
  -- The exponent stays abstract: as a literal the power would be evaluated.
  obtain ⟨E, hE⟩ : ∃ E, E = 1074 := ⟨1074, rfl⟩
  have hvalue : ∀ n, binary64.value n = (patternUnits 52 n : ℚ) / 2 ^ E := by
    intro n
    rw [hE]
    rfl
  have hhalf : 2 ^ 1075 = 2 * 2 ^ E := by
    rw [hE, ← pow_succ']
  have hsum : ∀ a c : Nat, binary64.value a + binary64.value c =
      ((patternUnits 52 a + patternUnits 52 c : Nat) : ℚ) / 2 ^ E := by
    intro a c
    rw [hvalue, hvalue, ← add_div]
    push_cast
    rfl
  have htwice : 2 * ((d : ℚ) / b ^ M) = ((2 * d : Nat) : ℚ) / b ^ M := by
    push_cast
    ring
  have hle : ∀ a : Nat, (a : ℚ) / 2 ^ E ≤ 2 * ((d : ℚ) / b ^ M) ↔ a * b ^ M ≤ d * 2 ^ 1075 := by
    intro a
    rw [htwice, div_le_div_iff₀ (by positivity) hpow, hhalf, ← Nat.mul_assoc, Nat.mul_comm d 2]
    exact_mod_cast Iff.rfl
  have hge : ∀ a : Nat, 2 * ((d : ℚ) / b ^ M) ≤ (a : ℚ) / 2 ^ E ↔ d * 2 ^ 1075 ≤ a * b ^ M := by
    intro a
    rw [htwice, div_le_div_iff₀ hpow (by positivity), hhalf, ← Nat.mul_assoc, Nat.mul_comm d 2]
    exact_mod_cast Iff.rfl
  have hodd : pattern x % 2 ≠ 0 → even = false := by
    intro hodd
    rw [heven]
    exact decide_eq_false hodd
  have hbefore : ∀ m, pattern x = m + 1 → patternUnits 52 (pattern x) + patternUnits 52 m = lo := by
    intro m hm
    have hstep := patternUnits_succ 52 m
    rw [← hm, hunits] at hstep
    rw [hm, Nat.add_sub_cancel] at hlo
    rw [hunits]
    omega
  have hafter : patternUnits 52 (pattern x + 1) + patternUnits 52 (pattern x) = hi := by
    rw [patternUnits_succ, hunits, hhi]
    ring
  constructor
  case lower =>
    intro m hm
    rw [hsum, hbefore m hm, hle]
    exact hd.lower
  case lower_even =>
    intro m hm heq
    rw [hsum, hbefore m hm] at heq
    by_contra hparity
    exact (hd.ends (hodd hparity)).1 (Nat.le_antisymm ((hle lo).mp heq.le) ((hge lo).mp heq.ge))
  case upper =>
    rw [hsum, hafter, hge]
    exact hd.upper
  case upper_even =>
    intro heq
    rw [hsum, hafter] at heq
    by_contra hparity
    exact (hd.ends (hodd hparity)).2 (Nat.le_antisymm ((hle hi).mp heq.ge) ((hge hi).mp heq.le))

section returns

variable {x : F64} {radix : Radix}

theorem exactValue_lt (h : x.isFinite) : exactValue x < ((2 ^ 1024 : Nat) : ℚ) := by
  obtain ⟨hmantissa, hlow, hhigh, hunits⟩ := decompose_spec h
  rw [exactValue, div_lt_iff₀ (by positivity), ← hunits]
  generalize decompose x = d at *
  obtain ⟨m, exp⟩ := d
  dsimp only at *
  obtain ⟨e, he⟩ : ∃ e : Nat, (exp + 1074).toNat = e ∧ e ≤ 2045 := ⟨_, rfl, by omega⟩
  obtain ⟨E, hE⟩ : ∃ E, E = 1024 + 1074 := ⟨_, rfl⟩
  have hlt : m * 2 ^ (exp + 1074).toNat < 2 ^ E := by
    rw [he.1]
    calc m * 2 ^ e < 2 ^ 53 * 2 ^ e := Nat.mul_lt_mul_of_pos_right hmantissa (Nat.two_pow_pos e)
      _ = 2 ^ (53 + e) := (pow_add 2 53 e).symm
      _ ≤ 2 ^ E := Nat.pow_le_pow_right (by decide) (by omega)
  have hcast : ((2 ^ 1024 : Nat) : ℚ) * 2 ^ 1074 = ((2 ^ E : Nat) : ℚ) := by
    rw [hE, pow_add]
    push_cast
    rfl
  rw [hcast]
  exact_mod_cast hlt

variable {T : Int}

/-- With the point in the right place the search has room to end in. -/
theorem exists_admissible_pattern {k M : Nat} (hT : (k : Int) = T + M)
    (hlow : (radix.value : ℚ) ^ (T - 1) ≤ exactValue x) (hhigh : exactValue x < radix.value ^ T)
    (hk : 1074 ≤ k) (hM : 1075 ≤ M) {lo hi : Nat} (hlo : lo < 2 * x.toUnits.natAbs)
    (hhi : 2 * x.toUnits.natAbs < hi) : ∃ d, Admissible lo hi even radix.value M k d := by
  have hradix : (0 : ℚ) < radix.value := by exact_mod_cast radix.pos
  have hexp : (k : Int) = T - 1 + (M + 1 : Nat) := by
    rw [hT]
    push_cast
    ring
  unfold exactValue at hlow hhigh
  -- The unit stays abstract: as a literal power it would be evaluated.
  obtain ⟨E, hE⟩ : ∃ E, E = 1074 := ⟨1074, rfl⟩
  have hunit : 2 ^ 1075 = 2 * 2 ^ E := by rw [hE, ← pow_succ']
  rw [← hE] at hlow hhigh
  have hleast : 2 ^ E * radix.value ^ k ≤ x.toUnits.natAbs * radix.value ^ M * radix.value := by
    have hsplit : (radix.value : ℚ) ^ k = radix.value ^ (T - 1) * radix.value ^ (M + 1) := by
      rw [← zpow_natCast, ← zpow_natCast, ← zpow_add₀ hradix.ne', hexp]
    have hmul := mul_le_mul_of_nonneg_right hlow (pow_nonneg hradix.le (M + 1))
    rw [← hsplit, div_mul_eq_mul_div, le_div_iff₀ (by positivity)] at hmul
    have hmul : radix.value ^ k * 2 ^ E ≤ x.toUnits.natAbs * radix.value ^ (M + 1) := by
      exact_mod_cast hmul
    rw [Nat.mul_comm, Nat.mul_assoc, ← pow_succ]
    exact hmul
  have hpow : ∀ {a c : Nat}, a ≤ c → 2 ^ a ≤ radix.value ^ c := fun {a c} hle =>
    Nat.le_trans (Nat.pow_le_pow_right (by decide) hle) (Nat.pow_le_pow_left radix.two_le c)
  have hMpow : 2 * 2 ^ E ≤ radix.value ^ M := by
    rw [← pow_succ']
    exact hpow (hE ▸ hM)
  have hdone : ∀ t, E ≤ t → x.toUnits.natAbs * radix.value ^ M + radix.value ^ t ≤
      2 ^ E * radix.value ^ k → ∃ d, Admissible lo hi even radix.value M k d := fun t ht hlast =>
    exists_admissible hunit (Nat.two_pow_pos E) hlo hhi hleast hlast (hpow ht) hMpow
  rcases Int.eq_nat_or_neg T with ⟨n, rfl | rfl⟩
  · have hlt : x.toUnits.natAbs < radix.value ^ n * 2 ^ E := by
      rw [zpow_natCast, div_lt_iff₀ (by positivity)] at hhigh
      exact_mod_cast hhigh
    apply hdone M (hE.le.trans (Nat.le_of_succ_le hM))
    have hmul := Nat.mul_le_mul_right (radix.value ^ M) (Nat.succ_le_of_lt hlt)
    rw [Nat.succ_eq_add_one, Nat.add_mul, Nat.one_mul] at hmul
    rw [show k = n + M by exact_mod_cast hT, pow_add, ← Nat.mul_assoc, Nat.mul_comm (2 ^ E)]
    exact hmul
  · have hlt : x.toUnits.natAbs * radix.value ^ n < 2 ^ E := by
      have htwo : (0 : ℚ) < 2 ^ E := pow_pos two_pos E
      rw [zpow_neg, zpow_natCast, ← one_div, div_lt_div_iff₀ htwo (pow_pos hradix n), one_mul]
        at hhigh
      exact_mod_cast hhigh
    apply hdone k (hE.le.trans hk)
    have hmul := Nat.mul_le_mul_right (radix.value ^ k) (Nat.succ_le_of_lt hlt)
    rw [Nat.succ_eq_add_one, Nat.add_mul, Nat.one_mul, Nat.mul_assoc, ← pow_add] at hmul
    have hsum : ((n + k : Nat) : Int) = M := by
      rw [Nat.cast_add, hT]
      ring
    rw [show n + k = M by exact_mod_cast hsum] at hmul
    exact hmul

/-- No number has more digits before the point in any base than in base two. -/
theorem place_le (h : x.isFinite) (hlow : (radix.value : ℚ) ^ (T - 1) ≤ exactValue x) :
    T ≤ 1024 := by
  have hlt := exactValue_lt h
  -- The exponent stays abstract: as a literal the power would be evaluated.
  obtain ⟨D, hD⟩ : ∃ D : Nat, D = 1024 := ⟨1024, rfl⟩
  rw [← hD] at hlt
  by_contra hmore
  have hle : (D : Int) ≤ T - 1 := by omega
  have hone : (1 : ℚ) ≤ radix.value := by exact_mod_cast radix.pos
  have hpow : ((2 ^ D : Nat) : ℚ) ≤ (radix.value : ℚ) ^ D := by
    exact_mod_cast Nat.pow_le_pow_left radix.two_le D
  have hmono := zpow_le_zpow_right₀ hone hle
  rw [zpow_natCast] at hmono
  linarith

theorem radixRoundTrip_spec (ln : F64 → F64) (h : x.isFinite) (hpos : 0 < x.toUnits) {fuel : Nat}
    (hfloor : floorLogBase ln fuel (decompose x).1 (decompose x).2 radix = some T)
    (hlow : (radix.value : ℚ) ^ (T - 1) ≤ exactValue x) (hhigh : exactValue x < radix.value ^ T) :
    ∃ text w, radixRoundTrip ln fuel x radix = some text ∧
      parsePoint radix.value text = some w ∧ binary64.Between w (pattern x) := by
  have hne := hpos.ne'
  have hunitsPos := Int.natAbs_pos.mpr hne
  obtain ⟨hlo, hhi, heven⟩ := roundingBounds_spec h hne
  have hvalue : ((fromU64 (UInt64.ofNat (decompose x).1)).shl
      ((decompose x).2 + 1075).toNat).value = x.toUnits.natAbs * 2 := by
    have hscaled := value_scaled h 1
    rw [pow_one] at hscaled
    exact hscaled
  have hbound := place_le h hlow
  unfold radixRoundTrip
  generalize hbounds : roundingBounds (decompose x).1 (decompose x).2 = bounds at *
  obtain ⟨low, high, even⟩ := bounds
  dsimp only at hlo hhi heven
  have hgapDown := Nat.two_pow_pos ((pattern x - 1) / 2 ^ 52 - 1)
  have hgapUp := Nat.two_pow_pos (pattern x / 2 ^ 52 - 1)
  obtain ⟨k, hk⟩ : ∃ k : Nat, max T 1 = k := ⟨(max T 1).toNat, by omega⟩
  obtain ⟨M, hM⟩ : ∃ M : Nat, (M : Int) = k - T := ⟨(k - T).toNat, by omega⟩
  have hstart : (k : Int).toNat = k := Int.toNat_natCast k
  have htimes : ((k : Int) - T).toNat = M := by omega
  have hminus : ((k : Int) - 1).toNat = k - 1 := by omega
  dsimp only
  rw [hbounds]
  dsimp only
  rw [hfloor, Option.bind_some, hk, htimes, hminus, hstart]
  have hat : Scaled.At low.value high.value radix.value M k
      ⟨(fun u : BigU => u.mulSmall radix.limb)^[M] low,
        (fun u : BigU => u.mulSmall radix.limb)^[M] high,
        (fun u : BigU => u.mulSmall radix.limb)^[M]
          ((fromU64 (UInt64.ofNat (decompose x).1)).shl ((decompose x).2 + 1075).toNat),
        powSmall radix.limb (k - 1), (powSmall radix.limb (k - 1)).mulSmall radix.limb⟩ := by
    have hlast : radix.value ^ (k - 1) * radix.value = radix.value ^ k := by
      rw [← pow_succ, Nat.sub_add_cancel (by omega)]
    constructor
    case low => rw [value_mulSmall_pow, radix.toNat_limb]
    case high => rw [value_mulSmall_pow, radix.toNat_limb]
    case powMinus => rw [value_powSmall, radix.toNat_limb, hlast]
    case pow => rw [value_mulSmall, value_powSmall, radix.toNat_limb, hlast]
  have hfar : ((k + 2000 : Nat) : Int) = T + (M + 2000 : Nat) := by
    push_cast
    omega
  obtain ⟨d, hd⟩ :
      ∃ d, Admissible low.value high.value even radix.value (M + 2000) (k + 2000) d :=
    exists_admissible_pattern hfar hlow hhigh (by omega) (by omega) (by omega) (by omega)
  obtain ⟨e, i, hsearch, hadmissible⟩ := searchDigits_spec rfl (by omega) hat
    (show 2000 < (6000 - (k : Int)).toNat by omega) hd
  have hplace : T = ((k + i : Nat) : Int) - (M + i : Nat) := by
    push_cast
    omega
  have hparse := parsePoint_format hadmissible.least hadmissible.last (M := M + i)
  rw [← hplace] at hparse
  refine ⟨_, _, by rw [hsearch]; rfl, hparse, ?_⟩
  exact between_of_admissible h radix.pos hlo hhi heven hadmissible

end returns

/-- The place of the point is found, and the text that is returned reads back. -/
def RoundTrips (ln : F64 → F64) (x : F64) (radix : Radix) : Prop :=
  ∃ n text w,
    (∃ fuel, floorLogBase ln fuel (decompose x).1 (decompose x).2 radix = some n) ∧
    (radix.value : ℚ) ^ (n - 1) ≤ exactValue x ∧ exactValue x < radix.value ^ n ∧
    (∃ fuel, radixRoundTrip ln fuel x radix = some text) ∧
    parsePoint radix.value text = some w ∧
    binary64.Between w (pattern x) ∧ binary64.Nearest w (pattern x)

section place

variable {x : F64} {radix : Radix} (hpos : 0 < exactValue x)
include hpos

theorem log_bounds : (radix.value : ℚ) ^ Int.log radix.value (exactValue x) ≤ exactValue x ∧
    exactValue x < (radix.value : ℚ) ^ (Int.log radix.value (exactValue x) + 1) :=
  ⟨Int.zpow_log_le_self radix.two_le hpos, Int.lt_zpow_succ_log_self radix.two_le _⟩

theorem eq_log (hlow : (radix.value : ℚ) ^ (n - 1) ≤ exactValue x)
    (hhigh : exactValue x < radix.value ^ n) : n = Int.log radix.value (exactValue x) + 1 := by
  have hle := (Int.zpow_le_iff_le_log radix.two_le hpos).mp hlow
  have hlt := (Int.lt_zpow_iff_log_lt radix.two_le hpos).mp hhigh
  omega

end place

theorem floorLogBase_some (ln : F64 → F64) {x : F64} (h : x.isFinite) (hpos : 0 < x.toUnits)
    (hint : ∀ k : Nat, k < 2 ^ 53 → exactValue x ≠ k) (hodd : radix.value % 2 = 1)
    (hest : |logEstimate ln (decompose x).1 (decompose x).2 radix.value -
      (Int.log radix.value (exactValue x) + 1)| ≤ 1)
    (hwhen : 1 < exactValue x ∨ logEstimate ln (decompose x).1 (decompose x).2 radix.value =
      Int.log radix.value (exactValue x) + 1) :
    floorLogBase ln 2 (decompose x).1 (decompose x).2 radix =
      some (Int.log radix.value (exactValue x) + 1) := by
  have hvalue := exactValue_pos hpos.ne'
  unfold floorLogBase
  rcases lt_or_ge 1 (exactValue x) with habove | hbelow
  · rw [abs_le] at hest
    exact adjust_above h habove (ne_odd_pow h hint hodd) (by omega) (by omega)
  · have hne := hint 1 (by decide)
    have hlt : exactValue x < 1 := lt_of_le_of_ne hbelow (by exact_mod_cast hne)
    have hexact := hwhen.resolve_left hbelow.not_gt
    have hlog : Int.log radix.value (exactValue x) < 0 := by
      rw [← Int.lt_zpow_iff_log_lt radix.two_le hvalue, zpow_zero]
      exact hlt
    rw [hexact]
    exact adjust_below h hlt 1 (by omega)

theorem roundTrips_iff (ln : F64 → F64) {x : F64} (h : x.isFinite) (hpos : 0 < x.toUnits)
    (hint : ∀ k : Nat, k < 2 ^ 53 → exactValue x ≠ k) {radix : Radix} (hodd : radix.value % 2 = 1)
    (hest : |logEstimate ln (decompose x).1 (decompose x).2 radix.value -
      (Int.log radix.value (exactValue x) + 1)| ≤ 1) :
    RoundTrips ln x radix ↔
      1 < exactValue x ∨ logEstimate ln (decompose x).1 (decompose x).2 radix.value =
        Int.log radix.value (exactValue x) + 1 := by
  have hvalue := exactValue_pos hpos.ne'
  constructor
  · rintro ⟨n, _, _, ⟨fuel, hfloor⟩, hlow, hhigh, _⟩
    rw [← eq_log hvalue hlow hhigh]
    rcases lt_or_ge 1 (exactValue x) with habove | hbelow
    · exact Or.inl habove
    · right
      have hne := hint 1 (by decide)
      have hlt : exactValue x < 1 := lt_of_le_of_ne hbelow (by exact_mod_cast hne)
      have hlog : Int.log radix.value (exactValue x) < 0 := by
        rw [← Int.lt_zpow_iff_log_lt radix.two_le hvalue, zpow_zero]
        exact hlt
      rw [abs_le] at hest
      cases fuel with
      | zero => cases hfloor
      | succ fuel =>
          rw [floorLogBase, adjust_below h hlt fuel (by omega)] at hfloor
          exact Option.some.inj hfloor
  · intro hwhen
    have hfloor := floorLogBase_some ln h hpos hint hodd hest hwhen
    obtain ⟨hlow, hhigh⟩ := log_bounds hvalue (x := x)
    have hlow : (radix.value : ℚ) ^ (Int.log radix.value (exactValue x) + 1 - 1) ≤ exactValue x := by
      rw [add_sub_cancel_right]
      exact hlow
    obtain ⟨text, w, htext, hparse, hbetween⟩ := radixRoundTrip_spec ln h hpos hfloor hlow hhigh
    have hnearest := hbetween.nearest
    rw [Nat.min_eq_left (pattern_lt_top h).le] at hnearest
    exact ⟨_, text, w, ⟨2, hfloor⟩, hlow, hhigh, ⟨2, htext⟩, hparse, hbetween, hnearest⟩

def oneAndHalf : F64 := .finite false 1023 2251799813685248

theorem exactValue_oneAndHalf : exactValue oneAndHalf = 3 / 2 := by
  have hfraction : (exactFraction oneAndHalf).1.value = 6755399441055744 ∧
      (exactFraction oneAndHalf).2 = 52 := by
    decide +kernel
  rw [← (exactFraction_spec (x := oneAndHalf) rfl).1, hfraction.1, hfraction.2]
  norm_num

/-- Below a ninth by six units of the last place. -/
def belowNinth : F64 := .finite false 1019 3502799710177046

theorem exactValue_belowNinth : exactValue belowNinth = 8006399337547542 / 72057594037927936 := by
  have hfraction : (exactFraction belowNinth).1.value = 8006399337547542 ∧
      (exactFraction belowNinth).2 = 56 := by
    decide +kernel
  rw [← (exactFraction_spec (x := belowNinth) rfl).1, hfraction.1, hfraction.2]
  norm_num

/-- The logarithms next to those of three and of the two significands. -/
def lnNear (x : F64) : F64 :=
  if x = .ofNat 3 then .finite false 1023 444110266499851
  else if x = .ofNat 6755399441055744 then .finite false 1028 626157762694723
  else .finite false 1028 650068926407297

def three : Radix := ⟨3, by decide, by decide⟩

theorem roundTrips_oneAndHalf : RoundTrips lnNear oneAndHalf three := by
  have hlog : Int.log three.value (exactValue oneAndHalf) + 1 = 1 := by
    refine (eq_log (n := 1) ?_ ?_ ?_).symm
    case refine_1 => rw [exactValue_oneAndHalf]; norm_num
    case refine_2 => rw [exactValue_oneAndHalf]; norm_num
    case refine_3 => rw [exactValue_oneAndHalf]; norm_num [three]
  have hest : logEstimate lnNear (decompose oneAndHalf).1 (decompose oneAndHalf).2 three.value = 1 := by
    decide +kernel
  refine (roundTrips_iff lnNear (x := oneAndHalf) rfl (by decide +kernel) ?_ (by decide) ?_).mpr ?_
  · intro k _ heq
    rw [exactValue_oneAndHalf, div_eq_iff (by norm_num)] at heq
    have hcast : 3 = k * 2 := by exact_mod_cast heq
    omega
  · rw [hlog, hest]
    decide
  · left
    rw [exactValue_oneAndHalf]
    norm_num

/-- The estimate is one too high, and below one nothing corrects it. -/
theorem not_roundTrips_belowNinth :
    belowNinth.isFinite ∧ 0 < belowNinth.toUnits ∧ (∀ k : Nat, exactValue belowNinth ≠ k) ∧
      |logEstimate lnNear (decompose belowNinth).1 (decompose belowNinth).2 three.value -
        (Int.log three.value (exactValue belowNinth) + 1)| ≤ 1 ∧
      ¬ RoundTrips lnNear belowNinth three := by
  have hlog : Int.log three.value (exactValue belowNinth) + 1 = -2 := by
    refine (eq_log (n := -2) ?_ ?_ ?_).symm
    case refine_1 => rw [exactValue_belowNinth]; norm_num
    case refine_2 => rw [exactValue_belowNinth]; norm_num [three]
    case refine_3 => rw [exactValue_belowNinth]; norm_num [three]
  have hest : logEstimate lnNear (decompose belowNinth).1 (decompose belowNinth).2 three.value =
      -1 := by
    decide +kernel
  refine ⟨rfl, by decide +kernel, ?_, ?_, ?_⟩
  · intro k heq
    rw [exactValue_belowNinth, div_eq_iff (by norm_num)] at heq
    have hcast : 8006399337547542 = k * 72057594037927936 := by exact_mod_cast heq
    omega
  · rw [hlog, hest]
    decide
  · rintro ⟨n, _, _, ⟨fuel, hfloor⟩, hlow, hhigh, _⟩
    have hvalue : exactValue belowNinth < 1 := by
      rw [exactValue_belowNinth]
      norm_num
    have htrue : n = -2 := by
      rw [← hlog]
      exact eq_log (exactValue_pos (by decide +kernel)) hlow hhigh
    cases fuel with
    | zero => cases hfloor
    | succ fuel =>
        rw [floorLogBase, hest, adjust_below rfl hvalue fuel (by decide), htrue] at hfloor
        exact absurd hfloor (by decide)

end Slag.Crux
