import Mathlib.Data.Nat.Size
import Slag.Lib.Significand

/-!
Totals of durations as one correctly rounded quotient: the `u128` division behind
`Temporal.Duration.prototype.total`.
-/

namespace Slag.Temporal

inductive Unit
  | year | month | week | day | hour | minute | second | millisecond | microsecond | nanosecond
deriving DecidableEq, Repr

def nsPerSecond : Nat := 1_000_000_000
def nsPerMinute : Nat := 60 * nsPerSecond
def nsPerHour : Nat := 60 * nsPerMinute
def nsPerDay : Nat := 24 * nsPerHour

/-- Calendar units have no length of their own. -/
def Unit.lengthNs : Unit → Option Nat
  | .day => some nsPerDay
  | .hour => some nsPerHour
  | .minute => some nsPerMinute
  | .second => some nsPerSecond
  | .millisecond => some 1_000_000
  | .microsecond => some 1_000
  | .nanosecond => some 1
  | _ => none

/-- `x << s` on `u128`: high bits are lost, and a shift by the width panics. -/
def shlU128 (x s : Nat) : Option Nat :=
  if s < 128 then some (x * 2 ^ s % 2 ^ 128) else none

/-- The shift that refuses to lose bits. -/
def shlExact (x s : Nat) : Option Nat :=
  if s < 128 ∧ x * 2 ^ s < 2 ^ 128 then some (x * 2 ^ s) else none

/-- `128 - a.leading_zeros()`. -/
def bitLength (a : Nat) : Nat := Nat.size a

def divRem (a b : Nat) : Option (Nat × Nat) :=
  if b = 0 then none else some (a / b, a % b)

/-- The double nearest to a power of two. -/
def powi2 (k : Int) : F64 :=
  if 0 ≤ k then F64.ofRatio false (2 ^ k.toNat * F64.one) 1
  else F64.ofRatio false F64.one (2 ^ (-k).toNat)

section Divide

variable (shl : Nat → Nat → Option Nat) (a b : Nat)

/-- The position of the leading bit of the quotient. -/
def quotientExponent : Option Int := do
  let cand : Int := bitLength a - bitLength b
  if 0 ≤ cand then
    let s ← shl b cand.toNat
    return if a < s then cand - 1 else cand
  else
    let s ← shl a (-cand).toNat
    return if s < b then cand - 1 else cand

/-- The significand and the exponent that `divide_rounded` multiplies. -/
def roundedParts : Option (Nat × Int) := do
  let e ← quotientExponent shl a b
  let shift := 53 - e
  let (m54, r) ←
    if 0 ≤ shift then do
      let num ← shl a shift.toNat
      divRem num b
    else do
      let den ← shl b (-shift).toNat
      divRem a den
  let mant := m54 / 2
  let roundUp := m54 % 2 = 1 ∧ (r ≠ 0 ∨ mant % 2 = 1)
  return (mant + if roundUp then 1 else 0, e - 52)

end Divide

def divideRounded (a b : Nat) : Option F64 := do
  let (mant, k) ← roundedParts shlU128 a b
  return F64.mul (.ofNat mant) (powi2 k)

/-- A calendar unit panics. -/
def totalTimeDuration (time : Int) (unit : Unit) : Option F64 := do
  let divisor ← unit.lengthNs
  if time = 0 then
    return .zero
  let magnitude ← divideRounded time.natAbs divisor
  return if time < 0 then F64.neg magnitude else magnitude

/-- A shift that keeps what fits. -/
def KeepsBits (shl : Nat → Nat → Option Nat) : Prop :=
  ∀ x s, s < 128 → x * 2 ^ s < 2 ^ 128 → shl x s = some (x * 2 ^ s)

theorem shlU128_keepsBits : KeepsBits shlU128 := by
  intro x s hs hx
  rw [shlU128, if_pos hs, Nat.mod_eq_of_lt hx]

theorem shlExact_keepsBits : KeepsBits shlExact := by
  intro x s hs hx
  rw [shlExact, if_pos ⟨hs, hx⟩]

theorem two_zpow_toNat (n : Int) : (2 : ℚ) ^ n.toNat / 2 ^ (-n).toNat = 2 ^ n := by
  rw [← zpow_natCast, ← zpow_natCast, ← zpow_sub₀ two_ne_zero]
  congr 1
  omega

/-- One of the two shifts scales a quotient. -/
theorem shifted_div (a b : Nat) (n : Int) :
    ((a * 2 ^ n.toNat : Nat) : ℚ) / (b * 2 ^ (-n).toNat : Nat) = a / b * 2 ^ n := by
  rw [← two_zpow_toNat n]
  push_cast
  rw [mul_div_mul_comm]

variable {shl : Nat → Nat → Option Nat} {a b : Nat}

theorem bitLength_bounds (ha : 0 < a) :
    (2 : ℚ) ^ ((bitLength a : Int) - 1) ≤ a ∧ (a : ℚ) < 2 ^ (bitLength a : Int) := by
  have hpos : 0 < bitLength a := Nat.size_pos.2 ha
  constructor
  · have hle : 2 ^ (bitLength a - 1) ≤ a := Nat.lt_size.1 (Nat.sub_lt hpos Nat.one_pos)
    have hexp : (bitLength a : Int) - 1 = (bitLength a - 1 : Nat) := by omega
    rw [hexp, zpow_natCast]
    exact_mod_cast hle
  · rw [zpow_natCast]
    exact_mod_cast Nat.lt_size_self a

theorem bitLength_quotient (ha : 0 < a) (hb : 0 < b) :
    (2 : ℚ) ^ ((bitLength a : Int) - bitLength b - 1) ≤ a / b ∧
      (a / b : ℚ) < 2 ^ ((bitLength a : Int) - bitLength b + 1) := by
  obtain ⟨hloA, hhiA⟩ := bitLength_bounds ha
  obtain ⟨hloB, hhiB⟩ := bitLength_bounds hb
  have hbq : (0 : ℚ) < b := by exact_mod_cast hb
  constructor
  · rw [le_div_iff₀ hbq]
    calc (2 : ℚ) ^ ((bitLength a : Int) - bitLength b - 1) * b
        ≤ 2 ^ ((bitLength a : Int) - bitLength b - 1) * 2 ^ (bitLength b : Int) :=
          mul_le_mul_of_nonneg_left hhiB.le (by positivity)
      _ = 2 ^ ((bitLength a : Int) - 1) := by
          rw [← zpow_add₀ two_ne_zero]
          congr 1
          omega
      _ ≤ a := hloA
  · rw [div_lt_iff₀ hbq]
    calc (a : ℚ) < 2 ^ (bitLength a : Int) := hhiA
      _ = 2 ^ ((bitLength a : Int) - bitLength b + 1) * 2 ^ ((bitLength b : Int) - 1) := by
          rw [← zpow_add₀ two_ne_zero]
          congr 1
          omega
      _ ≤ 2 ^ ((bitLength a : Int) - bitLength b + 1) * b :=
          mul_le_mul_of_nonneg_left hloB (by positivity)

/-- The candidate is at most one too high, and the comparison finds it. -/
theorem quotientExponent_spec (hshl : KeepsBits shl) (ha : 0 < a) (ha' : a < 2 ^ 128) (hb : 0 < b)
    (hb' : b < 2 ^ 128) :
    ∃ e, quotientExponent shl a b = some e ∧ (2 : ℚ) ^ e ≤ a / b ∧ (a / b : ℚ) < 2 ^ (e + 1) := by
  obtain ⟨hlo, hhi⟩ := bitLength_quotient ha hb
  have hbq : (0 : ℚ) < b := by exact_mod_cast hb
  have hlenA : bitLength a ≤ 128 := Nat.size_le.2 ha'
  have hlenB : bitLength b ≤ 128 := Nat.size_le.2 hb'
  have hposA : 0 < bitLength a := Nat.size_pos.2 ha
  have hposB : 0 < bitLength b := Nat.size_pos.2 hb
  have hfit : ∀ x s, s + bitLength x ≤ 128 → x * 2 ^ s < 2 ^ 128 := by
    intro x s hs
    calc x * 2 ^ s < 2 ^ bitLength x * 2 ^ s :=
          Nat.mul_lt_mul_of_pos_right (Nat.lt_size_self x) (Nat.two_pow_pos s)
      _ = 2 ^ (bitLength x + s) := (pow_add 2 _ _).symm
      _ ≤ 2 ^ 128 := Nat.pow_le_pow_right (by decide) (by omega)
  generalize hcand : (bitLength a : Int) - bitLength b = cand at hlo hhi
  have hchoice : ∀ c : Bool, (c = true ↔ (a / b : ℚ) < 2 ^ cand) →
      (2 : ℚ) ^ (if c = true then cand - 1 else cand) ≤ a / b ∧
        (a / b : ℚ) < 2 ^ ((if c = true then cand - 1 else cand) + 1) := by
    intro c hc
    cases c with
    | true => exact ⟨hlo, by simpa using hc.1 rfl⟩
    | false => exact ⟨le_of_not_gt fun h => by simpa using hc.2 h, hhi⟩
  simp only [quotientExponent, hcand]
  by_cases hsign : 0 ≤ cand
  · have hshift := hshl b cand.toNat (by omega) (hfit _ _ (by omega))
    simp only [if_pos hsign, hshift, Option.bind_eq_bind, Option.bind_some, Option.pure_def]
    have hiff : decide (a < b * 2 ^ cand.toNat) = true ↔ (a / b : ℚ) < 2 ^ cand := by
      have hexp : (2 : ℚ) ^ cand = 2 ^ cand.toNat := by
        rw [← zpow_natCast, Int.toNat_of_nonneg hsign]
      rw [decide_eq_true_iff, div_lt_iff₀ hbq, hexp, mul_comm b]
      exact_mod_cast Iff.rfl
    refine ⟨_, rfl, ?_⟩
    simpa only [decide_eq_true_eq] using hchoice _ hiff
  · have hshift := hshl a (-cand).toNat (by omega) (hfit _ _ (by omega))
    simp only [if_neg hsign, hshift, Option.bind_eq_bind, Option.bind_some, Option.pure_def]
    have hiff : decide (a * 2 ^ (-cand).toNat < b) = true ↔ (a / b : ℚ) < 2 ^ cand := by
      have hexp : (2 : ℚ) ^ cand = (2 ^ (-cand).toNat)⁻¹ := by
        rw [← zpow_natCast, Int.toNat_of_nonneg (by omega), zpow_neg, inv_inv]
      rw [decide_eq_true_iff, div_lt_iff₀ hbq, hexp, inv_mul_eq_div, lt_div_iff₀ (by positivity)]
      exact_mod_cast Iff.rfl
    refine ⟨_, rfl, ?_⟩
    simpa only [decide_eq_true_eq] using hchoice _ hiff

/-- The guard bit and the remainder decide as the exact quotient does. -/
theorem guard_roundHalfEven (N : Nat) {D : Nat} (hD : 0 < D) :
    N / D / 2 + (if N / D % 2 = 1 ∧ (N % D ≠ 0 ∨ N / D / 2 % 2 = 1) then 1 else 0) =
      F64.roundHalfEven N (2 * D) := by
  have hquot : N / (2 * D) = N / D / 2 := by rw [Nat.mul_comm, Nat.div_div_eq_div_mul]
  have hrem : N % (2 * D) = N % D + D * (N / D % 2) := by
    rw [Nat.mul_comm 2, Nat.mod_mul]
  have hlt := Nat.mod_lt N hD
  unfold F64.roundHalfEven
  rw [hquot, hrem]
  dsimp only
  generalize N / D = q at *
  generalize N % D = r at *
  rcases Nat.mod_two_eq_zero_or_one q with hbit | hbit
  · rw [hbit, Nat.mul_zero]
    have hdown : ¬(0 = 1 ∧ (r ≠ 0 ∨ q / 2 % 2 = 1)) := fun h => absurd h.1 (by decide)
    have hless : 2 * (r + 0) < 2 * D := by omega
    rw [if_neg hdown, if_pos hless, Nat.add_zero]
  · rw [hbit, Nat.mul_one]
    split_ifs <;> omega

theorem roundedParts_spec (ha : 0 < a) (ha' : a < 2 ^ 128) (hb : 0 < b) (hb' : bitLength b ≤ 73) :
    ∃ mant k, (∀ shl, KeepsBits shl → roundedParts shl a b = some (mant, k)) ∧ -125 ≤ k ∧ k ≤ 75 ∧
      mant ≤ 2 ^ 53 ∧ ∃ m j, NearestFloat 52 (a / b) m j ∧ (m * 2 ^ j : ℚ) = mant * 2 ^ k := by
  have hbits : b < 2 ^ 73 := Nat.size_le.1 hb'
  obtain ⟨e, -, hlo, hhi⟩ := quotientExponent_spec shlExact_keepsBits ha ha' hb (by omega)
  have hexponent : ∀ shl, KeepsBits shl → quotientExponent shl a b = some e := by
    intro shl hshl
    obtain ⟨e', he', hlo', hhi'⟩ := quotientExponent_spec hshl ha ha' hb (by omega)
    have h1 := (zpow_lt_zpow_iff_right₀ (one_lt_two (α := ℚ))).1 (lt_of_le_of_lt hlo hhi')
    have h2 := (zpow_lt_zpow_iff_right₀ (one_lt_two (α := ℚ))).1 (lt_of_le_of_lt hlo' hhi)
    rw [he', show e' = e by omega]
  have haq : (1 : ℚ) ≤ a := by exact_mod_cast ha
  have haq' : (a : ℚ) < 2 ^ 128 := by exact_mod_cast ha'
  have hbq : (1 : ℚ) ≤ b := by exact_mod_cast hb
  have hbq' : (b : ℚ) < 2 ^ 73 := by exact_mod_cast hbits
  have hquot : (0 : ℚ) < a / b := by positivity
  have he : -73 ≤ e := by
    have hlt : (2 : ℚ) ^ (-73 : Int) < 2 ^ (e + 1) := by
      refine lt_of_le_of_lt ?_ hhi
      rw [le_div_iff₀ (by linarith), zpow_neg, inv_mul_le_iff₀ (by positivity), zpow_ofNat]
      linarith
    have := (zpow_lt_zpow_iff_right₀ (one_lt_two (α := ℚ))).1 hlt
    omega
  have he' : e < 128 := by
    have hlt : (2 : ℚ) ^ e < 2 ^ (128 : Int) := by
      refine lt_of_le_of_lt hlo ?_
      rw [div_lt_iff₀ (by linarith), zpow_ofNat]
      exact haq'.trans_le (le_mul_of_one_le_right (by positivity) hbq)
    exact (zpow_lt_zpow_iff_right₀ (one_lt_two (α := ℚ))).1 hlt
  -- The scaled operands, of which one is unchanged.
  have hscaled := shifted_div a b (53 - e)
  rw [show -(53 - e) = e - 53 by omega] at hscaled
  generalize hN : a * 2 ^ (53 - e).toNat = N at hscaled
  generalize hD : b * 2 ^ (e - 53).toNat = D at hscaled
  have hDpos : 0 < D := by
    rw [← hD]
    positivity
  have hDq : (0 : ℚ) < D := by exact_mod_cast hDpos
  have hlow : 2 ^ 53 * D ≤ N := by
    have hle : (2 ^ 53 : ℚ) ≤ N / D := by
      rw [hscaled]
      calc (2 ^ 53 : ℚ) = 2 ^ e * 2 ^ (53 - e) := by
            rw [← zpow_add₀ two_ne_zero, add_sub_cancel, zpow_ofNat]
        _ ≤ a / b * 2 ^ (53 - e) := mul_le_mul_of_nonneg_right hlo (by positivity)
    rw [le_div_iff₀ hDq] at hle
    exact_mod_cast hle
  have hhigh : N < 2 ^ 54 * D := by
    have hlt : (N / D : ℚ) < 2 ^ 54 := by
      rw [hscaled]
      calc (a / b : ℚ) * 2 ^ (53 - e) < 2 ^ (e + 1) * 2 ^ (53 - e) :=
            mul_lt_mul_of_pos_right hhi (by positivity)
        _ = 2 ^ 54 := by
            rw [← zpow_add₀ two_ne_zero, show e + 1 + (53 - e) = 54 by omega, zpow_ofNat]
    rw [div_lt_iff₀ hDq] at hlt
    exact_mod_cast hlt
  have hparts : ∀ shl, KeepsBits shl →
      roundedParts shl a b = some (F64.roundHalfEven N (2 * D), e - 52) := by
    intro shl hshl
    have hrem : divRem N D = some (N / D, N % D) := if_neg hDpos.ne'
    simp only [roundedParts, hexponent shl hshl, Option.bind_eq_bind, Option.bind_some]
    by_cases hsign : 0 ≤ 53 - e
    · have hplain : D = b := by
        rw [← hD, show (e - 53).toNat = 0 by omega, pow_zero, Nat.mul_one]
      have hshift := hshl a (53 - e).toNat (by omega) (by omega)
      rw [if_pos hsign, hshift, hN, Option.bind_some, ← hplain, hrem, Option.bind_some,
        ← guard_roundHalfEven N hDpos]
      rfl
    · have hplain : N = a := by
        rw [← hN, show (53 - e).toNat = 0 by omega, pow_zero, Nat.mul_one]
      have hshift := hshl b (e - 53).toNat (by omega) (by omega)
      rw [if_neg hsign, show -(53 - e) = e - 53 by omega, hshift, hD, Option.bind_some, ← hplain,
        hrem, Option.bind_some, ← guard_roundHalfEven N hDpos]
      rfl
  obtain ⟨m, j, hnearest, hvalue⟩ := nearestFloat_roundHalfEven (p := 52) (N := N) (D := 2 * D)
    (by decide) (by omega) (by omega) (by omega) (e - 52)
  have hhalf : (N / (2 * D : Nat) : ℚ) * 2 ^ (e - 52) = a / b := by
    push_cast
    rw [mul_comm 2 (D : ℚ), ← div_div, hscaled, div_mul_eq_mul_div, mul_assoc,
      ← zpow_add₀ two_ne_zero, show 53 - e + (e - 52) = 1 by omega, zpow_one,
      mul_div_cancel_right₀ _ two_ne_zero]
  rw [hhalf] at hnearest
  refine ⟨F64.roundHalfEven N (2 * D), e - 52, hparts, by omega, by omega, ?_, m, j, hnearest,
    hvalue⟩
  exact F64.roundHalfEven_le (by omega) (by omega)

theorem ofRatio_le {n t : Nat} (hn : n ≤ 2 ^ 53) (ht : 52 ≤ t) (ht' : t < 1989) :
    ∃ e m, F64.ofRatio false (n * 2 ^ t) 1 = .finite false e m ∧ F64.units e m = n * 2 ^ t := by
  rcases Nat.lt_or_eq_of_le hn with hlt | heq
  · exact F64.ofRatio_dyadic false hlt ht (by omega)
  · rw [show n * 2 ^ t = 2 ^ 52 * 2 ^ (t + 1) by rw [heq, pow_succ 2 52, pow_succ]; ring]
    exact F64.ofRatio_dyadic false (by decide) (by omega) (by omega)

theorem powi2_eq {k : Int} {t : Nat} (ht : (t : Int) = 1074 + k) :
    powi2 k = F64.ofRatio false (1 * 2 ^ t) 1 := by
  obtain ⟨c, hc, hone⟩ := F64.one_eq
  rw [powi2, hone]
  split
  · rw [← pow_add, Nat.one_mul]
    congr 2
    omega
  · rw [show c = t + (-k).toNat by omega, pow_add, F64.ofRatio_scale _ _ (Nat.two_pow_pos _),
      Nat.one_mul]

/-- The factors and their product are exact. -/
theorem parts_value {mant : Nat} {k : Int} (hm : mant ≤ 2 ^ 53) (hlo : -125 ≤ k) (hhi : k ≤ 75) :
    (F64.mul (.ofNat mant) (powi2 k)).isFinite = true ∧
      ((F64.mul (.ofNat mant) (powi2 k)).toUnits : ℚ) = mant * 2 ^ k * F64.one := by
  obtain ⟨c, hc, hone⟩ := F64.one_eq
  obtain ⟨t, ht⟩ := Int.eq_ofNat_of_zero_le (show 0 ≤ 1074 + k by omega)
  obtain ⟨e, u, hmant, hunits⟩ := ofRatio_le hm (show 52 ≤ c by omega) (by omega)
  obtain ⟨f, v, hpow, hunits'⟩ := ofRatio_le (show 1 ≤ 2 ^ 53 by decide)
    (show 52 ≤ t by omega) (by omega)
  obtain ⟨g, w, hproduct, hunits''⟩ := ofRatio_le hm (show 52 ≤ t by omega) (by omega)
  rw [← powi2_eq ht.symm] at hpow
  have hmul : F64.mul (.ofNat mant) (powi2 k) = .finite false g w := by
    rw [F64.ofNat, hone, hmant, hpow, F64.mul, hunits, hunits', hone, ← hproduct, Nat.one_mul,
      Nat.mul_right_comm]
    exact F64.ofRatio_scale false _ (Nat.two_pow_pos c)
  rw [hmul]
  refine ⟨rfl, ?_⟩
  have hexponent : k + (c : Int) = t := by omega
  have hscale : (2 : ℚ) ^ k * 2 ^ c = 2 ^ t := by
    rw [← zpow_natCast, ← zpow_natCast, ← zpow_add₀ two_ne_zero, hexponent]
  simp only [F64.toUnits, Bool.false_eq_true, if_false, hunits'']
  rw [hone]
  push_cast
  rw [mul_assoc, hscale]

/-- `divide_rounded` rounds the exact quotient once, and no shift loses a bit. -/
theorem divideRounded_nearest (ha : 0 < a) (ha' : a < 2 ^ 128) (hb : 0 < b)
    (hb' : bitLength b ≤ 73) :
    ∃ mant k x m j, roundedParts shlExact a b = some (mant, k) ∧
      roundedParts shlU128 a b = some (mant, k) ∧ divideRounded a b = some x ∧
      x.isFinite = true ∧ (x.toUnits : ℚ) / F64.one = mant * 2 ^ k ∧
      NearestFloat 52 (a / b) m j ∧ (m * 2 ^ j : ℚ) = mant * 2 ^ k := by
  obtain ⟨mant, k, hparts, hlo, hhi, hm, m, j, hnearest, hvalue⟩ := roundedParts_spec ha ha' hb hb'
  obtain ⟨hfinite, hunits⟩ := parts_value hm hlo hhi
  have hwrap := hparts shlU128 shlU128_keepsBits
  refine ⟨mant, k, _, m, j, hparts shlExact shlExact_keepsBits, hwrap, ?_, hfinite, ?_, hnearest,
    hvalue⟩
  · rw [divideRounded, hwrap]
    rfl
  · have hone : (F64.one : ℚ) ≠ 0 := by exact_mod_cast F64.one_pos.ne'
    rw [hunits, mul_div_cancel_right₀ _ hone]

/-- All bits of the significand are ones, and rounding carries. -/
theorem divideRounded_carry :
    ∃ mant k x m j, roundedParts shlExact (2 ^ 54 - 1) 1 = some (mant, k) ∧
      roundedParts shlU128 (2 ^ 54 - 1) 1 = some (mant, k) ∧
      divideRounded (2 ^ 54 - 1) 1 = some x ∧ x.isFinite = true ∧
      (x.toUnits : ℚ) / F64.one = mant * 2 ^ k ∧
      NearestFloat 52 ((2 ^ 54 - 1 : Nat) / (1 : Nat)) m j ∧ (m * 2 ^ j : ℚ) = mant * 2 ^ k :=
  divideRounded_nearest (by decide) (by decide) (by decide) (Nat.size_le.2 (by decide))

theorem lengthNs_bits {unit : Unit} {d : Nat} (h : unit.lengthNs = some d) :
    0 < d ∧ bitLength d ≤ 73 := by
  have hlt : 0 < d ∧ d < 2 ^ 73 := by
    cases unit <;> simp only [Unit.lengthNs, Option.some.injEq, reduceCtorEq] at h <;> subst h <;>
      decide
  exact ⟨hlt.1, Nat.size_le.2 hlt.2⟩

theorem toUnits_neg (x : F64) : (F64.neg x).toUnits = -x.toUnits := by
  cases x with
  | nan => rfl
  | infinity s => rfl
  | finite s e m => cases s <;> simp [F64.neg, F64.toUnits]

/-- The total of a time duration is the exact quotient, rounded once, with its sign. -/
theorem totalTimeDuration_nearest {time : Int} {unit : Unit} {d : Nat} (hd : unit.lengthNs = some d)
    (htime : time ≠ 0) (hrange : time.natAbs < 2 ^ 128) :
    ∃ (x : F64) (m : Nat) (j : Int), totalTimeDuration time unit = some x ∧
      (x.toUnits : ℚ) / F64.one = time.sign * (m * 2 ^ j) ∧
      NearestFloat 52 (time.natAbs / d) m j := by
  obtain ⟨hpos, hbits⟩ := lengthNs_bits hd
  obtain ⟨mant, k, hparts, hlo, hhi, hm, m, j, hnearest, hvalue⟩ :=
    roundedParts_spec (Int.natAbs_pos.2 htime) hrange hpos hbits
  have hunits := (parts_value hm hlo hhi).2
  have hone : (F64.one : ℚ) ≠ 0 := by exact_mod_cast F64.one_pos.ne'
  have htotal : totalTimeDuration time unit = some (if time < 0
      then F64.neg (F64.mul (.ofNat mant) (powi2 k)) else F64.mul (.ofNat mant) (powi2 k)) := by
    simp only [totalTimeDuration, hd, divideRounded, hparts shlU128 shlU128_keepsBits,
      Option.bind_eq_bind, Option.bind_some, if_neg htime]
    rfl
  refine ⟨_, m, j, htotal, ?_, hnearest⟩
  split
  · rename_i hneg
    rw [toUnits_neg, Int.sign_eq_neg_one_of_neg hneg]
    push_cast
    rw [hunits, hvalue, neg_div, mul_div_cancel_right₀ _ hone]
    ring
  · rw [Int.sign_eq_one_of_pos (by omega), hunits, hvalue, mul_div_cancel_right₀ _ hone]
    push_cast
    ring

end Slag.Temporal
