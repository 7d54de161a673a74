import Mathlib.Data.Nat.Size
import Slag.Lib.BinaryFormat

/-!
The binary16 element conversion of `typed_array.rs`, on bit patterns.
-/

namespace Slag.Crux

namespace Float16

def leadingZeros (n : Nat) : Nat := 64 - n.size

def isNan (x : UInt64) : Bool := 0x7FF0000000000000 < x.toNat % 2 ^ 63

def isInfinite (x : UInt64) : Bool := x.toNat % 2 ^ 63 = 0x7FF0000000000000

def isZero (x : UInt64) : Bool := x.toNat % 2 ^ 63 = 0

def isSignNegative (x : UInt64) : Bool := 2 ^ 63 ≤ x.toNat

/-- The mantissa with its leading bit at `2 ^ 52`, and the exponent of its unit. -/
def normalize (biased fraction : Nat) : Nat × Int :=
  if biased = 0 then
    let shift := leadingZeros fraction - 11
    (fraction <<< shift, -1074 - shift)
  else (fraction ||| 1 <<< 52, biased - 1075)

/-- Eleven bits of the mantissa; a carry may reach the exponent. -/
def roundNormal (sign mantissa : Nat) (exponent : Int) : Nat :=
  let half := mantissa >>> 41 &&& 1
  let sticky := mantissa &&& (1 <<< 41 - 1) ≠ 0
  let kept := mantissa >>> 42
  let exponent := exponent + 42
  let (kept, exponent) :=
    if half = 1 ∧ (sticky ∨ kept &&& 1 = 1) then
      if kept + 1 = 1 <<< 11 then ((kept + 1) >>> 1, exponent + 1) else (kept + 1, exponent)
    else (kept, exponent)
  let biased := exponent + 25
  if 31 ≤ biased then sign ||| 0x7C00
  else sign ||| biased.toNat <<< 10 ||| kept &&& 0x3FF

/-- The mantissa in units of the least subnormal. -/
def roundSubnormal (sign mantissa : Nat) (exponent : Int) : Nat :=
  let right := (-(exponent + 24)).toNat
  if 54 ≤ right then sign
  else
    let lost := mantissa &&& (1 <<< right - 1)
    let rounded := mantissa >>> right +
      if 1 <<< (right - 1) < lost ∨ lost = 1 <<< (right - 1) ∧ mantissa >>> right &&& 1 = 1 then 1
      else 0
    if rounded = 0 then sign
    else if 1 <<< 10 ≤ rounded then sign ||| 1 <<< 10
    else sign ||| rounded

theorem shiftLeft_leadingZeros {n : Nat} (hpos : 0 < n) (hlt : n < 2 ^ 52) :
    leadingZeros n - 11 ≤ 52 ∧ 2 ^ 52 ≤ n * 2 ^ (leadingZeros n - 11) ∧
      n * 2 ^ (leadingZeros n - 11) < 2 ^ 53 := by
  have hsize : 0 < n.size := Nat.size_pos.2 hpos
  have hle : n.size ≤ 52 := Nat.size_le.2 hlt
  have hshift : leadingZeros n - 11 = 53 - n.size := by
    unfold leadingZeros
    omega
  have hlow : 2 ^ (n.size - 1) ≤ n := Nat.lt_size.1 (by omega)
  have hhigh : n < 2 ^ n.size := Nat.lt_size_self n
  rw [hshift]
  refine ⟨by omega, ?_, ?_⟩
  · calc 2 ^ 52 = 2 ^ (n.size - 1) * 2 ^ (53 - n.size) := by
          rw [← pow_add]
          congr 1
          omega
      _ ≤ _ := Nat.mul_le_mul_right _ hlow
  · calc n * 2 ^ (53 - n.size) < 2 ^ n.size * 2 ^ (53 - n.size) :=
          Nat.mul_lt_mul_of_pos_right hhigh (Nat.two_pow_pos _)
      _ = 2 ^ 53 := by
          rw [← pow_add]
          congr 1
          omega

theorem normalize_spec {biased fraction : Nat} (hlt : fraction < 2 ^ 52)
    (hne : biased * 2 ^ 52 + fraction ≠ 0) :
    ∃ k : Nat, (normalize biased fraction).2 = k - 1126 ∧
      2 ^ 52 ≤ (normalize biased fraction).1 ∧ (normalize biased fraction).1 < 2 ^ 53 ∧
      (normalize biased fraction).1 * 2 ^ k =
        patternUnits 52 (biased * 2 ^ 52 + fraction) * 2 ^ 52 := by
  have hdiv : (biased * 2 ^ 52 + fraction) / 2 ^ 52 = biased := by omega
  have hmod : (biased * 2 ^ 52 + fraction) % 2 ^ 52 = fraction := by omega
  rw [patternUnits, hdiv, hmod]
  unfold normalize
  split
  · rename_i hzero
    subst hzero
    have hpos : 0 < fraction := by omega
    obtain ⟨hle, hlow, hhigh⟩ := shiftLeft_leadingZeros hpos hlt
    dsimp only
    rw [Nat.shiftLeft_eq]
    refine ⟨52 - (leadingZeros fraction - 11), by omega, hlow, hhigh, ?_⟩
    rw [Nat.mul_assoc, ← pow_add, Nat.add_sub_cancel' hle]
  · rename_i hbiased
    obtain ⟨E, rfl⟩ := Nat.exists_eq_succ_of_ne_zero hbiased
    have hor : fraction ||| 1 <<< 52 = 2 ^ 52 + fraction := by
      rw [Nat.or_comm, ← Nat.shiftLeft_add_eq_or_of_lt hlt, Nat.shiftLeft_eq, Nat.one_mul]
    dsimp only
    rw [hor]
    refine ⟨E + 52, ?_, by omega, by omega, ?_⟩
    · push_cast
      ring
    · rw [Nat.succ_eq_add_one, Nat.add_sub_cancel, pow_add, Nat.mul_assoc]

theorem packNormal (sign C k : Nat) (hlow : 2 ^ 10 ≤ k) (hhigh : k < 2 ^ 11) :
    (if (31 : Int) ≤ C + 1 then sign ||| 0x7C00
      else sign ||| ((C : Int) + 1).toNat <<< 10 ||| k &&& 0x3FF) =
      sign ||| min (k + 2 ^ 10 * C) 0x7C00 := by
  have hand : k &&& 0x3FF = k - 2 ^ 10 := by
    rw [show (0x3FF : Nat) = 2 ^ 10 - 1 from rfl, Nat.and_two_pow_sub_one_eq_mod]
    omega
  split
  · rw [Nat.min_eq_right (by omega)]
  · have hbiased : ((C : Int) + 1).toNat = C + 1 := by omega
    have hfields : (C + 1) * 2 ^ 10 + (k - 2 ^ 10) = k + 2 ^ 10 * C := by omega
    rw [Nat.min_eq_left (by omega), Nat.or_assoc, hand, hbiased,
      ← Nat.shiftLeft_add_eq_or_of_lt (by omega), Nat.shiftLeft_eq, hfields]

theorem roundHalfEven_eq (m half : Nat) : F64.roundHalfEven m (2 * half) = m / (2 * half) +
    if half < m % (2 * half) ∨ m % (2 * half) = half ∧ m / (2 * half) % 2 = 1 then 1 else 0 := by
  unfold F64.roundHalfEven
  dsimp only
  generalize m % (2 * half) = t
  generalize m / (2 * half) = q
  split
  · rw [if_neg (by omega), Nat.add_zero]
  · split
    · rw [if_pos (by omega)]
    · rcases Nat.mod_two_eq_zero_or_one q with hq | hq
      · rw [if_neg (by omega), hq]
      · rw [if_pos (by omega), hq]

/-- Half and sticky bits decide as the remainder does. -/
theorem roundHalfEven_half (m : Nat) : F64.roundHalfEven m (2 ^ 42) =
    m / 2 ^ 42 + if m / 2 ^ 41 % 2 = 1 ∧ (m % 2 ^ 41 ≠ 0 ∨ m / 2 ^ 42 % 2 = 1) then 1 else 0 := by
  have h := roundHalfEven_eq m (2 ^ 41)
  rw [← pow_succ'] at h
  rw [h]
  congr 1
  apply if_congr _ rfl rfl
  omega

theorem roundNormal_eq (sign : Nat) {m : Nat} (B : Nat) (hlow : 2 ^ 52 ≤ m) (hhigh : m < 2 ^ 53) :
    roundNormal sign m (B - 66) =
      sign ||| min (F64.roundHalfEven m (2 ^ 42) + 2 ^ 10 * B) 0x7C00 := by
  have hsticky : m &&& (1 <<< 41 - 1) = m % 2 ^ 41 := by
    rw [Nat.shiftLeft_eq, Nat.one_mul, Nat.and_two_pow_sub_one_eq_mod]
  have hqlow : 2 ^ 10 ≤ m / 2 ^ 42 := by omega
  have hqhigh : m / 2 ^ 42 < 2 ^ 11 := by omega
  unfold roundNormal
  rw [roundHalfEven_half]
  simp only [hsticky, Nat.and_one_is_mod, Nat.shiftRight_eq_div_pow]
  generalize m / 2 ^ 42 = q at *
  by_cases hup : m / 2 ^ 41 % 2 = 1 ∧ (m % 2 ^ 41 ≠ 0 ∨ q % 2 = 1)
  · simp only [if_pos hup]
    split
    · rename_i hcarry
      have hcarry : q + 1 = 2 ^ 11 := by simpa using hcarry
      have hbiased : (B : Int) - 66 + 42 + 1 + 25 = (B + 1 : Nat) + 1 := by
        push_cast
        ring
      dsimp only
      rw [hcarry, hbiased, packNormal sign (B + 1) _ (by decide) (by decide)]
      congr 2
      omega
    · rename_i hcarry
      have hcarry : q + 1 ≠ 2 ^ 11 := by simpa using hcarry
      have hbiased : (B : Int) - 66 + 42 + 25 = B + 1 := by ring
      dsimp only
      rw [hbiased, packNormal sign B _ (by omega) (by omega)]
  · have hbiased : (B : Int) - 66 + 42 + 25 = B + 1 := by ring
    simp only [if_neg hup, Nat.add_zero]
    rw [hbiased, packNormal sign B _ hqlow hqhigh]

theorem roundSubnormal_eq (sign : Nat) {m d : Nat} (hd : 43 ≤ d) (hhigh : m < 2 ^ 53) :
    roundSubnormal sign m (-d - 24) = sign ||| F64.roundHalfEven m (2 ^ d) := by
  have hright : (-(-(d : Int) - 24 + 24)).toNat = d := by omega
  have hlost : m &&& (1 <<< d - 1) = m % 2 ^ d := by
    rw [Nat.shiftLeft_eq, Nat.one_mul, Nat.and_two_pow_sub_one_eq_mod]
  have hhalf : 2 ^ d = 2 * 2 ^ (d - 1) := by
    rw [← pow_succ']
    congr 1
    omega
  have hlt : m / 2 ^ d < 2 ^ 10 := by
    rw [Nat.div_lt_iff_lt_mul (Nat.two_pow_pos d)]
    calc m < 2 ^ 10 * 2 ^ 43 := by omega
      _ ≤ 2 ^ 10 * 2 ^ d := Nat.mul_le_mul_left _ (Nat.pow_le_pow_right (by decide) hd)
  have hround : F64.roundHalfEven m (2 ^ d) = m / 2 ^ d +
      if 2 ^ (d - 1) < m % 2 ^ d ∨ m % 2 ^ d = 2 ^ (d - 1) ∧ m / 2 ^ d % 2 = 1 then 1 else 0 := by
    rw [hhalf]
    exact roundHalfEven_eq m _
  unfold roundSubnormal
  simp only [hright, hlost, Nat.and_one_is_mod, Nat.shiftRight_eq_div_pow]
  simp only [Nat.shiftLeft_eq, Nat.one_mul]
  rw [← hround]
  split
  · -- Less than half of the least subnormal.
    have hpow : 2 ^ 54 ≤ 2 ^ d := Nat.pow_le_pow_right (by decide) (by assumption)
    rw [F64.roundHalfEven, Nat.div_eq_of_lt (by omega), Nat.mod_eq_of_lt (by omega),
      if_pos (by omega), Nat.or_zero]
  · split
    · rename_i hzero
      rw [hzero, Nat.or_zero]
    · have hle : F64.roundHalfEven m (2 ^ d) ≤ 2 ^ 10 := by
        rw [hround]
        split <;> omega
      split
      · rename_i hge
        rw [Nat.le_antisymm hle hge]
      · rfl

end Float16

open Float16

def f16FromF64 (x : UInt64) : Nat :=
  if isNan x then 0x7E00
  else if isZero x then if isSignNegative x then 0x8000 else 0
  else if isInfinite x then if isSignNegative x then 0xFC00 else 0x7C00
  else
    let bits := x.toNat
    let sign := bits >>> 63 <<< 15
    let biased := bits >>> 52 &&& 0x7FF
    let fraction := bits &&& 0xFFFFFFFFFFFFF
    let (mantissa, exponent) := normalize biased fraction
    if -14 ≤ exponent + 52 then roundNormal sign mantissa exponent
    else roundSubnormal sign mantissa exponent

example : f16FromF64 0x3FF0000000000000 = 0x3C00 := by decide +kernel

-- One unit in the last place above half of the least subnormal.
example : f16FromF64 0x3E60000000000001 = 1 := by decide +kernel

namespace Float16

def binary16 : BinaryFormat := ⟨10, 24, 0x7C00, by decide⟩

def binary64 : BinaryFormat := ⟨52, 1074, 0x7FF0000000000000, by decide⟩

def magnitudeBits (x : UInt64) : Nat := x.toNat % 2 ^ 63

theorem magnitudeBits_le {x : UInt64} (h : isNan x = false) : magnitudeBits x ≤ binary64.top := by
  simpa [isNan, magnitudeBits, binary64] using h

def signBit (neg : Bool) : Nat := if neg then 2 ^ 15 else 0

theorem shiftRight_sign (x : UInt64) : x.toNat >>> 63 <<< 15 = signBit (isSignNegative x) := by
  have hlt := x.toNat_lt
  rw [Nat.shiftRight_eq_div_pow, Nat.shiftLeft_eq]
  unfold signBit isSignNegative
  split
  · rename_i hneg
    have hneg := of_decide_eq_true hneg
    omega
  · rename_i hpos
    have hpos := of_decide_eq_false (Bool.eq_false_of_not_eq_true hpos)
    omega

theorem signBit_or (neg : Bool) {n : Nat} (h : n < 2 ^ 15) : signBit neg ||| n = signBit neg + n := by
  cases neg with
  | false => simp [signBit]
  | true =>
      have hor := Nat.shiftLeft_add_eq_or_of_lt h 1
      exact hor.symm

theorem cancel_two_pow {v w : ℚ} (a b c : Nat) (h : v * 2 ^ (a + c) = w * 2 ^ (b + c)) :
    v * 2 ^ a = w * 2 ^ b := by
  apply mul_right_cancel₀ (pow_ne_zero c (two_ne_zero (α := ℚ)))
  rw [mul_assoc, mul_assoc, ← pow_add, ← pow_add]
  exact h

/-- Both paths, in the units of one rounded significand. -/
theorem rounds_number {m k : Nat} (neg : Bool) {v : ℚ} (hlow : 2 ^ 52 ≤ m) (hhigh : m < 2 ^ 53)
    (hv : v * 2 ^ 1126 = m * 2 ^ k) :
    ∃ n, (if -14 ≤ (k - 1126 : Int) + 52 then roundNormal (signBit neg) m (k - 1126)
      else roundSubnormal (signBit neg) m (k - 1126)) = signBit neg + n ∧
      binary16.Nearest v n := by
  split
  · rename_i hnormal
    obtain ⟨B, rfl⟩ : ∃ B, k = B + 1060 := ⟨k - 1060, by omega⟩
    have hexponent : ((B + 1060 : Nat) : Int) - 1126 = B - 66 := by omega
    refine ⟨min (F64.roundHalfEven m (2 ^ 42) + 2 ^ 10 * B) 0x7C00, ?_, ?_⟩
    · rw [hexponent, roundNormal_eq _ B hlow hhigh, signBit_or]
      omega
    · apply BinaryFormat.Between.nearest (F := binary16)
      apply BinaryFormat.between_round (F := binary16)
      · have hunits := cancel_two_pow 66 B 1060 hv
        rw [mul_assoc, ← pow_add]
        exact hunits
      · right
        exact hlow
      · exact (show m ≤ 2 ^ 11 * 2 ^ 42 by omega)
  · rename_i hsubnormal
    obtain ⟨d, hd⟩ : ∃ d, d + k = 1102 := ⟨1102 - k, by omega⟩
    have hexponent : (k : Int) - 1126 = -d - 24 := by omega
    have hle : m ≤ 2 ^ 10 * 2 ^ d := by
      calc m ≤ 2 ^ 10 * 2 ^ 43 := by omega
        _ ≤ 2 ^ 10 * 2 ^ d :=
          Nat.mul_le_mul_left _ (Nat.pow_le_pow_right (by decide) (by omega))
    have hround := F64.roundHalfEven_le (Nat.two_pow_pos d) hle
    have htop : F64.roundHalfEven m (2 ^ d) ≤ binary16.top := Nat.le_trans hround (by decide)
    refine ⟨F64.roundHalfEven m (2 ^ d), ?_, ?_⟩
    · rw [hexponent, roundSubnormal_eq _ (by omega) hhigh, signBit_or]
      omega
    · have hbetween : binary16.Between v (F64.roundHalfEven m (2 ^ d) + 2 ^ 10 * 0) := by
        apply BinaryFormat.between_round (F := binary16)
        · rw [show 1126 = 24 + d + k by omega] at hv
          have hunits := cancel_two_pow (24 + d) 0 k (by rw [Nat.zero_add]; exact hv)
          rw [mul_assoc, ← pow_add]
          exact hunits
        · left
          rfl
        · exact (show m ≤ 2 ^ 11 * 2 ^ d by omega)
      have hnearest := hbetween.nearest
      rw [Nat.mul_zero, Nat.add_zero, Nat.min_eq_left htop] at hnearest
      exact hnearest

theorem f16FromF64_rounds {x : UInt64} (h : isNan x = false) :
    ∃ n, f16FromF64 x = signBit (isSignNegative x) + n ∧
      BinaryFormat.Rounds binary64 binary16 (magnitudeBits x) n := by
  unfold f16FromF64
  rw [if_neg (by simp [h])]
  split
  · rename_i hzero
    have hzero : magnitudeBits x = 0 := of_decide_eq_true hzero
    refine ⟨0, rfl, Nat.zero_le _, ?_, ?_⟩
    · intro htop
      rw [hzero] at htop
      exact absurd htop (by decide)
    · intro
      rw [hzero, BinaryFormat.value_zero, ← BinaryFormat.value_zero (F := binary16)]
      exact BinaryFormat.nearest_value (Nat.zero_le _)
  · rename_i hzero
    have hzero : magnitudeBits x ≠ 0 := of_decide_eq_false (Bool.eq_false_of_not_eq_true hzero)
    split
    · rename_i hinfinite
      have hinfinite : magnitudeBits x = binary64.top := of_decide_eq_true hinfinite
      refine ⟨binary16.top, ?_, Nat.le_refl _, fun _ => rfl, ?_⟩
      · unfold signBit
        split <;> rfl
      · intro hlt
        omega
    · rename_i hinfinite
      have hinfinite : magnitudeBits x ≠ binary64.top :=
        of_decide_eq_false (Bool.eq_false_of_not_eq_true hinfinite)
      have hfinite := Nat.lt_of_le_of_ne (magnitudeBits_le h) hinfinite
      have hbiased : x.toNat >>> 52 &&& 0x7FF = magnitudeBits x / 2 ^ 52 := by
        rw [show 0x7FF = 2 ^ 11 - 1 from rfl, Nat.and_two_pow_sub_one_eq_mod,
          Nat.shiftRight_eq_div_pow, magnitudeBits]
        omega
      have hfraction : x.toNat &&& 0xFFFFFFFFFFFFF = magnitudeBits x % 2 ^ 52 := by
        rw [show 0xFFFFFFFFFFFFF = 2 ^ 52 - 1 from rfl, Nat.and_two_pow_sub_one_eq_mod,
          magnitudeBits]
        omega
      have hsplit : magnitudeBits x / 2 ^ 52 * 2 ^ 52 + magnitudeBits x % 2 ^ 52 =
          magnitudeBits x := Nat.div_add_mod' _ _
      have hne : magnitudeBits x / 2 ^ 52 * 2 ^ 52 + magnitudeBits x % 2 ^ 52 ≠ 0 := by
        rw [hsplit]
        exact hzero
      obtain ⟨k, hk, hlow, hhigh, hunits⟩ :=
        normalize_spec (Nat.mod_lt (magnitudeBits x) (Nat.two_pow_pos 52)) hne
      rw [hsplit] at hunits
      simp only [hbiased, hfraction, shiftRight_sign]
      generalize normalize (magnitudeBits x / 2 ^ 52) (magnitudeBits x % 2 ^ 52) = p at *
      obtain ⟨m, exponent⟩ := p
      dsimp only at hk hlow hhigh hunits ⊢
      subst hk
      have hv : binary64.value (magnitudeBits x) * 2 ^ 1126 = m * 2 ^ k := by
        have hcast := congrArg (Nat.cast (R := ℚ)) hunits
        rw [Nat.cast_mul, Nat.cast_mul, Nat.cast_pow, Nat.cast_pow, Nat.cast_ofNat] at hcast
        rw [hcast, BinaryFormat.value, show 1126 = 1074 + 52 from rfl, pow_add, ← mul_assoc]
        congr 1
        exact div_mul_cancel₀ _ (pow_ne_zero 1074 two_ne_zero)
      obtain ⟨n, hn, hnearest⟩ := rounds_number (isSignNegative x) hlow hhigh hv
      exact ⟨n, hn, hnearest.1, fun htop => absurd htop hinfinite, fun _ => hnearest⟩

/-- Infinities are numbers here, and the two zeros are one. -/
noncomputable def reading64 (x : UInt64) : EReal :=
  binary64.extended (isSignNegative x) (magnitudeBits x)

noncomputable def reading16 (h : Nat) : EReal :=
  binary16.extended (2 ^ 15 ≤ h) (h % 2 ^ 15)

structure CorrectlyRounded (f : UInt64 → Nat) : Prop where
  nan : ∀ x, isNan x → f x = 0x7E00
  sign : ∀ x, isNan x = false → f x < 2 ^ 16 ∧ (2 ^ 15 ≤ f x ↔ isSignNegative x)
  infinite : ∀ x, isInfinite x → f x % 2 ^ 15 = binary16.top
  nearest : ∀ x, magnitudeBits x < binary64.top →
    binary16.Nearest (binary64.value (magnitudeBits x)) (f x % 2 ^ 15)
  overflow : ∀ x, magnitudeBits x < binary64.top →
    (f x % 2 ^ 15 = binary16.top ↔ 65520 ≤ binary64.value (magnitudeBits x))
  monotone : ∀ x y, isNan x = false → isNan y = false → reading64 x ≤ reading64 y →
    reading16 (f x) ≤ reading16 (f y)
  exact : ∀ x h, isNan x = false → h < 2 ^ 16 → h % 2 ^ 15 ≤ binary16.top →
    reading64 x = reading16 h → (isSignNegative x ↔ 2 ^ 15 ≤ h) → f x = h

theorem signBit_fields (neg : Bool) {n : Nat} (h : n ≤ binary16.top) :
    signBit neg + n < 2 ^ 16 ∧ (signBit neg + n) % 2 ^ 15 = n ∧
      (2 ^ 15 ≤ signBit neg + n ↔ neg) := by
  have hlt : n ≤ 0x7C00 := h
  cases neg with
  | false =>
      have hbit : signBit false = 0 := rfl
      rw [hbit]
      refine ⟨by omega, by omega, ?_⟩
      simp only [Bool.false_eq_true, iff_false, Nat.not_le]
      omega
  | true =>
      have hbit : signBit true = 2 ^ 15 := rfl
      rw [hbit]
      refine ⟨by omega, by omega, ?_⟩
      simp only [iff_true]
      omega

theorem reading16_signBit (neg : Bool) {n : Nat} (h : n ≤ binary16.top) :
    reading16 (signBit neg + n) = binary16.extended neg n := by
  obtain ⟨_, hn, hneg⟩ := signBit_fields neg h
  rw [reading16, hn]
  congr 1
  cases neg with
  | false => simpa using hneg
  | true => simpa using hneg

theorem not_isNan {x : UInt64} (h : magnitudeBits x ≤ binary64.top) : isNan x = false := by
  simpa [isNan, magnitudeBits, binary64] using h

theorem midpoint_overflow : binary16.value binary16.top + binary16.value 0x7BFF = 2 * 65520 := by
  simp [binary16, BinaryFormat.value, patternUnits]
  norm_num

theorem overflow_iff {v : ℚ} {n : Nat} (h : binary16.Nearest v n) :
    n = binary16.top ↔ 65520 ≤ v := by
  rw [BinaryFormat.nearest_top_iff (n := 0x7BFF) rfl rfl h, midpoint_overflow]
  constructor <;> intro <;> linarith

end Float16

theorem f16FromF64_correctlyRounded : CorrectlyRounded f16FromF64 := by
  constructor
  case nan =>
    intro x h
    rw [f16FromF64, if_pos h]
  case sign =>
    intro x h
    obtain ⟨n, hn, hrounds⟩ := f16FromF64_rounds h
    obtain ⟨hlt, _, hneg⟩ := signBit_fields (isSignNegative x) hrounds.le_top
    rw [hn]
    exact ⟨hlt, hneg⟩
  case infinite =>
    intro x h
    have htop : magnitudeBits x = binary64.top := of_decide_eq_true h
    obtain ⟨n, hn, hrounds⟩ := f16FromF64_rounds (not_isNan htop.le)
    rw [hn, (signBit_fields _ hrounds.le_top).2.1]
    exact hrounds.infinity htop
  case nearest =>
    intro x h
    obtain ⟨n, hn, hrounds⟩ := f16FromF64_rounds (not_isNan h.le)
    rw [hn, (signBit_fields _ hrounds.le_top).2.1]
    exact hrounds.number h
  case overflow =>
    intro x h
    obtain ⟨n, hn, hrounds⟩ := f16FromF64_rounds (not_isNan h.le)
    rw [hn, (signBit_fields _ hrounds.le_top).2.1]
    exact overflow_iff (hrounds.number h)
  case monotone =>
    intro x y hx hy hle
    obtain ⟨n, hn, hrounds⟩ := f16FromF64_rounds hx
    obtain ⟨m, hm, hroundsY⟩ := f16FromF64_rounds hy
    rw [hn, hm, reading16_signBit _ hrounds.le_top, reading16_signBit _ hroundsY.le_top]
    exact hrounds.extended_le hroundsY (magnitudeBits_le hx) (magnitudeBits_le hy) (by decide)
      (by decide) hle
  case exact =>
    intro x h hx hlt htop heq hneg
    obtain ⟨n, hn, hrounds⟩ := f16FromF64_rounds hx
    have hsign : (2 ^ 15 ≤ h : Bool) = isSignNegative x := by
      rw [Bool.eq_iff_iff, decide_eq_true_iff]
      exact hneg.symm
    have hsplit : h = signBit (isSignNegative x) + h % 2 ^ 15 := by
      rw [← hsign]
      unfold signBit
      split
      · rename_i hle
        have hle := of_decide_eq_true hle
        omega
      · rename_i hle
        have hle := of_decide_eq_false (Bool.eq_false_of_not_eq_true hle)
        omega
    have hmagnitude : binary64.magnitude (magnitudeBits x) = binary16.magnitude (h % 2 ^ 15) := by
      rw [reading64, reading16, hsign] at heq
      unfold BinaryFormat.extended at heq
      split at heq
      · exact neg_injective heq
      · exact heq
    rw [hn, hrounds.eq_of_magnitude htop (magnitudeBits_le hx) hmagnitude]
    exact hsplit.symm

end Slag.Crux
