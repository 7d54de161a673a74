import Mathlib.Algebra.Order.Floor.Semifield
import Mathlib.Data.Int.Log
import Mathlib.Data.Nat.Size
import Mathlib.Data.Rat.Floor
import Slag.Crux.Object

/-!
The shifts and powers of a BigInt (`bigint.rs`). The big integers of the
library are the integers.
-/

namespace Slag.Crux.BigInt

/-- `bits`: the length of the magnitude. -/
def bits (x : Int) : Nat := x.natAbs.size

/-- `as u32`. -/
def asU32 (n : Int) : Nat := (n % 2 ^ 32).toNat

def saturate (n : Nat) : Nat := min n (2 ^ 64 - 1)

def maxBigintBits : Nat := 2 ^ 30

def exponentiate (base exponent : Int) : Except JsError Int :=
  if exponent < 0 then
    .error { kind := .rangeError, message := "Exponent must be non-negative" }
  else
    -- The decimal text of the exponent, read as a `u64` where it fits.
    let exp := if exponent < 2 ^ 64 then exponent.toNat else 2 ^ 64 - 1
    if 2 ^ 32 ≤ exp then
      .error { kind := .rangeError, message := "Exponent too large" }
    else
      let baseBits := bits base
      if 1 < baseBits ∧ maxBigintBits < saturate (saturate ((baseBits - 1) * exp) + 1) then
        .error { kind := .rangeError, message := "Maximum BigInt size exceeded" }
      else .ok (base ^ exp)

/-- A count is an `i64`, whose negation wraps. -/
def leftShift (x : Int) (shift : Int64) : Int :=
  if 0 ≤ shift then x * 2 ^ asU32 shift.toInt
  else x.tdiv (2 ^ asU32 (-shift).toInt)

def rightShift (x : Int) (shift : Int64) : Int := leftShift x (-shift)

/-- What a shift is to give: `x * 2 ^ n`, rounded down. -/
def scaled (x n : Int) : Int := ⌊(x : ℚ) * 2 ^ n⌋

variable {base x : Int} {n : Int64}

theorem bits_le {n : Nat} : bits x ≤ n ↔ x.natAbs < 2 ^ n := Nat.size_le

theorem lt_bits {n : Nat} : n < bits x ↔ 2 ^ n ≤ x.natAbs := Nat.lt_size

theorem scaled_natCast (x : Int) (n : Nat) : scaled x n = x * 2 ^ n := by
  have h : (x : ℚ) * 2 ^ (n : Int) = ((x * 2 ^ n : Int) : ℚ) := by
    push_cast
    rw [zpow_natCast]
  rw [scaled, h, Int.floor_intCast]

theorem scaled_neg (x : Int) (n : Nat) : scaled x (-n) = x / 2 ^ n := by
  have h : (x : ℚ) * 2 ^ (-(n : Int)) = (x : ℚ) / ((2 ^ n : Nat) : ℚ) := by
    rw [zpow_neg, zpow_natCast, div_eq_mul_inv]
    push_cast
    rfl
  rw [scaled, h, Int.floor_div_natCast, Int.floor_intCast]
  push_cast
  rfl

theorem toInt_neg_emod (n : Int64) : (-n).toInt % 2 ^ 32 = -n.toInt % 2 ^ 32 := by
  rw [Int64.toInt_neg]
  have h : (-n.toInt).bmod (2 ^ 64) % 2 ^ 64 = -n.toInt % 2 ^ 64 := by
    rw [show ((2 : Int) ^ 64) = ((2 ^ 64 : Nat) : Int) by norm_num, Int.bmod_emod]
  omega

theorem asU32_neg (n : Int64) : asU32 (-n).toInt = asU32 (-n.toInt) := by
  rw [asU32, asU32, toInt_neg_emod]

theorem asU32_natCast (n : Nat) : asU32 n = n % 2 ^ 32 := by
  unfold asU32
  omega

/-- The shifts to the right whose truncating division by a narrowed power rounds
down after all. -/
def Floors (x : Int) (count : Nat) : Prop :=
  if count < 2 ^ 32 then 0 ≤ x ∨ (2 : Int) ^ count ∣ x
  else
    let kept := count % 2 ^ 32
    (0 ≤ x ∧ x < 2 ^ kept) ∨ (2 ^ kept ≤ -x ∧ -x < 2 ^ (kept + 1))

instance (x : Int) (count : Nat) : Decidable (Floors x count) := by
  unfold Floors
  infer_instance

theorem tdiv_eq_ediv_iff {x d : Int} (hd : 0 < d) : x.tdiv d = x / d ↔ 0 ≤ x ∨ d ∣ x := by
  rw [Int.tdiv_eq_ediv]
  split
  · simp [*]
  · rename_i h
    simp [h, Int.sign_eq_one_of_pos hd]

/-- A quotient by a small divisor is one by a much larger one only at its ends. -/
theorem tdiv_eq_ediv_mul_iff {x d k : Int} (hd : 0 < d) (hk : 4 ≤ k) :
    x.tdiv d = x / (d * k) ↔ (0 ≤ x ∧ x < d) ∨ (d ≤ -x ∧ -x < 2 * d) := by
  have hD : 4 * d ≤ d * k := by nlinarith
  rcases Int.le_total 0 x with hx | hx
  · rw [Int.tdiv_eq_ediv_of_nonneg hx, ← Int.ediv_ediv_of_nonneg hd.le]
    have hq : 0 ≤ x / d := Int.ediv_nonneg hx hd.le
    constructor
    · intro h
      have hzero : x / d = 0 := by
        have hlt : x / d / k * k ≤ x / d := Int.ediv_mul_le _ (by omega)
        rw [← h] at hlt
        nlinarith
      have hlt := ((Int.ediv_eq_iff_of_pos hd).mp hzero).2
      exact Or.inl ⟨hx, by omega⟩
    · intro h
      have hzero : x / d = 0 := by
        apply Int.ediv_eq_zero_of_lt hx
        omega
      rw [hzero, Int.zero_ediv]
  · obtain ⟨y, rfl⟩ : ∃ y, x = -y := ⟨-x, (Int.neg_neg x).symm⟩
    have hy : 0 ≤ y := by omega
    rw [Int.neg_tdiv, Int.tdiv_eq_ediv_of_nonneg hy, Int.neg_neg, eq_comm,
      Int.ediv_eq_iff_of_pos (by omega)]
    obtain ⟨hlo, hhi⟩ := (Int.ediv_eq_iff_of_pos hd).mp (rfl : y / d = y / d)
    generalize y / d = q at hlo hhi ⊢
    constructor
    · rintro ⟨hle, hlt⟩
      rcases Int.lt_trichotomy q 1 with hq | rfl | hq
      · have hzero : y = 0 := by nlinarith
        exact Or.inl ⟨by omega, by omega⟩
      · exact Or.inr ⟨by omega, by omega⟩
      · have hfar : (q - 1) * (4 * d) ≤ (q - 1) * (d * k) :=
          Int.mul_le_mul_of_nonneg_left hD (by omega)
        nlinarith
    · rintro (⟨hnonneg, -⟩ | ⟨hle, hlt⟩)
      · have hzero : y = 0 := by omega
        have hq : q = 0 := by nlinarith
        subst hzero hq
        constructor <;> nlinarith
      · have hq : q = 1 := by nlinarith
        subst hq
        constructor <;> nlinarith

theorem lt_bits_mul_two_pow (hx : x ≠ 0) (n : Nat) : n < bits (x * 2 ^ n) := by
  rw [lt_bits, Int.natAbs_mul, Int.natAbs_pow]
  exact Nat.le_mul_of_pos_left _ (Int.natAbs_pos.mpr hx)

theorem maxBigintBits_lt : maxBigintBits < 2 ^ 32 := by
  unfold maxBigintBits
  norm_num

theorem leftShift_nonneg (hn : 0 ≤ n.toInt) (hbits : bits (scaled x n.toInt) ≤ maxBigintBits) :
    leftShift x n = scaled x n.toInt := by
  obtain ⟨k, hk⟩ := Int.eq_ofNat_of_zero_le hn
  have hle : 0 ≤ n := by rw [Int64.le_iff_toInt_le]; exact hn
  rw [leftShift, if_pos hle, hk, scaled_natCast, asU32_natCast]
  rcases eq_or_ne x 0 with rfl | hx
  · rw [Int.zero_mul, Int.zero_mul]
  · rw [hk, scaled_natCast] at hbits
    have hlt : k < 2 ^ 32 :=
      Nat.lt_trans (Nat.lt_of_lt_of_le (lt_bits_mul_two_pow hx k) hbits) maxBigintBits_lt
    rw [Nat.mod_eq_of_lt hlt]

theorem leftShift_neg_iff (count : Nat) (hn : n.toInt = -count) (hpos : 0 < count) :
    leftShift x n = scaled x n.toInt ↔ Floors x count := by
  have hlt : ¬ 0 ≤ n := by
    rw [Int64.le_iff_toInt_le, hn]
    exact not_le.mpr (by simpa using hpos)
  rw [leftShift, if_neg hlt, asU32_neg, hn, Int.neg_neg, asU32_natCast, scaled_neg, Floors]
  have hpow : (0 : Int) < 2 ^ (count % 2 ^ 32) := by positivity
  split
  · rename_i hcount
    rw [Nat.mod_eq_of_lt hcount, tdiv_eq_ediv_iff (by positivity)]
  · rename_i hcount
    have hsplit : (2 : Int) ^ count = 2 ^ (count % 2 ^ 32) * 2 ^ (count - count % 2 ^ 32) := by
      rw [← pow_add, Nat.add_sub_cancel' (Nat.mod_le _ _)]
    have hmod : count % 2 ^ 32 < 2 ^ 32 := Nat.mod_lt _ (by positivity)
    have hfour : (4 : Int) ≤ 2 ^ (count - count % 2 ^ 32) := by
      calc (4 : Int) = 2 ^ 2 := by norm_num
        _ ≤ _ := pow_le_pow_right₀ (by norm_num) (by omega)
    rw [hsplit, tdiv_eq_ediv_mul_iff hpow hfour]
    dsimp only
    rw [pow_succ (2 : Int) (count % 2 ^ 32), Int.mul_comm 2]

theorem leftShift_eq_iff (hbits : bits (scaled x n.toInt) ≤ maxBigintBits) :
    leftShift x n = scaled x n.toInt ↔ 0 ≤ n.toInt ∨ Floors x (-n.toInt).toNat := by
  rcases Int.lt_or_le n.toInt 0 with hn | hn
  · rw [leftShift_neg_iff (-n.toInt).toNat (by omega) (by omega)]
    simp [not_le.mpr hn]
  · simp [hn, leftShift_nonneg hn hbits]

theorem rightShift_eq_iff (hbits : bits (scaled x (-n.toInt)) ≤ maxBigintBits) :
    rightShift x n = scaled x (-n.toInt) ↔ n.toInt ≤ 0 ∨ Floors x n.toInt.toNat := by
  have hlo := Int64.le_toInt n
  have hhi := Int64.toInt_lt n
  rcases eq_or_ne n.toInt (-2 ^ 63) with hmin | hmin
  · -- The least count has no negation; its result fits for zero only.
    have hx : x = 0 := by
      by_contra hx
      rw [hmin, Int.neg_neg, show ((2 : Int) ^ 63) = ((2 ^ 63 : Nat) : Int) by norm_num,
        scaled_natCast] at hbits
      have hfar := Nat.lt_of_lt_of_le (lt_bits_mul_two_pow hx (2 ^ 63)) hbits
      unfold maxBigintBits at hfar
      omega
    subst hx
    have hscaled : scaled 0 (-n.toInt) = 0 := by simp [scaled]
    rw [hscaled]
    simp only [rightShift, leftShift, Int.zero_mul, Int.zero_tdiv, ite_self, true_iff]
    exact Or.inl (by omega)
  · have hneg : (-n).toInt = -n.toInt := by
      rw [Int64.toInt_neg, Int.bmod_eq_of_le (by omega) (by omega)]
    rw [← hneg] at hbits ⊢
    rw [rightShift, leftShift_eq_iff hbits, hneg, Int.neg_neg, Left.nonneg_neg_iff]

/-- The integer power where it has at most `maxBigintBits` bits, otherwise a
`RangeError`. -/
def PowerAsSpecified (base exponent : Int) : Prop :=
  if 0 ≤ exponent ∧ bits (base ^ exponent.toNat) ≤ maxBigintBits then
    exponentiate base exponent = .ok (base ^ exponent.toNat)
  else ∃ error, exponentiate base exponent = .error error ∧ error.kind = .rangeError

/-- The exponents whose power is judged by what it is: those of a small base from
`2 ^ 32` on are refused, and a large base goes by an estimate. -/
def PowerJudged (base exponent : Int) : Prop :=
  if exponent < 2 ^ 32 then
    exponent < 0 ∨ base.natAbs ≤ 1 ∨ base.natAbs ^ exponent.toNat < 2 ^ maxBigintBits ∨
      maxBigintBits ≤ (bits base - 1) * exponent.toNat
  else 1 < base.natAbs

theorem bits_pow_gt (hbase : 1 < base.natAbs) (n : Nat) :
    (bits base - 1) * n < bits (base ^ n) := by
  have hbits : bits base - 1 < bits base := by
    have hpos : 0 < bits base := lt_bits.mpr (by rw [pow_zero]; omega)
    omega
  rw [lt_bits, Int.natAbs_pow, pow_mul]
  exact Nat.pow_le_pow_left (lt_bits.mp hbits) n

theorem one_lt_bits : 1 < bits base ↔ 1 < base.natAbs := by
  rw [lt_bits, pow_one]
  rfl

theorem natAbs_pow_le_one (h : base.natAbs ≤ 1) (n : Nat) :
    (base ^ n).natAbs ≤ 1 := by
  calc (base ^ n).natAbs = base.natAbs ^ n := Int.natAbs_pow base n
    _ ≤ 1 ^ n := Nat.pow_le_pow_left h n
    _ = 1 := one_pow n

theorem maxBigintBits_lt_saturate {n : Nat} :
    maxBigintBits < saturate (saturate n + 1) ↔ maxBigintBits ≤ n := by
  have hmax := maxBigintBits_lt
  unfold saturate
  omega

theorem exponentiate_small {base exponent : Int} (hlo : 0 ≤ exponent) (hhi : exponent < 2 ^ 32) :
    exponentiate base exponent =
      if 1 < base.natAbs ∧ maxBigintBits ≤ (bits base - 1) * exponent.toNat then
        .error { kind := .rangeError, message := "Maximum BigInt size exceeded" }
      else .ok (base ^ exponent.toNat) := by
  have hneg : ¬ exponent < 0 := by omega
  have hfits : exponent < 2 ^ 64 := by omega
  have hlt : ¬ 2 ^ 32 ≤ exponent.toNat := by omega
  simp only [exponentiate, if_neg hneg, if_pos hfits, if_neg hlt, maxBigintBits_lt_saturate,
    one_lt_bits]

theorem exponentiate_large {base exponent : Int} (hexponent : 2 ^ 32 ≤ exponent) :
    exponentiate base exponent =
      .error { kind := .rangeError, message := "Exponent too large" } := by
  have hneg : ¬ exponent < 0 := by omega
  have hlarge : 2 ^ 32 ≤ if exponent < 2 ^ 64 then exponent.toNat else 2 ^ 64 - 1 := by
    split <;> omega
  simp only [exponentiate, if_neg hneg, if_pos hlarge]

theorem exponentiate_iff (base exponent : Int) :
    PowerAsSpecified base exponent ↔ PowerJudged base exponent := by
  have hmax := maxBigintBits_lt
  have hone : 1 ≤ maxBigintBits := by
    unfold maxBigintBits
    norm_num
  have hsmall : base.natAbs ≤ 1 → bits (base ^ exponent.toNat) ≤ maxBigintBits := by
    intro hbase
    apply Nat.le_trans _ hone
    rw [bits_le]
    exact Nat.lt_of_le_of_lt (natAbs_pow_le_one hbase _) (by norm_num)
  unfold PowerAsSpecified PowerJudged
  rcases Int.lt_or_le exponent 0 with hneg | hlo
  · have herror : exponentiate base exponent =
        .error { kind := .rangeError, message := "Exponent must be non-negative" } := by
      rw [exponentiate, if_pos hneg]
    rw [if_neg (by omega), if_pos (by omega), herror]
    simp [hneg]
  rcases Int.lt_or_le exponent (2 ^ 32) with hhi | hhi
  · rw [if_pos hhi, exponentiate_small hlo hhi]
    rcases Nat.lt_or_ge 1 base.natAbs with hbase | hbase
    · rcases Nat.lt_or_ge ((bits base - 1) * exponent.toNat) maxBigintBits with hest | hest
      · -- The estimate lets the power through.
        have hallowed : ¬ (1 < base.natAbs ∧ maxBigintBits ≤ (bits base - 1) * exponent.toNat) :=
          fun h => absurd h.2 (Nat.not_le.mpr hest)
        rw [if_neg hallowed]
        have hpow : base.natAbs ^ exponent.toNat < 2 ^ maxBigintBits ↔
            bits (base ^ exponent.toNat) ≤ maxBigintBits := by
          rw [bits_le, Int.natAbs_pow]
        rw [hpow]
        simp [hlo, not_lt.mpr hlo, not_le.mpr hbase, not_le.mpr hest]
      · have hlarge := Nat.lt_of_le_of_lt hest (bits_pow_gt hbase exponent.toNat)
        rw [if_neg fun h => absurd h.2 (Nat.not_le.mpr hlarge), if_pos ⟨hbase, hest⟩]
        simp [hest]
    · rw [if_pos ⟨hlo, hsmall hbase⟩, if_neg fun h => absurd h.1 (Nat.not_lt.mpr hbase)]
      simp [hbase]
  · have hnot : ¬ exponent < 2 ^ 32 := Int.not_lt.mpr hhi
    rw [exponentiate_large hhi]
    simp only [if_neg hnot]
    rcases Nat.lt_or_ge 1 base.natAbs with hbase | hbase
    · have hbits : 1 ≤ bits base - 1 := by
        have := one_lt_bits.mpr hbase
        omega
      have hlarge := bits_pow_gt hbase exponent.toNat
      have hmul := Nat.mul_le_mul_right exponent.toNat hbits
      have hfar : maxBigintBits < bits (base ^ exponent.toNat) := by omega
      rw [if_neg fun h => absurd h.2 (Nat.not_le.mpr hfar)]
      simp [hbase]
    · rw [if_pos ⟨hlo, hsmall hbase⟩]
      simp [not_lt.mpr hbase]

theorem shiftsAndPowers_iff (x : Int) (n : Int64) (base exponent : Int) :
    (bits (scaled x n.toInt) ≤ maxBigintBits →
      (leftShift x n = scaled x n.toInt ↔ 0 ≤ n.toInt ∨ Floors x (-n.toInt).toNat)) ∧
    (bits (scaled x (-n.toInt)) ≤ maxBigintBits →
      (rightShift x n = scaled x (-n.toInt) ↔ n.toInt ≤ 0 ∨ Floors x n.toInt.toNat)) ∧
    (PowerAsSpecified base exponent ↔ PowerJudged base exponent) :=
  ⟨leftShift_eq_iff, rightShift_eq_iff, exponentiate_iff base exponent⟩

/-- An even negative number is shifted as it should be. -/
theorem shiftsAndPowers_even : rightShift (-8) 1 = scaled (-8) (-1) := by
  have hbits : bits (scaled (-8) (-1)) ≤ maxBigintBits := by
    have hscaled : scaled (-8) (-1) = -4 := scaled_neg (-8) 1
    rw [hscaled, bits_le]
    calc Int.natAbs (-4) < 2 ^ 3 := by decide
      _ ≤ 2 ^ maxBigintBits := Nat.pow_le_pow_right (by decide) (by decide)
  exact ((shiftsAndPowers_iff (-8) 1 0 0).2.1 hbits).mpr (Or.inr (by decide))

/-- A negative odd number, a count of `2 ^ 32` and a power of one. -/
theorem shiftsAndPowers_fail :
    (rightShift (-7) 1 = -3 ∧ scaled (-7) (-1) = -4 ∧ bits (-4) ≤ maxBigintBits) ∧
    (rightShift 5 4294967296 = 5 ∧ scaled 5 (-4294967296) = 0 ∧ bits 0 ≤ maxBigintBits) ∧
    ¬ PowerAsSpecified 1 4294967296 := by
  refine ⟨⟨by decide, scaled_neg (-7) 1, ?_⟩, ⟨by decide, ?_, ?_⟩, ?_⟩
  · rw [bits_le]
    calc Int.natAbs (-4) < 2 ^ 3 := by decide
      _ ≤ 2 ^ maxBigintBits := Nat.pow_le_pow_right (by decide) (by decide)
  · rw [show (4294967296 : Int) = ((4294967296 : Nat) : Int) by norm_num, scaled_neg]
    apply Int.ediv_eq_zero_of_lt (by norm_num)
    calc (5 : Int) < 2 ^ 3 := by norm_num
      _ ≤ 2 ^ 4294967296 := pow_le_pow_right₀ (by norm_num) (by norm_num)
  · rw [bits_le]
    exact Nat.two_pow_pos _
  · rw [exponentiate_iff, PowerJudged, if_neg (by norm_num)]
    decide

end Slag.Crux.BigInt
