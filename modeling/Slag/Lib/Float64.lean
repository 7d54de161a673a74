import Mathlib.Data.Nat.Log
import Mathlib.Tactic.Ring
import Mathlib.Tactic.NormNum
import Mathlib.Tactic.Positivity

/-!
Executable binary64 numbers with one NaN. A finite number is an integral
multiple of the least subnormal, so every operation is exact integer
arithmetic followed by one rounding to nearest, ties to even. NaN payloads
are not represented: no operation here can tell them apart.
-/

namespace Slag

inductive F64
  | nan
  | infinity (neg : Bool)
  | finite (neg : Bool) (exponent : Fin 2047) (mantissa : Fin (2 ^ 52))
deriving DecidableEq, Repr

namespace F64

instance neZero_exponents : NeZero 2047 := ⟨by decide⟩
instance neZero_mantissas : NeZero (2 ^ 52) := ⟨by decide⟩

/-- Magnitude of a finite number, in units of the least subnormal `2 ^ -1074`. -/
def units (exponent mantissa : Nat) : Nat :=
  if exponent = 0 then mantissa else (2 ^ 52 + mantissa) * 2 ^ (exponent - 1)

/-- One, in units of the least subnormal. -/
@[irreducible]
def one : Nat := 2 ^ 1074

def zero : F64 := .finite false 0 0
def negZero : F64 := .finite true 0 0

/-- Nearest integer to `num / den`, ties to even. -/
def roundHalfEven (num den : Nat) : Nat :=
  let q := num / den
  let r := num % den
  if 2 * r < den then q
  else if den < 2 * r then q + 1
  else q + q % 2

/-- Assemble a significand `m < 2 ^ 53` scaled by `2 ^ shift`. -/
def assemble (neg : Bool) (m shift : Nat) : F64 :=
  if hm : m < 2 ^ 52 then
    .finite neg 0 ⟨m, hm⟩
  else if hs : shift + 1 < 2047 then
    .finite neg ⟨shift + 1, hs⟩ ⟨(m - 2 ^ 52) % 2 ^ 52, Nat.mod_lt _ (by norm_num)⟩
  else .infinity neg

/-- The binary64 number nearest to `num / den` units. -/
def ofRatio (neg : Bool) (num den : Nat) : F64 :=
  let shift := Nat.log2 (num / den) - 52
  let m := roundHalfEven num (den * 2 ^ shift)
  if m = 2 ^ 53 then assemble neg (2 ^ 52) (shift + 1) else assemble neg m shift

def ofNat (n : Nat) : F64 := ofRatio false (n * one) 1

def ofInt (i : Int) : F64 := ofRatio (i < 0) (i.natAbs * one) 1

def isNaN : F64 → Bool
  | .nan => true
  | _ => false

def isFinite : F64 → Bool
  | .finite .. => true
  | _ => false

def isSignNegative : F64 → Bool
  | .nan => false
  | .infinity neg | .finite neg _ _ => neg

/-- The exact value in units; zero for the numbers that have none. -/
def toUnits : F64 → Int
  | .finite neg e m => if neg then -(units e m : Int) else units e m
  | _ => 0

/-- Round an exact sum or difference; a zero result takes `zeroNeg`. -/
def ofUnits (zeroNeg : Bool) (u : Int) : F64 :=
  if u = 0 then .finite zeroNeg 0 0 else ofRatio (u < 0) u.natAbs 1

def neg : F64 → F64
  | .nan => .nan
  | .infinity s => .infinity (!s)
  | .finite s e m => .finite (!s) e m

def abs : F64 → F64
  | .nan => .nan
  | .infinity _ => .infinity false
  | .finite _ e m => .finite false e m

def add : F64 → F64 → F64
  | .nan, _ | _, .nan => .nan
  | .infinity s, .infinity t => if s = t then .infinity s else .nan
  | .infinity s, .finite .. | .finite .., .infinity s => .infinity s
  | x@(.finite s _ _), y@(.finite t _ _) => ofUnits (s && t) (toUnits x + toUnits y)

def sub (x y : F64) : F64 := add x (neg y)

def mul : F64 → F64 → F64
  | .nan, _ | _, .nan => .nan
  | .infinity s, .infinity t => .infinity (s != t)
  | .infinity s, .finite t e m | .finite t e m, .infinity s =>
      if units e m = 0 then .nan else .infinity (s != t)
  | .finite s e m, .finite t f n => ofRatio (s != t) (units e m * units f n) one

def div : F64 → F64 → F64
  | .nan, _ | _, .nan => .nan
  | .infinity _, .infinity _ => .nan
  | .infinity s, .finite t _ _ => .infinity (s != t)
  | .finite s _ _, .infinity t => .finite (s != t) 0 0
  | .finite s e m, .finite t f n =>
      if units f n = 0 then
        if units e m = 0 then .nan else .infinity (s != t)
      else ofRatio (s != t) (units e m * one) (units f n)

/-- The remainder keeps the sign of the dividend and is always exact. -/
def rem : F64 → F64 → F64
  | .nan, _ | _, .nan | .infinity _, _ => .nan
  | x@(.finite ..), .infinity _ => x
  | .finite s e m, .finite _ f n =>
      if units f n = 0 then .nan else ofRatio s (units e m % units f n) 1

/-- Numeric order; no NaN is below or equal to anything. -/
def lt : F64 → F64 → Bool
  | .nan, _ | _, .nan => false
  | .infinity s, .infinity t => s && !t
  | .infinity s, .finite .. => s
  | .finite .., .infinity t => !t
  | x@(.finite ..), y@(.finite ..) => toUnits x < toUnits y

/-- Numeric equality, which identifies the two zeros. -/
def eq : F64 → F64 → Bool
  | .nan, _ | _, .nan => false
  | .infinity s, .infinity t => s = t
  | .infinity _, .finite .. | .finite .., .infinity _ => false
  | x@(.finite ..), y@(.finite ..) => toUnits x = toUnits y

def le (x y : F64) : Bool := lt x y || eq x y

/-- The integer part, toward zero. -/
def truncate : F64 → Int
  | .finite neg e m =>
      let t : Int := units e m / one
      if neg then -t else t
  | _ => 0

/-- `fract() == 0.0`: the number is finite and has no fractional part. -/
def isIntegral : F64 → Bool
  | .finite _ e m => units e m % one = 0
  | _ => false

/-- Two's complement wrap to 32 bits, as a signed integer. -/
def wrapInt32 (i : Int) : Int := (i + 2 ^ 31) % 2 ^ 32 - 2 ^ 31

def toInt32 (x : F64) : Int := wrapInt32 (truncate x)

def toUint32 (x : F64) : Nat := (truncate x % 2 ^ 32).toNat

/-- The saturating cast to an unsigned 64-bit integer. -/
def asU64 : F64 → Nat
  | .nan => 0
  | .infinity neg => if neg then 0 else 2 ^ 64 - 1
  | x@(.finite ..) => min (truncate x).toNat (2 ^ 64 - 1)

theorem one_pos : 0 < one := by
  unfold one
  positivity

theorem ofRatio_zero (neg : Bool) : ofRatio neg 0 1 = .finite neg 0 0 := by
  decide +revert

theorem roundHalfEven_mul (q den : Nat) (h : 0 < den) : roundHalfEven (q * den) den = q := by
  simp [roundHalfEven, Nat.mul_div_cancel _ h, h]

variable {n : Nat} {i : Int} {x : F64}

private theorem log2_mul_two_pow (h : n ≠ 0) (k : Nat) :
    Nat.log2 (n * 2 ^ k) = Nat.log2 n + k := by
  have hb := (Nat.log2_eq_iff h).mp rfl
  rw [Nat.log2_eq_iff (Nat.mul_ne_zero h (by positivity)),
    show Nat.log2 n + k + 1 = (Nat.log2 n + 1) + k by omega, pow_add, pow_add _ _ k]
  exact ⟨Nat.mul_le_mul_right _ hb.1, Nat.mul_lt_mul_of_pos_right hb.2 (by positivity)⟩

/-- A number of at most 53 bits, moved up to a 53-bit significand. -/
private theorem significand_bounds (h : n ≠ 0) (hL : Nat.log2 n ≤ 52) :
    2 ^ 52 ≤ n * 2 ^ (52 - Nat.log2 n) ∧ n * 2 ^ (52 - Nat.log2 n) < 2 ^ 53 := by
  have hb := (Nat.log2_eq_iff h).mp rfl
  constructor
  · calc 2 ^ 52 = 2 ^ Nat.log2 n * 2 ^ (52 - Nat.log2 n) := by rw [← pow_add]; congr 1; omega
      _ ≤ _ := Nat.mul_le_mul_right _ hb.1
  · calc _ < 2 ^ (Nat.log2 n + 1) * 2 ^ (52 - Nat.log2 n) :=
          Nat.mul_lt_mul_of_pos_right hb.2 (by positivity)
      _ = 2 ^ 53 := by rw [← pow_add]; congr 1; omega

private theorem ofRatio_two_pow (neg : Bool) {n k : Nat} (h : n ≠ 0) (hL : Nat.log2 n ≤ 52)
    (hk : 52 ≤ k) :
    ofRatio neg (n * 2 ^ k) 1 =
      assemble neg (n * 2 ^ (52 - Nat.log2 n)) (Nat.log2 n + (k - 52)) := by
  have hsplit : n * 2 ^ k = n * 2 ^ (52 - Nat.log2 n) * 2 ^ (Nat.log2 n + (k - 52)) := by
    rw [mul_assoc, ← pow_add]
    congr 2
    omega
  have hhi := (significand_bounds h hL).2
  have hshift : Nat.log2 n + k - 52 = Nat.log2 n + (k - 52) := by omega
  simp only [ofRatio, Nat.div_one, log2_mul_two_pow h, hshift, one_mul]
  rw [hsplit, roundHalfEven_mul _ _ (by positivity), if_neg (ne_of_lt hhi)]

/-- Numbers of at most 53 bits are represented exactly. -/
theorem ofRatio_dyadic (neg : Bool) {n k : Nat} (hn : n < 2 ^ 53) (hk : 52 ≤ k) (hk' : k < 1990) :
    ∃ e m, ofRatio neg (n * 2 ^ k) 1 = .finite neg e m ∧ units e m = n * 2 ^ k := by
  by_cases h0 : n = 0
  · subst h0
    exact ⟨0, 0, by rw [Nat.zero_mul, ofRatio_zero], by simp [units]⟩
  have hL : Nat.log2 n ≤ 52 := Nat.lt_succ_iff.mp ((Nat.log2_lt h0).mpr hn)
  obtain ⟨hlo, hhi⟩ := significand_bounds h0 hL
  have hmod : (n * 2 ^ (52 - Nat.log2 n) - 2 ^ 52) % 2 ^ 52 = n * 2 ^ (52 - Nat.log2 n) - 2 ^ 52 :=
    Nat.mod_eq_of_lt (by omega)
  have hk52 : Nat.log2 n + (k - 52) + 1 < 2047 := by omega
  have he : 52 - Nat.log2 n + (Nat.log2 n + (k - 52) + 1 - 1) = k := by omega
  rw [ofRatio_two_pow neg h0 hL hk]
  refine ⟨⟨Nat.log2 n + (k - 52) + 1, hk52⟩,
    ⟨(n * 2 ^ (52 - Nat.log2 n) - 2 ^ 52) % 2 ^ 52, Nat.mod_lt _ (by norm_num)⟩, ?_, ?_⟩
  · rw [assemble, dif_neg (not_lt.mpr hlo), dif_pos hk52]
  · simp only [units, hmod]
    rw [if_neg (Nat.succ_ne_zero _), Nat.add_sub_cancel' hlo, mul_assoc, ← pow_add, he]

/-- The unit of ones as a power, for a literal power would be evaluated. -/
theorem one_eq : ∃ k, k = 1074 ∧ one = 2 ^ k := ⟨1074, rfl, by unfold one; rfl⟩

theorem ofRatio_exact (neg : Bool) (hn : n < 2 ^ 53) :
    ∃ e m, ofRatio neg (n * one) 1 = .finite neg e m ∧ units e m = n * one := by
  obtain ⟨k, hk, hone⟩ := one_eq
  rw [hone]
  exact ofRatio_dyadic neg hn (by omega) (by omega)

/-- `x` is finite and its exact value is the integer `i`; both zeros have value 0. -/
def HasInt (x : F64) (i : Int) : Prop := x.isFinite = true ∧ x.toUnits = i * one

theorem HasInt.finite (h : HasInt x i) :
    ∃ s e m, x = .finite s e m ∧ (finite s e m).toUnits = i * one := by
  cases x with
  | finite s e m => exact ⟨s, e, m, rfl, h.2⟩
  | _ => cases h.1

theorem hasInt_ofRatio (neg : Bool) (hn : n < 2 ^ 53) :
    HasInt (ofRatio neg (n * one) 1) (if neg then -n else n) := by
  obtain ⟨e, m, h, hu⟩ := ofRatio_exact neg hn
  rw [h]
  refine ⟨rfl, ?_⟩
  cases neg <;> simp [toUnits, hu]

theorem hasInt_ofInt (h : i.natAbs < 2 ^ 53) : HasInt (ofInt i) i := by
  have hr := hasInt_ofRatio (i < 0) h
  have hv : (if decide (i < 0) = true then -(i.natAbs : Int) else i.natAbs) = i := by
    by_cases hi : i < 0
    · simp only [hi, decide_true, if_true]
      omega
    · simp only [hi, decide_false, Bool.false_eq_true, if_false]
      omega
  rwa [hv] at hr

theorem hasInt_ofNat (h : n < 2 ^ 53) : HasInt (ofNat n) n := by
  exact hasInt_ofRatio false h

theorem HasInt.unique {i j : Int} (hi : HasInt x i) (hj : HasInt x j) : i = j := by
  have h : i * (one : Int) = j * one := hi.2.symm.trans hj.2
  exact mul_right_cancel₀ (by exact_mod_cast one_pos.ne') h

theorem ofUnits_int (zeroNeg : Bool) (h : i.natAbs < 2 ^ 53) (h0 : i = 0 → zeroNeg = false) :
    ofUnits zeroNeg (i * one) = ofInt i := by
  have hpos : (0 : Int) < one := by exact_mod_cast one_pos
  by_cases hi : i = 0
  · subst hi
    simp [ofUnits, h0 rfl, ofInt, ofRatio_zero]
  · have hne : i * (one : Int) ≠ 0 := mul_ne_zero hi hpos.ne'
    have hsign : (i * (one : Int) < 0) ↔ i < 0 := by
      constructor
      · intro hlt
        by_contra hc
        have := mul_nonneg (not_lt.mp hc) hpos.le
        omega
      · intro hlt
        exact mul_neg_of_neg_of_pos hlt hpos
    simp [ofUnits, hne, ofInt, hsign, Int.natAbs_mul]

/-- Addition of integers is exact while the sum fits in 53 bits. A zero sum of
two negative zeros is the one case that does not give the canonical integer. -/
theorem add_int {x y : F64} {a b : Int} (hx : HasInt x a) (hy : HasInt y b)
    (h : (a + b).natAbs < 2 ^ 53)
    (hz : a + b = 0 → (x.isSignNegative && y.isSignNegative) = false) :
    add x y = ofInt (a + b) := by
  obtain ⟨s, e, m, rfl, hxu⟩ := hx.finite
  obtain ⟨t, f, n, rfl, hyu⟩ := hy.finite
  simp only [add, hxu, hyu, ← add_mul]
  exact ofUnits_int _ h hz

theorem hasInt_add {x y : F64} {a b : Int} (hx : HasInt x a) (hy : HasInt y b)
    (h : (a + b).natAbs < 2 ^ 53) : HasInt (add x y) (a + b) := by
  by_cases hz : a + b = 0 → (x.isSignNegative && y.isSignNegative) = false
  · rw [add_int hx hy h hz]
    exact hasInt_ofInt h
  · obtain ⟨hzero, -⟩ := Classical.not_imp.mp hz
    obtain ⟨s, e, m, rfl, hxu⟩ := hx.finite
    obtain ⟨t, f, n, rfl, hyu⟩ := hy.finite
    simp only [add, hxu, hyu, ← add_mul, hzero, zero_mul]
    refine ⟨rfl, ?_⟩
    simp [ofUnits, toUnits, units]

/-- Only the ratio counts. -/
theorem ofRatio_cancel (neg : Bool) (n d : Nat) {k : Nat} (hk : 0 < k) :
    ofRatio neg (n * k) (d * k) = ofRatio neg n d := by
  have hround : ∀ c, roundHalfEven (n * k) (d * k * c) = roundHalfEven n (d * c) := by
    intro c
    have hden : d * k * c = k * (d * c) := by ring
    have hquot : n * k / (k * (d * c)) = n / (d * c) := by
      rw [Nat.mul_comm n, Nat.mul_div_mul_left _ _ hk]
    have hrem : n * k % (k * (d * c)) = k * (n % (d * c)) := by
      rw [Nat.mul_comm n, Nat.mul_mod_mul_left]
    have hless : ∀ a b : Nat, a < b ↔ k * a < k * b := fun a b => (Nat.mul_lt_mul_left hk).symm
    simp only [roundHalfEven, hden, hquot, hrem, Nat.mul_left_comm 2 k, ← hless]
  simp only [ofRatio, Nat.mul_div_mul_right _ _ hk, hround]

theorem ofRatio_scale (neg : Bool) (n : Nat) {k : Nat} (hk : 0 < k) :
    ofRatio neg (n * k) k = ofRatio neg n 1 := by
  simpa only [Nat.one_mul] using ofRatio_cancel neg n 1 hk

/-- The magnitude and the sign of an integral number. -/
theorem units_of_int {s : Bool} {e m : Nat}
    (hu : (if s then -(units e m : Int) else units e m) = i * one) :
    units e m = i.natAbs * one ∧ (i ≠ 0 → (s = true ↔ i < 0)) := by
  have hone : (0 : Int) < one := by exact_mod_cast one_pos
  have habs : units e m = i.natAbs * one := by
    have := congrArg Int.natAbs hu
    rw [Int.natAbs_mul, Int.natAbs_natCast] at this
    rw [← this]
    cases s <;> simp
  refine ⟨habs, fun hi => ?_⟩
  have hunits : 0 < units e m := by
    rw [habs]
    exact Nat.mul_pos (by omega) one_pos
  cases s with
  | true =>
      refine ⟨fun _ => ?_, fun _ => rfl⟩
      by_contra hc
      have := mul_nonneg (not_lt.mp hc) hone.le
      simp only [if_true] at hu
      omega
  | false =>
      refine ⟨nofun, fun hlt => ?_⟩
      have := mul_neg_of_neg_of_pos hlt hone
      simp only [Bool.false_eq_true, if_false] at hu
      omega

/-- So is multiplication. -/
theorem hasInt_mul {x y : F64} {a b : Int} (hx : HasInt x a) (hy : HasInt y b)
    (h : (a * b).natAbs < 2 ^ 53) : HasInt (mul x y) (a * b) := by
  obtain ⟨s, e, m, rfl, hxu⟩ := hx.finite
  obtain ⟨t, f, n, rfl, hyu⟩ := hy.finite
  obtain ⟨hxm, hxs⟩ := units_of_int hxu
  obtain ⟨hym, hys⟩ := units_of_int hyu
  have hproduct : units e m * units f n = (a * b).natAbs * one * one := by
    rw [hxm, hym, Int.natAbs_mul]
    ring
  have hresult := hasInt_ofRatio (s != t) h
  simp only [mul]
  rw [hproduct, ofRatio_scale _ _ one_pos]
  by_cases hzero : a * b = 0
  · rw [hzero] at hresult ⊢
    simpa using hresult
  · have ha : a ≠ 0 := fun h => hzero (by rw [h, Int.zero_mul])
    have hb : b ≠ 0 := fun h => hzero (by rw [h, Int.mul_zero])
    have hsign : (s != t) = decide (a * b < 0) := by
      rw [Bool.eq_iff_iff, bne_iff_ne, decide_eq_true_iff, ne_eq, Bool.eq_iff_iff, hxs ha, hys hb]
      rcases lt_or_gt_of_ne ha with hal | hal <;> rcases lt_or_gt_of_ne hb with hbl | hbl
      · have := mul_pos_of_neg_of_neg hal hbl
        omega
      · have := mul_neg_of_neg_of_pos hal hbl
        omega
      · have := mul_neg_of_pos_of_neg hal hbl
        omega
      · have := mul_pos hal hbl
        omega
    have hvalue : (if (s != t) = true then -((a * b).natAbs : Int) else (a * b).natAbs) = a * b := by
      rw [hsign]
      by_cases hneg : a * b < 0
      · rw [if_pos (decide_eq_true hneg)]
        omega
      · rw [if_neg (by simpa using hneg)]
        omega
    rwa [hvalue] at hresult

theorem lt_isNaN {x y : F64} (h : (x.isNaN || y.isNaN) = true) : lt x y = false := by
  cases x with
  | nan => rfl
  | infinity s => cases y <;> first | rfl | cases h
  | finite s e m => cases y <;> first | rfl | cases h

theorem le_isNaN {x y : F64} (h : (x.isNaN || y.isNaN) = true) : le x y = false := by
  cases x with
  | nan => rfl
  | infinity s => cases y <;> first | rfl | cases h
  | finite s e m => cases y <;> first | rfl | cases h

/-- The order is total but for NaN. -/
theorem le_eq_not_lt {x y : F64} (h : (x.isNaN || y.isNaN) = false) : le x y = !lt y x := by
  cases x with
  | nan => cases h
  | infinity s =>
      cases y with
      | nan => cases h
      | infinity t => cases s <;> cases t <;> rfl
      | finite t f n => cases s <;> rfl
  | finite s e m =>
      cases y with
      | nan => cases h
      | infinity t => cases t <;> rfl
      | finite t f n =>
          simp only [le, lt, eq]
          rw [← Bool.decide_or, ← decide_not, decide_eq_decide]
          omega

theorem lt_int {x y : F64} {a b : Int} (hx : HasInt x a) (hy : HasInt y b) :
    lt x y = decide (a < b) := by
  obtain ⟨s, e, m, rfl, hxu⟩ := hx.finite
  obtain ⟨t, f, n, rfl, hyu⟩ := hy.finite
  have hpos : (0 : Int) < one := by exact_mod_cast one_pos
  simp only [lt, hxu, hyu, mul_lt_mul_iff_left₀ hpos]

theorem eq_int {x y : F64} {a b : Int} (hx : HasInt x a) (hy : HasInt y b) :
    eq x y = decide (a = b) := by
  obtain ⟨s, e, m, rfl, hxu⟩ := hx.finite
  obtain ⟨t, f, n, rfl, hyu⟩ := hy.finite
  have hpos : (one : Int) ≠ 0 := by exact_mod_cast one_pos.ne'
  simp only [eq, hxu, hyu, mul_left_inj' hpos]

theorem le_int {x y : F64} {a b : Int} (hx : HasInt x a) (hy : HasInt y b) :
    le x y = decide (a ≤ b) := by
  rw [le, lt_int hx hy, eq_int hx hy, Bool.eq_iff_iff]
  simp
  omega

/-- An integral number of magnitude below `2 ^ 53` has its truncation as value. -/
theorem hasInt_truncate (h : x.isIntegral = true) : HasInt x x.truncate := by
  cases x with
  | nan | infinity => simp [isIntegral] at h
  | finite neg e m =>
      have hu : units e m = units e m / one * one := by
        have := Nat.div_add_mod (units e m) one
        simp only [isIntegral, decide_eq_true_eq] at h
        rw [h] at this
        rw [mul_comm]
        omega
      refine ⟨rfl, ?_⟩
      simp only [toUnits, truncate]
      cases neg
      · simp only [Bool.false_eq_true, if_false]
        exact_mod_cast hu
      · simp only [if_true, neg_mul, neg_inj]
        exact_mod_cast hu

theorem truncate_int (h : HasInt x i) : x.truncate = i := by
  obtain ⟨hf, hu⟩ := h
  cases x with
  | nan | infinity => simp [isFinite] at hf
  | finite neg e m =>
      have hpos : (one : Int) ≠ 0 := by exact_mod_cast one_pos.ne'
      simp only [toUnits] at hu
      simp only [truncate]
      cases neg
      · simp only [Bool.false_eq_true, if_false] at hu ⊢
        rw [hu, Int.mul_ediv_cancel _ hpos]
      · simp only [if_true] at hu ⊢
        have hu' : (units e m : Int) = -i * one := by rw [neg_mul, ← hu, neg_neg]
        rw [hu', Int.mul_ediv_cancel _ hpos, neg_neg]

theorem toInt32_int (h : HasInt x i) : toInt32 x = wrapInt32 i := by
  rw [toInt32, truncate_int h]

theorem hasInt_abs (h : HasInt x i) : HasInt x.abs i.natAbs := by
  obtain ⟨hf, hu⟩ := h
  cases x with
  | nan | infinity => cases hf
  | finite s e m =>
      refine ⟨rfl, ?_⟩
      have hmagnitude := (units_of_int hu).1
      have hsame : toUnits (abs (.finite s e m)) = units e m := by simp [toUnits, abs]
      rw [hsame, hmagnitude]
      push_cast
      rfl

theorem abs_lt (h : HasInt x i) (hlt : lt x.abs (.ofNat n) = true) (hn : n < 2 ^ 53 := by decide) :
    i.natAbs < n := by
  rw [lt_int (hasInt_abs h) (hasInt_ofNat hn), decide_eq_true_iff] at hlt
  exact Int.ofNat_lt.mp hlt

theorem hasInt_zero : HasInt zero 0 := ⟨rfl, by simp [toUnits, units, zero]⟩

theorem hasInt_of_eq_zero (h : eq x zero = true) : HasInt x 0 := by
  cases x with
  | nan | infinity => cases h
  | finite s e m =>
      have hzero : toUnits zero = 0 := by simp [toUnits, units, zero]
      have hx : toUnits (.finite s e m) = toUnits zero := of_decide_eq_true h
      exact ⟨rfl, by rw [hx, hzero, Int.zero_mul]⟩

theorem units_lt {e f m n : Nat} (hm : m < 2 ^ 52) (hef : e < f) : units e m < units f n := by
  unfold units
  rw [if_neg (Nat.ne_zero_of_lt hef)]
  split
  · calc m < 2 ^ 52 := hm
      _ ≤ (2 ^ 52 + n) * 1 := by omega
      _ ≤ (2 ^ 52 + n) * 2 ^ (f - 1) := Nat.mul_le_mul_left _ Nat.one_le_two_pow
  · have hpow : 2 ^ (f - 1) = 2 ^ (e - 1) * 2 ^ (f - e) := by
      rw [← pow_add]
      congr 1
      omega
    have htwo : 2 ≤ 2 ^ (f - e) := Nat.le_self_pow (by omega) 2
    calc (2 ^ 52 + m) * 2 ^ (e - 1) < (2 ^ 52 * 2) * 2 ^ (e - 1) :=
          Nat.mul_lt_mul_of_pos_right (by omega) (Nat.two_pow_pos _)
      _ = 2 ^ (e - 1) * (2 ^ 52 * 2) := Nat.mul_comm _ _
      _ ≤ 2 ^ (e - 1) * ((2 ^ 52 + n) * 2 ^ (f - e)) :=
          Nat.mul_le_mul_left _ (Nat.mul_le_mul (by omega) htwo)
      _ = (2 ^ 52 + n) * 2 ^ (f - 1) := by rw [hpow]; ring

theorem units_inj {e f m n : Nat} (hm : m < 2 ^ 52) (hn : n < 2 ^ 52)
    (h : units e m = units f n) : e = f ∧ m = n := by
  rcases Nat.lt_trichotomy e f with hef | rfl | hfe
  · exact absurd h (Nat.ne_of_lt (units_lt hm hef))
  · refine ⟨rfl, ?_⟩
    unfold units at h
    split at h
    · exact h
    · have := Nat.eq_of_mul_eq_mul_right (Nat.two_pow_pos _) h
      omega
  · exact absurd h.symm (Nat.ne_of_lt (units_lt hn hfe))

/-- Equal numbers are one term, the zeros apart. -/
theorem eq_iff {x y : F64} : eq x y = true ↔ x.isNaN = false ∧ x = y ∨
    (x = zero ∨ x = negZero) ∧ (y = zero ∨ y = negZero) := by
  cases x with
  | nan => simp [eq, isNaN, zero, negZero]
  | infinity s => cases y <;> simp [eq, isNaN, zero, negZero]
  | finite s e m =>
      cases y with
      | nan => simp [eq, zero, negZero]
      | infinity t => simp [eq, zero, negZero]
      | finite t f n =>
          have hunits : eq (.finite s e m) (.finite t f n) = true ↔
              toUnits (.finite s e m) = toUnits (.finite t f n) := decide_eq_true_iff
          rw [hunits]
          constructor
          · intro h
            have hnat : units e m = units f n ∧ (s = t ∨ units e m = 0) := by
              cases s <;> cases t <;> simp [toUnits] at h ⊢ <;> omega
            obtain ⟨hmag, hsign⟩ := hnat
            obtain ⟨he, hm⟩ := units_inj m.2 n.2 hmag
            obtain rfl := Fin.ext he
            obtain rfl := Fin.ext hm
            rcases hsign with rfl | hzero
            · exact .inl ⟨rfl, rfl⟩
            · have hsame : units e m = units 0 0 := hzero
              obtain ⟨he, hm⟩ := units_inj m.2 (by norm_num) hsame
              obtain rfl : e = 0 := Fin.ext he
              obtain rfl : m = 0 := Fin.ext hm
              refine .inr ⟨?_, ?_⟩
              · cases s
                · exact .inl rfl
                · exact .inr rfl
              · cases t
                · exact .inl rfl
                · exact .inr rfl
          · rintro (⟨-, h⟩ | ⟨hx, hy⟩)
            · rw [h]
            · rcases hx with hx | hx <;> rcases hy with hy | hy <;> rw [hx, hy] <;> rfl

end F64

end Slag
