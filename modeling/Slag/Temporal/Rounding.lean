import Mathlib.Data.Int.Order.Basic
import Mathlib.Algebra.Order.Group.Abs
import Slag.Lib.Grid

/-!
Rounding to an increment in 128-bit arithmetic: by magnitude with the mode turned by the
sign, and as if all numbers were positive.
-/

namespace Slag.Temporal

inductive RoundingMode
  | ceil | floor | expand | trunc | halfCeil | halfFloor | halfExpand | halfTrunc | halfEven
deriving DecidableEq, Repr

inductive UnsignedMode
  | zero | infinity | halfZero | halfInfinity | halfEven
deriving DecidableEq, Repr

def unsignedMode (mode : RoundingMode) (isNegative : Bool) : UnsignedMode :=
  match mode with
  | .ceil => if isNegative then .zero else .infinity
  | .floor => if isNegative then .infinity else .zero
  | .expand => .infinity
  | .trunc => .zero
  | .halfCeil => if isNegative then .halfZero else .halfInfinity
  | .halfFloor => if isNegative then .halfInfinity else .halfZero
  | .halfExpand => .halfInfinity
  | .halfTrunc => .halfZero
  | .halfEven => .halfEven

/-- Whether the upper bound wins, from the distances to both bounds. -/
def applyUnsigned (d1 d2 q : Nat) : UnsignedMode → Bool
  | .zero => false
  | .infinity => true
  | mode =>
      if d1 < d2 then false
      else if d2 < d1 then true
      else
        match mode with
        | .halfInfinity => true
        | .halfEven => q % 2 = 1
        | _ => false

/-- The result of an operation on `i128`; an overflow panics. -/
def i128 (i : Int) : Option Int := if -2 ^ 127 ≤ i ∧ i < 2 ^ 127 then some i else none

/-- The result of an operation on `u128`. -/
def u128 (i : Int) : Option Nat := if 0 ≤ i ∧ i < 2 ^ 128 then some i.toNat else none

/-- The casts between the two, which wrap. -/
def toU128 (i : Int) : Nat := (i % 2 ^ 128).toNat

def toI128 (n : Nat) : Int := ((n : Int) + 2 ^ 127) % 2 ^ 128 - 2 ^ 127

def roundNumberToIncrement (x increment : Int) (mode : RoundingMode) : Option Int :=
  if increment ≤ 0 ∨ x.tmod increment = 0 then some x
  else do
    let isNegative : Bool := x < 0
    let ax := x.natAbs
    let ai := increment.natAbs
    let q := ax / ai
    let r1 ← u128 (q * ai)
    let next ← u128 (q + 1)
    let r2 ← u128 (next * ai)
    let d1 ← u128 (ax - r1)
    let d2 ← u128 (r2 - ax)
    let mode := unsignedMode mode isNegative
    let roundedAbs := if applyUnsigned d1 d2 q mode then r2 else r1
    if isNegative then i128 (-toI128 roundedAbs) else some (toI128 roundedAbs)

def roundNumberToIncrementAsIfPositive (x increment : Int) (mode : RoundingMode) : Option Int :=
  if increment ≤ 0 ∨ x.tmod increment = 0 then some x
  else do
    let r1 ← i128 (x / increment * increment)
    let r2 ← i128 (r1 + increment)
    let d1 ← i128 (x - r1)
    let d2 ← i128 (r2 - x)
    let mode := unsignedMode mode false
    let q := x / increment
    some (if applyUnsigned (toU128 d1) (toU128 d2) q.natAbs mode then r2 else r1)

def negateRoundingMode : RoundingMode → RoundingMode
  | .ceil => .floor
  | .floor => .ceil
  | .halfCeil => .halfFloor
  | .halfFloor => .halfCeil
  | mode => mode

def RoundingMode.isHalf : RoundingMode → Bool
  | .ceil | .floor | .expand | .trunc => false
  | _ => true

/-! The rules behind the two. -/

theorem applyUnsigned_mono {d1 d2 d1' d2' : Nat} (h1 : d1 ≤ d1') (h2 : d2' ≤ d2) {q : Nat}
    {mode : UnsignedMode} (h : applyUnsigned d1 d2 q mode = true) :
    applyUnsigned d1' d2' q mode = true := by
  by_cases hsame : d1 = d1' ∧ d2 = d2'
  · obtain ⟨rfl, rfl⟩ := hsame
    exact h
  · cases mode with
    | zero => cases h
    | infinity => rfl
    | halfZero | halfInfinity | halfEven =>
        simp only [applyUnsigned] at h ⊢
        have hle : ¬d1 < d2 := by
          intro hlt
          rw [if_pos hlt] at h
          cases h
        rw [if_neg (by omega), if_pos (by omega)]

variable {mode : RoundingMode}

theorem applyUnsigned_nearest (d1 d2 q : Nat) (isNegative : Bool) (hmode : mode.isHalf = true) :
    (d1 < d2 → applyUnsigned d1 d2 q (unsignedMode mode isNegative) = false) ∧
      (d2 < d1 → applyUnsigned d1 d2 q (unsignedMode mode isNegative) = true) := by
  constructor
  · intro h
    cases mode <;> cases hmode <;> cases isNegative <;> simp [applyUnsigned, unsignedMode, h]
  · intro h
    cases mode <;> cases hmode <;> cases isNegative <;>
      simp [applyUnsigned, unsignedMode, h, Nat.lt_asymm h]

variable {a x : Int}

/-- The cell of a negative number is seen from its other end. -/
def signedRule (a : Int) (mode : RoundingMode) : Grid.Rule a where
  up q r :=
    if 0 ≤ q then applyUnsigned r.toNat (a - r).toNat q.toNat (unsignedMode mode false)
    else !applyUnsigned (a - r).toNat r.toNat (-q - 1).toNat (unsignedMode mode true)
  mono q r s _ hrs _ h := by
    split at h
    · rename_i hq
      rw [if_pos hq]
      exact applyUnsigned_mono (by omega) (by omega) h
    · rename_i hq
      rw [if_neg hq]
      rw [Bool.not_eq_true', ← Bool.not_eq_true] at h ⊢
      exact fun h' => h (applyUnsigned_mono (by omega) (by omega) h')

def positiveRule (a : Int) (mode : RoundingMode) : Grid.Rule a where
  up q r := applyUnsigned r.toNat (a - r).toNat q.natAbs (unsignedMode mode false)
  mono _ _ _ _ hrs _ h := applyUnsigned_mono (by omega) (by omega) h

theorem tmod_ne_zero (ha : 0 < a) (h : x % a ≠ 0) : ¬(a ≤ 0 ∨ x.tmod a = 0) := by
  rintro (hle | hzero)
  · omega
  · exact h (Int.emod_eq_zero_of_dvd (Int.dvd_of_tmod_eq_zero hzero))

theorem tmod_eq_zero (h : x % a = 0) : a ≤ 0 ∨ x.tmod a = 0 :=
  Or.inr (Int.tmod_eq_zero_of_dvd (Int.dvd_of_emod_eq_zero h))

theorem u128_natCast {n : Nat} (h : n < 2 ^ 128) : u128 n = some n := by
  rw [u128, if_pos (by omega), Int.toNat_natCast]

theorem i128_fits {i : Int} (h : -2 ^ 127 ≤ i ∧ i < 2 ^ 127) : i128 i = some i := if_pos h

theorem toI128_fits {n : Nat} (h : n < 2 ^ 127) : toI128 n = n := by
  rw [toI128, Int.emod_eq_of_lt (by omega) (by omega)]
  omega

theorem toU128_fits {i : Int} (h : 0 ≤ i) (h' : i < 2 ^ 127) : toU128 i = i.toNat := by
  rw [toU128, Int.emod_eq_of_lt h (by omega)]

theorem asIfPositive_eq (ha : 0 < a) (hfit : |x| + a < 2 ^ 127) (mode : RoundingMode) :
    roundNumberToIncrementAsIfPositive x a mode = some (Grid.round (positiveRule a mode) x) := by
  unfold roundNumberToIncrementAsIfPositive Grid.round
  by_cases hzero : x % a = 0
  · rw [if_pos (tmod_eq_zero hzero), if_pos hzero]
  · obtain ⟨hlo, hhi⟩ := Grid.place_pos ha hzero
    have hcell := Grid.cell_eq x a
    have hstep : (x / a + 1) * a = x / a * a + a := by ring
    have habs := abs_le.1 (show |x| ≤ 2 ^ 127 - 1 - a by omega)
    rw [if_neg (tmod_ne_zero ha hzero), if_neg hzero, i128_fits (by omega)]
    simp only [Option.bind_eq_bind, Option.bind_some]
    rw [i128_fits (by omega)]
    simp only [Option.bind_some]
    rw [i128_fits (by omega)]
    simp only [Option.bind_some]
    rw [i128_fits (by omega)]
    simp only [Option.bind_some]
    rw [toU128_fits (by omega) (by omega), toU128_fits (by omega) (by omega), hstep,
      show x - x / a * a = x % a by omega, show x / a * a + a - x = a - x % a by omega]
    rfl

/-- No step on the magnitudes overflows. -/
theorem magnitude_eq {n b : Nat} (hb : 0 < b) (hfit : n + b < 2 ^ 127) (mode : UnsignedMode)
    (finish : Nat → Option Int) :
    (do
      let q := n / b
      let r1 ← u128 (q * b)
      let next ← u128 (q + 1)
      let r2 ← u128 (next * b)
      let d1 ← u128 (n - r1)
      let d2 ← u128 (r2 - n)
      finish (if applyUnsigned d1 d2 q mode then r2 else r1)) =
      finish (if applyUnsigned (n % b) (b - n % b) (n / b) mode then (n / b + 1) * b else n / b * b) := by
  have hdiv := Nat.div_add_mod n b
  rw [Nat.mul_comm] at hdiv
  have hmod := Nat.mod_lt n hb
  have hstep : (n / b + 1) * b = n / b * b + b := by ring
  have hle : n / b ≤ n := Nat.div_le_self n b
  have hplace : n - n / b * b = n % b := by omega
  have hrest : (n / b + 1) * b - n = b - n % b := by omega
  have h1 : u128 ((n / b : Nat) * (b : Nat)) = some (n / b * b) := by
    rw [← Nat.cast_mul, u128_natCast (by omega)]
  have h2 : u128 ((n / b : Nat) + 1) = some (n / b + 1) := by
    rw [← Nat.cast_succ, u128_natCast (by omega)]
  have h3 : u128 ((n / b + 1 : Nat) * (b : Nat)) = some ((n / b + 1) * b) := by
    rw [← Nat.cast_mul, u128_natCast (by omega)]
  have h4 : u128 ((n : Nat) - (n / b * b : Nat)) = some (n % b) := by
    rw [← Nat.cast_sub (by omega), hplace, u128_natCast (by omega)]
  have h5 : u128 (((n / b + 1) * b : Nat) - (n : Nat)) = some (b - n % b) := by
    rw [← Nat.cast_sub (by omega), hrest, u128_natCast (by omega)]
  dsimp only [Option.bind_eq_bind]
  rw [h1, Option.bind_some, h2, Option.bind_some, h3, Option.bind_some, h4, Option.bind_some, h5,
    Option.bind_some]

theorem round_natCast {n b : Nat} (hne : n % b ≠ 0) (mode : RoundingMode) :
    Grid.round (signedRule b mode) n =
      (if applyUnsigned (n % b) (b - n % b) (n / b) (unsignedMode mode false) then (n / b + 1) * b
        else n / b * b : Nat) := by
  have hplace : ¬(n : Int) % b = 0 := by exact_mod_cast hne
  have hindex : (0 : Int) ≤ n / b := by exact_mod_cast Nat.zero_le _
  have hup : (signedRule b mode).up (n / b) (n % b) =
      applyUnsigned (n % b) (b - n % b) (n / b) (unsignedMode mode false) := by
    simp only [signedRule, if_pos hindex]
    congr 1
    omega
  rw [Grid.round, if_neg hplace, hup]
  split
  · push_cast
    rfl
  · push_cast
    rfl

theorem round_neg_natCast {n b : Nat} (hb : 0 < b) (hne : n % b ≠ 0) (mode : RoundingMode) :
    Grid.round (signedRule b mode) (-n) =
      -(if applyUnsigned (n % b) (b - n % b) (n / b) (unsignedMode mode true) then (n / b + 1) * b
        else n / b * b : Nat) := by
  have hplace : (n : Int) % b ≠ 0 := by exact_mod_cast hne
  obtain ⟨hlo, hhi⟩ := Grid.place_pos (Int.natCast_pos.2 hb) hplace
  obtain ⟨hdiv, hmod⟩ := Grid.neg_cell (Int.natCast_pos.2 hb) hplace
  have hindex : (0 : Int) ≤ n / b := by exact_mod_cast Nat.zero_le _
  have hup : (signedRule b mode).up (-(n / b : Int) - 1) (b - n % b) =
      !applyUnsigned (n % b) (b - n % b) (n / b) (unsignedMode mode true) := by
    simp only [signedRule, if_neg (show ¬0 ≤ -((n : Int) / b) - 1 by omega)]
    congr 2
    · omega
    · omega
    · omega
  have hnegPlace : ¬-(n : Int) % b = 0 := by omega
  rw [Grid.round, if_neg hnegPlace, hdiv, hmod, hup]
  cases applyUnsigned (n % b) (b - n % b) (n / b) (unsignedMode mode true) with
  | true =>
      simp only [Bool.not_true, Bool.false_eq_true, if_false, if_true]
      push_cast
      ring
  | false =>
      simp only [Bool.not_false, Bool.false_eq_true, if_false, if_true]
      push_cast
      ring

theorem roundNumberToIncrement_eq (ha : 0 < a) (hfit : |x| + a < 2 ^ 127) (mode : RoundingMode) :
    roundNumberToIncrement x a mode = some (Grid.round (signedRule a mode) x) := by
  by_cases hzero : x % a = 0
  · unfold roundNumberToIncrement
    rw [if_pos (tmod_eq_zero hzero), Grid.round, if_pos hzero]
  · obtain ⟨hlo, hhi⟩ := Grid.place_pos ha hzero
    obtain ⟨b, rfl⟩ := Int.eq_ofNat_of_zero_le ha.le
    have hb : 0 < b := Int.natCast_pos.1 ha
    rw [Int.abs_eq_natAbs] at hfit
    have hmagnitude := magnitude_eq hb (show x.natAbs + b < 2 ^ 127 by exact_mod_cast hfit)
      (unsignedMode mode (decide (x < 0))) fun roundedAbs =>
        if decide (x < 0) = true then i128 (-toI128 roundedAbs) else some (toI128 roundedAbs)
    unfold roundNumberToIncrement
    rw [if_neg (tmod_ne_zero ha hzero)]
    refine hmagnitude.trans ?_
    have hbound : x.natAbs / b * b ≤ x.natAbs := Nat.div_mul_le_self _ _
    have hstep : (x.natAbs / b + 1) * b = x.natAbs / b * b + b := by ring
    have hfits : ∀ up : Bool, (if up then (x.natAbs / b + 1) * b else x.natAbs / b * b) < 2 ^ 127 := by
      intro up
      split <;> omega
    have hne : x.natAbs % b ≠ 0 := by
      intro h
      exact hzero (Int.emod_eq_zero_of_dvd (Int.natCast_dvd.2 (Nat.dvd_of_mod_eq_zero h)))
    simp only [toI128_fits (hfits _)]
    by_cases hneg : x < 0
    · have hround := round_neg_natCast hb hne mode
      rw [show -(x.natAbs : Int) = x by omega] at hround
      simp only [hneg, decide_true, if_true]
      rw [hround, i128_fits]
      have := hfits (applyUnsigned (x.natAbs % b) (b - x.natAbs % b) (x.natAbs / b)
        (unsignedMode mode true))
      omega
    · have hround := round_natCast hne mode
      rw [show (x.natAbs : Int) = x by omega] at hround
      simp only [hneg, decide_false, Bool.false_eq_true, if_false]
      rw [hround]

/-! What both are. -/

/-- A rounding to the multiples of an increment, for the numbers that leave room for one. -/
structure RoundsTo (increment : Int) (mode : RoundingMode) (round : Int → Option Int) : Prop where
  result : ∀ x, |x| + increment < 2 ^ 127 → ∃ r, round x = some r ∧ increment ∣ r ∧
    |r - x| < increment ∧ (mode.isHalf = true → 2 * |r - x| ≤ increment) ∧ round r = some r
  monotone : ∀ x y r s, |x| + increment < 2 ^ 127 → |y| + increment < 2 ^ 127 → x ≤ y →
    round x = some r → round y = some s → r ≤ s

theorem RoundsTo.of_rule {increment : Int} (hpos : 0 < increment) {round : Int → Option Int}
    (rule : Grid.Rule increment)
    (hround : ∀ x, |x| + increment < 2 ^ 127 → round x = some (Grid.round rule x))
    (hfixed : ∀ r, increment ∣ r → round r = some r) (hnear : mode.isHalf = true → rule.Nearest) :
    RoundsTo increment mode round := by
  constructor
  · intro x hx
    refine ⟨_, hround x hx, Grid.dvd_round rule x, Grid.abs_round_sub_lt hpos rule x, ?_,
      hfixed _ (Grid.dvd_round rule x)⟩
    intro hmode
    exact Grid.two_mul_abs_round_sub_le hpos (hnear hmode) x
  · intro x y r s hx hy hxy hr hs
    rw [hround x hx] at hr
    rw [hround y hy] at hs
    rw [← Option.some.inj hr, ← Option.some.inj hs]
    exact Grid.round_mono hpos rule hxy

theorem signedRule_nearest (a : Int) (hmode : mode.isHalf = true) :
    (signedRule a mode).Nearest := by
  intro q r _ _
  simp only [signedRule]
  by_cases hq : 0 ≤ q
  · simp only [if_pos hq]
    obtain ⟨hdown, hup⟩ := applyUnsigned_nearest r.toNat (a - r).toNat q.toNat false hmode
    exact ⟨fun h => hdown (by omega), fun h => hup (by omega)⟩
  · simp only [if_neg hq, Bool.not_eq_false', Bool.not_eq_true']
    obtain ⟨hdown, hup⟩ := applyUnsigned_nearest (a - r).toNat r.toNat (-q - 1).toNat true hmode
    exact ⟨fun h => hup (by omega), fun h => hdown (by omega)⟩

theorem positiveRule_nearest (a : Int) (hmode : mode.isHalf = true) :
    (positiveRule a mode).Nearest := by
  intro q r _ _
  obtain ⟨hdown, hup⟩ := applyUnsigned_nearest r.toNat (a - r).toNat q.natAbs false hmode
  exact ⟨fun h => hdown (by omega), fun h => hup (by omega)⟩

/-- The modes whose direction does not depend on the sign. -/
def RoundingMode.directed : List RoundingMode := [.floor, .ceil, .halfFloor, .halfCeil, .halfEven]

theorem rules_agree {q r : Int} (h : 0 ≤ q ∨ mode ∈ RoundingMode.directed) :
    (signedRule a mode).up q r = (positiveRule a mode).up q r := by
  simp only [signedRule, positiveRule]
  by_cases hq : 0 ≤ q
  · rw [if_pos hq]
    congr 1
    omega
  · rw [if_neg hq]
    have hmode := h.resolve_left hq
    have hparity : decide (((-q).toNat - 1) % 2 = 1) = !decide (q.natAbs % 2 = 1) := by
      rw [← decide_not, decide_eq_decide]
      omega
    rcases lt_trichotomy r.toNat (a - r).toNat with hlt | heq | hgt
    · cases mode <;> simp [RoundingMode.directed] at hmode <;>
        simp [applyUnsigned, unsignedMode, hlt, Nat.lt_asymm hlt]
    · cases mode <;> simp [RoundingMode.directed] at hmode <;>
        simp [applyUnsigned, unsignedMode, heq]
      exact hparity
    · cases mode <;> simp [RoundingMode.directed] at hmode <;>
        simp [applyUnsigned, unsignedMode, hgt, Nat.lt_asymm hgt]

theorem unsignedMode_negate (mode : RoundingMode) (isNegative : Bool) :
    unsignedMode (negateRoundingMode mode) (!isNegative) = unsignedMode mode isNegative := by
  cases mode <;> cases isNegative <;> rfl

theorem signedRule_negate (mode : RoundingMode) (q r : Int) :
    (signedRule a (negateRoundingMode mode)).up (-q - 1) (a - r) =
      !(signedRule a mode).up q r := by
  have hback : a - (a - r) = r := Int.sub_sub_self a r
  simp only [signedRule, hback]
  by_cases hq : 0 ≤ q
  · rw [if_pos hq, if_neg (by omega), show -(-q - 1) - 1 = q by omega, ← Bool.not_false,
      unsignedMode_negate]
  · rw [if_neg hq, if_pos (by omega), Bool.not_not, ← Bool.not_true, unsignedMode_negate]

theorem fixed_of_dvd {r : Int} (h : a ∣ r) (mode : RoundingMode) :
    roundNumberToIncrement r a mode = some r ∧
      roundNumberToIncrementAsIfPositive r a mode = some r := by
  have hzero : a ≤ 0 ∨ r.tmod a = 0 := Or.inr (Int.tmod_eq_zero_of_dvd h)
  exact ⟨if_pos hzero, if_pos hzero⟩

/-- Both roundings, where they agree, and the symmetry of the sign-aware one. -/
theorem rounding_to_increment {increment : Int} (hpos : 0 < increment) (mode : RoundingMode) :
    RoundsTo increment mode (fun x => roundNumberToIncrement x increment mode) ∧
    RoundsTo increment mode (fun x => roundNumberToIncrementAsIfPositive x increment mode) ∧
    ∀ x, |x| + increment < 2 ^ 127 →
      (0 ≤ x ∨ mode ∈ RoundingMode.directed →
        roundNumberToIncrement x increment mode =
          roundNumberToIncrementAsIfPositive x increment mode) ∧
      ∃ r, roundNumberToIncrement x increment mode = some r ∧
        roundNumberToIncrement (-x) increment (negateRoundingMode mode) = some (-r) := by
  refine ⟨?_, ?_, ?_⟩
  · exact .of_rule hpos (signedRule increment mode)
      (fun x hx => roundNumberToIncrement_eq hpos hx mode)
      (fun r hr => (fixed_of_dvd hr mode).1) (signedRule_nearest increment)
  · exact .of_rule hpos (positiveRule increment mode)
      (fun x hx => asIfPositive_eq hpos hx mode)
      (fun r hr => (fixed_of_dvd hr mode).2) (positiveRule_nearest increment)
  · intro x hx
    constructor
    · intro hagree
      rw [roundNumberToIncrement_eq hpos hx, asIfPositive_eq hpos hx]
      congr 1
      apply Grid.round_congr hpos
      intro r _ _
      apply rules_agree
      exact hagree.imp_left fun h => Int.ediv_nonneg h hpos.le
    · refine ⟨_, roundNumberToIncrement_eq hpos hx mode, ?_⟩
      rw [roundNumberToIncrement_eq hpos (by rwa [abs_neg])]
      congr 1
      apply Grid.round_neg hpos
      intro q r _ _
      exact signedRule_negate mode q r

/-- A tie below zero, for minutes. -/
theorem rounding_to_increment_tie :
    RoundsTo 60 .halfEven (fun x => roundNumberToIncrement x 60 .halfEven) ∧
    roundNumberToIncrement (-90) 60 .halfEven = some (-120) ∧
    roundNumberToIncrement (-90) 60 .halfEven =
      roundNumberToIncrementAsIfPositive (-90) 60 .halfEven := by
  obtain ⟨hsigned, -, hboth⟩ := rounding_to_increment (show (0 : Int) < 60 by decide) .halfEven
  exact ⟨hsigned, by decide, (hboth (-90) (by decide)).1 (Or.inr (by decide))⟩

end Slag.Temporal
