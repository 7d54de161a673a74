import Slag.Crux.Dyadic

/-!
Numbers in a base other than ten (`number.rs`): the exact expansions in an even base,
and the shortest numeral that reads back in an odd one.
-/

namespace Slag.Crux

open Numeral (digitChar)

def isPowerOfTwo (n : Nat) : Bool := n ≠ 0 && 2 ^ n.log2 == n

/-- Of a number that is not zero. -/
def trailingZeros (n : Nat) : Nat := ((List.range 32).find? n.testBit).getD 32

def integerRadix (radix : Radix) (x : Nat) (buf : List Char) : List Char :=
  if h : x = 0 then if buf = [] then ['0'] else buf
  else integerRadix radix (x / radix.value) (digitChar (x % radix.value) :: buf)
termination_by x
decreasing_by exact Nat.div_lt_self (Nat.pos_of_ne_zero h) radix.two_le

/-- The binary digits below the point, `p` at a time from the point. -/
def binaryGroups (p : Nat) : Nat → Nat → BigU → List UInt64
  | 0, _, _ => []
  | fuel + 1, position, remaining =>
    if position = 0 ∨ remaining.isZero then []
    else
      let start := position - p
      let group := (remaining.mask position).shr start
      (group.getLimb 0 &&& UInt64.ofNat (2 ^ p - 1)) ::
        binaryGroups p fuel start (remaining.mask start)

def radixPowerOfTwo (x : F64) (radix : Radix) : List Char :=
  let p := trailingZeros radix.value
  let (mantissa, exp) := decompose x
  let shift := exp.natAbs
  let integer := (BigU.fromU64 (UInt64.ofNat mantissa)).shl (if 0 ≤ exp then shift else 0)
  let integer := integer.shr (if 0 ≤ exp then 0 else shift)
  let intDigits := if integer.isZero then [0] else (BigU.lowDigits radix integer).reverse
  let digits :=
    if exp < 0 then
      let fraction := (BigU.fromU64 (UInt64.ofNat mantissa)).mask shift
      let fracDigits := (binaryGroups p shift shift fraction).rdropWhile (· == 0)
      -- The point among the digits; no digit is as large.
      if fracDigits = [] then intDigits else intDigits ++ 0x2E :: fracDigits
    else intDigits
  digits.map fun d => if d = 0x2E then '.' else digitChar d.toNat

def radixExact (x : F64) (radix : Radix) : List Char :=
  let (n, p) := exactFraction x
  let intDigits := (n.shr p).toBase radix
  let fracDigits := (fractionDigits radix p 4000 (n.mask p)).1.rdropWhile (· == 0)
  if fracDigits = [] then intDigits
  else intDigits ++ '.' :: fracDigits.map fun d => digitChar d.toNat

/-- The ends of the rounding interval in units of `2 ^ -1075`, and whether they belong to it. -/
def roundingBounds (mantissa : Nat) (exp : Int) : BigU × BigU × Bool :=
  let value := (BigU.fromU64 (UInt64.ofNat mantissa)).shl (exp + 1075).toNat
  let even := mantissa % 2 = 0
  if mantissa < 1 <<< 52 then
    let half := BigU.fromU64 1
    (value.sub half, value.add half, even)
  else
    let halfUp := (BigU.fromU64 1).shl (exp + 1074).toNat
    let halfDown :=
      if isPowerOfTwo mantissa ∧ -1074 < exp then (BigU.fromU64 1).shl (exp + 1073).toNat else halfUp
    (value.sub halfDown, value.add halfUp, even)

/-- `floor() as i32`. -/
def floorI32 : F64 → Int
  | .nan => 0
  | .infinity neg => if neg then -2 ^ 31 else 2 ^ 31 - 1
  | x@(.finite ..) => max (-2 ^ 31) (min (x.toUnits / F64.one) (2 ^ 31 - 1))

/-- `f64::consts::LN_2`. -/
def ln2 : F64 := .finite false 1022 0x62E42FEFA39EF

section logarithm

-- The logarithm of the platform.
variable (ln : F64 → F64)

def logEstimate (mantissa : Nat) (exp : Int) (b : Nat) : Int :=
  let lnX := F64.add (ln (F64.ofNat mantissa)) (F64.mul (F64.ofInt exp) ln2)
  floorI32 (F64.div lnX (ln (F64.ofNat b))) + 1

def powSmall (b : UInt64) (n : Nat) : BigU := (fun u : BigU => u.mulSmall b)^[n] (BigU.fromU64 1)

/-- The comparisons that correct the estimate; no number where the fuel is too little. -/
def adjust (xScaled : BigU) (b : UInt64) : Nat → Int → Option Int
  | 0, _ => none
  | fuel + 1, n =>
    if BigU.cmp xScaled ((powSmall b n.toNat).shl 1074) = .gt then adjust xScaled b fuel (n + 1)
    else if 1 < n ∧ BigU.cmp xScaled ((powSmall b (n - 1).toNat).shl 1074) = .lt then
      adjust xScaled b fuel (n - 1)
    else some n

def floorLogBase (fuel mantissa : Nat) (exp : Int) (radix : Radix) : Option Int :=
  adjust ((BigU.fromU64 (UInt64.ofNat mantissa)).shl (exp + 1074).toNat) radix.limb fuel
    (logEstimate ln mantissa exp radix.value)

/-- What the search multiplies by the base at each step. -/
structure Scaled where
  low : BigU
  high : BigU
  value : BigU
  powMinus : BigU
  pow : BigU

namespace Scaled

/-- The least and the greatest significand of the length that is searched. -/
def bounds (s : Scaled) (even : Bool) : BigU × BigU :=
  let lowExact := (s.low.mask 1075).isZero
  let highExact := (s.high.mask 1075).isZero
  let sMin := s.low.shr 1075
  let sMin := if lowExact then sMin else sMin.addSmall 1
  let sMax := s.high.shr 1075
  let sMax := if !even && highExact then sMax.sub (BigU.fromU64 1) else sMax
  let sMin := if !even && lowExact then sMin.addSmall 1 else sMin
  let sMin := if BigU.cmp sMin s.powMinus = .lt then s.powMinus else sMin
  let last := s.pow.sub (BigU.fromU64 1)
  let sMax := if BigU.cmp sMax last = .gt then last else sMax
  (sMin, sMax)

/-- The number to the nearest integer, ties to even. -/
def target (s : Scaled) : BigU :=
  let target := s.value.shr 1075
  let remainder := s.value.mask 1075
  let half := (BigU.fromU64 1).shl (1075 - 1)
  if BigU.cmp remainder half = .gt ∨ BigU.cmp remainder half = .eq ∧ (target.getLimb 0).toNat % 2 = 1
  then target.addSmall 1 else target

/-- The significand next to the number, among those there are. -/
def choose (s : Scaled) (even : Bool) : Option BigU :=
  let (sMin, sMax) := s.bounds even
  if BigU.cmp sMin sMax ≠ .gt then
    if BigU.cmp s.target sMin = .lt then some sMin
    else if BigU.cmp s.target sMax = .gt then some sMax
    else some s.target
  else none

def next (b : UInt64) (s : Scaled) : Scaled where
  low := s.low.mulSmall b
  high := s.high.mulSmall b
  value := s.value.mulSmall b
  powMinus := s.powMinus.mulSmall b
  pow := s.pow.mulSmall b

end Scaled

/-- No significand where the search is exhausted, which panics. -/
def searchDigits (even : Bool) (b : UInt64) : Nat → Nat → Scaled → Option (BigU × Nat)
  | 0, _, _ => none
  | left + 1, k, s =>
    match s.choose even with
    | some d => some (d, k)
    | none => searchDigits even b left (k + 1) (s.next b)

def formatFixedDigits (s : BigU) (radix : Radix) (k : Nat) (n : Int) : List Char :=
  let digits := s.toBase radix
  if (k : Int) ≤ n then digits ++ List.replicate (n - k).toNat '0'
  else if 0 < n then digits.take n.toNat ++ '.' :: digits.drop n.toNat
  else ['0', '.'] ++ List.replicate (-n).toNat '0' ++ digits

def radixRoundTrip (fuel : Nat) (x : F64) (radix : Radix) : Option (List Char) :=
  let (mantissa, exp) := decompose x
  let (low, high, even) := roundingBounds mantissa exp
  let value := (BigU.fromU64 (UInt64.ofNat mantissa)).shl (exp + 1075).toNat
  let b := radix.limb
  (floorLogBase ln fuel mantissa exp radix).bind fun n =>
    let start := max n 1
    let times := (fun u : BigU => u.mulSmall b)^[(start - n).toNat]
    let powMinus := powSmall b (start - 1).toNat
    let scaled : Scaled := ⟨times low, times high, times value, powMinus, powMinus.mulSmall b⟩
    (searchDigits even b (6000 - start).toNat start.toNat scaled).map fun (s, k) =>
      formatFixedDigits s radix k n

end logarithm

/-- `toString` is the text in base ten; no text where the odd bases fail. -/
def toStringRadix (toString : F64 → List Char) (ln : F64 → F64) (fuel : Nat) (x : F64)
    (radix : Radix) : Option (List Char) :=
  let positive (x : F64) : Option (List Char) :=
    if x = .infinity false then some "Infinity".toList
    else if radix.value = 10 then some (toString x)
    else if x.isIntegral ∧ F64.lt (F64.abs x) (F64.ofNat (2 ^ 53)) then
      some (integerRadix radix (F64.truncate x).toNat [])
    else if isPowerOfTwo radix.value then some (radixPowerOfTwo x radix)
    else if radix.value % 2 = 0 then some (radixExact x radix)
    else radixRoundTrip ln fuel x radix
  if x.isNaN then some "NaN".toList
  else if F64.eq x F64.zero then some ['0']
  else if F64.lt x F64.zero then (positive (F64.neg x)).map ('-' :: ·)
  else positive x

end Slag.Crux
