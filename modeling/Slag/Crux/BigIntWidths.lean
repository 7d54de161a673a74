import Slag.Crux.Convert
import Slag.Lib.LittleEndian

/-!
A BigInt in a number of bits (`bigint.rs`, `convert.rs`), and the elements of the
two BigInt typed arrays (`typed_array.rs`). Native byte order is little-endian.
-/

namespace Slag.Crux

namespace BigInt

def asUintN (int : Int) (bits : Nat) : Int :=
  if bits = 0 ∨ int = 0 then 0
  else if 0 ≤ int ∧ BigInt.bits int < bits then int
  else
    let modulus : Int := 2 ^ bits
    let result := int.tmod modulus
    if result < 0 then result + modulus else result

def asIntN (int : Int) (bits : Nat) : Int :=
  if bits = 0 ∨ int = 0 then 0
  else if 0 ≤ int ∧ BigInt.bits int < bits then int
  else
    let modulus : Int := 2 ^ bits
    let half : Int := 2 ^ (bits - 1)
    let result := asUintN int bits
    if half ≤ result then result - modulus else result

/-- `to_string`. -/
def text (radix : Nat) (x : Int) : List Char :=
  if x < 0 then '-' :: Numeral.text radix x.natAbs else Numeral.text radix x.natAbs

/-- `parse::<i64>`: a sign, decimal digits, and a value that fits. -/
def parseI64 (text : List Char) : Option Int :=
  let value : Option Int :=
    match text with
    | '-' :: digits => (Numeral.parse 10 digits).map fun n => -Int.ofNat n
    | '+' :: digits => (Numeral.parse 10 digits).map Int.ofNat
    | digits => (Numeral.parse 10 digits).map Int.ofNat
  value.filter fun n => -2 ^ 63 ≤ n && n < 2 ^ 63

/-- A text that does not parse panics. -/
def toI64Wrapping (x : Int) : Option Int := parseI64 (text 10 (asIntN x 64))

/-- `to_i64` of the library. -/
def toI64 (x : Int) : Option Int := if -2 ^ 63 ≤ x ∧ x < 2 ^ 63 then some x else none

/-- `to_u64` of the library. -/
def toU64 (x : Int) : Option Int := if 0 ≤ x ∧ x < 2 ^ 64 then some x else none

def wrap64 (n : Int) (signed : Bool) : Int :=
  let r := (n.tmod (2 ^ 64) + 2 ^ 64).tmod (2 ^ 64)
  if signed ∧ 2 ^ 63 ≤ r then r - 2 ^ 64 else r

end BigInt

namespace Coercions

variable (c : Coercions)

def toBigInt64 (v : Value) : Except JsError Int :=
  return BigInt.wrap64 (← c.toBigInt v) true

def toBigUint64 (v : Value) : Except JsError Int :=
  return BigInt.wrap64 (← c.toBigInt v) false

end Coercions

inductive ElementType
  | int8 | uint8 | uint8Clamped | int16 | uint16 | int32 | uint32
  | float16 | float32 | float64 | bigInt64 | bigUint64
deriving DecidableEq, Repr

namespace ElementType

def size : ElementType → Nat
  | .int8 | .uint8 | .uint8Clamped => 1
  | .int16 | .uint16 | .float16 => 2
  | .int32 | .uint32 | .float32 => 4
  | .float64 | .bigInt64 | .bigUint64 => 8

end ElementType

/-- The bytes of a 64-bit integer in two's complement. -/
def wordBytes (n : Int) : List UInt8 := LittleEndian.put 8 (n % 2 ^ 64).toNat

def encodeBigintInto (elementType : ElementType) (bigint : Int) : Except JsError (List UInt8) :=
  match elementType with
  | .bigInt64 => .ok (wordBytes ((BigInt.toI64 bigint).getD 0))
  | .bigUint64 => .ok (wordBytes ((BigInt.toU64 bigint).getD 0))
  | _ => .error { kind := .typeError, message := "Number element type requires a Number value" }

/-- The elements that are Numbers, by their types. -/
structure NumberElements where
  encode : ElementType → F64 → Except JsError (List UInt8)
  decode : ElementType → List UInt8 → Value

def encodeElementInto (c : Coercions) (numbers : NumberElements) (elementType : ElementType)
    (value : Value) : Except JsError (List UInt8) :=
  match elementType with
  | .bigInt64 => do encodeBigintInto elementType (← c.toBigInt64 value)
  | .bigUint64 => do encodeBigintInto elementType (← c.toBigUint64 value)
  | _ => do numbers.encode elementType (← c.toNumber value)

/-- The bytes of an element; a range that leaves the buffer panics. -/
def elementBytes (elementType : ElementType) (buffer : List UInt8) (offset : Nat) :
    Option (List UInt8) :=
  if offset + elementType.size ≤ buffer.length then
    some ((buffer.drop offset).take elementType.size)
  else none

def decodeElement (numbers : NumberElements) (elementType : ElementType) (buffer : List UInt8)
    (offset : Nat) : Option Value :=
  (elementBytes elementType buffer offset).map fun bytes =>
    match elementType with
    | .bigInt64 =>
        let word := LittleEndian.get bytes
        .bigint (if 2 ^ 63 ≤ word then (word : Int) - 2 ^ 64 else word)
    | .bigUint64 => .bigint (LittleEndian.get bytes)
    | _ => numbers.decode elementType bytes

namespace BigInt

/-- The residue of an integer in a range of `2 ^ bits` integers. -/
def IsResidue (x : Int) (bits : Nat) (low : Int) (r : Int) : Prop :=
  low ≤ r ∧ r < low + 2 ^ bits ∧ r ≡ x [ZMOD 2 ^ bits]

theorem IsResidue.unique {x low r s : Int} {bits : Nat} (hr : IsResidue x bits low r)
    (hs : IsResidue x bits low s) : r = s := by
  obtain ⟨hlo, hhi, hmod⟩ := hr
  obtain ⟨hlo', hhi', hmod'⟩ := hs
  have hdvd : (2 : Int) ^ bits ∣ s - r := (hmod.trans hmod'.symm).dvd
  have hpos : (0 : Int) < 2 ^ bits := by positivity
  have hzero : s - r = 0 := Int.eq_zero_of_abs_lt_dvd hdvd (by rw [abs_lt]; omega)
  omega

theorem lt_of_bits_lt {x : Int} {bits : Nat} (h : BigInt.bits x < bits) (hx : 0 ≤ x) :
    x < 2 ^ (bits - 1) := by
  have hlt := bits_le.mp (Nat.le_sub_one_of_lt h)
  have hcast : ((x.natAbs : Nat) : Int) < ((2 ^ (bits - 1) : Nat) : Int) := by exact_mod_cast hlt
  rw [Int.natAbs_of_nonneg hx] at hcast
  exact_mod_cast hcast

theorem tmod_fixed {x d : Int} (hd : 0 < d) :
    (if x.tmod d < 0 then x.tmod d + d else x.tmod d) = x % d := by
  rw [Int.tmod_eq_emod]
  have hlo := Int.emod_nonneg x hd.ne'
  have hhi := Int.emod_lt_of_pos x hd
  split <;> split <;> omega

theorem asUintN_eq (x : Int) (bits : Nat) : asUintN x bits = x % 2 ^ bits := by
  unfold asUintN
  have hpos : (0 : Int) < 2 ^ bits := by positivity
  split
  · rename_i h
    rcases h with rfl | rfl <;> simp
  · split
    · rename_i h
      have hle : (2 : Int) ^ (bits - 1) ≤ 2 ^ bits := pow_le_pow_right₀ (by norm_num) (by omega)
      have hlt := lt_of_bits_lt h.2 h.1
      exact (Int.emod_eq_of_lt h.1 (by omega)).symm
    · exact tmod_fixed hpos

theorem asUintN_residue (x : Int) (bits : Nat) : IsResidue x bits 0 (asUintN x bits) := by
  rw [asUintN_eq]
  have hpos : (0 : Int) < 2 ^ bits := by positivity
  refine ⟨Int.emod_nonneg x hpos.ne', ?_, Int.mod_modEq x _⟩
  rw [Int.zero_add]
  exact Int.emod_lt_of_pos x hpos

theorem asIntN_eq {bits : Nat} (hbits : bits ≠ 0) (x : Int) : asIntN x bits =
    if 2 ^ (bits - 1) ≤ x % 2 ^ bits then x % 2 ^ bits - 2 ^ bits else x % 2 ^ bits := by
  have hhalf : (2 : Int) ^ bits = 2 * 2 ^ (bits - 1) := by
    rw [← pow_succ', Nat.sub_add_cancel (Nat.pos_of_ne_zero hbits)]
  have hpos : (0 : Int) < 2 ^ (bits - 1) := by positivity
  unfold asIntN
  split
  · rename_i h
    have hx : x = 0 := h.resolve_left hbits
    rw [hx, Int.zero_emod, if_neg (by omega)]
  · split
    · rename_i h
      have hlt := lt_of_bits_lt h.2 h.1
      rw [Int.emod_eq_of_lt h.1 (by omega), if_neg (by omega)]
    · simp only [asUintN_eq]

theorem asIntN_residue {bits : Nat} (hbits : bits ≠ 0) (x : Int) :
    IsResidue x bits (-2 ^ (bits - 1)) (asIntN x bits) := by
  have hhalf : (2 : Int) ^ bits = 2 * 2 ^ (bits - 1) := by
    rw [← pow_succ', Nat.sub_add_cancel (Nat.pos_of_ne_zero hbits)]
  have hpos : (0 : Int) < 2 ^ bits := by positivity
  have hlo := Int.emod_nonneg x hpos.ne'
  have hhi := Int.emod_lt_of_pos x hpos
  have hmod : x % 2 ^ bits ≡ x [ZMOD 2 ^ bits] := Int.mod_modEq x _
  rw [asIntN_eq hbits]
  split
  · refine ⟨by omega, by omega, ?_⟩
    have hshift : x % 2 ^ bits - 2 ^ bits ≡ x % 2 ^ bits [ZMOD 2 ^ bits] := by
      simp [Int.ModEq]
    exact hshift.trans hmod
  · exact ⟨by omega, by omega, hmod⟩

theorem asIntN_range (x : Int) : -2 ^ 63 ≤ asIntN x 64 ∧ asIntN x 64 < 2 ^ 63 := by
  obtain ⟨hlo, hhi, -⟩ := asIntN_residue (show 64 ≠ 0 by decide) x
  constructor <;> omega

theorem asUintN_range (x : Int) : 0 ≤ asUintN x 64 ∧ asUintN x 64 < 2 ^ 64 := by
  obtain ⟨hlo, hhi, -⟩ := asUintN_residue x 64
  constructor <;> omega

/-- The two remainders of a wrap come to one. -/
theorem wrap_emod (n : Int) : (n.tmod (2 ^ 64) + 2 ^ 64).tmod (2 ^ 64) = n % 2 ^ 64 := by
  have hfirst : -2 ^ 64 ≤ n.tmod (2 ^ 64) ∧ n.tmod (2 ^ 64) % 2 ^ 64 = n % 2 ^ 64 := by
    rw [Int.tmod_eq_emod]
    split <;> norm_num <;> omega
  rw [Int.tmod_eq_emod_of_nonneg (by omega), Int.add_emod_right, hfirst.2]

theorem wrap64_unsigned (n : Int) : wrap64 n false = asUintN n 64 := by
  simp only [wrap64, wrap_emod, asUintN_eq, Bool.false_eq_true, false_and, if_false]

theorem wrap64_signed (n : Int) : wrap64 n true = asIntN n 64 := by
  simp only [wrap64, wrap_emod, asIntN_eq (show 64 ≠ 0 by decide), true_and, Nat.reduceSub]

theorem parseI64_text {x : Int} (hlo : -2 ^ 63 ≤ x) (hhi : x < 2 ^ 63) :
    parseI64 (text 10 x) = some x := by
  have hparse : Numeral.parse 10 (Numeral.text 10 x.natAbs) = some x.natAbs :=
    Numeral.parse_text (by decide) (by decide) x.natAbs
  have hdigit : ∀ c ∈ Numeral.text 10 x.natAbs, (Numeral.charDigit c).isSome = true :=
    fun c => Numeral.charDigit_of_mem_text (by decide) (by decide)
  have hfits : (some x).filter (fun n => -2 ^ 63 ≤ n && n < 2 ^ 63) = some x := by
    rw [Option.filter_some, if_pos (by simp only [hlo, hhi, decide_true, Bool.and_self])]
  unfold text parseI64
  by_cases hneg : x < 0
  · have hvalue : -Int.ofNat x.natAbs = x := by
      rw [Int.ofNat_eq_natCast]
      omega
    simp only [if_pos hneg, hparse, Option.map_some, hvalue]
    exact hfits
  · have hvalue : Int.ofNat x.natAbs = x := by
      rw [Int.ofNat_eq_natCast]
      omega
    simp only [if_neg hneg]
    split
    · rename_i digits heq
      have := hdigit '-' (by rw [heq]; exact List.mem_cons_self)
      exact absurd this (by decide)
    · rename_i digits heq
      have := hdigit '+' (by rw [heq]; exact List.mem_cons_self)
      exact absurd this (by decide)
    · rw [hparse, Option.map_some, hvalue]
      exact hfits

theorem toI64Wrapping_eq (x : Int) : toI64Wrapping x = some (asIntN x 64) :=
  parseI64_text (asIntN_range x).1 (asIntN_range x).2

end BigInt

theorem get_wordBytes (n : Int) : (LittleEndian.get (wordBytes n) : Int) = n % 2 ^ 64 := by
  have hlo := Int.emod_nonneg n (show (2 : Int) ^ 64 ≠ 0 by norm_num)
  have hhi := Int.emod_lt_of_pos n (show (0 : Int) < 2 ^ 64 by norm_num)
  rw [wordBytes, LittleEndian.get_put (by omega)]
  omega

theorem elementBytes_append {elementType : ElementType} {bytes : List UInt8}
    (h : bytes.length = elementType.size) (before after : List UInt8) :
    elementBytes elementType (before ++ bytes ++ after) before.length = some bytes := by
  rw [elementBytes, if_pos (by simp [h])]
  simp [← h]

section Elements

variable (c : Coercions) (numbers : NumberElements) (x : Int)

theorem encodeElementInto_bigInt64 : encodeElementInto c numbers .bigInt64 (.bigint x) =
    .ok (wordBytes (BigInt.asIntN x 64)) := by
  have hwrap : c.toBigInt64 (.bigint x) = .ok (BigInt.asIntN x 64) := by
    rw [← BigInt.wrap64_signed]
    rfl
  have hfits : BigInt.toI64 (BigInt.asIntN x 64) = some (BigInt.asIntN x 64) :=
    if_pos (BigInt.asIntN_range x)
  simp only [encodeElementInto, hwrap, bind, Except.bind, encodeBigintInto, hfits,
    Option.getD_some]

theorem encodeElementInto_bigUint64 : encodeElementInto c numbers .bigUint64 (.bigint x) =
    .ok (wordBytes (BigInt.asUintN x 64)) := by
  have hwrap : c.toBigUint64 (.bigint x) = .ok (BigInt.asUintN x 64) := by
    rw [← BigInt.wrap64_unsigned]
    rfl
  have hfits : BigInt.toU64 (BigInt.asUintN x 64) = some (BigInt.asUintN x 64) :=
    if_pos (BigInt.asUintN_range x)
  simp only [encodeElementInto, hwrap, bind, Except.bind, encodeBigintInto, hfits,
    Option.getD_some]

theorem decodeElement_bigInt64 (before after : List UInt8) :
    decodeElement numbers .bigInt64 (before ++ wordBytes (BigInt.asIntN x 64) ++ after)
      before.length = some (.bigint (BigInt.asIntN x 64)) := by
  have hbytes : (wordBytes (BigInt.asIntN x 64)).length = ElementType.bigInt64.size :=
    LittleEndian.length_put 8 _
  have hword := get_wordBytes (BigInt.asIntN x 64)
  have hrange := BigInt.asIntN_range x
  rw [decodeElement, elementBytes_append hbytes, Option.map_some]
  simp only [Option.some.injEq, Value.bigint.injEq]
  split <;> omega

theorem decodeElement_bigUint64 (before after : List UInt8) :
    decodeElement numbers .bigUint64 (before ++ wordBytes (BigInt.asUintN x 64) ++ after)
      before.length = some (.bigint (BigInt.asUintN x 64)) := by
  have hbytes : (wordBytes (BigInt.asUintN x 64)).length = ElementType.bigUint64.size :=
    LittleEndian.length_put 8 _
  have hword := get_wordBytes (BigInt.asUintN x 64)
  have hrange := BigInt.asUintN_range x
  rw [decodeElement, elementBytes_append hbytes, Option.map_some]
  simp only [Option.some.injEq, Value.bigint.injEq]
  omega

/-- Every reduction of an integer to some bits gives the one residue in its range. -/
theorem bigintWidths_agree (bits : Nat) (before after : List UInt8) :
    (∀ r, BigInt.IsResidue x bits 0 r ↔ r = BigInt.asUintN x bits) ∧
    (bits ≠ 0 → ∀ r, BigInt.IsResidue x bits (-2 ^ (bits - 1)) r ↔ r = BigInt.asIntN x bits) ∧
    BigInt.asIntN x 0 = 0 ∧
    BigInt.wrap64 x true = BigInt.asIntN x 64 ∧ BigInt.wrap64 x false = BigInt.asUintN x 64 ∧
    BigInt.toI64Wrapping x = some (BigInt.asIntN x 64) ∧
    (∃ bytes, encodeElementInto c numbers .bigInt64 (.bigint x) = .ok bytes ∧
      decodeElement numbers .bigInt64 (before ++ bytes ++ after) before.length =
        some (.bigint (BigInt.asIntN x 64))) ∧
    (∃ bytes, encodeElementInto c numbers .bigUint64 (.bigint x) = .ok bytes ∧
      decodeElement numbers .bigUint64 (before ++ bytes ++ after) before.length =
        some (.bigint (BigInt.asUintN x 64))) := by
  refine ⟨fun r => ?_, fun hbits r => ?_, by simp [BigInt.asIntN], BigInt.wrap64_signed x,
    BigInt.wrap64_unsigned x, BigInt.toI64Wrapping_eq x,
    ⟨_, encodeElementInto_bigInt64 c numbers x, decodeElement_bigInt64 numbers x before after⟩,
    ⟨_, encodeElementInto_bigUint64 c numbers x, decodeElement_bigUint64 numbers x before after⟩⟩
  · constructor
    · exact fun h => h.unique (BigInt.asUintN_residue x bits)
    · rintro rfl
      exact BigInt.asUintN_residue x bits
  · constructor
    · exact fun h => h.unique (BigInt.asIntN_residue hbits x)
    · rintro rfl
      exact BigInt.asIntN_residue hbits x

end Elements

end Slag.Crux
