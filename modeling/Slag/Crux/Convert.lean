import Mathlib.Data.List.DropRight
import Mathlib.Data.List.Forall2
import Slag.Crux.BigInt
import Slag.Lib.Numeral
import Slag.Regexp.Node

/-!
The two readings of a string as a BigInt (`convert.rs`), the conversion of a value
to a BigInt, and loose equality (`ops.rs`). Conversions that run user code or read
a Number are left to `Coercions`.
-/

namespace Slag.Crux

open Numeral (value)

def isStrWhiteSpace (unit : UInt16) : Bool :=
  Regexp.isWhiteSpace unit.toNat || Regexp.isLineTerminator unit.toNat

def trimmed (units : JsString) : JsString := (units.dropWhile isStrWhiteSpace).rdropWhile isStrWhiteSpace

/-- The sign of a literal, and what is left of it. -/
def signOf : JsString → Bool × JsString
  | 0x2D :: rest => (true, rest)
  | 0x2B :: rest => (false, rest)
  | body => (false, body)

def applySign (negative : Bool) (n : Int) : Int := if negative then -n else n

/-- The base a prefix stands for, in either case of the letter. -/
def markRadix (unit : UInt16) : Option Nat :=
  if unit = 0x78 ∨ unit = 0x58 then some 16
  else if unit = 0x6F ∨ unit = 0x4F then some 8
  else if unit = 0x62 ∨ unit = 0x42 then some 2
  else none

/-- The base of a literal without its sign, none for a decimal one, and its digits. -/
def radixOf (rest : JsString) : Option Nat × JsString :=
  match rest with
  | hi :: lo :: tail =>
      if hi = 0x30 then
        match markRadix lo with
        | some radix => (some radix, tail)
        | none => (none, rest)
      else (none, rest)
  | _ => (none, rest)

def unitDigit (unit : UInt16) : Option Nat :=
  if 0x30 ≤ unit ∧ unit ≤ 0x39 then some (unit.toNat - 0x30)
  else if 0x61 ≤ unit ∧ unit ≤ 0x7A then some (unit.toNat - 0x61 + 10)
  else if 0x41 ≤ unit ∧ unit ≤ 0x5A then some (unit.toNat - 0x41 + 10)
  else none

/-- A digit is taken into the value read so far. -/
def takeDigit (radix : Nat) (value : Int) (unit : UInt16) : Option Int :=
  (unitDigit unit).bind fun digit =>
    if radix ≤ digit then none else some (value * radix + digit)

def stringToBigint (text : JsString) : Option Int :=
  let body := trimmed text
  if body = [] then some 0
  else
    let (negative, rest) := signOf body
    let signed := rest.length ≠ body.length
    let (mark, digits) := radixOf rest
    if signed ∧ mark.isSome then none
    else if digits = [] then none
    else (digits.foldlM (takeDigit (mark.getD 10)) 0).map (applySign negative)

/-- A decimal digit, not a zero before another one. -/
def takeDecimal (count index : Nat) (value : Int) (unit : UInt16) : Option Int :=
  if 0x30 ≤ unit ∧ unit ≤ 0x39 then
    let d := unit.toNat - 0x30
    if index = 0 ∧ d = 0 ∧ 1 < count then none else some (value * 10 + d)
  else none

def stringToBigInt (text : JsString) : Option Int :=
  let body := trimmed text
  if body = [] then none
  else
    let (negative, rest) := signOf body
    if rest = [] then none
    else
      (rest.zipIdx.foldlM (fun value entry => takeDecimal rest.length entry.2 value entry.1) 0).map
        (applySign negative)

/-- Conversions that lie outside: of objects, and to a Number. -/
structure Coercions where
  isHtmldda : Value → Bool
  toPrimitive : Value → Except JsError Value
  toNumber : Value → Except JsError F64

def isReference (v : Value) : Bool := v.isObject || v.isFunction

namespace Coercions

variable (c : Coercions)

def primitive (v : Value) : Except JsError Value :=
  if isReference v then c.toPrimitive v else .ok v

def toBigInt (v : Value) : Except JsError Int := do
  match ← c.primitive v with
  | .undefined | .null =>
      .error { kind := .typeError, message := "Cannot convert undefined or null to a BigInt" }
  | .boolean b => .ok (if b then 1 else 0)
  | .bigint n => .ok n
  | .string s =>
      if trimmed s = [] then .ok 0
      else
        match stringToBigInt s with
        | some n => .ok n
        | none =>
            .error { kind := .syntaxError, message := "Cannot convert the string to a BigInt" }
  | .number _ => .error { kind := .typeError, message := "Cannot convert a Number to a BigInt" }
  | .symbol _ => .error { kind := .typeError, message := "Cannot convert a Symbol to a BigInt" }
  | .object _ | .function _ =>
      .error { kind := .typeError, message := "Cannot convert an object to a BigInt" }

/-- The integer and the number are one value. -/
def bigintNumberEqual (b : Int) (n : F64) : Bool := n.isIntegral && b == n.truncate

def isNullish : Value → Bool
  | .undefined | .null => true
  | _ => false

/-- A Number against a primitive. -/
def numberLooselyEqual (a : F64) : Value → Except JsError Bool
  | .number b => .ok (F64.eq a b)
  | .bigint b => .ok (bigintNumberEqual b a)
  | .string s => return F64.eq a (← c.toNumber (.string s))
  | .boolean b => return F64.eq a (← c.toNumber (.boolean b))
  | _ => .ok false

/-- The recursive calls on converted operands come to these cases. -/
def primitivesLooselyEqual (x y : Value) : Except JsError Bool :=
  match x, y with
  | .null, .undefined | .undefined, .null => .ok true
  | .number a, .string s | .string s, .number a => c.numberLooselyEqual a (.string s)
  | .bigint a, .string s | .string s, .bigint a =>
      match stringToBigInt s with
      | none => .ok false
      | some n => .ok (a == n)
  | .boolean b, y => do c.numberLooselyEqual (← c.toNumber (.boolean b)) y
  | x, .boolean b => do c.numberLooselyEqual (← c.toNumber (.boolean b)) x
  | .bigint a, .number b | .number b, .bigint a => .ok (bigintNumberEqual a b)
  | .number a, .number b => .ok (F64.eq a b)
  | x, y => .ok (x == y)

def isLooselyEqual (x y : Value) : Except JsError Bool :=
  if c.isHtmldda x && isNullish y || c.isHtmldda y && isNullish x then .ok true
  else if isReference x && isReference y then .ok (sameValue x y)
  else do
    let x ← c.primitive x
    let y ← c.primitive y
    c.primitivesLooselyEqual x y

end Coercions

end Slag.Crux
