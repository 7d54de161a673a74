import Mathlib.Data.Int.Bitwise
import Mathlib.Data.Nat.Size
import Slag.Crux.Value
import Slag.Jit.Ir

/-!
The operators of the language on its values (`expr.rs`), and the operations
they are lifted to. What runs user code, or spells and reads numbers, is left
to a `Realm`.
-/

namespace Slag.Jit

open Crux

inductive Hint
  | string | number | default
deriving DecidableEq, Repr

/-- A computation that changes the world and may throw. -/
def Eval (ω α : Type) : Type := ω → Option α × ω

namespace Eval

variable {ω α β : Type}

def bind (x : Eval ω α) (g : α → Eval ω β) : Eval ω β := fun w =>
  match x w with
  | (some a, w') => g a w'
  | (none, w') => (none, w')

instance : Monad (Eval ω) where
  pure a w := (some a, w)
  bind := bind

def throw : Eval ω α := fun w => (none, w)

def ofOption : Option α → Eval ω α
  | some a => pure a
  | none => throw

theorem bind_eq_some {x : Eval ω α} {g : α → Eval ω β} {b : β} {w w' : ω} :
    (x >>= g) w = (some b, w') ↔ ∃ a w₁, x w = (some a, w₁) ∧ g a w₁ = (some b, w') := by
  constructor
  · intro h
    change bind x g w = _ at h
    unfold bind at h
    split at h
    · rename_i a w₁ hx
      exact ⟨a, w₁, hx, h⟩
    · cases h
  · rintro ⟨a, w₁, hx, hg⟩
    change bind x g w = _
    rw [bind, hx]
    exact hg

theorem pure_eq_some {a b : α} {w w' : ω} :
    (pure a : Eval ω α) w = (some b, w') ↔ a = b ∧ w = w' := by
  constructor
  · intro h
    cases h
    exact ⟨rfl, rfl⟩
  · rintro ⟨rfl, rfl⟩
    rfl

theorem ofOption_eq_some {o : Option α} {b : α} {w w' : ω} :
    ofOption o w = (some b, w') ↔ o = some b ∧ w = w' := by
  cases o with
  | none => exact ⟨nofun, fun h => nomatch h.1⟩
  | some a => exact pure_eq_some.trans (and_congr_left fun _ => Option.some_inj.symm)

end Eval

/-- The arithmetic of binary64 numbers, as the machine has it. -/
structure Ieee where
  add : F64 → F64 → F64
  sub : F64 → F64 → F64
  mul : F64 → F64 → F64
  div : F64 → F64 → F64
  neg : F64 → F64

/-- Each operation rounds once. -/
def Ieee.binary64 : Ieee where
  add := F64.add
  sub := F64.sub
  mul := F64.mul
  div := F64.div
  neg := F64.neg

/-- An object, callable or not. -/
def isReference (v : Value) : Bool := v.isObject || v.isFunction

structure Realm (ω : Type) where
  ieee : Ieee
  toPrimitive : Hint → ObjId → Eval ω Value
  /-- An object result of a conversion is a thrown error. -/
  primitive : ∀ hint id w v w', toPrimitive hint id w = (some v, w') → isReference v = false
  hasProperty : Value → Value → Eval ω Bool
  instanceOf : Value → Value → Eval ω Bool
  isHtmlDda : ObjId → Bool
  stringToNumber : JsString → F64
  stringToBigint : JsString → Option Int
  numberToString : F64 → JsString
  bigintToString : Int → JsString
  powf : F64 → F64 → F64

inductive BinaryOp
  | exp | mul | div | rem | add | sub
  | leftShift | rightShift | unsignedRightShift
  | lessThan | greaterThan | lessEqual | greaterEqual
  | isIn | instanceof
  | equal | notEqual | strictEqual | strictNotEqual
  | bitAnd | bitXor | bitOr
deriving DecidableEq, Repr

inductive UnaryOp
  | delete | void | typeof | plus | minus | bitNot | not
deriving DecidableEq, Repr

namespace Realm

variable {ω : Type} (C : Realm ω)

def toPrimitiveValue (hint : Hint) : Value → Eval ω Value
  | .object id | .function id => C.toPrimitive hint id
  | v => pure v

/-- `to_number` of a primitive; a BigInt and a symbol have none. -/
def toNumber : Value → Option F64
  | .number x => some x
  | .undefined => some .nan
  | .null => some .zero
  | .boolean true => some (.ofNat 1)
  | .boolean false => some .zero
  | .string s => some (C.stringToNumber s)
  | .bigint _ | .symbol _ | .object _ | .function _ => none

def toNumeric : Value → Option Value
  | .bigint i => some (.bigint i)
  | v => (C.toNumber v).map Value.number

def toNumericOperand (v : Value) : Eval ω Value := do
  let p ← C.toPrimitiveValue .number v
  Eval.ofOption (C.toNumeric p)

def text (s : String) : JsString := s.toList.map fun c => UInt16.ofNat c.toNat

/-- `to_string` of a primitive; a symbol has none. -/
def toText : Value → Option JsString
  | .string s => some s
  | .undefined => some (text "undefined")
  | .null => some (text "null")
  | .boolean true => some (text "true")
  | .boolean false => some (text "false")
  | .number x => some (C.numberToString x)
  | .bigint i => some (C.bigintToString i)
  | .symbol _ | .object _ | .function _ => none

def numericAdd (a b : Value) : Option Value :=
  match a, b with
  | .bigint i, .bigint j => some (.bigint (i + j))
  | a, b => do
      let x ← C.toNumber a
      let y ← C.toNumber b
      return .number (C.ieee.add x y)

def isString : Value → Bool
  | .string _ => true
  | _ => false

def add (a b : Value) : Eval ω Value :=
  match a, b with
  | .number x, .number y => pure (.number (C.ieee.add x y))
  | .string s, .string t => pure (.string (s ++ t))
  | a, b => do
      let p ← C.toPrimitiveValue .default a
      let q ← C.toPrimitiveValue .default b
      if isString p || isString q then
        let s ← Eval.ofOption (C.toText p)
        let t ← Eval.ofOption (C.toText q)
        return .string (s ++ t)
      else Eval.ofOption (C.numericAdd p q)

/-- `number_exponentiate`. -/
def exponentiate (x y : F64) : F64 :=
  if F64.eq y .zero then .ofNat 1
  else if x.isNaN || y.isNaN then .nan
  else
    match y with
    | .infinity neg =>
        if F64.lt (.ofNat 1) x.abs then if neg then .zero else .infinity false
        else if F64.eq x.abs (.ofNat 1) then .nan
        else if neg then .infinity false else .zero
    | _ => C.powf x y

def bigintBits (i : Int) : Nat := i.natAbs.size

def bigintExponentiate (i j : Int) : Option Int :=
  if j < 0 then none
  else if 2 ^ 32 ≤ j then none
  else if 1 < bigintBits i ∧ 2 ^ 30 < (bigintBits i - 1) * j.toNat + 1 then none
  else some (i ^ j.toNat)

def numberArith (op : BinaryOp) (x y : F64) : Option F64 :=
  match op with
  | .sub => some (C.ieee.sub x y)
  | .mul => some (C.ieee.mul x y)
  | .div => some (C.ieee.div x y)
  | .rem => some (F64.rem x y)
  | .exp => some (C.exponentiate x y)
  | _ => none

def bigintArith (op : BinaryOp) (i j : Int) : Option Int :=
  match op with
  | .sub => some (i - j)
  | .mul => some (i * j)
  | .div => if j = 0 then none else some (i.tdiv j)
  | .rem => if j = 0 then none else some (i.tmod j)
  | .exp => bigintExponentiate i j
  | _ => none

/-- An operator on two Numbers or two BigInts; a mixture throws. -/
def sameKind (number : F64 → F64 → Option F64) (bigint : Int → Int → Option Int) :
    Value → Value → Option Value
  | .number x, .number y => (number x y).map Value.number
  | .bigint i, .bigint j => (bigint i j).map Value.bigint
  | _, _ => none

def numericBinary (op : BinaryOp) (a b : Value) : Eval ω Value := do
  let p ← C.toNumericOperand a
  let q ← C.toNumericOperand b
  Eval.ofOption (sameKind (C.numberArith op) (bigintArith op) p q)

def int32 (x : F64) : BitVec 32 := BitVec.ofInt 32 x.toInt32

def ofInt32 (b : BitVec 32) : F64 := .ofInt b.toInt

def shiftCount (y : F64) : Nat := y.toUint32 % 32

def numberBits (op : BinaryOp) (x y : F64) : Option F64 :=
  match op with
  | .leftShift => some (ofInt32 (int32 x <<< shiftCount y))
  | .rightShift => some (ofInt32 ((int32 x).sshiftRight (shiftCount y)))
  | .unsignedRightShift => some (.ofNat (int32 x >>> shiftCount y).toNat)
  | .bitAnd => some (ofInt32 (int32 x &&& int32 y))
  | .bitXor => some (ofInt32 (int32 x ^^^ int32 y))
  | .bitOr => some (ofInt32 (int32 x ||| int32 y))
  | _ => none

/-- Shift counts are clamped. -/
def bigintShift (j : Int) : Int := max (-4000000) (min 4000000 j)

/-- A shift to the right rounds down. -/
def bigintShifted (i shift : Int) : Int :=
  if 0 ≤ shift then i * 2 ^ shift.toNat else i.fdiv (2 ^ (-shift).toNat)

def bigintBitwise (op : BinaryOp) (i j : Int) : Option Int :=
  match op with
  | .leftShift => some (bigintShifted i (bigintShift j))
  | .rightShift => some (bigintShifted i (-bigintShift j))
  | .bitAnd => some (i.land j)
  | .bitXor => some (i.xor j)
  | .bitOr => some (i.lor j)
  | _ => none

def bitwiseBinary (op : BinaryOp) (a b : Value) : Eval ω Value := do
  let p ← C.toNumericOperand a
  let q ← C.toNumericOperand b
  Eval.ofOption (sameKind (numberBits op) (bigintBitwise op) p q)

/-- The order of a BigInt and a Number, exactly; none for NaN. -/
def bigintNumberCmp (i : Int) : F64 → Option Ordering
  | .nan => none
  | .infinity neg => some (if neg then .gt else .lt)
  | x@(.finite ..) => some (compare (i * F64.one) x.toUnits)

def lessNumber (x y : F64) : Option Bool :=
  if x.isNaN || y.isNaN then none else some (F64.lt x y)

def lessNumeric : Value → Value → Option Bool
  | .number x, .number y => lessNumber x y
  | .bigint i, .bigint j => some (i < j)
  | .bigint i, .number y => (bigintNumberCmp i y).map (· = .lt)
  | .number x, .bigint j => (bigintNumberCmp j x).map (· = .gt)
  | _, _ => none

/-- IsLessThan of primitives; the inner none is an undefined relation. -/
def lessPrimitive (a b : Value) : Option (Option Bool) :=
  match a, b with
  | .string s, .string t => some (some (s < t))
  | .bigint i, .string t => some ((C.stringToBigint t).map (i < ·))
  | .string s, .bigint j => some ((C.stringToBigint s).map (· < j))
  | a, b => do
      let p ← C.toNumeric a
      let q ← C.toNumeric b
      return lessNumeric p q

def abstractRelational (a b : Value) (leftFirst : Bool) : Eval ω (Option Bool) := do
  if leftFirst then
    let p ← C.toPrimitiveValue .number a
    let q ← C.toPrimitiveValue .number b
    Eval.ofOption (C.lessPrimitive p q)
  else
    let q ← C.toPrimitiveValue .number b
    let p ← C.toPrimitiveValue .number a
    Eval.ofOption (C.lessPrimitive p q)

def isHtmlDdaValue : Value → Bool
  | .object id => C.isHtmlDda id
  | _ => false

def isNullish : Value → Bool
  | .undefined | .null => true
  | _ => false

def isStrictlyEqual : Value → Value → Bool
  | .number x, .number y => F64.eq x y
  | x, y => sameValue x y

def unboolean : Value → Value
  | .boolean true => .number (.ofNat 1)
  | .boolean false => .number .zero
  | v => v

/-- `is_loosely_equal` of primitives. -/
def looselyEqualPrimitive (a b : Value) : Bool :=
  match unboolean a, unboolean b with
  | .null, .undefined | .undefined, .null => true
  | .number x, .number y => F64.eq x y
  | .number x, .string t => F64.eq x (C.stringToNumber t)
  | .string s, .number y => F64.eq (C.stringToNumber s) y
  | .bigint i, .string t => C.stringToBigint t = some i
  | .string s, .bigint j => C.stringToBigint s = some j
  | .bigint i, .number y => bigintNumberCmp i y = some .eq
  | .number x, .bigint j => bigintNumberCmp j x = some .eq
  | x, y => x = y

def abstractLooselyEqual (a b : Value) : Eval ω Bool := do
  if C.isHtmlDdaValue a && isNullish b || C.isHtmlDdaValue b && isNullish a then return true
  else if isReference a && isReference b then return isStrictlyEqual a b
  else
    let p ← C.toPrimitiveValue .default a
    let q ← C.toPrimitiveValue .default b
    return C.looselyEqualPrimitive p q

def applyBinary (op : BinaryOp) (a b : Value) : Eval ω Value :=
  match op with
  | .add => C.add a b
  | .sub | .mul | .div | .rem | .exp => C.numericBinary op a b
  | .leftShift | .rightShift | .unsignedRightShift | .bitAnd | .bitXor | .bitOr =>
      C.bitwiseBinary op a b
  | .lessThan => do return .boolean ((← C.abstractRelational a b true) = some true)
  | .greaterThan => do return .boolean ((← C.abstractRelational b a false) = some true)
  | .lessEqual => do return .boolean ((← C.abstractRelational b a false) = some false)
  | .greaterEqual => do return .boolean ((← C.abstractRelational a b true) = some false)
  | .equal => do return .boolean (← C.abstractLooselyEqual a b)
  | .notEqual => do return .boolean !(← C.abstractLooselyEqual a b)
  | .strictEqual => pure (.boolean (isStrictlyEqual a b))
  | .strictNotEqual => pure (.boolean !isStrictlyEqual a b)
  | .isIn => do return .boolean (← C.hasProperty a b)
  | .instanceof => do return .boolean (← C.instanceOf b a)

def toBoolean : Value → Bool
  | .undefined | .null => false
  | .boolean b => b
  | .number x => !x.isNaN && !F64.eq x .zero
  | .string s => !s.isEmpty
  | .bigint i => i ≠ 0
  | .symbol _ | .function _ => true
  | .object id => !C.isHtmlDda id

def negate : Value → Option Value
  | .number x => some (.number (C.ieee.neg x))
  | .bigint i => some (.bigint (-i))
  | _ => none

def complement : Value → Option Value
  | .number x => some (.number (ofInt32 (~~~int32 x)))
  | .bigint i => some (.bigint (-i - 1))
  | _ => none

/-- `eval_unary_value`: three of the operators are none of a value. -/
def evalUnary (op : UnaryOp) (v : Value) : Eval ω Value :=
  match op with
  | .delete | .void | .typeof => Eval.throw
  | .plus => do
      let p ← C.toPrimitiveValue .number v
      let x ← Eval.ofOption (C.toNumber p)
      return .number x
  | .minus => do
      let n ← C.toNumericOperand v
      Eval.ofOption (C.negate n)
  | .bitNot => do
      let n ← C.toNumericOperand v
      Eval.ofOption (complement n)
  | .not => pure (.boolean !C.toBoolean v)

end Realm

namespace Lift

/-- The operation a binary operator is lifted to; the others are not lifted. -/
def binaryOp : BinaryOp → Option Op
  | .exp => some .pow
  | .mul => some .mul
  | .div => some .div
  | .rem => some .mod
  | .add => some .add
  | .sub => some .sub
  | .leftShift => some .shl
  | .rightShift => some .shr
  | .unsignedRightShift => some .ushr
  | .lessThan => some .lt
  | .greaterThan => some .gt
  | .lessEqual => some .le
  | .greaterEqual => some .ge
  | .equal => some .eq
  | .strictEqual => some .strictEq
  | .bitAnd => some .bitAnd
  | .bitXor => some .bitXor
  | .bitOr => some .bitOr
  | .isIn | .instanceof | .notEqual | .strictNotEqual => none

def unaryOp : UnaryOp → Option Op
  | .plus => some .toNumber
  | .minus => some .neg
  | .bitNot => some .bitNot
  | .not => some .not
  | .delete | .void | .typeof => none

def binaryType : Op → Ty
  | .eq | .strictEq | .lt | .le | .gt | .ge => .bool
  | .bitAnd | .bitOr | .bitXor | .shl | .shr => .int
  | .intAdd | .intSub | .intMul => .int
  -- a Number that is no signed int32
  | .ushr => .number
  | _ => .unknown

def unaryType : Op → Ty
  | .not => .bool
  | .bitNot => .int
  | _ => .number

end Lift

end Slag.Jit
