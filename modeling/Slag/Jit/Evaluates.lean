import Slag.Jit.Operators
import Slag.Jit.Semantics

/-!
Runs over the values of the language: what the operators yield, by the kinds of
their operands.
-/

namespace Slag.Jit

open Crux

def IsNumber (v : Value) : Prop := ∃ x, v = .number x

/-- A Number that an i32 holds: no negative zero is one. -/
def IsI32 (v : Value) : Prop := ∃ b : BitVec 32, v = .number (Realm.ofInt32 b)

theorem IsI32.isNumber {v : Value} (h : IsI32 v) : IsNumber v := by
  obtain ⟨b, hv⟩ := h
  exact ⟨_, hv⟩

theorem isI32_ofInt {i : Int} (hlo : -2 ^ 31 ≤ i) (hhi : i < 2 ^ 31) :
    IsI32 (.number (F64.ofInt i)) := by
  have hint : (BitVec.ofInt 32 i).toInt = i := by
    rw [BitVec.toInt_ofInt, Int.bmod_eq_of_le] <;> omega
  refine ⟨BitVec.ofInt 32 i, ?_⟩
  rw [Realm.ofInt32, hint]

/-- An integral Number in the range of an i32 is one, but for the negative zero. -/
theorem isI32_of_hasInt {x : F64} {i : Int} (h : x.HasInt i) (hlo : -2 ^ 31 ≤ i) (hhi : i < 2 ^ 31)
    (hzero : x ≠ .negZero) : IsI32 (.number x) := by
  have heq : F64.eq x (F64.ofInt i) = true := by
    rw [F64.eq_int h (F64.hasInt_ofInt (by omega)), decide_eq_true rfl]
  have hx : x = F64.ofInt i := by
    rcases F64.eq_iff.mp heq with ⟨-, hx⟩ | ⟨hx, -⟩
    · exact hx
    · obtain rfl := hx.resolve_right hzero
      obtain rfl := h.unique F64.hasInt_zero
      rw [F64.ofInt, Int.natAbs_zero, Nat.zero_mul]
      exact (F64.ofRatio_zero false).symm
  rw [hx]
  exact isI32_ofInt hlo hhi

/-- The values a type covers. A hole is no value of the language. -/
def Ty.Covers : Ty → Value → Prop
  | .never, _ | .hole, _ => False
  | .undefined, v => v = .undefined
  | .null, v => v = .null
  | .bool, v => ∃ b, v = .boolean b
  | .int, v => IsI32 v
  | .number, v | .float, v => IsNumber v
  | .string, v => ∃ s, v = .string s
  | .object, v => isReference v = true
  | .unknown, _ => True

/-- The value of a constant. -/
def Imm.constant : Imm → Option Value
  | .int i => some (.number (F64.ofInt i))
  | .float x => some (.number x)
  | .bool b => some (.boolean b)
  | _ => Option.none

def Outcome.ofEval {ω : Type} : Option Value × ω → Outcome Value ω
  | (some v, w) => .next v [] w
  | (none, w) => .stop w

/-- The operations the operators are lifted to are the operators, on the
operands in front, and constants are what they say. -/
structure Evaluates {ω : Type} (C : Realm ω) (R : Runtime Value ω) : Prop where
  binary : ∀ op o, Lift.binaryOp op = some o → ∀ imm, R.reads o imm = [] ∧
    ∀ ty a b rest w, R.exec o ty imm (a :: b :: rest) w = .ofEval (C.applyBinary op a b w)
  unary : ∀ op o, Lift.unaryOp op = some o → ∀ imm, R.reads o imm = [] ∧
    ∀ ty a rest w, R.exec o ty imm (a :: rest) w = .ofEval (C.evalUnary op a w)
  const : ∀ imm v, imm.constant = some v → R.reads .const imm = [] ∧
    ∀ ty args w, R.exec .const ty imm args w = .next v [] w

namespace Realm

variable {ω : Type} (C : Realm ω)

def ofBinary : Op → Option BinaryOp
  | .pow => some .exp
  | .mul => some .mul
  | .div => some .div
  | .mod => some .rem
  | .add => some .add
  | .sub => some .sub
  | .shl => some .leftShift
  | .shr => some .rightShift
  | .ushr => some .unsignedRightShift
  | .lt => some .lessThan
  | .gt => some .greaterThan
  | .le => some .lessEqual
  | .ge => some .greaterEqual
  | .eq => some .equal
  | .strictEq => some .strictEqual
  | .bitAnd => some .bitAnd
  | .bitXor => some .bitXor
  | .bitOr => some .bitOr
  | _ => none

def ofUnary : Op → Option UnaryOp
  | .toNumber => some .plus
  | .neg => some .minus
  | .bitNot => some .bitNot
  | .not => some .not
  | _ => none

theorem ofBinary_binaryOp {op : BinaryOp} {o : Op} (h : Lift.binaryOp op = some o) :
    ofBinary o = some op := by
  cases op <;> cases h <;> rfl

theorem ofUnary_unaryOp {op : UnaryOp} {o : Op} (h : Lift.unaryOp op = some o) :
    ofUnary o = some op := by
  cases op <;> cases h <;> rfl

/-- Operators, constants and checks; what is none of them leaves the body. -/
def execute (o : Op) (imm : Imm) (args : List Value) (w : ω) : Outcome Value ω :=
  match ofBinary o, ofUnary o, args with
  | some op, _, a :: b :: _ => .ofEval (C.applyBinary op a b w)
  | none, some op, a :: _ => .ofEval (C.evalUnary op a w)
  | none, none, args =>
      match o, imm.constant, args with
      | .const, some v, _ => .next v [] w
      | .check, _, a :: _ => if C.toBoolean a then .next .undefined [] w else .stop w
      | _, _, _ => .stop w
  | _, _, _ => .stop w

def runtime : Runtime Value ω where
  reads _ _ := []
  binds _ _ := []
  exec o _ := C.execute o
  truthy := C.toBoolean

theorem runtime_evaluates : Evaluates C C.runtime where
  binary op o h imm := by
    refine ⟨rfl, fun ty a b rest w => ?_⟩
    simp only [runtime, execute, ofBinary_binaryOp h]
  unary op o h imm := by
    refine ⟨rfl, fun ty a rest w => ?_⟩
    have hnone : ofBinary o = none := by cases op <;> cases h <;> rfl
    simp only [runtime, execute, ofUnary_unaryOp h, hnone]
  const imm v h := by
    refine ⟨rfl, fun ty args w => ?_⟩
    simp only [runtime, execute, ofBinary, ofUnary, h]

/-- Conversions that throw, where there are any. -/
def strict : Realm Unit where
  ieee := .binary64
  toPrimitive _ _ := Eval.throw
  primitive := nofun
  hasProperty _ _ := Eval.throw
  instanceOf _ _ := Eval.throw
  isHtmlDda _ := false
  stringToNumber _ := .nan
  stringToBigint _ := none
  numberToString _ := []
  bigintToString _ := []
  powf _ _ := .nan

theorem lessNumber_true (x y : F64) : decide (lessNumber x y = some true) = F64.lt x y := by
  unfold lessNumber
  split
  · rename_i h
    rw [F64.lt_isNaN h]
    rfl
  · cases F64.lt x y <;> rfl

theorem lessNumber_false (x y : F64) : decide (lessNumber x y = some false) = F64.le y x := by
  unfold lessNumber
  split
  · rename_i h
    rw [F64.le_isNaN (Bool.or_comm _ _ ▸ h)]
    rfl
  · rename_i h
    rw [F64.le_eq_not_lt (Bool.or_comm _ _ ▸ Bool.eq_false_iff.mpr h)]
    cases F64.lt x y <;> rfl

section Kinds

variable {C} {a b v n p q : Value} {w w' : ω} {op : BinaryOp} {o : Op}

theorem toNumericOperand_number (x : F64) :
    C.toNumericOperand (.number x) w = (some (.number x), w) := rfl

theorem toNumeric_kind (h : C.toNumeric p = some n) : IsNumber n ∨ ∃ i, n = .bigint i := by
  unfold toNumeric at h
  split at h
  · cases h
    exact .inr ⟨_, rfl⟩
  · obtain ⟨x, -, rfl⟩ := Option.map_eq_some_iff.mp h
    exact .inl ⟨x, rfl⟩

theorem toNumericOperand_kind (h : C.toNumericOperand a w = (some n, w')) :
    IsNumber n ∨ ∃ i, n = .bigint i := by
  obtain ⟨p, w₁, -, hp⟩ := Eval.bind_eq_some.mp h
  exact toNumeric_kind (Eval.ofOption_eq_some.mp hp).1

theorem sameKind_kind {number : F64 → F64 → Option F64} {bigint : Int → Int → Option Int}
    (h : sameKind number bigint p q = some v) : IsNumber v ∨
      ∃ i j k, p = .bigint i ∧ q = .bigint j ∧ bigint i j = some k ∧ v = .bigint k := by
  unfold sameKind at h
  split at h
  · obtain ⟨z, -, rfl⟩ := Option.map_eq_some_iff.mp h
    exact .inl ⟨z, rfl⟩
  · obtain ⟨k, hk, rfl⟩ := Option.map_eq_some_iff.mp h
    exact .inr ⟨_, _, k, rfl, rfl, hk, rfl⟩
  · cases h

/-- An operator that is lifted to a Boolean type yields one. -/
theorem applyBinary_bool (ho : Lift.binaryOp op = some o) (hty : Lift.binaryType o = .bool)
    (h : C.applyBinary op a b w = (some v, w')) : ∃ b, v = .boolean b := by
  have hpure : ∀ {α : Type} {x : Eval ω α} {g : α → Bool},
      (x >>= fun r => pure (Value.boolean (g r))) w = (some v, w') → ∃ b, v = .boolean b := by
    intro α x g hx
    obtain ⟨r, w₁, -, hr⟩ := Eval.bind_eq_some.mp hx
    obtain ⟨rfl, -⟩ := Eval.pure_eq_some.mp hr
    exact ⟨_, rfl⟩
  cases op <;> cases ho <;> first
    | exact hpure h
    | exact ⟨_, (Eval.pure_eq_some.mp h).1.symm⟩
    | cases hty

/-- A BigInt has no unsigned shift. -/
theorem applyBinary_ushr (h : C.applyBinary .unsignedRightShift a b w = (some v, w')) :
    IsNumber v := by
  obtain ⟨p, w₁, -, h⟩ := Eval.bind_eq_some.mp h
  obtain ⟨q, w₂, -, h⟩ := Eval.bind_eq_some.mp h
  rcases sameKind_kind (Eval.ofOption_eq_some.mp h).1 with hv | ⟨i, j, k, -, -, hk, -⟩
  · exact hv
  · cases hk

def isNumeric : Op → Bool
  | .add | .sub | .mul | .div | .mod | .pow | .neg | .toNumber => true
  | .bitAnd | .bitOr | .bitXor | .shl | .shr | .ushr | .bitNot => true
  | _ => false

/-- Numbers yield Numbers. -/
theorem applyBinary_numbers (ho : Lift.binaryOp op = some o) (hnum : isNumeric o = true) {x y : F64}
    (h : C.applyBinary op (.number x) (.number y) w = (some v, w')) : IsNumber v := by
  cases op <;> cases ho <;> first
    | (cases h; exact ⟨_, rfl⟩)
    | cases hnum

/-- The result of a bit operation on Numbers is signed, but for one of them. -/
theorem applyBinary_bits (ho : Lift.binaryOp op = some o) (hty : Lift.binaryType o = .int)
    {x y : F64} (h : C.applyBinary op (.number x) (.number y) w = (some v, w')) : IsI32 v := by
  cases op <;> cases ho <;> first
    | exact absurd hty (by decide)
    | (cases h; exact ⟨_, rfl⟩)

theorem evalUnary_plus (h : C.evalUnary .plus a w = (some v, w')) : IsNumber v := by
  obtain ⟨p, w₁, -, h⟩ := Eval.bind_eq_some.mp h
  obtain ⟨x, w₂, -, h⟩ := Eval.bind_eq_some.mp h
  exact ⟨x, (Eval.pure_eq_some.mp h).1.symm⟩

/-- A minus yields a Number unless its operand is a BigInt. -/
theorem evalUnary_minus (hnum : ∀ n w', C.toNumericOperand a w = (some n, w') → IsNumber n)
    (h : C.evalUnary .minus a w = (some v, w')) : IsNumber v := by
  obtain ⟨n, w₁, hn, h⟩ := Eval.bind_eq_some.mp h
  obtain ⟨x, rfl⟩ := hnum n w₁ hn
  have hv := (Eval.ofOption_eq_some.mp h).1
  cases hv
  exact ⟨_, rfl⟩

theorem evalUnary_not (h : C.evalUnary .not a w = (some v, w')) : ∃ b, v = .boolean b :=
  ⟨_, (Eval.pure_eq_some.mp h).1.symm⟩

theorem evalUnary_bitNot {x : F64} (h : C.evalUnary .bitNot (.number x) w = (some v, w')) :
    IsI32 v := by
  cases h
  exact ⟨_, rfl⟩

end Kinds

end Realm

end Slag.Jit
