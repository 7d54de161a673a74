import Slag.Jit.Fold

/-!
Numeric narrowing: which values are Numbers and which are int32s, as the
greatest solution of what the instructions say of each other, and the types and
effects that follow from it.
-/

namespace Slag.Jit

/-- All instructions, in the order of the blocks. -/
def Function.insts (f : Function) : List Inst := f.blocks.flatMap Block.insts

namespace Narrow

abbrev Flags := List Bool

def flag (l : Flags) (i : Nat) : Bool := l[i]?.getD false

/-- The number of frame slots the body names. -/
def slotCount (f : Function) : Nat :=
  f.insts.foldl
    (fun n inst =>
      match inst.imm with
      | .slot slot => max n (slot + 1)
      | _ => n) 0

def setFlag (p : Inst → Flags → Bool) (l : Flags) (inst : Inst) : Except Stop Flags :=
  match inst.result with
  | some r => if r < l.length then .ok (l.set r (p inst l)) else .error .panicked
  | none => .ok l

/-- A flag for each value, set where an instruction defines it. -/
def valueFlags (p : Inst → Flags → Bool) (f : Function) : Except Stop Flags :=
  f.insts.foldlM (setFlag p) (List.replicate f.valueCount false)

def isBitOp : Op → Bool
  | .bitAnd | .bitOr | .bitXor | .shl | .shr | .ushr | .bitNot => true
  | _ => false

def isNumberOp : Op → Bool
  | .add | .sub | .mul | .div | .mod | .pow | .neg | .toNumber => true
  | _ => false

def isIntOp : Op → Bool
  | .intAdd | .intSub | .intMul => true
  | _ => false

def allFlagged (values : Flags) (inst : Inst) : Bool :=
  !inst.args.isEmpty && inst.args.all (flag values)

/-- The instruction is an access to a slot of that flag. -/
def slotFlag (slots : Flags) : Imm → Bool
  | .slot slot => flag slots slot
  | _ => false

def isNumberConst : Imm → Bool
  | .float _ | .int _ => true
  | _ => false

/-- The instruction produces a Number. A `Number` guard asserts its type; a bit
operation on a BigInt is a BigInt, so its operands are asked for. -/
def isNumericInst (slotNumeric : Flags) (inst : Inst) (values : Flags) : Bool :=
  match inst.op with
  | .const => isNumberConst inst.imm
  | .guardType => inst.ty.isNumeric
  | .frameLoad => slotFlag slotNumeric inst.imm
  | op => (isNumberOp op || isBitOp op) && allFlagged values inst || isIntOp op

def valueNumerics (f : Function) (slotNumeric : Flags) : Except Stop Flags :=
  valueFlags (isNumericInst slotNumeric) f

/-- An integral constant in the range of an int32. -/
def isIntConst : Imm → Bool
  | .int _ => true
  | .float x => x.isIntegral && F64.lt x.abs (.ofNat (2 ^ 31))
  | _ => false

/-- The instruction produces an int32. The result of `>>>` is unsigned. -/
def isIntInst (values slotInt : Flags) (inst : Inst) : Bool :=
  match inst.op with
  | .const => isIntConst inst.imm
  | .frameLoad => slotFlag slotInt inst.imm
  | op => isBitOp op && op != .ushr && allFlagged values inst || isIntOp op

def valueInts (f : Function) (values slotInt : Flags) : Except Stop Flags :=
  valueFlags (fun inst _ => isIntInst values slotInt inst) f

def noteStore (values : Flags) (s : Flags × Flags) (inst : Inst) : Flags × Flags :=
  match inst.storeOf with
  | some (slot, value) => (s.1.set slot true, s.2.set slot (flag s.2 slot && flag values value))
  | none => s

/-- A slot is flagged if it is stored, and only flagged values are. -/
def slotFlags (f : Function) (values : Flags) (slots : Nat) : Flags :=
  let s := f.insts.foldl (noteStore values) (List.replicate slots false, List.replicate slots true)
  (List.range slots).map fun slot => flag s.1 slot && flag s.2 slot

def isArith (op : Op) : Bool :=
  match op with
  | .toNumber => false
  | op => isNumberOp op || isBitOp op || isIntOp op

def mark (l : Flags) (v : ValueId) : Flags := l.set v true

def markOperands (arith : Flags) (inst : Inst) : Flags :=
  if isArith inst.op then inst.args.foldl mark arith else arith

/-- The slot a load of which is used by arithmetic. -/
def markLoad (arith slotArith : Flags) (inst : Inst) : Flags :=
  match inst.op, inst.imm, inst.result with
  | .frameLoad, .slot slot, some r => if flag arith r then mark slotArith slot else slotArith
  | _, _, _ => slotArith

def markStore (slotArith arith : Flags) (inst : Inst) : Flags :=
  match inst.storeOf with
  | some (slot, value) => if flag slotArith slot then mark arith value else arith
  | none => arith

/-- The values used by arithmetic, or stored to a slot a load of which is. -/
def arithUses (f : Function) (values slots : Nat) : Flags :=
  let arith := f.insts.foldl markOperands (List.replicate values false)
  let slotArith := f.insts.foldl (markLoad arith) (List.replicate slots false)
  f.insts.foldl (markStore slotArith) arith

def withdraw (arith ints : Flags) (inst : Inst) : Flags :=
  match inst.result with
  | some r => if flag ints r && !flag arith r && !isIntOp inst.op then ints.set r false else ints
  | none => ints

/-- The int32s that have a use for the representation. -/
def restrictIntToArithUse (f : Function) (ints : Flags) (slots : Nat) : Flags :=
  f.insts.foldl (withdraw (arithUses f ints.length slots)) ints

def isComparison : Op → Bool
  | .lt | .le | .gt | .ge => true
  | _ => false

/-- The facts that the instructions are rewritten by. -/
structure Facts where
  values : Flags
  ints : Flags
  slotNumeric : Flags
  slotInt : Flags
deriving DecidableEq, Repr

/-- A comparison or a bit operation on Numbers runs no user code. -/
def widenInst (φ : Facts) (widen : Bool) (inst : Inst) : Inst :=
  if (isComparison inst.op || isBitOp inst.op) && allFlagged φ.values inst && widen then
    { inst with effects := .pure }
  else inst

/-- An instruction with its narrowed type and effects, and the type its value
is given, if it is. -/
def rewriteInst (φ : Facts) (widen : Bool) (inst : Inst) : Inst × Option Ty :=
  if inst.op = .frameLoad then
    if slotFlag φ.slotInt inst.imm then ({ inst with ty := .int }, some .int)
    else if slotFlag φ.slotNumeric inst.imm then ({ inst with ty := .number }, some .number)
    else (inst, none)
  else if inst.result.any (flag φ.ints) then
    ({ inst with ty := .int, effects := if widen then .pure else inst.effects }, some .int)
  -- The lift types every bit operation `Int`; what is not proven is withdrawn.
  else if inst.ty = .int ∧ (isBitOp inst.op ∨ inst.op = .const) then
    let ty := if inst.result.any (flag φ.values) then Ty.number else Ty.unknown
    ({ widenInst φ widen inst with ty }, some ty)
  else if isNumberOp inst.op ∧ allFlagged φ.values inst then
    ({ inst with ty := .number, effects := .pure }, some .number)
  else (widenInst φ widen inst, none)

def rewriteBlock (φ : Facts) (widen : Bool) (block : Block) : Block where
  params := block.params
  insts := block.insts.map fun inst => (rewriteInst φ widen inst).1
  term := block.term

def retypes (φ : Facts) (widen : Bool) (f : Function) : List (ValueId × Ty) :=
  f.insts.filterMap fun inst => inst.result.bind fun r => (rewriteInst φ widen inst).2.map (r, ·)

/-- The last definition of a value. -/
def defOf (f : Function) (v : ValueId) : Option Inst := f.insts.reverse.find? (·.result = some v)

def isZero (f : Function) (v : ValueId) : Bool :=
  match defOf f v with
  | some inst =>
      match inst.op, inst.imm with
      | .const, .int i => i = 0
      | .const, .float x => F64.eq x .zero
      | _, _ => false
  | none => false

/-- The wrapping form of an operation. -/
def wrapping : Op → Option Op
  | .add => some .intAdd
  | .sub => some .intSub
  | _ => none

/-- What `x | 0` and `x ^ 0` make an int32 of. -/
def truncated (f : Function) (inst : Inst) : Option ValueId :=
  match inst.op, inst.args with
  | .bitOr, [x, y] | .bitXor, [x, y] =>
      if isZero f x then some y else if isZero f y then some x else none
  | _, _ => none

/-- The wrapping operation, and its operands, that an instruction comes to. -/
def fusion (f : Function) (ints : Flags) (inst : Inst) : Option (Op × List ValueId) :=
  match (truncated f inst).bind (defOf f) with
  | some d =>
      match wrapping d.op, d.args with
      | some op, [a, b] => if flag ints a && flag ints b then some (op, [a, b]) else none
      | _, _ => none
  | none => none

def fuseInst (f : Function) (ints : Flags) (inst : Inst) : Inst :=
  match fusion f ints inst with
  | some (op, args) => { inst with op, args, ty := .int }
  | none => inst

def fuseBlock (f : Function) (ints : Flags) (block : Block) : Block where
  params := block.params
  insts := block.insts.map (fuseInst f ints)
  term := block.term

def fuseWrappingArith (f : Function) (ints : Flags) : Bool × Function :=
  (f.insts.any fun inst => (fusion f ints inst).isSome, f.mapBlocks (fuseBlock f ints))

/-- A value is given a type, if it has another. -/
def retype (s : Bool × Function) (e : ValueId × Ty) : Except Stop (Bool × Function) :=
  if e.1 < s.2.valueCount then
    .ok (s.1 || s.2.valueType e.1 ≠ e.2, s.2.setValueType e.1 e.2)
  else .error .panicked

def rewrite (φ : Facts) (widen : Bool) (f : Function) : Except Stop (Bool × Function) := do
  let changed := f.insts.any fun inst => (rewriteInst φ widen inst).1 ≠ inst
  let s ← (retypes φ widen f).foldlM retype (changed, f.mapBlocks (rewriteBlock φ widen))
  let r := fuseWrappingArith s.2 φ.ints
  return (s.1 || r.1, r.2)

/-- What the flags of the slots say of the values, and the flags of the slots
that follow. -/
def sweep (f : Function) (slotNumeric slotInt : Flags) : Except Stop (Facts × Flags × Flags) := do
  let slots := slotCount f
  let values ← valueNumerics f slotNumeric
  let ints ← valueInts f values slotInt
  let ints := restrictIntToArithUse f ints slots
  return (⟨values, ints, slotNumeric, slotInt⟩, slotFlags f values slots, slotFlags f ints slots)

def settle (f : Function) : Nat → Flags → Flags → Except Stop Facts
  | 0, _, _ => .error .diverged
  | fuel + 1, slotNumeric, slotInt => do
      let (φ, next, nextInt) ← sweep f slotNumeric slotInt
      if next = slotNumeric ∧ nextInt = slotInt then return φ else settle f fuel next nextInt

/-- The facts of a body: every slot is flagged until a store speaks against it. -/
def facts (f : Function) : Except Stop Facts :=
  settle f (2 * slotCount f + 1) (List.replicate (slotCount f) true)
    (List.replicate (slotCount f) true)

/-- `widen` is whether effects are widened. -/
def run (widen : Bool) (f : Function) : Except Stop (Bool × Function) := do
  let φ ← facts f
  rewrite φ widen f

end Narrow

end Slag.Jit
