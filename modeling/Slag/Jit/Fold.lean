import Slag.Jit.Operators
import Slag.Jit.Verify

/-!
Constant folding: an operation whose operands are constants of the same block
becomes a constant, until none is left. The arithmetic of binary64 numbers is
that of the machine that compiles.
-/

namespace Slag.Jit

namespace Fold

/-- A foldable constant operand. -/
inductive ConstVal
  | num (x : F64)
  | bool (b : Bool)
deriving DecidableEq, Repr

def ConstVal.imm : ConstVal → Imm
  | num x => .float x
  | bool b => .bool b

def ConstVal.ty : ConstVal → Ty
  | num _ => .number
  | bool _ => .bool

def Inst.constant (inst : Inst) : Option ConstVal :=
  match inst.op, inst.imm with
  | .const, .float x => some (.num x)
  | .const, .int i => some (.num (F64.ofInt i))
  | .const, .bool b => some (.bool b)
  | _, _ => none

/-- The constant a value is defined as, when it is one of the block. -/
def constValue (block : Block) (v : ValueId) : Option ConstVal :=
  (block.insts.find? (·.result = some v)).bind Inst.constant

/-- What an operation comes to when the operands it takes are constants. -/
def compute (A : Ieee) : Op → List (Option ConstVal) → Option ConstVal
  | .add, some (.num a) :: some (.num b) :: _ => some (.num (A.add a b))
  | .sub, some (.num a) :: some (.num b) :: _ => some (.num (A.sub a b))
  | .mul, some (.num a) :: some (.num b) :: _ => some (.num (A.mul a b))
  | .div, some (.num a) :: some (.num b) :: _ => some (.num (A.div a b))
  | .lt, some (.num a) :: some (.num b) :: _ => some (.bool (F64.lt a b))
  | .le, some (.num a) :: some (.num b) :: _ => some (.bool (F64.le a b))
  | .gt, some (.num a) :: some (.num b) :: _ => some (.bool (F64.lt b a))
  | .ge, some (.num a) :: some (.num b) :: _ => some (.bool (F64.le b a))
  -- equality within one primitive kind never coerces
  | .eq, some (.num a) :: some (.num b) :: _ => some (.bool (F64.eq a b))
  | .eq, some (.bool a) :: some (.bool b) :: _ => some (.bool (a == b))
  | .strictEq, some (.num a) :: some (.num b) :: _ => some (.bool (F64.eq a b))
  | .strictEq, some (.bool a) :: some (.bool b) :: _ => some (.bool (a == b))
  | .neg, some (.num a) :: _ => some (.num (A.neg a))
  | .not, some (.bool a) :: _ => some (.bool !a)
  | _, _ => none

/-- The constant an instruction computes, unless it is one or has no result. -/
def foldInst (A : Ieee) (block : Block) (inst : Inst) : Option ConstVal :=
  if inst.op = .const ∨ inst.result = none then none
  else compute A inst.op (inst.args.map (constValue block))

def Inst.become (inst : Inst) (c : ConstVal) : Inst where
  op := .const
  args := []
  result := inst.result
  ty := c.ty
  effects := .pure
  imm := c.imm

/-- The sites to fold are collected before any of them is written. -/
def foldBlock (A : Ieee) (block : Block) : Block where
  params := block.params
  insts := block.insts.map fun inst => (foldInst A block inst).elim inst (Inst.become inst)
  term := block.term

/-- The folded values with their new types. -/
def retypes (A : Ieee) (f : Function) : List (ValueId × Ty) :=
  f.blocks.flatMap fun block => block.insts.filterMap fun inst =>
    (foldInst A block inst).bind fun c => inst.result.map (·, c.ty)

def setType (f : Function) (e : ValueId × Ty) : Except Stop Function :=
  if e.1 < f.valueCount then .ok (f.setValueType e.1 e.2) else .error .panicked

/-- One sweep, and whether it has folded anything. -/
def pass (A : Ieee) (f : Function) : Except Stop (Bool × Function) := do
  let changed := f.blocks.any fun block => block.insts.any fun inst => (foldInst A block inst).isSome
  let g ← (retypes A f).foldlM setType (f.mapBlocks (foldBlock A))
  return (changed, g)

def loop (A : Ieee) : Nat → Bool → Function → Except Stop (Bool × Function)
  | 0, _, _ => .error .diverged
  | fuel + 1, changed, f => do
      let r ← pass A f
      if r.1 then loop A fuel true r.2 else return (changed, r.2)

/-- More sweeps than instructions are never made. -/
def run (A : Ieee) (f : Function) : Except Stop (Bool × Function) := loop A (f.instCount + 1) false f

end Fold

end Slag.Jit
