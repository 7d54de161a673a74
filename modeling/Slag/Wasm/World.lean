import Slag.Wasm.Module
import Slag.Wasm.Signature

/-!
The interpreter. Operands, labels and frames are stacks with the top first, so
that label `l` of a branch is the entry `l` of the label stack and a height
counts entries from the end. What numeric, memory, table and aggregate
instructions compute is a parameter; how many operands they take and leave is
not.
-/

namespace Slag.Wasm

structure FuncAddr where
  inst : Nat
  index : Nat
  deriving DecidableEq, Repr

inductive ExternInner where
  | host (payload : Nat)
  | i31 (v : BitVec 32)
  | struct (id : Nat)
  | array (id : Nat)
  deriving DecidableEq, Repr

inductive RefValue where
  | null
  | func (addr : FuncAddr)
  | external (inner : ExternInner)
  | exn (id : Nat)
  | host (payload : Nat)
  | i31 (v : BitVec 32)
  | struct (id : Nat)
  | array (id : Nat)
  deriving DecidableEq, Repr

inductive Value where
  | i32 (v : BitVec 32)
  | i64 (v : BitVec 64)
  | f32 (bits : BitVec 32)
  | f64 (bits : BitVec 64)
  | v128 (bits : BitVec 128)
  | ref (r : RefValue)
  deriving DecidableEq, Repr

inductive Trap where
  | unreachable | integerDivideByZero | integerOverflow | invalidConversionToInteger
  | outOfBoundsMemoryAccess | outOfBoundsTableAccess | indirectCallTypeMismatch
  | undefinedElement | uninitializedElement | nullReference | nullFunctionReference
  | nullExceptionReference | nullStructReference | nullArrayReference | nullI31Reference
  | outOfBoundsArrayAccess | castFailure | callStackExhausted | unsupportedImport
  | unknownFunction
  deriving DecidableEq, Repr

/-- How a step can fail, exceptions aside. A step is `endless` where the types it
compares are compared again and again; the source overflows its stack there. -/
inductive ExecFail where
  | trap (trap : Trap)
  | unsupported (message : String)
  | terminated
  | endless
  deriving DecidableEq, Repr

/-! ## The world of instances -/

inductive FuncTarget where
  | owned (inst defined : Nat)
  | host (id : Nat)
  deriving DecidableEq, Repr

structure HostFunc where
  ty : FuncType
  token : Option Nat
  deriving DecidableEq, Repr

structure TagInst where
  ty : FuncType
  owner : Option (Nat × Nat)
  deriving DecidableEq, Repr

structure Instance where
  module : Module
  funcs : List FuncTarget
  tags : List Nat
  depthLimit : Nat

structure World where
  instances : List Instance
  hostFuncs : List HostFunc
  tags : List TagInst

namespace World

/-- The declared type of a function target. -/
def targetType (w : World) : FuncTarget → Option FuncType
  | .host id => w.hostFuncs[id]?.map HostFunc.ty
  | .owned inst defined => do
      let owner ← w.instances[inst]?
      let typeIndex ← owner.module.functions[defined]?
      owner.module.funcAt typeIndex

def funcTypeMatches (w : World) (m : Module) (typeIndex : Nat) : FuncTarget → Option Bool
  | .host id =>
      match w.hostFuncs[id]? with
      | some host => some (decide (host.ty = (m.funcAt typeIndex).getD ⟨[], []⟩))
      | none => some false
  | .owned inst defined =>
      match w.instances[inst]? with
      | none => some false
      | some owner =>
          match owner.module.functions[defined]? with
          | none => some false
          | some ownerType => typeIndicesEquivalent m typeIndex owner.module ownerType

/-- What an import resolves to. -/
inductive ExternVal where
  | hostFunc (id : Nat)
  | func (inst index : Nat)
  | global (cell : Nat)
  | memory (cell : Nat)
  | table (cell : Nat)
  | tag (cell : Nat)
  | unsupported (reason : String)

inductive InstantiateError where
  | unlinkable (message : String)
  | trap (trap : Trap)
  | unsupported (reason : String)
  | endless

def incompatible : InstantiateError := .unlinkable "incompatible import type"

def unknownImport : InstantiateError := .unlinkable "unknown import"

/-- What an import resolves to where its type is the requested one. -/
def checked {α : Type} (answer : Option Bool) (found : α) : Except InstantiateError α :=
  match answer with
  | some true => .ok found
  | some false => .error incompatible
  | none => .error .endless

theorem checked_eq_ok {α : Type} {answer : Option Bool} {found found' : α}
    (h : checked answer found = .ok found') : found = found' := by
  rcases answer with _ | _ | _ <;> cases h
  rfl

def linkFunc (w : World) (m : Module) (typeIndex : Nat) :
    Option ExternVal → Except InstantiateError FuncTarget
  | none => .error unknownImport
  | some (.hostFunc id) => checked (w.funcTypeMatches m typeIndex (.host id)) (.host id)
  | some (.func inst index) =>
      match w.instances[inst]?.bind fun i => i.funcs[index]? with
      | none => .error unknownImport
      | some target => checked (w.funcTypeMatches m typeIndex target) target
  | some (.unsupported reason) => .error (.unsupported reason)
  | some _ => .error incompatible

def tagMatches (w : World) (m : Module) (typeIndex : Nat) (expected : FuncType) (cell : Nat) :
    Option Bool :=
  match w.tags[cell]? with
  | none => some false
  | some tag =>
      match tag.owner with
      | some (ownerInst, ownerType) =>
          match w.instances[ownerInst]? with
          | none => some false
          | some owner => typeIndicesEquivalent m typeIndex owner.module ownerType
      | none => some (decide (tag.ty = expected))

def linkTag (w : World) (m : Module) (typeIndex : Nat) (value : Option ExternVal) :
    Except InstantiateError Nat :=
  match m.funcAt typeIndex with
  | none => .error unknownImport
  | some expected =>
      match value with
      | none => .error unknownImport
      | some (.tag cell) => checked (w.tagMatches m typeIndex expected cell) cell
      | some (.unsupported reason) => .error (.unsupported reason)
      | some _ => .error incompatible

/-- Instantiate a module: its function and tag imports are resolved and checked,
its own functions and tags follow them. -/
def instantiate (w : World) (m : Module) (funcImports tagImports : List (Option ExternVal))
    (depthLimit : Nat) : Except InstantiateError World := do
  let self := w.instances.length
  let funcs ← (m.importedFuncs.zipIdx).mapM fun (typeIndex, i) =>
    w.linkFunc m typeIndex (funcImports[i]?.join)
  let tags ← (m.importedTags.zipIdx).mapM fun (typeIndex, i) =>
    w.linkTag m typeIndex (tagImports[i]?.join)
  let own ← m.tags.mapM fun typeIndex =>
    match m.funcAt typeIndex with
    | some ty => .ok (⟨ty, some (self, typeIndex)⟩ : TagInst)
    | none => .error (.unlinkable "unknown tag type")
  return {
    instances := w.instances ++ [{
      module := m
      funcs := funcs ++ (List.range m.functions.length).map (.owned self)
      tags := tags ++ (List.range own.length).map fun k => w.tags.length + k
      depthLimit := depthLimit }]
    hostFuncs := w.hostFuncs
    tags := w.tags ++ own }

end World

/-! ## The body map -/

def usizeMax : Nat := 2 ^ 64 - 1

/-- The matching `end` of each opening instruction and the `else` of each `if`. -/
structure BodyMap where
  ends : List Nat
  elses : List (Option Nat)
  deriving DecidableEq, Repr

/-- The map under construction with the openers still open, innermost first. -/
structure Scan where
  map : BodyMap
  opens : List Nat
  deriving DecidableEq, Repr

def Scan.step (scan : Scan) (pc : Nat) : Instr → Scan
  | .block _ | .loop _ | .if_ _ | .tryTable _ _ => { scan with opens := pc :: scan.opens }
  | .else_ =>
      match scan.opens with
      | [] => scan
      | opened :: _ => { scan with map.elses := scan.map.elses.set opened (some pc) }
  | .end_ =>
      match scan.opens with
      | [] => scan
      | opened :: opens => ⟨{ scan.map with ends := scan.map.ends.set opened pc }, opens⟩
  | _ => scan

theorem Scan.step_end {scan : Scan} {pc o : Nat} {opens : List Nat} (h : scan.opens = o :: opens) :
    scan.step pc .end_ = ⟨{ scan.map with ends := scan.map.ends.set o pc }, opens⟩ := by
  simp only [step, h]

theorem Scan.step_else {scan : Scan} {pc o : Nat} {opens : List Nat} (h : scan.opens = o :: opens) :
    scan.step pc .else_ = { scan with map.elses := scan.map.elses.set o (some pc) } := by
  simp only [step, h]

def Scan.start (body : List Instr) : Scan :=
  ⟨⟨List.replicate body.length usizeMax, List.replicate body.length none⟩, []⟩

def Scan.over (scan : Scan) : List Instr → Nat → Scan
  | [], _ => scan
  | instr :: rest, pc => (scan.step pc instr).over rest (pc + 1)

def precompute (body : List Instr) : BodyMap :=
  ((Scan.start body).over body 0).map

/-! ## Frames -/

structure Label where
  arity : Nat
  height : Nat
  isLoop : Bool
  opened : Nat
  deriving DecidableEq, Repr

structure Frame where
  inst : Nat
  pc : Nat
  locals : List Value
  base : Nat
  results : Nat
  bodyIndex : Nat
  labels : List Label
  deriving DecidableEq, Repr

structure ExceptionInst where
  tag : Nat
  args : List Value
  deriving DecidableEq, Repr

/-- The store; `state` is what only the parameters of the interpreter read. -/
structure Store (σ : Type) where
  exceptions : List ExceptionInst
  state : σ

structure Engine (σ : Type) where
  stack : List Value
  frames : List Frame
  store : Store σ

/-- What the next iteration must do. -/
inductive Ctl (σ : Type) where
  | next (e : Engine σ)
  | settled (e : Engine σ)
  | finished (results : List Value)
  | host (token : Nat) (args : List Value) (e : Engine σ)
  | raised (exn : Nat) (e : Engine σ)

inductive Progress (σ : Type) where
  | running (e : Engine σ)
  | finished (results : List Value)
  | host (token : Nat) (args : List Value) (e : Engine σ)
  | uncaught (exn : Nat)
  | failed (fail : ExecFail)

/-- The parts of the interpreter that compute values: plain instructions, table
elements, reference casts and the termination flag. -/
structure Effects (σ : Type) where
  plain : σ → Nat → Instr → List Value → Except ExecFail (σ × Value)
  element : σ → Nat → Nat → Value → Except ExecFail FuncAddr
  refMatches : σ → Nat → RefValue → RefType → Except ExecFail Bool
  terminationRequested : σ → Bool

/-! ## The operand stack -/

def truncate (height : Nat) (stack : List Value) : List Value :=
  stack.drop (stack.length - height)

def pop : List Value → Except ExecFail (Value × List Value)
  | [] => .error (.trap .unreachable)
  | v :: stack => .ok (v, stack)

def popI32 (stack : List Value) : Except ExecFail (BitVec 32 × List Value) := do
  let (v, stack) ← pop stack
  match v with
  | .i32 v => return (v, stack)
  | _ => throw (.trap .unreachable)

/-- Pop several values; the first popped is the first of the list. -/
def popMany (count : Nat) (stack : List Value) : Except ExecFail (List Value × List Value) :=
  if count ≤ stack.length then .ok (stack.take count, stack.drop count)
  else .error (.trap .unreachable)

/-- Move the top values down to a height. -/
def moveTopTo (count target : Nat) (stack : List Value) : List Value :=
  let start := stack.length - count
  if target < start then stack.take count ++ truncate target stack
  else truncate (target + count) stack

/-! ## Plain instructions -/

def numInputs : NumOp → Nat
  | .i32Eqz | .i64Eqz | .i32Clz | .i32Ctz | .i32Popcnt | .i64Clz | .i64Ctz | .i64Popcnt | .f32Abs
  | .f32Neg | .f32Ceil | .f32Floor | .f32Trunc | .f32Nearest | .f32Sqrt | .f64Abs | .f64Neg
  | .f64Ceil | .f64Floor | .f64Trunc | .f64Nearest | .f64Sqrt | .i32WrapI64 | .i32TruncF32S
  | .i32TruncF32U | .i32TruncF64S | .i32TruncF64U | .i64ExtendI32S | .i64ExtendI32U
  | .i64TruncF32S | .i64TruncF32U | .i64TruncF64S | .i64TruncF64U | .f32ConvertI32S
  | .f32ConvertI32U | .f32ConvertI64S | .f32ConvertI64U | .f32DemoteF64 | .f64ConvertI32S
  | .f64ConvertI32U | .f64ConvertI64S | .f64ConvertI64U | .f64PromoteF32 | .i32ReinterpretF32
  | .i64ReinterpretF64 | .f32ReinterpretI32 | .f64ReinterpretI64 | .i32Extend8S | .i32Extend16S
  | .i64Extend8S | .i64Extend16S | .i64Extend32S | .i32TruncSatF32S | .i32TruncSatF32U
  | .i32TruncSatF64S | .i32TruncSatF64U | .i64TruncSatF32S | .i64TruncSatF32U | .i64TruncSatF64S
  | .i64TruncSatF64U => 1
  | _ => 2

def isRelaxed (sub : Nat) : Bool :=
  decide (0x100 ≤ sub ∧ sub ≤ 0x113)

def relaxedArity (sub : Nat) : Nat :=
  if 0x101 ≤ sub ∧ sub ≤ 0x104 then 1
  else if sub = 0x100 ∨ (0x10d ≤ sub ∧ sub ≤ 0x112) then 2
  else 3

/-- The operands a vector operator pops. -/
def simdOperands (sub : Nat) : Nat :=
  if isRelaxed sub then relaxedArity sub
  else
    match vecSig sub with
    | some .binop | some .shift | some (.replace _) => 2
    | some .ternop => 3
    | some _ => 1
    | none => 0

/-- How many operands a plain instruction pops and how many values it pushes;
none for the others. -/
def plainArity (m : Module) : Instr → Option (Nat × Nat)
  | .drop => some (1, 0)
  | .select | .selectTyped _ => some (3, 1)
  | .globalGet _ => some (0, 1)
  | .globalSet _ => some (1, 0)
  | .tableGet _ => some (1, 1)
  | .tableSet _ => some (2, 0)
  | .load _ _ _ _ => some (1, 1)
  | .store _ _ _ _ => some (2, 0)
  | .memorySize _ => some (0, 1)
  | .memoryGrow _ => some (1, 1)
  | .i32Const _ | .i64Const _ | .f32Const _ | .f64Const _ => some (0, 1)
  | .num op => some (numInputs op, 1)
  | .refNull _ => some (0, 1)
  | .refIsNull => some (1, 1)
  | .refFunc _ => some (0, 1)
  | .refEq => some (2, 1)
  | .refAsNonNull => some (1, 1)
  | .v128Const _ => some (0, 1)
  | .vecLoad _ _ _ _ => some (1, 1)
  | .vecStore _ _ _ => some (2, 0)
  | .vecLaneLoad _ _ _ _ _ => some (2, 1)
  | .vecLaneStore _ _ _ _ _ => some (2, 0)
  | .vecShuffle _ => some (2, 1)
  | .vec sub | .vecLane sub _ => some (simdOperands sub, 1)
  | .memoryInit _ _ | .memoryCopy _ _ | .memoryFill _ => some (3, 0)
  | .dataDrop _ | .elemDrop _ => some (0, 0)
  | .tableInit _ _ | .tableCopy _ _ | .tableFill _ => some (3, 0)
  | .tableGrow _ => some (2, 1)
  | .tableSize _ => some (0, 1)
  | .structNew ty =>
      match m.types[ty]? with
      | some ⟨_, _, .struct fields⟩ => some (fields.length, 1)
      | _ => some (0, 1)
  | .structNewDefault _ => some (0, 1)
  | .structGet _ _ | .structGetS _ _ | .structGetU _ _ => some (1, 1)
  | .structSet _ _ => some (2, 0)
  | .arrayNew _ => some (2, 1)
  | .arrayNewDefault _ => some (1, 1)
  | .arrayNewFixed _ n => some (n, 1)
  | .arrayNewData _ _ | .arrayNewElem _ _ => some (2, 1)
  | .arrayGet _ | .arrayGetS _ | .arrayGetU _ => some (2, 1)
  | .arraySet _ => some (3, 0)
  | .arrayLen => some (1, 1)
  | .arrayFill _ => some (4, 0)
  | .arrayCopy _ _ => some (5, 0)
  | .arrayInitData _ _ | .arrayInitElem _ _ => some (4, 0)
  | .refTest _ _ | .refCast _ _ => some (1, 1)
  | .anyConvertExtern | .externConvertAny => some (1, 1)
  | .refI31 | .i31GetS | .i31GetU => some (1, 1)
  | _ => none

variable {σ : Type}

/-- What a plain instruction makes of its operands. -/
def compute (fx : Effects σ) (state : σ) (inst : Nat) :
    Instr → List Value → Except ExecFail (σ × Value)
  | .i32Const v, _ => .ok (state, .i32 v)
  | .i64Const v, _ => .ok (state, .i64 v)
  | .f32Const bits, _ => .ok (state, .f32 bits)
  | .f64Const bits, _ => .ok (state, .f64 bits)
  | .v128Const bits, _ => .ok (state, .v128 bits)
  | .drop, [v] => .ok (state, v)
  | .select, [cond, b, a] | .selectTyped _, [cond, b, a] =>
      match cond with
      | .i32 cond => .ok (state, if cond ≠ 0 then a else b)
      | _ => .error (.trap .unreachable)
  | .refNull _, _ => .ok (state, .ref .null)
  | .refIsNull, [v] => .ok (state, .i32 (if v = .ref .null then 1 else 0))
  | .refFunc index, _ => .ok (state, .ref (.func ⟨inst, index⟩))
  | .refEq, [b, a] =>
      match a, b with
      | .ref x, .ref y => .ok (state, .i32 (if x = y then 1 else 0))
      | _, _ => .error (.unsupported "ref.eq on non-reference")
  | .refAsNonNull, [v] =>
      if v = .ref .null then .error (.trap .nullReference) else .ok (state, v)
  | instr, args => fx.plain state inst instr args

end Slag.Wasm
