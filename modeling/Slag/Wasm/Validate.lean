import Slag.Wasm.Signature

/-!
The type-checking machine for function bodies: a stack of operand types and a
stack of control frames, both with the top first.
-/

namespace Slag.Wasm

inductive Ctrl where
  | func | block | loop | if_ | else_ | tryTable
  deriving DecidableEq, Repr

/-- An operand type; `bot` is what a pop yields once the frame is unreachable
and its operands are exhausted. -/
inductive StackTy where
  | known (ty : ValType)
  | bot
  deriving DecidableEq, Repr

def isNumTy : StackTy → Bool
  | .bot | .known .i32 | .known .i64 | .known .f32 | .known .f64 => true
  | _ => false

def isVecTy : StackTy → Bool
  | .bot | .known .v128 => true
  | _ => false

structure CtrlFrame where
  ctrl : Ctrl
  startTypes : List ValType
  endTypes : List ValType
  height : Nat
  unreachable : Bool
  savedInit : List Bool
  deriving DecidableEq, Repr

/-- The types a branch to the frame's label carries. -/
def CtrlFrame.labelTypes (f : CtrlFrame) : List ValType :=
  match f.ctrl with
  | .loop => f.startTypes
  | _ => f.endTypes

structure Machine where
  vals : List StackTy
  frames : List CtrlFrame
  init : List Bool
  deriving DecidableEq, Repr

namespace Machine

def pushVals (m : Machine) (types : List ValType) : Machine :=
  { m with vals := (types.map StackTy.known).reverse ++ m.vals }

def push (m : Machine) (ty : StackTy) : Machine :=
  { m with vals := ty :: m.vals }

def pushFrame (m : Machine) (ctrl : Ctrl) (start finish : List ValType) : Machine :=
  { m.pushVals start with
    frames := ⟨ctrl, start, finish, m.vals.length, false, m.init⟩ :: m.frames }

/-- Make the rest of the innermost frame dead code. -/
def unreachable (m : Machine) : Machine :=
  match m.frames with
  | [] => m
  | f :: frames =>
      { m with
        vals := m.vals.drop (m.vals.length - f.height)
        frames := { f with unreachable := true } :: frames }

def popVal (m : Machine) : Except Error (StackTy × Machine) :=
  match m.frames with
  | [] => .error typeMismatch
  | f :: _ =>
      if m.vals.length = f.height then
        if f.unreachable then .ok (.bot, m) else .error typeMismatch
      else
        match m.vals with
        | [] => .error typeMismatch
        | ty :: vals => .ok (ty, { m with vals := vals })

def labelTypes (m : Machine) (index : Nat) : Except Error (List ValType) :=
  match m.frames[index]? with
  | none => .error (.invalid "unknown label")
  | some f => .ok f.labelTypes

/-- The results of the function, whose frame is the outermost. -/
def currentResults (m : Machine) : List ValType :=
  (m.frames.getLast?.map CtrlFrame.endTypes).getD []

variable (s : Spaces)

def popValOf (m : Machine) (expected : ValType) : Except Error (StackTy × Machine) := do
  let (entry, m) ← m.popVal
  match entry with
  | .bot => return (.bot, m)
  | .known actual => if valSub s.module expected actual then return (entry, m) else throw typeMismatch

def popExpected (m : Machine) (expected : ValType) : Except Error Machine := do
  return (← m.popValOf s expected).2

def popVals (m : Machine) (types : List ValType) : Except Error Machine :=
  types.reverse.foldlM (fun m ty => m.popExpected s ty) m

/-- Pop and check values, and push back what was there. -/
def popValsPeek (m : Machine) (types : List ValType) : Except Error Machine := do
  let (actuals, m) ← types.reverse.foldlM (fun (acc : List StackTy × Machine) ty => do
    let (actual, m) ← acc.2.popValOf s ty
    return (actual :: acc.1, m)) ([], m)
  return { m with vals := actuals.reverse ++ m.vals }

/-- Pop a reference or an unknown value. -/
def popRef (m : Machine) : Except Error (StackTy × Machine) := do
  let (entry, m) ← m.popVal
  match entry with
  | .bot | .known (.ref _) => return (entry, m)
  | .known _ => throw typeMismatch

def popRefUnder (m : Machine) (expected : ValType) : Except Error Machine := do
  let (entry, m) ← m.popRef
  match entry with
  | .bot => return m
  | .known actual => if valSub s.module expected actual then return m else throw typeMismatch

/-- Close the innermost frame: its results are there, and nothing else. -/
def popFrame (m : Machine) : Except Error (CtrlFrame × Machine) :=
  match m.frames with
  | [] => .error typeMismatch
  | f :: _ => do
      let m ← m.popVals s f.endTypes
      match m.frames with
      | [] => throw typeMismatch
      | f :: frames =>
          if m.vals.length ≠ f.height then throw typeMismatch
          return (f, { m with frames := frames })

def exnRef : ValType :=
  .ref ⟨false, .exn⟩

/-- What a catch clause delivers, and to which label. -/
def catchPayload : Catch → Except Error (List ValType × Nat)
  | .tag tag label => do
      return ((← s.tagAt tag).params, label)
  | .tagRef tag label => do
      return ((← s.tagAt tag).params ++ [exnRef], label)
  | .all label => .ok ([], label)
  | .allRef label => .ok ([exnRef], label)

def checkCatch (m : Machine) (clause : Catch) : Except Error Unit := do
  let (payload, label) ← catchPayload s clause
  let types ← m.labelTypes label
  if payload.length ≠ types.length ||
      (payload.zip types).any fun p => !valSub s.module p.2 p.1 then
    throw typeMismatch

def tailCall (m : Machine) (ty signature : FuncType) : Except Error Machine := do
  let m ← m.popVals s ty.params
  if ty.results.length ≠ signature.results.length then throw typeMismatch
  if (signature.results.zip ty.results).any fun p => !valSub s.module p.1 p.2 then
    throw typeMismatch
  return m.unreachable

/-- The operand of `br_on_cast` with the rest of the label's values below it. -/
def checkCastBranch (m : Machine) (label : Nat) (source target carried left : RefType) :
    Except Error Machine := do
  if !refSub s.module source target then throw typeMismatch
  let types ← m.labelTypes label
  match types.getLast? with
  | none => throw typeMismatch
  | some last => do
      if !valSub s.module last (.ref carried) then throw typeMismatch
      let m ← m.popExpected s (.ref source)
      let m ← m.popVals s types.dropLast
      return (m.pushVals types.dropLast).push (.known (.ref left))

def call (m : Machine) (ty : FuncType) : Except Error Machine := do
  let m ← m.popVals s ty.params
  return m.pushVals ty.results

def enter (m : Machine) (ctrl : Ctrl) (bt : BlockType) : Except Error Machine := do
  let (params, results) ← s.resolveBlockType bt
  let m ← m.popVals s params
  return m.pushFrame ctrl params results

/-- Check one instruction. -/
def step (signature : FuncType) (locals : List ValType) (m : Machine) :
    Instr → Except Error Machine
  | .unreachable => .ok m.unreachable
  | .nop => .ok m
  | .block bt => m.enter s .block bt
  | .loop bt => m.enter s .loop bt
  | .if_ bt => do
      let m ← m.popExpected s .i32
      m.enter s .if_ bt
  | .tryTable bt catches => do
      let _ ← s.resolveBlockType bt
      catches.forM (m.checkCatch s)
      m.enter s .tryTable bt
  | .else_ => do
      let (frame, m) ← m.popFrame s
      if frame.ctrl ≠ .if_ then throw (.invalid "else instruction outside of an if block")
      return { m with init := frame.savedInit }.pushFrame .else_ frame.startTypes frame.endTypes
  | .end_ => do
      let (frame, m) ← m.popFrame s
      if frame.ctrl = .func then
        -- The function's end is implicit: its frame stays.
        return { m with frames := frame :: m.frames }
      else
        if frame.ctrl = .if_ ∧ frame.endTypes ≠ frame.startTypes then throw typeMismatch
        return { m with init := frame.savedInit }.pushVals frame.endTypes
  | .br label => do
      let types ← m.labelTypes label
      let m ← m.popVals s types
      return m.unreachable
  | .brIf label => do
      let m ← m.popExpected s .i32
      let types ← m.labelTypes label
      let m ← m.popVals s types
      return m.pushVals types
  | .brTable targets default => do
      let m ← m.popExpected s .i32
      let defaultTypes ← m.labelTypes default
      let m ← targets.foldlM (fun m target => do
        let types ← m.labelTypes target
        if types.length ≠ defaultTypes.length then throw typeMismatch
        m.popValsPeek s types) m
      let m ← m.popVals s defaultTypes
      return m.unreachable
  | .return_ => do
      let m ← m.popVals s m.currentResults
      return m.unreachable
  | .call index => do
      m.call s (← s.funcAt index)
  | .returnCall index => do
      m.tailCall s (← s.funcAt index) signature
  | .callIndirect typeIndex tableIndex => do
      let table ← s.tableAt tableIndex
      if !s.tableIsFunc table then throw typeMismatch
      let ty ← typeAt s.module typeIndex
      let m ← m.popExpected s (← s.tableAddrType tableIndex)
      m.call s ty
  | .returnCallIndirect typeIndex tableIndex => do
      let table ← s.tableAt tableIndex
      if !s.tableIsFunc table then throw typeMismatch
      let ty ← typeAt s.module typeIndex
      let m ← m.popExpected s (← s.tableAddrType tableIndex)
      m.tailCall s ty signature
  | .callRef typeIndex => do
      let ty ← typeAt s.module typeIndex
      let m ← m.popExpected s (typedRefOf typeIndex)
      m.call s ty
  | .returnCallRef typeIndex => do
      let ty ← typeAt s.module typeIndex
      let m ← m.popExpected s (typedRefOf typeIndex)
      m.tailCall s ty signature
  | .drop => do
      return (← m.popVal).2
  | .select => do
      let m ← m.popExpected s .i32
      let (t1, m) ← m.popVal
      let (t2, m) ← m.popVal
      if !(isNumTy t1 && isNumTy t2 || isVecTy t1 && isVecTy t2) then throw typeMismatch
      if t1 ≠ t2 ∧ t1 ≠ .bot ∧ t2 ≠ .bot then throw typeMismatch
      return m.push (if t1 = .bot then t2 else t1)
  | .localGet index => do
      let ty ← Spaces.lookup locals index "unknown local"
      if !isDefaultable ty && !(m.init[index]?.getD false) then
        throw (.invalid "uninitialized local")
      return m.pushVals [ty]
  | .localSet index => do
      let ty ← Spaces.lookup locals index "unknown local"
      let m ← m.popExpected s ty
      return { m with init := m.init.set index true }
  | .localTee index => do
      let ty ← Spaces.lookup locals index "unknown local"
      let m ← m.popExpected s ty
      return { m with init := m.init.set index true }.pushVals [ty]
  | .refIsNull => do
      return (← m.popRef).2.pushVals [.i32]
  | .refAsNonNull => do
      let (entry, m) ← m.popRef
      match entry with
      | .known (.ref r) => return m.pushVals [.ref ⟨false, r.heap⟩]
      | _ => return m.push .bot
  | .brOnNull label => do
      let (operand, m) ← m.popVal
      let types ← m.labelTypes label
      match operand with
      | .bot => do
          let m ← m.popVals s types
          return (m.pushVals types).push .bot
      | .known (.ref r) => do
          let m ← m.popVals s types
          return (m.pushVals types).push (.known (.ref ⟨false, r.heap⟩))
      | .known _ => throw typeMismatch
  | .brOnNonNull label => do
      let types ← m.labelTypes label
      match types.getLast? with
      | some (.ref r) => do
          let m ← m.popExpected s (.ref ⟨true, r.heap⟩)
          let m ← m.popVals s types.dropLast
          return m.pushVals types.dropLast
      | _ => throw typeMismatch
  | .throw tag => do
      let ty ← s.tagAt tag
      let m ← m.popVals s ty.params
      return m.unreachable
  | .throwRef => do
      let m ← m.popExpected s (.ref ⟨true, .exn⟩)
      return m.unreachable
  | .refTest _ heap => do
      let heap ← s.heapChecked heap
      let m ← m.popRefUnder s (.ref ⟨true, topHeap s.module heap⟩)
      return m.pushVals [.i32]
  | .refCast nullable heap => do
      let heap ← s.heapChecked heap
      let m ← m.popRefUnder s (.ref ⟨true, topHeap s.module heap⟩)
      return m.pushVals [.ref ⟨nullable, heap⟩]
  | .brOnCast label source target =>
      m.checkCastBranch s label source target target (typeDifference source target)
  | .brOnCastFail label source target =>
      m.checkCastBranch s label source target (typeDifference source target) target
  | .anyConvertExtern => do
      let (entry, m) ← m.popValOf s (.ref ⟨true, .external⟩)
      let nullable := match entry with
        | .known (.ref r) => r.nullable
        | _ => true
      return m.pushVals [.ref ⟨nullable, .any⟩]
  | .externConvertAny => do
      let (entry, m) ← m.popValOf s (.ref ⟨true, .any⟩)
      let nullable := match entry with
        | .known (.ref r) => r.nullable
        | _ => true
      return m.pushVals [.ref ⟨nullable, .external⟩]
  | instr =>
      match plainType s instr with
      | none => .ok m
      | some types => do
          let (operands, results) ← types
          let m ← m.popVals s operands
          return m.pushVals results

/-- The machine a body of a signature is checked with. -/
def entry (signature : FuncType) (locals : List ValType) : Machine :=
  let init := (List.range locals.length).map fun index =>
    decide (index < signature.params.length) || (locals[index]?.map isDefaultable).getD false
  pushFrame ⟨[], [], init⟩ .func [] signature.results

def validateBody (m : Machine) (body : List Instr) (signature : FuncType)
    (locals : List ValType) : Except Error Unit := do
  let m ← body.foldlM (fun m instr => m.step s signature locals instr) m
  let (frame, m) ← m.popFrame s
  if frame.ctrl ≠ .func ∨ m.frames ≠ [] ∨ m.vals ≠ [] then throw typeMismatch

end Machine

/-- Check every function body of a module. -/
def validateCode (m : Module) (s : Spaces) : Except Error Unit := do
  if m.bodies.length ≠ m.functions.length then
    throw (.invalid "function and code section have inconsistent lengths")
  (m.bodies.zip (s.funcs.drop m.importedFuncs.length)).forM fun (body, signature) => do
    let locals := signature.params ++ body.locals
    checkValueTypes locals m.types.length
    (Machine.entry signature locals).validateBody s body.body signature locals

def validateMemType (memory : MemType) : Except Error Unit :=
  let cap := if memory.memory64 then 2 ^ 48 else 2 ^ 16
  if memory.limits.max.any (· < memory.limits.min) then
    .error (.invalid "size minimum must not be greater than maximum")
  else if cap < memory.limits.min || memory.limits.max.any (cap < ·) then
    .error (.invalid "memory size")
  else .ok ()

def validateModuleLimits (m : Module) : Except Error Unit := do
  m.memories.forM validateMemType
  if m.dataCount.any (· ≠ m.data.length) then
    throw (.invalid "data count and data section have inconsistent lengths")

/-- The index spaces, the limits and the function bodies are well formed. The
checks of tags, table initializers, exports, globals, segments and the start
function are left out: they only refuse more modules. -/
def validate (m : Module) : Except Error Unit := do
  let s ← buildSpaces m
  validateModuleLimits m
  validateCode m s

end Slag.Wasm
