import Slag.Wasm.World

/-!
Steps of the interpreter and its runs, with the operands below each open
construct recorded on the side.
-/

namespace Slag.Wasm

variable {σ : Type} (w : World) (fx : Effects σ)

def moduleOf (frame : Frame) : Module :=
  (w.instances[frame.inst]?.map Instance.module).getD {}

def bodyOf (frame : Frame) : List Instr :=
  ((moduleOf w frame).bodies[frame.bodyIndex]?.map FuncBody.body).getD []

def mapFor (frame : Frame) : BodyMap :=
  precompute (bodyOf w frame)

def BodyMap.endOf (map : BodyMap) (opened : Nat) : Nat :=
  map.ends[opened]?.getD usizeMax

/-- The parameters and results of a block type. -/
def blockCounts (m : Module) : BlockType → Except ExecFail (Nat × Nat)
  | .empty => .ok (0, 0)
  | .val _ => .ok (0, 1)
  | .type index =>
      match m.funcAt index with
      | some ty => .ok (ty.params.length, ty.results.length)
      | none => .error (.trap .unknownFunction)

def defaultValue : ValType → Value
  | .i32 => .i32 0
  | .i64 => .i64 0
  | .f32 => .f32 0
  | .f64 => .f64 0
  | .v128 => .v128 0
  | .ref _ => .ref .null

namespace Engine

/-- Pop the top frame and hand its results to its caller, or return them. -/
def finish (e : Engine σ) : Except ExecFail (Ctl σ) :=
  match e.frames with
  | [] => .error (.trap .unknownFunction)
  | frame :: callers =>
      if callers.isEmpty then .ok (.finished (e.stack.take frame.results).reverse)
      else .ok (.settled
        { e with stack := moveTopTo frame.results frame.base e.stack, frames := callers })

/-! ## Structured control -/

def pushLabel (e : Engine σ) (frame : Frame) (callers : List Frame) (stack : List Value)
    (label : Label) (pc : Nat) : Engine σ :=
  { e with
    stack := stack
    frames := { frame with pc := pc, labels := label :: frame.labels } :: callers }

def jump (e : Engine σ) (frame : Frame) (callers : List Frame) (stack : List Value)
    (labels : List Label) (pc : Nat) : Engine σ :=
  { e with stack := stack, frames := { frame with pc := pc, labels := labels } :: callers }

/-- Enter a `block`, `loop`, `if` or `try_table`. The label's height is taken
before the condition of an `if` is popped. -/
def enterStructured (e : Engine σ) (frame : Frame) (callers : List Frame) (instr : Instr)
    (bt : BlockType) : Except ExecFail (Engine σ) := do
  let (params, arity) ← blockCounts (moduleOf w frame) bt
  let height := e.stack.length - params
  match instr with
  | .loop _ => return e.pushLabel frame callers e.stack ⟨params, height, true, frame.pc⟩ (frame.pc + 1)
  | .if_ _ => do
      let (cond, stack) ← popI32 e.stack
      let map := mapFor w frame
      let label : Label := ⟨arity, height, false, frame.pc⟩
      if cond ≠ 0 then return e.pushLabel frame callers stack label (frame.pc + 1)
      else
        match map.elses[frame.pc]?.join with
        | some elsePc => return e.pushLabel frame callers stack label (elsePc + 1)
        | none => return e.jump frame callers stack frame.labels (map.endOf frame.pc + 1)
  | _ => return e.pushLabel frame callers e.stack ⟨arity, height, false, frame.pc⟩ (frame.pc + 1)

/-- The end of an `if`'s first arm. -/
def exitIf (e : Engine σ) (frame : Frame) (callers : List Frame) : Except ExecFail (Engine σ) :=
  match frame.labels with
  | [] => .error (.trap .unreachable)
  | label :: labels =>
      .ok (e.jump frame callers e.stack labels ((mapFor w frame).endOf label.opened + 1))

/-- Branch to a label of the top frame; to the function label means to return. -/
def branchTo (e : Engine σ) (frame : Frame) (callers : List Frame) (stack : List Value)
    (l : Nat) : Except ExecFail (Ctl σ) :=
  if fx.terminationRequested e.store.state then .error .terminated
  else
    match frame.labels[l]? with
    | none => .error (.trap .unknownFunction)
    | some target =>
        let stack := moveTopTo target.arity target.height stack
        if l + 1 = frame.labels.length then { e with stack := stack }.finish
        else if target.isLoop then
          .ok (.settled (e.jump frame callers stack (frame.labels.drop l) (target.opened + 1)))
        else
          .ok (.settled (e.jump frame callers stack (frame.labels.drop (l + 1))
            ((mapFor w frame).endOf target.opened + 1)))

/-- For a branch instruction: the label, if it is taken, and the operands there. -/
def branchOf (frame : Frame) (state : σ) (stack : List Value) :
    Instr → Option (Except ExecFail (Option Nat × List Value))
  | .br l => some (.ok (some l, stack))
  | .brIf l => some do
      let (cond, stack) ← popI32 stack
      return (if cond ≠ 0 then some l else none, stack)
  | .brTable targets default => some do
      let (index, stack) ← popI32 stack
      let target := if 0 ≤ index.toInt then (targets[index.toNat]?).getD default else default
      return (some target, stack)
  | .brOnNull l => some do
      let (v, rest) ← pop stack
      return if v = .ref .null then (some l, rest) else (none, stack)
  | .brOnNonNull l => some do
      let (v, rest) ← pop stack
      return if v = .ref .null then (none, rest) else (some l, stack)
  | .brOnCast l _ target => some do
      let (v, _) ← pop stack
      match v with
      | .ref r => do
          let found ← fx.refMatches state frame.inst r target
          return (if found then some l else none, stack)
      | _ => throw (.unsupported "br_on_cast of non-reference")
  | .brOnCastFail l _ target => some do
      let (v, _) ← pop stack
      match v with
      | .ref r => do
          let found ← fx.refMatches state frame.inst r target
          return (if found then none else some l, stack)
      | _ => throw (.unsupported "br_on_cast_fail of non-reference")
  | _ => none

/-! ## Calls -/

/-- The frame of a defined function, its parameters popped from the stack. -/
def frameOf (inst defined base : Nat) (args : List Value) : Except ExecFail Frame :=
  match w.instances[inst]? with
  | none => .error (.trap .unknownFunction)
  | some owner =>
      match w.targetType (.owned inst defined), owner.module.bodies[defined]? with
      | some ty, some body =>
          .ok {
            inst := inst
            pc := 0
            locals := args.reverse ++ body.locals.map defaultValue
            base := base
            results := ty.results.length
            bodyIndex := defined
            labels := [⟨ty.results.length, base, false, 0⟩] }
      | _, _ => .error (.trap .unknownFunction)

def callTarget (e : Engine σ) (frame : Frame) (callers : List Frame) (stack : List Value)
    (target : FuncTarget) : Except ExecFail (Ctl σ) := do
  let advanced := { frame with pc := frame.pc + 1 } :: callers
  match w.targetType target with
  | none => throw (.trap .unknownFunction)
  | some ty => do
      match target with
      | .host id =>
          match w.hostFuncs[id]?.bind HostFunc.token with
          | some token => do
              let (args, stack) ← popMany ty.params.length stack
              return .host token args.reverse { e with stack := stack, frames := advanced }
          | none => do
              if ty.results ≠ [] then throw (.unsupported "host function results")
              let (_, stack) ← popMany ty.params.length stack
              return .settled { e with stack := stack, frames := advanced }
      | .owned inst defined => do
          let (args, stack) ← popMany ty.params.length stack
          let callee ← frameOf w inst defined stack.length args
          return .settled { e with stack := stack, frames := callee :: advanced }

/-- Replace the top frame by the callee's at the same base. -/
def tailTarget (e : Engine σ) (frame : Frame) (callers : List Frame) (stack : List Value)
    (target : FuncTarget) : Except ExecFail (Ctl σ) := do
  match w.targetType target with
  | none => throw (.trap .unknownFunction)
  | some ty => do
      match target with
      | .host id =>
          match w.hostFuncs[id]?.bind HostFunc.token with
          | some token => do
              let (args, stack) ← popMany ty.params.length stack
              return .host token args.reverse
                { e with stack := truncate frame.base stack, frames := callers }
          | none => do
              if ty.results ≠ [] then throw (.unsupported "host function results")
              let (_, stack) ← popMany ty.params.length stack
              { e with stack := stack, frames := frame :: callers }.finish
      | .owned inst defined => do
          let (args, stack) ← popMany ty.params.length stack
          let callee ← frameOf w inst defined frame.base args
          return .settled { e with stack := stack, frames := callee :: callers }

def depthChecked (e : Engine σ) (frame : Frame) : Except ExecFail Unit :=
  if ((w.instances[frame.inst]?.map Instance.depthLimit).getD 0) < e.frames.length + 1 then
    .error (.trap .callStackExhausted)
  else .ok ()

def funcOf (inst index : Nat) : Except ExecFail FuncTarget :=
  match w.instances[inst]?.bind fun i => i.funcs[index]? with
  | some target => .ok target
  | none => .error (.trap .unknownFunction)

/-- The target of an indirect call, if its type is the expected one. -/
def checkedTarget (frame : Frame) (typeIndex : Nat) (addr : FuncAddr) :
    Except ExecFail FuncTarget := do
  let target ← funcOf w addr.inst addr.index
  match w.funcTypeMatches (moduleOf w frame) typeIndex target with
  | some true => return target
  | some false => throw (.trap .indirectCallTypeMismatch)
  | none => throw .endless

def popFuncRef (stack : List Value) : Except ExecFail (FuncAddr × List Value) := do
  let (v, stack) ← pop stack
  match v with
  | .ref (.func addr) => return (addr, stack)
  | _ => throw (.trap .nullFunctionReference)

/-! ## Exceptions -/

/-- The label and the payload of a clause that matches an exception. -/
def clauseMatch (frame : Frame) (tag : Nat) (args : List Value) (exn : Nat) :
    Catch → Option (Nat × List Value)
  | .tag clause label =>
      if (w.instances[frame.inst]?.bind fun i => i.tags[clause]?) = some tag then some (label, args)
      else none
  | .tagRef clause label =>
      if (w.instances[frame.inst]?.bind fun i => i.tags[clause]?) = some tag then
        some (label, args ++ [.ref (.exn exn)])
      else none
  | .all label => some (label, [])
  | .allRef label => some (label, [.ref (.exn exn)])

/-- The innermost label whose `try_table` catches, with its clause's label and
payload; the enclosing labels are returned too. -/
def findCatch (frame : Frame) (tag : Nat) (args : List Value) (exn : Nat) :
    List Label → Option (List Label × Nat × List Value)
  | [] => none
  | label :: labels =>
      match (bodyOf w frame)[label.opened]? with
      | some (.tryTable _ catches) =>
          match catches.findSome? (clauseMatch w frame tag args exn) with
          | some (target, payload) => some (labels, target, payload)
          | none => findCatch frame tag args exn labels
      | _ => findCatch frame tag args exn labels

/-- Deliver a payload to a label of the enclosing ones. -/
def catchBranch (e : Engine σ) (frame : Frame) (callers : List Frame) (stack : List Value)
    (labels : List Label) (l : Nat) (payload : List Value) : Progress σ :=
  match labels[l]? with
  | none => .failed (.trap .unknownFunction)
  | some target =>
      let stack := payload.reverse ++ truncate target.height stack
      if l + 1 = labels.length then
        if callers.isEmpty then .finished stack.reverse
        else .running { e with stack := stack, frames := callers }
      else if target.isLoop then
        .running (e.jump frame callers stack (labels.drop l) (target.opened + 1))
      else
        .running (e.jump frame callers stack (labels.drop (l + 1))
          ((mapFor w frame).endOf target.opened + 1))

/-- Deliver an exception to the nearest matching clause; frames without one are
dropped with their operands. -/
def unwind (e : Engine σ) (tag : Nat) (args : List Value) (exn : Nat) :
    List Frame → List Value → Progress σ
  | [], _ => .uncaught exn
  | frame :: callers, stack =>
      match findCatch w frame tag args exn frame.labels with
      | some (labels, l, payload) => e.catchBranch w frame callers stack labels l payload
      | none =>
          if callers.isEmpty then .uncaught exn
          else unwind e tag args exn callers (truncate frame.base stack)

def raise (e : Engine σ) (exn : Nat) : Progress σ :=
  match e.store.exceptions[exn]? with
  | none => .failed (.trap .unknownFunction)
  | some ⟨tag, args⟩ => e.unwind w tag args exn e.frames e.stack

/-! ## Steps -/

def stepPlain (e : Engine σ) (frame : Frame) (instr : Instr) (operands results : Nat) :
    Except ExecFail (Ctl σ) := do
  let (args, stack) ← popMany operands e.stack
  let (state, v) ← compute fx e.store.state frame.inst instr args
  return .next { e with
    stack := if results = 0 then stack else v :: stack
    store := { e.store with state := state } }

def stepControl (e : Engine σ) (frame : Frame) (callers : List Frame) :
    Instr → Except ExecFail (Ctl σ)
  | .unreachable => .error (.trap .unreachable)
  | .nop => .ok (.next e)
  | .else_ => do
      return .settled (← e.exitIf w frame callers)
  | .end_ => .ok (.next { e with frames := { frame with labels := frame.labels.tail } :: callers })
  | .return_ => e.finish
  | .call index => do
      e.depthChecked w frame
      e.callTarget w frame callers e.stack (← funcOf w frame.inst index)
  | .returnCall index => do
      e.tailTarget w frame callers e.stack (← funcOf w frame.inst index)
  | .callIndirect typeIndex tableIndex => do
      let (v, stack) ← pop e.stack
      e.depthChecked w frame
      let addr ← fx.element e.store.state frame.inst tableIndex v
      e.callTarget w frame callers stack (← checkedTarget w frame typeIndex addr)
  | .returnCallIndirect typeIndex tableIndex => do
      let (v, stack) ← pop e.stack
      let addr ← fx.element e.store.state frame.inst tableIndex v
      e.tailTarget w frame callers stack (← checkedTarget w frame typeIndex addr)
  | .callRef typeIndex => do
      let (addr, stack) ← popFuncRef e.stack
      e.depthChecked w frame
      e.callTarget w frame callers stack (← checkedTarget w frame typeIndex addr)
  | .returnCallRef typeIndex => do
      let (addr, stack) ← popFuncRef e.stack
      e.tailTarget w frame callers stack (← checkedTarget w frame typeIndex addr)
  | .localGet index =>
      match frame.locals[index]? with
      | some v => .ok (.next { e with stack := v :: e.stack })
      | none => .error (.trap .unreachable)
  | .localSet index => do
      let (v, stack) ← pop e.stack
      return .next { e with
        stack := stack
        frames := { frame with locals := frame.locals.set index v } :: callers }
  | .localTee index => do
      let (v, stack) ← pop e.stack
      return .next { e with
        stack := v :: stack
        frames := { frame with locals := frame.locals.set index v } :: callers }
  | .throw index =>
      match w.instances[frame.inst]?.bind fun i => i.tags[index]? with
      | none => .error (.trap .unknownFunction)
      | some cell =>
          let count := (w.tags[cell]?.map fun tag => tag.ty.params.length).getD 0
          let args := (e.stack.take count).reverse
          .ok (.raised e.store.exceptions.length { e with
            stack := e.stack.drop count
            store := { e.store with exceptions := e.store.exceptions ++ [⟨cell, args⟩] } })
  | .throwRef => do
      let (v, stack) ← pop e.stack
      match v with
      | .ref .null => throw (.trap .nullExceptionReference)
      | .ref (.exn exn) => return .raised exn { e with stack := stack }
      | _ => throw (.unsupported "throw_ref on non-exception ref")
  | _ => .error (.unsupported "instruction")

/-- Execute one instruction of the top frame. -/
def step (e : Engine σ) (frame : Frame) (callers : List Frame) : Except ExecFail (Ctl σ) :=
  match (bodyOf w frame)[frame.pc]? with
  | none => e.finish
  | some instr =>
      match instr.opens? with
      | some bt => do
          return .settled (← e.enterStructured w frame callers instr bt)
      | none =>
          match branchOf fx frame e.store.state e.stack instr with
          | some decision => do
              match ← decision with
              | (some l, stack) => e.branchTo w fx frame callers stack l
              | (none, stack) => return .next { e with stack := stack }
          | none =>
              match plainArity (moduleOf w frame) instr with
              | some (operands, results) => e.stepPlain fx frame instr operands results
              | none => e.stepControl w fx frame callers instr

/-- Advance the top frame's pc by one. -/
def advance (e : Engine σ) : Engine σ :=
  match e.frames with
  | [] => e
  | frame :: callers => { e with frames := { frame with pc := frame.pc + 1 } :: callers }

/-- One iteration of the run loop. -/
def tick (e : Engine σ) : Progress σ :=
  match e.frames with
  | [] => .finished e.stack.reverse
  | frame :: callers =>
      match e.step w fx frame callers with
      | .error fail => .failed fail
      | .ok (.next e) => .running e.advance
      | .ok (.settled e) => .running e
      | .ok (.finished results) => .finished results
      | .ok (.host token args e) => .host token args e
      | .ok (.raised exn e) => e.raise w exn

/-- The engine a call of a defined function with some arguments starts with. -/
def start (inst defined : Nat) (args : List Value) (store : Store σ) :
    Except ExecFail (Engine σ) := do
  match w.targetType (.owned inst defined) with
  | none => throw (.trap .unknownFunction)
  | some ty =>
      if args.length ≠ ty.params.length then throw (.unsupported "function arity")
      return ⟨[], [← frameOf w inst defined 0 args.reverse], store⟩

end Engine

end Slag.Wasm
