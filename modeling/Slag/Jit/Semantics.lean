import Mathlib.Logic.Function.Basic
import Slag.Jit.Ir

/-!
Runs of a graph. A run goes from block to block; its trace has an entry for
every instruction it executes, with the values it takes and the frame it finds.
What the operations other than frame accesses do is left to a `Runtime`.
-/

namespace Slag.Jit

/-- How an operation ends: with a value and what it writes to the slots it
binds, or by leaving the body (an exception, or a guard that fails). -/
inductive Outcome (ν ω : Type) where
  | next (value : ν) (binds : List ν) (world : ω)
  | stop (world : ω)

/-- The operations over values `ν` and a world `ω`, and the frame slots each
reads and binds besides its arguments. -/
structure Runtime (ν ω : Type) where
  reads : Op → Imm → List Nat
  binds : Op → Imm → List Nat
  exec : Op → Ty → Imm → List ν → ω → Outcome ν ω
  truthy : ν → Bool

structure Machine (ν ω : Type) where
  env : ValueId → ν
  frame : Nat → ν
  world : ω

/-- An instruction as it is executed. -/
structure Entry (ν : Type) where
  op : Op
  ty : Ty
  imm : Imm
  args : List ν
  frame : Nat → ν

variable {ν ω : Type}

def Inst.isAccess (inst : Inst) : Bool :=
  match inst.op, inst.imm with
  | .frameLoad, .slot _ | .frameStore, .slot _ => true
  | _, _ => false

namespace Runtime

variable (R : Runtime ν ω)

/-- The slots an instruction reads besides its arguments. -/
def slotsRead (inst : Inst) : List Nat :=
  match inst.op, inst.imm with
  | .frameLoad, .slot slot | .tdzCheck, .slot slot => [slot]
  | .frameStore, .slot _ => []
  | op, imm => R.reads op imm

/-- The slots an instruction writes. -/
def slotsBound (inst : Inst) : List Nat :=
  match inst.op, inst.imm with
  | .frameLoad, .slot _ => []
  | .frameStore, .slot slot => [slot]
  | op, imm => R.binds op imm

end Runtime

namespace Machine

def assign (s : Machine ν ω) (vs : List ValueId) (values : List ν) : Machine ν ω :=
  { s with env := (vs.zip values).foldl (fun env e => Function.update env e.1 e.2) s.env }

def bind (s : Machine ν ω) (slots : List Nat) (values : List ν) : Machine ν ω :=
  { s with frame := (slots.zip values).foldl (fun frame e => Function.update frame e.1 e.2) s.frame }

def args (R : Runtime ν ω) (s : Machine ν ω) (inst : Inst) : List ν :=
  inst.args.map s.env ++ (R.slotsRead inst).map s.frame

def entry (R : Runtime ν ω) (s : Machine ν ω) (inst : Inst) : Entry ν :=
  ⟨inst.op, inst.ty, inst.imm, s.args R inst, s.frame⟩

/-- One instruction; false when it leaves the body. A store yields no value. -/
def exec (R : Runtime ν ω) (s : Machine ν ω) (inst : Inst) : Bool × Machine ν ω :=
  match inst.op, inst.imm with
  | .frameLoad, .slot slot => (true, s.assign inst.result.toList [s.frame slot])
  | .frameStore, .slot slot => (true, s.bind [slot] (inst.args.map s.env))
  | op, imm =>
      match R.exec op inst.ty imm (s.args R inst) s.world with
      | .next value binds world =>
          (true, { (s.bind (R.binds op imm) binds).assign inst.result.toList [value] with
            world := world })
      | .stop world => (false, { s with world := world })

/-- The instructions of a block, up to one that leaves the body. -/
def execAll (R : Runtime ν ω) : Machine ν ω → List Inst → List (Entry ν) × Bool × Machine ν ω
  | s, [] => ([], true, s)
  | s, inst :: insts =>
      let next := s.exec R inst
      let rest := if next.1 then execAll R next.2 insts else ([], next)
      (s.entry R inst :: rest.1, rest.2)

end Machine

/-- How far a run has come. -/
inductive Ending (ν ω : Type) where
  | running
  | left (world : ω)
  | returned (value : Option ν) (world : ω)
  | threw (value : ν) (world : ω)
  | stuck

namespace Function

variable (R : Runtime ν ω) (f : Function)

def enter (s : Machine ν ω) (target : BlockId) (args : List ValueId) : Machine ν ω :=
  s.assign (f.block target).params (args.map s.env)

/-- A run of so many blocks from the start of one. -/
def runFrom : Nat → BlockId → Machine ν ω → List (BlockId × Entry ν) × Ending ν ω
  | 0, _, _ => ([], .running)
  | fuel + 1, b, s =>
      let r := s.execAll R (f.block b).insts
      let s := r.2.2
      let rest :=
        if r.2.1 then
          match (f.block b).term with
          | some (.jump target args) => runFrom fuel target (f.enter s target args)
          | some (.branch cond thenBlock thenArgs elseBlock elseArgs) =>
              if R.truthy (s.env cond) then runFrom fuel thenBlock (f.enter s thenBlock thenArgs)
              else runFrom fuel elseBlock (f.enter s elseBlock elseArgs)
          | some (.ret value) => ([], .returned (value.map s.env) s.world)
          | some (.throw value) => ([], .threw (s.env value) s.world)
          | some .unreachable | none => ([], .stuck)
        else ([], .left s.world)
      (r.1.map (b, ·) ++ rest.1, rest.2)

def runBlocks (fuel : Nat) (s : Machine ν ω) : List (BlockId × Entry ν) × Ending ν ω :=
  f.runFrom R fuel f.entry s

end Function

end Slag.Jit
