import Slag.Lib.Float64
import Slag.Lib.FlowGraph

/-!
The SSA control-flow graphs of the optimizing tier. Blocks and values are
addressed by number; a block's parameters are its phis, and the arguments of
an edge define them.
-/

namespace Slag.Jit

abbrev ValueId := Nat

abbrev BlockId := Nat

inductive Ty
  | never | undefined | null | bool | int | number | float | string | object | hole | unknown
deriving DecidableEq, Repr

namespace Ty

def isNumeric : Ty → Bool
  | .int | .number => true
  | _ => false

end Ty

inductive Heap
  | slots | elements | globals | members | world
deriving DecidableEq, Repr

def Heap.bit : Heap → UInt8
  | .slots => 1
  | .elements => 2
  | .globals => 4
  | .members => 16
  | .world => 8

structure Effects where
  reads : UInt8
  writes : UInt8
deriving DecidableEq, Repr

namespace Effects

def pure : Effects := ⟨0, 0⟩

def read (heap : Heap) : Effects := ⟨heap.bit, 0⟩

def write (heap : Heap) : Effects := ⟨0, heap.bit⟩

def call : Effects := ⟨0b11111, 0b11111⟩

def union (e other : Effects) : Effects := ⟨e.reads ||| other.reads, e.writes ||| other.writes⟩

def isPure (e : Effects) : Bool := e.reads == 0 && e.writes == 0

/-- A write to the world may change everything an instruction reads. -/
def mayClobberReadsOf (e earlier : Effects) : Bool :=
  e.writes &&& (earlier.reads ||| Heap.world.bit) != 0

end Effects

inductive Imm
  | none
  | int (v : Int)
  | float (v : F64)
  | bool (v : Bool)
  | str (v : String)
  | slot (slot : Nat)
  | arg (index : Nat)
  | atom (atom : Nat)
  | context (depth index : Nat)
  | forOfBind (slot : Nat) (cursor : Nat × Nat)
  | u64 (bits : UInt64)
deriving DecidableEq, Repr

inductive Op
  | const | canon
  | add | sub | mul | div | mod | pow
  | intAdd | intSub | intMul
  | bitAnd | bitOr | bitXor | shl | shr | ushr
  | neg | bitNot | not
  | eq | strictEq | lt | le | gt | ge
  | toNumber | toString | toBoolean | toObject
  | frameLoad | frameStore
  | globalLoad | globalStore | identLoad
  | contextLoad | contextStore | contextInit
  | memberLoad | memberStore | memberCellLoad | memberGuard
  | elementLoad | elementStore
  | newObject | newArray
  | arrayBegin | arrayElement | arrayEnd
  | objectBegin | objectInitName
  | argsBase | argsPush | argsSpread
  | newClosure | functionDecl
  | call | intrinsic
  | stringPush | stringConcat | stringConcatConst | taggedTemplate
  | construct | constructArgs
  | check | guardType | guardCallee | calleeEq
  | tdzCheck | completionReset | completionStore
  | forOfBegin | forOfNextBindLocal | forOfClose
  | forInBegin | forInNext | forOfBindLocal
  | updateValue
deriving DecidableEq, Repr

open Effects in
/-- What an operation reads and writes as long as nothing is known of its operands. -/
def Op.defaultEffects : Op → Effects
  | .const | .canon | .intAdd | .intSub | .intMul | .strictEq | .toBoolean | .not | .check
  | .guardType | .guardCallee | .calleeEq => Effects.pure
  | .tdzCheck | .frameLoad => read .slots
  | .frameStore => write .slots
  | .globalLoad | .identLoad => read .globals
  | .globalStore => write .globals
  | .memberLoad => (read .slots).union (read .elements)
  | .memberStore => ((write .slots).union (write .elements)).union (write .members)
  | .memberCellLoad => (read .slots).union (read .members)
  | .elementLoad => read .elements
  | .elementStore => (write .elements).union (write .members)
  | .completionReset | .completionStore => write .world
  | _ => Effects.call

structure Inst where
  op : Op
  args : List ValueId
  result : Option ValueId
  ty : Ty
  effects : Effects
  imm : Imm
deriving DecidableEq, Repr

def Inst.isGuard (inst : Inst) : Bool :=
  match inst.op with
  | .check | .guardType | .guardCallee => true
  | _ => false

/-- The store of a value to a slot. -/
def Inst.storeOf (inst : Inst) : Option (Nat × ValueId) :=
  match inst.op, inst.imm, inst.args with
  | .frameStore, .slot slot, value :: _ => some (slot, value)
  | _, _, _ => none

inductive Term
  | jump (target : BlockId) (args : List ValueId)
  | branch (cond : ValueId) (thenBlock : BlockId) (thenArgs : List ValueId) (elseBlock : BlockId)
      (elseArgs : List ValueId)
  | ret (value : Option ValueId)
  | throw (value : ValueId)
  | unreachable
deriving DecidableEq, Repr

namespace Term

def successors : Term → List BlockId
  | .jump target _ => [target]
  | .branch _ thenBlock _ elseBlock _ => [thenBlock, elseBlock]
  | .ret _ | .throw _ | .unreachable => []

/-- The edges a terminator leaves by, with the arguments each passes. -/
def edges : Term → List (BlockId × List ValueId)
  | .jump target args => [(target, args)]
  | .branch _ thenBlock thenArgs elseBlock elseArgs => [(thenBlock, thenArgs), (elseBlock, elseArgs)]
  | .ret _ | .throw _ | .unreachable => []

def uses : Term → List ValueId
  | .jump _ args => args
  | .branch cond _ thenArgs _ elseArgs => cond :: (thenArgs ++ elseArgs)
  | .ret (some v) => [v]
  | .ret none => []
  | .throw v => [v]
  | .unreachable => []

def mapUses (h : ValueId → ValueId) : Term → Term
  | .jump target args => .jump target (args.map h)
  | .branch cond thenBlock thenArgs elseBlock elseArgs =>
      .branch (h cond) thenBlock (thenArgs.map h) elseBlock (elseArgs.map h)
  | .ret value => .ret (value.map h)
  | .throw value => .throw (h value)
  | .unreachable => .unreachable

end Term

/-- `term` is missing only while a block is under construction. -/
structure Block where
  params : List ValueId
  insts : List Inst
  term : Option Term
deriving DecidableEq, Repr

def Block.empty : Block := ⟨[], [], none⟩

/-- A graph has its entry block, number 0, from the start. -/
structure Function where
  blocks : List Block
  valueTypes : List Ty
  entry_lt : 0 < blocks.length

namespace Function

def entry (_ : Function) : BlockId := 0

def blockCount (f : Function) : Nat := f.blocks.length

def valueCount (f : Function) : Nat := f.valueTypes.length

def instCount (f : Function) : Nat := (f.blocks.map fun block => block.insts.length).sum

def block (f : Function) (b : BlockId) : Block := f.blocks[b]?.getD Block.empty

def successors (f : Function) (b : BlockId) : List BlockId :=
  match (f.block b).term with
  | some term => term.successors
  | none => []

def setValueType (f : Function) (v : ValueId) (ty : Ty) : Function :=
  { f with valueTypes := f.valueTypes.set v ty }

def valueType (f : Function) (v : ValueId) : Ty := f.valueTypes[v]?.getD .unknown

def mapBlocks (f : Function) (h : Block → Block) : Function where
  blocks := f.blocks.map h
  valueTypes := f.valueTypes
  entry_lt := by rw [List.length_map]; exact f.entry_lt

/-- Control can pass from one block to the other. -/
abbrev Edge (f : Function) : BlockId → BlockId → Prop :=
  FlowGraph.Edge f.successors f.blockCount

end Function

end Slag.Jit
