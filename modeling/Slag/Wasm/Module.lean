import Mathlib.Algebra.GroupWithZero.Nat
import Mathlib.Data.List.Basic

/-!
Decoded WebAssembly modules: types, instructions and the parts of a module that
validation and execution read.
-/

namespace Slag.Wasm

inductive HeapType where
  | func | external | exn | noExternal | noFunc | noExn | none | any | eq | i31 | struct | array
  | type (index : Nat)
  deriving DecidableEq, Repr

structure RefType where
  nullable : Bool
  heap : HeapType
  deriving DecidableEq, Repr

inductive ValType where
  | i32 | i64 | f32 | f64 | v128
  | ref (ref : RefType)
  deriving DecidableEq, Repr

structure FuncType where
  params : List ValType
  results : List ValType
  deriving DecidableEq, Repr

inductive StorageType where
  | i8 | i16 | i32 | i64 | f32 | f64 | v128
  | ref (ref : RefType)
  deriving DecidableEq, Repr

/-- The value type of a field; packed integers are read as i32. -/
def StorageType.val : StorageType → ValType
  | .i8 | .i16 | .i32 => .i32
  | .i64 => .i64
  | .f32 => .f32
  | .f64 => .f64
  | .v128 => .v128
  | .ref r => .ref r

structure FieldType where
  ty : StorageType
  mutable : Bool
  deriving DecidableEq, Repr

inductive CompositeType where
  | func (ty : FuncType)
  | struct (fields : List FieldType)
  | array (field : FieldType)
  deriving DecidableEq, Repr

structure SubType where
  isFinal : Bool
  supertypes : List Nat
  composite : CompositeType
  deriving DecidableEq, Repr

structure Limits where
  min : Nat
  max : Option Nat
  shared : Bool
  deriving DecidableEq, Repr

structure TableType where
  element : RefType
  limits : Limits
  table64 : Bool
  deriving DecidableEq, Repr

structure MemType where
  limits : Limits
  memory64 : Bool
  deriving DecidableEq, Repr

structure GlobalType where
  value : ValType
  mutable : Bool
  deriving DecidableEq, Repr

inductive BlockType where
  | empty
  | val (ty : ValType)
  | type (index : Nat)
  deriving DecidableEq, Repr

inductive LoadOp where
  | i32 | i64 | f32 | f64 | i32Load8S | i32Load8U | i32Load16S | i32Load16U | i64Load8S
  | i64Load8U | i64Load16S | i64Load16U | i64Load32S | i64Load32U
  deriving DecidableEq, Repr

inductive StoreOp where
  | i32 | i64 | f32 | f64 | i32Store8 | i32Store16 | i64Store8 | i64Store16 | i64Store32
  deriving DecidableEq, Repr

inductive NumOp where
  | i32Eqz | i32Eq | i32Ne | i32LtS | i32LtU | i32GtS | i32GtU | i32LeS | i32LeU | i32GeS
  | i32GeU | i64Eqz | i64Eq | i64Ne | i64LtS | i64LtU | i64GtS | i64GtU | i64LeS | i64LeU
  | i64GeS | i64GeU | f32Eq | f32Ne | f32Lt | f32Gt | f32Le | f32Ge | f64Eq | f64Ne | f64Lt
  | f64Gt | f64Le | f64Ge | i32Clz | i32Ctz | i32Popcnt | i32Add | i32Sub | i32Mul | i32DivS
  | i32DivU | i32RemS | i32RemU | i32And | i32Or | i32Xor | i32Shl | i32ShrS | i32ShrU | i32Rotl
  | i32Rotr | i64Clz | i64Ctz | i64Popcnt | i64Add | i64Sub | i64Mul | i64DivS | i64DivU
  | i64RemS | i64RemU | i64And | i64Or | i64Xor | i64Shl | i64ShrS | i64ShrU | i64Rotl | i64Rotr
  | f32Abs | f32Neg | f32Ceil | f32Floor | f32Trunc | f32Nearest | f32Sqrt | f32Add | f32Sub
  | f32Mul | f32Div | f32Min | f32Max | f32Copysign | f64Abs | f64Neg | f64Ceil | f64Floor
  | f64Trunc | f64Nearest | f64Sqrt | f64Add | f64Sub | f64Mul | f64Div | f64Min | f64Max
  | f64Copysign | i32WrapI64 | i32TruncF32S | i32TruncF32U | i32TruncF64S | i32TruncF64U
  | i64ExtendI32S | i64ExtendI32U | i64TruncF32S | i64TruncF32U | i64TruncF64S | i64TruncF64U
  | f32ConvertI32S | f32ConvertI32U | f32ConvertI64S | f32ConvertI64U | f32DemoteF64
  | f64ConvertI32S | f64ConvertI32U | f64ConvertI64S | f64ConvertI64U | f64PromoteF32
  | i32ReinterpretF32 | i64ReinterpretF64 | f32ReinterpretI32 | f64ReinterpretI64 | i32Extend8S
  | i32Extend16S | i64Extend8S | i64Extend16S | i64Extend32S | i32TruncSatF32S | i32TruncSatF32U
  | i32TruncSatF64S | i32TruncSatF64U | i64TruncSatF32S | i64TruncSatF32U | i64TruncSatF64S
  | i64TruncSatF64U
  deriving DecidableEq, Repr

inductive VecLoadOp where
  | v128 | i8x8S | i8x8U | i16x4S | i16x4U | i32x2S | i32x2U | i8Splat | i16Splat | i32Splat
  | i64Splat | i32Zero | i64Zero
  deriving DecidableEq, Repr

inductive Catch where
  | tag (tag label : Nat)
  | tagRef (tag label : Nat)
  | all (label : Nat)
  | allRef (label : Nat)
  deriving DecidableEq, Repr

inductive Instr where
  | unreachable
  | nop
  | block (blocktype : BlockType)
  | loop (blocktype : BlockType)
  | if_ (blocktype : BlockType)
  | tryTable (blocktype : BlockType) (catches : List Catch)
  | else_
  | end_
  | br (label : Nat)
  | brIf (label : Nat)
  | brTable (targets : List Nat) (default : Nat)
  | return_
  | call (index : Nat)
  | returnCall (index : Nat)
  | callIndirect (typeIndex tableIndex : Nat)
  | returnCallIndirect (typeIndex tableIndex : Nat)
  | callRef (typeIndex : Nat)
  | returnCallRef (typeIndex : Nat)
  | drop
  | select
  | selectTyped (types : List ValType)
  | localGet (index : Nat)
  | localSet (index : Nat)
  | localTee (index : Nat)
  | globalGet (index : Nat)
  | globalSet (index : Nat)
  | tableGet (table : Nat)
  | tableSet (table : Nat)
  | load (memory : Nat) (op : LoadOp) (align offset : Nat)
  | store (memory : Nat) (op : StoreOp) (align offset : Nat)
  | memorySize (memory : Nat)
  | memoryGrow (memory : Nat)
  | i32Const (v : BitVec 32)
  | i64Const (v : BitVec 64)
  | f32Const (bits : BitVec 32)
  | f64Const (bits : BitVec 64)
  | num (op : NumOp)
  | refNull (heap : HeapType)
  | refIsNull
  | refFunc (index : Nat)
  | refEq
  | refAsNonNull
  | brOnNull (label : Nat)
  | brOnNonNull (label : Nat)
  | throw (tag : Nat)
  | throwRef
  | v128Const (bits : BitVec 128)
  | vecLoad (memory : Nat) (op : VecLoadOp) (align offset : Nat)
  | vecStore (memory align offset : Nat)
  | vecLaneLoad (memory size align offset lane : Nat)
  | vecLaneStore (memory size align offset lane : Nat)
  | vecShuffle (lanes : List Nat)
  | vec (sub : Nat)
  | vecLane (op lane : Nat)
  | memoryInit (dataIndex memory : Nat)
  | dataDrop (dataIndex : Nat)
  | memoryCopy (dst src : Nat)
  | memoryFill (memory : Nat)
  | tableInit (elementIndex table : Nat)
  | elemDrop (elementIndex : Nat)
  | tableCopy (dst src : Nat)
  | tableGrow (table : Nat)
  | tableSize (table : Nat)
  | tableFill (table : Nat)
  | structNew (ty : Nat)
  | structNewDefault (ty : Nat)
  | structGet (ty field : Nat)
  | structGetS (ty field : Nat)
  | structGetU (ty field : Nat)
  | structSet (ty field : Nat)
  | arrayNew (ty : Nat)
  | arrayNewDefault (ty : Nat)
  | arrayNewFixed (ty n : Nat)
  | arrayNewData (ty data : Nat)
  | arrayNewElem (ty elem : Nat)
  | arrayGet (ty : Nat)
  | arrayGetS (ty : Nat)
  | arrayGetU (ty : Nat)
  | arraySet (ty : Nat)
  | arrayLen
  | arrayFill (ty : Nat)
  | arrayCopy (dst src : Nat)
  | arrayInitData (ty data : Nat)
  | arrayInitElem (ty elem : Nat)
  | refTest (nullable : Bool) (heap : HeapType)
  | refCast (nullable : Bool) (heap : HeapType)
  | brOnCast (label : Nat) (source target : RefType)
  | brOnCastFail (label : Nat) (source target : RefType)
  | anyConvertExtern
  | externConvertAny
  | refI31
  | i31GetS
  | i31GetU
  deriving Repr

/-- The block type of an instruction that opens a structured construct. -/
def Instr.opens? : Instr → Option BlockType
  | .block bt | .loop bt | .if_ bt | .tryTable bt _ => some bt
  | _ => none

inductive ImportDesc where
  | func (typeIndex : Nat)
  | table (ty : TableType)
  | memory (ty : MemType)
  | global (ty : GlobalType)
  | tag (typeIndex : Nat)
  deriving DecidableEq, Repr

structure FuncBody where
  locals : List ValType
  body : List Instr
  deriving Repr

structure TableDecl where
  ty : TableType
  init : Option (List Instr)
  deriving Repr

structure GlobalDecl where
  ty : GlobalType
  init : List Instr
  deriving Repr

inductive ElementMode where
  | active (table : Nat) (offset : List Instr)
  | passive
  | declarative
  deriving Repr

structure ElementSegment where
  ty : RefType
  init : List (List Instr)
  mode : ElementMode
  deriving Repr

inductive DataMode where
  | active (memory : Nat) (offset : List Instr)
  | passive
  deriving Repr

structure DataSegment where
  bytes : List UInt8
  mode : DataMode
  deriving Repr

/-- A decoded module, without the names of its imports and exports. `declared`
holds the functions that an initializer or an export names. -/
structure Module where
  types : List SubType := []
  recGroups : List Nat := []
  imports : List ImportDesc := []
  functions : List Nat := []
  tables : List TableDecl := []
  memories : List MemType := []
  globals : List GlobalDecl := []
  tags : List Nat := []
  elements : List ElementSegment := []
  data : List DataSegment := []
  dataCount : Option Nat := none
  start : Option Nat := none
  declared : List Nat := []
  bodies : List FuncBody := []
  deriving Repr

namespace Module

def funcAt (m : Module) (index : Nat) : Option FuncType :=
  match m.types[index]? with
  | some ⟨_, _, .func ty⟩ => some ty
  | _ => none

/-- The type indices of the imported functions. -/
def importedFuncs (m : Module) : List Nat :=
  m.imports.filterMap fun
    | .func typeIndex => some typeIndex
    | _ => none

def importedTags (m : Module) : List Nat :=
  m.imports.filterMap fun
    | .tag typeIndex => some typeIndex
    | _ => none

end Module

end Slag.Wasm
