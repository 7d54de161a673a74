import Slag.Wasm.TypeSection

/-!
The index spaces of a module and the types of the instructions that
only replace operands by results.
-/

namespace Slag.Wasm

/-! ## Index spaces -/

/-- The module and its index spaces, imports first. -/
structure Spaces where
  module : Module
  funcs : List FuncType
  funcTypes : List Nat
  globals : List GlobalType
  tables : List TableType
  memories : List MemType
  tags : List FuncType
  declared : List Bool

def typeAt (m : Module) (index : Nat) : Except Error FuncType :=
  match m.types[index]? with
  | none => .error (.invalid "unknown type")
  | some st =>
      match st.composite with
      | .func ty => .ok ty
      | _ => .error typeMismatch

/-- Check the type section and resolve the index spaces. The types of tables,
memories, globals and tags are taken as they are; the code checks them here too. -/
def buildSpaces (m : Module) : Except Error Spaces := do
  checkTypeSection (comparisonDepth m m) m
  let funcTypes := m.importedFuncs ++ m.functions
  let funcs ← funcTypes.mapM (typeAt m)
  let tags ← (m.importedTags ++ m.tags).mapM (typeAt m)
  let tables := m.imports.filterMap fun
    | .table ty => some ty
    | _ => none
  let memories := m.imports.filterMap fun
    | .memory ty => some ty
    | _ => none
  let globals := m.imports.filterMap fun
    | .global ty => some ty
    | _ => none
  return {
    module := m
    funcs := funcs
    funcTypes := funcTypes
    globals := globals ++ m.globals.map GlobalDecl.ty
    tables := tables ++ m.tables.map TableDecl.ty
    memories := memories ++ m.memories
    tags := tags
    declared := (List.range funcs.length).map fun index => decide (index ∈ m.declared) }

namespace Spaces

variable (s : Spaces)

def lookup {α : Type} (entries : List α) (index : Nat) (message : String) : Except Error α :=
  match entries[index]? with
  | some entry => .ok entry
  | none => .error (.invalid message)

def funcAt (index : Nat) : Except Error FuncType :=
  lookup s.funcs index "unknown function"

def tagAt (index : Nat) : Except Error FuncType :=
  lookup s.tags index "unknown tag"

def globalAt (index : Nat) : Except Error GlobalType :=
  lookup s.globals index "unknown global"

def tableAt (index : Nat) : Except Error TableType :=
  lookup s.tables index "unknown table"

def memoryAt (index : Nat) : Except Error MemType :=
  lookup s.memories index "unknown memory"

def addrType (wide : Bool) : ValType :=
  if wide then .i64 else .i32

def tableAddrType (index : Nat) : Except Error ValType := do
  return addrType (← s.tableAt index).table64

def memoryAddrType (index : Nat) : Except Error ValType := do
  return addrType (← s.memoryAt index).memory64

def memoryAccessOk (memory natural align offset : Nat) : Except Error Unit := do
  let memory ← s.memoryAt memory
  if !memory.memory64 && decide (2 ^ 32 - 1 < offset) then
    throw (.invalid "offset out of range")
  if natural < align then
    throw (.invalid "alignment must not be larger than natural")

def tableIsFunc (table : TableType) : Bool :=
  heapSub s.module table.element.heap .func

def heapChecked : HeapType → Except Error HeapType
  | .type index =>
      if index < s.module.types.length then .ok (.type index)
      else .error (.invalid "unknown type")
  | heap => .ok heap

def structFields (index : Nat) : Except Error (List FieldType) :=
  match s.module.types[index]? with
  | none => .error (.invalid "unknown type")
  | some st =>
      match st.composite with
      | .struct fields => .ok fields
      | _ => .error typeMismatch

def arrayField (index : Nat) : Except Error FieldType :=
  match s.module.types[index]? with
  | none => .error (.invalid "unknown type")
  | some st =>
      match st.composite with
      | .array field => .ok field
      | _ => .error typeMismatch

def arrayFieldMut (index : Nat) : Except Error FieldType := do
  let field ← s.arrayField index
  if field.mutable then return field else throw typeMismatch

def elementTypeAt (index : Nat) : Except Error RefType :=
  lookup (s.module.elements.map ElementSegment.ty) index "unknown elem segment"

def dataIndex (index : Nat) : Except Error Unit :=
  match s.module.dataCount with
  | none => .error (.invalid "data count section required")
  | some count => if index < count then .ok () else .error (.invalid "unknown data segment")

def resolveBlockType : BlockType → Except Error (List ValType × List ValType)
  | .empty => .ok ([], [])
  | .val ty => do
      checkValueTypes [ty] s.module.types.length
      return ([], [ty])
  | .type index => do
      let ty ← typeAt s.module index
      return (ty.params, ty.results)

end Spaces

def nullableRef (index : Nat) : ValType :=
  .ref ⟨true, .type index⟩

/-- What `call_ref` pops for a function type. -/
def typedRefOf (typeIndex : Nat) : ValType :=
  nullableRef typeIndex

def typedRef (index : Nat) : ValType :=
  .ref ⟨false, .type index⟩

def storageCompatible (m : Module) : StorageType → StorageType → Bool
  | .ref dst, .ref src => refSub m dst src
  | dst, src => decide (dst = src)

/-- The type of a reference that failed a cast. -/
def typeDifference (source target : RefType) : RefType :=
  ⟨if target.nullable then false else source.nullable, source.heap⟩

/-! ## Numeric, memory and vector operators -/

def numSignature : NumOp → List ValType × List ValType
  | .i32Eqz => ([.i32], [.i32])
  | .i32Eq | .i32Ne | .i32LtS | .i32LtU | .i32GtS | .i32GtU | .i32LeS | .i32LeU | .i32GeS
  | .i32GeU => ([.i32, .i32], [.i32])
  | .i64Eqz => ([.i64], [.i32])
  | .i64Eq | .i64Ne | .i64LtS | .i64LtU | .i64GtS | .i64GtU | .i64LeS | .i64LeU | .i64GeS
  | .i64GeU => ([.i64, .i64], [.i32])
  | .f32Eq | .f32Ne | .f32Lt | .f32Gt | .f32Le | .f32Ge => ([.f32, .f32], [.i32])
  | .f64Eq | .f64Ne | .f64Lt | .f64Gt | .f64Le | .f64Ge => ([.f64, .f64], [.i32])
  | .i32Clz | .i32Ctz | .i32Popcnt => ([.i32], [.i32])
  | .i32Add | .i32Sub | .i32Mul | .i32DivS | .i32DivU | .i32RemS | .i32RemU | .i32And | .i32Or
  | .i32Xor | .i32Shl | .i32ShrS | .i32ShrU | .i32Rotl | .i32Rotr => ([.i32, .i32], [.i32])
  | .i64Clz | .i64Ctz | .i64Popcnt => ([.i64], [.i64])
  | .i64Add | .i64Sub | .i64Mul | .i64DivS | .i64DivU | .i64RemS | .i64RemU | .i64And | .i64Or
  | .i64Xor | .i64Shl | .i64ShrS | .i64ShrU | .i64Rotl | .i64Rotr => ([.i64, .i64], [.i64])
  | .f32Abs | .f32Neg | .f32Ceil | .f32Floor | .f32Trunc | .f32Nearest | .f32Sqrt =>
      ([.f32], [.f32])
  | .f32Add | .f32Sub | .f32Mul | .f32Div | .f32Min | .f32Max | .f32Copysign =>
      ([.f32, .f32], [.f32])
  | .f64Abs | .f64Neg | .f64Ceil | .f64Floor | .f64Trunc | .f64Nearest | .f64Sqrt =>
      ([.f64], [.f64])
  | .f64Add | .f64Sub | .f64Mul | .f64Div | .f64Min | .f64Max | .f64Copysign =>
      ([.f64, .f64], [.f64])
  | .i32WrapI64 => ([.i64], [.i32])
  | .i32TruncF32S | .i32TruncF32U => ([.f32], [.i32])
  | .i32TruncF64S | .i32TruncF64U => ([.f64], [.i32])
  | .i64ExtendI32S | .i64ExtendI32U => ([.i32], [.i64])
  | .i64TruncF32S | .i64TruncF32U => ([.f32], [.i64])
  | .i64TruncF64S | .i64TruncF64U => ([.f64], [.i64])
  | .f32ConvertI32S | .f32ConvertI32U => ([.i32], [.f32])
  | .f32ConvertI64S | .f32ConvertI64U => ([.i64], [.f32])
  | .f32DemoteF64 => ([.f64], [.f32])
  | .f64ConvertI32S | .f64ConvertI32U => ([.i32], [.f64])
  | .f64ConvertI64S | .f64ConvertI64U => ([.i64], [.f64])
  | .f64PromoteF32 => ([.f32], [.f64])
  | .i32ReinterpretF32 => ([.f32], [.i32])
  | .i64ReinterpretF64 => ([.f64], [.i64])
  | .f32ReinterpretI32 => ([.i32], [.f32])
  | .f64ReinterpretI64 => ([.i64], [.f64])
  | .i32Extend8S | .i32Extend16S => ([.i32], [.i32])
  | .i64Extend8S | .i64Extend16S | .i64Extend32S => ([.i64], [.i64])
  | .i32TruncSatF32S | .i32TruncSatF32U => ([.f32], [.i32])
  | .i32TruncSatF64S | .i32TruncSatF64U => ([.f64], [.i32])
  | .i64TruncSatF32S | .i64TruncSatF32U => ([.f32], [.i64])
  | .i64TruncSatF64S | .i64TruncSatF64U => ([.f64], [.i64])

def trailingZeros (n : Nat) : Nat :=
  ((List.range 8).find? fun i => n.testBit i).getD 8

def loadSize : LoadOp → Nat
  | .i32 | .f32 | .i64Load32S | .i64Load32U => 4
  | .i64 | .f64 => 8
  | .i32Load8S | .i32Load8U | .i64Load8S | .i64Load8U => 1
  | .i32Load16S | .i32Load16U | .i64Load16S | .i64Load16U => 2

def loadResult : LoadOp → ValType
  | .i32 | .i32Load8S | .i32Load8U | .i32Load16S | .i32Load16U => .i32
  | .i64 | .i64Load8S | .i64Load8U | .i64Load16S | .i64Load16U | .i64Load32S | .i64Load32U => .i64
  | .f32 => .f32
  | .f64 => .f64

def storeSize : StoreOp → Nat
  | .i32 | .f32 | .i64Store32 => 4
  | .i64 | .f64 => 8
  | .i32Store8 | .i64Store8 => 1
  | .i32Store16 | .i64Store16 => 2

def storeValue : StoreOp → ValType
  | .i32 | .i32Store8 | .i32Store16 => .i32
  | .i64 | .i64Store8 | .i64Store16 | .i64Store32 => .i64
  | .f32 => .f32
  | .f64 => .f64

def VecLoadOp.bytes : VecLoadOp → Nat
  | .v128 => 16
  | .i8x8S | .i8x8U | .i16x4S | .i16x4U | .i32x2S | .i32x2U | .i64Splat | .i64Zero => 8
  | .i8Splat => 1
  | .i16Splat => 2
  | .i32Splat | .i32Zero => 4

inductive LaneKind where
  | i8 | i16 | i32 | i64 | f32 | f64
  deriving DecidableEq, Repr

def LaneKind.count : LaneKind → Nat
  | .i8 => 16
  | .i16 => 8
  | .i32 | .f32 => 4
  | .i64 | .f64 => 2

def LaneKind.valtype : LaneKind → ValType
  | .i8 | .i16 | .i32 => .i32
  | .i64 => .i64
  | .f32 => .f32
  | .f64 => .f64

inductive VecSig where
  | unop | not | binop | ternop | shift
  | splat (kind : LaneKind)
  | extractS (kind : LaneKind)
  | extractU (kind : LaneKind)
  | extract (kind : LaneKind)
  | replace (kind : LaneKind)
  | test | bitmask
  deriving DecidableEq, Repr

/-- The signatures of the vector opcodes, by ranges. -/
def vecSigTable : List (List (Nat × Nat) × VecSig) := [
  ([(0x4d, 0x4d)], .not),
  ([(0x0e, 0x0e), (0x4e, 0x51)], .binop),
  ([(0x52, 0x52)], .ternop),
  ([(0x53, 0x53), (0x63, 0x63), (0x83, 0x83), (0xa3, 0xa3), (0xc3, 0xc3)], .test),
  ([(0x64, 0x64), (0x84, 0x84), (0xa4, 0xa4), (0xc4, 0xc4)], .bitmask),
  ([(0x0f, 0x0f)], .splat .i8), ([(0x10, 0x10)], .splat .i16), ([(0x11, 0x11)], .splat .i32),
  ([(0x12, 0x12)], .splat .i64), ([(0x13, 0x13)], .splat .f32), ([(0x14, 0x14)], .splat .f64),
  ([(0x15, 0x15)], .extractS .i8), ([(0x16, 0x16)], .extractU .i8),
  ([(0x18, 0x18)], .extractS .i16), ([(0x19, 0x19)], .extractU .i16),
  ([(0x1b, 0x1b)], .extract .i32), ([(0x1d, 0x1d)], .extract .i64),
  ([(0x1f, 0x1f)], .extract .f32), ([(0x21, 0x21)], .extract .f64),
  ([(0x17, 0x17)], .replace .i8), ([(0x1a, 0x1a)], .replace .i16),
  ([(0x1c, 0x1c)], .replace .i32), ([(0x1e, 0x1e)], .replace .i64),
  ([(0x20, 0x20)], .replace .f32), ([(0x22, 0x22)], .replace .f64),
  ([(0x6b, 0x6d), (0x8b, 0x8d), (0xab, 0xad), (0xcb, 0xcd)], .shift),
  ([(0x23, 0x40), (0xd6, 0xdb)], .binop),
  ([(0x41, 0x4c)], .binop),
  ([(0x60, 0x62)], .unop),
  ([(0x6e, 0x73), (0x76, 0x79), (0x7b, 0x7b)], .binop),
  ([(0x65, 0x66)], .binop),
  ([(0x80, 0x81)], .unop),
  ([(0x82, 0x82), (0x85, 0x86), (0x8e, 0x93), (0x95, 0x99), (0x9b, 0x9b)], .binop),
  ([(0xa0, 0xa1)], .unop),
  ([(0xae, 0xae), (0xb1, 0xb1), (0xb5, 0xb9)], .binop),
  ([(0xba, 0xba)], .binop),
  ([(0xc0, 0xc1)], .unop),
  ([(0xce, 0xce), (0xd1, 0xd1), (0xd5, 0xd5)], .binop),
  ([(0x87, 0x8a), (0xa7, 0xaa), (0xc7, 0xca)], .unop),
  ([(0x7c, 0x7f)], .unop),
  ([(0x9c, 0x9f), (0xbc, 0xbf), (0xdc, 0xdf)], .binop),
  ([(0x5e, 0x5f), (0x67, 0x6a), (0x74, 0x75), (0x7a, 0x7a), (0x94, 0x94)], .unop),
  ([(0xe0, 0xe1), (0xe3, 0xe3), (0xec, 0xed), (0xef, 0xef)], .unop),
  ([(0xe4, 0xeb), (0xf0, 0xf7)], .binop),
  ([(0xf8, 0xff)], .unop),
  ([(0x100, 0x100), (0x10d, 0x112)], .binop),
  ([(0x101, 0x104)], .unop),
  ([(0x105, 0x10c), (0x113, 0x113)], .ternop)]

def vecSig (sub : Nat) : Option VecSig :=
  (vecSigTable.find? fun row => row.1.any fun r => decide (r.1 ≤ sub ∧ sub ≤ r.2)).map Prod.snd

/-- The operands and results of a vector operator on registers. -/
def simdReg (sub : Nat) (lane : Option Nat) : Except Error (List ValType × List ValType) :=
  match vecSig sub with
  | none => .error (.invalid "unknown simd opcode")
  | some sig =>
      let laneChecked (kind : LaneKind) (types : List ValType × List ValType) :
          Except Error (List ValType × List ValType) :=
        if lane.all fun l => decide (l < kind.count) then .ok types
        else .error (.invalid "invalid lane index")
      match sig with
      | .unop | .not => .ok ([.v128], [.v128])
      | .binop => .ok ([.v128, .v128], [.v128])
      | .ternop => .ok ([.v128, .v128, .v128], [.v128])
      | .shift => .ok ([.v128, .i32], [.v128])
      | .splat kind => .ok ([kind.valtype], [.v128])
      | .extractS kind | .extractU kind | .extract kind => laneChecked kind ([.v128], [kind.valtype])
      | .replace kind => laneChecked kind ([.v128, kind.valtype], [.v128])
      | .test | .bitmask => .ok ([.v128], [.i32])

/-! ## Plain instructions -/

def maxArrayNewFixed : Nat := 2 ^ 20

/-- The operands, deepest first, and the results of an instruction that does
nothing else to the operand types; none for the others. -/
def plainType (s : Spaces) : Instr → Option (Except Error (List ValType × List ValType))
  | .selectTyped types => some <| match types with
      | [t] => do
          checkValueTypes [t] s.module.types.length
          return ([t, t, .i32], [t])
      | _ => throw (.invalid "invalid result arity")
  | .globalGet index => some do
      return ([], [(← s.globalAt index).value])
  | .globalSet index => some do
      let ty ← s.globalAt index
      if !ty.mutable then throw (.invalid "global is immutable")
      return ([ty.value], [])
  | .tableGet table => some do
      let ty ← s.tableAt table
      return ([← s.tableAddrType table], [.ref ty.element])
  | .tableSet table => some do
      let ty ← s.tableAt table
      return ([← s.tableAddrType table, .ref ty.element], [])
  | .load memory op align offset => some do
      let addr ← s.memoryAddrType memory
      s.memoryAccessOk memory (trailingZeros (loadSize op)) align offset
      return ([addr], [loadResult op])
  | .store memory op align offset => some do
      let addr ← s.memoryAddrType memory
      s.memoryAccessOk memory (trailingZeros (storeSize op)) align offset
      return ([addr, storeValue op], [])
  | .memorySize memory => some do
      return ([], [← s.memoryAddrType memory])
  | .memoryGrow memory => some do
      let addr ← s.memoryAddrType memory
      return ([addr], [addr])
  | .i32Const _ => some (.ok ([], [.i32]))
  | .i64Const _ => some (.ok ([], [.i64]))
  | .f32Const _ => some (.ok ([], [.f32]))
  | .f64Const _ => some (.ok ([], [.f64]))
  | .num op => some (.ok (numSignature op))
  | .refNull heap => some do
      return ([], [.ref ⟨true, ← s.heapChecked heap⟩])
  | .refFunc index => some do
      if s.funcs.length ≤ index then throw (.invalid "unknown function")
      if !(s.declared[index]?.getD false) then throw (.invalid "undeclared function reference")
      return ([], [typedRef (← Spaces.lookup s.funcTypes index "unknown function")])
  | .refEq => some (.ok ([.ref ⟨true, .eq⟩, .ref ⟨true, .eq⟩], [.i32]))
  | .memoryInit dataIndex memory => some do
      s.dataIndex dataIndex
      return ([← s.memoryAddrType memory, .i32, .i32], [])
  | .dataDrop dataIndex => some do
      s.dataIndex dataIndex
      return ([], [])
  | .memoryCopy dst src => some do
      let dstAddr ← s.memoryAddrType dst
      let srcAddr ← s.memoryAddrType src
      let lenAddr := if dstAddr = .i64 ∧ srcAddr = .i64 then .i64 else .i32
      return ([dstAddr, srcAddr, lenAddr], [])
  | .memoryFill memory => some do
      let addr ← s.memoryAddrType memory
      return ([addr, .i32, addr], [])
  | .tableInit elementIndex table => some do
      let tableTy ← s.tableAt table
      let element ← s.elementTypeAt elementIndex
      if !refSub s.module tableTy.element element then throw typeMismatch
      return ([← s.tableAddrType table, .i32, .i32], [])
  | .elemDrop elementIndex => some do
      let _ ← s.elementTypeAt elementIndex
      return ([], [])
  | .tableCopy dst src => some do
      let dstTable ← s.tableAt dst
      let srcTable ← s.tableAt src
      if !refSub s.module dstTable.element srcTable.element then throw typeMismatch
      let dstAddr ← s.tableAddrType dst
      let srcAddr ← s.tableAddrType src
      let lenAddr := if dstAddr = .i64 ∧ srcAddr = .i64 then .i64 else .i32
      return ([dstAddr, srcAddr, lenAddr], [])
  | .tableGrow table => some do
      let ty ← s.tableAt table
      let addr ← s.tableAddrType table
      return ([.ref ty.element, addr], [addr])
  | .tableSize table => some do
      return ([], [← s.tableAddrType table])
  | .tableFill table => some do
      let ty ← s.tableAt table
      let addr ← s.tableAddrType table
      return ([addr, .ref ty.element, addr], [])
  | .structNew ty => some do
      let fields ← s.structFields ty
      return (fields.map fun field => field.ty.val, [typedRef ty])
  | .structNewDefault ty => some do
      let fields ← s.structFields ty
      if fields.any fun field => !isDefaultable field.ty.val then throw typeMismatch
      return ([], [typedRef ty])
  | .structGet ty field => some do
      let storage ← Spaces.lookup (← s.structFields ty) field "unknown field"
      if storage.ty = .i8 ∨ storage.ty = .i16 then throw typeMismatch
      return ([nullableRef ty], [storage.ty.val])
  | .structGetS ty field | .structGetU ty field => some do
      let storage ← Spaces.lookup (← s.structFields ty) field "unknown field"
      if storage.ty ≠ .i8 ∧ storage.ty ≠ .i16 then throw typeMismatch
      return ([nullableRef ty], [.i32])
  | .structSet ty field => some do
      let storage ← Spaces.lookup (← s.structFields ty) field "unknown field"
      if !storage.mutable then throw typeMismatch
      return ([nullableRef ty, storage.ty.val], [])
  | .arrayNew ty => some do
      let field ← s.arrayField ty
      return ([field.ty.val, .i32], [typedRef ty])
  | .arrayNewDefault ty => some do
      let field ← s.arrayField ty
      if !isDefaultable field.ty.val then throw typeMismatch
      return ([.i32], [typedRef ty])
  | .arrayNewFixed ty n => some do
      if maxArrayNewFixed < n then throw (.invalid "array.new_fixed count too large")
      let field ← s.arrayField ty
      return (List.replicate n field.ty.val, [typedRef ty])
  | .arrayNewData ty data => some do
      let field ← s.arrayField ty
      if let .ref _ := field.ty then throw typeMismatch
      s.dataIndex data
      return ([.i32, .i32], [typedRef ty])
  | .arrayNewElem ty elem => some do
      let field ← s.arrayField ty
      let .ref arrayRef := field.ty | throw typeMismatch
      if !refSub s.module arrayRef (← s.elementTypeAt elem) then throw typeMismatch
      return ([.i32, .i32], [typedRef ty])
  | .arrayGet ty => some do
      let field ← s.arrayField ty
      if field.ty = .i8 ∨ field.ty = .i16 then throw typeMismatch
      return ([nullableRef ty, .i32], [field.ty.val])
  | .arrayGetS ty | .arrayGetU ty => some do
      let field ← s.arrayField ty
      if field.ty ≠ .i8 ∧ field.ty ≠ .i16 then throw typeMismatch
      return ([nullableRef ty, .i32], [.i32])
  | .arraySet ty => some do
      let field ← s.arrayFieldMut ty
      return ([nullableRef ty, .i32, field.ty.val], [])
  | .arrayLen => some (.ok ([.ref ⟨true, .array⟩], [.i32]))
  | .arrayFill ty => some do
      let field ← s.arrayFieldMut ty
      return ([nullableRef ty, .i32, field.ty.val, .i32], [])
  | .arrayCopy dst src => some do
      let dstField ← s.arrayFieldMut dst
      let srcField ← s.arrayField src
      if !storageCompatible s.module dstField.ty srcField.ty then throw typeMismatch
      return ([nullableRef dst, .i32, nullableRef src, .i32, .i32], [])
  | .arrayInitData ty data => some do
      let field ← s.arrayFieldMut ty
      if let .ref _ := field.ty then throw typeMismatch
      s.dataIndex data
      return ([nullableRef ty, .i32, .i32, .i32], [])
  | .arrayInitElem ty elem => some do
      let field ← s.arrayFieldMut ty
      let .ref arrayRef := field.ty | throw typeMismatch
      if !refSub s.module arrayRef (← s.elementTypeAt elem) then throw typeMismatch
      return ([nullableRef ty, .i32, .i32, .i32], [])
  | .refI31 => some (.ok ([.i32], [.ref ⟨false, .i31⟩]))
  | .i31GetS | .i31GetU => some (.ok ([.ref ⟨true, .i31⟩], [.i32]))
  | .v128Const _ => some (.ok ([], [.v128]))
  | .vecLoad memory op align offset => some do
      let addr ← s.memoryAddrType memory
      s.memoryAccessOk memory (trailingZeros op.bytes) align offset
      return ([addr], [.v128])
  | .vecStore memory align offset => some do
      let addr ← s.memoryAddrType memory
      s.memoryAccessOk memory 4 align offset
      return ([addr, .v128], [])
  | .vecLaneLoad memory size align offset lane => some do
      if 16 / size ≤ lane then throw (.invalid "invalid lane index")
      let addr ← s.memoryAddrType memory
      s.memoryAccessOk memory (trailingZeros size) align offset
      return ([addr, .v128], [.v128])
  | .vecLaneStore memory size align offset lane => some do
      if 16 / size ≤ lane then throw (.invalid "invalid lane index")
      let addr ← s.memoryAddrType memory
      s.memoryAccessOk memory (trailingZeros size) align offset
      return ([addr, .v128], [])
  | .vecShuffle lanes => some do
      if lanes.any fun lane => decide (32 ≤ lane) then throw (.invalid "invalid lane index")
      return ([.v128, .v128], [.v128])
  | .vec sub => some (simdReg sub none)
  | .vecLane op lane => some (simdReg op (some lane))
  | _ => none

end Slag.Wasm
