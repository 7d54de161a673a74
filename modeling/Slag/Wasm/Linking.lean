import Slag.Lib.Fallible
import Slag.Wasm.World

/-!
The store and the instantiation of modules. An instantiation that fails leaves
what it has built in the store. What numeric instructions compute and what a
start function does to the store are parameters.
-/

namespace Slag.Wasm.Linking

open World (ExternVal InstantiateError incompatible unknownImport)

def maxMemoryPages : Nat := 2 ^ 14

def maxTableElements : Nat := 2 ^ 22

def pageSize : Nat := 2 ^ 16

structure TableInst where
  elements : List RefValue
  max : Option Nat
  deriving DecidableEq, Repr

def TableInst.new (min : Nat) (max : Option Nat) (init : RefValue) : Except String TableInst :=
  if maxTableElements < min then .error "table minimum exceeds the host limit"
  else .ok ⟨List.replicate min init, max⟩

structure Memory where
  bytes : List UInt8
  max : Option Nat
  shared : Bool
  deriving DecidableEq, Repr

/-- A zero-filled memory. A size within the limit never overflows, and a fresh
block is private. -/
def Memory.new (min : Nat) (max : Option Nat) (shared : Bool) : Except String Memory :=
  if maxMemoryPages < min then .error "memory minimum exceeds the host limit"
  else if shared ∧ max.any (maxMemoryPages < ·) then
    .error "shared memory maximum exceeds the host limit"
  else .ok ⟨List.replicate (min * pageSize) 0, max, shared⟩

def Memory.pages (m : Memory) : Nat :=
  m.bytes.length / pageSize

/-- A cell, with the type it was declared with on the side. -/
structure Cell (τ α : Type) where
  ty : τ
  value : α
  deriving DecidableEq, Repr

/-- An instance with its cells and segments. -/
structure Linked extends Instance where
  tables : List Nat
  globals : List Nat
  memories : List Nat
  elementSegments : List (Option (List RefValue))
  dataSegments : List (Option (List UInt8))

/-- The cells of a struct or an array. -/
inductive GcData where
  | struct (cells : List Value)
  | array (cells : List Value)
  deriving DecidableEq, Repr

structure GcObject where
  owner : Nat
  ty : Nat
  data : GcData
  deriving DecidableEq, Repr

def GcData.cells : GcData → List Value
  | .struct cells | .array cells => cells

def GcData.setCell (index : Nat) (v : Value) : GcData → GcData
  | .struct cells => .struct (cells.set index v)
  | .array cells => .array (cells.set index v)

structure Store where
  instances : List Linked
  hostFuncs : List HostFunc
  tags : List TagInst
  tableTypes : List TableType
  tables : List (Cell TableType TableInst)
  memoryTypes : List MemType
  memories : List (Cell MemType Memory)
  globalTypes : List GlobalType
  globals : List (Cell GlobalType Value)
  objects : List GcObject
  exceptions : List ExceptionInst

/-- What running code does to a store. -/
inductive Effect where
  | setElement (cell index : Nat) (r : RefValue)
  | growTable (cell count : Nat) (r : RefValue)
  | setGlobal (cell : Nat) (v : Value)
  | setMemory (cell : Nat) (f : Memory → Memory)
  | alloc (object : GcObject)
  | setField (object index : Nat) (v : Value)
  | throw (exn : ExceptionInst)
  | dropElement (inst index : Nat)
  | dropData (inst index : Nat)

/-- The results of numeric instructions. -/
inductive NumValue where
  | i32 (v : BitVec 32)
  | i64 (v : BitVec 64)
  | f32 (bits : BitVec 32)
  | f64 (bits : BitVec 64)

def NumValue.value : NumValue → Value
  | .i32 v => .i32 v
  | .i64 v => .i64 v
  | .f32 bits => .f32 bits
  | .f64 bits => .f64 bits

/-- Numeric instructions, the room for arrays, and runs of functions without
arguments. -/
structure Runtime where
  execNum : NumOp → List Value → Except ExecFail NumValue
  reserves : Nat → Bool
  runTarget : Store → FuncTarget → Except InstantiateError Unit × List Effect

/-- A runtime without numbers, where running changes nothing. -/
def Runtime.idle : Runtime where
  execNum _ _ := .error .terminated
  reserves _ := true
  runTarget _ _ := (.ok (), [])

def Cell.map {τ α : Type} (f : α → α) (cell : Cell τ α) : Cell τ α :=
  { cell with value := f cell.value }

namespace Store

def empty : Store :=
  ⟨[], [], [], [], [], [], [], [], [], [], []⟩

/-- The part of the store that calls are checked against. -/
def world (s : Store) : World :=
  ⟨s.instances.map Linked.toInstance, s.hostFuncs, s.tags⟩

def perform (s : Store) : Effect → Store
  | .setElement cell index r => { s with
      tables := s.tables.modify cell
        (Cell.map fun t => { t with elements := t.elements.set index r }) }
  | .growTable cell count r => { s with
      tables := s.tables.modify cell
        (Cell.map fun t => { t with elements := t.elements ++ List.replicate count r }) }
  | .setGlobal cell v => { s with globals := s.globals.modify cell (Cell.map fun _ => v) }
  | .setMemory cell f => { s with memories := s.memories.modify cell (Cell.map f) }
  | .alloc object => { s with objects := s.objects ++ [object] }
  | .setField object index v => { s with
      objects := s.objects.modify object fun o => { o with data := o.data.setCell index v } }
  | .throw exn => { s with exceptions := s.exceptions ++ [exn] }
  | .dropElement inst index => { s with
      instances := s.instances.modify inst fun linked =>
        { linked with elementSegments := linked.elementSegments.set index none } }
  | .dropData inst index => { s with
      instances := s.instances.modify inst fun linked =>
        { linked with dataSegments := linked.dataSegments.set index none } }

def run (s : Store) (effects : List Effect) : Store :=
  effects.foldl perform s

/-! ## Host registrations -/

def hostFunc (s : Store) (ty : FuncType) (token : Option Nat) : Store :=
  { s with hostFuncs := s.hostFuncs ++ [⟨ty, token⟩] }

def tag (s : Store) (ty : FuncType) : Store :=
  { s with tags := s.tags ++ [⟨ty, none⟩] }

def global (s : Store) (ty : GlobalType) (value : Value) : Store :=
  { s with globalTypes := s.globalTypes ++ [ty], globals := s.globals ++ [⟨ty, value⟩] }

def memory (s : Store) (ty : MemType) : Store :=
  match Memory.new ty.limits.min ty.limits.max ty.limits.shared with
  | .error _ => s
  | .ok memory =>
      { s with memoryTypes := s.memoryTypes ++ [ty], memories := s.memories ++ [⟨ty, memory⟩] }

def table (s : Store) (ty : TableType) (init : RefValue) : Store :=
  match TableInst.new ty.limits.min ty.limits.max init with
  | .error _ => s
  | .ok table => { s with tableTypes := s.tableTypes ++ [ty], tables := s.tables ++ [⟨ty, table⟩] }

/-! ## Types of cells -/

/-- The declared type with the current size as the minimum. -/
def memoryTypeOf (s : Store) (cell : Nat) : Option MemType := do
  let declared ← s.memoryTypes[cell]?
  let memory ← s.memories[cell]?
  return { declared with limits := { declared.limits with min := memory.value.pages } }

def tableTypeOf (s : Store) (cell : Nat) : Option TableType := do
  let declared ← s.tableTypes[cell]?
  let table ← s.tables[cell]?
  return { declared with limits := { declared.limits with min := table.value.elements.length } }

end Store

/-! ## Import types -/

def limitsMatch (actual requested : Limits) : Bool :=
  decide (requested.min ≤ actual.min) &&
    match requested.max with
    | none => true
    | some max => actual.max.any (· ≤ max)

/-- Without `workers` the shared flag is not compared. -/
def memoryMatches (actual requested : MemType) : Bool :=
  actual.memory64 == requested.memory64 && limitsMatch actual.limits requested.limits

/-- Element types must be identical. -/
def tableMatches (actual requested : TableType) : Bool :=
  actual.table64 == requested.table64 && decide (actual.element = requested.element) &&
    limitsMatch actual.limits requested.limits

def matchesRef (expected actual : RefType) : Bool :=
  if !expected.nullable && actual.nullable then false
  else
    match expected.heap, actual.heap with
    | .func, .func | .external, .external | .exn, .exn => true
    | .type x, .type y => x == y
    | .func, .type _ => true
    | _, _ => false

def matchesVal (expected actual : ValType) : Bool :=
  decide (expected = actual) ||
    match expected, actual with
    | .ref e, .ref a => matchesRef e a
    | _, _ => false

def globalMatches (actual requested : GlobalType) : Bool :=
  actual.mutable == requested.mutable &&
    if requested.mutable then decide (requested.value = actual.value)
    else matchesVal requested.value actual.value

/-- The cells and functions an instance gets, in the order of its imports. -/
structure Links where
  funcs : List FuncTarget := []
  tables : List Nat := []
  globals : List Nat := []
  memories : List Nat := []
  tags : List Nat := []

section Instantiate

def linkGlobal (s : Store) (requested : GlobalType) : Option ExternVal → Except InstantiateError Nat
  | none => .error unknownImport
  | some (.global cell) =>
      match s.globalTypes[cell]? with
      | none => .error unknownImport
      | some actual => if globalMatches actual requested then .ok cell else .error incompatible
  | some (.unsupported reason) => .error (.unsupported reason)
  | some _ => .error incompatible

def linkMemory (s : Store) (requested : MemType) : Option ExternVal → Except InstantiateError Nat
  | none => .error unknownImport
  | some (.memory cell) =>
      if (s.memoryTypeOf cell).any (memoryMatches · requested) then .ok cell else .error incompatible
  | some (.unsupported reason) => .error (.unsupported reason)
  | some _ => .error incompatible

def linkTable (s : Store) (requested : TableType) : Option ExternVal → Except InstantiateError Nat
  | none => .error unknownImport
  | some (.table cell) =>
      if (s.tableTypeOf cell).any (tableMatches · requested) then .ok cell else .error incompatible
  | some (.unsupported reason) => .error (.unsupported reason)
  | some _ => .error incompatible

/-- Check and add one import. -/
def linkImport (s : Store) (m : Module) (links : Links) (value : Option ExternVal) :
    ImportDesc → Except InstantiateError Links
  | .func typeIndex => do
      return { links with funcs := links.funcs ++ [← s.world.linkFunc m typeIndex value] }
  | .global ty => do
      return { links with globals := links.globals ++ [← linkGlobal s ty value] }
  | .memory ty => do
      return { links with memories := links.memories ++ [← linkMemory s ty value] }
  | .table ty => do
      return { links with tables := links.tables ++ [← linkTable s ty value] }
  | .tag typeIndex => do
      return { links with tags := links.tags ++ [← s.world.linkTag m typeIndex value] }

def linkImports (s : Store) (m : Module) (resolve : Nat → Option ExternVal) :
    Except InstantiateError Links :=
  m.imports.zipIdx.foldlM (fun links p => linkImport s m links (resolve p.2) p.1) {}

/-- Steps of an instantiation. -/
abbrev Build (α : Type) : Type :=
  Fallible Store InstantiateError α

def ofExecFail : ExecFail → InstantiateError
  | .trap trap => .trap trap
  | .unsupported reason => .unsupported reason
  | .terminated => .unsupported "terminated during instantiation"
  | .endless => .endless

def declareTag (self : Nat) (m : Module) (tags : List Nat) (typeIndex : Nat) : Build (List Nat) :=
  match m.funcAt typeIndex with
  | none => Fallible.fail (.unlinkable "unknown tag type")
  | some ty => Fallible.step fun s =>
      (.ok (tags ++ [s.tags.length]), { s with tags := s.tags ++ [⟨ty, some (self, typeIndex)⟩] })

def globalValues (s : Store) (cells : List Nat) : List Value :=
  cells.map fun cell => (s.globals[cell]?.map Cell.value).getD (.i32 0)

/-! ## Constant expressions -/

def malformedConst : ExecFail := .unsupported "malformed constant expression"

/-- What a cell of a storage type keeps of a value. -/
def wrapCell : StorageType → Value → Except ExecFail Value
  | .i8, .i32 v => .ok (.i32 (v &&& 0xff))
  | .i8, _ => .error (.unsupported "i8 cell write")
  | .i16, .i32 v => .ok (.i32 (v &&& 0xffff))
  | .i16, _ => .error (.unsupported "i16 cell write")
  | _, v => .ok v

def defaultStorage : StorageType → Except ExecFail Value
  | .i8 | .i16 | .i32 => .ok (.i32 0)
  | .i64 => .ok (.i64 0)
  | .f32 => .ok (.f32 0)
  | .f64 => .ok (.f64 0)
  | .v128 => .ok (.v128 0)
  | .ref r =>
      if r.nullable then .ok (.ref .null)
      else .error (.unsupported "non-defaultable reference field")

def structFieldTypes (m : Module) (ty : Nat) : Except ExecFail (List FieldType) :=
  match m.types[ty]? with
  | some ⟨_, _, .struct fields⟩ => .ok fields
  | _ => .error (.unsupported "unknown struct type")

def arrayElementType (m : Module) (ty : Nat) : Except ExecFail FieldType :=
  match m.types[ty]? with
  | some ⟨_, _, .array field⟩ => .ok field
  | _ => .error (.unsupported "unknown array type")

/-- Pop a cell for each storage type, the first from the top; the cells, last
popped first, and the rest of the stack. -/
def popCells : List StorageType → List Value → List Value → Except ExecFail (List Value × List Value)
  | [], cells, stack => .ok (cells, stack)
  | _ :: _, _, [] => .error malformedConst
  | ty :: types, cells, v :: stack => do
      let cell ← wrapCell ty v
      popCells types (cell :: cells) stack

def popConstI32 : List Value → Except ExecFail (BitVec 32 × List Value)
  | .i32 v :: stack => .ok (v, stack)
  | _ => .error malformedConst

def unwrapExternal : RefValue → RefValue
  | .external (.host n) => .host n
  | .external (.i31 v) => .i31 v
  | .external (.struct id) => .struct id
  | .external (.array id) => .array id
  | other => other

def wrapExternal : RefValue → Option ExternInner
  | .host n => some (.host n)
  | .i31 v => some (.i31 v)
  | .struct id => some (.struct id)
  | .array id => some (.array id)
  | _ => none

/-- An object at the end of the pool. -/
def allocObject (object : GcObject) : Fallible Store ExecFail Nat :=
  Fallible.step fun s => (.ok s.objects.length, { s with objects := s.objects ++ [object] })

section Consts

variable (rt : Runtime) (m : Module) (self : Nat) (globals : List Value)

/-- The stack after one instruction that allocates nothing. -/
def constStep (stack : List Value) : Instr → Except ExecFail (List Value)
  | .i32Const v => .ok (.i32 v :: stack)
  | .i64Const v => .ok (.i64 v :: stack)
  | .f32Const bits => .ok (.f32 bits :: stack)
  | .f64Const bits => .ok (.f64 bits :: stack)
  | .v128Const bits => .ok (.v128 bits :: stack)
  | .globalGet index =>
      match globals[index]? with
      | some v => .ok (v :: stack)
      | none => .error (.trap .unknownFunction)
  | .num op =>
      if numInputs op ≤ stack.length then do
        let v ← rt.execNum op (stack.take (numInputs op)).reverse
        return v.value :: stack.drop (numInputs op)
      else .error malformedConst
  | .refNull _ => .ok (.ref .null :: stack)
  | .refFunc index => .ok (.ref (.func ⟨self, index⟩) :: stack)
  | .refI31 =>
      match stack with
      | .i32 v :: stack => .ok (.ref (.i31 (v &&& 0x7fffffff)) :: stack)
      | [] => .error malformedConst
      | _ => .error (.unsupported "non-i32 ref.i31 constant")
  | .anyConvertExtern =>
      match stack with
      | .ref r :: stack => .ok (.ref (unwrapExternal r) :: stack)
      | [] => .error malformedConst
      | _ => .error (.unsupported "non-reference internalize")
  | .externConvertAny =>
      match stack with
      | .ref .null :: stack => .ok (.ref .null :: stack)
      | .ref r :: stack =>
          match wrapExternal r with
          | some inner => .ok (.ref (.external inner) :: stack)
          | none => .error (.unsupported "unboxable externalize")
      | [] => .error malformedConst
      | _ => .error (.unsupported "non-reference externalize")
  | _ => .error (.unsupported "constant expression")

/-- The object an instruction allocates, and the rest of the stack. -/
def constObject (stack : List Value) : Instr → Option (Except ExecFail (GcObject × List Value))
  | .structNew ty => some do
      let fields ← structFieldTypes m ty
      let (cells, stack) ← popCells (fields.map FieldType.ty).reverse [] stack
      return (⟨self, ty, .struct cells⟩, stack)
  | .structNewDefault ty => some do
      let fields ← structFieldTypes m ty
      let cells ← fields.mapM fun field => defaultStorage field.ty
      return (⟨self, ty, .struct cells⟩, stack)
  | .arrayNew ty => some do
      let field ← arrayElementType m ty
      let (len, stack) ← popConstI32 stack
      let (cells, stack) ← popCells [field.ty] [] stack
      if rt.reserves len.toNat then
        return (⟨self, ty, .array (cells.flatMap (List.replicate len.toNat))⟩, stack)
      else throw (.trap .outOfBoundsMemoryAccess)
  | .arrayNewDefault ty => some do
      let field ← arrayElementType m ty
      let (len, stack) ← popConstI32 stack
      let cell ← defaultStorage field.ty
      if rt.reserves len.toNat then
        return (⟨self, ty, .array (List.replicate len.toNat cell)⟩, stack)
      else throw (.trap .outOfBoundsMemoryAccess)
  | .arrayNewFixed ty n => some do
      let field ← arrayElementType m ty
      let (cells, stack) ← popCells (List.replicate n field.ty) [] stack
      return (⟨self, ty, .array cells⟩, stack)
  | _ => none

/-- The reference to an object. -/
def GcObject.ref (object : GcObject) (id : Nat) : RefValue :=
  match object.data with
  | .struct _ => .struct id
  | .array _ => .array id

def constInstr (stack : List Value) (instr : Instr) : Fallible Store ExecFail (List Value) :=
  match constObject rt m self stack instr with
  | some allocated => do
      let (object, stack) ← Fallible.read fun _ => allocated
      let id ← allocObject object
      return .ref (object.ref id) :: stack
  | none => Fallible.read fun _ => constStep rt self globals stack instr

/-- Evaluate a constant expression; its value is the top of the stack. -/
def evalInstrs (expr : List Instr) : Fallible Store ExecFail Value := do
  match ← expr.foldlM (constInstr rt m self globals) [] with
  | v :: _ => return v
  | [] => Fallible.fail (.unsupported "empty constant expression")

end Consts

variable (rt : Runtime) (m : Module) (self : Nat)

def evalConst (expr : List Instr) (values : List Value) : Build Value :=
  (evalInstrs rt m self values expr).mapFailure ofExecFail

def evalRefConst (expr : List Instr) (values : List Value) : Build RefValue := do
  match ← evalConst rt m self expr values with
  | .ref r => return r
  | _ => Fallible.fail (.unsupported "non-reference constant")

/-- The initial element of a table. -/
def tableInit (globals : List Nat) : Option (List Instr) → Build RefValue
  | none => pure .null
  | some expr => Fallible.withState fun s => evalRefConst rt m self expr (globalValues s globals)

/-- The type is recorded before the table is allocated. -/
def declareTable (globals : List Nat) (tables : List Nat) (decl : TableDecl) :
    Build (List Nat) := do
  let init ← tableInit rt m self globals decl.init
  Fallible.update fun s => { s with tableTypes := s.tableTypes ++ [decl.ty] }
  match TableInst.new decl.ty.limits.min decl.ty.limits.max init with
  | .error message => Fallible.fail (.unlinkable message)
  | .ok table => Fallible.step fun s =>
      (.ok (tables ++ [s.tables.length]), { s with tables := s.tables ++ [⟨decl.ty, table⟩] })

/-- So is the type of a memory. -/
def declareMemory (memories : List Nat) (ty : MemType) : Build (List Nat) := do
  Fallible.update fun s => { s with memoryTypes := s.memoryTypes ++ [ty] }
  match Memory.new ty.limits.min ty.limits.max ty.limits.shared with
  | .error message => Fallible.fail (.unlinkable message)
  | .ok memory => Fallible.step fun s =>
      (.ok (memories ++ [s.memories.length]), { s with memories := s.memories ++ [⟨ty, memory⟩] })

def declareGlobal (globals : List Nat) (decl : GlobalDecl) : Build (List Nat) := do
  let value ← Fallible.withState fun s => evalConst rt m self decl.init (globalValues s globals)
  Fallible.step fun s =>
    (.ok (globals ++ [s.globals.length]), { s with
      globalTypes := s.globalTypes ++ [decl.ty]
      globals := s.globals ++ [⟨decl.ty, value⟩] })

/-! ## Segments -/

def replaceRange {α : Type} (l : List α) (start : Nat) (items : List α) : List α :=
  l.take start ++ items ++ l.drop (start + items.length)

def addressOf (message : String) : Value → Except InstantiateError Nat
  | .i32 v => .ok v.toNat
  | .i64 v => .ok v.toNat
  | _ => .error (.unsupported message)

def instanceGlobals (s : Store) : List Value :=
  globalValues s ((s.instances[self]?.map Linked.globals).getD [])

def evalItems (items : List (List Instr)) (values : List Value) : Build (List RefValue) :=
  items.mapM fun item => evalRefConst rt m self item values

/-- The items of an element segment and, for an active one, the table cell they
go to and where they start. -/
def planElement (segment : ElementSegment) : Build (List RefValue × Option (Nat × Nat)) := do
  let values ← Fallible.read fun s => .ok (instanceGlobals self s)
  let items ← evalItems rt m self segment.init values
  match segment.mode with
  | .active table offset => do
      let cell ← Fallible.read fun s =>
        match s.instances[self]?.bind fun linked => linked.tables[table]? with
        | some cell => .ok cell
        | none => .error (.trap .outOfBoundsTableAccess)
      let offset ← evalConst rt m self offset values
      let start ← Fallible.read fun _ => addressOf "non-address table offset" offset
      let size ← Fallible.read fun s => .ok ((s.tables[cell]?.map fun t => t.value.elements.length).getD 0)
      if size < start + items.length then Fallible.fail (.trap .outOfBoundsTableAccess)
      else return (items, some (cell, start))
  | _ => return (items, none)

/-- What the instance keeps of an element segment. -/
def keptItems (segment : ElementSegment) (items : List RefValue) : Option (List RefValue) :=
  match segment.mode with
  | .passive => some items
  | _ => none

def copyItems (s : Store) (items : List RefValue) : Option (Nat × Nat) → Store
  | none => s
  | some (cell, start) => { s with
      tables := s.tables.modify cell
        (Cell.map fun t => { t with elements := replaceRange t.elements start items }) }

def pushElementSegment (s : Store) (segment : Option (List RefValue)) : Store :=
  { s with instances := s.instances.modify self fun linked =>
      { linked with elementSegments := linked.elementSegments ++ [segment] } }

def initElement (segment : ElementSegment) : Build Unit := do
  let (items, target) ← planElement rt m self segment
  Fallible.update fun s => pushElementSegment self (copyItems s items target) (keptItems segment items)

/-- The memory cell the bytes of an active data segment go to and where they
start. -/
def planData (segment : DataSegment) : Build (Option (Nat × Nat)) :=
  match segment.mode with
  | .active memory offset => do
      let cell ← Fallible.read fun s =>
        match s.instances[self]?.bind fun linked => linked.memories[memory]? with
        | some cell => .ok cell
        | none => .error (.trap .outOfBoundsMemoryAccess)
      let values ← Fallible.read fun s => .ok (instanceGlobals self s)
      let offset ← evalConst rt m self offset values
      let start ← Fallible.read fun _ => addressOf "non-address data offset" offset
      let size ← Fallible.read fun s => .ok ((s.memories[cell]?.map fun t => t.value.bytes.length).getD 0)
      if size < start + segment.bytes.length then Fallible.fail (.trap .outOfBoundsMemoryAccess)
      else return some (cell, start)
  | .passive => return none

/-- What the instance keeps of a data segment. -/
def keptBytes (segment : DataSegment) : Option (List UInt8) :=
  match segment.mode with
  | .passive => some segment.bytes
  | _ => none

def copyBytes (s : Store) (bytes : List UInt8) : Option (Nat × Nat) → Store
  | none => s
  | some (cell, start) => { s with
      memories := s.memories.modify cell
        (Cell.map fun t => { t with bytes := replaceRange t.bytes start bytes }) }

def pushDataSegment (s : Store) (segment : Option (List UInt8)) : Store :=
  { s with instances := s.instances.modify self fun linked =>
      { linked with dataSegments := linked.dataSegments ++ [segment] } }

def initData (segment : DataSegment) : Build Unit := do
  let target ← planData rt m self segment
  Fallible.update fun s => pushDataSegment self (copyBytes s segment.bytes target) (keptBytes segment)

def runStart : Build Unit :=
  match m.start with
  | none => pure ()
  | some index => do
      let target ← Fallible.read fun s =>
        match s.instances[self]?.bind fun linked => linked.funcs[index]? with
        | some target => .ok target
        | none => .error (.trap .unknownFunction)
      Fallible.step fun s => ((rt.runTarget s target).1, s.run (rt.runTarget s target).2)

def defaultDepthLimit : Nat := 4096

/-- The cells of an instance, its imports checked. -/
def allocate (links : Links) : Build Linked := do
  let tags ← m.tags.foldlM (declareTag self m) links.tags
  let tables ← m.tables.foldlM (declareTable rt m self links.globals) links.tables
  let memories ← m.memories.foldlM declareMemory links.memories
  let globals ← m.globals.foldlM (declareGlobal rt m self) links.globals
  return {
    module := m
    funcs := links.funcs ++ (List.range m.functions.length).map (.owned self)
    tags := tags
    depthLimit := defaultDepthLimit
    tables := tables
    globals := globals
    memories := memories
    elementSegments := []
    dataSegments := [] }

/-- The instance is in the store before its segments are copied. -/
def initSegments (linked : Linked) : Build Unit := do
  Fallible.update fun s => { s with instances := s.instances ++ [linked] }
  m.elements.forM (initElement rt m self)
  m.data.forM (initData rt m self)

end Instantiate

/-- An instance of a module, its start function not yet run. -/
def prepare (rt : Runtime) (m : Module) (resolve : Nat → Option ExternVal) : Build Nat := do
  let self ← Fallible.read fun s => .ok s.instances.length
  let links ← Fallible.read fun s => linkImports s m resolve
  let linked ← allocate rt m self links
  initSegments rt m self linked
  return self

/-- Instantiate a module; the id of the instance. -/
def instantiate (rt : Runtime) (m : Module) (resolve : Nat → Option ExternVal) : Build Nat := do
  let self ← prepare rt m resolve
  runStart rt m self
  return self

/-! ## What evaluation keeps -/

section Keeps

open Fallible (Keeps)

/-- A property of stores that new objects do not change. -/
def IgnoresObjects (P : Store → Prop) : Prop :=
  ∀ s object, P s → P { s with objects := s.objects ++ [object] }

variable {P : Store → Prop} (hP : IgnoresObjects P) {rt : Runtime} {m : Module} {self : Nat}

include hP

theorem keeps_evalConst (expr : List Instr) (values : List Value) :
    Keeps P (evalConst rt m self expr values) := by
  have hinstr : ∀ stack instr, Keeps P (constInstr rt m self values stack instr) := by
    intro stack instr
    unfold constInstr
    split
    · exact (Keeps.read _).bind fun p => Keeps.bind (fun s h => hP s p.1 h) fun _ => Keeps.pure _
    · exact Keeps.read _
  have hexpr : Keeps P (evalInstrs rt m self values expr) := by
    refine (Keeps.foldlM (fun stack instr _ => hinstr stack instr) _).bind fun stack => ?_
    split
    · exact Keeps.pure _
    · exact Keeps.fail _
  exact hexpr.mapFailure

theorem keeps_evalRefConst (expr : List Instr) (values : List Value) :
    Keeps P (evalRefConst rt m self expr values) := by
  refine (keeps_evalConst hP expr values).bind fun v => ?_
  split
  · exact Keeps.pure _
  · exact Keeps.fail _

theorem keeps_tableInit (globals : List Nat) (init : Option (List Instr)) :
    Keeps P (tableInit rt m self globals init) := by
  cases init with
  | none => exact Keeps.pure _
  | some expr => exact fun s h => keeps_evalRefConst hP expr _ s h

theorem keeps_planElement (segment : ElementSegment) :
    Keeps P (planElement rt m self segment) := by
  refine (Keeps.read _).bind fun values => ?_
  have hitems : Keeps P (evalItems rt m self segment.init values) :=
    Keeps.mapM fun item _ => keeps_evalRefConst hP item values
  refine hitems.bind fun items => ?_
  split
  · refine (Keeps.read _).bind fun cell => (keeps_evalConst hP _ values).bind fun offset => ?_
    refine (Keeps.read _).bind fun start => (Keeps.read _).bind fun size => ?_
    split
    · exact Keeps.fail _
    · exact Keeps.pure _
  · exact Keeps.pure _

theorem keeps_planData (segment : DataSegment) : Keeps P (planData rt m self segment) := by
  unfold planData
  split
  · refine (Keeps.read _).bind fun cell => (Keeps.read _).bind fun values => ?_
    refine (keeps_evalConst hP _ values).bind fun offset => ?_
    refine (Keeps.read _).bind fun start => (Keeps.read _).bind fun size => ?_
    split
    · exact Keeps.fail _
    · exact Keeps.pure _
  · exact Keeps.pure _

end Keeps

/-! ## Runs -/

/-- What a host does to a store: registrations, instantiations, and running
code of it. -/
inductive Op where
  | hostFunc (ty : FuncType) (token : Option Nat)
  | tag (ty : FuncType)
  | global (ty : GlobalType) (value : Value)
  | memory (ty : MemType)
  | table (ty : TableType) (init : RefValue)
  | instantiate (m : Module) (resolve : Nat → Option ExternVal)
  | run (effects : List Effect)

def Op.apply (rt : Runtime) (s : Store) : Op → Store
  | .hostFunc ty token => s.hostFunc ty token
  | .tag ty => s.tag ty
  | .global ty value => s.global ty value
  | .memory ty => s.memory ty
  | .table ty init => s.table ty init
  | .instantiate m resolve => (Linking.instantiate rt m resolve s).2
  | .run effects => s.run effects

/-- The store after some operations, from the empty one. -/
def after (rt : Runtime) (ops : List Op) : Store :=
  ops.foldl (Op.apply rt) .empty

end Slag.Wasm.Linking
