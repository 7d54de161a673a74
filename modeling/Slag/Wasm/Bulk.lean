import Slag.Lib.LittleEndian
import Slag.Wasm.Linking

/-!
The bulk instructions on memories, tables and arrays. Lengths and offsets are
unsigned 64-bit numbers, and an access outside a vector is a panic.
-/

namespace Slag.Wasm.Linking.Bulk

/-- The operands and the store of a running function. -/
structure Exec where
  stack : List Value
  store : Store

inductive Stop where
  | fail (fail : ExecFail)
  | panic
  deriving DecidableEq, Repr

abbrev Step (α : Type) : Type :=
  Fallible Exec Stop α

def trap {α : Type} (t : Trap) : Step α :=
  Fallible.fail (.fail (.trap t))

def unsupported {α : Type} (message : String) : Step α :=
  Fallible.fail (.fail (.unsupported message))

def pop : Step Value :=
  Fallible.step fun e =>
    match e.stack with
    | [] => (.error (.fail (.trap .unreachable)), e)
    | v :: stack => (.ok v, { e with stack := stack })

def popI32 : Step Nat := do
  match ← pop with
  | .i32 v => return v.toNat
  | _ => trap .unreachable

def popI64 : Step Nat := do
  match ← pop with
  | .i64 v => return v.toNat
  | _ => trap .unreachable

/-- An operand of one of the two widths. -/
def popWide (wide : Bool) : Step Nat :=
  if wide then popI64 else popI32

def popArray (message : String) : Step Nat := do
  match ← pop with
  | .ref (.array id) => return id
  | .ref .null => trap .nullArrayReference
  | .ref _ => unsupported message
  | _ => unsupported "non-reference array operand"

def popArrayRef : Step Nat :=
  popArray "array operand is not an array"

def checkedAdd (a b : Nat) : Option Nat :=
  if a + b < 2 ^ 64 then some (a + b) else none

def checkedMul (a b : Nat) : Option Nat :=
  if a * b < 2 ^ 64 then some (a * b) else none

/-! ## Vectors -/

section Vectors

variable {α : Type}

def index (l : List α) (i : Nat) : Step α :=
  match l[i]? with
  | some a => pure a
  | none => Fallible.fail .panic

def slice (l : List α) (start finish : Nat) : Step (List α) :=
  if start ≤ finish ∧ finish ≤ l.length then pure ((l.drop start).take (finish - start))
  else Fallible.fail .panic

/-- The vector with other elements in a range of theirs. -/
def patch (l : List α) (at_ : Nat) (new : List α) : List α :=
  l.take at_ ++ new ++ l.drop (at_ + new.length)

def copyFromSlice (l : List α) (start finish : Nat) (source : List α) : Step (List α) :=
  if start ≤ finish ∧ finish ≤ l.length ∧ source.length = finish - start then
    pure (patch l start source)
  else Fallible.fail .panic

def fill (l : List α) (start finish : Nat) (a : α) : Step (List α) :=
  if start ≤ finish ∧ finish ≤ l.length then pure (patch l start (List.replicate (finish - start) a))
  else Fallible.fail .panic

def copyWithin (l : List α) (start finish dst : Nat) : Step (List α) :=
  if start ≤ finish ∧ finish ≤ l.length ∧ dst + (finish - start) ≤ l.length then
    pure (patch l dst ((l.drop start).take (finish - start)))
  else Fallible.fail .panic

end Vectors

/-! ## The store -/

def setBytes (cell : Nat) (bytes : List UInt8) (s : Store) : Store :=
  { s with memories := s.memories.modify cell (Cell.map fun m => { m with bytes := bytes }) }

def setElements (cell : Nat) (elements : List RefValue) (s : Store) : Store :=
  { s with tables := s.tables.modify cell (Cell.map fun t => { t with elements := elements }) }

def setArray (id : Nat) (cells : List Value) (s : Store) : Store :=
  { s with objects := s.objects.modify id fun o => { o with data := .array cells } }

/-- What is indexed in the store. -/
def indexed {α : Type} (f : Store → List α) (i : Nat) : Step α :=
  Fallible.withState fun e => index (f e.store) i

def write (f : Store → Store) : Step Unit :=
  Fallible.update fun e => { e with store := f e.store }

def memCell (inst memory : Nat) : Step Nat := do
  let linked ← indexed Store.instances inst
  match linked.memories[memory]? with
  | some cell => return cell
  | none => unsupported "no memory"

def memoryIs64 (inst memory : Nat) : Step Bool := do
  let cell ← memCell inst memory
  let ty ← indexed Store.memoryTypes cell
  return ty.memory64

def popMemAddr (inst memory : Nat) : Step Nat := do
  popWide (← memoryIs64 inst memory)

/-- Whether the length of a copy is wide: the second memory is looked at only where the
first is. -/
def memoriesAre64 (inst dstMemory srcMemory : Nat) : Step Bool := do
  if ← memoryIs64 inst dstMemory then memoryIs64 inst srcMemory else return false

def bytesOf (cell : Nat) : Step (List UInt8) := do
  let memory ← indexed Store.memories cell
  return memory.value.bytes

def tableCell (inst table : Nat) : Step Nat := do
  let linked ← indexed Store.instances inst
  match linked.tables[table]? with
  | some cell => return cell
  | none => trap .outOfBoundsTableAccess

def tableIs64 (inst table : Nat) : Step Bool := do
  let cell ← tableCell inst table
  let ty ← indexed Store.tableTypes cell
  return ty.table64

def popTableAddr (inst table : Nat) : Step Nat := do
  popWide (← tableIs64 inst table)

def tablesAre64 (inst dstTable srcTable : Nat) : Step Bool := do
  if ← tableIs64 inst dstTable then tableIs64 inst srcTable else return false

def elementsOf (cell : Nat) : Step (List RefValue) := do
  let table ← indexed Store.tables cell
  return table.value.elements

/-! ## Memories -/

section Instructions

-- The instance of the running function.
variable (inst : Nat)

def memoryInit (dataIndex memory : Nat) : Step Unit := do
  let len ← popI32
  let src ← popI32
  let cell ← memCell inst memory
  let dst ← popMemAddr inst memory
  let linked ← indexed Store.instances inst
  match linked.dataSegments[dataIndex]? with
  | none => trap .outOfBoundsMemoryAccess
  | some segment =>
      let source := segment.getD []
      let bytes ← bytesOf cell
      if (checkedAdd dst len).any (· ≤ bytes.length) && (checkedAdd src len).any (· ≤ source.length) then
        let part ← slice source src (src + len)
        let bytes ← copyFromSlice bytes dst (dst + len) part
        write (setBytes cell bytes)
      else trap .outOfBoundsMemoryAccess

def memoryCopy (dstMemory srcMemory : Nat) : Step Unit := do
  let len ← popWide (← memoriesAre64 inst dstMemory srcMemory)
  let src ← popMemAddr inst srcMemory
  let dst ← popMemAddr inst dstMemory
  let dstCell ← memCell inst dstMemory
  let srcCell ← memCell inst srcMemory
  let dstBytes ← bytesOf dstCell
  let srcBytes ← bytesOf srcCell
  if (checkedAdd dst len).all (dstBytes.length < ·) || (checkedAdd src len).all (srcBytes.length < ·) then
    trap .outOfBoundsMemoryAccess
  else if dstCell = srcCell then
    let bytes ← copyWithin dstBytes src (src + len) dst
    write (setBytes dstCell bytes)
  else
    let source ← slice srcBytes src (src + len)
    let bytes ← copyFromSlice dstBytes dst (dst + len) source
    write (setBytes dstCell bytes)

def memoryFill (memory : Nat) : Step Unit := do
  let cell ← memCell inst memory
  let len ← popMemAddr inst memory
  let value ← popI32
  let dst ← popMemAddr inst memory
  let bytes ← bytesOf cell
  if (checkedAdd dst len).all (bytes.length < ·) then trap .outOfBoundsMemoryAccess
  else
    let bytes ← fill bytes dst (dst + len) (UInt8.ofNat value)
    write (setBytes cell bytes)

/-! ## Tables -/

def tableInit (elementIndex table : Nat) : Step Unit := do
  let len ← popI32
  let src ← popI32
  let dst ← popTableAddr inst table
  let cell ← tableCell inst table
  let linked ← indexed Store.instances inst
  match linked.elementSegments[elementIndex]? with
  | none => trap .outOfBoundsTableAccess
  | some segment =>
      let source := segment.getD []
      let elements ← elementsOf cell
      if (checkedAdd dst len).any (· ≤ elements.length) &&
          (checkedAdd src len).any (· ≤ source.length) then
        let part ← slice source src (src + len)
        let elements ← copyFromSlice elements dst (dst + len) part
        write (setElements cell elements)
      else trap .outOfBoundsTableAccess

def tableCopy (dstTable srcTable : Nat) : Step Unit := do
  let len ← popWide (← tablesAre64 inst dstTable srcTable)
  let src ← popTableAddr inst srcTable
  let dst ← popTableAddr inst dstTable
  let dstCell ← tableCell inst dstTable
  let srcCell ← tableCell inst srcTable
  let dstElements ← elementsOf dstCell
  let srcElements ← elementsOf srcCell
  if (checkedAdd dst len).all (dstElements.length < ·) ||
      (checkedAdd src len).all (srcElements.length < ·) then
    trap .outOfBoundsTableAccess
  else if dstCell = srcCell then
    let elements ← copyWithin dstElements src (src + len) dst
    write (setElements dstCell elements)
  else
    let source ← slice srcElements src (src + len)
    let elements ← copyFromSlice dstElements dst (dst + len) source
    write (setElements dstCell elements)

def tableFill (table : Nat) : Step Unit := do
  let len ← popTableAddr inst table
  match ← pop with
  | .ref value =>
      let dst ← popTableAddr inst table
      let cell ← tableCell inst table
      let elements ← elementsOf cell
      if (checkedAdd dst len).all (elements.length < ·) then trap .outOfBoundsTableAccess
      else
        let elements ← fill elements dst (dst + len) value
        write (setElements cell elements)
  | _ => unsupported "non-reference table value"

end Instructions

/-! ## Arrays -/

/-- The cells of an array object. -/
def arrayCells (id : Nat) (message : String) : Step (List Value) := do
  let object ← indexed Store.objects id
  match object.data with
  | .array cells => return cells
  | .struct _ => unsupported message

def gcArrayLen (id : Nat) : Step Nat := do
  return (← arrayCells id "array operand is not an array").length

def gcArrayStorage (id : Nat) : Step StorageType := do
  let object ← indexed Store.objects id
  let owner ← indexed Store.instances object.owner
  match arrayElementType owner.module object.ty with
  | .ok field => return field.ty
  | .error _ => unsupported "array object layout"

def storageWidth : StorageType → Option Nat
  | .i8 => some 1
  | .i16 => some 2
  | .i32 | .f32 => some 4
  | .i64 | .f64 => some 8
  | .v128 => some 16
  | .ref _ => none

/-- The loop that puts bytes together in a word of so many bits. A shift is by the count
modulo the bits, as in a release build. -/
def gather (bits : Nat) (bytes : List UInt8) : BitVec bits :=
  (bytes.zipIdx).foldl (fun acc p => acc ||| BitVec.ofNat bits p.1.toNat <<< (8 * p.2 % bits)) 0

def dataElement (storage : StorageType) (bytes : List UInt8) (at_ : Nat) : Option Value := do
  let width ← storageWidth storage
  if at_ + width ≤ bytes.length then
    let bytes := (bytes.drop at_).take width
    let bits := gather 64 bytes
    match storage with
    | .i8 | .i16 | .i32 => some (.i32 (bits.setWidth 32))
    | .i64 => some (.i64 bits)
    | .f32 => some (.f32 (bits.setWidth 32))
    | .f64 => some (.f64 bits)
    | .v128 => some (.v128 (gather 128 bytes))
    | .ref _ => none
  else none

/-- A cell of a storage type for a value, where there is one. -/
def wrap (storage : StorageType) (v : Value) : Step Value :=
  match wrapCell storage v with
  | .ok cell => pure cell
  | .error e => Fallible.fail (.fail e)

def arrayFill : Step Unit := do
  let n ← popI32
  let value ← pop
  let start ← popI32
  let id ← popArray "array.fill of non-array"
  let storage ← gcArrayStorage id
  let cell ← wrap storage value
  let cells ← arrayCells id "array.fill of non-array"
  match checkedAdd start n with
  | none => trap .outOfBoundsArrayAccess
  | some finish =>
      if cells.length < finish then trap .outOfBoundsArrayAccess
      else
        let cells ← fill cells start finish cell
        write (setArray id cells)

def arrayCopy : Step Unit := do
  let n ← popI32
  let srcOffset ← popI32
  let src ← popArrayRef
  let dstOffset ← popI32
  let dst ← popArrayRef
  let srcLen ← gcArrayLen src
  let dstLen ← gcArrayLen dst
  match checkedAdd srcOffset n with
  | none => trap .outOfBoundsArrayAccess
  | some srcEnd =>
      match checkedAdd dstOffset n with
      | none => trap .outOfBoundsArrayAccess
      | some dstEnd =>
          if srcLen < srcEnd ∨ dstLen < dstEnd then trap .outOfBoundsArrayAccess
          else
            let values ← slice (← arrayCells src "array.copy of non-array") srcOffset srcEnd
            let cells ← arrayCells dst "array.copy of non-array"
            let cells ← copyFromSlice cells dstOffset dstEnd values
            write (setArray dst cells)

/-- One element written, or a panic. -/
def setCell (id i : Nat) (value : Value) : Step Unit := do
  let cells ← arrayCells id "array operand is not an array"
  if i < cells.length then write (setArray id (cells.set i value)) else Fallible.fail .panic

def arrayInitData (inst data : Nat) : Step Unit := do
  let n ← popI32
  let src ← popI32
  let dstOffset ← popI32
  let array ← popArrayRef
  let storage ← gcArrayStorage array
  match storageWidth storage with
  | none => unsupported "array.init_data of refs"
  | some width =>
      let len ← gcArrayLen array
      match checkedAdd dstOffset n with
      | none => trap .outOfBoundsArrayAccess
      | some dstEnd =>
          if len < dstEnd then trap .outOfBoundsArrayAccess
          else
            let linked ← indexed Store.instances inst
            let bytes := (← index linked.dataSegments data).getD []
            match (checkedMul n width).bind (checkedAdd src) with
            | none => trap .outOfBoundsMemoryAccess
            | some dataEnd =>
                if bytes.length < dataEnd then trap .outOfBoundsMemoryAccess
                else
                  (List.range n).forM fun i =>
                    match dataElement storage bytes (src + i * width) with
                    | none => unsupported "array.init_data element read"
                    | some value => do setCell array (dstOffset + i) (← wrap storage value)

def arrayInitElem (inst elem : Nat) : Step Unit := do
  let n ← popI32
  let src ← popI32
  let dstOffset ← popI32
  let array ← popArrayRef
  let len ← gcArrayLen array
  match checkedAdd dstOffset n with
  | none => trap .outOfBoundsArrayAccess
  | some dstEnd =>
      if len < dstEnd then trap .outOfBoundsArrayAccess
      else
        let linked ← indexed Store.instances inst
        let items := (← index linked.elementSegments elem).getD []
        match checkedAdd src n with
        | none => trap .outOfBoundsTableAccess
        | some srcEnd =>
            if items.length < srcEnd then trap .outOfBoundsTableAccess
            else
              (List.range n).forM fun i => do
                setCell array (dstOffset + i) (.ref (← index items (src + i)))

end Slag.Wasm.Linking.Bulk
