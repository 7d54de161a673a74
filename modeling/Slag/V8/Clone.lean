import Mathlib.Data.Nat.Digits.Defs
import Slag.Lib.LittleEndian

/-!
The structured clone: a walk over a heap graph that writes each object once
and refers to it by number from then on, and the readers that build the graph
again. Host objects go through the default delegate, which refuses them.
-/

namespace Slag.V8

open LittleEndian

abbrev Bytes := List UInt8

abbrev Units := List UInt16

abbrev Ref := Nat

def headerTag : UInt8 := 0xFF
def wireFormatVersion : UInt8 := 1
def tagHole : UInt8 := 0x00
def tagUndefined : UInt8 := 0x01
def tagNull : UInt8 := 0x02
def tagTrue : UInt8 := 0x03
def tagFalse : UInt8 := 0x04
def tagNumber : UInt8 := 0x05
def tagString : UInt8 := 0x06
def tagBigInt : UInt8 := 0x07
def tagReference : UInt8 := 0x08
def tagArray : UInt8 := 0x09
def tagObject : UInt8 := 0x0A
def tagMap : UInt8 := 0x0B
def tagSet : UInt8 := 0x0C
def tagDate : UInt8 := 0x0D
def tagRegExp : UInt8 := 0x0E
def tagArrayBuffer : UInt8 := 0x0F
def tagTransferArrayBuffer : UInt8 := 0x10
def tagSharedArrayBuffer : UInt8 := 0x11
def tagArrayBufferView : UInt8 := 0x12
def tagHostObject : UInt8 := 0x13

/-- The bits of a double; a value never holds the NaNs that mark other kinds. -/
def Double := { bits : UInt64 // bits.toNat / 2 ^ 48 ≠ 0x7FF8 }
deriving DecidableEq

/-- A colliding quiet NaN is boxed as the canonical one. -/
def Double.box (bits : UInt64) : Double :=
  if h : bits.toNat / 2 ^ 48 = 0x7FF8 then ⟨0x7FF9000000000000, by decide⟩ else ⟨bits, h⟩

inductive Value
  | undefined
  | null
  | boolean (b : Bool)
  | number (n : Double)
  | string (units : Units)
  | bigInt (n : Int)
  | object (ref : Ref)
deriving DecidableEq

inductive ElementType
  | int8 | uint8 | uint8Clamped | int16 | uint16 | int32 | uint32 | float16 | float32 | float64
  | bigInt64 | bigUint64
deriving DecidableEq, Repr

def ElementType.size : ElementType → Nat
  | .int8 | .uint8 | .uint8Clamped => 1
  | .int16 | .uint16 | .float16 => 2
  | .int32 | .uint32 | .float32 => 4
  | .float64 | .bigInt64 | .bigUint64 => 8

/-- The wire tag of an element type; a `DataView` has none and is 0. -/
def elementKind : Option ElementType → UInt8
  | none => 0
  | some .int8 => 1
  | some .uint8 => 2
  | some .uint8Clamped => 3
  | some .int16 => 4
  | some .uint16 => 5
  | some .int32 => 6
  | some .uint32 => 7
  | some .float16 => 8
  | some .float32 => 9
  | some .float64 => 10
  | some .bigInt64 => 11
  | some .bigUint64 => 12

/-- Which constructor makes a view of a kind. -/
def elementConstructor (kind : UInt8) : Option (Option ElementType) :=
  if kind = 0 then some none
  else if kind = 1 then some (some .int8)
  else if kind = 2 then some (some .uint8)
  else if kind = 3 then some (some .uint8Clamped)
  else if kind = 4 then some (some .int16)
  else if kind = 5 then some (some .uint16)
  else if kind = 6 then some (some .int32)
  else if kind = 7 then some (some .uint32)
  else if kind = 8 then some (some .float16)
  else if kind = 9 then some (some .float32)
  else if kind = 10 then some (some .float64)
  else if kind = 11 then some (some .bigInt64)
  else if kind = 12 then some (some .bigUint64)
  else none

/-- An object: own elements with holes, own enumerable properties in key order,
the live entries of a collection, or the record behind a brand. -/
inductive Obj
  | array (elements : List (Option Value))
  | plain (entries : List (Units × Value))
  | map (entries : List (Value × Value))
  | set (elements : List Value)
  | date (time : UInt64)
  | regExp (source flags : Units)
  | arrayBuffer (bytes : Bytes)
  | view (kind : Option ElementType) (offset length : Nat) (buffer : Ref)
  | uncloneable
deriving DecidableEq

abbrev Heap := List Obj

section Write

variable (heap : Heap) (transfers : Ref → Option Nat)

/-- A count or a length that a `u32` holds. -/
def word (n : Nat) : Option Bytes := if n < 2 ^ 32 then some (put 4 n) else none

def putString (units : Units) : Option Bytes := do
  return tagString :: (← word units.length) ++ units.flatMap fun unit => put 2 unit.toNat

def writeBigInt (n : Int) : Option Bytes := do
  let words := Nat.digits (2 ^ 64) n.natAbs
  return [tagBigInt, if n < 0 then 1 else 0] ++ (← word words.length) ++ words.flatMap (put 8)

/-- The objects numbered so far, and the bytes a value has put. -/
abbrev Written := List Ref × Bytes

/-- Elements, or keys and values in turn; a hole is its own tag. -/
def writeItems (write : List Ref → Value → Option Written) :
    List Ref → List (Option Value) → Option Written
  | memo, [] => some (memo, [])
  | memo, none :: items => do
      let (memo, rest) ← writeItems write memo items
      return (memo, tagHole :: rest)
  | memo, some v :: items => do
      let (memo, bytes) ← write memo v
      let (memo, rest) ← writeItems write memo items
      return (memo, bytes ++ rest)

def Obj.items : Obj → List (Option Value)
  | .array elements => elements
  | .plain entries => entries.flatMap fun e => [some (.string e.1), some e.2]
  | .map entries => entries.flatMap fun e => [some e.1, some e.2]
  | .set elements => elements.map some
  | _ => []

def writeContainer (write : List Ref → Value → Option Written) (memo : List Ref) (tag : UInt8)
    (count : Nat) (o : Obj) : Option Written := do
  let (memo, bytes) ← writeItems write memo o.items
  return (memo, tag :: put 4 count ++ bytes)

/-- An object that has not been written yet. -/
def writeObject (write : List Ref → Value → Option Written) (memo : List Ref) (ref : Ref) :
    Obj → Option Written
  | .array elements => writeContainer write memo tagArray elements.length (.array elements)
  | .plain entries => writeContainer write memo tagObject entries.length (.plain entries)
  | .map entries => writeContainer write memo tagMap entries.length (.map entries)
  | .set elements => writeContainer write memo tagSet elements.length (.set elements)
  | .date time => some (memo, tagDate :: put 8 time.toNat)
  | .regExp source flags => do
      return (memo, tagRegExp :: (← putString source) ++ (← putString flags))
  | .arrayBuffer bytes =>
      match transfers ref with
      | some id => some (memo, tagTransferArrayBuffer :: put 4 id)
      | none => do return (memo, tagArrayBuffer :: (← word bytes.length) ++ bytes)
  | .view kind offset length buffer => do
      let range := (← word offset) ++ (← word length)
      let (memo, bytes) ← write memo (.object buffer)
      return (memo, [tagArrayBufferView, elementKind kind] ++ range ++ bytes)
  | .uncloneable => none

def writeValue : Nat → List Ref → Value → Option Written
  | 0, _, _ => none
  | fuel + 1, memo, v =>
      match v with
      | .undefined => some (memo, [tagUndefined])
      | .null => some (memo, [tagNull])
      | .boolean true => some (memo, [tagTrue])
      | .boolean false => some (memo, [tagFalse])
      | .number n => some (memo, tagNumber :: put 8 n.val.toNat)
      | .string units => (putString units).map (memo, ·)
      | .bigInt n => (writeBigInt n).map (memo, ·)
      | .object ref =>
          match memo.idxOf? ref with
          | some id => some (memo, tagReference :: put 4 id)
          | none =>
              if memo.length < 2 ^ 32 then
                heap[ref]?.bind (writeObject transfers (writeValue fuel) (memo ++ [ref]) ref)
              else none

/-- The bytes of some values, one call after another on one serializer. -/
def writeValues (values : List Value) : Option Written :=
  writeItems (writeValue heap transfers (heap.length + 1)) [] (values.map some)

/-- What a serializer releases: the header and the values. -/
def serialize (values : List Value) : Option Bytes := do
  let (_, bytes) ← writeValues heap transfers values
  return headerTag :: wireFormatVersion :: bytes

end Write

section Engine

/-- The own-key order puts array indices first. -/
def arrayIndex (key : Units) : Option Nat :=
  if key = [] ∨ (key.length ≠ 1 ∧ key.head? = some 48) then none
  else if key.all fun unit => 48 ≤ unit ∧ unit ≤ 57 then
    let n := key.foldl (fun n unit => 10 * n + (unit.toNat - 48)) 0
    if n < 2 ^ 32 - 1 then some n else none
  else none

def keyBefore (a b : Units) : Bool :=
  match arrayIndex a, arrayIndex b with
  | some i, some j => i < j
  | some _, none => true
  | none, some _ => false
  | none, none => true

/-- CreateDataProperty on a plain object. -/
def defineEntry (entries : List (Units × Value)) (key : Units) (v : Value) :
    List (Units × Value) :=
  if entries.any fun e => e.1 = key then
    entries.map fun e => if e.1 = key then (key, v) else e
  else (entries.takeWhile fun e => keyBefore e.1 key) ++ (key, v) ::
    entries.dropWhile fun e => keyBefore e.1 key

def Double.isNan (n : Double) : Bool := 0x7FF0000000000000 < n.val.toNat % 2 ^ 63

def Double.isZero (n : Double) : Bool := n.val.toNat % 2 ^ 63 = 0

def sameValueZero : Value → Value → Bool
  | .number a, .number b => a = b || (a.isNan && b.isNan) || (a.isZero && b.isZero)
  | a, b => a = b

/-- The key a collection stores: not a negative zero. -/
def normalizeKey : Value → Value
  | .number n => if n.isZero then .number (.box 0) else .number n
  | v => v

def mapSet (entries : List (Value × Value)) (key v : Value) : List (Value × Value) :=
  if entries.any fun e => sameValueZero e.1 key then
    entries.map fun e => if sameValueZero e.1 key then (e.1, v) else e
  else entries ++ [(normalizeKey key, v)]

def setAdd (elements : List Value) (v : Value) : List Value :=
  if elements.any fun e => sameValueZero e v then elements else elements ++ [normalizeKey v]

/-- TimeClip, on the bits: out of range or NaN is NaN, else the integral part
with no negative zero. -/
def timeClip (time : UInt64) : UInt64 :=
  let magnitude := time.toNat % 2 ^ 63
  if 0x433EB208C2DC0000 < magnitude then 0x7FF8000000000000
  else if magnitude / 2 ^ 52 < 1023 then 0
  else
    let fraction := 2 ^ (1075 - magnitude / 2 ^ 52)
    .ofNat (time.toNat / fraction * fraction)

/-- The checks of the view constructors. -/
def viewFits (kind : Option ElementType) (offset length available : Nat) : Bool :=
  match kind with
  | none => offset + length ≤ available
  | some type => offset % type.size = 0 && offset + length * type.size ≤ available

/-- What the readers ask of the realm and the host: the RegExp constructor, and
the buffers registered under a transfer id. -/
structure Engine where
  regExp : Value → Value → Option (Units × Units)
  transfers : Nat → Option Value
  sharedTransfers : Nat → Option Value

end Engine

section Read

/-- The bytes from the position on, the objects by number, and the heap that is
built. -/
structure Reader where
  rest : Bytes
  memo : List (Option Value)
  heap : Heap

/-- A reader's step; a failed one leaves its state as far as it came. -/
abbrev Read (F α : Type) := Reader → Except F α × Reader

variable {F α β : Type}

instance : Monad (Read F) where
  pure a := fun s => (.ok a, s)
  bind m k := fun s =>
    match m s with
    | (.ok a, s) => k a s
    | (.error e, s) => (.error e, s)

theorem bind_ok {m : Read F α} {k : α → Read F β} {s s' : Reader} {a : α}
    (h : m s = (.ok a, s')) : (m >>= k) s = k a s' := by
  simp only [bind, h]

theorem bind_error {m : Read F α} {k : α → Read F β} {s s' : Reader} {e : F}
    (h : m s = (.error e, s')) : (m >>= k) s = (.error e, s') := by
  simp only [bind, h]

/-- How a failure is reported, and what an array makes of an element that was
read or was not. -/
structure Policy (F : Type) where
  bad : F
  element : Read F Value → Read F (Option Value)

variable (P : Policy F) (engine : Engine)

def malformed : Read F α := fun s => (.error P.bad, s)

def expect : Option α → Read F α
  | some a => pure a
  | none => malformed P

def take (length : Nat) : Read F Bytes := fun s =>
  if length ≤ s.rest.length then
    (.ok (s.rest.take length), { s with rest := s.rest.drop length })
  else (.error P.bad, s)

def takeU8 : Read F UInt8 := do return (← take P 1).headD 0

def takeU32 : Read F Nat := do return get (← take P 4)

def takeU64 : Read F Nat := do return get (← take P 8)

def takeUnits : Nat → Read F Units
  | 0 => pure []
  | count + 1 => do
      let unit ← take P 2
      return .ofNat (get unit) :: (← takeUnits count)

def takeWords : Nat → Read F (List Nat)
  | 0 => pure []
  | count + 1 => do
      let word ← takeU64 P
      return word :: (← takeWords count)

/-- An id for an object about to be read. -/
def reserve : Read F Nat := fun s =>
  if s.memo.length < 2 ^ 32 then (.ok s.memo.length, { s with memo := s.memo ++ [none] })
  else (.error P.bad, s)

def fill (id : Nat) (v : Value) : Read F Unit := fun s =>
  (.ok (), { s with memo := s.memo.set id (some v) })

def referenced (id : Nat) : Read F Value := fun s => expect P (s.memo[id]?.join) s

def alloc (o : Obj) : Read F Ref := fun s =>
  (.ok s.heap.length, { s with heap := s.heap ++ [o] })

def update (ref : Ref) (h : Obj → Obj) : Read F Unit := fun s =>
  (.ok (), { s with heap := s.heap.modify ref h })

/-- An object that is referred to while its parts are read. -/
def begin (o : Obj) : Read F Ref := do
  let id ← reserve P
  let ref ← alloc o
  fill id (.object ref)
  return ref

def finish (id : Nat) (o : Obj) : Read F Value := do
  let ref ← alloc o
  fill id (.object ref)
  return .object ref

def readString : Read F Value := do
  let length ← takeU32 P
  return .string (← takeUnits P length)

def readBigInt : Read F Value := do
  let negative := (← takeU8 P) ≠ 0
  let words ← takeWords P (← takeU32 P)
  let magnitude : Nat := Nat.ofDigits (2 ^ 64) words
  return .bigInt (if negative then -magnitude else magnitude)

def repeatRead (step : Nat → Read F Unit) : Nat → Nat → Read F Unit
  | _, 0 => pure ()
  | index, count + 1 => do
      step index
      repeatRead step (index + 1) count

def Obj.setElement (index : Nat) (v : Value) : Obj → Obj
  | .array elements => .array (elements.set index (some v))
  | o => o

def Obj.setLength (length : Nat) : Obj → Obj
  | .array _ => .array (List.replicate length none)
  | o => o

def readArray (element : Read F (Option Value)) : Read F Value := do
  let length ← takeU32 P
  let ref ← begin P (.array [])
  update ref (Obj.setLength length)
  repeatRead (fun index => do
    match ← element with
    | some v => update ref (Obj.setElement index v)
    | none => pure ()) 0 length
  return .object ref

def Obj.define (key : Units) (v : Value) : Obj → Obj
  | .plain entries => .plain (defineEntry entries key v)
  | o => o

def Value.asName : Value → Option Units
  | .string units => some units
  | _ => none

def readObject (nested : Read F Value) : Read F Value := do
  let count ← takeU32 P
  let ref ← begin P (.plain [])
  repeatRead (fun _ => do
    let key ← nested
    let entry ← nested
    let name ← expect P key.asName
    update ref (Obj.define name entry)) 0 count
  return .object ref

def Obj.mapSet (key v : Value) : Obj → Obj
  | .map entries => .map (V8.mapSet entries key v)
  | o => o

def readMap (nested : Read F Value) : Read F Value := do
  let count ← takeU32 P
  let ref ← begin P (.map [])
  repeatRead (fun _ => do
    let key ← nested
    let entry ← nested
    update ref (Obj.mapSet key entry)) 0 count
  return .object ref

def Obj.setAdd (v : Value) : Obj → Obj
  | .set elements => .set (V8.setAdd elements v)
  | o => o

def readSet (nested : Read F Value) : Read F Value := do
  let count ← takeU32 P
  let ref ← begin P (.set [])
  repeatRead (fun _ => do
    let element ← nested
    update ref (Obj.setAdd element)) 0 count
  return .object ref

def readDate : Read F Value := do
  let id ← reserve P
  let time ← takeU64 P
  finish id (.date (timeClip (Double.box (.ofNat time)).val))

def readRegExp (nested : Read F Value) : Read F Value := do
  let id ← reserve P
  let source ← nested
  let flags ← nested
  let (source, flags) ← expect P (engine.regExp source flags)
  finish id (.regExp source flags)

def readArrayBuffer : Read F Value := do
  let id ← reserve P
  let length ← takeU32 P
  finish id (.arrayBuffer (← take P length))

def readRegistered (registered : Nat → Option Value) : Read F Value := do
  let id ← reserve P
  let v ← expect P (registered (← takeU32 P))
  fill id v
  return v

/-- The length of the array buffer a value is. -/
def Reader.bufferLength (s : Reader) : Value → Option (Ref × Nat)
  | .object ref =>
      match s.heap[ref]? with
      | some (.arrayBuffer bytes) => some (ref, bytes.length)
      | _ => none
  | _ => none

def asBuffer (v : Value) : Read F (Ref × Nat) := fun s => expect P (s.bufferLength v) s

def readView (nested : Read F Value) : Read F Value := do
  let id ← reserve P
  let kind ← takeU8 P
  let offset ← takeU32 P
  let length ← takeU32 P
  let (buffer, available) ← asBuffer P (← nested)
  let kind ← expect P (elementConstructor kind)
  if viewFits kind offset length available then finish id (.view kind offset length buffer)
  else malformed P

def readHostObject : Read F Value := do
  let _ ← reserve P
  malformed P

/-- A value whose tag has been taken. -/
def readWithTag : Nat → UInt8 → Read F Value
  | 0, _ => malformed P
  | fuel + 1, tag =>
      let nested : Read F Value := do readWithTag fuel (← takeU8 P)
      let element : Read F (Option Value) := do
        let tag ← takeU8 P
        if tag = tagHole then return none
        P.element (readWithTag fuel tag)
      if tag = tagUndefined then pure .undefined
      else if tag = tagNull then pure .null
      else if tag = tagTrue then pure (.boolean true)
      else if tag = tagFalse then pure (.boolean false)
      else if tag = tagNumber then do return .number (.box (.ofNat (← takeU64 P)))
      else if tag = tagString then readString P
      else if tag = tagBigInt then readBigInt P
      else if tag = tagReference then do referenced P (← takeU32 P)
      else if tag = tagArray then readArray P element
      else if tag = tagObject then readObject P nested
      else if tag = tagMap then readMap P nested
      else if tag = tagSet then readSet P nested
      else if tag = tagDate then readDate P
      else if tag = tagRegExp then readRegExp P engine nested
      else if tag = tagArrayBuffer then readArrayBuffer P
      else if tag = tagTransferArrayBuffer then readRegistered P engine.transfers
      else if tag = tagSharedArrayBuffer then readRegistered P engine.sharedTransfers
      else if tag = tagArrayBufferView then readView P nested
      else if tag = tagHostObject then readHostObject P
      else malformed P

def readInner (fuel : Nat) : Read F Value := do readWithTag P engine fuel (← takeU8 P)

/-- The header is read before the first value. -/
def readHeader : Read F Unit := do
  if (← takeU8 P) ≠ headerTag then malformed P
  if wireFormatVersion < (← takeU8 P) then malformed P

/-- So many values, one call after another on one deserializer. -/
def readValues (fuel : Nat) : Nat → Read F (List Value)
  | 0 => pure []
  | count + 1 => do
      let v ← readInner P engine fuel
      return v :: (← readValues fuel count)

end Read

/-- `read_element` answers a hole for an element that could not be read. -/
def asWritten : Policy Unit where
  bad := ()
  element m := fun s =>
    match m s with
    | (.ok v, s) => (.ok (some v), s)
    | (.error _, s) => (.ok none, s)

/-- The deserializer over some bytes, with the objects the host has registered. -/
def Reader.start (bytes : Bytes) (heap : Heap) : Reader := ⟨bytes, [], heap⟩

/-- So many calls of `read_value` on one deserializer; none when one fails. -/
def deserialize (engine : Engine) (heap : Heap) (bytes : Bytes) (count : Nat) :
    Option (List Value) × Reader :=
  match (do readHeader asWritten; readValues asWritten engine (bytes.length + 1) count : Read Unit _)
      (.start bytes heap) with
  | (.ok values, s) => (some values, s)
  | (.error _, s) => (none, s)

/-- One call of `read_value`. -/
def readValue (engine : Engine) (heap : Heap) (bytes : Bytes) : Option Value :=
  ((deserialize engine heap bytes 1).1.bind List.head?)

end Slag.V8
