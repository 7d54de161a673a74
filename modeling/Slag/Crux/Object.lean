import Mathlib.Logic.Function.Basic
import Slag.Crux.Map
import Slag.Crux.Property
import Slag.Lib.AssocList

/-!
The object record and the property storage shared by every kind of object
(`object.rs`): the property vector with its lazy index, the map with the
in-object fields, the vector-free state, and the counters.

An operation takes the object together with the process-wide
`PROTOTYPE_EPOCH`, which `bump_generation` may advance. Write barriers, realms
and private elements affect no modelled answer and are left out.
-/

namespace Slag.Crux

/-- Capacity of the in-object fields. -/
def inlineFields : Nat := 8

/-- Property count from which lookups go through the lazy index. -/
def indexThreshold : Nat := 16

inductive ErrorKind
  | typeError
  | rangeError
  | syntaxError
deriving DecidableEq, Repr

/-- A thrown error: the message text, with the key that it prints after the word
`property`, when it prints one. -/
structure JsError where
  kind : ErrorKind
  message : String
  key : Option PropertyKey := none
deriving DecidableEq, Repr

/-- The dense element storage of an array. `elements` is the buffer up to the
append cursor, `none` being a hole; the vector's own header may lag behind at
`vecLen`, since the cursor append does not update it. `length` only ever holds
integers. Whether the allocation has room for one more element is not state
here: the append that depends on it takes it as an input. -/
structure ArraySlots where
  elements : List (Option Value)
  vecLen : Nat
  length : Nat
  dense : Bool
deriving DecidableEq, Repr

/-- What the internal methods of a typed array see of its buffer: the decoded
elements the view covers now, and the flags that decide refusals. -/
structure TypedArraySlots where
  elements : List Value
  autoLength : Bool
  resizable : Bool
  shared : Bool
  immutable : Bool
deriving DecidableEq, Repr

structure ModuleNamespaceSlots where
  exports : List PropertyKey
  toStringTag : PropertyKey
  tag : JsString
deriving DecidableEq, Repr

/-- The parameter map of an arguments object gives the current value of the
binding behind each mapped key. `other` stands for the kinds that only have
ordinary internal methods but are not `Ordinary` themselves. -/
inductive ObjectKind
  | ordinary
  | array (slots : ArraySlots)
  | string (text : JsString)
  | arguments (parameterMap : Option (PropertyKey → Option Value))
  | integerIndexed (slots : TypedArraySlots)
  | moduleNamespace (slots : ModuleNamespaceSlots)
  | proxy
  | host
  | other

namespace ObjectKind

def isOrdinary : ObjectKind → Bool
  | .ordinary => true
  | _ => false

end ObjectKind

abbrev PropertyList := List (PropertyKey × Property)

/-- `inFields` cells hold `none` while unset. The counters are unbounded here;
the source keeps them modulo `2 ^ 32`. -/
structure JsObject where
  kind : ObjectKind
  prototype : Option ObjId
  map : Option Map
  inFields : Nat → Option Value
  extensible : Bool
  immutablePrototype : Bool
  generation : Nat
  namedVersion : Nat
  isPrototype : Bool
  storeChainClean : Nat
  properties : PropertyList
  propsDeferred : Bool
  propertyIndex : Option (PropertyKey → Option Nat)

/-- An object with the epoch its operations advance. -/
structure ObjState extends JsObject where
  epoch : Nat

/-- A freshly created object on the given map. -/
def JsObject.fresh (kind : ObjectKind) (prototype : Option ObjId) (map : Map) : JsObject :=
  { kind
    prototype
    map := some map
    inFields := fun _ => none
    extensible := true
    immutablePrototype := false
    generation := 0
    namedVersion := 0
    isPrototype := false
    storeChainClean := 0
    properties := []
    propsDeferred := false
    propertyIndex := none }

/-- Every safe access to the buffer first brings the header up to the cursor. -/
def ArraySlots.sync (slots : ArraySlots) : ArraySlots :=
  { slots with vecLen := slots.elements.length }

namespace ObjState

variable (s : ObjState)

def withSlots (slots : ArraySlots) : ObjState := { s with kind := .array slots }

def bumpGeneration : ObjState :=
  { s with
    generation := s.generation + 1
    epoch := if s.isPrototype then s.epoch + 1 else s.epoch }

def bumpNamedVersion : ObjState := { s with namedVersion := s.namedVersion + 1 }

/-- Advance the named version for a string key only. -/
def bumpNamedVersionFor (key : PropertyKey) : ObjState :=
  if key.isString then s.bumpNamedVersion else s

/-- The vector position of `key`: the lazy index from `indexThreshold` entries
on, built on first use, and a scan below. -/
def propertyPosition (key : PropertyKey) : ObjState × Option Nat :=
  if indexThreshold ≤ s.properties.length then
    match s.propertyIndex with
    | some index => (s, index key)
    | none =>
        let index := AssocList.buildIndex s.properties
        ({ s with propertyIndex := some index }, index key)
  else (s, AssocList.position s.properties key)

/-- Keep the lazy index in step with an append at `position`. -/
def indexAppended (key : PropertyKey) (position : Nat) : ObjState :=
  { s with propertyIndex := s.propertyIndex.map fun index =>
      Function.update index key (some position) }

/-- Append an entry to the vector. -/
def pushProperty (key : PropertyKey) (property : Property) : ObjState :=
  { s with properties := s.properties ++ [(key, property)] }

def setPropertyAt (position : Nat) (property : Property) : ObjState :=
  { s with properties := AssocList.setAt s.properties position property }

def mapField (slot : Nat) : Option Value :=
  if slot < inlineFields then s.inFields slot
  else (s.properties[slot]?).bind fun entry => entry.2.value

def mapGet (key : PropertyKey) : Option Value := do
  let map ← s.map
  let offset ← map.find key
  s.mapField offset

def mapSet (key : PropertyKey) (value : Value) : ObjState :=
  match s.map.bind (·.find key) with
  | none => s
  | some offset =>
      if offset < inlineFields then
        { s with inFields := Function.update s.inFields offset (some value) }
      else s

def mapAddPropertyCell (key : PropertyKey) (attrs : MapAttrs) : ObjState :=
  match s.map with
  | none => s
  | some map => bumpGeneration { s with map := some (map.addDescriptor key attrs) }

def mapTransitionAligned : Bool :=
  match s.map with
  | none => false
  | some map => s.properties.length = map.descriptorCount

/-- The map describes `key`. -/
def mapDescribes (key : PropertyKey) : Bool := (s.map.bind (·.find key)).isSome

def dropMapIfMapped (key : PropertyKey) : ObjState :=
  if s.mapDescribes key then { s with map := none } else s

/-- The descriptor's attributes are the property's own. -/
def attrsMatch (property : Property) (attrs : MapAttrs) : Bool :=
  property.writable == some attrs.writable && property.enumerable == attrs.enumerable &&
    property.configurable == attrs.configurable

def syncMapAfterDefine (key : PropertyKey) (property : Property) : ObjState :=
  if !s.kind.isOrdinary then s
  else
    match s.map with
    | none => s
    | some map =>
        if !property.isData then { s with map := none }
        else
          let value := property.value.getD .undefined
          match map.find key with
          | none =>
              if property.writable == some true && property.enumerable && property.configurable &&
                  (s.properties[map.descriptorCount]?).any (fun entry => entry.1 = key) then
                (s.mapAddPropertyCell key .all).mapSet key value
              else s
          | some ordinal =>
              if (map.descriptorAt ordinal).any (fun entry => attrsMatch property entry.attrs) then
                s.mapSet key value
              else { s with map := none }

/-- The property an object would hold under a described, written field. -/
def fieldProperty (entry : MapEntry) (value : Value) : Property :=
  .data value entry.attrs.writable entry.attrs.enumerable entry.attrs.configurable

/-- The loop of `materialize_properties`: stop at the first descriptor that is
not an in-object field, skip the fields that were never written. -/
def rebuiltProperties (map : Map) : PropertyList :=
  (map.descriptors.takeWhile fun entry => entry.offset < inlineFields).filterMap fun entry =>
    (s.inFields entry.offset).map fun value => (entry.key, fieldProperty entry value)

def materializeProperties : ObjState :=
  if !s.propsDeferred then s
  else
    match s.map with
    | none => { s with propsDeferred := false }
    | some map =>
        { s with
          propsDeferred := false
          properties := s.rebuiltProperties map
          propertyIndex := none }

/-- A described field of a vector-free object, when it is an own property. -/
def deferredLookup (key : PropertyKey) : Option Property := do
  let map ← s.map
  let ordinal ← map.find key
  let entry ← map.descriptorAt ordinal
  if inlineFields ≤ entry.offset then none
  else
    let value ← s.inFields entry.offset
    some (fieldProperty entry value)

def ordinaryPropertyLookup (key : PropertyKey) : ObjState × Option Property :=
  if s.propsDeferred then (s, s.deferredLookup key)
  else if s.properties.isEmpty then (s, none)
  else
    let (s, position) := s.propertyPosition key
    (s, position.bind fun position => (s.properties[position]?).map (·.2))

def propertySlot (key : PropertyKey) : ObjState × Option Nat :=
  s.materializeProperties.propertyPosition key

/-- The spilled or dense length an array reads for its index shortcut; `none`
is the NaN of a vector that does not start with a numeric length. -/
def storedLength : Option F64 :=
  match s.properties.head? with
  | some (_, ⟨.data value _, _, _⟩) => value.asNumber
  | _ => none

/-- `(index as f64) >= length`, false against NaN. -/
def indexReaches (index : Nat) (length : Option F64) : Bool :=
  match length with
  | some length => F64.le length (F64.ofNat index)
  | none => false

def ordinaryGetOwnProperty (key : PropertyKey) : ObjState × Option Property :=
  match s.kind with
  | .array slots =>
      if isLengthKey key then
        if slots.dense then
          (s, some (.data (.number (F64.ofNat slots.length)) true false false))
        else (s, s.properties.head?.map (·.2))
      else
        match arrayIndexOf key with
        | none => s.ordinaryPropertyLookup key
        | some index =>
            if slots.dense then
              if slots.length ≤ index then (s, none)
              else
                (s.withSlots slots.sync,
                  (slots.elements[index]?).join.map fun value => .data value true true true)
            else if indexReaches index s.storedLength then (s, none)
            else s.ordinaryPropertyLookup key
  | _ => s.ordinaryPropertyLookup key

/-- `validate_and_apply` on the object itself. -/
def validateAndApply (key : PropertyKey) (extensible : Bool) (desc : PropertyDescriptor)
    (current : Option Property) : ObjState × Bool :=
  match current with
  | none =>
      if !extensible then (s, false)
      else
        match createdProperty desc with
        | none => (s, false)
        | some property =>
            let position := s.properties.length
            let s := s.pushProperty key property
            let s := s.bumpNamedVersionFor key
            let s := s.syncMapAfterDefine key property
            (s.indexAppended key position, true)
  | some current =>
      if desc.isEmpty then (s, true)
      else if !validateCurrent desc current then (s, false)
      else
        let next := applyDescriptor desc current
        let (s, position) := s.propertyPosition key
        match position with
        | none => (s, true)
        | some position => ((s.setPropertyAt position next).syncMapAfterDefine key next, true)

def ordinaryDefineOwnProperty (key : PropertyKey) (desc : PropertyDescriptor) : ObjState × Bool :=
  let s := s.materializeProperties
  let (s, current) := s.ordinaryGetOwnProperty key
  s.validateAndApply key s.extensible desc current

def fieldWritten (ordinal : Nat) : Bool :=
  ordinal < inlineFields && (s.inFields ordinal).isSome

def higherFieldWritten (map : Map) (ordinal : Nat) : Bool :=
  (List.range' (ordinal + 1) (map.descriptorCount - (ordinal + 1))).any fun higher =>
    s.fieldWritten higher

/-- The tail of `define_fresh`: the append to the vector. -/
def appendFresh (key : PropertyKey) (value : Value) (attrs : MapAttrs) : ObjState :=
  let s :=
    if s.mapDescribes key then s.mapSet key value
    else if s.mapTransitionAligned then (s.mapAddPropertyCell key attrs).mapSet key value
    else s
  let position := s.properties.length
  let s := s.pushProperty key (.data value attrs.writable attrs.enumerable attrs.configurable)
  (s.indexAppended key position).bumpGeneration

/-- The vector-free service of `define_fresh`: write the field only. -/
def writeField (key : PropertyKey) (value : Value) : ObjState :=
  (mapSet { s with propsDeferred := true } key value).bumpGeneration

def defineFresh (key : PropertyKey) (value : Value) (attrs : MapAttrs) : ObjState × Bool :=
  if !s.kind.isOrdinary || !s.extensible then (s, false)
  else
    let s := s.bumpNamedVersionFor key
    match s.map with
    | none => (s.appendFresh key value attrs, true)
    | some map =>
        if s.propsDeferred || s.properties.isEmpty then
          match map.find key with
          | some ordinal =>
              if s.fieldWritten ordinal || !s.higherFieldWritten map ordinal then
                (s.writeField key value, true)
              else (s.materializeProperties.appendFresh key value attrs, true)
          | none =>
              if map.descriptorCount < inlineFields then
                ((s.mapAddPropertyCell key attrs).writeField key value, true)
              else (s.materializeProperties.appendFresh key value attrs, true)
        else (s.appendFresh key value attrs, true)

def freshDataDefine (key : PropertyKey) (value : Value) : ObjState × Bool :=
  s.defineFresh key value .all

/-- A written and writable field of a vector-free object takes `value` in place. -/
def deferredFieldWrite (key : PropertyKey) (value : Value) : ObjState × Bool :=
  if !s.propsDeferred then (s, false)
  else
    match s.map.bind fun map => (map.find key).bind map.descriptorAt with
    | none => (s, false)
    | some entry =>
        if inlineFields ≤ entry.offset || !entry.attrs.writable ||
            (s.inFields entry.offset).isNone then (s, false)
        else ({ s with inFields := Function.update s.inFields entry.offset (some value) }, true)

/-- The in-place update of a writable data entry, with its field mirror. -/
def writeInPlace (key : PropertyKey) (value : Value) : ObjState × Bool :=
  let (s, position) := s.propertyPosition key
  match position.bind (s.properties[·]?), position with
  | some (_, ⟨.data _ true, enumerable, configurable⟩), some position =>
      ((s.setPropertyAt position ⟨.data value true, enumerable, configurable⟩).mapSet key value,
        true)
  | _, _ => (s, false)

/-- The kinds and keys that the in-place writes serve. -/
def servesInPlace (key : PropertyKey) : Bool :=
  match s.kind with
  | .ordinary => true
  | .array _ => !isLengthKey key
  | _ => false

def writeDataProperty (key : PropertyKey) (value : Value) : ObjState × Bool :=
  if !s.servesInPlace key then (s, false)
  else
    match s.deferredFieldWrite key value with
    | (s, true) => (s, true)
    | (s, false) => s.writeInPlace key value

/-- The vector removal of OrdinaryDelete. -/
def removeOwn (key : PropertyKey) : ObjState × Bool :=
  match AssocList.position s.properties key with
  | none => (s, true)
  | some position =>
      if (s.properties[position]?).any (fun entry => entry.2.configurable) then
        let s := { s with properties := s.properties.eraseIdx position, propertyIndex := none }
        ((s.dropMapIfMapped key).bumpGeneration.bumpNamedVersion, true)
      else (s, false)

end ObjState

end Slag.Crux
