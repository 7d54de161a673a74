import Slag.Crux.Array

/-!
The internal methods of `object.rs` that the object kinds share, with the
dispatch on the kind. Where an internal method leaves this object (a trap, a
host callback, a conversion, the parent's [[Set]]), what it answers is an input
in `Outside`: the calls that user code makes meanwhile are other operations of
the same run. A call of a setter is the last thing [[Set]] does, so it is
returned as a request.
-/

namespace Slag.Crux

/-- The parts of the engine outside `object.rs` that the methods consult. -/
structure Engine where
  canonicalIndex : PropertyKey → Option F64
  isCallable : Value → Bool

/-- What the parent's [[Set]] comes to for this receiver. -/
inductive ParentSet
  | receiverWrite
  | answer (result : Except JsError Bool)

/-- Answers of code outside the object during one call. -/
structure Outside where
  lengthNumbers : LengthNumbers
  /-- A typed-array element after encoding and decoding, or the conversion's error. -/
  element : Except JsError Value
  /-- A trap's or a host callback's answer; `none` is a host that does not intercept. -/
  intercept : Option (Except JsError Bool)
  ownProperty : Option (Except JsError (Option Property))
  parent : ParentSet

/-- Outside code that is never asked anything. -/
def quiet : Outside :=
  { lengthNumbers := ⟨.ok .zero, .ok .zero⟩
    element := .ok .undefined
    intercept := none
    ownProperty := none
    parent := .receiverWrite }

inductive SetOutcome
  | done (result : Except JsError Bool)
  | callSetter (setter : Value)

def stringGetOwnProperty (engine : Engine) (text : JsString) (key : PropertyKey) :
    Option Property := do
  let index ← if key.isString then engine.canonicalIndex key else none
  if F64.lt index .zero || !(index.isIntegral || !index.isFinite && !index.isNaN) then none
  else if F64.le (F64.ofNat text.length) index then none
  else
    let unit ← text[index.asU64]?
    some (.data (.string [unit]) false true false)

/-- `typed_array_valid_index`. -/
def TypedArraySlots.validIndex (slots : TypedArraySlots) (index : F64) : Bool :=
  F64.le .zero index && !index.isSignNegative &&
    (index.isIntegral || !index.isFinite && !index.isNaN) && index.asU64 < slots.elements.length

namespace ModuleNamespaceSlots

variable (slots : ModuleNamespaceSlots)

def current (key : PropertyKey) : Option Property :=
  if slots.exports.contains key then some (.data .undefined true true false)
  else if key = slots.toStringTag then some (.data (.string slots.tag) false false false)
  else none

def defineOwnProperty (key : PropertyKey) (desc : PropertyDescriptor) : Bool :=
  match slots.current key with
  | none => false
  | some current =>
      if desc.configurable == some true then false
      else if desc.enumerable.any (· != current.enumerable) then false
      else if desc.isGenericDescriptor then true
      else if desc.isAccessorDescriptor != current.isAccessor then false
      else if current.isAccessor then
        if desc.get.any (fun g => !sameValue g (current.getter.getD .undefined)) then false
        else !desc.set.any (fun f => !sameValue f (current.setter.getD .undefined))
      else if desc.writable.any (· != current.writable.getD true) then false
      else !desc.value.any (fun v => !sameValue v (current.value.getD .undefined))

end ModuleNamespaceSlots

def immutableBuffer : JsError :=
  { kind := .typeError, message := "TypedArray buffer is immutable" }

namespace ObjState

variable (engine : Engine) (outside : Outside) (s : ObjState)

/-- The current binding behind a mapped key of an arguments object. -/
def mappedValue (parameterMap : Option (PropertyKey → Option Value)) (key : PropertyKey) :
    Option Value :=
  parameterMap.bind fun map => map key

def setMapped (parameterMap : Option (PropertyKey → Option Value)) (key : PropertyKey)
    (value : Option Value) : ObjState :=
  { s with kind := .arguments (parameterMap.map fun map => Function.update map key value) }

/-- The own property with the value its mapped binding has now. -/
def reflectMapped (property : Property) (mapped : Option Value) : Property :=
  match mapped with
  | some value => property.setValue value
  | none => property

def getOwnPropertyKey (key : PropertyKey) : ObjState × Except JsError (Option Property) :=
  match s.kind with
  | .proxy => (s, outside.ownProperty.getD (.ok none))
  | .host =>
      match outside.ownProperty with
      | some answer => (s, answer)
      | none => let (s, own) := s.ordinaryGetOwnProperty key; (s, .ok own)
  | .integerIndexed slots =>
      match engine.canonicalIndex key with
      | some index =>
          if slots.validIndex index then
            (s, .ok ((slots.elements[index.asU64]?).map fun value => .data value true true true))
          else (s, .ok none)
      | none => let (s, own) := s.ordinaryGetOwnProperty key; (s, .ok own)
  | .moduleNamespace slots =>
      match slots.current key with
      | some property => (s, .ok (some property))
      | none => let (s, own) := s.ordinaryGetOwnProperty key; (s, .ok own)
  | .string text =>
      match s.ordinaryGetOwnProperty key with
      | (s, some property) => (s, .ok (some property))
      | (s, none) => (s, .ok (stringGetOwnProperty engine text key))
  | .arguments parameterMap =>
      match s.ordinaryGetOwnProperty key with
      | (s, none) => (s, .ok none)
      | (s, some property) => (s, .ok (some (reflectMapped property (mappedValue parameterMap key))))
  | _ => let (s, own) := s.ordinaryGetOwnProperty key; (s, .ok own)

def argumentsDefineOwnProperty (parameterMap : Option (PropertyKey → Option Value))
    (key : PropertyKey) (desc : PropertyDescriptor) : ObjState × Bool :=
  match mappedValue parameterMap key with
  | none => s.ordinaryDefineOwnProperty key desc
  | some bound =>
      let newArgDesc :=
        if desc.isDataDescriptor && desc.value.isNone && desc.writable == some false then
          { desc with value := some bound }
        else desc
      match s.ordinaryDefineOwnProperty key newArgDesc with
      | (s, false) => (s, false)
      | (s, true) =>
          if desc.isAccessorDescriptor || desc.writable == some false then
            (s.setMapped parameterMap key none, true)
          else (s.setMapped parameterMap key (some (desc.value.getD bound)), true)

/-- The buffer write of a typed array. -/
def writeElement (slots : TypedArraySlots) (index : F64) (value : Value) : ObjState :=
  let slots := { slots with elements := slots.elements.set index.asU64 value }
  { s with kind := .integerIndexed slots }

def typedArrayDefineOwnProperty (slots : TypedArraySlots) (key : PropertyKey)
    (desc : PropertyDescriptor) : ObjState × Except JsError Bool :=
  match engine.canonicalIndex key with
  | some index =>
      if !slots.validIndex index then (s, .ok false)
      else if slots.immutable then (s, .error immutableBuffer)
      else if desc.configurable == some false || desc.enumerable == some false ||
          desc.isAccessorDescriptor || desc.writable == some false then (s, .ok false)
      else
        match desc.value, outside.element with
        | none, _ => (s, .ok true)
        | some _, .error e => (s, .error e)
        | some _, .ok value => (s.writeElement slots index value, .ok true)
  | none => let (s, ok) := s.ordinaryDefineOwnProperty key desc; (s, .ok ok)

def definePropertyKey (key : PropertyKey) (desc : PropertyDescriptor) :
    ObjState × Except JsError Bool :=
  let s := s.bumpGeneration
  match s.kind with
  | .proxy => (s, outside.intercept.getD (.ok false))
  | .integerIndexed slots => s.typedArrayDefineOwnProperty engine outside slots key desc
  | .moduleNamespace slots => (s, .ok (slots.defineOwnProperty key desc))
  | .array _ => s.arrayDefineOwnProperty key desc outside.lengthNumbers
  | .string text =>
      match stringGetOwnProperty engine text key with
      | some current => (s, .ok (isCompatiblePropertyDescriptor s.extensible desc (some current)))
      | none => let (s, ok) := s.ordinaryDefineOwnProperty key desc; (s, .ok ok)
  | .arguments parameterMap =>
      let (s, ok) := s.argumentsDefineOwnProperty parameterMap key desc
      (s, .ok ok)
  | .host =>
      match outside.intercept with
      | some answer => (s, answer)
      | none => let (s, ok) := s.ordinaryDefineOwnProperty key desc; (s, .ok ok)
  | _ => let (s, ok) := s.ordinaryDefineOwnProperty key desc; (s, .ok ok)

def createDataPropertyKey (key : PropertyKey) (value : Value) : ObjState × Except JsError Bool :=
  if s.kind.isOrdinary then
    match s.ordinaryGetOwnProperty key with
    | (s, some _) => s.definePropertyKey engine outside key (.data value)
    | (s, none) =>
        match s.freshDataDefine key value with
        | (s, true) => (s, .ok true)
        | (s, false) => s.definePropertyKey engine outside key (.data value)
  else s.definePropertyKey engine outside key (.data value)

/-- `receiver_create_data_property` on the object itself. -/
def receiverCreateDataProperty (key : PropertyKey) (value : Value) (throw : Bool) :
    ObjState × Except JsError Bool :=
  match s.createDataPropertyKey engine outside key value with
  | (s, .ok false) =>
      if throw then
        (s, .error { kind := .typeError,
                     message := "Cannot create property on a non-extensible object",
                     key := some key })
      else (s, .ok false)
  | result => result

/-- `receiver_data_write` with this object as receiver. -/
def receiverDataWrite (key : PropertyKey) (value : Value) (throw : Bool) :
    ObjState × Except JsError Bool :=
  match s.getOwnPropertyKey engine outside key with
  | (s, .error e) => (s, .error e)
  | (s, .ok none) => s.receiverCreateDataProperty engine outside key value throw
  | (s, .ok (some existing)) =>
      if !existing.isData || existing.writable != some true then (s, .ok false)
      else s.definePropertyKey engine outside key (.valueOnly value)

def ordinarySet (key : PropertyKey) (value : Value) (throw : Bool) : ObjState × SetOutcome :=
  let finish := fun (result : ObjState × Except JsError Bool) => (result.1, SetOutcome.done result.2)
  match s.getOwnPropertyKey engine outside key with
  | (s, .error e) => (s, .done (.error e))
  | (s, .ok none) =>
      match s.prototype, outside.parent with
      | some _, .answer result => (s, .done result)
      | _, _ => finish (s.receiverDataWrite engine outside key value throw)
  | (s, .ok (some ⟨.data _ writable, _, _⟩)) =>
      if !writable then
        (s, .done (if throw then
          .error { kind := .typeError, message := "Cannot assign to read only property",
                   key := some key }
        else .ok false))
      else finish (s.receiverDataWrite engine outside key value throw)
  | (s, .ok (some ⟨.accessor _ set, _, _⟩)) =>
      match set.filter engine.isCallable with
      | some setter => (s, .callSetter setter)
      | none =>
          (s, .done (if throw then
            .error { kind := .typeError, message := "Cannot set property which has only a getter",
                     key := some key }
          else .ok false))

/-- A false answer of a trap or a host callback becomes a TypeError under `throw`. -/
def interceptedSet (key : PropertyKey) (answer : Except JsError Bool) (throw : Bool) :
    Except JsError Bool :=
  match answer with
  | .ok false =>
      if throw then
        .error { kind := .typeError, message := "Cannot set property", key := some key }
      else .ok false
  | answer => answer

def typedArraySet (slots : TypedArraySlots) (key : PropertyKey) (value : Value) :
    ObjState × SetOutcome :=
  match engine.canonicalIndex key with
  | some index =>
      if slots.immutable then (s, .done (.error immutableBuffer))
      else
        match outside.element with
        | .error e => (s, .done (.error e))
        | .ok element =>
            if slots.validIndex index then
              (s.writeElement slots index element, .done (.ok true))
            else (s, .done (.ok true))
  | none => s.ordinarySet engine outside key value false

/-- `set_with_receiver_key` with the object itself as receiver. -/
def setWithReceiverKey (key : PropertyKey) (value : Value) (throw : Bool) :
    ObjState × SetOutcome :=
  match s.kind with
  | .proxy => (s, .done (interceptedSet key (outside.intercept.getD (.ok false)) throw))
  | .integerIndexed slots => s.typedArraySet engine outside slots key value
  | .moduleNamespace _ => (s, .done (.ok false))
  | .arguments parameterMap =>
      let s :=
        match mappedValue parameterMap key with
        | some _ => s.setMapped parameterMap key (some value)
        | none => s
      s.ordinarySet engine outside key value throw
  | .host =>
      match outside.intercept with
      | some answer => (s, .done (interceptedSet key answer throw))
      | none => s.ordinarySet engine outside key value throw
  | _ => s.ordinarySet engine outside key value throw

def setKey (key : PropertyKey) (value : Value) (throw : Bool) : ObjState × SetOutcome :=
  if s.servesInPlace key then
    match s.writeInPlace key value with
    | (s, true) => (s.bumpGeneration, .done (.ok true))
    | (s, false) => s.setWithReceiverKey engine outside key value throw
  else s.setWithReceiverKey engine outside key value throw

def typedArrayDelete (slots : TypedArraySlots) (key : PropertyKey) : ObjState × Bool :=
  match engine.canonicalIndex key with
  | some index => (s, !slots.validIndex index)
  | none =>
      match AssocList.position s.properties key with
      | none => (s, true)
      | some position =>
          if (s.properties[position]?).any (fun entry => entry.2.configurable) then
            let s := { s with
              properties := s.properties.eraseIdx position, propertyIndex := none }
            (s.bumpNamedVersion, true)
          else (s, false)

def stringRefusesDelete (text : JsString) (key : PropertyKey) : Bool :=
  key.isString && (engine.canonicalIndex key).any fun index =>
    F64.le .zero index && (index.isIntegral || !index.isFinite && !index.isNaN) &&
      index.asU64 < text.length

def deleteKey (key : PropertyKey) : ObjState × Except JsError Bool :=
  match s.kind with
  | .proxy => (s, outside.intercept.getD (.ok false))
  | .integerIndexed slots => let (s, ok) := s.typedArrayDelete engine slots key; (s, .ok ok)
  | .array _ => let (s, ok) := s.arrayDelete key; (s, .ok ok)
  | .moduleNamespace slots => (s, .ok (!slots.exports.contains key && key != slots.toStringTag))
  | .string text =>
      if stringRefusesDelete engine text key then (s, .ok false)
      else let (s, ok) := s.ordinaryDelete key; (s, .ok ok)
  | .arguments parameterMap =>
      match s.removeOwn key with
      | (s, false) => (s, .ok false)
      | (s, true) =>
          match mappedValue parameterMap key with
          | some _ => (s.setMapped parameterMap key none, .ok true)
          | none => (s, .ok true)
  | .host =>
      match outside.intercept with
      | some answer => (s, answer)
      | none => let (s, ok) := s.ordinaryDelete key; (s, .ok ok)
  | _ => let (s, ok) := s.ordinaryDelete key; (s, .ok ok)

/-- The keys of a String exotic: code units, then own indices past them, then the rest. -/
def stringOwnPropertyKeys (text : JsString) : List PropertyKey :=
  (List.range text.length).map .fromIndex ++
    orderKeys ((s.properties.map (·.1)).filter fun key =>
      (arrayIndexOf key).all (text.length ≤ ·))

def typedArrayOwnPropertyKeys (slots : TypedArraySlots) : List PropertyKey :=
  let names := s.properties.map (·.1)
  (List.range slots.elements.length).map .fromIndex ++
    names.filter (fun key => key.isString && (arrayIndexOf key).isNone) ++
    names.filter (!·.isString)

/-- `own_property_keys` for the kinds whose keys are the engine's own. -/
def ownPropertyKeys : ObjState × List PropertyKey :=
  match s.kind with
  | .integerIndexed slots => (s, s.typedArrayOwnPropertyKeys slots)
  | .moduleNamespace slots => (s, slots.exports ++ [slots.toStringTag])
  | .array _ => s.arrayOwnPropertyKeys
  | .string text => (s, s.stringOwnPropertyKeys text)
  | _ => s.ordinaryOwnPropertyKeys

end ObjState

end Slag.Crux
