import Slag.Crux.Storage
import Slag.Lib.Machine

/-!
The plain object: one list of properties in creation order, an extensible flag
and a prototype, with the operations as functions of that list. An ordinary
object refines it, whatever the map, the fields, the index and the vector-free
state do underneath, as long as no deletion moves a described vector entry.
-/

namespace Slag.Crux

open AssocList

/-- Operations of one ordinary object, with the answers of outside code. -/
inductive StorageOp
  | define (key : PropertyKey) (desc : PropertyDescriptor) (outside : Outside)
  | createData (key : PropertyKey) (value : Value) (outside : Outside)
  | set (key : PropertyKey) (value : Value) (throw : Bool) (outside : Outside)
  | writeData (key : PropertyKey) (value : Value)
  | slot (key : PropertyKey)
  | delete (key : PropertyKey) (outside : Outside)
  | ownKeys
  | getOwn (key : PropertyKey)

inductive StorageAnswer
  | result (answer : Except JsError Bool)
  | set (outcome : SetOutcome)
  | wrote (done : Bool)
  | slot (position : Option Nat)
  | keys (keys : List PropertyKey)
  | own (property : Option Property)

structure PlainObject where
  properties : PropertyList
  extensible : Bool
  prototype : Option ObjId

namespace PlainObject

variable (engine : Engine) (o : PlainObject)

def getOwn (key : PropertyKey) : Option Property := get? o.properties key

def append (key : PropertyKey) (property : Property) : PlainObject :=
  { o with properties := o.properties ++ [(key, property)] }

def replace (key : PropertyKey) (property : Property) : PlainObject :=
  match position o.properties key with
  | none => o
  | some i => { o with properties := setAt o.properties i property }

def define (key : PropertyKey) (desc : PropertyDescriptor) : PlainObject × Bool :=
  match o.getOwn key with
  | some current =>
      if validateCurrent desc current then (o.replace key (applyDescriptor desc current), true)
      else (o, false)
  | none =>
      match createdProperty desc with
      | some property => if o.extensible then (o.append key property, true) else (o, false)
      | none => (o, false)

def createData (key : PropertyKey) (value : Value) : PlainObject × Bool := o.define key (.data value)

/-- A failed CreateDataProperty on the receiver throws when asked to. -/
def createOnReceiver (key : PropertyKey) (value : Value) (throw : Bool) :
    PlainObject × Except JsError Bool :=
  match o.createData key value with
  | (o, true) => (o, .ok true)
  | (o, false) =>
      (o, if throw then
        .error { kind := .typeError, message := "Cannot create property on a non-extensible object",
                 key := some key }
      else .ok false)

def set (key : PropertyKey) (value : Value) (throw : Bool) (parent : ParentSet) :
    PlainObject × SetOutcome :=
  match o.getOwn key with
  | some ⟨.data _ true, enumerable, configurable⟩ =>
      (o.replace key ⟨.data value true, enumerable, configurable⟩, .done (.ok true))
  | some ⟨.data _ false, _, _⟩ =>
      (o, .done (if throw then
        .error { kind := .typeError, message := "Cannot assign to read only property",
                 key := some key }
      else .ok false))
  | some ⟨.accessor _ set, _, _⟩ =>
      match set.filter engine.isCallable with
      | some setter => (o, .callSetter setter)
      | none =>
          (o, .done (if throw then
            .error { kind := .typeError, message := "Cannot set property which has only a getter",
                     key := some key }
          else .ok false))
  | none =>
      match o.prototype, parent with
      | some _, .answer result => (o, .done result)
      | _, _ =>
          let created := o.createOnReceiver key value throw
          (created.1, .done created.2)

def writeData (key : PropertyKey) (value : Value) : PlainObject × Bool :=
  match o.getOwn key with
  | some ⟨.data _ true, enumerable, configurable⟩ =>
      (o.replace key ⟨.data value true, enumerable, configurable⟩, true)
  | _ => (o, false)

def delete (key : PropertyKey) : PlainObject × Bool :=
  match position o.properties key with
  | none => (o, true)
  | some i =>
      if (o.getOwn key).any (·.configurable) then
        ({ o with properties := o.properties.eraseIdx i }, true)
      else (o, false)

def step : StorageOp → PlainObject × StorageAnswer
  | .define key desc _ => let (o, ok) := o.define key desc; (o, .result (.ok ok))
  | .createData key value _ => let (o, ok) := o.createData key value; (o, .result (.ok ok))
  | .set key value throw outside =>
      let (o, outcome) := o.set engine key value throw outside.parent
      (o, .set outcome)
  | .writeData key value => let (o, done) := o.writeData key value; (o, .wrote done)
  | .slot key => (o, .slot (position o.properties key))
  | .delete key _ => let (o, ok) := o.delete key; (o, .result (.ok ok))
  | .ownKeys => (o, .keys (orderKeys (keys o.properties)))
  | .getOwn key => (o, .own (o.getOwn key))

end PlainObject

namespace ObjState

/-- The storage operations as the source computes them. -/
def storageStep (engine : Engine) (s : ObjState) : StorageOp → ObjState × StorageAnswer
  | .define key desc outside =>
      let (s, result) := s.definePropertyKey engine outside key desc
      (s, .result result)
  | .createData key value outside =>
      let (s, result) := s.createDataPropertyKey engine outside key value
      (s, .result result)
  | .set key value throw outside =>
      let (s, outcome) := s.setKey engine outside key value throw
      (s, .set outcome)
  | .writeData key value => let (s, done) := s.writeDataProperty key value; (s, .wrote done)
  | .slot key => let (s, position) := s.propertySlot key; (s, .slot position)
  | .delete key outside =>
      let (s, result) := s.deleteKey engine outside key
      (s, .result result)
  | .ownKeys => let (s, keys) := s.ownPropertyKeys; (s, .keys keys)
  | .getOwn key => let (s, own) := s.ordinaryGetOwnProperty key; (s, .own own)

/-- The object as the plain object it stands for. -/
def plain (s : ObjState) : PlainObject := ⟨s.ownList, s.extensible, s.prototype⟩

/-- `t` stands for `o`, coherently, and alignment carries over from `s`. -/
structure Becomes (s t : ObjState) (o : PlainObject) : Prop where
  coherent : t.Coherent
  plain : t.plain = o
  aligned : s.Aligned → t.Aligned

theorem Stores.becomes {s t : ObjState} {l : PropertyList} (h : Stores s t l) :
    Becomes s t ⟨l, s.extensible, s.prototype⟩ := by
  refine ⟨h.coherent, ?_, h.aligned⟩
  simp only [plain, h.ownList, h.extensible, h.prototype]

theorem Becomes.trans {s t u : ObjState} {o o' : PlainObject} (h : Becomes s t o)
    (h' : Becomes t u o') : Becomes s u o' :=
  ⟨h'.coherent, h'.plain, fun ha => h'.aligned (h.aligned ha)⟩

theorem SameStore.becomes {s t : ObjState} (h : SameStore s t) (hc : t.Coherent) :
    Becomes s t s.plain :=
  (h.stores hc).becomes

end ObjState

end Slag.Crux
