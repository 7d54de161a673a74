import Slag.Crux.Value

/-!
Own properties and property descriptors (`property.rs`, and `Property` of
`object.rs`), with the decision and the update of
ValidateAndApplyPropertyDescriptor as functions of the current property. The
object-level operation in `Storage` calls both.
-/

namespace Slag.Crux

inductive PropertyKind
  | data (value : Value) (writable : Bool)
  | accessor (get set : Option Value)
deriving DecidableEq, Repr

structure Property where
  kind : PropertyKind
  enumerable : Bool
  configurable : Bool
deriving DecidableEq, Repr

structure PropertyDescriptor where
  value : Option Value
  writable : Option Bool
  get : Option Value
  set : Option Value
  enumerable : Option Bool
  configurable : Option Bool
deriving DecidableEq, Repr

namespace PropertyDescriptor

def data (value : Value) : PropertyDescriptor :=
  { value := some value, writable := some true, get := none, set := none,
    enumerable := some true, configurable := some true }

/-- The `value`-only descriptor that OrdinarySet defines on its receiver. -/
def valueOnly (value : Value) : PropertyDescriptor :=
  { value := some value, writable := none, get := none, set := none,
    enumerable := none, configurable := none }

/-- The `writable: false` descriptor that ends ArraySetLength. -/
def writableFalse : PropertyDescriptor :=
  { value := none, writable := some false, get := none, set := none,
    enumerable := none, configurable := none }

variable (desc : PropertyDescriptor)

def isDataDescriptor : Bool := desc.value.isSome || desc.writable.isSome

def isAccessorDescriptor : Bool := desc.get.isSome || desc.set.isSome

def isGenericDescriptor : Bool := !desc.isDataDescriptor && !desc.isAccessorDescriptor

def isEmpty : Bool :=
  desc.value.isNone && desc.writable.isNone && desc.get.isNone && desc.set.isNone &&
    desc.enumerable.isNone && desc.configurable.isNone

/-- CompletePropertyDescriptor. -/
def complete : PropertyDescriptor :=
  let filled :=
    if desc.isGenericDescriptor || desc.isDataDescriptor then
      { desc with
        value := some (desc.value.getD .undefined)
        writable := some (desc.writable.getD false) }
    else
      { desc with
        get := some (desc.get.getD .undefined)
        set := some (desc.set.getD .undefined) }
  { filled with
    enumerable := some (desc.enumerable.getD false)
    configurable := some (desc.configurable.getD false) }

end PropertyDescriptor

namespace Property

def data (value : Value) (writable enumerable configurable : Bool) : Property :=
  { kind := .data value writable, enumerable, configurable }

/-- `Some(v).filter(|v| !v.is_undefined())`: an undefined accessor is stored as absent. -/
def accessorFunction (f : Option Value) : Option Value := f.filter fun v => !v.isUndefined

def accessor (get set : Option Value) (enumerable configurable : Bool) : Property :=
  { kind := .accessor (accessorFunction get) (accessorFunction set), enumerable, configurable }

variable (p : Property)

def isData : Bool :=
  match p.kind with
  | .data .. => true
  | .accessor .. => false

def isAccessor : Bool :=
  match p.kind with
  | .data .. => false
  | .accessor .. => true

def value : Option Value :=
  match p.kind with
  | .data v _ => some v
  | .accessor .. => none

def writable : Option Bool :=
  match p.kind with
  | .data _ w => some w
  | .accessor .. => none

def getter : Option Value :=
  match p.kind with
  | .data .. => none
  | .accessor g _ => g

def setter : Option Value :=
  match p.kind with
  | .data .. => none
  | .accessor _ s => s

def toDescriptor : PropertyDescriptor :=
  match p.kind with
  | .data v w =>
      { value := some v, writable := some w, get := none, set := none,
        enumerable := some p.enumerable, configurable := some p.configurable }
  | .accessor g s =>
      { value := none, writable := none, get := some (g.getD .undefined),
        set := some (s.getD .undefined),
        enumerable := some p.enumerable, configurable := some p.configurable }

/-- The stored form of a completed descriptor. -/
def fromDescriptor (desc : PropertyDescriptor) : Option Property := do
  let enumerable ← desc.enumerable
  let configurable ← desc.configurable
  if desc.isDataDescriptor then
    let v ← desc.value
    let w ← desc.writable
    some { kind := .data v w, enumerable, configurable }
  else if desc.isAccessorDescriptor then
    some { kind := .accessor (accessorFunction desc.get) (accessorFunction desc.set),
           enumerable, configurable }
  else none

/-- Overwrite the value of a data property; an accessor has none. -/
def setValue (v : Value) : Property :=
  match p.kind with
  | .data _ w => { p with kind := .data v w }
  | .accessor .. => p

@[simp] theorem isAccessor_eq_not_isData : p.isAccessor = !p.isData := by
  cases p with
  | mk kind e c => cases kind <;> rfl

end Property

/-- The checks of ValidateAndApplyPropertyDescriptor against a current
property, in the source's order. -/
def validateCurrent (desc : PropertyDescriptor) (current : Property) : Bool :=
  if desc.isEmpty then true
  else if current.configurable then true
  else if desc.configurable == some true then false
  else if desc.enumerable.any (· != current.enumerable) then false
  else if !desc.isGenericDescriptor && desc.isAccessorDescriptor != current.isAccessor then false
  else if current.isAccessor then
    if desc.get.any (fun g => !sameValue g (current.getter.getD .undefined)) then false
    else if desc.set.any (fun s => !sameValue s (current.setter.getD .undefined)) then false
    else true
  else if current.writable == some false then
    if desc.writable == some true then false
    -- The value is compared only when the descriptor leaves `writable` out.
    else if desc.writable.isNone &&
        desc.value.any (fun v => !sameValue v (current.value.getD .undefined)) then false
    else true
  else true

/-- `is_compatible_property_descriptor`: `validate_and_apply` with no object. -/
def isCompatiblePropertyDescriptor (extensible : Bool) (desc : PropertyDescriptor)
    (current : Option Property) : Bool :=
  match current with
  | none => extensible
  | some current => validateCurrent desc current

/-- The update of ValidateAndApplyPropertyDescriptor: convert the kind when the
descriptor asks for the other one, then copy the fields it has. -/
def applyDescriptor (desc : PropertyDescriptor) (current : Property) : Property :=
  let next :=
    if current.isData && desc.isAccessorDescriptor then
      Property.accessor desc.get desc.set current.enumerable current.configurable
    else if current.isAccessor && desc.isDataDescriptor then
      Property.data (desc.value.getD .undefined) (desc.writable.getD false)
        current.enumerable current.configurable
    else current
  let kind :=
    match next.kind with
    | .data v w => .data (desc.value.getD v) (desc.writable.getD w)
    | .accessor g s =>
        .accessor (if desc.get.isSome then Property.accessorFunction desc.get else g)
          (if desc.set.isSome then Property.accessorFunction desc.set else s)
  { kind
    enumerable := desc.enumerable.getD next.enumerable
    configurable := desc.configurable.getD next.configurable }

/-- The property a define creates under a fresh key. -/
def createdProperty (desc : PropertyDescriptor) : Option Property :=
  Property.fromDescriptor desc.complete

end Slag.Crux
