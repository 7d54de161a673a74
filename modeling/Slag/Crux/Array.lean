import Slag.Crux.Object

/-!
The array exotic operations of `object.rs`: the dense element buffer, the
spill, index and length definitions, and the keys of an array. The two
conversions of a length value are inputs, since they may run user code, and so
is the answer of the prototype-chain check of an element write.
-/

namespace Slag.Crux

/-- The largest hole span the buffer materializes. -/
def denseHoleSpillCap : Nat := 65536

/-- Grow the buffer with holes up to `index` when it is shorter, and store. -/
def ArraySlots.storeAt (slots : ArraySlots) (index : Nat) (value : Value) : ArraySlots :=
  ArraySlots.sync
    { slots with
      elements :=
        (slots.elements ++ List.replicate (index + 1 - slots.elements.length) none).set index
          (some value) }

/-- The results of the two `to_number` calls on a length that is not a Number. -/
structure LengthNumbers where
  first : Except JsError F64
  second : Except JsError F64

def toNumber (value : Value) (answer : Except JsError F64) : Except JsError F64 :=
  match value with
  | .number n => .ok n
  | _ => answer

/-- The index keys of a key list ascending, then the other strings, then the symbols. -/
def orderKeys (keys : List PropertyKey) : List PropertyKey :=
  let indices := (keys.filterMap fun key => (arrayIndexOf key).map fun index => (index, key))
  (indices.mergeSort fun a b => a.1 ≤ b.1).map (·.2) ++
    keys.filter (fun key => (arrayIndexOf key).isNone && key.isString) ++
    keys.filter (fun key => (arrayIndexOf key).isNone && !key.isString)

theorem mem_orderKeys {key : PropertyKey} {l : List PropertyKey} :
    key ∈ orderKeys l ↔ key ∈ l := by
  simp only [orderKeys, List.mem_append, List.mem_map, List.mem_mergeSort, List.mem_filterMap,
    List.mem_filter, Prod.exists]
  constructor
  · rintro ((⟨i, k, ⟨k', hk', hi⟩, rfl⟩ | ⟨h, -⟩) | ⟨h, -⟩)
    · obtain ⟨j, -, heq⟩ := Option.map_eq_some_iff.mp hi
      obtain ⟨-, rfl⟩ := Prod.mk.inj heq
      exact hk'
    · exact h
    · exact h
  · intro h
    cases hi : arrayIndexOf key with
    | some i => exact .inl (.inl ⟨i, key, ⟨key, h, by simp [hi]⟩, rfl⟩)
    | none =>
        cases hs : key.isString with
        | true => exact .inl (.inr ⟨h, by simp⟩)
        | false => exact .inr ⟨h, by simp⟩

theorem orderKeys_perm (l : List PropertyKey) : (orderKeys l).Perm l := by
  have hindices : (l.filterMap fun key => (arrayIndexOf key).map fun index => (index, key)).map
      (·.2) = l.filter fun key => !(arrayIndexOf key).isNone := by
    induction l with
    | nil => rfl
    | cons key l ih =>
        cases hi : arrayIndexOf key with
        | none => simpa [hi] using ih
        | some i => simpa [hi] using ih
  have hnames : (l.filter (fun key => (arrayIndexOf key).isNone && key.isString) ++
      l.filter fun key => (arrayIndexOf key).isNone && !key.isString).Perm
        (l.filter fun key => (arrayIndexOf key).isNone) := by
    have := List.filter_append_perm (fun key : PropertyKey => key.isString)
      (l.filter fun key => (arrayIndexOf key).isNone)
    simpa only [List.filter_filter, Bool.and_comm] using this
  unfold orderKeys
  rw [List.append_assoc]
  refine List.Perm.trans (((List.mergeSort_perm _ _).map _).append hnames) ?_
  rw [hindices]
  have := List.filter_append_perm (fun key : PropertyKey => !(arrayIndexOf key).isNone) l
  simpa only [Bool.not_not] using this

namespace ObjState

variable (s : ObjState)

def writeLengthMirror (length : Nat) : ObjState :=
  { s with properties := s.properties.modifyHead fun entry =>
      (entry.1, entry.2.setValue (.number (F64.ofNat length))) }

/-- The own properties a dense buffer stands for, in index order. -/
def elementProperties (elements : List (Option Value)) : PropertyList :=
  elements.zipIdx.filterMap fun (element, index) =>
    element.map fun value => (.fromIndex index, .data value true true true)

def spillDenseArray (slots : ArraySlots) : ObjState :=
  if !slots.dense then s
  else
    let head := (s.properties.take 1).map fun entry =>
      (entry.1, entry.2.setValue (.number (F64.ofNat slots.length)))
    let s := s.withSlots { slots with elements := [], vecLen := 0, dense := false }
    bumpGeneration
      { s with
        properties := head ++ elementProperties slots.elements ++ s.properties.drop 1
        propertyIndex := none }

def denseIndexDefine (index : Nat) (value : Value) : ObjState × Option Bool :=
  match s.kind with
  | .array slots =>
      if !slots.dense then (s, none)
      else if slots.length ≤ index && !s.extensible then (s, some false)
      else if slots.elements.length + denseHoleSpillCap < index then
        (s.withSlots slots.sync, none)
      else
        let stored := slots.storeAt index value
        let s :=
          if slots.length ≤ index then
            (s.withSlots { stored with length := index + 1 }).writeLengthMirror (index + 1)
          else s.withSlots stored
        (s.bumpGeneration, some true)
  | _ => (s, none)

def ordinaryOwnPropertyKeys : ObjState × List PropertyKey :=
  let s := s.materializeProperties
  (s, orderKeys (s.properties.map (·.1)))

def arrayOwnPropertyKeys : ObjState × List PropertyKey :=
  match s.kind with
  | .array slots =>
      if !slots.dense then s.ordinaryOwnPropertyKeys
      else
        let names := s.properties.map (·.1)
        (s.withSlots slots.sync,
          (elementProperties slots.elements).map (·.1) ++
            names.filter (·.isString) ++ names.filter (!·.isString))
  | _ => s.ordinaryOwnPropertyKeys

def ordinaryDelete (key : PropertyKey) : ObjState × Bool :=
  s.materializeProperties.removeOwn key

def arrayDelete (key : PropertyKey) : ObjState × Bool :=
  match s.kind with
  | .array slots =>
      match slots.dense, arrayIndexOf key with
      | true, some index =>
          if index < slots.elements.length then
            let slots := ArraySlots.sync { slots with elements := slots.elements.set index none }
            ((s.withSlots slots).bumpGeneration, true)
          else (s.withSlots slots.sync, true)
      | _, _ => s.ordinaryDelete key
  | _ => s.ordinaryDelete key

/-- The guard of the fast append in `array_define_own_property`: the last
vector entry is the element just below `length`, or no element at all. -/
def appendsAtEnd (length : F64) : Bool :=
  match s.properties.getLast? with
  | none => false
  | some (lastKey, lastProp) =>
      (length.eq .zero && (arrayIndexOf lastKey).isNone) ||
        (F64.lt .zero length && arrayIndexOf lastKey == some (length.asU64 - 1) && lastProp.isData)

/-- The fast append: push the element and set `length`, the first entry, in place. -/
def appendElement (key : PropertyKey) (property : Property) (length : Nat) : ObjState :=
  let position := s.properties.length
  ((s.pushProperty key property).indexAppended key position).writeLengthMirror length

/-- A descriptor the buffer can hold: a data value with all attributes true. -/
def canonicalElement (desc : PropertyDescriptor) : Option Value :=
  if desc.writable == some true && desc.enumerable == some true &&
      desc.configurable == some true && !desc.isAccessorDescriptor then desc.value
  else none

/-- The element a fully populated data descriptor appends. -/
def completeElement (desc : PropertyDescriptor) : Option Property := do
  let value ← desc.value
  let writable ← desc.writable
  let enumerable ← desc.enumerable
  let configurable ← desc.configurable
  if desc.isAccessorDescriptor then none
  else some (.data value writable enumerable configurable)

/-- Define the element by the ordinary table, then move `length` past it. -/
def defineElementGeneric (key : PropertyKey) (index : Nat) (desc : PropertyDescriptor)
    (lengthDesc : Property) (grows : Bool) : ObjState × Bool :=
  match s.ordinaryDefineOwnProperty key desc with
  | (s, false) => (s, false)
  | (s, true) =>
      if grows then
        let newLength := lengthDesc.setValue (.number (F64.ofNat (index + 1)))
        ((s.ordinaryDefineOwnProperty lengthKey newLength.toDescriptor).1, true)
      else (s, true)

/-- The index definition on a spilled array. -/
def arrayDefineIndex (key : PropertyKey) (index : Nat) (desc : PropertyDescriptor) :
    ObjState × Except JsError Bool :=
  match s.ordinaryGetOwnProperty lengthKey with
  -- Every array has a length entry; the source unwraps it.
  | (s, none) => (s, .ok false)
  | (s, some lengthDesc) =>
      match lengthDesc.kind with
      | .accessor .. =>
          (s, .error { kind := .typeError, message := "array length is not a data property" })
      | .data lengthValue writable =>
          match lengthValue.asNumber with
          | none => (s, .error { kind := .typeError, message := "array length is not a Number" })
          | some length =>
              let grows := F64.le length (F64.ofNat index)
              if grows && !writable then (s, .ok false)
              else
                match completeElement desc, grows && s.extensible && s.appendsAtEnd length with
                | some element, true =>
                    ((s.appendElement key element (index + 1)).bumpGeneration, .ok true)
                | _, _ =>
                    let (s, ok) := s.defineElementGeneric key index desc lengthDesc grows
                    (s, .ok ok)

/-- Delete the listed indices in order, up to the first that cannot be deleted. -/
def deleteIndices (s : ObjState) : List Nat → ObjState × Option Nat
  | [] => (s, none)
  | index :: rest =>
      match s.arrayDelete (.fromIndex index) with
      | (s, true) => deleteIndices s rest
      | (s, false) => (s, some index)

/-- Finish a truncation that was asked to make `length` read-only. -/
def finishLength (newWritable : Bool) : ObjState :=
  if newWritable then s
  else (s.ordinaryDefineOwnProperty lengthKey .writableFalse).1

/-- The keys are the elements `0 .. oldLength` and `length`, all elements plain data. -/
def truncatesByPosition (keys : List PropertyKey) (oldLength : Nat) : Bool :=
  keys.length == oldLength + 1 &&
    (List.range oldLength).all (fun i => keys[i]? == some (.fromIndex i)) &&
    keys.getLast?.any isLengthKey &&
    (s.properties.drop 1).all fun entry => entry.2.configurable && entry.2.isData

/-- The deletion phase of ArraySetLength, after `length` holds the new value. -/
def truncateElements (newLength oldLength : Nat) (newWritable : Bool)
    (desc : PropertyDescriptor) : ObjState × Except JsError Bool :=
  let (s, keys) := s.arrayOwnPropertyKeys
  let toDelete := (keys.filterMap arrayIndexOf).filter (newLength ≤ ·)
  if s.truncatesByPosition keys oldLength then
    let s := { s with properties := s.properties.take (newLength + 1) }
    let s := { s.writeLengthMirror newLength with propertyIndex := none }
    (s.bumpGeneration.finishLength newWritable, .ok true)
  else
    match s.deleteIndices (toDelete.mergeSort fun a b => b ≤ a) with
    | (s, none) => (s.finishLength newWritable, .ok true)
    | (s, some index) =>
        let desc := { desc with
          value := some (.number (F64.ofNat (index + 1)))
          writable := if newWritable then desc.writable else some false }
        ((s.ordinaryDefineOwnProperty lengthKey desc).1, .ok false)

/-- A length request that the dense cell can take: writable, and nothing that
the generic define would refuse. -/
def canonicalLength (desc : PropertyDescriptor) : Bool :=
  desc.configurable != some true && desc.enumerable != some true && !desc.isAccessorDescriptor

/-- Drop dense mode when the array is dense. -/
def spillIfDense : ObjState :=
  match s.kind with
  | .array slots => s.spillDenseArray slots
  | _ => s

def isDense : Bool :=
  match s.kind with
  | .array slots => slots.dense
  | _ => false

/-- Move the dense length up: the buffer stays short, reads past it are holes. -/
def growDenseLength (length : Nat) : ObjState :=
  match s.kind with
  | .array slots => ((s.withSlots { slots with length }).writeLengthMirror length).bumpGeneration
  | _ => s

/-- Move the dense length down, cutting the buffer. -/
def truncateDense (length : Nat) : ObjState :=
  match s.kind with
  | .array slots =>
      let slots := ArraySlots.sync { slots with elements := slots.elements.take length, length }
      ((s.withSlots slots).writeLengthMirror length).bumpGeneration
  | _ => s

/-- ArraySetLength from its comparison with the old length on. -/
def assignLength (newLength : Nat) (newDesc : PropertyDescriptor) (oldDesc : Property) :
    ObjState × Except JsError Bool :=
  let oldLength := oldDesc.value.bind Value.asNumber
  if oldLength.any (fun old => F64.le old (F64.ofNat newLength)) then
    if s.isDense && newDesc.writable != some false && canonicalLength newDesc then
      (s.growDenseLength newLength, .ok true)
    else
      let (s, ok) := s.spillIfDense.ordinaryDefineOwnProperty lengthKey newDesc
      (s, .ok ok)
  else if oldDesc.writable != some true then (s, .ok false)
  else
    let newWritable := newDesc.writable != some false
    let newDesc := if newWritable then newDesc else { newDesc with writable := some true }
    let s := if newWritable then s else s.spillIfDense
    if s.isDense && canonicalLength newDesc then (s.truncateDense newLength, .ok true)
    else
      match s.ordinaryDefineOwnProperty lengthKey newDesc with
      | (s, false) => (s, .ok false)
      | (s, true) => s.truncateElements newLength (oldLength.getD .nan).asU64 newWritable newDesc

/-- The length a descriptor asks for: its two conversions and the range check. -/
def requestedLength (desc : PropertyDescriptor) (numbers : LengthNumbers) :
    Except JsError (Option Nat) :=
  match desc.value with
  | none => .ok none
  | some value =>
      match toNumber value numbers.first, toNumber value numbers.second with
      | .error e, _ => .error e
      | .ok _, .error e => .error e
      | .ok first, .ok numberLength =>
          if !F64.eq (F64.ofNat first.toUint32) numberLength then
            .error { kind := .rangeError, message := "Invalid array length" }
          else .ok (some first.toUint32)

def lengthDescriptor (desc : PropertyDescriptor) (n : Nat) : PropertyDescriptor :=
  { desc with value := some (.number (F64.ofNat n)) }

def arraySetLength (desc : PropertyDescriptor) (numbers : LengthNumbers) :
    ObjState × Except JsError Bool :=
  match requestedLength desc numbers with
  | .error e => (s, .error e)
  | .ok none =>
      -- Only attributes change; a dense length is always writable.
      let s := if desc.writable == some false then s.spillIfDense else s
      let (s, ok) := s.ordinaryDefineOwnProperty lengthKey desc
      (s, .ok ok)
  | .ok (some newLength) =>
      match s.ordinaryGetOwnProperty lengthKey with
      | (s, none) => (s, .ok false)
      | (s, some oldDesc) => s.assignLength newLength (lengthDescriptor desc newLength) oldDesc

/-- ArrayDefineOwnProperty. -/
def arrayDefineOwnProperty (key : PropertyKey) (desc : PropertyDescriptor)
    (numbers : LengthNumbers) : ObjState × Except JsError Bool :=
  if isLengthKey key then s.arraySetLength desc numbers
  else
    match arrayIndexOf key with
    | none =>
        let (s, ok) := s.ordinaryDefineOwnProperty key desc
        (s, .ok ok)
    | some index =>
        match canonicalElement desc with
        | some value =>
            match s.denseIndexDefine index value with
            | (s, some ok) => (s, .ok ok)
            | (s, none) => s.spillIfDense.arrayDefineIndex key index desc
        | none => s.spillIfDense.arrayDefineIndex key index desc

end ObjState

end Slag.Crux
