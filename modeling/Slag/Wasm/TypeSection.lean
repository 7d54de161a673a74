import Slag.Lib.Answer
import Slag.Wasm.Module

/-!
The type section: equivalence of rec groups, the two subtyping relations of the
validator and what the section is checked for. Comparisons of types recurse
through type indices and may not come to an end; they take a bound on the depth
of this recursion and have no answer beyond it.
-/

namespace Slag.Wasm

open Slag.Answer

inductive Error where
  | invalid (message : String)
  | unsupported (message : String)
  deriving DecidableEq, Repr

def typeMismatch : Error := .invalid "type mismatch"

/-! ## Equivalence -/

/-- The rec group with an index: its first member and its length. -/
def recGroupOf (groups : List Nat) (index : Nat) : Nat × Nat :=
  if groups.isEmpty then (index, 1) else locate groups 0
where
  locate : List Nat → Nat → Nat × Nat
    | [], _ => (index, 1)
    | len :: rest, start =>
        if start ≤ index ∧ index < start + len then (start, len) else locate rest (start + len)

namespace Module

/-- The rec group of a type of a module. -/
def groupOf (m : Module) (index : Nat) : Nat × Nat :=
  recGroupOf m.recGroups index

/-- The supertype a type declares. -/
def parent? (m : Module) (index : Nat) : Option Nat :=
  m.types[index]?.bind fun sub => sub.supertypes.head?

end Module

/-- The position of a type in a rec group. -/
def offsetIn (group : Nat × Nat) (index : Nat) : Option Nat :=
  if group.1 ≤ index ∧ index < group.1 + group.2 then some (index - group.1) else none

section Equivalence

-- The comparison of type indices, and the two rec groups that are compared.
variable (indices : Nat → Nat → Option Bool) (alignedA alignedB : Nat × Nat)

/-- References into the two groups map by offset. -/
def heapsEquivalent : HeapType → HeapType → Option Bool
  | .type x, .type y =>
      match offsetIn alignedA x, offsetIn alignedB y with
      | some i, some j => some (i == j)
      | none, none => indices x y
      | _, _ => some false
  | a, b => some (decide (a = b))

def reftypesEquivalent (a b : RefType) : Option Bool :=
  both (some (a.nullable == b.nullable)) (heapsEquivalent indices alignedA alignedB a.heap b.heap)

def valtypesEquivalent : ValType → ValType → Option Bool
  | .ref a, .ref b => reftypesEquivalent indices alignedA alignedB a b
  | a, b => some (decide (a = b))

def storagesEquivalent : StorageType → StorageType → Option Bool
  | .ref a, .ref b => reftypesEquivalent indices alignedA alignedB a b
  | a, b => some (decide (a = b))

def fieldsEquivalent (a b : FieldType) : Option Bool :=
  both (some (a.mutable == b.mutable)) (storagesEquivalent indices alignedA alignedB a.ty b.ty)

def compositesEquivalent : CompositeType → CompositeType → Option Bool
  | .func a, .func b =>
      both (some (a.params.length == b.params.length && a.results.length == b.results.length))
        (both (everyPair (valtypesEquivalent indices alignedA alignedB) a.params b.params)
          (everyPair (valtypesEquivalent indices alignedA alignedB) a.results b.results))
  | .struct a, .struct b => everyPair (fieldsEquivalent indices alignedA alignedB) a b
  | .array a, .array b => fieldsEquivalent indices alignedA alignedB a b
  | _, _ => some false

/-- One member of each group. Supertypes are compared as types of other groups,
also where they are members of these. -/
def subtypeEquivalent : Option SubType → Option SubType → Option Bool
  | some a, some b =>
      both (some (a.isFinal == b.isFinal)) (both (everyPair indices a.supertypes b.supertypes)
        (compositesEquivalent indices alignedA alignedB a.composite b.composite))
  | _, _ => some false

end Equivalence

/-- Rec groups of equal length, position and structure. -/
def indicesEquivalent (ma mb : Module) : Nat → Nat → Nat → Option Bool
  | 0, _, _ => none
  | fuel + 1, a, b =>
      let groupA := ma.groupOf a
      let groupB := mb.groupOf b
      if groupA.2 ≠ groupB.2 ∨ a - groupA.1 ≠ b - groupB.1 then some false
      else every (fun offset => subtypeEquivalent (indicesEquivalent ma mb fuel) groupA groupB
        ma.types[groupA.1 + offset]? mb.types[groupB.1 + offset]?) (List.range groupA.2)

/-- A depth after which a comparison of two accepted sections has its answer,
or has none. -/
def comparisonDepth (ma mb : Module) : Nat :=
  ma.types.length + mb.types.length + 1

/-- The answer of the comparison, if it comes to an end. -/
def typeIndicesEquivalent (ma : Module) (a : Nat) (mb : Module) (b : Nat) : Option Bool :=
  indicesEquivalent ma mb (comparisonDepth ma mb) a b

/-! ## Subtyping -/

def CompositeType.kind : CompositeType → HeapType
  | .struct _ => .struct
  | .array _ => .array
  | .func _ => .func

/-- Whether a concrete type unfolds to a kind. -/
def unfoldsTo (m : Module) (index : Nat) (kind : HeapType) : Bool :=
  match m.types[index]? with
  | some st => decide (st.composite.kind = kind)
  | none => false

def aggregate (m : Module) (index : Nat) : Bool :=
  unfoldsTo m index .struct || unfoldsTo m index .array

section Subtyping

variable (fuel : Nat) (m : Module)

/-- The goal is equivalent to the type or to one its supertypes lead to. -/
def walkSupertypes : Nat → Nat → Nat → Option Bool
  | 0, _, _ => some false
  | hops + 1, current, goal =>
      match indicesEquivalent m m fuel current goal with
      | some false =>
          match m.parent? current with
          | some parent => walkSupertypes hops parent goal
          | none => some false
      | r => r

def typeIsSubtype (start goal : Nat) : Option Bool :=
  walkSupertypes fuel m (m.types.length + 1) start goal

/-- The subtyping of the module checks. -/
def heapMatches (sub sup : HeapType) : Option Bool :=
  if sub = sup then some true
  else
    match sub, sup with
    | .type a, .type b => typeIsSubtype fuel m a b
    | .type a, .func => some (unfoldsTo m a .func)
    | .type a, .struct => some (unfoldsTo m a .struct)
    | .type a, .array => some (unfoldsTo m a .array)
    | .type a, .eq | .type a, .any => some (aggregate m a)
    | .i31, .eq | .i31, .any | .struct, .eq | .struct, .any | .array, .eq | .array, .any => some true
    | .eq, .any => some true
    | .none, .any | .none, .eq | .none, .i31 | .none, .struct | .none, .array => some true
    | .none, .type b => some (aggregate m b)
    | .noFunc, .func => some true
    | .noFunc, .type b => some (unfoldsTo m b .func)
    | .noExternal, .external | .noExn, .exn => some true
    | _, _ => some false

def reftypeMatches (sub sup : RefType) : Option Bool :=
  both (some (!sub.nullable || sup.nullable)) (heapMatches fuel m sub.heap sup.heap)

def valtypeMatches : ValType → ValType → Option Bool
  | .ref sub, .ref sup => reftypeMatches fuel m sub sup
  | sub, sup => some (decide (sub = sup))

def storageMatches : StorageType → StorageType → Option Bool
  | .ref sub, .ref sup => reftypeMatches fuel m sub sup
  | sub, sup => some (decide (sub = sup))

/-- A mutable field is invariant. -/
def fieldMatches (sub sup : FieldType) : Option Bool :=
  both (some (sub.mutable == sup.mutable)) (both (storageMatches fuel m sub.ty sup.ty)
    (if sub.mutable then storageMatches fuel m sup.ty sub.ty else some true))

def comptypeMatches : CompositeType → CompositeType → Option Bool
  | .func sub, .func sup =>
      both (some (sub.params.length == sup.params.length &&
          sub.results.length == sup.results.length))
        (both (everyPair (valtypeMatches fuel m) sup.params sub.params)
          (everyPair (valtypeMatches fuel m) sub.results sup.results))
  | .struct sub, .struct sup =>
      both (some (decide (sup.length ≤ sub.length)))
        (every (fun p => fieldMatches fuel m p.1 p.2) (sub.zip sup))
  | .array sub, .array sup => fieldMatches fuel m sub sup
  | _, _ => some false

def absSub (sub sup : HeapType) : Bool :=
  decide (sub = sup) ||
    match sub with
    | .eq => decide (sup = .any)
    | .i31 | .struct | .array => decide (sup = .eq ∨ sup = .any)
    | .none => decide (sup ∈ [.any, .eq, .i31, .struct, .array])
    | .noFunc => decide (sup = .func)
    | .noExternal => decide (sup = .external)
    | .noExn => decide (sup = .exn)
    | _ => false

theorem absSub_none {a : HeapType} (h : absSub a .none = true) : a = .none := by
  cases a <;> simp_all [absSub]

theorem absSub_noFunc {a : HeapType} (h : absSub a .noFunc = true) : a = .noFunc := by
  cases a <;> simp_all [absSub]

/-- The subtyping of the body machine. -/
def heapSub? (sub sup : HeapType) : Option Bool :=
  if sub = sup then some true
  else
    match sub, sup with
    | .type s, .type t => walkSupertypes fuel m (m.types.length + 1) s t
    | .type s, _ =>
        match m.types[s]? with
        | some st => some (absSub st.composite.kind sup)
        | none => some false
    | .noFunc, .type index =>
        match m.types[index]? with
        | some st => some (decide (st.composite.kind = .func))
        | none => some false
    | .none, .type index =>
        match m.types[index]? with
        | some st => some (decide (st.composite.kind ≠ .func))
        | none => some false
    | _, _ => some (absSub sub sup)

def refSub? (expected actual : RefType) : Option Bool :=
  if !expected.nullable && actual.nullable then some false
  else heapSub? fuel m actual.heap expected.heap

def valSub? (expected actual : ValType) : Option Bool :=
  if expected = actual then some true
  else
    match expected, actual with
    | .ref e, .ref a => refSub? fuel m e a
    | _, _ => some false

end Subtyping

/-- Whether the comparison comes to an end with a subtype; so for `refSub` and
`valSub`. -/
def heapSub (m : Module) (sub sup : HeapType) : Bool :=
  heapSub? (comparisonDepth m m) m sub sup == some true

def refSub (m : Module) (expected actual : RefType) : Bool :=
  refSub? (comparisonDepth m m) m expected actual == some true

def valSub (m : Module) (expected actual : ValType) : Bool :=
  valSub? (comparisonDepth m m) m expected actual == some true

def topHeap (m : Module) : HeapType → HeapType
  | .func | .noFunc => .func
  | .external | .noExternal => .external
  | .exn | .noExn => .exn
  | .type index =>
      match m.types[index]? with
      | some st => if st.composite.kind = .func then .func else .any
      | none => .type index
  | _ => .any

/-- All types but non-null references have a default value. -/
def isDefaultable : ValType → Bool
  | .ref r => r.nullable
  | _ => true

/-! ## What the section is checked for -/

def checkValueTypes (types : List ValType) (typeCount : Nat) : Except Error Unit :=
  if types.all (fun
      | .ref ⟨_, .type index⟩ => decide (index < typeCount)
      | _ => true) then .ok ()
  else .error (.invalid "unknown type")

def checkStorageType (storage : StorageType) (typeCount : Nat) : Except Error Unit :=
  match storage with
  | .ref ⟨_, .type index⟩ =>
      if index < typeCount then .ok () else .error (.invalid "unknown type")
  | _ => .ok ()

def maxTypes : Nat := 2 ^ 14

/-- The end of its rec group for every type. -/
def groupEnds (typeCount : Nat) : List Nat → Nat → Except Error (List Nat)
  | [], start =>
      if start ≠ typeCount then .error (.invalid "type group length") else .ok []
  | len :: rest, start =>
      if typeCount < start + len then .error (.invalid "type group length")
      else do
        let ends ← groupEnds typeCount rest (start + len)
        return List.replicate len (start + len) ++ ends

/-- The declared supertype of one type. -/
def checkSupertype (fuel : Nat) (m : Module) (index : Nat) (ty : SubType) : Except Error Unit :=
  if 1 < ty.supertypes.length then .error (.invalid "multiple supertypes")
  else
    match ty.supertypes.head? with
    | none => .ok ()
    | some supertype =>
        if index ≤ supertype then .error (.invalid "supertype must precede the subtype")
        else
          match m.types[supertype]? with
          | none => .error (.invalid "unknown type")
          | some parent =>
              if parent.isFinal then .error (.invalid "sub type")
              else if comptypeMatches fuel m ty.composite parent.composite = some true then .ok ()
              else .error (.invalid "sub type")

/-- The references of one type. -/
def checkReferences (groupEnd : Nat) : CompositeType → Except Error Unit
  | .func ty => do
      checkValueTypes ty.params groupEnd
      checkValueTypes ty.results groupEnd
  | .struct fields => fields.forM fun field => checkStorageType field.ty groupEnd
  | .array field => checkStorageType field.ty groupEnd

/-- Without rec groups every type is one of its own. -/
def Module.groupEnds (m : Module) : Except Error (List Nat) :=
  if m.recGroups.isEmpty then .ok ((List.range m.types.length).map (· + 1))
  else Wasm.groupEnds m.types.length m.recGroups 0

/-- The checks of the type section. A comparison without an answer accepts
nothing. -/
def checkTypeSection (fuel : Nat) (m : Module) : Except Error Unit :=
  if maxTypes < m.types.length then .error (.invalid "too many types")
  else do
    let ends ← m.groupEnds
    (m.types.zip ends).zipIdx.forM fun p => do
      checkSupertype fuel m p.2 p.1.1
      checkReferences p.1.2 p.1.1.composite

end Slag.Wasm
