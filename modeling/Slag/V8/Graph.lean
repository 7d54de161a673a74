import Mathlib.Data.List.Forall2
import Mathlib.Data.List.ReduceOption
import Mathlib.Data.Option.Basic
import Slag.V8.Clone

/-!
The object graph of some values, and when two graphs are the same: objects
correspond one to one, and corresponding objects have the same contents.
-/

namespace Slag.V8

def Value.isObject : Value → Bool
  | .object _ => true
  | _ => false

/-- Equal values, where an object stands for the one it is linked to. -/
inductive Value.Same (link : Ref → Ref → Prop) : Value → Value → Prop
  | primitive {v : Value} (h : v.isObject = false) : Same link v v
  | object {r t : Ref} (h : link r t) : Same link (.object r) (.object t)

/-- The same kind and contents, in the same order; times are compared by `time`. -/
inductive Obj.Same (time : UInt64 → UInt64 → Prop) (link : Ref → Ref → Prop) : Obj → Obj → Prop
  | array {elements elements'}
      (h : List.Forall₂ (Option.Rel (Value.Same link)) elements elements') :
      Same time link (.array elements) (.array elements')
  | plain {entries entries'}
      (h : List.Forall₂ (fun e e' => e.1 = e'.1 ∧ e.2.Same link e'.2) entries entries') :
      Same time link (.plain entries) (.plain entries')
  | map {entries entries'}
      (h : List.Forall₂ (fun e e' => e.1.Same link e'.1 ∧ e.2.Same link e'.2) entries entries') :
      Same time link (.map entries) (.map entries')
  | set {elements elements'} (h : List.Forall₂ (Value.Same link) elements elements') :
      Same time link (.set elements) (.set elements')
  | date {t t'} (h : time t t') : Same time link (.date t) (.date t')
  | regExp {source flags} : Same time link (.regExp source flags) (.regExp source flags)
  | arrayBuffer {bytes} : Same time link (.arrayBuffer bytes) (.arrayBuffer bytes)
  | view {kind offset length buffer buffer'} (h : link buffer buffer') :
      Same time link (.view kind offset length buffer) (.view kind offset length buffer')

section Same

variable {time time' : UInt64 → UInt64 → Prop} {link link' : Ref → Ref → Prop}

theorem Value.Same.mono (hlink : ∀ r t, link r t → link' r t) {v w : Value}
    (h : v.Same link w) : v.Same link' w := by
  cases h with
  | primitive h => exact .primitive h
  | object h => exact .object (hlink _ _ h)

theorem optionSame_mono (hlink : ∀ r t, link r t → link' r t) {v w : Option Value}
    (h : Option.Rel (Value.Same link) v w) : Option.Rel (Value.Same link') v w := by
  cases h with
  | none => exact .none
  | some h => exact .some (h.mono hlink)

theorem Obj.Same.mono (htime : ∀ a b, time a b → time' a b)
    (hlink : ∀ r t, link r t → link' r t) {o o' : Obj} (h : o.Same time link o') :
    o.Same time' link' o' := by
  cases h with
  | array h => exact .array (h.imp fun _ _ h => optionSame_mono hlink h)
  | plain h => exact .plain (h.imp fun _ _ h => ⟨h.1, h.2.mono hlink⟩)
  | map h => exact .map (h.imp fun _ _ h => ⟨h.1.mono hlink, h.2.mono hlink⟩)
  | set h => exact .set (h.imp fun _ _ h => h.mono hlink)
  | date h => exact .date (htime _ _ h)
  | regExp => exact .regExp
  | arrayBuffer => exact .arrayBuffer
  | view h => exact .view (hlink _ _ h)

theorem Value.Same.and {v w : Value} (h : v.Same link w) (h' : v.Same link' w) :
    v.Same (fun r t => link r t ∧ link' r t) w := by
  cases h with
  | primitive h => exact .primitive h
  | object h =>
      cases h' with
      | primitive h' => cases h'
      | object h' => exact .object ⟨h, h'⟩

theorem optionSame_and {v w : Option Value} (h : Option.Rel (Value.Same link) v w)
    (h' : Option.Rel (Value.Same link') v w) :
    Option.Rel (Value.Same fun r t => link r t ∧ link' r t) v w := by
  cases h with
  | none => exact .none
  | some h =>
      cases h' with
      | some h' => exact .some (h.and h')

theorem forall₂_both {α β : Type} {R S : α → β → Prop} {xs : List α} {ys : List β}
    (h : List.Forall₂ R xs ys) (h' : List.Forall₂ S xs ys) :
    List.Forall₂ (fun x y => R x y ∧ S x y) xs ys := by
  induction h with
  | nil => exact .nil
  | cons h _ ih =>
      cases h' with
      | cons h' htail => exact .cons ⟨h, h'⟩ (ih htail)

/-- Objects that are the same by two links are the same by both at once. -/
theorem Obj.Same.and {o o' : Obj} (h : o.Same time link o') (h' : o.Same time' link' o') :
    o.Same (fun a b => time a b ∧ time' a b) (fun r t => link r t ∧ link' r t) o' := by
  cases h with
  | array h =>
      cases h' with
      | array h' => exact .array ((forall₂_both h h').imp fun _ _ h => optionSame_and h.1 h.2)
  | plain h =>
      cases h' with
      | plain h' => exact .plain ((forall₂_both h h').imp fun _ _ h => ⟨h.1.1, h.1.2.and h.2.2⟩)
  | map h =>
      cases h' with
      | map h' =>
          exact .map ((forall₂_both h h').imp fun _ _ h => ⟨h.1.1.and h.2.1, h.1.2.and h.2.2⟩)
  | set h =>
      cases h' with
      | set h' => exact .set ((forall₂_both h h').imp fun _ _ h => h.1.and h.2)
  | date h =>
      cases h' with
      | date h' => exact .date ⟨h, h'⟩
  | regExp => exact .regExp
  | arrayBuffer => exact .arrayBuffer
  | view h =>
      cases h' with
      | view h' => exact .view ⟨h, h'⟩

theorem normalizeKey_same {v w : Value} (h : v.Same link w) (hv : normalizeKey v = v) :
    normalizeKey w = w := by
  cases h with
  | primitive _ => exact hv
  | object _ => rfl

/-- Keys stay apart when the link is one to one. -/
theorem sameValueZero_same (hfun : ∀ r t t', link r t → link r t' → t = t')
    (hinj : ∀ r r' t, link r t → link r' t → r = r') {v w v' w' : Value}
    (h : v.Same link w) (h' : v'.Same link w') :
    sameValueZero w w' = sameValueZero v v' := by
  cases h with
  | primitive hv =>
      cases h' with
      | primitive _ => rfl
      | object _ =>
          cases v with
          | object _ => cases hv
          | undefined | null | boolean _ | number _ | string _ | bigInt _ => rfl
  | @object r t h =>
      cases h' with
      | primitive hv' =>
          cases v' with
          | object _ => cases hv'
          | undefined | null | boolean _ | number _ | string _ | bigInt _ => rfl
      | @object r' t' h' =>
          have hiff : t = t' ↔ r = r' := by
            constructor
            · rintro rfl
              exact hinj _ _ _ h h'
            · rintro rfl
              exact hfun _ _ _ h h'
          simp only [sameValueZero, Value.object.injEq, hiff]

end Same

def isNanTime (time : UInt64) : Bool := 0x7FF0000000000000 < time.toNat % 2 ^ 63

/-- The same time value: the bits, or no time at all. -/
def SameTime (time time' : UInt64) : Prop :=
  time = time' ∨ (isNanTime time ∧ isNanTime time')

instance (time time' : UInt64) : Decidable (SameTime time time') :=
  inferInstanceAs (Decidable (_ ∨ _))

/-- The joint graphs of two lists of values are isomorphic. -/
def Isomorphic (heap : Heap) (values : List Value) (heap' : Heap) (values' : List Value) : Prop :=
  ∃ link : Ref → Ref → Prop,
    (∀ r t t', link r t → link r t' → t = t') ∧
    (∀ r r' t, link r t → link r' t → r = r') ∧
    (∀ r t, link r t →
      ∃ o o', heap[r]? = some o ∧ heap'[t]? = some o' ∧ o.Same SameTime link o') ∧
    List.Forall₂ (Value.Same link) values values'

def Obj.children : Obj → List Value
  | .view _ _ _ buffer => [.object buffer]
  | o => o.items.reduceOption

theorem exists_of_forall₂ {α β : Type} {R : α → β → Prop} {xs : List α} {ys : List β}
    (h : List.Forall₂ R xs ys) {x : α} (hx : x ∈ xs) : ∃ y, R x y := by
  induction h with
  | nil => exact absurd hx (List.not_mem_nil)
  | @cons x' y' _ _ h _ ih =>
      rcases List.mem_cons.mp hx with rfl | hx
      · exact ⟨y', h⟩
      · exact ih hx

/-- What an object refers to is linked as it is. -/
theorem Obj.Same.child {time : UInt64 → UInt64 → Prop} {link : Ref → Ref → Prop} {o o' : Obj}
    (h : o.Same time link o') {r : Ref} (hr : .object r ∈ o.children) : ∃ t, link r t := by
  have hvalue {w : Value} (h : (Value.object r).Same link w) : ∃ t, link r t := by
    cases h with
    | primitive h => cases h
    | object h => exact ⟨_, h⟩
  cases h with
  | array h =>
      obtain ⟨_, h⟩ := exists_of_forall₂ h (List.reduceOption_mem_iff.mp hr)
      cases h with
      | some h => exact hvalue h
  | plain h =>
      obtain ⟨e, he, hr⟩ := List.mem_flatMap.mp (List.reduceOption_mem_iff.mp hr)
      obtain ⟨_, h⟩ := exists_of_forall₂ h he
      simp only [List.mem_cons, Option.some.injEq, reduceCtorEq, false_or, List.not_mem_nil,
        or_false] at hr
      rw [← hr] at h
      exact hvalue h.2
  | map h =>
      obtain ⟨e, he, hr⟩ := List.mem_flatMap.mp (List.reduceOption_mem_iff.mp hr)
      obtain ⟨_, h⟩ := exists_of_forall₂ h he
      simp only [List.mem_cons, Option.some.injEq, List.not_mem_nil, or_false] at hr
      rcases hr with hr | hr
      · rw [← hr] at h
        exact hvalue h.1
      · rw [← hr] at h
        exact hvalue h.2
  | set h =>
      obtain ⟨e, he, hr⟩ := List.mem_map.mp (List.reduceOption_mem_iff.mp hr)
      cases hr
      obtain ⟨_, h⟩ := exists_of_forall₂ h he
      exact hvalue h
  | date _ | regExp | arrayBuffer => exact absurd hr (List.not_mem_nil)
  | view h =>
      cases List.mem_singleton.mp hr
      exact ⟨_, h⟩

/-- The objects of the graph of some values. -/
inductive Reachable (heap : Heap) (values : List Value) : Ref → Prop
  | root {ref} (h : .object ref ∈ values) : Reachable heap values ref
  | child {ref ref' o} (h : Reachable heap values ref) (hget : heap[ref]? = some o)
      (hmem : .object ref' ∈ o.children) : Reachable heap values ref'

/-- What the engine keeps of an object of each kind the serializer carries. The
entries of a plain object, a Map or a Set are listed in an array, the last two
with a key and a value each. -/
def Obj.Lawful (heap : Heap) (engine : Engine) : Obj → Prop
  | .array elements => elements.length < 2 ^ 32
  | .plain entries =>
      entries.length < 2 ^ 32 ∧
      entries.Pairwise fun e e' => e.1 ≠ e'.1 ∧ keyBefore e.1 e'.1
  | .map entries =>
      2 * entries.length < 2 ^ 32 ∧
      (entries.Pairwise fun e e' => sameValueZero e.1 e'.1 = false) ∧
      ∀ e ∈ entries, normalizeKey e.1 = e.1
  | .set elements =>
      2 * elements.length < 2 ^ 32 ∧
      (elements.Pairwise fun e e' => sameValueZero e e' = false) ∧
      ∀ e ∈ elements, normalizeKey e = e
  | .date _ => True
  | .regExp source flags =>
      engine.regExp (.string source) (.string flags) = some (source, flags)
  | .arrayBuffer _ => True
  | .view kind offset length buffer =>
      ∃ bytes, heap[buffer]? = some (.arrayBuffer bytes) ∧ viewFits kind offset length bytes.length
  | .uncloneable => False

/-- A string or a BigInt whose length the format holds. -/
def Value.Sized : Value → Prop
  | .string units => units.length < 2 ^ 32
  | .bigInt n => (Nat.digits (2 ^ 64) n.natAbs).length < 2 ^ 32
  | _ => True

def Obj.Sized : Obj → Prop
  | .regExp source flags => source.length < 2 ^ 32 ∧ flags.length < 2 ^ 32
  | .arrayBuffer bytes => bytes.length < 2 ^ 32
  | .view _ offset length _ => offset < 2 ^ 32 ∧ length < 2 ^ 32
  | o => ∀ v, some v ∈ o.items → v.Sized

/-- Some values of a realm, with every object they reach. -/
structure Graph (engine : Engine) where
  heap : Heap
  values : List Value
  lawful : ∀ ref, Reachable heap values ref →
    ∃ o, heap[ref]? = some o ∧ o.Lawful heap engine

/-- The sizes beyond which `write_value` refuses. -/
structure Graph.Sized {engine : Engine} (g : Graph engine) : Prop where
  heap : g.heap.length ≤ 2 ^ 32
  values : ∀ v ∈ g.values, v.Sized
  objects : ∀ ref, Reachable g.heap g.values ref → ∀ o, g.heap[ref]? = some o → o.Sized

end Slag.V8
