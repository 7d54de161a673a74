import Mathlib.Data.List.Basic
import Slag.Crux.Value

/-!
Hidden classes (`map.rs`). A map is an immutable list of descriptors, so an
object's map is its descriptor list. The transition tables only memoise the
forks and are left out. The prototype field and the generation of a map are read by no modelled
function and are left out.
-/

namespace Slag.Crux

/-- The bitmask of a descriptor, as its three flags. -/
structure MapAttrs where
  writable : Bool
  enumerable : Bool
  configurable : Bool
deriving DecidableEq, Repr

/-- The attributes of a property that CreateDataProperty makes. -/
def MapAttrs.all : MapAttrs := ⟨true, true, true⟩

structure MapEntry where
  key : PropertyKey
  offset : Nat
  attrs : MapAttrs
deriving DecidableEq, Repr

structure Map where
  descriptors : List MapEntry
deriving DecidableEq, Repr

namespace Map

def empty : Map := ⟨[]⟩

variable (map : Map)

def descriptorCount : Nat := map.descriptors.length

def find (key : PropertyKey) : Option Nat :=
  map.descriptors.findIdx? fun entry => entry.key = key

def descriptorAt (index : Nat) : Option MapEntry := map.descriptors[index]?

/-- `add_descriptor`: the assigned offset is the old descriptor count. -/
def addDescriptor (key : PropertyKey) (attrs : MapAttrs) : Map :=
  ⟨map.descriptors ++ [⟨key, map.descriptorCount, attrs⟩]⟩

variable {key : PropertyKey} {ordinal : Nat}

theorem find_eq_some (h : map.find key = some ordinal) :
    ∃ entry, map.descriptorAt ordinal = some entry ∧ entry.key = key := by
  obtain ⟨hlt, hkey, -⟩ := List.findIdx?_eq_some_iff_getElem.mp h
  exact ⟨map.descriptors[ordinal], by simp [descriptorAt, hlt], by simpa using hkey⟩

theorem find_lt (h : map.find key = some ordinal) :
    ordinal < map.descriptorCount := by
  obtain ⟨hlt, -⟩ := List.findIdx?_eq_some_iff_getElem.mp h
  exact hlt

theorem find_eq_none :
    map.find key = none ↔ ∀ entry ∈ map.descriptors, entry.key ≠ key := by
  simp [find, List.findIdx?_eq_none_iff]

theorem find_inj {key key' : PropertyKey} (h : map.find key = some ordinal)
    (h' : map.find key' = some ordinal) : key = key' := by
  obtain ⟨entry, he, hk⟩ := map.find_eq_some h
  obtain ⟨entry', he', hk'⟩ := map.find_eq_some h'
  rw [he] at he'
  obtain rfl := Option.some.inj he'
  exact hk.symm.trans hk'

theorem find_addDescriptor (key key' : PropertyKey) (attrs : MapAttrs) :
    (map.addDescriptor key attrs).find key' =
      match map.find key' with
      | some ordinal => some ordinal
      | none => if key = key' then some map.descriptorCount else none := by
  simp only [find, addDescriptor, List.findIdx?_append]
  cases map.descriptors.findIdx? fun entry => entry.key = key' with
  | some ordinal => simp
  | none =>
      by_cases hk : key = key'
      · simp [hk, List.findIdx?_cons, descriptorCount]
      · simp [hk, List.findIdx?_cons]

theorem descriptorAt_addDescriptor (key : PropertyKey) (attrs : MapAttrs) (i : Nat) :
    (map.addDescriptor key attrs).descriptorAt i =
      if i < map.descriptorCount then map.descriptorAt i
      else if i = map.descriptorCount then some ⟨key, map.descriptorCount, attrs⟩ else none := by
  simp only [descriptorAt, addDescriptor, descriptorCount, List.getElem?_append]
  by_cases h : i < map.descriptors.length
  · simp [h]
  · by_cases h' : i = map.descriptors.length
    · simp [h']
    · have : i - map.descriptors.length ≠ 0 := by omega
      simp only [h, h', if_false]
      rw [List.getElem?_eq_none]
      simp only [List.length_singleton]
      omega

@[simp] theorem descriptorCount_addDescriptor (key : PropertyKey) (attrs : MapAttrs) :
    (map.addDescriptor key attrs).descriptorCount = map.descriptorCount + 1 := by
  simp [descriptorCount, addDescriptor]

/-- Every offset a fork assigns is the descriptor's ordinal. -/
def OffsetsOrdinal : Prop :=
  ∀ i entry, map.descriptorAt i = some entry → entry.offset = i

theorem offsetsOrdinal_empty : empty.OffsetsOrdinal := by
  intro i entry h
  simp [descriptorAt, empty] at h

theorem offsetsOrdinal_addDescriptor (h : map.OffsetsOrdinal) (key : PropertyKey)
    (attrs : MapAttrs) : (map.addDescriptor key attrs).OffsetsOrdinal := by
  intro i entry he
  rw [descriptorAt_addDescriptor] at he
  split_ifs at he with hlt heq
  · exact h i entry he
  · obtain rfl := Option.some.inj he
    exact heq.symm

end Map

end Slag.Crux
