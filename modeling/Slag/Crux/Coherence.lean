import Mathlib.Data.List.TakeWhile
import Slag.Crux.Methods

/-!
The storage invariant of an ordinary object. The same properties live in the
vector, in the lazy index, in the map with its in-object fields, and, in the
vector-free state, in the fields alone; `ownList` is the one ordered list they
all stand for. `Coherent` is kept by every operation. `Aligned` says that a
descriptor past the in-object fields is its own vector position; it is what
`map_get` needs there.
-/

namespace Slag.Crux.ObjState

open AssocList

/-- The own properties in creation order. -/
def ownList (s : ObjState) : PropertyList :=
  if s.propsDeferred then (s.map.map s.rebuiltProperties).getD [] else s.properties

/-- The map and the fields agree with the property list, for the keys in `P`.
A described key that is not an own property is a field a constructor left out,
so its descriptor has the attributes CreateDataProperty gives. -/
structure FieldsOn (s : ObjState) (map : Map) (P : PropertyKey → Prop) : Prop where
  offsets : map.OffsetsOrdinal
  first : ∀ ordinal entry value, map.descriptorAt ordinal = some entry → ordinal < inlineFields →
    s.inFields ordinal = some value → map.find entry.key = some ordinal
  far : ∀ ordinal entry, map.descriptorAt ordinal = some entry → inlineFields ≤ ordinal →
    map.find entry.key = some ordinal
  beyond : ∀ ordinal, map.descriptorCount ≤ ordinal → s.inFields ordinal = none
  written : ∀ ordinal entry value, map.descriptorAt ordinal = some entry → P entry.key →
    ordinal < inlineFields → s.inFields ordinal = some value →
    get? s.ownList entry.key = some (fieldProperty entry value)
  stored : ∀ key ordinal, map.find key = some ordinal → P key → ordinal < inlineFields →
    key ∈ keys s.ownList → (s.inFields ordinal).isSome
  vector : ∀ key ordinal entry, map.find key = some ordinal → P key → inlineFields ≤ ordinal →
    map.descriptorAt ordinal = some entry →
    ∃ value, get? s.ownList key = some (fieldProperty entry value)
  holes : ∀ key ordinal entry, map.find key = some ordinal → P key → key ∉ keys s.ownList →
    map.descriptorAt ordinal = some entry → entry.attrs = .all

theorem FieldsOn.congr {s t : ObjState} {map : Map} {P : PropertyKey → Prop}
    (hi : t.inFields = s.inFields) (hl : t.ownList = s.ownList) (hf : s.FieldsOn map P) :
    t.FieldsOn map P := by
  constructor
  · exact hf.offsets
  · simpa only [hi] using hf.first
  · exact hf.far
  · simpa only [hi] using hf.beyond
  · simpa only [hi, hl] using hf.written
  · simpa only [hi, hl] using hf.stored
  · simpa only [hl] using hf.vector
  · simpa only [hl] using hf.holes

abbrev FieldsCoherent (s : ObjState) (map : Map) : Prop := s.FieldsOn map fun _ => True

structure Coherent (s : ObjState) : Prop where
  ordinary : s.kind = .ordinary
  nodup : (keys s.properties).Nodup
  index : ∀ index, s.propertyIndex = some index → ∀ key, index key = position s.properties key
  deferred : s.propsDeferred = true → s.properties = [] ∧
    ∃ map, s.map = some map ∧ map.descriptorCount ≤ inlineFields
  fields : ∀ map, s.map = some map → s.FieldsCoherent map

/-- A key described past the in-object fields stands at its ordinal in the vector. -/
def Aligned (s : ObjState) : Prop :=
  ∀ map, s.map = some map → ∀ key ordinal, map.find key = some ordinal → inlineFields ≤ ordinal →
    position s.properties key = some ordinal

section Rebuild

variable {s : ObjState} {map : Map}

theorem rebuiltProperties_eq (ho : map.OffsetsOrdinal)
    (hc : map.descriptorCount ≤ inlineFields) :
    s.rebuiltProperties map = map.descriptors.filterMap fun entry =>
      (s.inFields entry.offset).map fun value => (entry.key, fieldProperty entry value) := by
  have hall : map.descriptors.takeWhile (fun entry => entry.offset < inlineFields) =
      map.descriptors := by
    rw [List.takeWhile_eq_self_iff]
    intro entry hentry
    obtain ⟨i, hi⟩ := List.mem_iff_getElem?.mp hentry
    have hlt := (List.getElem?_eq_some_iff.mp hi).1
    rw [ho i entry hi]
    simp only [decide_eq_true_eq]
    exact Nat.lt_of_lt_of_le hlt hc
  rw [rebuiltProperties, hall]

theorem mem_rebuiltProperties (ho : map.OffsetsOrdinal) (hc : map.descriptorCount ≤ inlineFields)
    {key : PropertyKey} {property : Property} :
    (key, property) ∈ s.rebuiltProperties map ↔
      ∃ ordinal entry value, map.descriptorAt ordinal = some entry ∧ entry.key = key ∧
        s.inFields ordinal = some value ∧ property = fieldProperty entry value := by
  rw [rebuiltProperties_eq ho hc, List.mem_filterMap]
  constructor
  · rintro ⟨entry, hentry, hmap⟩
    obtain ⟨i, hi⟩ := List.mem_iff_getElem?.mp hentry
    obtain ⟨value, hvalue, heq⟩ := Option.map_eq_some_iff.mp hmap
    obtain ⟨hkey, hprop⟩ := Prod.mk.inj heq
    rw [ho i entry hi] at hvalue
    exact ⟨i, entry, value, hi, hkey, hvalue, hprop.symm⟩
  · rintro ⟨i, entry, value, hi, rfl, hvalue, rfl⟩
    refine ⟨entry, List.mem_of_getElem? hi, ?_⟩
    rw [ho i entry hi, hvalue]
    rfl

/-- The written descriptors have distinct keys when each is its key's first. -/
theorem nodup_rebuiltProperties (ho : map.OffsetsOrdinal)
    (hc : map.descriptorCount ≤ inlineFields)
    (hfirst : ∀ ordinal entry value, map.descriptorAt ordinal = some entry →
      s.inFields ordinal = some value → map.find entry.key = some ordinal) :
    (keys (s.rebuiltProperties map)).Nodup := by
  rw [rebuiltProperties_eq ho hc, keys, List.Nodup, List.pairwise_map, List.pairwise_filterMap,
    List.pairwise_iff_getElem]
  intro i j hi hj hij b hb b' hb' heq
  obtain ⟨v, hv, rfl⟩ := Option.map_eq_some_iff.mp hb
  obtain ⟨v', hv', rfl⟩ := Option.map_eq_some_iff.mp hb'
  have hdi : map.descriptorAt i = some map.descriptors[i] := List.getElem?_eq_getElem hi
  have hdj : map.descriptorAt j = some map.descriptors[j] := List.getElem?_eq_getElem hj
  rw [ho i _ hdi] at hv
  rw [ho j _ hdj] at hv'
  have hfi := hfirst i _ v hdi hv
  have hfj := hfirst j _ v' hdj hv'
  simp only at heq
  rw [heq, hfj] at hfi
  have := Option.some.inj hfi
  omega

/-- Writing an unwritten field above every written one appends to the list. -/
theorem rebuiltProperties_write (ho : map.OffsetsOrdinal)
    (hc : map.descriptorCount ≤ inlineFields) {ordinal : Nat} {entry : MapEntry}
    (hentry : map.descriptorAt ordinal = some entry) (hnew : s.inFields ordinal = none)
    (hhigher : ∀ i, ordinal < i → i < map.descriptorCount → s.inFields i = none) (value : Value) :
    rebuiltProperties { s with inFields := Function.update s.inFields ordinal (some value) } map =
      s.rebuiltProperties map ++ [(entry.key, fieldProperty entry value)] := by
  rw [rebuiltProperties_eq ho hc, rebuiltProperties_eq ho hc]
  have hlt := (List.getElem?_eq_some_iff.mp hentry).1
  have hget := (List.getElem?_eq_some_iff.mp hentry).2
  have hsplit : map.descriptors =
      map.descriptors.take ordinal ++ entry :: map.descriptors.drop (ordinal + 1) := by
    rw [← hget, List.getElem_cons_drop, List.take_append_drop]
  have hbelow : ∀ e ∈ map.descriptors.take ordinal, e.offset ≠ ordinal := by
    intro e he
    obtain ⟨i, hi⟩ := List.mem_iff_getElem?.mp he
    rw [List.getElem?_take] at hi
    split_ifs at hi with hio
    rw [ho i e hi]
    omega
  have habove : ∀ e ∈ map.descriptors.drop (ordinal + 1),
      e.offset ≠ ordinal ∧ s.inFields e.offset = none := by
    intro e he
    obtain ⟨i, hi⟩ := List.mem_iff_getElem?.mp he
    rw [List.getElem?_drop] at hi
    have hlti := (List.getElem?_eq_some_iff.mp hi).1
    rw [ho _ e hi]
    exact ⟨by omega, hhigher _ (by omega) hlti⟩
  have hoff : entry.offset = ordinal := ho ordinal entry hentry
  rw [hsplit]
  simp only [List.filterMap_append, List.filterMap_cons, hoff, hnew, Function.update_self,
    Option.map_none, Option.map_some]
  have hdrop : ∀ f : MapEntry → Option (PropertyKey × Property),
      (∀ e ∈ map.descriptors.drop (ordinal + 1), f e = none) →
      (map.descriptors.drop (ordinal + 1)).filterMap f = [] := by
    intro f hf
    rw [List.filterMap_eq_nil_iff]
    exact hf
  rw [hdrop, hdrop]
  · simp only [List.append_nil]
    congr 1
    apply List.filterMap_congr
    intro e he
    rw [Function.update_of_ne (hbelow e he)]
  · intro e he
    simp [(habove e he).2]
  · intro e he
    rw [Function.update_of_ne (habove e he).1]
    simp [(habove e he).2]

end Rebuild

/-- Everything the property list depends on, and what goes with it, is the same. -/
structure SameStore (s t : ObjState) : Prop where
  kind : t.kind = s.kind
  prototype : t.prototype = s.prototype
  map : t.map = s.map
  inFields : t.inFields = s.inFields
  extensible : t.extensible = s.extensible
  properties : t.properties = s.properties
  propsDeferred : t.propsDeferred = s.propsDeferred

namespace SameStore

variable {s t u : ObjState}

theorem refl (s : ObjState) : SameStore s s := ⟨rfl, rfl, rfl, rfl, rfl, rfl, rfl⟩

theorem ownList (h : SameStore s t) : t.ownList = s.ownList := by
  have hr : t.rebuiltProperties = s.rebuiltProperties := by
    funext map
    simp only [rebuiltProperties, h.inFields]
  simp only [ObjState.ownList, h.propsDeferred, h.map, h.properties, hr]

theorem coherent (h : SameStore s t) (hs : s.Coherent)
    (hi : ∀ index, t.propertyIndex = some index → ∀ key, index key = position s.properties key) :
    t.Coherent := by
  constructor
  · rw [h.kind, hs.ordinary]
  · rw [h.properties]
    exact hs.nodup
  · simpa only [h.properties] using hi
  · simpa only [h.propsDeferred, h.properties, h.map] using hs.deferred
  · intro map hmap
    rw [h.map] at hmap
    exact (hs.fields map hmap).congr h.inFields h.ownList

theorem aligned (h : SameStore s t) (hs : s.Aligned) : t.Aligned := by
  simpa only [Aligned, h.map, h.properties] using hs

theorem bumpGeneration (s : ObjState) : SameStore s s.bumpGeneration :=
  ⟨rfl, rfl, rfl, rfl, rfl, rfl, rfl⟩

theorem bumpNamedVersion (s : ObjState) : SameStore s s.bumpNamedVersion :=
  ⟨rfl, rfl, rfl, rfl, rfl, rfl, rfl⟩

theorem bumpNamedVersionFor (s : ObjState) (key : PropertyKey) :
    SameStore s (s.bumpNamedVersionFor key) := by
  unfold ObjState.bumpNamedVersionFor
  split
  · exact bumpNamedVersion s
  · exact refl s

end SameStore

section Lookup

variable {s : ObjState}

theorem ownList_of_not_deferred (h : s.propsDeferred = false) : s.ownList = s.properties := by
  simp [ownList, h]

theorem Coherent.ownList_deferred (h : s.Coherent) (hd : s.propsDeferred = true) :
    ∃ map, s.map = some map ∧ map.descriptorCount ≤ inlineFields ∧
      s.ownList = s.rebuiltProperties map := by
  obtain ⟨-, map, hmap, hc⟩ := h.deferred hd
  exact ⟨map, hmap, hc, by simp [ownList, hd, hmap]⟩

theorem Coherent.nodup_ownList (h : s.Coherent) : (keys s.ownList).Nodup := by
  cases hd : s.propsDeferred with
  | false =>
      rw [ownList_of_not_deferred hd]
      exact h.nodup
  | true =>
      obtain ⟨map, hmap, hc, hl⟩ := h.ownList_deferred hd
      have hf := h.fields map hmap
      rw [hl]
      apply nodup_rebuiltProperties hf.offsets hc
      intro ordinal entry value hentry
      have hlt := (List.getElem?_eq_some_iff.mp hentry).1
      exact hf.first ordinal entry value hentry (Nat.lt_of_lt_of_le hlt hc)

theorem propertyPosition_spec (h : s.Coherent) (key : PropertyKey) :
    ∃ t, s.propertyPosition key = (t, position s.properties key) ∧ SameStore s t ∧
      t.Coherent := by
  unfold propertyPosition
  split
  · cases hi : s.propertyIndex with
    | some index =>
        simp only [h.index index hi key]
        exact ⟨s, rfl, .refl s, h⟩
    | none =>
        simp only [buildIndex_eq h.nodup key]
        have hsame : SameStore s { s with propertyIndex := some (buildIndex s.properties) } :=
          ⟨rfl, rfl, rfl, rfl, rfl, rfl, rfl⟩
        refine ⟨_, rfl, hsame, hsame.coherent h ?_⟩
        intro index hindex key'
        obtain rfl := Option.some.inj hindex
        exact buildIndex_eq h.nodup key'
  · exact ⟨s, rfl, .refl s, h⟩

theorem deferredLookup_eq (h : s.Coherent) (hd : s.propsDeferred = true) (key : PropertyKey) :
    s.deferredLookup key = get? s.ownList key := by
  obtain ⟨map, hmap, hc, hl⟩ := h.ownList_deferred hd
  have hf := h.fields map hmap
  apply Option.ext
  intro property
  rw [get?_eq_some_iff_mem h.nodup_ownList, hl, mem_rebuiltProperties hf.offsets hc]
  simp only [deferredLookup, hmap, Option.bind_eq_bind, Option.bind_some,
    Option.bind_eq_some_iff]
  constructor
  · rintro ⟨ordinal, hfind, entry, hentry, hproperty⟩
    obtain ⟨entry', hentry', hkey⟩ := map.find_eq_some hfind
    rw [hentry] at hentry'
    obtain rfl := Option.some.inj hentry'
    rw [hf.offsets ordinal entry hentry] at hproperty
    split_ifs at hproperty
    obtain ⟨value, hvalue, heq⟩ := Option.bind_eq_some_iff.mp hproperty
    exact ⟨ordinal, entry, value, hentry, hkey, hvalue, (Option.some.inj heq).symm⟩
  · rintro ⟨ordinal, entry, value, hentry, rfl, hvalue, rfl⟩
    have hlt := Nat.lt_of_lt_of_le (List.getElem?_eq_some_iff.mp hentry).1 hc
    refine ⟨ordinal, hf.first ordinal entry value hentry hlt hvalue, entry, hentry, ?_⟩
    rw [hf.offsets ordinal entry hentry, if_neg (by omega), hvalue]
    rfl

theorem ordinaryPropertyLookup_spec (h : s.Coherent) (key : PropertyKey) :
    ∃ t, s.ordinaryPropertyLookup key = (t, get? s.ownList key) ∧ SameStore s t ∧ t.Coherent := by
  unfold ordinaryPropertyLookup
  split
  · rename_i hd
    rw [deferredLookup_eq h hd]
    exact ⟨s, rfl, .refl s, h⟩
  · rename_i hd
    rw [ownList_of_not_deferred (by simpa using hd)]
    split
    · rename_i he
      rw [List.isEmpty_iff.mp he]
      exact ⟨s, rfl, .refl s, h⟩
    · obtain ⟨t, ht, hsame, hcoh⟩ := propertyPosition_spec h key
      refine ⟨t, ?_, hsame, hcoh⟩
      rw [ht, get?_eq_bind]
      simp only [hsame.properties]

theorem ordinaryGetOwnProperty_spec (h : s.Coherent) (key : PropertyKey) :
    ∃ t, s.ordinaryGetOwnProperty key = (t, get? s.ownList key) ∧ SameStore s t ∧ t.Coherent := by
  simp only [ordinaryGetOwnProperty, h.ordinary]
  exact ordinaryPropertyLookup_spec h key

end Lookup

section Materialize

variable {s : ObjState}

theorem materialize_spec (h : s.Coherent) :
    s.materializeProperties.Coherent ∧ s.materializeProperties.properties = s.ownList ∧
      s.materializeProperties.propsDeferred = false ∧
      s.materializeProperties.map = s.map ∧
      s.materializeProperties.inFields = s.inFields ∧
      s.materializeProperties.extensible = s.extensible ∧
      s.materializeProperties.prototype = s.prototype := by
  cases hd : s.propsDeferred with
  | false =>
      simp only [materializeProperties, hd, Bool.not_false, if_true]
      exact ⟨h, (ownList_of_not_deferred hd).symm, trivial, trivial, trivial, trivial, trivial⟩
  | true =>
      obtain ⟨map, hmap, hc, hl⟩ := h.ownList_deferred hd
      have hf := h.fields map hmap
      simp only [materializeProperties, hd, hmap, Bool.not_true, Bool.false_eq_true, if_false]
      refine ⟨?_, hl.symm, trivial, trivial, trivial, trivial, trivial⟩
      constructor
      · exact h.ordinary
      · rw [← hl]
        exact h.nodup_ownList
      · intro index hindex
        cases hindex
      · intro hd'
        cases hd'
      · intro map' hmap'
        obtain rfl := Option.some.inj hmap'
        exact FieldsOn.congr (s := s) rfl hl.symm hf

theorem aligned_materialize (h : s.Coherent) (ha : s.Aligned) :
    s.materializeProperties.Aligned := by
  cases hd : s.propsDeferred with
  | false => simpa only [materializeProperties, hd, Bool.not_false, if_true] using ha
  | true =>
      -- A vector-free object describes in-object fields only.
      obtain ⟨map, hmap, hc, -⟩ := h.ownList_deferred hd
      intro map' hmap' key ordinal hfind hle
      rw [(materialize_spec h).2.2.2.1, hmap] at hmap'
      obtain rfl := Option.some.inj hmap'
      have := map.find_lt hfind
      omega

end Materialize

end Slag.Crux.ObjState
