import Slag.Crux.Storage

/-!
The vector-free state: entering it, growing it, writing a field in place, and
leaving it. While it lasts every own property is a written in-object field, and
the fields are written in ordinal order, so the rebuilt vector is in creation
order.
-/

namespace Slag.Crux.ObjState

open AssocList

variable {s : ObjState} {map : Map} {key : PropertyKey} (value : Value)

/-- While vector-free, the agreement follows from the fields being first ones. -/
theorem fieldsCoherent_deferred (hd : s.propsDeferred = true) (hmap : s.map = some map)
    (ho : map.OffsetsOrdinal) (hc : map.descriptorCount ≤ inlineFields)
    (hfirst : ∀ ordinal entry value, map.descriptorAt ordinal = some entry →
      ordinal < inlineFields → s.inFields ordinal = some value → map.find entry.key = some ordinal)
    (hbeyond : ∀ ordinal, map.descriptorCount ≤ ordinal → s.inFields ordinal = none)
    (hholes : ∀ key ordinal entry, map.find key = some ordinal → key ∉ keys s.ownList →
      map.descriptorAt ordinal = some entry → entry.attrs = .all) : s.FieldsCoherent map := by
  have hown : s.ownList = s.rebuiltProperties map := by simp [ownList, hd, hmap]
  have hlt : ∀ ordinal entry, map.descriptorAt ordinal = some entry → ordinal < inlineFields := by
    intro ordinal entry hentry
    exact Nat.lt_of_lt_of_le (List.getElem?_eq_some_iff.mp hentry).1 hc
  have hnodup : (keys (s.rebuiltProperties map)).Nodup := by
    apply nodup_rebuiltProperties ho hc
    intro ordinal entry value hentry
    exact hfirst ordinal entry value hentry (hlt ordinal entry hentry)
  constructor
  · exact ho
  · exact hfirst
  · intro ordinal entry hentry hle
    have := hlt ordinal entry hentry
    omega
  · exact hbeyond
  · intro ordinal entry value hentry _ _ hvalue
    rw [hown, get?_eq_some_iff_mem hnodup, mem_rebuiltProperties ho hc]
    exact ⟨ordinal, entry, value, hentry, rfl, hvalue, rfl⟩
  · intro key ordinal hfind _ _ hmem
    rw [hown] at hmem
    obtain ⟨⟨k, property⟩, hprop, rfl⟩ := List.mem_map.mp hmem
    obtain ⟨o, entry, value, hentry, hkey, hvalue, -⟩ := (mem_rebuiltProperties ho hc).mp hprop
    have ho' := hfirst o entry value hentry (hlt o entry hentry) hvalue
    simp only at hkey hfind
    rw [hkey, hfind] at ho'
    obtain rfl := Option.some.inj ho'
    rw [hvalue]
    rfl
  · intro key ordinal entry hfind _ hle hentry
    have := hlt ordinal entry hentry
    omega
  · intro key ordinal entry hfind _ hmem hentry
    exact hholes key ordinal entry hfind hmem hentry

/-- With an empty vector the object may be read as vector-free. -/
theorem ownList_of_empty (h : s.Coherent) (hmap : s.map = some map)
    (he : s.propsDeferred = true ∨ s.properties = []) :
    map.descriptorCount ≤ inlineFields ∧ s.ownList = s.rebuiltProperties map := by
  have hf := h.fields map hmap
  cases hd : s.propsDeferred with
  | true =>
      obtain ⟨map', hmap', hc, hl⟩ := h.ownList_deferred hd
      rw [hmap] at hmap'
      obtain rfl := Option.some.inj hmap'
      exact ⟨hc, hl⟩
  | false =>
      have hempty : s.ownList = [] := by
        rw [ownList_of_not_deferred hd]
        exact he.resolve_left (by simp [hd])
      have hc : map.descriptorCount ≤ inlineFields := by
        by_contra hgt
        obtain ⟨entry, hentry⟩ : ∃ entry, map.descriptorAt inlineFields = some entry :=
          ⟨_, List.getElem?_eq_getElem (Nat.not_le.mp hgt)⟩
        have hfind := hf.far inlineFields entry hentry (Nat.le_refl _)
        obtain ⟨v, hv⟩ := hf.vector entry.key inlineFields entry hfind trivial (Nat.le_refl _) hentry
        rw [hempty] at hv
        cases hv
      refine ⟨hc, ?_⟩
      rw [hempty, rebuiltProperties_eq hf.offsets hc, eq_comm, List.filterMap_eq_nil_iff]
      intro entry hentry
      obtain ⟨i, hi⟩ := List.mem_iff_getElem?.mp hentry
      have hlt := Nat.lt_of_lt_of_le (List.getElem?_eq_some_iff.mp hi).1 hc
      rw [hf.offsets i entry hi]
      cases hv : s.inFields i with
      | none => rfl
      | some v =>
          have := hf.written i entry v hi trivial hlt hv
          rw [hempty] at this
          cases this

variable {ordinal : Nat} {entry : MapEntry}

/-- Fill a described hole above every written field. -/
theorem stores_writeField (h : s.Coherent) (hmap : s.map = some map)
    (he : s.propsDeferred = true ∨ s.properties = []) (hfind : map.find key = some ordinal)
    (hentry : map.descriptorAt ordinal = some entry) (hnew : s.inFields ordinal = none)
    (hhigher : ∀ i, ordinal < i → i < map.descriptorCount → s.inFields i = none) :
    Stores s (s.writeField key value) (s.ownList ++ [(key, fieldProperty entry value)]) := by
  obtain ⟨hc, hown⟩ := ownList_of_empty h hmap he
  have hf := h.fields map hmap
  have hlt : ordinal < inlineFields := Nat.lt_of_lt_of_le (map.find_lt hfind) hc
  have hprops : s.properties = [] := by
    rcases he with hd | hprops
    · exact (h.deferred hd).1
    · exact hprops
  obtain ⟨entry', hentry', hkey⟩ := map.find_eq_some hfind
  rw [hentry] at hentry'
  obtain rfl := Option.some.inj hentry'
  let t : ObjState := { s with
    propsDeferred := true
    inFields := Function.update s.inFields ordinal (some value) }
  have heq : s.writeField key value = t.bumpGeneration := by
    have hoff : s.map.bind (·.find key) = some ordinal := by rw [hmap, Option.bind_some, hfind]
    simp only [writeField, mapSet, hoff, hlt, if_true]
    rfl
  have hlist : t.ownList = s.ownList ++ [(key, fieldProperty entry value)] := by
    have hr := rebuiltProperties_write hf.offsets hc hentry hnew hhigher value
    rw [hown, ← hkey, ← hr]
    simp only [ownList, t, hmap, if_true, Option.map_some, Option.getD_some]
    rfl
  have hcoh : t.Coherent := by
    refine ⟨h.ordinary, h.nodup, h.index, fun _ => ⟨hprops, map, hmap, hc⟩, ?_⟩
    intro map' hm
    change s.map = some map' at hm
    rw [hmap] at hm
    obtain rfl := Option.some.inj hm
    refine fieldsCoherent_deferred (s := t) rfl hmap hf.offsets hc ?_ ?_ ?_
    · intro o e v he' hlt' hv
      by_cases ho : o = ordinal
      · subst ho
        rw [hentry] at he'
        obtain rfl := Option.some.inj he'
        rw [hkey, hfind]
      · simp only [t, Function.update_of_ne ho] at hv
        exact hf.first o e v he' hlt' hv
    · intro o ho
      have hne : o ≠ ordinal := by
        have := map.find_lt hfind
        omega
      simp only [t, Function.update_of_ne hne]
      exact hf.beyond o ho
    · intro k o e hk hmem he'
      apply hf.holes k o e hk trivial _ he'
      intro hm
      apply hmem
      rw [hlist, keys, List.map_append]
      exact List.mem_append_left _ hm
  have hal : s.Aligned → t.Aligned := by
    intro _ map' hm k o hk hle
    change s.map = some map' at hm
    rw [hmap] at hm
    obtain rfl := Option.some.inj hm
    have := map.find_lt hk
    omega
  have hst : Stores s t (s.ownList ++ [(key, fieldProperty entry value)]) :=
    ⟨hcoh, hlist, rfl, rfl, hal⟩
  rw [heq]
  have hb := hst.trans (stores_bumpGeneration hcoh)
  rwa [hlist] at hb

/-- Rewriting a written field updates its entry in place. -/
theorem rebuiltProperties_update (ho : map.OffsetsOrdinal) (hc : map.descriptorCount ≤ inlineFields)
    (hn : (keys (s.rebuiltProperties map)).Nodup) (hentry : map.descriptorAt ordinal = some entry)
    (hold : (s.inFields ordinal).isSome) :
    ∃ i, position (s.rebuiltProperties map) entry.key = some i ∧
      rebuiltProperties { s with inFields := Function.update s.inFields ordinal (some value) } map =
        setAt (s.rebuiltProperties map) i (fieldProperty entry value) := by
  obtain ⟨old, hold⟩ := Option.isSome_iff_exists.mp hold
  have hget := (List.getElem?_eq_some_iff.mp hentry).2
  have hsplit : map.descriptors =
      map.descriptors.take ordinal ++ entry :: map.descriptors.drop (ordinal + 1) := by
    rw [← hget, List.getElem_cons_drop, List.take_append_drop]
  have hoff : entry.offset = ordinal := ho ordinal entry hentry
  have hother : ∀ e ∈ map.descriptors.take ordinal ++ map.descriptors.drop (ordinal + 1),
      e.offset ≠ ordinal := by
    intro e he
    rcases List.mem_append.mp he with he | he
    · obtain ⟨i, hi⟩ := List.mem_iff_getElem?.mp he
      rw [List.getElem?_take] at hi
      split_ifs at hi with hio
      rw [ho i e hi]
      omega
    · obtain ⟨i, hi⟩ := List.mem_iff_getElem?.mp he
      rw [List.getElem?_drop] at hi
      rw [ho _ e hi]
      omega
  -- The rebuilt list is what stands before, the entry, and what stands after.
  obtain ⟨before, after, hs, ht⟩ : ∃ before after,
      s.rebuiltProperties map = before ++ (entry.key, fieldProperty entry old) :: after ∧
      rebuiltProperties { s with inFields := Function.update s.inFields ordinal (some value) } map =
        before ++ (entry.key, fieldProperty entry value) :: after := by
    rw [rebuiltProperties_eq ho hc, rebuiltProperties_eq ho hc, hsplit]
    simp only [List.filterMap_append, List.filterMap_cons, hoff, hold, Function.update_self,
      Option.map_some]
    refine ⟨_, _, rfl, ?_⟩
    congr 1
    · apply List.filterMap_congr
      intro e he
      rw [Function.update_of_ne (hother e (List.mem_append_left _ he))]
    · congr 1
      apply List.filterMap_congr
      intro e he
      rw [Function.update_of_ne (hother e (List.mem_append_right _ he))]
  have hbefore : entry.key ∉ keys before := by
    rw [hs, keys, List.map_append, List.map_cons, List.nodup_append] at hn
    intro hmem
    exact hn.2.2 _ hmem _ List.mem_cons_self rfl
  refine ⟨before.length, ?_, ?_⟩
  · rw [hs]
    exact position_append_cons hbefore after _
  · rw [hs, ht, setAt_append_cons]

/-- A field write of a vector-free object is an update in place. -/
theorem stores_updateField (h : s.Coherent) (hd : s.propsDeferred = true) (hmap : s.map = some map)
    (hfind : map.find key = some ordinal) (hentry : map.descriptorAt ordinal = some entry)
    (hold : (s.inFields ordinal).isSome) :
    ∃ i, position s.ownList key = some i ∧
      Stores s { s with inFields := Function.update s.inFields ordinal (some value) }
        (setAt s.ownList i (fieldProperty entry value)) := by
  obtain ⟨hc, hown⟩ := ownList_of_empty h hmap (.inl hd)
  have hf := h.fields map hmap
  obtain ⟨entry', hentry', hkey⟩ := map.find_eq_some hfind
  rw [hentry] at hentry'
  obtain rfl := Option.some.inj hentry'
  have hn := h.nodup_ownList
  rw [hown] at hn ⊢
  obtain ⟨i, hpos, hlist⟩ := rebuiltProperties_update value hf.offsets hc hn hentry hold
  rw [hkey] at hpos
  refine ⟨i, hpos, ?_⟩
  let t : ObjState := { s with inFields := Function.update s.inFields ordinal (some value) }
  have hlist' : t.ownList = setAt (s.rebuiltProperties map) i (fieldProperty entry value) := by
    rw [← hlist]
    simp only [ownList, t, hd, hmap, if_true, Option.map_some, Option.getD_some]
  have hkeys : keys t.ownList = keys s.ownList := by rw [hlist', keys_setAt, hown]
  refine ⟨⟨h.ordinary, h.nodup, h.index, h.deferred, ?_⟩, hlist', rfl, rfl, ?_⟩
  · intro map' hm
    change s.map = some map' at hm
    rw [hmap] at hm
    obtain rfl := Option.some.inj hm
    refine fieldsCoherent_deferred (s := t) hd hmap hf.offsets hc ?_ ?_ ?_
    · intro o e v he hlt hv
      by_cases ho : o = ordinal
      · subst ho
        rw [hentry] at he
        obtain rfl := Option.some.inj he
        rw [hkey, hfind]
      · simp only [t, Function.update_of_ne ho] at hv
        exact hf.first o e v he hlt hv
    · intro o ho
      have hne : o ≠ ordinal := by
        have := map.find_lt hfind
        omega
      simp only [t, Function.update_of_ne hne]
      exact hf.beyond o ho
    · intro k o e hk hmem he
      rw [hkeys] at hmem
      exact hf.holes k o e hk trivial hmem he
  · intro _ map' hm k o hk hle
    change s.map = some map' at hm
    rw [hmap] at hm
    obtain rfl := Option.some.inj hm
    have := map.find_lt hk
    omega

/-- Fork the map with a descriptor that is still a hole. -/
theorem stores_mapAddPropertyCell (h : s.Coherent) (hmap : s.map = some map)
    (he : s.propsDeferred = true ∨ s.properties = []) (hfind : map.find key = none)
    (hlt : map.descriptorCount < inlineFields) :
    Stores s (s.mapAddPropertyCell key .all) s.ownList := by
  obtain ⟨hc, hown⟩ := ownList_of_empty h hmap he
  have hf := h.fields map hmap
  have heq : s.mapAddPropertyCell key .all =
      bumpGeneration { s with map := some (map.addDescriptor key .all) } := by
    simp only [mapAddPropertyCell, hmap]
  let t : ObjState := { s with map := some (map.addDescriptor key .all) }
  have hcount : (map.addDescriptor key .all).descriptorCount ≤ inlineFields := by
    rw [map.descriptorCount_addDescriptor]
    omega
  have hrebuilt : t.rebuiltProperties (map.addDescriptor key .all) = s.rebuiltProperties map := by
    rw [rebuiltProperties_eq (map.offsetsOrdinal_addDescriptor hf.offsets key .all) hcount,
      rebuiltProperties_eq hf.offsets hc]
    have hnone : s.inFields map.descriptorCount = none := hf.beyond _ (Nat.le_refl _)
    simp [Map.addDescriptor, t, hnone]
  have hlist : t.ownList = s.ownList := by
    cases hd : s.propsDeferred with
    | true =>
        have hdt : t.propsDeferred = true := hd
        have hmt : t.map = some (map.addDescriptor key .all) := rfl
        rw [ownList, hdt, hmt, if_pos rfl, Option.map_some, Option.getD_some, hrebuilt, hown]
    | false => rw [ownList_of_not_deferred hd, ownList_of_not_deferred (s := t) hd]
  have hbase : t.FieldsOn map (· ≠ key) := by
    have := fieldsOn_of_agree (s := s) (t := t) hf rfl fun k (_ : k ≠ key) => by rw [hlist]
    exact this
  have hadd := fieldsOn_addDescriptor .all hbase hfind
  have hnotmem : key ∉ keys s.ownList := by
    intro hmem
    rw [hown] at hmem
    obtain ⟨⟨k, property⟩, hprop, rfl⟩ := List.mem_map.mp hmem
    obtain ⟨o, entry, v, hentry, hkey, -⟩ := (mem_rebuiltProperties hf.offsets hc).mp hprop
    exact map.find_eq_none.mp hfind entry (List.mem_of_getElem? hentry) hkey
  have hcoh : t.Coherent := by
    refine ⟨h.ordinary, h.nodup, h.index, fun hd => ⟨(h.deferred hd).1, _, rfl, hcount⟩, ?_⟩
    intro map' hm
    obtain rfl := Option.some.inj hm
    have hnewfind : (map.addDescriptor key .all).find key = some map.descriptorCount := by
      simp [map.find_addDescriptor, hfind]
    have hnew : (map.addDescriptor key .all).descriptorAt map.descriptorCount =
        some ⟨key, map.descriptorCount, .all⟩ := by
      simp [map.descriptorAt_addDescriptor]
    constructor
    · exact hadd.offsets
    · exact hadd.first
    · exact hadd.far
    · exact hadd.beyond
    · intro o e v he' _ hlt' hv
      by_cases hek : e.key = key
      · -- The new descriptor's field is not written yet.
        have ho := hadd.first o e v he' hlt' hv
        rw [hek, hnewfind] at ho
        obtain rfl := Option.some.inj ho
        have hnone : s.inFields map.descriptorCount = none := hf.beyond _ (Nat.le_refl _)
        rw [show t.inFields map.descriptorCount = none from hnone] at hv
        cases hv
      · exact hadd.written o e v he' hek hlt' hv
    · intro k o hk _ hlt' hmem
      by_cases hkk : k = key
      · subst hkk
        rw [hlist] at hmem
        exact absurd hmem hnotmem
      · exact hadd.stored k o hk hkk hlt' hmem
    · intro k o e hk _ hle he'
      have := (map.addDescriptor key .all).find_lt hk
      omega
    · intro k o e hk _ hmem he'
      by_cases hkk : k = key
      · subst hkk
        rw [hnewfind] at hk
        obtain rfl := Option.some.inj hk
        rw [hnew] at he'
        obtain rfl := Option.some.inj he'
        rfl
      · exact hadd.holes k o e hk hkk hmem he'
  have hal : s.Aligned → t.Aligned := by
    intro _ map' hm k o hk hle
    obtain rfl := Option.some.inj hm
    have := (map.addDescriptor key .all).find_lt hk
    omega
  have hst : Stores s t s.ownList := ⟨hcoh, hlist, rfl, rfl, hal⟩
  rw [heq]
  have hb := hst.trans (stores_bumpGeneration hcoh)
  rwa [hlist] at hb

theorem not_mem_keys_materialize (h : s.Coherent) (hkey : key ∉ keys s.ownList) :
    key ∉ keys s.materializeProperties.properties := by
  rw [(materialize_spec h).2.1]
  exact hkey

/-- Leave the vector-free state and append. -/
theorem stores_materialize_append (h : s.Coherent) (hkey : key ∉ keys s.ownList) :
    Stores s (s.materializeProperties.appendFresh key value .all)
      (s.ownList ++ [(key, created value)]) := by
  have hm := stores_materialize h
  have ha := stores_appendFresh value hm.coherent (materialize_spec h).2.2.1
    (not_mem_keys_materialize h hkey)
  have hst := hm.trans ha
  rwa [hm.ownList] at hst

theorem unwritten_of_not_mem (h : s.Coherent) (hmap : s.map = some map) (hkey : key ∉ keys s.ownList)
    (hfind : map.find key = some ordinal) (hlt : ordinal < inlineFields) :
    s.inFields ordinal = none := by
  obtain ⟨entry, hentry, hk⟩ := map.find_eq_some hfind
  cases hv : s.inFields ordinal with
  | none => rfl
  | some v =>
      have hget := (h.fields map hmap).written ordinal entry v hentry trivial hlt hv
      rw [hk, get?_eq_none.mpr hkey] at hget
      cases hget

theorem higher_unwritten (hc : map.descriptorCount ≤ inlineFields)
    (h : s.higherFieldWritten map ordinal = false) :
    ∀ i, ordinal < i → i < map.descriptorCount → s.inFields i = none := by
  intro i hi hlt
  simp only [higherFieldWritten, List.any_eq_false, List.mem_range'_1] at h
  have hw := h i ⟨by omega, by omega⟩
  have hi8 : i < inlineFields := by omega
  simpa [fieldWritten, hi8] using hw

/-- `define_fresh` appends the property, whichever store it chooses. -/
theorem defineFresh_spec (h : s.Coherent) (hkey : key ∉ keys s.ownList)
    (hext : s.extensible = true) :
    ∃ t, s.defineFresh key value .all = (t, true) ∧
      Stores s t (s.ownList ++ [(key, created value)]) := by
  have hb := stores_bumpNamedVersionFor h key
  have hkind := (SameStore.bumpNamedVersionFor s key).kind.trans h.ordinary
  have hkey' : key ∉ keys (s.bumpNamedVersionFor key).ownList := by
    rw [hb.ownList]
    exact hkey
  -- It is enough to follow the object after the version bump.
  suffices hsuff : ∃ t, s.defineFresh key value .all = (t, true) ∧
      Stores (s.bumpNamedVersionFor key) t
        ((s.bumpNamedVersionFor key).ownList ++ [(key, created value)]) by
    obtain ⟨t, ht, hst⟩ := hsuff
    rw [hb.ownList] at hst
    exact ⟨t, ht, hb.trans hst⟩
  have hord : s.kind.isOrdinary = true := by
    rw [h.ordinary]
    rfl
  simp only [defineFresh, hord, hext, Bool.not_true, Bool.or_self, Bool.false_eq_true, if_false]
  generalize s.bumpNamedVersionFor key = u at hb hkey' ⊢
  have hu := hb.coherent
  cases hmap : u.map with
  | none =>
      have hd : u.propsDeferred = false := by
        cases hd : u.propsDeferred with
        | false => rfl
        | true =>
            obtain ⟨-, map, hm, -⟩ := hu.deferred hd
            rw [hmap] at hm
            cases hm
      refine ⟨_, rfl, stores_appendFresh value hu hd ?_⟩
      rwa [ownList_of_not_deferred hd] at hkey'
  | some map =>
      simp only
      split
      · rename_i he
        have he' : u.propsDeferred = true ∨ u.properties = [] := by
          simpa [List.isEmpty_iff] using he
        obtain ⟨hc, -⟩ := ownList_of_empty hu hmap he'
        cases hfind : map.find key with
        | some ordinal =>
            simp only
            have hlt : ordinal < inlineFields := Nat.lt_of_lt_of_le (map.find_lt hfind) hc
            have hnew := unwritten_of_not_mem hu hmap hkey' hfind hlt
            have hw : u.fieldWritten ordinal = false := by simp [fieldWritten, hnew]
            cases hh : u.higherFieldWritten map ordinal with
            | false =>
                obtain ⟨entry, hentry, -⟩ := map.find_eq_some hfind
                have hall := (hu.fields map hmap).holes key ordinal entry hfind trivial hkey' hentry
                have hst := stores_writeField value hu hmap he' hfind hentry hnew
                  (higher_unwritten hc hh)
                simp only [hw, Bool.not_false, Bool.false_or, if_true]
                refine ⟨_, rfl, ?_⟩
                rwa [fieldProperty, hall] at hst
            | true =>
                simp only [hw, Bool.not_true, Bool.or_self, Bool.false_eq_true, if_false]
                exact ⟨_, rfl, stores_materialize_append value hu hkey'⟩
        | none =>
            simp only
            split
            · rename_i hlt
              have hadd := stores_mapAddPropertyCell hu hmap he' hfind hlt
              have hmap' : (u.mapAddPropertyCell key .all).map =
                  some (map.addDescriptor key .all) := by
                simp only [mapAddPropertyCell, hmap, bumpGeneration]
              have hv := SameVector.mapAddPropertyCell u key .all
              have hfields : (u.mapAddPropertyCell key .all).inFields = u.inFields := by
                simp only [mapAddPropertyCell, hmap, bumpGeneration]
              have hnewfind : (map.addDescriptor key .all).find key = some map.descriptorCount := by
                simp [map.find_addDescriptor, hfind]
              have hnew : (map.addDescriptor key .all).descriptorAt map.descriptorCount =
                  some ⟨key, map.descriptorCount, .all⟩ := by
                simp [map.descriptorAt_addDescriptor]
              have hst := stores_writeField value hadd.coherent hmap'
                (by rw [hv.propsDeferred, hv.properties]; exact he') hnewfind hnew
                (by rw [hfields]; exact (hu.fields map hmap).beyond _ (Nat.le_refl _))
                (by
                  intro i hi hi'
                  rw [map.descriptorCount_addDescriptor] at hi'
                  omega)
              refine ⟨_, rfl, ?_⟩
              have := hadd.trans hst
              rwa [hadd.ownList] at this
            · exact ⟨_, rfl, stores_materialize_append value hu hkey'⟩
      · rename_i he
        have hd : u.propsDeferred = false := by
          cases hd : u.propsDeferred with
          | false => rfl
          | true => simp [hd] at he
        refine ⟨_, rfl, stores_appendFresh value hu hd ?_⟩
        rwa [ownList_of_not_deferred hd] at hkey'

end Slag.Crux.ObjState
