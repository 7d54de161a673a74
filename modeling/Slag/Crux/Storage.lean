import Slag.Crux.Coherence

/-!
What each storage operation of an ordinary object does to its property list.
An append or an update of the vector leaves the map in step everywhere but at
the key it wrote, which `sync_map_after_define` and `map_set` then repair.
-/

namespace Slag.Crux.ObjState

open AssocList

/-- The vector and everything but the map and its fields is the same. -/
structure SameVector (s t : ObjState) : Prop where
  kind : t.kind = s.kind
  prototype : t.prototype = s.prototype
  extensible : t.extensible = s.extensible
  properties : t.properties = s.properties
  propsDeferred : t.propsDeferred = s.propsDeferred
  propertyIndex : t.propertyIndex = s.propertyIndex

namespace SameVector

variable {s t u : ObjState}

theorem refl (s : ObjState) : SameVector s s := ⟨rfl, rfl, rfl, rfl, rfl, rfl⟩

theorem trans (h : SameVector s t) (h' : SameVector t u) : SameVector s u := by
  constructor
  · exact h'.kind.trans h.kind
  · exact h'.prototype.trans h.prototype
  · exact h'.extensible.trans h.extensible
  · exact h'.properties.trans h.properties
  · exact h'.propsDeferred.trans h.propsDeferred
  · exact h'.propertyIndex.trans h.propertyIndex

theorem mapSet (s : ObjState) (key : PropertyKey) (value : Value) :
    SameVector s (s.mapSet key value) := by
  unfold ObjState.mapSet
  split
  · exact refl s
  · split
    · exact ⟨rfl, rfl, rfl, rfl, rfl, rfl⟩
    · exact refl s

theorem mapAddPropertyCell (s : ObjState) (key : PropertyKey) (attrs : MapAttrs) :
    SameVector s (s.mapAddPropertyCell key attrs) := by
  unfold ObjState.mapAddPropertyCell
  split
  · exact refl s
  · exact ⟨rfl, rfl, rfl, rfl, rfl, rfl⟩

end SameVector

@[simp] theorem map_mapSet (s : ObjState) (key : PropertyKey) (value : Value) :
    (s.mapSet key value).map = s.map := by
  unfold mapSet
  split
  · rfl
  · split <;> rfl

variable {s : ObjState} {key : PropertyKey} {map : Map} {value : Value}

theorem inFields_mapSet {ordinal : Nat} (hmap : s.map = some map) (hfind : map.find key = some ordinal)
    (value : Value) :
    (s.mapSet key value).inFields =
      if ordinal < inlineFields then Function.update s.inFields ordinal (some value)
      else s.inFields := by
  simp only [mapSet, hmap, Option.bind_some, hfind]
  split <;> rfl

section Fields

variable {s : ObjState} {map : Map} {key : PropertyKey}

/-- Writing the field of `key` completes the agreement at `key`. -/
theorem fieldsOn_mapSet {ordinal : Nat} {entry : MapEntry} (hd : s.propsDeferred = false)
    (hmap : s.map = some map) (hf : s.FieldsOn map (· ≠ key)) (hfind : map.find key = some ordinal)
    (hentry : map.descriptorAt ordinal = some entry)
    (hget : get? s.properties key = some (fieldProperty entry value)) :
    (s.mapSet key value).FieldsCoherent map := by
  have hv := SameVector.mapSet s key value
  have hl : (s.mapSet key value).ownList = s.ownList := by
    rw [ownList_of_not_deferred (hv.propsDeferred.trans hd), ownList_of_not_deferred hd,
      hv.properties]
  have hget' : get? s.ownList key = some (fieldProperty entry value) := by
    rw [ownList_of_not_deferred hd]
    exact hget
  have hi := inFields_mapSet hmap hfind value
  obtain ⟨entry', hentry', hkey⟩ := map.find_eq_some hfind
  rw [hentry] at hentry'
  obtain rfl := Option.some.inj hentry'
  -- Away from the ordinal of `key` the fields are the old ones.
  have hother : ∀ o, o ≠ ordinal → (s.mapSet key value).inFields o = s.inFields o := by
    intro o ho
    rw [hi]
    split
    · exact Function.update_of_ne ho _ _
    · rfl
  have hself : ordinal < inlineFields → (s.mapSet key value).inFields ordinal = some value := by
    intro hlt
    rw [hi, if_pos hlt, Function.update_self]
  have hfirst : ∀ o e v, map.descriptorAt o = some e → o < inlineFields →
      (s.mapSet key value).inFields o = some v → map.find e.key = some o := by
    intro o e v he hlt hv
    by_cases ho : o = ordinal
    · subst ho
      rw [hentry] at he
      obtain rfl := Option.some.inj he
      rw [hkey, hfind]
    · rw [hother o ho] at hv
      exact hf.first o e v he hlt hv
  have hne : ∀ k o, map.find k = some o → k ≠ key → o ≠ ordinal := by
    rintro k o hk hkne rfl
    exact hkne (map.find_inj hk hfind)
  constructor
  · exact hf.offsets
  · exact hfirst
  · exact hf.far
  · intro o ho
    have hlt := map.find_lt hfind
    rw [hother o (by omega)]
    exact hf.beyond o ho
  · intro o e v he _ hlt hv
    rw [hl]
    by_cases ho : o = ordinal
    · subst ho
      rw [hentry] at he
      obtain rfl := Option.some.inj he
      rw [hself hlt] at hv
      obtain rfl := Option.some.inj hv
      rw [hkey]
      exact hget'
    · have hek : e.key ≠ key := by
        intro hk
        have := hfirst o e v he hlt hv
        rw [hk, hfind] at this
        exact ho (Option.some.inj this).symm
      rw [hother o ho] at hv
      exact hf.written o e v he hek hlt hv
  · intro k o hk _ hlt hmem
    rw [hl] at hmem
    by_cases hkk : k = key
    · subst hkk
      rw [hfind] at hk
      obtain rfl := Option.some.inj hk
      rw [hself hlt]
      rfl
    · rw [hother o (hne k o hk hkk)]
      exact hf.stored k o hk hkk hlt hmem
  · intro k o e hk _ hle he
    rw [hl]
    by_cases hkk : k = key
    · subst hkk
      rw [hfind] at hk
      obtain rfl := Option.some.inj hk
      rw [hentry] at he
      obtain rfl := Option.some.inj he
      exact ⟨value, hget'⟩
    · exact hf.vector k o e hk hkk hle he
  · intro k o e hk _ hmem he
    rw [hl] at hmem
    by_cases hkk : k = key
    · subst hkk
      rw [get?_eq_none.mpr hmem] at hget'
      cases hget'
    · exact hf.holes k o e hk hkk hmem he

/-- A fork keeps the agreement at every other key. -/
theorem fieldsOn_addDescriptor (attrs : MapAttrs) (hf : s.FieldsOn map (· ≠ key))
    (hfind : map.find key = none) : s.FieldsOn (map.addDescriptor key attrs) (· ≠ key) := by
  have hfind' : ∀ k o, (map.addDescriptor key attrs).find k = some o → k ≠ key →
      map.find k = some o := by
    intro k o hk hkne
    rw [map.find_addDescriptor] at hk
    cases hold : map.find k with
    | some o' => simpa only [hold] using hk
    | none => simp [hold, Ne.symm hkne] at hk
  have hdesc : ∀ k o e, map.find k = some o →
      (map.addDescriptor key attrs).descriptorAt o = some e → map.descriptorAt o = some e := by
    intro k o e hk he
    rwa [map.descriptorAt_addDescriptor, if_pos (map.find_lt hk)] at he
  constructor
  · exact map.offsetsOrdinal_addDescriptor hf.offsets key attrs
  · intro o e v he hlt hv
    rw [map.descriptorAt_addDescriptor] at he
    rw [map.find_addDescriptor]
    split_ifs at he with h1 h2
    · rw [hf.first o e v he hlt hv]
    · obtain rfl := Option.some.inj he
      simp [hfind, h2]
  · intro o e he hle
    rw [map.descriptorAt_addDescriptor] at he
    rw [map.find_addDescriptor]
    split_ifs at he with h1 h2
    · rw [hf.far o e he hle]
    · obtain rfl := Option.some.inj he
      simp [hfind, h2]
  · intro o ho
    rw [map.descriptorCount_addDescriptor] at ho
    exact hf.beyond o (by omega)
  · intro o e v he hek hlt hv
    rw [map.descriptorAt_addDescriptor] at he
    split_ifs at he with h1 h2
    · exact hf.written o e v he hek hlt hv
    · obtain rfl := Option.some.inj he
      exact absurd rfl hek
  · intro k o hk hkne hlt hmem
    exact hf.stored k o (hfind' k o hk hkne) hkne hlt hmem
  · intro k o e hk hkne hle he
    have hold := hfind' k o hk hkne
    exact hf.vector k o e hold hkne hle (hdesc k o e hold he)
  · intro k o e hk hkne hmem he
    have hold := hfind' k o hk hkne
    exact hf.holes k o e hold hkne hmem (hdesc k o e hold he)

/-- A key the map does not describe puts no demand on the fields. -/
theorem fieldsCoherent_of_find_none (hf : s.FieldsOn map (· ≠ key))
    (hfind : map.find key = none) : s.FieldsCoherent map := by
  have hne : ∀ k o, map.find k = some o → k ≠ key := by
    rintro k o hk rfl
    rw [hfind] at hk
    cases hk
  constructor
  · exact hf.offsets
  · exact hf.first
  · exact hf.far
  · exact hf.beyond
  · intro o e v he _ hlt hv
    exact hf.written o e v he (hne _ _ (hf.first o e v he hlt hv)) hlt hv
  · intro k o hk _ hlt hmem
    exact hf.stored k o hk (hne k o hk) hlt hmem
  · intro k o e hk _ hle he
    exact hf.vector k o e hk (hne k o hk) hle he
  · intro k o e hk _ hmem he
    exact hf.holes k o e hk (hne k o hk) hmem he

end Fields

/-- A list that changed at `key` only keeps the agreement everywhere else. -/
theorem fieldsOn_of_agree {s t : ObjState} (hf : s.FieldsCoherent map) (hi : t.inFields = s.inFields)
    (hl : ∀ k, k ≠ key → get? t.ownList k = get? s.ownList k) : t.FieldsOn map (· ≠ key) := by
  have hmem : ∀ k, k ≠ key → (k ∈ keys t.ownList ↔ k ∈ keys s.ownList) := by
    intro k hk
    rw [← not_iff_not, ← get?_eq_none, ← get?_eq_none, hl k hk]
  constructor
  · exact hf.offsets
  · simpa only [hi] using hf.first
  · exact hf.far
  · simpa only [hi] using hf.beyond
  · intro o e v he hne hlt hv
    rw [hl e.key hne]
    rw [hi] at hv
    exact hf.written o e v he trivial hlt hv
  · intro k o hk hne hlt hm
    rw [hi]
    exact hf.stored k o hk trivial hlt ((hmem k hne).mp hm)
  · intro k o e hk hne hle he
    rw [hl k hne]
    exact hf.vector k o e hk trivial hle he
  · intro k o e hk hne hm he
    exact hf.holes k o e hk trivial (fun hm' => hm ((hmem k hne).mpr hm')) he

theorem eq_fieldProperty_of_attrsMatch {property : Property} {entry : MapEntry}
    (h : attrsMatch property entry.attrs = true) :
    property = fieldProperty entry (property.value.getD .undefined) := by
  obtain ⟨⟨value, writable⟩ | ⟨g, f⟩, e, c⟩ := property
  · simp only [attrsMatch, Property.writable, Bool.and_eq_true, beq_iff_eq,
      Option.some.injEq] at h
    simp [fieldProperty, Property.data, Property.value, h.1.1, h.1.2, h.2]
  · simp [attrsMatch, Property.writable] at h

theorem aligned_of_map_none (h : s.map = none) : s.Aligned := by
  intro map hmap
  rw [h] at hmap
  cases hmap

/-- Fork the map for `key` and write its field. -/
theorem fork_spec {attrs : MapAttrs} (hd : s.propsDeferred = false) (hmap : s.map = some map)
    (hf : s.FieldsOn map (· ≠ key)) (hfind : map.find key = none) (hget : get? s.properties key =
      some (.data value attrs.writable attrs.enumerable attrs.configurable)) :
    ∀ map', ((s.mapAddPropertyCell key attrs).mapSet key value).map = some map' →
      ((s.mapAddPropertyCell key attrs).mapSet key value).FieldsCoherent map' := by
  have hmap' : (s.mapAddPropertyCell key attrs).map = some (map.addDescriptor key attrs) := by
    simp [mapAddPropertyCell, hmap, bumpGeneration]
  have hv := SameVector.mapAddPropertyCell s key attrs
  have hfields : (s.mapAddPropertyCell key attrs).inFields = s.inFields := by
    simp [mapAddPropertyCell, hmap, bumpGeneration]
  have hown : (s.mapAddPropertyCell key attrs).ownList = s.ownList := by
    rw [ownList_of_not_deferred (hv.propsDeferred.trans hd), ownList_of_not_deferred hd,
      hv.properties]
  intro map' hm
  rw [map_mapSet, hmap'] at hm
  obtain rfl := Option.some.inj hm
  have hnew : (map.addDescriptor key attrs).find key = some map.descriptorCount := by
    simp [map.find_addDescriptor, hfind]
  have hentry : (map.addDescriptor key attrs).descriptorAt map.descriptorCount =
      some ⟨key, map.descriptorCount, attrs⟩ := by
    simp [map.descriptorAt_addDescriptor]
  apply fieldsOn_mapSet (hv.propsDeferred.trans hd) hmap' _ hnew hentry
  · rw [hv.properties]
    exact hget
  · exact (fieldsOn_addDescriptor attrs hf hfind).congr hfields hown

/-- The fork stays aligned when the key stands at the new ordinal. -/
theorem aligned_fork {attrs : MapAttrs} (hmap : s.map = some map) (ha : s.Aligned)
    (hpos : position s.properties key = some map.descriptorCount) :
    ((s.mapAddPropertyCell key attrs).mapSet key value).Aligned := by
  have hprops : ((s.mapAddPropertyCell key attrs).mapSet key value).properties = s.properties :=
    ((SameVector.mapAddPropertyCell s key attrs).trans (SameVector.mapSet _ key value)).properties
  have hmap' : (s.mapAddPropertyCell key attrs).map = some (map.addDescriptor key attrs) := by
    simp [mapAddPropertyCell, hmap, bumpGeneration]
  intro map' hm k o hk hle
  rw [map_mapSet, hmap'] at hm
  obtain rfl := Option.some.inj hm
  rw [hprops]
  rw [map.find_addDescriptor] at hk
  cases hold : map.find k with
  | some o' =>
      simp only [hold] at hk
      obtain rfl := Option.some.inj hk
      exact ha map hmap k _ hold hle
  | none =>
      simp only [hold] at hk
      split_ifs at hk with hkk
      obtain rfl := Option.some.inj hk
      subst hkk
      exact hpos

theorem syncMapAfterDefine_spec (s : ObjState) (key : PropertyKey) (property : Property)
    (hk : s.kind = .ordinary) (hd : s.propsDeferred = false) (hn : (keys s.properties).Nodup)
    (hf : ∀ map, s.map = some map → s.FieldsOn map (· ≠ key))
    (hp : get? s.properties key = some property) :
    SameVector s (s.syncMapAfterDefine key property) ∧
      (∀ map, (s.syncMapAfterDefine key property).map = some map →
        (s.syncMapAfterDefine key property).FieldsCoherent map) ∧
      (s.Aligned → (s.syncMapAfterDefine key property).Aligned) := by
  have hdrop : SameVector s { s with map := none } := ⟨rfl, rfl, rfl, rfl, rfl, rfl⟩
  have hord : s.kind.isOrdinary = true := by
    rw [hk]
    rfl
  unfold syncMapAfterDefine
  simp only [hord, Bool.not_true, Bool.false_eq_true, if_false]
  cases hmap : s.map with
  | none =>
      refine ⟨.refl s, ?_, id⟩
      intro map hm
      rw [hmap] at hm
      cases hm
  | some map =>
      simp only
      split
      · refine ⟨hdrop, ?_, fun _ => aligned_of_map_none rfl⟩
        intro map hm
        cases hm
      · cases hfind : map.find key with
        | none =>
            simp only
            split
            · rename_i hc
              simp only [Bool.and_eq_true, beq_iff_eq, Option.any_eq_true] at hc
              obtain ⟨⟨⟨hw, he⟩, hcfg⟩, entry, hentry, hkey⟩ := hc
              have hpos : position s.properties key = some map.descriptorCount := by
                apply position_of_getElem? hn (v := entry.2)
                rw [hentry, ← of_decide_eq_true hkey]
              have hprop : property = .data (property.value.getD .undefined) true true true := by
                obtain ⟨⟨value, writable⟩ | ⟨g, f⟩, e, c⟩ := property
                · simp_all [Property.data, Property.value, Property.writable]
                · simp [Property.writable] at hw
              refine ⟨(SameVector.mapAddPropertyCell s key _).trans (SameVector.mapSet _ key _),
                fork_spec hd hmap (hf map hmap) hfind ?_, fun ha => aligned_fork hmap ha hpos⟩
              rw [hp]
              exact congrArg some hprop
            · refine ⟨.refl s, ?_, id⟩
              intro map' hm
              rw [hmap] at hm
              obtain rfl := Option.some.inj hm
              exact fieldsCoherent_of_find_none (hf map hmap) hfind
        | some ordinal =>
            simp only
            split
            · rename_i hm
              obtain ⟨entry, hentry, hattrs⟩ := Option.any_eq_true _ _ |>.mp hm
              refine ⟨SameVector.mapSet s key _, ?_, ?_⟩
              · intro map' hm'
                rw [map_mapSet, hmap] at hm'
                obtain rfl := Option.some.inj hm'
                apply fieldsOn_mapSet hd hmap (hf map hmap) hfind hentry
                rw [hp]
                exact congrArg some (eq_fieldProperty_of_attrsMatch hattrs)
              · intro ha
                simpa only [Aligned, map_mapSet, (SameVector.mapSet s key _).properties] using ha
            · refine ⟨hdrop, ?_, fun _ => aligned_of_map_none rfl⟩
              intro map hm
              cases hm

/-- `t` is a coherent object that holds the list `l`, and otherwise is as `s`. -/
structure Stores (s t : ObjState) (l : PropertyList) : Prop where
  coherent : t.Coherent
  ownList : t.ownList = l
  extensible : t.extensible = s.extensible
  prototype : t.prototype = s.prototype
  aligned : s.Aligned → t.Aligned

theorem SameStore.stores {s t : ObjState} (h : SameStore s t) (hc : t.Coherent) :
    Stores s t s.ownList :=
  ⟨hc, h.ownList, h.extensible, h.prototype, h.aligned⟩

theorem Stores.trans {s t u : ObjState} {l l' : PropertyList} (h : Stores s t l)
    (h' : Stores t u l') : Stores s u l' :=
  ⟨h'.coherent, h'.ownList, h'.extensible.trans h.extensible, h'.prototype.trans h.prototype,
    fun ha => h'.aligned (h.aligned ha)⟩

theorem stores_bumpGeneration (h : s.Coherent) :
    Stores s s.bumpGeneration s.ownList :=
  (SameStore.bumpGeneration s).stores ((SameStore.bumpGeneration s).coherent h h.index)

theorem stores_bumpNamedVersion (h : s.Coherent) :
    Stores s s.bumpNamedVersion s.ownList :=
  (SameStore.bumpNamedVersion s).stores ((SameStore.bumpNamedVersion s).coherent h h.index)

theorem stores_bumpNamedVersionFor (h : s.Coherent) (key : PropertyKey) :
    Stores s (s.bumpNamedVersionFor key) s.ownList := by
  refine (SameStore.bumpNamedVersionFor s key).stores
    ((SameStore.bumpNamedVersionFor s key).coherent h ?_)
  unfold bumpNamedVersionFor
  split
  · exact h.index
  · exact h.index

theorem stores_materialize (h : s.Coherent) :
    Stores s s.materializeProperties s.ownList := by
  obtain ⟨hc, hl, hd, -, -, he, hp⟩ := materialize_spec h
  refine ⟨hc, ?_, he, hp, aligned_materialize h⟩
  rw [ownList_of_not_deferred hd, hl]

section Vector

variable {s : ObjState} {key : PropertyKey} (property : Property)

/-- An append whose map has been brought in step, and then its index entry. -/
theorem stores_append {t : ObjState} (h : s.Coherent) (hd : s.propsDeferred = false)
    (hkey : key ∉ keys s.properties) (hv : SameVector (s.pushProperty key property) t)
    (hf : ∀ map, t.map = some map → t.FieldsCoherent map) (ha : s.Aligned → t.Aligned) :
    Stores s (t.indexAppended key s.properties.length) (s.ownList ++ [(key, property)]) := by
  have hprops : t.properties = s.properties ++ [(key, property)] := hv.properties
  have hdt : t.propsDeferred = false := hv.propsDeferred.trans hd
  refine ⟨⟨?_, ?_, ?_, ?_, ?_⟩, ?_, hv.extensible, hv.prototype, ha⟩
  · exact hv.kind.trans h.ordinary
  · simp only [indexAppended, hprops]
    exact nodup_append property h.nodup hkey
  · intro index hindex k
    have hti : t.propertyIndex = s.propertyIndex := hv.propertyIndex
    simp only [indexAppended, hti, Option.map_eq_some_iff] at hindex
    obtain ⟨old, hold, rfl⟩ := hindex
    simp only [indexAppended, hprops]
    rw [position_append]
    by_cases hk : k = key
    · subst hk
      simp [position_eq_none.mpr hkey]
    · rw [Function.update_of_ne hk, h.index old hold k]
      cases position s.properties k <;> simp [Ne.symm hk]
  · intro hd'
    exact absurd (hdt.symm.trans hd') (by simp)
  · intro map hmap
    exact FieldsOn.congr (s := t) rfl rfl (hf map hmap)
  · have hdt' : (t.indexAppended key s.properties.length).propsDeferred = false := hdt
    rw [ownList_of_not_deferred hd, ownList_of_not_deferred hdt']
    exact hprops

/-- After an append the agreement holds at every other key. -/
theorem fieldsOn_push (key : PropertyKey) (h : s.Coherent) (hd : s.propsDeferred = false)
    (hmap : s.map = some map) :
    (s.pushProperty key property).FieldsOn map (· ≠ key) := by
  refine fieldsOn_of_agree (s := s) (h.fields map hmap) rfl ?_
  intro k hk
  have hown : ownList (s.pushProperty key property) = s.properties ++ [(key, property)] :=
    ownList_of_not_deferred hd
  rw [hown, ownList_of_not_deferred hd, get?_append, if_neg (Ne.symm hk), Option.or_none]

theorem get?_push (hkey : key ∉ keys s.properties) :
    get? (s.pushProperty key property).properties key = some property := by
  change get? (s.properties ++ [(key, property)]) key = _
  simp [get?_append, get?_eq_none.mpr hkey]

theorem aligned_push (ha : s.Aligned) : (s.pushProperty key property).Aligned := by
  intro map hmap k o hk hle
  change position (s.properties ++ [(key, property)]) k = _
  rw [position_append, ha map hmap k o hk hle]

/-- The append of ValidateAndApplyPropertyDescriptor. -/
theorem stores_push (h : s.Coherent) (hd : s.propsDeferred = false)
    (hkey : key ∉ keys s.properties) :
    Stores s
      ((((s.pushProperty key property).bumpNamedVersionFor key).syncMapAfterDefine key
        property).indexAppended key s.properties.length)
      (s.ownList ++ [(key, property)]) := by
  have hb := SameStore.bumpNamedVersionFor (s.pushProperty key property) key
  have hbv : SameVector (s.pushProperty key property)
      ((s.pushProperty key property).bumpNamedVersionFor key) := by
    refine ⟨hb.kind, hb.prototype, hb.extensible, hb.properties, hb.propsDeferred, ?_⟩
    unfold bumpNamedVersionFor
    split <;> rfl
  obtain ⟨hv, hf, ha⟩ := syncMapAfterDefine_spec
    ((s.pushProperty key property).bumpNamedVersionFor key) key property
    (hb.kind.trans h.ordinary) (hb.propsDeferred.trans hd)
    (by rw [hb.properties]; exact nodup_append property h.nodup hkey)
    (by
      intro map hmap
      rw [hb.map] at hmap
      exact (fieldsOn_push property key h hd hmap).congr hb.inFields hb.ownList)
    (by rw [hb.properties]; exact get?_push property hkey)
  exact stores_append property h hd hkey (hbv.trans hv) hf
    fun has => ha (hb.aligned (aligned_push property has))

/-- The update of ValidateAndApplyPropertyDescriptor. -/
theorem stores_setPropertyAt {position : Nat} (h : s.Coherent) (hd : s.propsDeferred = false)
    (hpos : AssocList.position s.properties key = some position) :
    Stores s ((s.setPropertyAt position property).syncMapAfterDefine key property)
      (setAt s.ownList position property) := by
  have hown : ownList s = s.properties := ownList_of_not_deferred hd
  have hnodup : (keys (setAt s.properties position property)).Nodup := by
    rw [keys_setAt]
    exact h.nodup
  have hown' : ownList (s.setPropertyAt position property) = setAt s.properties position property :=
    ownList_of_not_deferred hd
  obtain ⟨hv, hf, ha⟩ := syncMapAfterDefine_spec (s.setPropertyAt position property) key property
    h.ordinary hd hnodup
    (by
      intro map hmap
      refine fieldsOn_of_agree (s := s) (h.fields map hmap) rfl ?_
      intro k hk
      rw [hown, hown', get?_setAt property hpos k, if_neg hk])
    ((get?_setAt property hpos key).trans (if_pos rfl))
  refine ⟨⟨?_, ?_, ?_, ?_, hf⟩, ?_, hv.extensible, hv.prototype, ?_⟩
  · exact hv.kind.trans h.ordinary
  · rw [hv.properties]
    exact hnodup
  · intro index hindex k
    rw [hv.propertyIndex] at hindex
    rw [hv.properties, h.index index hindex k]
    exact (position_setAt s.properties position property k).symm
  · intro hd'
    rw [hv.propsDeferred] at hd'
    exact absurd (hd.symm.trans hd') (by simp)
  · rw [ownList_of_not_deferred (hv.propsDeferred.trans hd), hv.properties, hown]
    rfl
  · intro has
    apply ha
    intro map hmap k o hk hle
    exact (position_setAt s.properties position property k).trans (has map hmap k o hk hle)

/-- The in-place value update with its field mirror. -/
theorem stores_writeMapped {position : Nat} {e c : Bool} {old : Value} (value : Value)
    (h : s.Coherent) (hd : s.propsDeferred = false)
    (hpos : AssocList.position s.properties key = some position)
    (hold : s.properties[position]? = some (key, ⟨.data old true, e, c⟩)) :
    Stores s ((s.setPropertyAt position ⟨.data value true, e, c⟩).mapSet key value)
      (setAt s.ownList position ⟨.data value true, e, c⟩) := by
  have hown : ownList s = s.properties := ownList_of_not_deferred hd
  let t := s.setPropertyAt position ⟨.data value true, e, c⟩
  have hget : get? s.ownList key = some ⟨.data old true, e, c⟩ := by
    rw [hown, get?_of_position hpos, hold]
    rfl
  have hget' : get? t.properties key = some ⟨.data value true, e, c⟩ :=
    (get?_setAt _ hpos key).trans (if_pos rfl)
  have hv := SameVector.mapSet t key value
  have hprops : (t.mapSet key value).properties =
      setAt s.properties position ⟨.data value true, e, c⟩ := hv.properties
  have hdt : (t.mapSet key value).propsDeferred = false := hv.propsDeferred.trans hd
  refine ⟨⟨hv.kind.trans h.ordinary, ?_, ?_, ?_, ?_⟩, ?_, hv.extensible, hv.prototype, ?_⟩
  · rw [hprops, keys_setAt]
    exact h.nodup
  · intro index hindex k
    rw [hprops, position_setAt]
    exact h.index index (hv.propertyIndex.symm.trans hindex) k
  · intro hd'
    exact absurd (hdt.symm.trans hd') (by simp)
  · intro map hm
    rw [map_mapSet] at hm
    have hf := h.fields map hm
    have hagree : t.FieldsOn map (· ≠ key) := by
      refine fieldsOn_of_agree (s := s) hf rfl ?_
      intro k hk
      have hownt : ownList t = setAt s.properties position ⟨.data value true, e, c⟩ :=
        ownList_of_not_deferred hd
      rw [hown, hownt, get?_setAt _ hpos k, if_neg hk]
    cases hfind : map.find key with
    | none =>
        have heq : t.mapSet key value = t := by
          have hnone : t.map.bind (·.find key) = none := by
            rw [show t.map = some map from hm, Option.bind_some, hfind]
          simp only [mapSet, hnone]
        rw [heq]
        exact fieldsCoherent_of_find_none hagree hfind
    | some ordinal =>
        obtain ⟨entry, hentry, hkey⟩ := map.find_eq_some hfind
        -- The old property had the descriptor's attributes, so the new one has.
        have hattrs : ∃ v, (⟨.data old true, e, c⟩ : Property) = fieldProperty entry v := by
          by_cases hlt : ordinal < inlineFields
          · have hmem : key ∈ keys s.ownList := by
              by_contra hc
              rw [get?_eq_none.mpr hc] at hget
              cases hget
            obtain ⟨v, hv⟩ := Option.isSome_iff_exists.mp
              (hf.stored key ordinal hfind trivial hlt hmem)
            have hw := hf.written ordinal entry v hentry trivial hlt hv
            rw [hkey, hget] at hw
            exact ⟨v, Option.some.inj hw⟩
          · obtain ⟨v, hv⟩ := hf.vector key ordinal entry hfind trivial (by omega) hentry
            rw [hget] at hv
            exact ⟨v, Option.some.inj hv⟩
        obtain ⟨v, hv⟩ := hattrs
        refine fieldsOn_mapSet (s := t) hd hm hagree hfind hentry ?_
        rw [hget']
        simp only [fieldProperty, Property.data, Property.mk.injEq, PropertyKind.data.injEq] at hv
        simp [fieldProperty, Property.data, ← hv.1.2, ← hv.2.1, ← hv.2.2]
  · rw [ownList_of_not_deferred hdt, hprops, hown]
  · intro ha map hm k o hk hle
    rw [map_mapSet] at hm
    rw [hprops, position_setAt]
    exact ha map hm k o hk hle

end Vector

section Fresh

variable {s : ObjState} {key : PropertyKey} (value : Value)

theorem pushProperty_mapSet (s : ObjState) (key : PropertyKey) (value : Value)
    (property : Property) :
    (s.mapSet key value).pushProperty key property =
      (s.pushProperty key property).mapSet key value := by
  simp only [mapSet, pushProperty]
  split
  · rfl
  · split <;> rfl

theorem pushProperty_mapAddPropertyCell (s : ObjState) (key : PropertyKey) (attrs : MapAttrs)
    (property : Property) :
    (s.mapAddPropertyCell key attrs).pushProperty key property =
      (s.pushProperty key property).mapAddPropertyCell key attrs := by
  simp only [mapAddPropertyCell, pushProperty]
  split <;> rfl

/-- The property CreateDataProperty makes. -/
abbrev created (value : Value) : Property := .data value true true true

/-- The vector append of `define_fresh`. -/
theorem stores_appendFresh (h : s.Coherent) (hd : s.propsDeferred = false)
    (hkey : key ∉ keys s.properties) :
    Stores s (s.appendFresh key value .all) (s.ownList ++ [(key, created value)]) := by
  -- The map step and the push commute, so the map step sees the appended list.
  obtain ⟨t, heq, hv, hf, ha⟩ : ∃ t, s.appendFresh key value .all =
      (t.indexAppended key s.properties.length).bumpGeneration ∧
      SameVector (s.pushProperty key (created value)) t ∧
      (∀ map, t.map = some map → t.FieldsCoherent map) ∧ (s.Aligned → t.Aligned) := by
    have hget := get?_push (created value) hkey
    unfold appendFresh
    cases hmap : s.map with
    | none =>
        refine ⟨s.pushProperty key (created value), ?_, .refl _, ?_, aligned_push _⟩
        · simp [mapDescribes, mapTransitionAligned, hmap, MapAttrs.all]
        · intro map hm
          change s.map = some map at hm
          rw [hmap] at hm
          cases hm
    | some map =>
        have hpush := fieldsOn_push (created value) key h hd hmap
        cases hfind : map.find key with
        | some ordinal =>
            obtain ⟨entry, hentry, -⟩ := map.find_eq_some hfind
            have hall : entry.attrs = .all := by
              apply (h.fields map hmap).holes key ordinal entry hfind trivial _ hentry
              rw [ownList_of_not_deferred hd]
              exact hkey
            refine ⟨(s.pushProperty key (created value)).mapSet key value, ?_,
              .mapSet _ key value, ?_, ?_⟩
            · simp only [mapDescribes, hmap, Option.bind_some, hfind, Option.isSome_some, if_true,
                (SameVector.mapSet s key value).properties]
              rw [← pushProperty_mapSet]
              rfl
            · intro map' hm
              rw [map_mapSet] at hm
              change s.map = some map' at hm
              rw [hmap] at hm
              obtain rfl := Option.some.inj hm
              refine fieldsOn_mapSet (s := s.pushProperty key (created value)) hd hmap hpush hfind
                hentry ?_
              rw [hget, fieldProperty, hall]
              rfl
            · intro has
              have hp := (SameVector.mapSet (s.pushProperty key (created value)) key value).properties
              simpa only [Aligned, map_mapSet, hp] using aligned_push (created value) has
        | none =>
            by_cases hal : s.properties.length = map.descriptorCount
            · refine ⟨((s.pushProperty key (created value)).mapAddPropertyCell key .all).mapSet key
                value, ?_, (SameVector.mapAddPropertyCell _ key .all).trans (.mapSet _ key value),
                fork_spec hd hmap hpush hfind hget, fun has => ?_⟩
              · have hp : ((s.mapAddPropertyCell key .all).mapSet key value).properties =
                    s.properties :=
                  ((SameVector.mapAddPropertyCell s key .all).trans
                    (SameVector.mapSet _ key value)).properties
                simp only [mapDescribes, mapTransitionAligned, hmap, Option.bind_some, hfind,
                  Option.isSome_none, Bool.false_eq_true, if_false, hal, decide_true, if_true]
                rw [hp, ← pushProperty_mapAddPropertyCell, ← pushProperty_mapSet, hal]
                rfl
              · refine aligned_fork (s := s.pushProperty key (created value)) hmap
                  (aligned_push (created value) has) ?_
                change position (s.properties ++ [(key, created value)]) key = _
                rw [position_append, position_eq_none.mpr hkey, hal]
                simp
            · refine ⟨s.pushProperty key (created value), ?_, .refl _, ?_, aligned_push _⟩
              · simp only [mapDescribes, mapTransitionAligned, hmap, Option.bind_some, hfind,
                  Option.isSome_none, Bool.false_eq_true, if_false, hal, decide_false]
                rfl
              · intro map' hm
                change s.map = some map' at hm
                rw [hmap] at hm
                obtain rfl := Option.some.inj hm
                exact fieldsCoherent_of_find_none hpush hfind
  have hst := stores_append (created value) h hd hkey hv hf ha
  rw [heq]
  have hb := hst.trans (stores_bumpGeneration hst.coherent)
  rwa [hst.ownList] at hb

end Fresh

end Slag.Crux.ObjState
