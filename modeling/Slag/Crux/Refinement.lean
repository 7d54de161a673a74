import Slag.Crux.PlainObject
import Slag.Crux.VectorFree

/-!
The storage operations of an ordinary object against the plain object: one
lemma per operation, then every run.
-/

namespace Slag.Crux

open AssocList

theorem applyDescriptor_of_isEmpty {desc : PropertyDescriptor} (h : desc.isEmpty = true)
    (current : Property) : applyDescriptor desc current = current := by
  obtain ⟨v, w, g, f, e, c⟩ := desc
  simp only [PropertyDescriptor.isEmpty, Bool.and_eq_true, Option.isNone_iff_eq_none] at h
  obtain ⟨⟨⟨⟨⟨rfl, rfl⟩, rfl⟩, rfl⟩, rfl⟩, rfl⟩ := h
  obtain ⟨⟨value, writable⟩ | ⟨g, f⟩, e, c⟩ := current <;>
    simp [applyDescriptor, PropertyDescriptor.isAccessorDescriptor,
      PropertyDescriptor.isDataDescriptor]

theorem validateCurrent_of_isEmpty {desc : PropertyDescriptor} (h : desc.isEmpty = true)
    (current : Property) : validateCurrent desc current = true := by
  simp [validateCurrent, h]

namespace PlainObject

variable {o : PlainObject} {key : PropertyKey}

theorem replace_self {current : Property} (h : o.getOwn key = some current) :
    o.replace key current = o := by
  obtain ⟨i, hp, hi⟩ := get?_eq_some h
  have hset : setAt o.properties i current = o.properties := by
    apply List.ext_getElem?
    intro j
    rw [getElem?_setAt]
    split
    · rename_i hij
      subst hij
      rw [hi]
      rfl
    · rfl
  simp only [replace, hp, hset]

theorem replace_of_position {i : Nat} {property : Property}
    (h : position o.properties key = some i) :
    o.replace key property = { o with properties := setAt o.properties i property } := by
  simp only [replace, h]

end PlainObject

namespace ObjState

variable {s : ObjState}

theorem becomes_bumpGeneration (h : s.Coherent) : Becomes s s.bumpGeneration s.plain :=
  (stores_bumpGeneration h).becomes

theorem becomes_materialize (h : s.Coherent) : Becomes s s.materializeProperties s.plain :=
  (stores_materialize h).becomes

theorem validateAndApply_spec (h : s.Coherent) (hd : s.propsDeferred = false) (key : PropertyKey)
    (desc : PropertyDescriptor) :
    ∃ t, s.validateAndApply key s.extensible desc (get? s.properties key) =
        (t, (s.plain.define key desc).2) ∧ Becomes s t (s.plain.define key desc).1 := by
  have hown : s.ownList = s.properties := ownList_of_not_deferred hd
  have hsame : Becomes s s s.plain := (SameStore.refl s).becomes h
  cases hget : get? s.properties key with
  | none =>
      have hplain : s.plain.getOwn key = none := by
        simp only [PlainObject.getOwn, plain, hown, hget]
      simp only [validateAndApply, PlainObject.define, hplain]
      cases hc : createdProperty desc with
      | none =>
          refine ⟨s, ?_, hsame⟩
          split <;> rfl
      | some property =>
          cases he : s.extensible with
          | false =>
              simp only [plain, he, Bool.not_false, if_true, Bool.false_eq_true, if_false]
              exact ⟨s, rfl, by simpa only [plain, he] using hsame⟩
          | true =>
              simp only [plain, he, Bool.not_true, if_true, Bool.false_eq_true, if_false]
              refine ⟨_, rfl, ?_⟩
              have hpush := (stores_push property h hd (get?_eq_none.mp hget)).becomes
              simpa only [PlainObject.append, he] using hpush
  | some current =>
      have hplain : s.plain.getOwn key = some current := by
        simp only [PlainObject.getOwn, plain, hown, hget]
      simp only [validateAndApply, PlainObject.define, hplain]
      by_cases hempty : desc.isEmpty = true
      · simp only [hempty, if_true, validateCurrent_of_isEmpty hempty, applyDescriptor_of_isEmpty hempty,
          PlainObject.replace_self hplain]
        exact ⟨s, rfl, hsame⟩
      · simp only [hempty, Bool.false_eq_true, if_false]
        cases hv : validateCurrent desc current with
        | false =>
            simp only [Bool.not_false, if_true, Bool.false_eq_true, if_false]
            exact ⟨s, rfl, hsame⟩
        | true =>
            simp only [Bool.not_true, Bool.false_eq_true, if_false, if_true]
            obtain ⟨t, ht, hst, hct⟩ := propertyPosition_spec h key
            obtain ⟨i, hp, -⟩ := get?_eq_some hget
            have hpos : position t.properties key = some i := by
              rw [hst.properties]
              exact hp
            have hpp : position s.plain.properties key = some i := by
              simp only [plain, hown]
              exact hp
            simp only [ht, hp]
            refine ⟨_, rfl, ?_⟩
            have hset := (stores_setPropertyAt (applyDescriptor desc current) hct
              (hst.propsDeferred.trans hd) hpos).becomes
            rw [PlainObject.replace_of_position hpp]
            simpa only [plain, hst.ownList, hst.extensible, hst.prototype] using
              ((hst.becomes hct).trans hset)

theorem ordinaryDefineOwnProperty_spec (h : s.Coherent) (key : PropertyKey)
    (desc : PropertyDescriptor) :
    ∃ t, s.ordinaryDefineOwnProperty key desc = (t, (s.plain.define key desc).2) ∧
      Becomes s t (s.plain.define key desc).1 := by
  obtain ⟨hc, -, hd, -⟩ := materialize_spec h
  have hm := becomes_materialize h
  obtain ⟨t, ht, hst, hct⟩ := ordinaryGetOwnProperty_spec hc key
  have hdt : t.propsDeferred = false := hst.propsDeferred.trans hd
  obtain ⟨u, hu, hbu⟩ := validateAndApply_spec hct hdt key desc
  have hplain : t.plain = s.plain := ((hm.trans (hst.becomes hct)).plain).trans hm.plain
  have hget : get? s.materializeProperties.ownList key = get? t.properties key := by
    rw [← hst.ownList, ownList_of_not_deferred hdt]
  rw [hplain] at hu hbu
  refine ⟨u, ?_, (hm.trans (hst.becomes hct)).trans hbu⟩
  simp only [ordinaryDefineOwnProperty, ht, hget, hu]

theorem definePropertyKey_spec (engine : Engine) (outside : Outside) (h : s.Coherent)
    (key : PropertyKey) (desc : PropertyDescriptor) :
    ∃ t, s.definePropertyKey engine outside key desc = (t, .ok (s.plain.define key desc).2) ∧
      Becomes s t (s.plain.define key desc).1 := by
  have hb := becomes_bumpGeneration h
  obtain ⟨t, ht, hbt⟩ := ordinaryDefineOwnProperty_spec hb.coherent key desc
  rw [hb.plain] at ht hbt
  refine ⟨t, ?_, hb.trans hbt⟩
  have hkind : s.bumpGeneration.kind = .ordinary := h.ordinary
  simp only [definePropertyKey, hkind, ht]

theorem createdProperty_data (value : Value) :
    createdProperty (.data value) = some (created value) := rfl

theorem createDataPropertyKey_spec (engine : Engine) (outside : Outside) (h : s.Coherent)
    (key : PropertyKey) (value : Value) :
    ∃ t, s.createDataPropertyKey engine outside key value =
        (t, .ok (s.plain.createData key value).2) ∧
      Becomes s t (s.plain.createData key value).1 := by
  have hord : s.kind.isOrdinary = true := by
    rw [h.ordinary]
    rfl
  obtain ⟨t, ht, hst, hct⟩ := ordinaryGetOwnProperty_spec h key
  have hb := hst.becomes hct
  obtain ⟨u, hu, hbu⟩ := definePropertyKey_spec engine outside hct key (.data value)
  rw [hb.plain] at hu hbu
  cases hget : get? s.ownList key with
  | some property =>
      refine ⟨u, ?_, hb.trans hbu⟩
      simp only [createDataPropertyKey, hord, if_true, ht, hget, hu]
      rfl
  | none =>
      cases he : t.extensible with
      | false =>
          refine ⟨u, ?_, hb.trans hbu⟩
          have hfresh : t.freshDataDefine key value = (t, false) := by
            simp [freshDataDefine, defineFresh, he]
          simp only [createDataPropertyKey, hord, if_true, ht, hget, hfresh, hu]
          rfl
      | true =>
          have hkey : key ∉ keys t.ownList := by
            rw [hst.ownList]
            exact get?_eq_none.mp hget
          obtain ⟨w, hw, hsw⟩ := defineFresh_spec value hct hkey he
          have hplain : s.plain.createData key value = (s.plain.append key (created value), true) := by
            have hext : s.plain.extensible = true := hst.extensible.symm.trans he
            have hown : s.plain.getOwn key = none := hget
            simp only [PlainObject.createData, PlainObject.define, hown, createdProperty_data, hext,
              if_true]
          refine ⟨w, ?_, ?_⟩
          · simp only [createDataPropertyKey, hord, if_true, ht, hget, freshDataDefine, hw, hplain]
          · rw [hplain]
            have := hb.trans hsw.becomes
            simpa only [PlainObject.append, plain, hst.ownList, hst.extensible, hst.prototype]
              using this

/-- The in-place write on a materialized object. -/
theorem writeInPlace_spec (h : s.Coherent) (hd : s.propsDeferred = false) (key : PropertyKey)
    (value : Value) :
    ∃ t, s.writeInPlace key value = (t, (s.plain.writeData key value).2) ∧
      Becomes s t (s.plain.writeData key value).1 := by
  have hown : s.ownList = s.properties := ownList_of_not_deferred hd
  obtain ⟨t, ht, hst, hct⟩ := propertyPosition_spec h key
  have hb := hst.becomes hct
  simp only [writeInPlace, ht]
  cases hpos : position s.properties key with
  | none =>
      have hget : s.plain.getOwn key = none := by
        simp only [PlainObject.getOwn, plain, hown]
        exact get?_eq_none.mpr (position_eq_none.mp hpos)
      simp only [PlainObject.writeData, hget, Option.bind_none]
      exact ⟨t, rfl, hb⟩
  | some i =>
      obtain ⟨property, hi⟩ := position_eq_some hpos
      have hget : s.plain.getOwn key = some property := by
        simp only [PlainObject.getOwn, plain, hown]
        rw [get?_of_position hpos, hi]
        rfl
      have hti : t.properties[i]? = some (key, property) := by
        rw [hst.properties]
        exact hi
      simp only [PlainObject.writeData, hget, Option.bind_some, hti]
      obtain ⟨⟨old, writable⟩ | ⟨g, f⟩, e, c⟩ := property
      · cases writable with
        | false => exact ⟨t, rfl, hb⟩
        | true =>
            refine ⟨_, rfl, hb.trans ?_⟩
            have hpt : position t.properties key = some i := by
              rw [hst.properties]
              exact hpos
            have hpp : position s.plain.properties key = some i := by
              simp only [plain, hown]
              exact hpos
            change Becomes t _ (s.plain.replace key ⟨.data value true, e, c⟩)
            rw [PlainObject.replace_of_position hpp]
            have hset := stores_writeMapped value hct (hst.propsDeferred.trans hd) hpt hti
            simpa only [plain, hst.ownList, hst.extensible, hst.prototype] using hset.becomes
      · exact ⟨t, rfl, hb⟩

/-- On a vector-free object the scan finds nothing. -/
theorem writeInPlace_deferred (h : s.Coherent) (hd : s.propsDeferred = true) (key : PropertyKey)
    (value : Value) : ∃ t, s.writeInPlace key value = (t, false) ∧ SameStore s t ∧ t.Coherent := by
  obtain ⟨t, ht, hst, hct⟩ := propertyPosition_spec h key
  refine ⟨t, ?_, hst, hct⟩
  have hnone : position s.properties key = none := by
    rw [(h.deferred hd).1]
    rfl
  simp only [writeInPlace, ht, hnone, Option.bind_none]

theorem servesInPlace_ordinary (h : s.Coherent) (key : PropertyKey) :
    s.servesInPlace key = true := by
  simp only [servesInPlace, h.ordinary]

theorem writeDataProperty_spec (h : s.Coherent) (key : PropertyKey) (value : Value) :
    ∃ t, s.writeDataProperty key value = (t, (s.plain.writeData key value).2) ∧
      Becomes s t (s.plain.writeData key value).1 := by
  simp only [writeDataProperty, servesInPlace_ordinary h key, Bool.not_true, Bool.false_eq_true,
    if_false]
  cases hd : s.propsDeferred with
  | false =>
      have hno : s.deferredFieldWrite key value = (s, false) := by
        simp only [deferredFieldWrite, hd, Bool.not_false, if_true]
      simp only [hno]
      exact writeInPlace_spec h hd key value
  | true =>
      obtain ⟨map, hmap, hc, hl⟩ := h.ownList_deferred hd
      have hf := h.fields map hmap
      obtain ⟨t, ht, hst, hct⟩ := writeInPlace_deferred h hd key value
      have hb := hst.becomes hct
      have hget : s.plain.getOwn key = s.deferredLookup key := (deferredLookup_eq h hd key).symm
      simp only [deferredFieldWrite, hd, Bool.not_true, Bool.false_eq_true, if_false, hmap,
        Option.bind_some]
      cases hfind : map.find key with
      | none =>
          have hnone : s.plain.getOwn key = none := by
            simp [hget, deferredLookup, hmap, hfind]
          simp only [Option.bind_none, ht, PlainObject.writeData, hnone]
          exact ⟨t, rfl, hb⟩
      | some ordinal =>
          obtain ⟨entry, hentry, -⟩ := map.find_eq_some hfind
          have hoff : entry.offset = ordinal := hf.offsets ordinal entry hentry
          have hlt : ordinal < inlineFields := Nat.lt_of_lt_of_le (map.find_lt hfind) hc
          have hge : ¬ inlineFields ≤ ordinal := by omega
          have hlook : s.plain.getOwn key = (s.inFields ordinal).map (fieldProperty entry) := by
            rw [hget]
            simp only [deferredLookup, hmap, hfind, hentry, hoff, hge, Option.bind_eq_bind,
              Option.bind_some, if_false]
            cases s.inFields ordinal <;> rfl
          simp only [Option.bind_some, hentry, hoff, hge, decide_false, Bool.false_or]
          cases hv : s.inFields ordinal with
          | none =>
              have hnone : s.plain.getOwn key = none := by rw [hlook, hv]; rfl
              simp only [Option.isNone_none, Bool.or_true, if_true, ht, PlainObject.writeData, hnone]
              exact ⟨t, rfl, hb⟩
          | some old =>
              have hsome : s.plain.getOwn key = some (fieldProperty entry old) := by
                rw [hlook, hv]
                rfl
              simp only [Option.isNone_some, Bool.or_false, PlainObject.writeData, hsome,
                fieldProperty, Property.data]
              cases hw : entry.attrs.writable with
              | false =>
                  simp only [Bool.not_false, if_true, ht]
                  exact ⟨t, rfl, hb⟩
              | true =>
                  simp only [Bool.not_true, Bool.false_eq_true, if_false]
                  obtain ⟨i, hpos, hst'⟩ := stores_updateField value h hd hmap hfind hentry
                    (by rw [hv]; rfl)
                  refine ⟨_, rfl, ?_⟩
                  have hpp : position s.plain.properties key = some i := hpos
                  rw [PlainObject.replace_of_position hpp]
                  simpa only [plain, fieldProperty, Property.data, hw, hmap, hd] using hst'.becomes

/-- OrdinarySet with the object as receiver, past the in-place path. -/
theorem ordinarySet_spec (engine : Engine) (outside : Outside) (h : s.Coherent)
    (key : PropertyKey) (value : Value) (throw : Bool) :
    ∃ t, s.ordinarySet engine outside key value throw =
        (t, (s.plain.set engine key value throw outside.parent).2) ∧
      Becomes s t (s.plain.set engine key value throw outside.parent).1 := by
  have hgetOwn : ∀ {u : ObjState}, u.Coherent → ∃ t, u.getOwnPropertyKey engine outside key =
      (t, .ok (u.plain.getOwn key)) ∧ Becomes u t u.plain ∧ t.kind = .ordinary := by
    intro u hu
    obtain ⟨t, ht, hst, hct⟩ := ordinaryGetOwnProperty_spec hu key
    refine ⟨t, ?_, hst.becomes hct, hct.ordinary⟩
    simp only [getOwnPropertyKey, hu.ordinary, ht]
    rfl
  obtain ⟨t, ht, hb, -⟩ := hgetOwn h
  obtain ⟨u, hu, hbu, -⟩ := hgetOwn hb.coherent
  rw [hb.plain] at hu hbu
  obtain ⟨w, hw, hbw⟩ := createDataPropertyKey_spec engine outside hbu.coherent key value
  rw [hbu.plain] at hw hbw
  obtain ⟨x, hx, hbx⟩ := definePropertyKey_spec engine outside hbu.coherent key (.valueOnly value)
  rw [hbu.plain] at hx hbx
  have hproto : t.prototype = s.plain.prototype := congrArg PlainObject.prototype hb.plain
  simp only [ordinarySet, ht]
  cases hown : s.plain.getOwn key with
  | none =>
      have hcreate : t.receiverDataWrite engine outside key value throw =
          (w, (s.plain.createOnReceiver key value throw).2) := by
        simp only [receiverDataWrite, hu, hown, receiverCreateDataProperty, hw,
          PlainObject.createOnReceiver]
        cases hc : s.plain.createData key value with
        | mk o ok =>
            cases ok with
            | true => rfl
            | false => cases throw <;> rfl
      have hbecomes : Becomes s w (s.plain.createOnReceiver key value throw).1 := by
        have hfst : (s.plain.createOnReceiver key value throw).1 =
            (s.plain.createData key value).1 := by
          simp only [PlainObject.createOnReceiver]
          split <;> simp_all
        rw [hfst]
        exact (hb.trans hbu).trans hbw
      simp only [PlainObject.set, hown, hproto, hcreate]
      cases s.plain.prototype with
      | none => exact ⟨w, rfl, hbecomes⟩
      | some p =>
          cases outside.parent with
          | receiverWrite => exact ⟨w, rfl, hbecomes⟩
          | answer result => exact ⟨t, rfl, hb⟩
  | some property =>
      obtain ⟨⟨old, writable⟩ | ⟨g, f⟩, e, c⟩ := property
      · cases writable with
        | false =>
            simp only [PlainObject.set, hown, Bool.not_false, if_true]
            exact ⟨t, rfl, hb⟩
        | true =>
            -- A value-only define of a writable data property replaces its value.
            have hdefine : s.plain.define key (.valueOnly value) =
                (s.plain.replace key ⟨.data value true, e, c⟩, true) := by
              have hv : validateCurrent (.valueOnly value) ⟨.data old true, e, c⟩ = true := by
                cases c <;> cases e <;> rfl
              have ha : applyDescriptor (.valueOnly value) ⟨.data old true, e, c⟩ =
                  ⟨.data value true, e, c⟩ := rfl
              simp only [PlainObject.define, hown, hv, ha, if_true]
            have hwrite : t.receiverDataWrite engine outside key value throw = (x, .ok true) := by
              simp only [receiverDataWrite, hu, hown, hx, hdefine]
              rfl
            rw [hdefine] at hbx
            simp only [PlainObject.set, hown, Bool.not_true, Bool.false_eq_true, if_false, hwrite]
            exact ⟨x, rfl, (hb.trans hbu).trans hbx⟩
      · simp only [PlainObject.set, hown]
        cases f.filter engine.isCallable with
        | none => exact ⟨t, rfl, hb⟩
        | some setter => exact ⟨t, rfl, hb⟩

theorem setKey_spec (engine : Engine) (outside : Outside) (h : s.Coherent) (key : PropertyKey)
    (value : Value) (throw : Bool) :
    ∃ t, s.setKey engine outside key value throw =
        (t, (s.plain.set engine key value throw outside.parent).2) ∧
      Becomes s t (s.plain.set engine key value throw outside.parent).1 := by
  have hslow : ∀ {u : ObjState}, Becomes s u s.plain →
      ∃ t, u.setWithReceiverKey engine outside key value throw =
          (t, (s.plain.set engine key value throw outside.parent).2) ∧
        Becomes s t (s.plain.set engine key value throw outside.parent).1 := by
    intro u hu
    obtain ⟨t, ht, hbt⟩ := ordinarySet_spec engine outside hu.coherent key value throw
    rw [hu.plain] at ht hbt
    refine ⟨t, ?_, hu.trans hbt⟩
    simp only [setWithReceiverKey, hu.coherent.ordinary, ht]
  simp only [setKey, servesInPlace_ordinary h key, if_true]
  cases hd : s.propsDeferred with
  | true =>
      obtain ⟨t, ht, hst, hct⟩ := writeInPlace_deferred h hd key value
      simp only [ht]
      exact hslow (hst.becomes hct)
  | false =>
      obtain ⟨t, ht, hb⟩ := writeInPlace_spec h hd key value
      cases hown : s.plain.getOwn key with
      | none =>
          have hno : s.plain.writeData key value = (s.plain, false) := by
            simp only [PlainObject.writeData, hown]
          rw [hno] at ht hb
          simp only [ht]
          exact hslow hb
      | some property =>
          obtain ⟨⟨old, writable⟩ | ⟨g, f⟩, e, c⟩ := property
          · cases writable with
            | false =>
                have hno : s.plain.writeData key value = (s.plain, false) := by
                  simp only [PlainObject.writeData, hown]
                rw [hno] at ht hb
                simp only [ht]
                exact hslow hb
            | true =>
                have hyes : s.plain.writeData key value =
                    (s.plain.replace key ⟨.data value true, e, c⟩, true) := by
                  simp only [PlainObject.writeData, hown]
                rw [hyes] at ht hb
                simp only [ht, PlainObject.set, hown]
                refine ⟨_, rfl, ?_⟩
                have hg := hb.trans (becomes_bumpGeneration hb.coherent)
                rwa [hb.plain] at hg
          · have hno : s.plain.writeData key value = (s.plain, false) := by
              simp only [PlainObject.writeData, hown]
            rw [hno] at ht hb
            simp only [ht]
            exact hslow hb

/-- Deleting `key` would move a vector entry that the map addresses by ordinal:
the key is configurable, the map does not describe it, and it stands before the
end of a described prefix longer than the in-object fields. -/
def shiftsDescribed (s : ObjState) (key : PropertyKey) : Bool :=
  match s.map, position s.properties key with
  | some map, some i =>
      (map.find key).isNone && (s.properties[i]?).any (fun entry => entry.2.configurable) &&
        inlineFields < map.descriptorCount && i < map.descriptorCount
  | _, _ => false

theorem removeOwn_spec (h : s.Coherent) (hd : s.propsDeferred = false) (key : PropertyKey) :
    ∃ t, s.removeOwn key = (t, (s.plain.delete key).2) ∧ t.Coherent ∧
      t.plain = (s.plain.delete key).1 ∧
      (s.Aligned → s.shiftsDescribed key = false → t.Aligned) := by
  have hown : s.ownList = s.properties := ownList_of_not_deferred hd
  have hprops : s.plain.properties = s.properties := hown
  simp only [removeOwn, PlainObject.delete, hprops]
  cases hpos : position s.properties key with
  | none => exact ⟨s, rfl, h, rfl, fun ha _ => ha⟩
  | some i =>
      obtain ⟨property, hi⟩ := position_eq_some hpos
      have hget : s.plain.getOwn key = some property := by
        simp only [PlainObject.getOwn, hprops]
        rw [get?_of_position hpos, hi]
        rfl
      simp only [hi, hget, Option.any_some]
      cases hc : property.configurable with
      | false =>
          simp only [Bool.false_eq_true, if_false]
          exact ⟨s, rfl, h, rfl, fun ha _ => ha⟩
      | true =>
          simp only [if_true]
          let t : ObjState := { s with
            properties := s.properties.eraseIdx i
            propertyIndex := none }
          have hownt : t.ownList = s.properties.eraseIdx i := ownList_of_not_deferred hd
          -- The erased object, before its counters advance.
          suffices hsuff : (t.dropMapIfMapped key).Coherent ∧
              (t.dropMapIfMapped key).plain = ⟨s.properties.eraseIdx i, s.extensible, s.prototype⟩ ∧
              (s.Aligned → s.shiftsDescribed key = false → (t.dropMapIfMapped key).Aligned) by
            obtain ⟨hcoh, hplain, hal⟩ := hsuff
            have hg := stores_bumpGeneration hcoh
            have hn := hg.trans (stores_bumpNamedVersion hg.coherent)
            refine ⟨_, rfl, hn.coherent, ?_, fun ha hs => hn.aligned (hal ha hs)⟩
            have hbec := hn.becomes.plain
            rw [hg.ownList] at hbec
            exact hbec.trans hplain
          have hfields : ∀ map, s.map = some map → map.find key = none →
              t.FieldsCoherent map := by
            intro map hmap hfind
            apply fieldsCoherent_of_find_none _ hfind
            refine fieldsOn_of_agree (s := s) (h.fields map hmap) rfl ?_
            intro k hk
            rw [hownt, hown, get?_eraseIdx h.nodup hpos, if_neg hk]
          cases hm : s.mapDescribes key with
          | true =>
              have heq : t.dropMapIfMapped key = { t with map := none } := by
                have : t.mapDescribes key = true := hm
                simp only [dropMapIfMapped, this, if_true]
              rw [heq]
              refine ⟨⟨h.ordinary, nodup_eraseIdx h.nodup, ?_, ?_, ?_⟩, ?_,
                fun _ _ => aligned_of_map_none rfl⟩
              · intro index hindex
                cases hindex
              · intro hd'
                exact absurd (hd.symm.trans hd') (by simp)
              · intro map hmap
                cases hmap
              · have hdt : ({ t with map := none } : ObjState).propsDeferred = false := hd
                simp only [plain, ownList_of_not_deferred hdt]
                rfl
          | false =>
              have heq : t.dropMapIfMapped key = t := by
                have : t.mapDescribes key = false := hm
                simp only [dropMapIfMapped, this, Bool.false_eq_true, if_false]
              have hnone : ∀ map, s.map = some map → map.find key = none := by
                intro map hmap
                simpa [mapDescribes, hmap] using hm
              rw [heq]
              refine ⟨⟨h.ordinary, nodup_eraseIdx h.nodup, ?_, ?_, ?_⟩, ?_, ?_⟩
              · intro index hindex
                cases hindex
              · intro hd'
                exact absurd (hd.symm.trans hd') (by simp)
              · intro map hmap
                exact hfields map hmap (hnone map hmap)
              · simp only [plain, hownt]
                rfl
              · intro ha hs map hmap k o hk hle
                have hlt := map.find_lt hk
                have hcount : ¬ i < map.descriptorCount := by
                  intro hlt'
                  simp only [shiftsDescribed, show s.map = some map from hmap, hpos,
                    hnone map hmap, hi, Option.isNone_none, Option.any_some, hc, Bool.true_and,
                    hlt', decide_true, Bool.and_true, decide_eq_false_iff_not] at hs
                  omega
                exact position_eraseIdx_of_lt h.nodup (ha map hmap k o hk hle) (by omega)

theorem shiftsDescribed_materialize (h : s.Coherent) (key : PropertyKey)
    (hs : s.shiftsDescribed key = false) :
    s.materializeProperties.shiftsDescribed key = false := by
  cases hd : s.propsDeferred with
  | false => simpa only [materializeProperties, hd, Bool.not_false, if_true] using hs
  | true =>
      -- A vector-free object has no descriptor past the in-object fields.
      obtain ⟨map, hmap, hc, -⟩ := h.ownList_deferred hd
      have hle : ¬ inlineFields < map.descriptorCount := by omega
      simp only [shiftsDescribed, (materialize_spec h).2.2.2.1, hmap]
      cases position s.materializeProperties.properties key with
      | none => rfl
      | some i => simp only [hle, decide_false, Bool.and_false, Bool.false_and]

end ObjState

end Slag.Crux
