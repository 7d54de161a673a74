import Slag.Crux.Refinement

/-!
Whole runs of an ordinary object, created empty or on a constructor's presized
map, against the plain object.
-/

namespace Slag.Crux

open AssocList

/-- `ordinary_object_create`. -/
def ordinaryObjectCreate (prototype : Option ObjId) (epoch : Nat) : ObjState :=
  { JsObject.fresh .ordinary prototype .empty with epoch }

/-- The map a constructor is presized with: its recorded names, up to the
in-object fields. -/
def presizeMap (names : List JsString) : Map :=
  names.foldl (fun map name =>
    if inlineFields ≤ map.descriptorCount then map else map.addDescriptor (.string name) .all) .empty

/-- The receiver of a construct: born on the presized map, vector-free. -/
def constructThisObject (prototype : Option ObjId) (names : List JsString) (epoch : Nat) :
    ObjState :=
  { JsObject.fresh .ordinary prototype (presizeMap names) with propsDeferred := true, epoch }

inductive Created : ObjState → Prop
  | empty (prototype : Option ObjId) (epoch : Nat) : Created (ordinaryObjectCreate prototype epoch)
  | presized (prototype : Option ObjId) (names : List JsString) (epoch : Nat) :
      Created (constructThisObject prototype names epoch)

/-- No deletion moves a vector entry that the map addresses by its ordinal. -/
def deletesKeepOrdinals (s : ObjState) : StorageOp → Prop
  | .delete key _ => s.shiftsDescribed key = false
  | _ => True

/-- What a run promises: the plain object's answers, its list in every
representation, and map reads that agree with it. -/
structure RefinesPlain (engine : Engine) (start : ObjState) (ops : List StorageOp) : Prop where
  answers : (Machine.run (ObjState.storageStep engine) start ops).2 =
    (Machine.run (PlainObject.step engine) start.plain ops).2
  list : (Machine.run (ObjState.storageStep engine) start ops).1.ownList =
    (Machine.run (PlainObject.step engine) start.plain ops).1.properties
  materialized : (Machine.run (ObjState.storageStep engine) start ops).1.materializeProperties.properties =
    (Machine.run (PlainObject.step engine) start.plain ops).1.properties
  mapReads : ∀ key value,
    (Machine.run (ObjState.storageStep engine) start ops).1.mapGet key = some value →
    ∃ map ordinal entry,
      (Machine.run (ObjState.storageStep engine) start ops).1.map = some map ∧
      map.find key = some ordinal ∧ map.descriptorAt ordinal = some entry ∧
      get? (Machine.run (PlainObject.step engine) start.plain ops).1.properties key =
        some (ObjState.fieldProperty entry value)

theorem presizeMap_fold (names : List JsString) (map : Map) (ho : map.OffsetsOrdinal)
    (hc : map.descriptorCount ≤ inlineFields)
    (ha : ∀ i entry, map.descriptorAt i = some entry → entry.attrs = .all) :
    let presized := names.foldl (fun map name =>
      if inlineFields ≤ map.descriptorCount then map else map.addDescriptor (.string name) .all) map
    presized.OffsetsOrdinal ∧ presized.descriptorCount ≤ inlineFields ∧
      ∀ i entry, presized.descriptorAt i = some entry → entry.attrs = .all := by
  induction names generalizing map with
  | nil => exact ⟨ho, hc, ha⟩
  | cons name names ih =>
      simp only [List.foldl_cons]
      split
      · exact ih map ho hc ha
      · rename_i hlt
        apply ih
        · exact map.offsetsOrdinal_addDescriptor ho _ _
        · rw [map.descriptorCount_addDescriptor]
          omega
        · intro i entry hentry
          rw [map.descriptorAt_addDescriptor] at hentry
          split_ifs at hentry
          · exact ha i entry hentry
          · obtain rfl := Option.some.inj hentry
            rfl

theorem presizeMap_spec (names : List JsString) :
    (presizeMap names).OffsetsOrdinal ∧ (presizeMap names).descriptorCount ≤ inlineFields ∧
      ∀ i entry, (presizeMap names).descriptorAt i = some entry → entry.attrs = .all := by
  apply presizeMap_fold names .empty Map.offsetsOrdinal_empty (Nat.zero_le _)
  intro i entry hentry
  simp [Map.descriptorAt, Map.empty] at hentry

namespace ObjState

theorem coherent_constructThisObject (prototype : Option ObjId) (names : List JsString)
    (epoch : Nat) : (constructThisObject prototype names epoch).Coherent := by
  obtain ⟨ho, hc, ha⟩ := presizeMap_spec names
  refine ⟨rfl, List.nodup_nil, ?_, fun _ => ⟨rfl, _, rfl, hc⟩, ?_⟩
  · intro index hindex
    cases hindex
  · intro map hmap
    obtain rfl := Option.some.inj hmap
    refine fieldsCoherent_deferred (s := constructThisObject prototype names epoch) rfl rfl ho hc
      ?_ ?_ ?_
    · intro ordinal entry value _ _ hvalue
      cases hvalue
    · intro ordinal _
      rfl
    · intro key ordinal entry _ _ hentry
      exact ha ordinal entry hentry

theorem coherent_ordinaryObjectCreate (prototype : Option ObjId) (epoch : Nat) :
    (ordinaryObjectCreate prototype epoch).Coherent := by
  refine ⟨rfl, List.nodup_nil, ?_, ?_, ?_⟩
  · intro index hindex
    cases hindex
  · intro hd
    cases hd
  · intro map hmap
    obtain rfl := Option.some.inj hmap
    constructor
    · exact Map.offsetsOrdinal_empty
    · intro ordinal entry value hentry
      simp [Map.descriptorAt, Map.empty] at hentry
    · intro ordinal entry hentry
      simp [Map.descriptorAt, Map.empty] at hentry
    · intro ordinal _
      rfl
    · intro ordinal entry value hentry
      simp [Map.descriptorAt, Map.empty] at hentry
    · intro key ordinal hfind
      simp [Map.find, Map.empty] at hfind
    · intro key ordinal entry hfind
      simp [Map.find, Map.empty] at hfind
    · intro key ordinal entry hfind
      simp [Map.find, Map.empty] at hfind

theorem created_spec {s : ObjState} (h : Created s) : s.Coherent ∧ s.Aligned := by
  cases h with
  | empty prototype epoch =>
      refine ⟨coherent_ordinaryObjectCreate prototype epoch, ?_⟩
      intro map hmap key ordinal hfind
      obtain rfl := Option.some.inj hmap
      simp [Map.find, Map.empty] at hfind
  | presized prototype names epoch =>
      refine ⟨coherent_constructThisObject prototype names epoch, ?_⟩
      intro map hmap key ordinal hfind hle
      obtain rfl := Option.some.inj hmap
      have hlt := Map.find_lt _ hfind
      have hc := (presizeMap_spec names).2.1
      omega

/-- The simulation: `s` stands for `o`, coherently and aligned. -/
def Represents (s : ObjState) (o : PlainObject) : Prop := s.Coherent ∧ s.Aligned ∧ s.plain = o

theorem Becomes.represents {s t : ObjState} {o : PlainObject} (h : Becomes s t o)
    (ha : s.Aligned) : t.Represents o :=
  ⟨h.coherent, h.aligned ha, h.plain⟩

/-- One operation: the same answer, and the representation carries over. -/
theorem storageStep_spec (engine : Engine) {s : ObjState} {o : PlainObject} (op : StorageOp)
    (h : s.Represents o) (hg : deletesKeepOrdinals s op) :
    (s.storageStep engine op).2 = (o.step engine op).2 ∧
      (s.storageStep engine op).1.Represents (o.step engine op).1 := by
  obtain ⟨hc, ha, rfl⟩ := h
  cases op with
  | define key desc outside =>
      obtain ⟨t, ht, hb⟩ := definePropertyKey_spec engine outside hc key desc
      simp only [storageStep, PlainObject.step, ht]
      exact ⟨trivial, hb.represents ha⟩
  | createData key value outside =>
      obtain ⟨t, ht, hb⟩ := createDataPropertyKey_spec engine outside hc key value
      simp only [storageStep, PlainObject.step, ht]
      exact ⟨trivial, hb.represents ha⟩
  | set key value throw outside =>
      obtain ⟨t, ht, hb⟩ := setKey_spec engine outside hc key value throw
      simp only [storageStep, PlainObject.step, ht]
      exact ⟨trivial, hb.represents ha⟩
  | writeData key value =>
      obtain ⟨t, ht, hb⟩ := writeDataProperty_spec hc key value
      simp only [storageStep, PlainObject.step, ht]
      exact ⟨trivial, hb.represents ha⟩
  | slot key =>
      have hm := becomes_materialize hc
      obtain ⟨t, ht, hst, hct⟩ := propertyPosition_spec hm.coherent key
      have hb := hm.trans (hst.becomes hct)
      rw [hm.plain] at hb
      simp only [storageStep, PlainObject.step, propertySlot, ht, (materialize_spec hc).2.1]
      exact ⟨rfl, hb.represents ha⟩
  | delete key outside =>
      have hm := becomes_materialize hc
      obtain ⟨t, ht, hct, hplain, hal⟩ :=
        removeOwn_spec hm.coherent (materialize_spec hc).2.2.1 key
      rw [hm.plain] at ht hplain
      simp only [storageStep, PlainObject.step, deleteKey, hc.ordinary, ordinaryDelete, ht]
      exact ⟨trivial, hct, hal (hm.aligned ha) (shiftsDescribed_materialize hc key hg), hplain⟩
  | ownKeys =>
      have hm := becomes_materialize hc
      simp only [storageStep, PlainObject.step, ownPropertyKeys, hc.ordinary,
        ordinaryOwnPropertyKeys, (materialize_spec hc).2.1]
      exact ⟨rfl, hm.represents ha⟩
  | getOwn key =>
      obtain ⟨t, ht, hst, hct⟩ := ordinaryGetOwnProperty_spec hc key
      simp only [storageStep, PlainObject.step, ht]
      exact ⟨rfl, (hst.becomes hct).represents ha⟩

/-- A map read answers with the property the list holds. -/
theorem mapGet_sound {s : ObjState} (h : s.Coherent) (ha : s.Aligned) {key : PropertyKey}
    {value : Value} (hget : s.mapGet key = some value) :
    ∃ map ordinal entry, s.map = some map ∧ map.find key = some ordinal ∧
      map.descriptorAt ordinal = some entry ∧
      get? s.ownList key = some (fieldProperty entry value) := by
  simp only [mapGet, Option.bind_eq_bind, Option.bind_eq_some_iff] at hget
  obtain ⟨map, hmap, ordinal, hfind, hfield⟩ := hget
  obtain ⟨entry, hentry, hkey⟩ := map.find_eq_some hfind
  have hf := h.fields map hmap
  refine ⟨map, ordinal, entry, hmap, hfind, hentry, ?_⟩
  unfold mapField at hfield
  split at hfield
  · rename_i hlt
    rw [← hkey]
    exact hf.written ordinal entry value hentry trivial hlt hfield
  · rename_i hge
    -- Past the in-object fields the vector entry at the ordinal is the key's own.
    obtain ⟨v, hv⟩ := hf.vector key ordinal entry hfind trivial (by omega) hentry
    have hpos := ha map hmap key ordinal hfind (by omega)
    have hd : s.propsDeferred = false := by
      cases hd : s.propsDeferred with
      | false => rfl
      | true =>
          rw [(h.deferred hd).1] at hpos
          cases hpos
    rw [ownList_of_not_deferred hd] at hv ⊢
    have hget := get?_of_position hpos
    rw [hv, eq_comm, Option.map_eq_some_iff] at hget
    obtain ⟨e, he, hev⟩ := hget
    rw [he, Option.bind_some, hev] at hfield
    rw [hv, ← Option.some.inj hfield]

theorem storageRun_refinesPlain (engine : Engine) {start : ObjState} (ops : List StorageOp)
    (hstart : Created start)
    (hdeletes : Machine.Guarded (storageStep engine) deletesKeepOrdinals start ops) :
    RefinesPlain engine start ops := by
  obtain ⟨hc, ha⟩ := created_spec hstart
  obtain ⟨hanswers, hfinal⟩ := Machine.simulation_run Represents
    (fun s o op => storageStep_spec engine op) (⟨hc, ha, rfl⟩ : start.Represents start.plain)
    hdeletes
  obtain ⟨hcf, haf, hplain⟩ := hfinal
  have hlist := congrArg PlainObject.properties hplain
  refine ⟨hanswers, hlist, ?_, ?_⟩
  · rw [(materialize_spec hcf).2.1]
    exact hlist
  · intro key value hget
    rw [← hlist]
    exact mapGet_sound hcf haf hget

end ObjState

section Shifted

/-- No index keys, nothing callable: enough for an ordinary object. -/
def plainEngine : Engine := ⟨fun _ => none, fun _ => false⟩

/-- The one-letter name with code unit `u`. -/
def letter (u : UInt16) : PropertyKey := .string [u]

/-- A constructor presized for `a b c d` skips `d`; a non-enumerable `z` takes
the vector position that `d` would have had, six more keys follow it in step
with the map, and then `z` is deleted. -/
def shiftedRun : List StorageOp :=
  let create (u : UInt16) := StorageOp.createData (letter u) (.symbol u.toNat) quiet
  let hidden : PropertyDescriptor :=
    { value := some .null, writable := some true, get := none, set := none,
      enumerable := some false, configurable := some true }
  [create 0x61, create 0x62, create 0x63, .define (letter 0x7a) hidden quiet,
   create 0x65, create 0x66, create 0x67, create 0x68, create 0x69, create 0x6a,
   .delete (letter 0x7a) quiet]

def shiftedStart : ObjState := constructThisObject none [[0x61], [0x62], [0x63], [0x64]] 1

/-- After the deletion the map serves `i` the value of `j`. -/
theorem mapGet_shiftedRun :
    (Machine.run (ObjState.storageStep plainEngine) shiftedStart shiftedRun).1.mapGet (letter 0x69) =
        some (.symbol 0x6a) ∧
      get? (Machine.run (PlainObject.step plainEngine) shiftedStart.plain shiftedRun).1.properties
        (letter 0x69) = some (.data (.symbol 0x69) true true true) := by
  decide +kernel

theorem shiftedRun_not_refinesPlain :
    Created shiftedStart ∧ ¬ RefinesPlain plainEngine shiftedStart shiftedRun := by
  refine ⟨.presized _ _ _, fun h => ?_⟩
  obtain ⟨hread, hown⟩ := mapGet_shiftedRun
  obtain ⟨map, ordinal, entry, -, -, -, hget⟩ := h.mapReads _ _ hread
  rw [hown] at hget
  simp [ObjState.fieldProperty, Property.data] at hget

/-- Deleting the described `a` instead drops the map, and the run keeps its promise. -/
theorem storageRun_refinesPlain_mapped :
    RefinesPlain plainEngine shiftedStart
      (shiftedRun.take 10 ++ [.delete (letter 0x61) quiet]) := by
  apply ObjState.storageRun_refinesPlain plainEngine _ (.presized _ _ _)
  simp only [shiftedRun, List.take, List.cons_append, List.nil_append, Machine.Guarded,
    deletesKeepOrdinals, true_and, and_true]
  decide +kernel

end Shifted

end Slag.Crux
