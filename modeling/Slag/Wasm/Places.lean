import Slag.Wasm.Linking
import Slag.Wasm.Validate
import Mathlib.Logic.Relation

/-!
What a host can get at over its runs: the places of a store, sets of them that no
step leaves, and that running code stays in such a set.
-/

namespace Slag.Wasm.Linking

open Relation
open World (ExternVal InstantiateError)

/-! ## How code names segments -/

inductive Access where
  | found
  | traps (trap : Trap)
  | outOfRange
  deriving DecidableEq

/-- An index that is used as it is. -/
def Access.index (count index : Nat) : Access :=
  if index < count then .found else .outOfRange

/-- An index that is looked up, and traps where there is nothing. -/
def Access.get (trap : Trap) (count index : Nat) : Access :=
  if index < count then .found else .traps trap

/-- The segment an instruction names, of an instance with so many segments. -/
def access (elements data : Nat) : Instr → Access
  | .memoryInit index _ => .get .outOfBoundsMemoryAccess data index
  | .tableInit index _ => .get .outOfBoundsTableAccess elements index
  | .dataDrop index | .arrayNewData _ index | .arrayInitData _ index => .index data index
  | .elemDrop index | .arrayNewElem _ index | .arrayInitElem _ index => .index elements index
  | _ => .found

/-- Every instruction of a module finds the segment it names or traps. -/
def Covers (m : Module) (elements data : Nat) : Prop :=
  ∀ body ∈ m.bodies, ∀ instr ∈ body.body, access elements data instr ≠ .outOfRange

/-! ## Places -/

/-- What a reference leads to. -/
inductive Place where
  | inst (id : Nat)
  | table (cell : Nat)
  | global (cell : Nat)
  | object (id : Nat)
  | exn (id : Nat)
  deriving DecidableEq

def refPlace : RefValue → Option Place
  | .func addr => some (.inst addr.inst)
  | .struct id | .array id | .external (.struct id) | .external (.array id) => some (.object id)
  | .exn id => some (.exn id)
  | _ => none

def valuePlace : Value → Option Place
  | .ref r => refPlace r
  | _ => none

def targetPlace : FuncTarget → Option Place
  | .owned inst _ => some (.inst inst)
  | .host _ => none

def externPlace : ExternVal → Option Place
  | .func inst _ => some (.inst inst)
  | .table cell => some (.table cell)
  | .global cell => some (.global cell)
  | _ => none

/-- A function of an instance reaches the functions and cells of it, and the
items of its segments. -/
def Linked.places (linked : Linked) : List Place :=
  linked.funcs.filterMap targetPlace ++ linked.tables.map .table ++ linked.globals.map .global ++
    linked.elementSegments.flatMap fun segment => (segment.getD []).filterMap refPlace

/-- The places one step away. -/
def targets (s : Store) : Place → List Place
  | .inst id => (s.instances[id]?.map Linked.places).getD []
  | .table cell => (s.tables[cell]?.map fun t => t.value.elements.filterMap refPlace).getD []
  | .global cell => (s.globals[cell]?.map fun t => (valuePlace t.value).toList).getD []
  | .object id => (s.objects[id]?.map fun o => o.data.cells.filterMap valuePlace).getD []
  | .exn id => (s.exceptions[id]?.map fun e => e.args.filterMap valuePlace).getD []

def Store.Has (s : Store) : Place → Prop
  | .inst id => id < s.instances.length
  | .table cell => cell < s.tables.length
  | .global cell => cell < s.globals.length
  | .object id => id < s.objects.length
  | .exn id => id < s.exceptions.length

/-! ## Hosts -/

/-- A store and the places a host has come to know. -/
structure Host where
  store : Store
  known : Place → Prop

/-- What a host can get at. -/
def Host.Reach (h : Host) (p : Place) : Prop :=
  ∃ root, h.known root ∧ ReflTransGen (fun p q => q ∈ targets h.store p) root p

/-- The values that an effect stores. -/
def Effect.values : Effect → List Value
  | .setElement _ _ r | .growTable _ _ r => [.ref r]
  | .setGlobal _ v | .setField _ _ v => [v]
  | .alloc object => object.data.cells
  | .throw exn => exn.args
  | _ => []

def Effect.creates (s : Store) : Effect → List Place
  | .alloc _ => [.object s.objects.length]
  | .throw _ => [.exn s.exceptions.length]
  | _ => []

namespace Host

def Holds (h : Host) (v : Value) : Prop :=
  ∀ p, valuePlace v = some p → h.Reach p

/-- Whatever could be reached at some time is known from then on. -/
def perform (h : Host) (effect : Effect) : Host :=
  ⟨h.store.perform effect, fun p => h.Reach p ∨ p ∈ effect.creates h.store⟩

def run (h : Host) (effects : List Effect) : Host :=
  effects.foldl perform h

/-- Running code stores only values it holds. -/
def Moves (h : Host) : List Effect → Prop
  | [] => True
  | effect :: effects => (∀ v ∈ effect.values, h.Holds v) ∧ (h.perform effect).Moves effects

end Host

def startEffects (rt : Runtime) (m : Module) (self : Nat) (s : Store) : List Effect :=
  match m.start with
  | none => []
  | some index =>
      match s.instances[self]?.bind fun linked => linked.funcs[index]? with
      | none => []
      | some target => (rt.runTarget s target).2

/-- The host with a new instance, about to run its start function. -/
def Host.withInstance (h : Host) (s : Store) (self : Nat) : Host :=
  ⟨s, fun p => h.Reach p ∨ p = .inst self⟩

/-- A host gets the objects it registers, and the instances whose segments are
all there. -/
def Host.apply (rt : Runtime) (h : Host) : Op → Host
  | .global ty value =>
      ⟨h.store.global ty value, fun p => h.Reach p ∨ p = .global h.store.globals.length⟩
  | .table ty init => ⟨h.store.table ty init, fun p =>
      h.Reach p ∨ p = .table h.store.tables.length ∧ (h.store.table ty init).Has p⟩
  | .instantiate m resolve =>
      match prepare rt m resolve h.store with
      | (.error _, s) => ⟨s, h.Reach⟩
      | (.ok self, s) => (h.withInstance s self).run (startEffects rt m self s)
  | .run effects => h.run effects
  | op => ⟨op.apply rt h.store, h.Reach⟩

/-- A host passes values and imports it holds, and instantiates valid modules. -/
def Op.Legal (rt : Runtime) (h : Host) : Op → Prop
  | .global _ value => h.Holds value
  | .table _ init => h.Holds (.ref init)
  | .instantiate m resolve => validate m = .ok () ∧
      (∀ k v p, resolve k = some v → externPlace v = some p → h.Reach p) ∧
      ∀ self s, prepare rt m resolve h.store = (.ok self, s) →
        (h.withInstance s self).Moves (startEffects rt m self s)
  | .run effects => h.Moves effects
  | _ => True

/-! ## Closed sets of places -/

variable {p : Place} {effect : Effect}

section Closed

variable {Live Good Live' Good' : Place → Prop} {s : Store}

def OkRef (Good : Place → Prop) (r : RefValue) : Prop :=
  ∀ q, refPlace r = some q → Good q

def OkVal (Good : Place → Prop) (v : Value) : Prop :=
  ∀ q, valuePlace v = some q → Good q

/-- From the places of one set, a step leads into another. -/
structure Closed (s : Store) (Live Good : Place → Prop) : Prop where
  inst : ∀ (i : Nat) linked, Live (.inst i) → s.instances[i]? = some linked →
    ∀ q ∈ linked.places, Good q
  table : ∀ (c : Nat) cell, Live (.table c) → s.tables[c]? = some cell →
    ∀ r ∈ cell.value.elements, OkRef Good r
  global : ∀ (c : Nat) cell, Live (.global c) → s.globals[c]? = some cell → OkVal Good cell.value
  object : ∀ (o : Nat) object, Live (.object o) → s.objects[o]? = some object →
    ∀ v ∈ object.data.cells, OkVal Good v
  exn : ∀ (e : Nat) exn, Live (.exn e) → s.exceptions[e]? = some exn → ∀ v ∈ exn.args, OkVal Good v

theorem lt_of_getElem? {α : Type} {l : List α} {i : Nat} {a : α} (h : l[i]? = some a) : i < l.length :=
  (List.getElem?_eq_some_iff.mp h).1

namespace Closed

theorem mono (h : Closed s Live Good) (hlive : ∀ p, Live' p → Live p) (hgood : ∀ p, Good p → Good' p) :
    Closed s Live' Good' where
  inst := fun i linked hi hl q hq => hgood q (h.inst i linked (hlive _ hi) hl q hq)
  table := fun c cell hc hl r hr q hq => hgood q (h.table c cell (hlive _ hc) hl r hr q hq)
  global := fun c cell hc hl q hq => hgood q (h.global c cell (hlive _ hc) hl q hq)
  object := fun o obj ho hl v hv q hq => hgood q (h.object o obj (hlive _ ho) hl v hv q hq)
  exn := fun e exn he hl v hv q hq => hgood q (h.exn e exn (hlive _ he) hl v hv q hq)

/-- Places that are not in the store lead nowhere. -/
theorem widen (h : Closed s Live Good) (hnew : ∀ p, Live' p → Live p ∨ ¬ s.Has p) :
    Closed s Live' Good where
  inst := fun i linked hi hl => h.inst i linked ((hnew _ hi).resolve_right fun hn => hn (lt_of_getElem? hl)) hl
  table := fun c cell hc hl => h.table c cell ((hnew _ hc).resolve_right fun hn => hn (lt_of_getElem? hl)) hl
  global := fun c cell hc hl =>
    h.global c cell ((hnew _ hc).resolve_right fun hn => hn (lt_of_getElem? hl)) hl
  object := fun o object ho hl =>
    h.object o object ((hnew _ ho).resolve_right fun hn => hn (lt_of_getElem? hl)) hl
  exn := fun e exn he hl => h.exn e exn ((hnew _ he).resolve_right fun hn => hn (lt_of_getElem? hl)) hl

theorem targets (h : Closed s Live Good) {p q : Place} (hp : Live p) (hq : q ∈ targets s p) : Good q := by
  cases p with
  | inst i =>
      cases hl : s.instances[i]? with
      | none => simp [Linking.targets, hl] at hq
      | some linked =>
          simp only [Linking.targets, hl, Option.map_some, Option.getD_some] at hq
          exact h.inst i linked hp hl q hq
  | table c =>
      cases hl : s.tables[c]? with
      | none => simp [Linking.targets, hl] at hq
      | some cell =>
          simp only [Linking.targets, hl, Option.map_some, Option.getD_some, List.mem_filterMap] at hq
          obtain ⟨r, hr, hq⟩ := hq
          exact h.table c cell hp hl r hr q hq
  | global c =>
      cases hl : s.globals[c]? with
      | none => simp [Linking.targets, hl] at hq
      | some cell =>
          simp only [Linking.targets, hl, Option.map_some, Option.getD_some, Option.mem_toList] at hq
          exact h.global c cell hp hl q hq
  | object o =>
      cases hl : s.objects[o]? with
      | none => simp [Linking.targets, hl] at hq
      | some obj =>
          simp only [Linking.targets, hl, Option.map_some, Option.getD_some, List.mem_filterMap] at hq
          obtain ⟨v, hv, hq⟩ := hq
          exact h.object o obj hp hl v hv q hq
  | exn e =>
      cases hl : s.exceptions[e]? with
      | none => simp [Linking.targets, hl] at hq
      | some exn =>
          simp only [Linking.targets, hl, Option.map_some, Option.getD_some, List.mem_filterMap] at hq
          obtain ⟨v, hv, hq⟩ := hq
          exact h.exn e exn hp hl v hv q hq

/-- An entry of a list with one more is an old one or the last. -/
theorem getElem?_append_one {α : Type} {l : List α} {a b : α} {i : Nat} (h : (l ++ [a])[i]? = some b) :
    l[i]? = some b ∨ i = l.length ∧ b = a := by
  rcases Nat.lt_trichotomy i l.length with hi | rfl | hi
  · exact .inl (by rwa [List.getElem?_append_left hi] at h)
  · rw [List.getElem?_concat_length] at h
    exact .inr ⟨rfl, (Option.some.inj h).symm⟩
  · rw [List.getElem?_eq_none (by simp; omega)] at h
    cases h

/-- An entry of a list with one changed is an old one or the changed. -/
theorem getElem?_modify_cases {α : Type} {l : List α} {f : α → α} {i j : Nat} {b : α}
    (h : (l.modify j f)[i]? = some b) : ∃ a, l[i]? = some a ∧ (i ≠ j ∧ b = a ∨ i = j ∧ b = f a) := by
  rw [List.getElem?_modify] at h
  cases hl : l[i]? with
  | none => simp [hl] at h
  | some a =>
      refine ⟨a, rfl, ?_⟩
      rw [hl] at h
      have hb : (if j = i then f a else a) = b := Option.some.inj h
      by_cases hij : j = i
      · rw [if_pos hij] at hb
        exact .inr ⟨hij.symm, hb.symm⟩
      · rw [if_neg hij] at hb
        exact .inl ⟨fun h => hij h.symm, hb.symm⟩

/-- What is not looked at may change. -/
theorem of_same {s' : Store} (h : Closed s Live Good) (hinsts : s'.instances = s.instances)
    (htables : s'.tables = s.tables) (hglobals : s'.globals = s.globals)
    (hobjects : s'.objects = s.objects) (hexns : s'.exceptions = s.exceptions) :
    Closed s' Live Good := by
  refine ⟨?_, ?_, ?_, ?_, ?_⟩
  · rw [hinsts]
    exact h.inst
  · rw [htables]
    exact h.table
  · rw [hglobals]
    exact h.global
  · rw [hobjects]
    exact h.object
  · rw [hexns]
    exact h.exn

theorem pushObject (h : Closed s Live Good) {object : GcObject}
    (hnew : Live (.object s.objects.length) → ∀ v ∈ object.data.cells, OkVal Good v) :
    Closed { s with objects := s.objects ++ [object] } Live Good := by
  refine ⟨h.inst, h.table, h.global, fun o obj ho hl => ?_, h.exn⟩
  rcases getElem?_append_one hl with hl | ⟨rfl, rfl⟩
  · exact h.object o obj ho hl
  · exact hnew ho

theorem pushExn (h : Closed s Live Good) {exn : ExceptionInst}
    (hnew : Live (.exn s.exceptions.length) → ∀ v ∈ exn.args, OkVal Good v) :
    Closed { s with exceptions := s.exceptions ++ [exn] } Live Good := by
  refine ⟨h.inst, h.table, h.global, h.object, fun e exn' he hl => ?_⟩
  rcases getElem?_append_one hl with hl | ⟨rfl, rfl⟩
  · exact h.exn e exn' he hl
  · exact hnew he

theorem pushTable (h : Closed s Live Good) {cell : Cell TableType TableInst}
    (hnew : Live (.table s.tables.length) → ∀ r ∈ cell.value.elements, OkRef Good r) :
    Closed { s with tables := s.tables ++ [cell] } Live Good := by
  refine ⟨h.inst, fun c cell' hc hl => ?_, h.global, h.object, h.exn⟩
  rcases getElem?_append_one hl with hl | ⟨rfl, rfl⟩
  · exact h.table c cell' hc hl
  · exact hnew hc

theorem pushGlobal (h : Closed s Live Good) {cell : Cell GlobalType Value}
    (hnew : Live (.global s.globals.length) → OkVal Good cell.value) :
    Closed { s with globals := s.globals ++ [cell] } Live Good := by
  refine ⟨h.inst, h.table, fun c cell' hc hl => ?_, h.object, h.exn⟩
  rcases getElem?_append_one hl with hl | ⟨rfl, rfl⟩
  · exact h.global c cell' hc hl
  · exact hnew hc

theorem pushInst (h : Closed s Live Good) {linked : Linked}
    (hnew : Live (.inst s.instances.length) → ∀ q ∈ linked.places, Good q) :
    Closed { s with instances := s.instances ++ [linked] } Live Good := by
  refine ⟨fun i linked' hi hl => ?_, h.table, h.global, h.object, h.exn⟩
  rcases getElem?_append_one hl with hl | ⟨rfl, rfl⟩
  · exact h.inst i linked' hi hl
  · exact hnew hi

theorem modifyTable (h : Closed s Live Good) {c : Nat} {f : TableInst → TableInst}
    (hnew : Live (.table c) → ∀ t, ∀ r ∈ (f t).elements, r ∈ t.elements ∨ OkRef Good r) :
    Closed { s with tables := s.tables.modify c (Cell.map f) } Live Good := by
  refine ⟨h.inst, fun c' cell hc hl => ?_, h.global, h.object, h.exn⟩
  obtain ⟨old, hold, ⟨-, rfl⟩ | ⟨rfl, rfl⟩⟩ := getElem?_modify_cases hl
  · exact h.table c' _ hc hold
  · intro r hr
    rcases hnew hc old.value r hr with hr | hr
    · exact h.table c' old hc hold r hr
    · exact hr

theorem modifyGlobal (h : Closed s Live Good) {c : Nat} {v : Value} (hnew : OkVal Good v) :
    Closed { s with globals := s.globals.modify c (Cell.map fun _ => v) } Live Good := by
  refine ⟨h.inst, h.table, fun c' cell hc hl => ?_, h.object, h.exn⟩
  obtain ⟨old, hold, ⟨-, rfl⟩ | ⟨rfl, rfl⟩⟩ := getElem?_modify_cases hl
  · exact h.global c' _ hc hold
  · exact hnew

theorem modifyObject (h : Closed s Live Good) {o index : Nat} {v : Value} (hnew : OkVal Good v) :
    Closed { s with objects := s.objects.modify o fun object =>
      { object with data := object.data.setCell index v } } Live Good := by
  refine ⟨h.inst, h.table, h.global, fun o' obj ho hl => ?_, h.exn⟩
  obtain ⟨old, hold, ⟨-, rfl⟩ | ⟨rfl, rfl⟩⟩ := getElem?_modify_cases hl
  · exact h.object o' _ ho hold
  · intro w hw
    have hcells : w ∈ old.data.cells.set index v := by
      revert hw
      cases old.data <;> exact id
    rcases List.mem_or_eq_of_mem_set hcells with hw | rfl
    · exact h.object o' old ho hold w hw
    · exact hnew

theorem modifyInst (h : Closed s Live Good) {i : Nat} {f : Linked → Linked}
    (hnew : Live (.inst i) → ∀ linked, ∀ q ∈ (f linked).places, q ∈ linked.places ∨ Good q) :
    Closed { s with instances := s.instances.modify i f } Live Good := by
  refine ⟨fun i' linked hi hl => ?_, h.table, h.global, h.object, h.exn⟩
  obtain ⟨old, hold, ⟨-, rfl⟩ | ⟨rfl, rfl⟩⟩ := getElem?_modify_cases hl
  · exact h.inst i' _ hi hold
  · intro q hq
    rcases hnew hi old q hq with hq | hq
    · exact h.inst i' old hi hold q hq
    · exact hq

end Closed

end Closed

/-! ## Running code -/

/-- The instance has the segments its code names. -/
def Linked.Covered (linked : Linked) : Prop :=
  Covers linked.module linked.elementSegments.length linked.dataSegments.length

/-- A set of places of a store that no step leaves, whose instances have their
segments. -/
structure Enclosed (s : Store) (Live : Place → Prop) : Prop where
  has : ∀ p, Live p → s.Has p
  closed : Closed s Live Live
  covered : ∀ (i : Nat) linked, Live (.inst i) → s.instances[i]? = some linked → linked.Covered

namespace Enclosed

variable {s : Store} {Live : Place → Prop}

theorem of_reach {known : Place → Prop} (h : Enclosed s Live) (hknown : ∀ p, known p → Live p)
    (hp : Host.Reach ⟨s, known⟩ p) : Live p := by
  obtain ⟨root, hroot, hpath⟩ := hp
  induction hpath with
  | refl => exact hknown root hroot
  | tail _ hstep ih => exact h.closed.targets ih hstep

theorem has_perform (h : s.Has p) : (s.perform effect).Has p := by
  cases effect <;> cases p <;> simp only [Store.Has, Store.perform, List.length_modify,
    List.length_append, List.length_cons, List.length_nil] at h ⊢ <;> omega

theorem has_creates (h : p ∈ effect.creates s) :
    (s.perform effect).Has p := by
  cases effect <;> simp only [Effect.creates, List.not_mem_nil, List.mem_singleton] at h <;>
    subst h <;> simp [Store.Has, Store.perform]

theorem not_has_creates (h : p ∈ effect.creates s) : ¬ s.Has p := by
  cases effect <;> simp only [Effect.creates, List.not_mem_nil, List.mem_singleton] at h <;>
    subst h <;> exact Nat.lt_irrefl _

theorem places_of_dropElement {linked : Linked} {index : Nat} {q : Place}
    (h : q ∈ { linked with elementSegments := linked.elementSegments.set index none }.places) :
    q ∈ linked.places := by
  simp only [Linked.places, List.mem_append] at h ⊢
  refine h.imp_right fun h => ?_
  rw [List.mem_flatMap] at h ⊢
  obtain ⟨segment, hsegment, hq⟩ := h
  rcases List.mem_or_eq_of_mem_set hsegment with hold | rfl
  · exact ⟨segment, hold, hq⟩
  · simp at hq

/-- Code that stores only values of the set, and what it creates, stay in the
set. -/
theorem perform (h : Enclosed s Live) (hvalues : ∀ v ∈ effect.values, OkVal Live v) :
    Enclosed (s.perform effect) fun p => Live p ∨ p ∈ effect.creates s := by
  have hwide : Closed s (fun p => Live p ∨ p ∈ effect.creates s) fun p => Live p ∨ p ∈ effect.creates s :=
    (h.closed.widen fun _ hp => hp.imp_right not_has_creates).mono (fun _ hp => hp) fun _ => .inl
  have hvalues' : ∀ v ∈ effect.values, OkVal (fun p => Live p ∨ p ∈ effect.creates s) v :=
    fun v hv q hq => .inl (hvalues v hv q hq)
  refine ⟨?_, ?_, ?_⟩
  · rintro p (hp | hp)
    · exact has_perform (h.has p hp)
    · exact has_creates hp
  · cases effect with
    | setElement cell index r =>
        refine hwide.modifyTable fun _ t r' hr' => ?_
        rcases List.mem_or_eq_of_mem_set hr' with hr' | rfl
        · exact .inl hr'
        · exact .inr (hvalues' (.ref r') List.mem_cons_self)
    | growTable cell count r =>
        refine hwide.modifyTable fun _ t r' hr' => ?_
        rcases List.mem_append.mp hr' with hr' | hr'
        · exact .inl hr'
        · rw [List.eq_of_mem_replicate hr']
          exact .inr (hvalues' (.ref r) List.mem_cons_self)
    | setGlobal cell v => exact hwide.modifyGlobal (hvalues' v List.mem_cons_self)
    | setMemory cell f => exact hwide.of_same rfl rfl rfl rfl rfl
    | alloc object => exact hwide.pushObject fun _ => hvalues'
    | setField object index v => exact hwide.modifyObject (hvalues' v List.mem_cons_self)
    | throw exn => exact hwide.pushExn fun _ => hvalues'
    | dropElement inst index =>
        exact hwide.modifyInst fun _ linked q hq => .inl (places_of_dropElement hq)
    | dropData inst index => exact hwide.modifyInst fun _ linked q hq => .inl hq
  · intro i linked hi hl
    have hi' : Live (.inst i) := by
      rcases hi with hi | hi
      · exact hi
      · cases effect <;> simp [Effect.creates] at hi
    cases effect with
    | dropElement inst index =>
        obtain ⟨old, hold, ⟨-, rfl⟩ | ⟨-, rfl⟩⟩ := Closed.getElem?_modify_cases hl
        · exact h.covered i _ hi' hold
        · simpa [Linked.Covered] using h.covered i old hi' hold
    | dropData inst index =>
        obtain ⟨old, hold, ⟨-, rfl⟩ | ⟨-, rfl⟩⟩ := Closed.getElem?_modify_cases hl
        · exact h.covered i _ hi' hold
        · simpa [Linked.Covered] using h.covered i old hi' hold
    | _ => exact h.covered i linked hi' hl

end Enclosed

section Hosts

variable {s : Store} {Live : Place → Prop}

theorem Enclosed.global (h : Enclosed s Live) (ty : GlobalType) {value : Value} (hvalue : OkVal Live value) :
    Enclosed (s.global ty value) fun p => Live p ∨ p = .global s.globals.length := by
  have hwide : Closed s (fun p => Live p ∨ p = .global s.globals.length) Live :=
    h.closed.widen fun p hp => hp.imp_right (by rintro rfl; exact Nat.lt_irrefl _)
  have hnew : Closed { s with globals := s.globals ++ [⟨ty, value⟩] }
      (fun p => Live p ∨ p = .global s.globals.length) Live := hwide.pushGlobal fun _ => hvalue
  refine ⟨?_, ?_, ?_⟩
  · rintro p (hp | rfl)
    · have hhas := h.has p hp
      cases p <;> simp only [Store.Has, Store.global, List.length_append] at hhas ⊢ <;> omega
    · simp [Store.Has, Store.global]
  · exact (hnew.mono (fun _ hp => hp) fun _ => .inl).of_same rfl rfl rfl rfl rfl
  · exact fun i linked hi hl => h.covered i linked (hi.resolve_right nofun) hl

theorem Enclosed.table (h : Enclosed s Live) (ty : TableType) {init : RefValue} (hinit : OkRef Live init) :
    Enclosed (s.table ty init) fun p =>
      Live p ∨ p = .table s.tables.length ∧ (s.table ty init).Has p := by
  unfold Store.table
  cases hnew : TableInst.new ty.limits.min ty.limits.max init with
  | error e =>
      have hsame : ∀ p, Live p ∨ p = .table s.tables.length ∧ s.Has p → Live p := by
        rintro p (hp | ⟨rfl, hp⟩)
        · exact hp
        · exact absurd hp (Nat.lt_irrefl _)
      exact ⟨fun p hp => h.has p (hsame p hp), h.closed.mono hsame fun _ => .inl,
        fun i linked hi hl => h.covered i linked (hsame _ hi) hl⟩
  | ok table =>
      have hitems : ∀ r ∈ table.elements, OkRef Live r := by
        unfold TableInst.new at hnew
        split at hnew
        · cases hnew
        · cases hnew
          intro r hr
          rw [List.eq_of_mem_replicate hr]
          exact hinit
      have hwide : Closed s (fun p => Live p ∨ p = .table s.tables.length) Live :=
        h.closed.widen fun p hp => hp.imp_right (by rintro rfl; exact Nat.lt_irrefl _)
      have hnew : Closed { s with tables := s.tables ++ [⟨ty, table⟩] }
          (fun p => Live p ∨ p = .table s.tables.length) Live := hwide.pushTable fun _ => hitems
      refine ⟨?_, ?_, ?_⟩
      · rintro p (hp | ⟨-, hp⟩)
        · have hhas := h.has p hp
          cases p <;> simp only [Store.Has, List.length_append] at hhas ⊢ <;> omega
        · exact hp
      · exact (hnew.mono (fun _ hp => hp.imp_right And.left) fun _ => .inl).of_same rfl rfl rfl rfl rfl
      · exact fun i linked hi hl => h.covered i linked (hi.resolve_right fun hp => nomatch hp.1) hl

/-- What is not looked at may change. -/
theorem Enclosed.of_same {s' : Store} (h : Enclosed s Live) (hinsts : s'.instances = s.instances)
    (htables : s'.tables = s.tables) (hglobals : s'.globals = s.globals)
    (hobjects : s'.objects = s.objects) (hexns : s'.exceptions = s.exceptions) : Enclosed s' Live := by
  refine ⟨fun p hp => ?_, h.closed.of_same hinsts htables hglobals hobjects hexns, ?_⟩
  · have hhas := h.has p hp
    cases p <;> simp only [Store.Has] at hhas ⊢
    · rwa [hinsts]
    · rwa [htables]
    · rwa [hglobals]
    · rwa [hobjects]
    · rwa [hexns]
  · rw [hinsts]
    exact h.covered

end Hosts

/-- Some such set holds all that a host knows. -/
def Host.Confined (h : Host) : Prop :=
  ∃ Live, (∀ p, h.known p → Live p) ∧ Enclosed h.store Live

namespace Host

variable {h : Host}

theorem Confined.perform (hconf : h.Confined) (hvalues : ∀ v ∈ effect.values, h.Holds v) :
    (h.perform effect).Confined := by
  obtain ⟨Live, hknown, hlive⟩ := hconf
  refine ⟨fun p => Live p ∨ p ∈ effect.creates h.store, ?_, ?_⟩
  · exact fun p hp => hp.imp_left (hlive.of_reach hknown)
  · exact hlive.perform fun v hv p hp => hlive.of_reach hknown (hvalues v hv p hp)

theorem Confined.run (hconf : h.Confined) {effects : List Effect} (hmoves : h.Moves effects) :
    (h.run effects).Confined := by
  induction effects generalizing h with
  | nil => exact hconf
  | cons effect effects ih => exact ih (hconf.perform hmoves.1) hmoves.2

end Host

end Slag.Wasm.Linking
