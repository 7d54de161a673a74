import Slag.Wasm.FuncChecks
import Slag.Wasm.Linking

/-!
The checks of imported globals, tables and tags, against the types of the
exporting and the importing module.
-/

namespace Slag.Wasm.Linking

open Relation
open Slag.Answer (Tells tells_true tells_false not_tells_none)
open World (ExternVal InstantiateError)

/-! ## Matching across modules -/

/-- A heap type of one module below a heap type of another. -/
inductive HeapAcross (ex im : Module) : HeapType → HeapType → Prop where
  | abs {h k : HeapType} (hh : h.refs = []) (hk : k.refs = []) (hsub : absSub h k = true) :
      HeapAcross ex im h k
  | types {s t x : Nat} (hx : ReflTransGen (Declares ex) s x) (hsame : Same im ex t x) :
      HeapAcross ex im (.type s) (.type t)
  | kind {s : Nat} {st : SubType} {k : HeapType} (hst : ex.types[s]? = some st)
      (hsub : absSub st.composite.kind k = true) : HeapAcross ex im (.type s) k
  | noFunc {t : Nat} {st : SubType} (hst : im.types[t]? = some st)
      (hkind : st.composite.kind = .func) : HeapAcross ex im .noFunc (.type t)
  | none {t : Nat} {st : SubType} (hst : im.types[t]? = some st)
      (hkind : st.composite.kind ≠ .func) : HeapAcross ex im .none (.type t)

/-- A value type of the exporter below one of the importer. -/
inductive ValAcross (ex im : Module) : ValType → ValType → Prop where
  | refl {a : ValType} (ha : ∀ r, a ≠ .ref r) : ValAcross ex im a a
  | ref {a b : RefType} (hnull : a.nullable = true → b.nullable = true)
      (hheap : HeapAcross ex im a.heap b.heap) : ValAcross ex im (.ref a) (.ref b)

/-- The type of an object of the exporter matches an import: the same types for
mutable globals, elements of tables and tags, a subtype for other globals. -/
inductive Matches (ex im : Module) : ImportDesc → ImportDesc → Prop where
  | mutable {actual requested : ValType} (h : requested.Lift (Same im ex) actual) :
      Matches ex im (.global ⟨actual, true⟩) (.global ⟨requested, true⟩)
  | immutable {actual requested : ValType} (h : ValAcross ex im actual requested) :
      Matches ex im (.global ⟨actual, false⟩) (.global ⟨requested, false⟩)
  | table {actual requested : TableType} (hwide : actual.table64 = requested.table64)
      (helement : requested.element.Lift (Same im ex) actual.element)
      (hlimits : limitsMatch actual.limits requested.limits = true) :
      Matches ex im (.table actual) (.table requested)
  | tag {actual requested : Nat} (h : Same im ex requested actual) :
      Matches ex im (.tag actual) (.tag requested)

/-! ## Where the checks agree -/

/-- Concrete types are the same exactly when their indices are. -/
def HeapNumbered (ex im : Module) : HeapType → HeapType → Prop
  | .type t, .type s => t = s ↔ Same im ex t s
  | _, _ => True

def ValNumbered (ex im : Module) : ValType → ValType → Prop
  | .ref requested, .ref actual =>
      requested.nullable = actual.nullable → HeapNumbered ex im requested.heap actual.heap
  | _, _ => True

/-- Concrete types are subtypes exactly when their indices are equal, a concrete
type against `func` is a function type, and no other two heap types are
subtypes, equal ones apart. -/
def HeapKnown (ex im : Module) (identical : Prop) : HeapType → HeapType → Prop
  | .type t, .type s => t = s ↔ ∃ x, ReflTransGen (Declares ex) s x ∧ Same im ex t x
  | .func, .type s => unfoldsTo ex s .func = true
  | k, .type s => ∀ st, ex.types[s]? = some st → absSub st.composite.kind k = false
  | .type t, h => (h = .noFunc → unfoldsTo im t .func = false) ∧ (h = .none → aggregate im t = false)
  | k, h => if k = h then identical ∨ k ∈ [.func, .external, .exn] else absSub h k = false

def ValKnown (ex im : Module) : ValType → ValType → Prop
  | .ref requested, .ref actual => (actual.nullable = true → requested.nullable = true) →
      HeapKnown ex im (requested.nullable = actual.nullable) requested.heap actual.heap
  | _, _ => True

/-- The types a check of an import decides rightly. -/
def Decided (ex im : Module) : ImportDesc → ImportDesc → Prop
  | .global actual, .global requested => actual.mutable = requested.mutable →
      if requested.mutable then ValNumbered ex im requested.value actual.value
      else ValKnown ex im requested.value actual.value
  | .table actual, .table requested => actual.table64 = requested.table64 →
      limitsMatch actual.limits requested.limits = true →
      ValNumbered ex im (.ref requested.element) (.ref actual.element)
  | .tag actual, .tag requested =>
      (im.funcAt requested).isSome → Answered im ex requested actual
  | _, _ => True

/-! ## Value types -/

section Types

variable {ex im : Module}

theorem heap_eq_iff_same_iff {requested actual : HeapType} :
    (requested = actual ↔ requested.Lift (Same im ex) actual) ↔ HeapNumbered ex im requested actual := by
  cases requested with
  | type t =>
      cases actual with
      | type s => simp only [HeapType.type.injEq, HeapType.Lift, HeapNumbered]
      | _ => simp [HeapType.Lift, HeapNumbered]
  | _ => simp [HeapType.Lift, HeapNumbered]

theorem val_eq_iff_same_iff {requested actual : ValType} :
    (requested = actual ↔ requested.Lift (Same im ex) actual) ↔ ValNumbered ex im requested actual := by
  cases requested with
  | ref r =>
      cases actual with
      | ref a =>
          obtain ⟨n, h⟩ := r
          obtain ⟨n', h'⟩ := a
          simp only [ValType.ref.injEq, RefType.mk.injEq, ValType.Lift, RefType.Lift, ValNumbered,
            ← heap_eq_iff_same_iff]
          constructor
          · intro hiff hn
            simpa [hn] using hiff
          · intro hiff
            exact and_congr_right hiff
      | _ => simp [ValType.Lift, ValNumbered]
  | _ => simp [ValType.Lift, ValNumbered]

/-- The heap types that `matchesRef` accepts. -/
def acceptsHeap : HeapType → HeapType → Bool
  | .func, .func | .external, .external | .exn, .exn => true
  | .type x, .type y => x == y
  | .func, .type _ => true
  | _, _ => false

theorem matchesVal_iff {requested actual : RefType}
    (hnull : actual.nullable = true → requested.nullable = true) :
    matchesVal (.ref requested) (.ref actual) = true ↔
      (requested.nullable = actual.nullable ∧ requested.heap = actual.heap) ∨
        acceptsHeap requested.heap actual.heap = true := by
  obtain ⟨n, h⟩ := requested
  obtain ⟨n', h'⟩ := actual
  have href : matchesRef ⟨n, h⟩ ⟨n', h'⟩ = acceptsHeap h h' := by
    unfold matchesRef
    rw [if_neg (by cases n <;> cases n' <;> simp_all)]
    rfl
  simp only [matchesVal, href, Bool.or_eq_true, decide_eq_true_eq, ValType.ref.injEq,
    RefType.mk.injEq]

theorem matchesVal_of_null {requested actual : RefType}
    (hnull : ¬ (actual.nullable = true → requested.nullable = true)) :
    matchesVal (.ref requested) (.ref actual) = false := by
  obtain ⟨n, h⟩ := requested
  obtain ⟨n', h'⟩ := actual
  cases n <;> cases n' <;> simp_all [matchesVal, matchesRef]

variable {h k : HeapType} {t : Nat} {identical : Prop}

theorem acceptsHeap_abs (hk : k.refs = []) (hh : h.refs = []) :
    acceptsHeap k h = true ↔ k = h ∧ k ∈ [.func, .external, .exn] := by
  cases k <;> cases h <;> simp_all [acceptsHeap, HeapType.refs]

theorem acceptsHeap_type {s : Nat} (hk : k.refs = []) :
    acceptsHeap k (.type s) = true ↔ k = .func := by
  cases k <;> simp_all [acceptsHeap, HeapType.refs]

theorem type_acceptsHeap (hh : h.refs = []) :
    acceptsHeap (.type t) h = false := by
  cases h <;> simp_all [acceptsHeap, HeapType.refs]

theorem heapAcross_abs_iff (hh : h.refs = []) (hk : k.refs = []) :
    HeapAcross ex im h k ↔ absSub h k = true := by
  constructor
  · intro hacross
    cases hacross with
    | abs _ _ hsub => exact hsub
    | types => cases hh
    | kind => cases hh
    | noFunc => cases hk
    | none => cases hk
  · exact .abs hh hk

theorem heapAcross_types_iff {s t : Nat} : HeapAcross ex im (.type s) (.type t) ↔
    ∃ x, ReflTransGen (Declares ex) s x ∧ Same im ex t x := by
  constructor
  · intro hacross
    cases hacross with
    | abs hh => cases hh
    | types hx hsame => exact ⟨_, hx, hsame⟩
    | @kind s st k hst hsub =>
        have hkind := absSub_type hsub
        rcases st.composite.kind_cases with h | h | h <;> rw [h] at hkind <;> cases hkind
  · rintro ⟨x, hx, hsame⟩
    exact .types hx hsame

theorem heapAcross_kind_iff {s : Nat} (hk : k.refs = []) :
    HeapAcross ex im (.type s) k ↔
      ∃ st, ex.types[s]? = some st ∧ absSub st.composite.kind k = true := by
  constructor
  · intro hacross
    cases hacross with
    | abs hh => cases hh
    | types => cases hk
    | kind hst hsub => exact ⟨_, hst, hsub⟩
  · rintro ⟨st, hst, hsub⟩
    exact .kind hst hsub

theorem unfoldsTo_iff {m : Module} :
    unfoldsTo m t k = true ↔ ∃ st, m.types[t]? = some st ∧ st.composite.kind = k := by
  unfold unfoldsTo
  cases m.types[t]? <;> simp

theorem aggregate_iff {m : Module} :
    aggregate m t = true ↔ ∃ st, m.types[t]? = some st ∧ st.composite.kind ≠ .func := by
  unfold aggregate
  rw [Bool.or_eq_true, unfoldsTo_iff, unfoldsTo_iff]
  constructor
  · rintro (⟨st, hst, hkind⟩ | ⟨st, hst, hkind⟩) <;> exact ⟨st, hst, by rw [hkind]; nofun⟩
  · rintro ⟨st, hst, hkind⟩
    rcases st.composite.kind_cases with h | h | h
    · exact absurd h hkind
    · exact .inl ⟨st, hst, h⟩
    · exact .inr ⟨st, hst, h⟩

theorem heapAcross_bottom_iff (hh : h.refs = []) :
    HeapAcross ex im h (.type t) ↔
      (h = .noFunc ∧ unfoldsTo im t .func = true) ∨ (h = .none ∧ aggregate im t = true) := by
  rw [unfoldsTo_iff, aggregate_iff]
  constructor
  · intro hacross
    cases hacross with
    | abs _ hk => cases hk
    | types => cases hh
    | kind => cases hh
    | noFunc hst hkind => exact .inl ⟨rfl, _, hst, hkind⟩
    | none hst hkind => exact .inr ⟨rfl, _, hst, hkind⟩
  · rintro (⟨rfl, st, hst, hkind⟩ | ⟨rfl, st, hst, hkind⟩)
    · exact .noFunc hst hkind
    · exact .none hst hkind

/-- An abstract heap type is asked for. -/
theorem heapKnown_abs_iff (hk : k.refs = []) (hh : h.refs = []) :
    HeapKnown ex im identical k h ↔
      if k = h then identical ∨ k ∈ [.func, .external, .exn] else absSub h k = false := by
  cases k with
  | type => cases hk
  | _ =>
      cases h with
      | type => cases hh
      | _ => rfl

theorem heapKnown_kind_iff {s : Nat} (hk : k.refs = []) :
    HeapKnown ex im identical k (.type s) ↔
      (k = .func ↔ ∃ st, ex.types[s]? = some st ∧ absSub st.composite.kind k = true) := by
  cases k with
  | type => cases hk
  | func =>
      simp only [HeapKnown, unfoldsTo_iff, true_iff]
      refine exists_congr fun st => and_congr_right fun _ => ?_
      rcases st.composite.kind_cases with h | h | h <;> simp [h, absSub]
  | _ => simp [HeapKnown]

theorem heapKnown_bottom_iff (hh : h.refs = []) :
    HeapKnown ex im identical (.type t) h ↔
      (h = .noFunc → unfoldsTo im t .func = false) ∧ (h = .none → aggregate im t = false) := by
  cases h with
  | type => cases hh
  | _ => rfl

theorem abstract_or_type (h : HeapType) : h.refs = [] ∨ ∃ t, h = .type t := by
  cases h with
  | type t => exact .inr ⟨t, rfl⟩
  | _ => exact .inl rfl

theorem heap_known_iff {requested actual : HeapType} :
    ((identical ∧ requested = actual) ∨ acceptsHeap requested actual = true ↔
      HeapAcross ex im actual requested) ↔ HeapKnown ex im identical requested actual := by
  rcases abstract_or_type requested with hk | ⟨t, rfl⟩
  · rcases abstract_or_type actual with hh | ⟨s, rfl⟩
    · rw [acceptsHeap_abs hk hh, heapAcross_abs_iff hh hk, heapKnown_abs_iff hk hh]
      split
      · next heq =>
          subst heq
          simp [absSub_refl]
      · next hne => simp [hne]
    · rw [acceptsHeap_type hk, heapAcross_kind_iff hk, heapKnown_kind_iff hk]
      have hne : requested ≠ .type s := by
        rintro rfl
        cases hk
      simp [hne]
  · rcases abstract_or_type actual with hh | ⟨s, rfl⟩
    · rw [type_acceptsHeap hh, heapAcross_bottom_iff hh, heapKnown_bottom_iff hh]
      have hne : HeapType.type t ≠ actual := by
        rintro rfl
        cases hh
      simp [hne, not_or]
    · have hcode : (identical ∧ HeapType.type t = .type s) ∨ acceptsHeap (.type t) (.type s) = true ↔
          t = s := by
        simp only [acceptsHeap, HeapType.type.injEq, beq_iff_eq]
        exact ⟨fun h => h.elim And.right id, .inr⟩
      rw [heapAcross_types_iff, hcode]
      rfl

theorem val_known_iff {requested actual : ValType} :
    (matchesVal requested actual = true ↔ ValAcross ex im actual requested) ↔
      ValKnown ex im requested actual := by
  have hplain : ∀ {a b : ValType}, (∀ r, a ≠ .ref r) ∨ (∀ r, b ≠ .ref r) →
      (matchesVal a b = true ↔ ValAcross ex im b a) := by
    intro a b hplain
    have hcode : matchesVal a b = true ↔ a = b := by
      cases a <;> cases b <;> simp_all [matchesVal]
    rw [hcode]
    constructor
    · rintro rfl
      exact .refl (hplain.elim id id)
    · intro hacross
      cases hacross with
      | refl => rfl
      | ref => simp at hplain
  cases requested with
  | ref requested =>
      cases actual with
      | ref actual =>
          by_cases hnull : actual.nullable = true → requested.nullable = true
          · have hval : ValAcross ex im (.ref actual) (.ref requested) ↔
                HeapAcross ex im actual.heap requested.heap := by
              constructor
              · intro hacross
                cases hacross with
                | refl ha => exact absurd rfl (ha _)
                | ref _ hheap => exact hheap
              · exact .ref hnull
            rw [matchesVal_iff hnull, hval, heap_known_iff]
            exact ⟨fun h _ => h, fun h => h hnull⟩
          · refine ⟨fun _ h => absurd h hnull, fun _ => ?_⟩
            rw [matchesVal_of_null hnull]
            refine ⟨nofun, fun hacross => ?_⟩
            cases hacross with
            | refl ha => exact absurd rfl (ha _)
            | ref h => exact absurd h hnull
      | _ => exact ⟨fun _ => trivial, fun _ => hplain (.inr nofun)⟩
  | _ => exact ⟨fun _ => trivial, fun _ => hplain (.inl nofun)⟩

end Types

/-! ## Imports -/

section Imports

/-- An object of a store that a module declares, with its type there. -/
inductive Exports (s : Store) (ex : Module) : ExternVal → ImportDesc → Prop where
  | global {cell : Nat} {decl : GlobalDecl} (hdecl : decl ∈ ex.globals)
      (hty : s.globalTypes[cell]? = some decl.ty) : Exports s ex (.global cell) (.global decl.ty)
  | table {cell : Nat} {decl : TableDecl} {ty : TableType} (hdecl : decl ∈ ex.tables)
      (hty : s.tableTypeOf cell = some ty) (helement : ty.element = decl.ty.element) :
      Exports s ex (.table cell) (.table ty)
  | tag {cell inst typeIndex : Nat} {ty : FuncType} {owner : Linked}
      (hty : s.tags[cell]? = some ⟨ty, some (inst, typeIndex)⟩)
      (howner : s.instances[inst]? = some owner) (hmodule : owner.module = ex)
      (hfunc : ex.funcAt typeIndex = some ty) : Exports s ex (.tag cell) (.tag typeIndex)

/-- An import of the type is given the object. -/
def Links.Accepts (s : Store) (im : Module) (v : ExternVal) (requested : ImportDesc) : Prop :=
  ∃ links, linkImport s im {} (some v) requested = .ok links

variable {s : Store} {ex im : Module}

/-- An import of the type is refused the object. -/
def Links.Refuses (s : Store) (im : Module) (v : ExternVal) (requested : ImportDesc) : Prop :=
  ∃ message, linkImport s im {} (some v) requested = .error (.unlinkable message)

/-- An import is given the objects of a matching type, and refused all others. -/
def Links.Checks (s : Store) (ex im : Module) (v : ExternVal) (actual requested : ImportDesc) : Prop :=
  (Matches ex im actual requested ∧ Links.Accepts s im v requested) ∨
    (¬ Matches ex im actual requested ∧ Links.Refuses s im v requested)

variable {v : ExternVal}

theorem checks_of_refused {actual requested : ImportDesc} {message : String}
    (hlink : linkImport s im {} (some v) requested = .error (.unlinkable message)) :
    Links.Checks s ex im v actual requested ↔ ¬ Matches ex im actual requested := by
  constructor
  · rintro (⟨-, links, h⟩ | ⟨h, -⟩)
    · cases hlink.symm.trans h
    · exact h
  · exact fun h => .inr ⟨h, message, hlink⟩

theorem checks_of_accepted {actual requested : ImportDesc} {links : Links}
    (hlink : linkImport s im {} (some v) requested = .ok links) :
    Links.Checks s ex im v actual requested ↔ Matches ex im actual requested := by
  constructor
  · rintro (⟨h, -⟩ | ⟨-, message, h⟩)
    · exact h
    · cases hlink.symm.trans h
  · exact fun h => .inl ⟨h, links, hlink⟩

theorem checks_global {cell : Nat} {actual requested : GlobalType}
    (h : s.globalTypes[cell]? = some actual) :
    Links.Checks s ex im (.global cell) (.global actual) (.global requested) ↔
      (globalMatches actual requested = true ↔ Matches ex im (.global actual) (.global requested)) := by
  cases hmatch : globalMatches actual requested with
  | true =>
      rw [checks_of_accepted (by simp only [linkImport, linkGlobal, h, hmatch]; rfl)]
      simp only [true_iff]
  | false =>
      rw [checks_of_refused (by simp only [linkImport, linkGlobal, h, hmatch]; rfl)]
      simp only [Bool.false_eq_true, false_iff]

theorem checks_table {cell : Nat} {actual requested : TableType}
    (h : s.tableTypeOf cell = some actual) :
    Links.Checks s ex im (.table cell) (.table actual) (.table requested) ↔
      (tableMatches actual requested = true ↔ Matches ex im (.table actual) (.table requested)) := by
  cases hmatch : tableMatches actual requested with
  | true =>
      rw [checks_of_accepted (by simp only [linkImport, linkTable, h, Option.any_some, hmatch]; rfl)]
      simp only [true_iff]
  | false =>
      rw [checks_of_refused (by simp only [linkImport, linkTable, h, Option.any_some, hmatch]; rfl)]
      simp only [Bool.false_eq_true, false_iff]

theorem checks_tag {cell inst actual requested : Nat} {ty expected : FuncType} {owner : Linked}
    (hty : s.tags[cell]? = some ⟨ty, some (inst, actual)⟩) (howner : s.instances[inst]? = some owner)
    (hfunc : im.funcAt requested = some expected) :
    Links.Checks s ex im (.tag cell) (.tag actual) (.tag requested) ↔
      Tells (typeIndicesEquivalent im requested owner.module actual)
        (Matches ex im (.tag actual) (.tag requested)) := by
  have hworld : s.world.tags[cell]? = some ⟨ty, some (inst, actual)⟩ := hty
  have hinst : s.world.instances[inst]? = some owner.toInstance := by
    rw [Store.world, List.getElem?_map, howner]
    rfl
  have hlink : linkImport s im {} (some (.tag cell)) (.tag requested) =
      World.checked (typeIndicesEquivalent im requested owner.module actual) cell >>= fun cell =>
        .ok { tags := [] ++ [cell] } := by
    simp only [linkImport, World.linkTag, hfunc, World.tagMatches, hworld, hinst]
    rfl
  rcases hanswer : typeIndicesEquivalent im requested owner.module actual with _ | _ | _
  · rw [hanswer] at hlink
    refine iff_of_false ?_ not_tells_none
    rintro (⟨-, links, h⟩ | ⟨-, message, h⟩) <;> cases hlink.symm.trans h
  · rw [hanswer] at hlink
    rw [checks_of_refused hlink, tells_false]
  · rw [hanswer] at hlink
    rw [checks_of_accepted hlink, tells_true]

theorem matches_global_iff {actual requested : GlobalType} :
    Matches ex im (.global actual) (.global requested) ↔ actual.mutable = requested.mutable ∧
      if requested.mutable then requested.value.Lift (Same im ex) actual.value
      else ValAcross ex im actual.value requested.value := by
  obtain ⟨value, mutable⟩ := actual
  obtain ⟨value', mutable'⟩ := requested
  constructor
  · intro h
    cases h with
    | mutable h => exact ⟨rfl, h⟩
    | immutable h => exact ⟨rfl, h⟩
  · rintro ⟨rfl, h⟩
    cases mutable with
    | true => exact .mutable h
    | false => exact .immutable h

theorem global_decided_iff {actual requested : GlobalType} :
    (globalMatches actual requested = true ↔ Matches ex im (.global actual) (.global requested)) ↔
      Decided ex im (.global actual) (.global requested) := by
  rw [matches_global_iff]
  simp only [Decided, globalMatches, Bool.and_eq_true, beq_iff_eq]
  by_cases hmut : actual.mutable = requested.mutable
  · simp only [hmut, true_and, true_implies]
    cases requested.mutable with
    | true => simpa using val_eq_iff_same_iff
    | false => simpa using val_known_iff
  · simp [hmut]

theorem table_decided_iff {actual requested : TableType} :
    (tableMatches actual requested = true ↔ Matches ex im (.table actual) (.table requested)) ↔
      Decided ex im (.table actual) (.table requested) := by
  have hmatch : Matches ex im (.table actual) (.table requested) ↔
      actual.table64 = requested.table64 ∧ limitsMatch actual.limits requested.limits = true ∧
        requested.element.Lift (Same im ex) actual.element := by
    constructor
    · intro h
      cases h with
      | table hwide helement hlimits => exact ⟨hwide, hlimits, helement⟩
    · rintro ⟨hwide, hlimits, helement⟩
      exact .table hwide helement hlimits
  have hcode : tableMatches actual requested = true ↔
      actual.table64 = requested.table64 ∧ limitsMatch actual.limits requested.limits = true ∧
        requested.element = actual.element := by
    simp only [tableMatches, Bool.and_eq_true, beq_iff_eq, decide_eq_true_eq, and_assoc,
      eq_comm (a := requested.element)]
    exact and_congr_right fun _ => and_comm
  have helement : (ValType.ref requested.element = .ref actual.element ↔
      (ValType.ref requested.element).Lift (Same im ex) (.ref actual.element)) ↔
        ValNumbered ex im (.ref requested.element) (.ref actual.element) := val_eq_iff_same_iff
  simp only [ValType.ref.injEq, ValType.Lift] at helement
  rw [hmatch, hcode]
  simp only [Decided, ← helement]
  constructor
  · intro h hwide hlimits
    simpa [hwide, hlimits] using h
  · intro h
    refine and_congr_right fun hwide => and_congr_right fun hlimits => h hwide hlimits

theorem funcAt_of_same (hex : Scoped ex) (him : Scoped im) {actual requested : Nat} {ty : FuncType}
    (hfunc : ex.funcAt actual = some ty) (h : Same im ex requested actual) :
    (im.funcAt requested).isSome := by
  obtain ⟨subA, subB, hA, hB, -, -, hcomposite⟩ := h.member him hex
  obtain ⟨isFinal, sups, composite⟩ := subA
  unfold Module.funcAt at hfunc ⊢
  rw [hB] at hfunc
  rw [hA]
  cases composite with
  | func => rfl
  | struct fields =>
      obtain ⟨_, _, composite⟩ := subB
      cases composite <;> cases hcomposite
      cases hfunc
  | array field =>
      obtain ⟨_, _, composite⟩ := subB
      cases composite <;> cases hcomposite
      cases hfunc

theorem matches_tag_iff {actual requested : Nat} :
    Matches ex im (.tag actual) (.tag requested) ↔ Same im ex requested actual := by
  constructor
  · intro h
    cases h with
    | tag h => exact h
  · exact .tag

/-- Two globals, tables or tags. -/
def SameKind : ImportDesc → ImportDesc → Prop
  | .global _, .global _ | .table _, .table _ | .tag _, .tag _ => True
  | _, _ => False

theorem Matches.sameKind {actual requested : ImportDesc} (h : Matches ex im actual requested) :
    SameKind actual requested := by
  cases h <;> exact trivial

/-- An object is refused for an import of another kind. -/
theorem Exports.refused {actual requested : ImportDesc} (hobject : Exports s ex v actual)
    (hkind : ¬ SameKind actual requested) : Links.Refuses s im v requested := by
  cases hobject with
  | global | table =>
      cases requested with
      | global | table => first | exact absurd trivial hkind | exact ⟨_, rfl⟩
      | tag requested =>
          simp only [Links.Refuses, linkImport, World.linkTag]
          cases im.funcAt requested <;> exact ⟨_, rfl⟩
      | _ => exact ⟨_, rfl⟩
  | tag =>
      cases requested with
      | tag => exact absurd trivial hkind
      | _ => exact ⟨_, rfl⟩

theorem decided_of_kind {actual requested : ImportDesc} (hkind : ¬ SameKind actual requested) :
    Decided ex im actual requested := by
  cases actual <;> cases requested <;> first | exact trivial | exact absurd trivial hkind

theorem checks_tag_iff (hex : Scoped ex) (him : Scoped im) {cell inst actual requested : Nat}
    {ty : FuncType} {owner : Linked} (hty : s.tags[cell]? = some ⟨ty, some (inst, actual)⟩)
    (howner : s.instances[inst]? = some owner) (hmodule : owner.module = ex)
    (hfunc : ex.funcAt actual = some ty) :
    Links.Checks s ex im (.tag cell) (.tag actual) (.tag requested) ↔
      Decided ex im (.tag actual) (.tag requested) := by
  cases hrequested : im.funcAt requested with
  | some expected =>
      rw [checks_tag hty howner hrequested, hmodule, matches_tag_iff,
        typeIndicesEquivalent_tells him hex, Decided, hrequested]
      exact ⟨fun h _ => h, fun h => h rfl⟩
  | none =>
      have hlink : linkImport s im {} (some (.tag cell)) (.tag requested) =
          .error (.unlinkable "unknown import") := by
        simp only [linkImport, World.linkTag, hrequested]
        rfl
      rw [checks_of_refused hlink, matches_tag_iff]
      refine iff_of_true (fun hsame => ?_) fun hsome => ?_
      · have hsome := funcAt_of_same hex him hfunc hsame
        rw [hrequested] at hsome
        cases hsome
      · rw [hrequested] at hsome
        cases hsome

/-- An import is given the objects of a type that matches across the two modules
and refused all others, for the types the checks decide rightly and no others. -/
theorem importChecks_iff (s : Store) (ex im : Module) (hex : validate ex = .ok ())
    (him : validate im = .ok ()) (v : ExternVal) (actual requested : ImportDesc)
    (hobject : Exports s ex v actual) :
    Links.Checks s ex im v actual requested ↔ Decided ex im actual requested := by
  by_cases hkind : SameKind actual requested
  · cases hobject with
    | global _ hty =>
        cases requested with
        | global requested => rw [checks_global hty, global_decided_iff]
        | _ => cases hkind
    | table _ hty =>
        cases requested with
        | table requested => rw [checks_table hty, table_decided_iff]
        | _ => cases hkind
    | tag hty howner hmodule hfunc =>
        cases requested with
        | tag requested =>
            exact checks_tag_iff (accepted_of_validate hex).scoped (accepted_of_validate him).scoped
              hty howner hmodule hfunc
        | _ => cases hkind
  · obtain ⟨message, hlink⟩ := @Exports.refused s ex im v actual requested hobject hkind
    rw [checks_of_refused hlink]
    exact iff_of_true (fun h => hkind h.sameKind) (decided_of_kind hkind)

end Imports

/-- A mutable global of references to the first type. -/
def pointer : GlobalType :=
  ⟨.ref ⟨true, .type 0⟩, true⟩

/-- A function type and a global of references to it. -/
def pointers : Module where
  types := [⟨true, [], .func ⟨[], []⟩⟩]
  globals := [⟨pointer, [.refNull (.type 0)]⟩]

/-- The same type again, the global imported. -/
def twin : Module where
  types := [⟨true, [], .func ⟨[], []⟩⟩]
  imports := [.global pointer]

/-- The import by a module whose first type is a struct. -/
def structs : Module where
  types := [⟨true, [], .struct []⟩]
  imports := [.global pointer]

/-- The import by a module where the function type comes second. -/
def shifted : Module where
  types := [⟨true, [], .struct []⟩, ⟨true, [], .func ⟨[], []⟩⟩]
  imports := [.global ⟨.ref ⟨true, .type 1⟩, true⟩]

/-- The store with an instance of `pointers`. -/
def pointersStore : Store :=
  (instantiate .idle pointers (fun _ => none) .empty).2

theorem pointersStore_exports : Exports pointersStore pointers (.global 0) (.global pointer) :=
  @Exports.global pointersStore pointers 0 ⟨pointer, [.refNull (.type 0)]⟩ List.mem_cons_self rfl

theorem twin_accepted : validate pointers = .ok () ∧ validate twin = .ok () ∧
    Links.Accepts pointersStore twin (.global 0) (.global pointer) := by
  have hpointers : Scoped pointers := Accepted.scoped ⟨3, rfl⟩
  have htwin : Scoped twin := Accepted.scoped ⟨3, rfl⟩
  have hsame : Same twin pointers 0 0 := ((typeIndicesEquivalent_eq_true htwin hpointers).mp rfl).1
  have hdecided : Decided pointers twin (.global pointer) (.global pointer) :=
    fun _ _ => ⟨fun _ => hsame, fun _ => rfl⟩
  refine ⟨rfl, rfl, ?_⟩
  obtain ⟨-, haccepts⟩ | ⟨hno, -⟩ :=
    (importChecks_iff pointersStore pointers twin rfl rfl _ _ _ pointersStore_exports).mpr hdecided
  · exact haccepts
  · exact absurd (.mutable ⟨rfl, hsame⟩) hno

/-- Raw indices are compared: a global of function references is linked as one
of structs, and refused by a module that numbers the function type otherwise. -/
theorem pointers_misread : validate pointers = .ok () ∧ validate structs = .ok () ∧
    validate shifted = .ok () ∧ Exports pointersStore pointers (.global 0) (.global pointer) ∧
    (Links.Accepts pointersStore structs (.global 0) (.global pointer) ∧
      ¬ Matches pointers structs (.global pointer) (.global pointer)) ∧
    ¬ Links.Accepts pointersStore shifted (.global 0) (.global ⟨.ref ⟨true, .type 1⟩, true⟩) ∧
      Matches pointers shifted (.global pointer) (.global ⟨.ref ⟨true, .type 1⟩, true⟩) := by
  have hpointers : Scoped pointers := Accepted.scoped ⟨3, rfl⟩
  have hstructs : Scoped structs := Accepted.scoped ⟨3, rfl⟩
  have hshifted : Scoped shifted := Accepted.scoped ⟨5, rfl⟩
  refine ⟨rfl, rfl, rfl, pointersStore_exports, ⟨⟨_, rfl⟩, fun h => ?_⟩, fun ⟨_, h⟩ => (nomatch h), ?_⟩
  · cases h with
    | mutable h =>
        obtain ⟨subA, subB, hA, hB, -, -, hcomposite⟩ := h.2.member hstructs hpointers
        cases hA
        cases hB
        exact nomatch hcomposite
  · exact .mutable ⟨rfl, ((typeIndicesEquivalent_eq_true hshifted hpointers).mp rfl).1⟩

end Slag.Wasm.Linking
