import Mathlib.Algebra.BigOperators.Group.List.Basic
import Slag.Lib.Returns
import Slag.Wasm.TypeSection

/-!
Accepted type sections, and the comparison of rec groups as the equality of
groups after their own members are replaced by positions.
-/

namespace Slag.Wasm

open Slag.Answer

/-- The code accepts the section: every comparison it makes comes to an end. -/
def Accepted (m : Module) : Prop :=
  ∃ fuel, checkTypeSection fuel m = .ok ()

/-! ## References and rec groups -/

def HeapType.refs : HeapType → List Nat
  | .type index => [index]
  | _ => []

def ValType.refs : ValType → List Nat
  | .ref r => r.heap.refs
  | _ => []

def StorageType.refs : StorageType → List Nat
  | .ref r => r.heap.refs
  | _ => []

/-- The type indices a composite type mentions. -/
def CompositeType.refs : CompositeType → List Nat
  | .func ty => ty.params.flatMap ValType.refs ++ ty.results.flatMap ValType.refs
  | .struct fields => fields.flatMap fun field => field.ty.refs
  | .array field => field.ty.refs

/-- What the checks of a type section give. -/
structure Scoped (m : Module) : Prop where
  group : ∀ {i : Nat}, i < m.types.length → (m.groupOf i).1 ≤ i ∧ i < (m.groupOf i).1 + (m.groupOf i).2 ∧
    (m.groupOf i).1 + (m.groupOf i).2 ≤ m.types.length
  member : ∀ {i j : Nat}, i < m.types.length → (m.groupOf i).1 ≤ j →
    j < (m.groupOf i).1 + (m.groupOf i).2 → m.groupOf j = m.groupOf i
  beyond : ∀ {i : Nat}, m.types.length ≤ i → m.groupOf i = (i, 1)
  refs : ∀ {i : Nat} {st : SubType}, m.types[i]? = some st → ∀ x ∈ st.composite.refs,
    x < (m.groupOf i).1 + (m.groupOf i).2
  single : ∀ {i : Nat} {st : SubType}, m.types[i]? = some st → st.supertypes.length ≤ 1
  parent : ∀ {i : Nat} {st : SubType}, m.types[i]? = some st → ∀ p ∈ st.supertypes, p < i ∧
    ∃ pst, m.types[p]? = some pst ∧ pst.isFinal = false ∧ st.composite.kind = pst.composite.kind

variable {ends groups : List Nat} {st : SubType} {a b : Nat} {group : Nat × Nat}

theorem locate_spec {start index : Nat} (hlow : start ≤ index) (hhigh : index < start + groups.sum) :
    let g := recGroupOf.locate index groups start
    g.1 ≤ index ∧ index < g.1 + g.2 ∧ start ≤ g.1 ∧ g.1 + g.2 ≤ start + groups.sum ∧
      ∀ j, g.1 ≤ j → j < g.1 + g.2 → recGroupOf.locate j groups start = g := by
  induction groups generalizing start with
  | nil =>
      simp only [List.sum_nil] at hhigh
      omega
  | cons len rest ih =>
      simp only [List.sum_cons] at hhigh
      dsimp only
      rw [recGroupOf.locate]
      by_cases hin : start ≤ index ∧ index < start + len
      · rw [if_pos hin]
        refine ⟨hin.1, hin.2, Nat.le_refl _, by simp only [List.sum_cons]; omega, fun j hj hj' => ?_⟩
        rw [recGroupOf.locate, if_pos ⟨hj, hj'⟩]
      · rw [if_neg hin]
        obtain ⟨h1, h2, h3, h4, h5⟩ := @ih (start + len) (by omega) (by omega)
        refine ⟨h1, h2, by omega, by simp only [List.sum_cons]; omega, fun j hj hj' => ?_⟩
        rw [recGroupOf.locate, if_neg (by omega)]
        exact h5 j hj hj'

theorem locate_beyond {start index : Nat} (h : start + groups.sum ≤ index) :
    recGroupOf.locate index groups start = (index, 1) := by
  induction groups generalizing start with
  | nil => rfl
  | cons len rest ih =>
      simp only [List.sum_cons] at h
      rw [recGroupOf.locate, if_neg (by omega)]
      exact ih (by omega)

theorem groupEnds_spec {typeCount : Nat} {start : Nat} (h : groupEnds typeCount groups start = .ok ends) :
    start + groups.sum = typeCount ∧ ∀ index, start ≤ index → index < start + groups.sum →
      ends[index - start]? = some ((recGroupOf.locate index groups start).1 +
        (recGroupOf.locate index groups start).2) := by
  induction groups generalizing start ends with
  | nil =>
      rw [groupEnds] at h
      split at h
      · cases h
      · rename_i heq
        refine ⟨by simpa using heq, fun index hlow hhigh => ?_⟩
        simp only [List.sum_nil] at hhigh
        omega
  | cons len rest ih =>
      rw [groupEnds] at h
      split at h
      · cases h
      cases hrest : groupEnds typeCount rest (start + len) with
      | error e =>
          rw [hrest] at h
          cases h
      | ok tail =>
          rw [hrest] at h
          cases h
          obtain ⟨hsum, hends⟩ := ih hrest
          refine ⟨by simp only [List.sum_cons]; omega, fun index hlow hhigh => ?_⟩
          simp only [List.sum_cons] at hhigh
          rw [recGroupOf.locate]
          by_cases hin : start ≤ index ∧ index < start + len
          · rw [if_pos hin, List.getElem?_append_left (by simp only [List.length_replicate]; omega),
              List.getElem?_replicate_of_lt (by omega)]
          · rw [if_neg hin, List.getElem?_append_right (by simp only [List.length_replicate]; omega),
              List.length_replicate, ← hends index (by omega) (by omega)]
            congr 1
            omega

variable {bound fuel : Nat} {m ma mb : Module}

theorem checkValueTypes_refs {types : List ValType} (h : checkValueTypes types bound = .ok ()) :
    ∀ x ∈ types.flatMap ValType.refs, x < bound := by
  intro x hx
  obtain ⟨ty, hty, hmem⟩ := List.mem_flatMap.mp hx
  unfold checkValueTypes at h
  split at h
  · rename_i hall
    have hone := List.all_eq_true.mp hall ty hty
    match ty, hmem, hone with
    | .ref ⟨_, .type index⟩, hmem, hone =>
        obtain rfl := List.mem_singleton.mp hmem
        exact of_decide_eq_true hone
  · cases h

theorem checkStorageType_refs {storage : StorageType} (h : checkStorageType storage bound = .ok ()) :
    ∀ x ∈ storage.refs, x < bound := by
  intro x hmem
  match storage, hmem, h with
  | .ref ⟨_, .type index⟩, hmem, h =>
      obtain rfl := List.mem_singleton.mp hmem
      by_contra hx
      rw [checkStorageType, if_neg hx] at h
      cases h

theorem checkReferences_refs {composite : CompositeType} (h : checkReferences bound composite = .ok ()) :
    ∀ x ∈ composite.refs, x < bound := by
  cases composite with
  | func ty =>
      obtain ⟨hparams, hresults⟩ := bind_unit_eq_ok.mp h
      intro x hx
      rcases List.mem_append.mp hx with hx | hx
      · exact checkValueTypes_refs hparams x hx
      · exact checkValueTypes_refs hresults x hx
  | struct fields =>
      intro x hx
      obtain ⟨field, hfield, hmem⟩ := List.mem_flatMap.mp hx
      exact checkStorageType_refs (forM_eq_ok.mp h field hfield) x hmem
  | array field => exact checkStorageType_refs h

theorem comptypeMatches_kind {sub sup : CompositeType} (h : comptypeMatches fuel m sub sup = some true) :
    sub.kind = sup.kind := by
  cases sub <;> cases sup <;> first | rfl | cases h

theorem checkSupertype_spec {index : Nat} (h : checkSupertype fuel m index st = .ok ()) :
    st.supertypes.length ≤ 1 ∧ ∀ p ∈ st.supertypes, p < index ∧
      ∃ pst, m.types[p]? = some pst ∧ pst.isFinal = false ∧
        st.composite.kind = pst.composite.kind := by
  unfold checkSupertype at h
  split at h
  · cases h
  rename_i hlen
  refine ⟨Nat.le_of_not_lt hlen, fun p hp => ?_⟩
  have hhead : st.supertypes.head? = some p := by
    match hs : st.supertypes with
    | [q] =>
        rw [hs] at hp
        rw [List.mem_singleton.mp hp]
        rfl
    | [] =>
        rw [hs] at hp
        cases hp
    | _ :: _ :: _ =>
        rw [hs] at hlen
        simp at hlen
  simp only [hhead] at h
  split at h
  · cases h
  rename_i hless
  refine ⟨Nat.lt_of_not_le hless, ?_⟩
  cases hparent : m.types[p]? with
  | none =>
      rw [hparent] at h
      cases h
  | some pst =>
      simp only [hparent] at h
      split at h
      · cases h
      rename_i hfinal
      split at h
      · rename_i hmatch
        exact ⟨pst, rfl, Bool.not_eq_true _ ▸ hfinal, comptypeMatches_kind hmatch⟩
      · cases h

theorem groupEnds_group (h : m.groupEnds = .ok ends) :
    ∀ i < m.types.length, ends[i]? = some ((m.groupOf i).1 + (m.groupOf i).2) ∧
      (m.groupOf i).1 ≤ i ∧ i < (m.groupOf i).1 + (m.groupOf i).2 ∧
      (m.groupOf i).1 + (m.groupOf i).2 ≤ m.types.length ∧
      ∀ j, (m.groupOf i).1 ≤ j → j < (m.groupOf i).1 + (m.groupOf i).2 →
        m.groupOf j = m.groupOf i := by
  intro i hi
  unfold Module.groupEnds at h
  unfold Module.groupOf recGroupOf
  split at h
  · rename_i hempty
    cases h
    simp only [hempty, if_true]
    refine ⟨?_, Nat.le_refl i, Nat.lt_succ_self i, hi, fun j hlow hhigh => ?_⟩
    · rw [List.getElem?_map, List.getElem?_range hi]
      rfl
    · obtain rfl : j = i := by omega
      rfl
  · rename_i hsome
    simp only [hsome, if_false, Bool.false_eq_true]
    obtain ⟨hsum, hends⟩ := groupEnds_spec h
    obtain ⟨hlow, hhigh, -, hle, hmem⟩ := locate_spec (Nat.zero_le i) (hsum.symm ▸ hi)
    exact ⟨hends i (Nat.zero_le i) (hsum.symm ▸ hi), hlow, hhigh, hsum ▸ hle, hmem⟩

theorem groupEnds_beyond (h : m.groupEnds = .ok ends) {i : Nat} (hi : m.types.length ≤ i) :
    m.groupOf i = (i, 1) := by
  unfold Module.groupEnds at h
  unfold Module.groupOf recGroupOf
  split at h
  · rename_i hempty
    simp only [hempty, if_true]
  · rename_i hsome
    simp only [hsome, if_false, Bool.false_eq_true]
    obtain ⟨hsum, -⟩ := groupEnds_spec h
    exact locate_beyond (hsum.symm ▸ hi)

theorem Accepted.scoped (h : Accepted m) : Scoped m := by
  obtain ⟨fuel, h⟩ := h
  unfold checkTypeSection at h
  split at h
  · cases h
  cases hends : m.groupEnds with
  | error e =>
      rw [hends] at h
      cases h
  | ok ends =>
  rw [hends] at h
  have hgroup := groupEnds_group hends
  have hmember : ∀ {i : Nat} {st : SubType}, m.types[i]? = some st →
      checkSupertype fuel m i st = .ok () ∧
        checkReferences ((m.groupOf i).1 + (m.groupOf i).2) st.composite = .ok () := by
    intro i st hst
    have hlt := (List.getElem?_eq_some_iff.mp hst).1
    refine bind_unit_eq_ok.mp (forM_eq_ok.mp h ((st, _), i) ?_)
    rw [List.mem_zipIdx_iff_getElem?, List.getElem?_zip_eq_some]
    exact ⟨hst, (hgroup i hlt).1⟩
  exact {
    group := fun hi => ⟨(hgroup _ hi).2.1, (hgroup _ hi).2.2.1, (hgroup _ hi).2.2.2.1⟩
    member := fun hi hlow hhigh => (hgroup _ hi).2.2.2.2 _ hlow hhigh
    beyond := groupEnds_beyond hends
    refs := fun hst => checkReferences_refs (hmember hst).2
    single := fun hst => (checkSupertype_spec (hmember hst).1).1
    parent := fun hst => (checkSupertype_spec (hmember hst).1).2 }

/-! ## Groups that are equal up to their positions -/

section Lift

-- The types of two indices are the same.
variable (S : Nat → Nat → Prop)

def HeapType.Lift : HeapType → HeapType → Prop
  | .type x, .type y => S x y
  | a, b => a = b

def RefType.Lift (a b : RefType) : Prop :=
  a.nullable = b.nullable ∧ a.heap.Lift S b.heap

def ValType.Lift : ValType → ValType → Prop
  | .ref a, .ref b => a.Lift S b
  | a, b => a = b

def StorageType.Lift : StorageType → StorageType → Prop
  | .ref a, .ref b => a.Lift S b
  | a, b => a = b

def FieldType.Lift (a b : FieldType) : Prop :=
  a.mutable = b.mutable ∧ a.ty.Lift S b.ty

def CompositeType.Lift : CompositeType → CompositeType → Prop
  | .func a, .func b => List.Forall₂ (ValType.Lift S) a.params b.params ∧
      List.Forall₂ (ValType.Lift S) a.results b.results
  | .struct a, .struct b => List.Forall₂ (FieldType.Lift S) a b
  | .array a, .array b => a.Lift S b
  | _, _ => False

/-- Equal type definitions, with the references related. -/
def SubType.Lift (a b : SubType) : Prop :=
  a.isFinal = b.isFinal ∧ List.Forall₂ S a.supertypes b.supertypes ∧ a.composite.Lift S b.composite

end Lift

/-- References of two groups: their own members by position, others by a
relation. -/
def Within (groupA groupB : Nat × Nat) (R : Nat → Nat → Prop) (x y : Nat) : Prop :=
  match offsetIn groupA x, offsetIn groupB y with
  | some i, some j => i = j
  | none, none => R x y
  | _, _ => False

/-- The same position in rec groups of equal length whose members are equal,
supertypes included, once references to members are replaced by positions and
all others are the same in turn. -/
inductive Same (ma mb : Module) : Nat → Nat → Prop where
  | groups {a b : Nat} {R : Nat → Nat → Prop} (hR : ∀ x y, R x y → Same ma mb x y)
      (hlen : (ma.groupOf a).2 = (mb.groupOf b).2)
      (hpos : a - (ma.groupOf a).1 = b - (mb.groupOf b).1)
      (hmembers : ∀ offset < (ma.groupOf a).2, ∃ subA subB,
        ma.types[(ma.groupOf a).1 + offset]? = some subA ∧
        mb.types[(mb.groupOf b).1 + offset]? = some subB ∧
        subA.Lift (Within (ma.groupOf a) (mb.groupOf b) R) subB) : Same ma mb a b

/-! ## What a comparison that holds has compared -/

section Code

variable {indices : Nat → Nat → Option Bool} {groupA groupB : Nat × Nat}

/-- The comparison found two indices equivalent. -/
def Holds (indices : Nat → Nat → Option Bool) (x y : Nat) : Prop :=
  indices x y = some true

theorem heapsEquivalent_eq_true {a b : HeapType} :
    heapsEquivalent indices groupA groupB a b = some true ↔
      a.Lift (Within groupA groupB (Holds indices)) b := by
  unfold heapsEquivalent HeapType.Lift
  split
  · unfold Within
    split <;> simp_all [Holds]
  · simp_all

theorem reftypesEquivalent_eq_true {a b : RefType} :
    reftypesEquivalent indices groupA groupB a b = some true ↔
      a.Lift (Within groupA groupB (Holds indices)) b := by
  rw [reftypesEquivalent, both_eq_true, Option.some.injEq, beq_iff_eq, heapsEquivalent_eq_true]
  rfl

theorem valtypesEquivalent_eq_true {a b : ValType} :
    valtypesEquivalent indices groupA groupB a b = some true ↔
      a.Lift (Within groupA groupB (Holds indices)) b := by
  unfold valtypesEquivalent ValType.Lift
  split
  · exact reftypesEquivalent_eq_true
  · simp_all

theorem storagesEquivalent_eq_true {a b : StorageType} :
    storagesEquivalent indices groupA groupB a b = some true ↔
      a.Lift (Within groupA groupB (Holds indices)) b := by
  unfold storagesEquivalent StorageType.Lift
  split
  · exact reftypesEquivalent_eq_true
  · simp_all

theorem fieldsEquivalent_eq_true {a b : FieldType} :
    fieldsEquivalent indices groupA groupB a b = some true ↔
      a.Lift (Within groupA groupB (Holds indices)) b := by
  rw [fieldsEquivalent, both_eq_true, Option.some.injEq, beq_iff_eq, storagesEquivalent_eq_true]
  rfl

theorem forall₂_congr {α β : Type} {R R' : α → β → Prop} (h : ∀ a b, R a b ↔ R' a b) {l : List α}
    {k : List β} : List.Forall₂ R l k ↔ List.Forall₂ R' l k := by
  constructor
  · exact List.Forall₂.imp fun a b => (h a b).mp
  · exact List.Forall₂.imp fun a b => (h a b).mpr

theorem compositesEquivalent_eq_true {a b : CompositeType} :
    compositesEquivalent indices groupA groupB a b = some true ↔
      a.Lift (Within groupA groupB (Holds indices)) b := by
  have hvals : ∀ {l k : List ValType}, everyPair (valtypesEquivalent indices groupA groupB) l k =
      some true ↔ List.Forall₂ (ValType.Lift (Within groupA groupB (Holds indices))) l k :=
    everyPair_eq_true.trans (forall₂_congr fun _ _ => valtypesEquivalent_eq_true)
  unfold compositesEquivalent CompositeType.Lift
  split
  · rw [both_eq_true, both_eq_true, hvals, hvals, Option.some.injEq, Bool.and_eq_true, beq_iff_eq,
      beq_iff_eq]
    refine ⟨And.right, fun h => ⟨⟨h.1.length_eq, h.2.length_eq⟩, h⟩⟩
  · exact everyPair_eq_true.trans (forall₂_congr fun _ _ => fieldsEquivalent_eq_true)
  · exact fieldsEquivalent_eq_true
  · simp_all

/-- What the code compares of two members: their supertypes as types outside. -/
def SubType.Compared (indices : Nat → Nat → Option Bool) (groupA groupB : Nat × Nat)
    (a b : SubType) : Prop :=
  a.isFinal = b.isFinal ∧ List.Forall₂ (Holds indices) a.supertypes b.supertypes ∧
    a.composite.Lift (Within groupA groupB (Holds indices)) b.composite

theorem subtypeEquivalent_eq_true {a b : Option SubType} :
    subtypeEquivalent indices groupA groupB a b = some true ↔
      ∃ subA subB, a = some subA ∧ b = some subB ∧
        subA.Compared indices groupA groupB subB := by
  unfold subtypeEquivalent
  split
  · rename_i subA subB
    rw [both_eq_true, both_eq_true, everyPair_eq_true, compositesEquivalent_eq_true,
      Option.some.injEq, beq_iff_eq]
    constructor
    · intro h
      exact ⟨subA, subB, rfl, rfl, h⟩
    · rintro ⟨_, _, ⟨⟩, ⟨⟩, h⟩
      exact h
  · rename_i hnone
    refine ⟨nofun, ?_⟩
    rintro ⟨subA, subB, rfl, rfl, -⟩
    exact (hnone subA subB rfl rfl).elim

end Code

theorem indicesEquivalent_eq_true {fuel a b : Nat} :
    indicesEquivalent ma mb (fuel + 1) a b = some true ↔
      (ma.groupOf a).2 = (mb.groupOf b).2 ∧ a - (ma.groupOf a).1 = b - (mb.groupOf b).1 ∧
      ∀ offset < (ma.groupOf a).2, ∃ subA subB,
        ma.types[(ma.groupOf a).1 + offset]? = some subA ∧
        mb.types[(mb.groupOf b).1 + offset]? = some subB ∧
        subA.Compared (indicesEquivalent ma mb fuel) (ma.groupOf a) (mb.groupOf b) subB := by
  rw [indicesEquivalent]
  split
  · rename_i hne
    refine ⟨nofun, fun h => absurd h ?_⟩
    omega
  · rename_i heq
    obtain ⟨hlen, hpos⟩ : (ma.groupOf a).2 = (mb.groupOf b).2 ∧
        a - (ma.groupOf a).1 = b - (mb.groupOf b).1 := by omega
    rw [every_eq_true]
    simp only [List.mem_range, subtypeEquivalent_eq_true, hlen, hpos, true_and]

section LiftRules

variable {S S' T : Nat → Nat → Prop}

theorem HeapType.Lift.imp {a b : HeapType} (h : ∀ x ∈ a.refs, ∀ y ∈ b.refs, S x y → S' x y)
    (hS : a.Lift S b) : a.Lift S' b := by
  unfold HeapType.Lift at hS ⊢
  split
  · exact h _ List.mem_cons_self _ List.mem_cons_self hS
  · split at hS
    · simp_all
    · exact hS

theorem ValType.Lift.imp {a b : ValType} (h : ∀ x ∈ a.refs, ∀ y ∈ b.refs, S x y → S' x y)
    (hS : a.Lift S b) : a.Lift S' b := by
  unfold ValType.Lift at hS ⊢
  split
  · exact ⟨hS.1, hS.2.imp h⟩
  · split at hS
    · simp_all
    · exact hS

theorem StorageType.Lift.imp {a b : StorageType} (h : ∀ x ∈ a.refs, ∀ y ∈ b.refs, S x y → S' x y)
    (hS : a.Lift S b) : a.Lift S' b := by
  unfold StorageType.Lift at hS ⊢
  split
  · exact ⟨hS.1, hS.2.imp h⟩
  · split at hS
    · simp_all
    · exact hS

theorem CompositeType.Lift.imp {a b : CompositeType}
    (h : ∀ x ∈ a.refs, ∀ y ∈ b.refs, S x y → S' x y) (hS : a.Lift S b) : a.Lift S' b := by
  match a, b, hS with
  | .func a, .func b, hS =>
      refine ⟨forall₂_imp_mem (fun u hu v hv => ?_) hS.1, forall₂_imp_mem (fun u hu v hv => ?_) hS.2⟩
      · refine ValType.Lift.imp fun x hx y hy => h x ?_ y ?_
        · exact List.mem_append_left _ (List.mem_flatMap_of_mem hu hx)
        · exact List.mem_append_left _ (List.mem_flatMap_of_mem hv hy)
      · refine ValType.Lift.imp fun x hx y hy => h x ?_ y ?_
        · exact List.mem_append_right _ (List.mem_flatMap_of_mem hu hx)
        · exact List.mem_append_right _ (List.mem_flatMap_of_mem hv hy)
  | .struct a, .struct b, hS =>
      refine forall₂_imp_mem (fun u hu v hv huv => ⟨huv.1, huv.2.imp fun x hx y hy => h x ?_ y ?_⟩) hS
      · exact List.mem_flatMap_of_mem hu hx
      · exact List.mem_flatMap_of_mem hv hy
  | .array a, .array b, hS => exact ⟨hS.1, hS.2.imp h⟩

theorem CompositeType.Lift.kind_eq {a b : CompositeType} (h : a.Lift S b) : a.kind = b.kind := by
  cases a <;> cases b <;> first | rfl | cases h

theorem HeapType.Lift.refl {a : HeapType} : a.Lift Eq a := by
  unfold HeapType.Lift
  split <;> simp_all

theorem ValType.Lift.refl {a : ValType} : a.Lift Eq a := by
  unfold ValType.Lift
  split
  · rename_i h
    cases h
    exact ⟨rfl, .refl⟩
  · rfl

theorem StorageType.Lift.refl {a : StorageType} : a.Lift Eq a := by
  unfold StorageType.Lift
  split
  · rename_i h
    cases h
    exact ⟨rfl, .refl⟩
  · rfl

theorem CompositeType.Lift.refl {a : CompositeType} : a.Lift Eq a := by
  cases a with
  | func ty =>
      exact ⟨List.forall₂_same.mpr fun _ _ => .refl, List.forall₂_same.mpr fun _ _ => .refl⟩
  | struct fields => exact List.forall₂_same.mpr fun _ _ => ⟨rfl, .refl⟩
  | array field => exact ⟨rfl, .refl⟩

theorem HeapType.Lift.symm {a b : HeapType} (h : a.Lift S b) : b.Lift (flip S) a := by
  unfold HeapType.Lift at h ⊢
  split at h
  · exact h
  · split
    · simp_all
    · exact h.symm

theorem ValType.Lift.symm {a b : ValType} (h : a.Lift S b) : b.Lift (flip S) a := by
  unfold ValType.Lift at h ⊢
  split at h
  · exact ⟨h.1.symm, h.2.symm⟩
  · split
    · simp_all
    · exact h.symm

theorem StorageType.Lift.symm {a b : StorageType} (h : a.Lift S b) : b.Lift (flip S) a := by
  unfold StorageType.Lift at h ⊢
  split at h
  · exact ⟨h.1.symm, h.2.symm⟩
  · split
    · simp_all
    · exact h.symm

theorem CompositeType.Lift.symm {a b : CompositeType} (h : a.Lift S b) : b.Lift (flip S) a := by
  match a, b, h with
  | .func a, .func b, h =>
      exact ⟨.flip (List.Forall₂.imp (fun _ _ => .symm) h.1),
        .flip (List.Forall₂.imp (fun _ _ => .symm) h.2)⟩
  | .struct a, .struct b, h =>
      exact .flip (List.Forall₂.imp (fun _ _ hab => ⟨hab.1.symm, hab.2.symm⟩) h)
  | .array a, .array b, h => exact ⟨h.1.symm, h.2.symm⟩

theorem HeapType.Lift.of_mem {a b : HeapType} (h : a.Lift S b) : ∀ x ∈ a.refs, ∃ y, S x y := by
  intro x hx
  unfold HeapType.Lift at h
  split at h
  · rw [List.mem_singleton.mp hx]
    exact ⟨_, h⟩
  · cases a with
    | type i =>
        subst h
        simp_all
    | _ => cases hx

theorem ValType.Lift.of_mem {a b : ValType} (h : a.Lift S b) : ∀ x ∈ a.refs, ∃ y, S x y := by
  cases a with
  | ref a =>
      cases b with
      | ref b => exact h.2.of_mem
      | _ => cases h
  | _ => nofun

theorem StorageType.Lift.of_mem {a b : StorageType} (h : a.Lift S b) :
    ∀ x ∈ a.refs, ∃ y, S x y := by
  cases a with
  | ref a =>
      cases b with
      | ref b => exact h.2.of_mem
      | _ => cases h
  | _ => nofun

/-- Every reference of related types is related to one of the other. -/
theorem CompositeType.Lift.of_mem {a b : CompositeType} (h : a.Lift S b) :
    ∀ x ∈ a.refs, ∃ y, S x y := by
  intro x hx
  match a, b, h with
  | .func a, .func b, h =>
      rcases List.mem_append.mp hx with hx | hx
      · obtain ⟨u, hu, hx⟩ := List.mem_flatMap.mp hx
        obtain ⟨n, hn, rfl⟩ := List.mem_iff_getElem.mp hu
        exact ValType.Lift.of_mem (h.1.get hn (h.1.length_eq ▸ hn)) x hx
      · obtain ⟨u, hu, hx⟩ := List.mem_flatMap.mp hx
        obtain ⟨n, hn, rfl⟩ := List.mem_iff_getElem.mp hu
        exact ValType.Lift.of_mem (h.2.get hn (h.2.length_eq ▸ hn)) x hx
  | .struct a, .struct b, h =>
      obtain ⟨u, hu, hx⟩ := List.mem_flatMap.mp hx
      obtain ⟨n, hn, rfl⟩ := List.mem_iff_getElem.mp hu
      exact StorageType.Lift.of_mem (List.Forall₂.get h hn (List.Forall₂.length_eq h ▸ hn)).2 x hx
  | .array a, .array b, h => exact StorageType.Lift.of_mem h.2 x hx

variable (h : ∀ x y z, S x y → S' y z → T x z)

include h

theorem HeapType.Lift.comp {a b c : HeapType} (hS : a.Lift S b) (hS' : b.Lift S' c) : a.Lift T c := by
  unfold HeapType.Lift at hS
  split at hS
  · unfold HeapType.Lift at hS' ⊢
    split at hS'
    · rename_i hy
      cases hy
      exact h _ _ _ hS hS'
    · subst hS'
      simp_all
  · subst hS
    unfold HeapType.Lift at hS' ⊢
    split
    · simp_all
    · split at hS'
      · simp_all
      · exact hS'

theorem ValType.Lift.comp {a b c : ValType} (hS : a.Lift S b) (hS' : b.Lift S' c) : a.Lift T c := by
  unfold ValType.Lift at hS
  split at hS
  · cases c with
    | ref c => exact ⟨hS.1.trans hS'.1, HeapType.Lift.comp h hS.2 hS'.2⟩
    | _ => cases hS'
  · subst hS
    unfold ValType.Lift at hS' ⊢
    split
    · simp_all
    · split at hS'
      · simp_all
      · exact hS'

theorem StorageType.Lift.comp {a b c : StorageType} (hS : a.Lift S b) (hS' : b.Lift S' c) :
    a.Lift T c := by
  unfold StorageType.Lift at hS
  split at hS
  · cases c with
    | ref c => exact ⟨hS.1.trans hS'.1, HeapType.Lift.comp h hS.2 hS'.2⟩
    | _ => cases hS'
  · subst hS
    unfold StorageType.Lift at hS' ⊢
    split
    · simp_all
    · split at hS'
      · simp_all
      · exact hS'

theorem CompositeType.Lift.comp {a b c : CompositeType} (hS : a.Lift S b) (hS' : b.Lift S' c) :
    a.Lift T c := by
  have hval : ∀ u v w : ValType, u.Lift S v → v.Lift S' w → u.Lift T w :=
    fun _ _ _ => ValType.Lift.comp h
  have hfield : ∀ u v w : FieldType, u.Lift S v → v.Lift S' w → u.Lift T w :=
    fun _ _ _ huv hvw => ⟨huv.1.trans hvw.1, StorageType.Lift.comp h huv.2 hvw.2⟩
  cases b with
  | func b =>
      cases a with
      | func a =>
          cases c with
          | func c => exact ⟨forall₂_comp hval hS.1 hS'.1, forall₂_comp hval hS.2 hS'.2⟩
          | _ => cases hS'
      | _ => cases hS
  | struct b =>
      cases a with
      | struct a =>
          cases c with
          | struct c => exact forall₂_comp hfield hS hS'
          | _ => cases hS'
      | _ => cases hS
  | array b =>
      cases a with
      | array a =>
          cases c with
          | array c => exact hfield _ _ _ hS hS'
          | _ => cases hS'
      | _ => cases hS

end LiftRules

/-! ## Comparisons that have an answer -/

section Answers

variable {indices : Nat → Nat → Option Bool} {groupA groupB : Nat × Nat}

theorem heapsEquivalent_isSome {a b : HeapType} (h : ∀ x ∈ a.refs, ∀ y ∈ b.refs,
      offsetIn groupA x = none → (indices x y).isSome) :
    (heapsEquivalent indices groupA groupB a b).isSome := by
  unfold heapsEquivalent
  split
  · split
    · rfl
    · exact h _ List.mem_cons_self _ List.mem_cons_self ‹_›
    · rfl
  · rfl

theorem reftypesEquivalent_isSome {a b : RefType} (h : ∀ x ∈ a.heap.refs, ∀ y ∈ b.heap.refs,
      offsetIn groupA x = none → (indices x y).isSome) :
    (reftypesEquivalent indices groupA groupB a b).isSome :=
  both_isSome rfl fun _ => heapsEquivalent_isSome h

theorem valtypesEquivalent_isSome {a b : ValType} (h : ∀ x ∈ a.refs, ∀ y ∈ b.refs,
      offsetIn groupA x = none → (indices x y).isSome) :
    (valtypesEquivalent indices groupA groupB a b).isSome := by
  unfold valtypesEquivalent
  split
  · exact reftypesEquivalent_isSome h
  · rfl

theorem fieldsEquivalent_isSome {a b : FieldType} (h : ∀ x ∈ a.ty.refs, ∀ y ∈ b.ty.refs,
      offsetIn groupA x = none → (indices x y).isSome) :
    (fieldsEquivalent indices groupA groupB a b).isSome := by
  refine both_isSome rfl fun _ => ?_
  obtain ⟨tyA, mutA⟩ := a
  obtain ⟨tyB, mutB⟩ := b
  dsimp only at h ⊢
  unfold storagesEquivalent
  split
  · exact reftypesEquivalent_isSome h
  · rfl

theorem compositesEquivalent_isSome {a b : CompositeType} (h : ∀ x ∈ a.refs, ∀ y ∈ b.refs,
      offsetIn groupA x = none → (indices x y).isSome) :
    (compositesEquivalent indices groupA groupB a b).isSome := by
  unfold compositesEquivalent
  split
  · refine both_isSome rfl fun _ => both_isSome ?_ fun _ => ?_
    · refine everyPair_isSome fun u hu v hv => valtypesEquivalent_isSome fun x hx y hy => ?_
      exact h x (List.mem_append_left _ (List.mem_flatMap_of_mem hu hx)) y
        (List.mem_append_left _ (List.mem_flatMap_of_mem hv hy))
    · refine everyPair_isSome fun u hu v hv => valtypesEquivalent_isSome fun x hx y hy => ?_
      exact h x (List.mem_append_right _ (List.mem_flatMap_of_mem hu hx)) y
        (List.mem_append_right _ (List.mem_flatMap_of_mem hv hy))
  · refine everyPair_isSome fun u hu v hv => fieldsEquivalent_isSome fun x hx y hy => ?_
    exact h x (List.mem_flatMap_of_mem hu hx) y (List.mem_flatMap_of_mem hv hy)
  · exact fieldsEquivalent_isSome h
  · rfl

end Answers

/-! ## Supertypes of the own group -/

/-- No type declares a supertype of its own rec group. -/
def NoInnerSupertype (m : Module) : Prop :=
  ∀ {i : Nat} {st : SubType}, m.types[i]? = some st → ∀ p ∈ st.supertypes,
    offsetIn (m.groupOf i) p = none

theorem offsetIn_eq_none {x : Nat} :
    offsetIn group x = none ↔ ¬ (group.1 ≤ x ∧ x < group.1 + group.2) := by
  unfold offsetIn
  split <;> simp_all

/-- A reference that leaves the group goes to an earlier one. -/
theorem lt_of_outside {x : Nat} (h : offsetIn group x = none) (hx : x < group.1 + group.2) :
    x < group.1 := by
  rw [offsetIn_eq_none] at h
  omega

namespace Scoped

variable {m ma mb : Module}

theorem at_offset (h : Scoped m) {a offset : Nat} (ha : a < m.types.length)
    (hoff : offset < (m.groupOf a).2) :
    (m.groupOf a).1 + offset < m.types.length ∧ m.groupOf ((m.groupOf a).1 + offset) = m.groupOf a := by
  have hgroup := h.group ha
  exact ⟨by omega, h.member ha (by omega) (by omega)⟩

/-- Every comparison of the recursion is between earlier groups. -/
theorem indicesEquivalent_isSome (h : Scoped ma) (hinner : NoInnerSupertype ma) {fuel a b : Nat}
    (ha : a < ma.types.length) (hfuel : (ma.groupOf a).1 < fuel) :
    (indicesEquivalent ma mb fuel a b).isSome := by
  induction fuel generalizing a b with
  | zero => exact absurd hfuel (Nat.not_lt_zero _)
  | succ fuel ih =>
      have hearlier : ∀ x, x < (ma.groupOf a).1 → ∀ y, (indicesEquivalent ma mb fuel x y).isSome := by
        intro x hx y
        have hlt : x < ma.types.length := by
          have := h.group ha
          omega
        have := h.group hlt
        exact ih hlt (by omega)
      rw [indicesEquivalent]
      split
      · rfl
      refine every_isSome fun offset hoff => ?_
      obtain ⟨hlt, hsame⟩ := h.at_offset ha (List.mem_range.mp hoff)
      unfold subtypeEquivalent
      split
      · rename_i subA subB hA hB
        have hgroup := h.group ha
        refine both_isSome rfl fun _ => both_isSome ?_ fun _ => ?_
        · refine everyPair_isSome fun p hp q _ => hearlier p ?_ q
          have hout := hinner hA p hp
          rw [hsame] at hout
          have := (h.parent hA p hp).1
          have := List.mem_range.mp hoff
          exact lt_of_outside hout (by omega)
        · refine compositesEquivalent_isSome fun x hx y _ hout => hearlier x ?_ y
          have hx := h.refs hA x hx
          rw [hsame] at hx
          exact lt_of_outside hout hx
      · rfl

/-- A group with a supertype of its own is compared with itself again and again,
so no comparison of it holds. -/
theorem never_holds (h : Scoped ma) {i p : Nat} (hst : ma.types[i]? = some st) (hp : p ∈ st.supertypes)
    (hinner : offsetIn (ma.groupOf i) p ≠ none) {fuel a b : Nat} (ha : a < ma.types.length)
    (hgroup : ma.groupOf a = ma.groupOf i) :
    indicesEquivalent ma mb fuel a b ≠ some true := by
  have hi := (List.getElem?_eq_some_iff.mp hst).1
  rw [ne_eq, offsetIn_eq_none, not_not] at hinner
  induction fuel generalizing a b with
  | zero => nofun
  | succ fuel ih =>
      intro hholds
      obtain ⟨-, -, hmembers⟩ := indicesEquivalent_eq_true.mp hholds
      rw [hgroup] at hmembers
      have hbound := h.group hi
      obtain ⟨subA, subB, hA, -, hcompared⟩ := hmembers (i - (ma.groupOf i).1) (by omega)
      rw [Nat.add_sub_cancel' hbound.1, hst] at hA
      cases hA
      obtain ⟨q, hpq⟩ : ∃ q, Holds (indicesEquivalent ma mb fuel) p q := by
        obtain ⟨n, hn, rfl⟩ := List.mem_iff_getElem.mp hp
        exact ⟨_, hcompared.2.1.get hn (hcompared.2.1.length_eq ▸ hn)⟩
      have hp := (h.parent hst p hp).1
      exact ih (Nat.lt_trans hp hi) (h.member hi hinner.1 hinner.2) hpq

theorem same_refl (h : Scoped m) (ha : a < m.types.length) : Same m m a a := by
  induction a using Nat.strongRecOn with
  | ind a ih =>
      have hgroup := h.group ha
      -- The references that leave the group are the same by induction.
      refine .groups (R := fun x y => x = y ∧ Same m m x y) (fun x y => And.right) rfl rfl ?_
      intro offset hoff
      obtain ⟨hlt, hsame⟩ := h.at_offset ha hoff
      have hst := List.getElem?_eq_getElem hlt
      have hwithin : ∀ x < (m.groupOf a).1 + (m.groupOf a).2,
          Within (m.groupOf a) (m.groupOf a) (fun x y => x = y ∧ Same m m x y) x x := by
        intro x hx
        unfold Within
        cases hout : offsetIn (m.groupOf a) x with
        | some i => rfl
        | none =>
            have := lt_of_outside hout hx
            exact ⟨rfl, ih x (by omega) (by omega)⟩
      refine ⟨_, _, hst, hst, rfl, List.forall₂_same.mpr fun p hp => hwithin p ?_, ?_⟩
      · have := (h.parent hst p hp).1
        omega
      · refine CompositeType.Lift.refl.imp fun x hx y _ hxy => ?_
        subst hxy
        have := h.refs hst x hx
        rw [hsame] at this
        exact hwithin x this

end Scoped

theorem Within.imp {groupA groupB : Nat × Nat} {R R' : Nat → Nat → Prop} {x y : Nat}
    (h : offsetIn groupA x = none → offsetIn groupB y = none → R x y → R' x y)
    (hxy : Within groupA groupB R x y) : Within groupA groupB R' x y := by
  unfold Within at hxy ⊢
  cases hx : offsetIn groupA x <;> cases hy : offsetIn groupB y <;> simp_all

theorem Within.of_outside {groupA groupB : Nat × Nat} {R : Nat → Nat → Prop} {x y : Nat}
    (h : Within groupA groupB R x y) (hx : offsetIn groupA x = none) : R x y := by
  unfold Within at h
  rw [hx] at h
  cases hy : offsetIn groupB y with
  | none =>
      rw [hy] at h
      exact h
  | some j =>
      rw [hy] at h
      exact h.elim

theorem Within.symm {groupA groupB : Nat × Nat} {R R' : Nat → Nat → Prop}
    (h : ∀ x y, R x y → R' y x) {x y : Nat} (hxy : Within groupA groupB R x y) :
    Within groupB groupA R' y x := by
  unfold Within at hxy ⊢
  cases hx : offsetIn groupA x <;> cases hy : offsetIn groupB y <;> simp_all

theorem Within.comp {groupA groupB groupC : Nat × Nat} {R R' T : Nat → Nat → Prop}
    (h : ∀ x y z, R x y → R' y z → T x z) {x y z : Nat} (hxy : Within groupA groupB R x y)
    (hyz : Within groupB groupC R' y z) : Within groupA groupC T x z := by
  unfold Within at hxy hyz ⊢
  cases hx : offsetIn groupA x <;> cases hy : offsetIn groupB y <;> cases hz : offsetIn groupC z <;>
    simp_all
  exact h _ _ _ hxy hyz

theorem holds_symm {fuel a b : Nat} (h : indicesEquivalent ma mb fuel a b = some true) :
    indicesEquivalent mb ma fuel b a = some true := by
  induction fuel generalizing a b with
  | zero => cases h
  | succ fuel ih =>
      obtain ⟨hlen, hpos, hmembers⟩ := indicesEquivalent_eq_true.mp h
      refine indicesEquivalent_eq_true.mpr ⟨hlen.symm, hpos.symm, fun offset hoff => ?_⟩
      obtain ⟨subA, subB, hA, hB, hfinal, hsups, hcomposite⟩ := hmembers offset (hlen ▸ hoff)
      refine ⟨subB, subA, hB, hA, hfinal.symm, .flip (hsups.imp fun _ _ => ih), ?_⟩
      exact hcomposite.symm.imp fun x _ y _ hyx => Within.symm (fun _ _ => ih) hyx

theorem holds_trans {ma mb mc : Module} {fuel fuel' a b c : Nat}
    (h : indicesEquivalent ma mb fuel a b = some true)
    (h' : indicesEquivalent mb mc fuel' b c = some true) :
    indicesEquivalent ma mc fuel a c = some true := by
  induction fuel generalizing fuel' a b c with
  | zero => cases h
  | succ fuel ih =>
      cases fuel' with
      | zero => cases h'
      | succ fuel' =>
          obtain ⟨hlen, hpos, hmembers⟩ := indicesEquivalent_eq_true.mp h
          obtain ⟨hlen', hpos', hmembers'⟩ := indicesEquivalent_eq_true.mp h'
          refine indicesEquivalent_eq_true.mpr
            ⟨hlen.trans hlen', hpos.trans hpos', fun offset hoff => ?_⟩
          obtain ⟨subA, subB, hA, hB, hfinal, hsups, hcomposite⟩ := hmembers offset hoff
          obtain ⟨subB', subC, hB', hC, hfinal', hsups', hcomposite'⟩ :=
            hmembers' offset (hlen ▸ hoff)
          rw [hB] at hB'
          cases hB'
          have hih : ∀ x y z, Holds (indicesEquivalent ma mb fuel) x y →
              Holds (indicesEquivalent mb mc fuel') y z → Holds (indicesEquivalent ma mc fuel) x z :=
            fun _ _ _ => ih
          have hwithin : ∀ x y z,
              Within (ma.groupOf a) (mb.groupOf b) (Holds (indicesEquivalent ma mb fuel)) x y →
              Within (mb.groupOf b) (mc.groupOf c) (Holds (indicesEquivalent mb mc fuel')) y z →
              Within (ma.groupOf a) (mc.groupOf c) (Holds (indicesEquivalent ma mc fuel)) x z :=
            fun _ _ _ => Within.comp hih
          exact ⟨subA, subC, hA, hC, hfinal.trans hfinal', forall₂_comp hih hsups hsups',
            CompositeType.Lift.comp hwithin hcomposite hcomposite'⟩

/-! ## The comparison decides sameness -/

/-- The comparison comes to an end and finds the two types equivalent. -/
def Equivalent (ma mb : Module) (a b : Nat) : Prop :=
  ∃ fuel, indicesEquivalent ma mb fuel a b = some true

/-- Neither side of a comparison that holds has a supertype of its own group. -/
theorem outside_of_holds (hma : Scoped ma) {fuel a b offset p : Nat} {subA : SubType}
    (ha : a < ma.types.length) (h : indicesEquivalent ma mb fuel a b = some true)
    (hoff : offset < (ma.groupOf a).2) (hA : ma.types[(ma.groupOf a).1 + offset]? = some subA)
    (hp : p ∈ subA.supertypes) : offsetIn (ma.groupOf a) p = none ∧ p < ma.types.length := by
  obtain ⟨hlt, hsame⟩ := hma.at_offset ha hoff
  have hless := (hma.parent hA p hp).1
  refine ⟨?_, by omega⟩
  by_contra hinner
  rw [← hsame] at hinner
  exact hma.never_holds hA hp hinner ha hsame.symm h

theorem same_of_holds (hma : Scoped ma) (hmb : Scoped mb) {fuel a b : Nat} (ha : a < ma.types.length)
    (hb : b < mb.types.length) (h : indicesEquivalent ma mb fuel a b = some true) : Same ma mb a b := by
  induction fuel generalizing a b with
  | zero => cases h
  | succ fuel ih =>
      obtain ⟨hlen, hpos, hmembers⟩ := indicesEquivalent_eq_true.mp h
      refine .groups (R := fun x y => x < ma.types.length ∧ y < mb.types.length ∧
        Holds (indicesEquivalent ma mb fuel) x y) (fun x y hxy => ih hxy.1 hxy.2.1 hxy.2.2)
        hlen hpos fun offset hoff => ?_
      obtain ⟨subA, subB, hA, hB, hfinal, hsups, hcomposite⟩ := hmembers offset hoff
      obtain ⟨hltA, hsameA⟩ := hma.at_offset ha hoff
      obtain ⟨hltB, hsameB⟩ := hmb.at_offset hb (hlen ▸ hoff)
      have hgroupA := hma.group ha
      have hgroupB := hmb.group hb
      refine ⟨subA, subB, hA, hB, hfinal, ?_, ?_⟩
      · refine forall₂_imp_mem (fun p hp q hq hpq => ?_) hsups
        obtain ⟨houtA, hltp⟩ := outside_of_holds hma ha h hoff hA hp
        obtain ⟨houtB, hltq⟩ := outside_of_holds hmb hb (holds_symm h) (hlen ▸ hoff) hB hq
        simp only [Within, houtA, houtB]
        exact ⟨hltp, hltq, hpq⟩
      · refine hcomposite.imp fun x hx y hy (hxy : Within _ _ _ x y) => ?_
        have hx := hma.refs hA x hx
        have hy := hmb.refs hB y hy
        rw [hsameA] at hx
        rw [hsameB] at hy
        exact hxy.imp fun _ _ hholds => ⟨by omega, by omega, hholds⟩

/-- No rec group a type is built from declares a supertype of its own. -/
inductive Founded (m : Module) : Nat → Prop where
  | group {a : Nat}
      (hout : ∀ offset < (m.groupOf a).2, ∀ st, m.types[(m.groupOf a).1 + offset]? = some st →
        ∀ p ∈ st.supertypes, offsetIn (m.groupOf a) p = none)
      (hsups : ∀ offset < (m.groupOf a).2, ∀ st, m.types[(m.groupOf a).1 + offset]? = some st →
        ∀ p ∈ st.supertypes, Founded m p)
      (hrefs : ∀ offset < (m.groupOf a).2, ∀ st, m.types[(m.groupOf a).1 + offset]? = some st →
        ∀ x ∈ st.composite.refs, offsetIn (m.groupOf a) x = none → Founded m x) : Founded m a

theorem founded_of_noInner (hm : Scoped m) (hinner : NoInnerSupertype m) (ha : a < m.types.length) :
    Founded m a := by
  induction a using Nat.strongRecOn with
  | ind a ih =>
      have hgroup := hm.group ha
      have hout : ∀ offset < (m.groupOf a).2, ∀ st, m.types[(m.groupOf a).1 + offset]? = some st →
          ∀ p ∈ st.supertypes, offsetIn (m.groupOf a) p = none := by
        intro offset hoff st hst p hp
        have hout := hinner hst p hp
        rwa [(hm.at_offset ha hoff).2] at hout
      refine .group hout (fun offset hoff st hst p hp => ?_) fun offset hoff st hst x hx hx' => ?_
      · have hless := (hm.parent hst p hp).1
        have := lt_of_outside (hout offset hoff st hst p hp) (by omega)
        exact ih p (by omega) (by omega)
      · have hx := hm.refs hst x hx
        rw [(hm.at_offset ha hoff).2] at hx
        have := lt_of_outside hx' hx
        exact ih x (by omega) (by omega)

theorem founded_of_holds (hma : Scoped ma) {fuel a b : Nat} (ha : a < ma.types.length)
    (h : indicesEquivalent ma mb fuel a b = some true) :
    Founded ma a := by
  induction fuel generalizing a b with
  | zero => cases h
  | succ fuel ih =>
      obtain ⟨hlen, hpos, hmembers⟩ := indicesEquivalent_eq_true.mp h
      have hgroup := hma.group ha
      refine .group (fun offset hoff st hst p hp => ?_) (fun offset hoff st hst p hp => ?_)
        fun offset hoff st hst x hx hout => ?_
      · exact (outside_of_holds hma ha h hoff hst hp).1
      · obtain ⟨subA, subB, hA, -, -, hsups, -⟩ := hmembers offset hoff
        rw [hst] at hA
        cases hA
        obtain ⟨n, hn, rfl⟩ := List.mem_iff_getElem.mp hp
        exact ih (outside_of_holds hma ha h hoff hst hp).2 (hsups.get hn (hsups.length_eq ▸ hn))
      · obtain ⟨subA, subB, hA, -, -, -, hcomposite⟩ := hmembers offset hoff
        rw [hst] at hA
        cases hA
        obtain ⟨y, hxy⟩ := hcomposite.of_mem x hx
        have hx := hma.refs hst x hx
        rw [(hma.at_offset ha hoff).2] at hx
        have := lt_of_outside hout hx
        exact ih (by omega) (hxy.of_outside hout)

theorem holds_of_same (hma : Scoped ma) (h : Same ma mb a b) (hfounded : Founded ma a)
    (ha : a < ma.types.length) (hfuel : (ma.groupOf a).1 < fuel) :
    indicesEquivalent ma mb fuel a b = some true := by
  induction h generalizing fuel with
  | @groups a b R _ hlen hpos hmembers ih =>
      cases fuel with
      | zero => exact absurd hfuel (Nat.not_lt_zero _)
      | succ fuel =>
          obtain ⟨houtA, hfsups, hfrefs⟩ := hfounded
          refine indicesEquivalent_eq_true.mpr ⟨hlen, hpos, fun offset hoff => ?_⟩
          obtain ⟨subA, subB, hA, hB, hfinal, hsups, hcomposite⟩ := hmembers offset hoff
          obtain ⟨hlt, hsame⟩ := hma.at_offset ha hoff
          have hgroup := hma.group ha
          have hearlier : ∀ x y, x < (ma.groupOf a).1 → Founded ma x → R x y →
              Holds (indicesEquivalent ma mb fuel) x y := by
            intro x y hx hfx hxy
            have hltx : x < ma.types.length := by omega
            have := hma.group hltx
            exact ih x y hxy hfx hltx (by omega)
          refine ⟨subA, subB, hA, hB, hfinal, ?_, ?_⟩
          · refine forall₂_imp_mem (fun p hp q _ (hpq : Within _ _ _ p q) => ?_) hsups
            have hout := houtA offset hoff subA hA p hp
            have hless := (hma.parent hA p hp).1
            exact hearlier p q (lt_of_outside hout (by omega)) (hfsups offset hoff subA hA p hp)
              (hpq.of_outside hout)
          · refine hcomposite.imp fun x hx y _ (hxy : Within _ _ _ x y) => ?_
            refine hxy.imp fun hout _ => ?_
            have hltx := hma.refs hA x hx
            rw [hsame] at hltx
            exact hearlier x y (lt_of_outside hout hltx) (hfrefs offset hoff subA hA x hx hout)

/-! ## Sameness as a relation across modules -/

theorem Same.valid (hma : Scoped ma) (hmb : Scoped mb) (h : Same ma mb a b) :
    a < ma.types.length ∧ b < mb.types.length := by
  obtain ⟨-, hlen, -, hmembers⟩ := h
  constructor
  · by_contra ha
    have hgroup := hma.beyond (Nat.le_of_not_lt ha)
    rw [hgroup] at hmembers
    obtain ⟨subA, -, hA, -⟩ := hmembers 0 Nat.one_pos
    exact ha (List.getElem?_eq_some_iff.mp hA).1
  · by_contra hb
    have hgroup := hmb.beyond (Nat.le_of_not_lt hb)
    rw [hgroup] at hmembers hlen
    obtain ⟨-, subB, -, hB, -⟩ := hmembers 0 (hlen ▸ Nat.one_pos)
    exact hb (List.getElem?_eq_some_iff.mp hB).1

theorem Equivalent.valid (hma : Scoped ma) (hmb : Scoped mb) (h : Equivalent ma mb a b) :
    a < ma.types.length ∧ b < mb.types.length := by
  obtain ⟨fuel, h⟩ := h
  cases fuel with
  | zero => cases h
  | succ fuel =>
      obtain ⟨hlen, -, hmembers⟩ := indicesEquivalent_eq_true.mp h
      constructor
      · by_contra ha
        have hgroup := hma.beyond (Nat.le_of_not_lt ha)
        rw [hgroup] at hmembers
        obtain ⟨subA, -, hA, -⟩ := hmembers 0 Nat.one_pos
        exact ha (List.getElem?_eq_some_iff.mp hA).1
      · by_contra hb
        have hgroup := hmb.beyond (Nat.le_of_not_lt hb)
        rw [hgroup] at hmembers hlen
        obtain ⟨-, subB, -, hB, -⟩ := hmembers 0 (hlen ▸ Nat.one_pos)
        exact hb (List.getElem?_eq_some_iff.mp hB).1

/-- Two types are found equivalent where they are the same and their comparison
meets no supertype of an own group. -/
theorem equivalent_iff (hma : Scoped ma) (hmb : Scoped mb) :
    Equivalent ma mb a b ↔ Same ma mb a b ∧ Founded ma a := by
  constructor
  · intro h
    obtain ⟨ha, hb⟩ := h.valid hma hmb
    obtain ⟨fuel, h⟩ := h
    exact ⟨same_of_holds hma hmb ha hb h, founded_of_holds hma ha h⟩
  · rintro ⟨hsame, hfounded⟩
    exact ⟨_, holds_of_same hma hsame hfounded (hsame.valid hma hmb).1 (Nat.lt_succ_self _)⟩

theorem Same.symm (h : Same ma mb a b) : Same mb ma b a := by
  induction h with
  | @groups a b R _ hlen hpos hmembers ih =>
      refine .groups (R := flip R) (fun x y => ih y x) hlen.symm hpos.symm fun offset hoff => ?_
      obtain ⟨subA, subB, hA, hB, hfinal, hsups, hcomposite⟩ := hmembers offset (hlen ▸ hoff)
      refine ⟨subB, subA, hB, hA, hfinal.symm, .flip (hsups.imp fun _ _ hxy => ?_), ?_⟩
      · exact Within.symm (fun _ _ => id) hxy
      · exact hcomposite.symm.imp fun x _ y _ hyx => Within.symm (fun _ _ => id) hyx

theorem Same.trans {ma mb mc : Module} {a b c : Nat} (h : Same ma mb a b) (h' : Same mb mc b c) :
    Same ma mc a c := by
  induction h generalizing c with
  | @groups a b R _ hlen hpos hmembers ih =>
      obtain @⟨_, _, R', hR', hlen', hpos', hmembers'⟩ := h'
      refine .groups (R := fun x z => ∃ y, R x y ∧ R' y z)
        (fun x z ⟨y, hxy, hyz⟩ => ih x y hxy (hR' y z hyz)) (hlen.trans hlen') (hpos.trans hpos')
        fun offset hoff => ?_
      obtain ⟨subA, subB, hA, hB, hfinal, hsups, hcomposite⟩ := hmembers offset hoff
      obtain ⟨subB', subC, hB', hC, hfinal', hsups', hcomposite'⟩ := hmembers' offset (hlen ▸ hoff)
      rw [hB] at hB'
      cases hB'
      have hwithin : ∀ x y z, Within (ma.groupOf a) (mb.groupOf b) R x y →
          Within (mb.groupOf b) (mc.groupOf c) R' y z →
          Within (ma.groupOf a) (mc.groupOf c) (fun x z => ∃ y, R x y ∧ R' y z) x z :=
        fun x y z => Within.comp fun x y z hxy hyz => ⟨y, hxy, hyz⟩
      exact ⟨subA, subC, hA, hC, hfinal.trans hfinal', forall₂_comp hwithin hsups hsups',
        CompositeType.Lift.comp hwithin hcomposite hcomposite'⟩

/-- The members of the two groups are the same in pairs. -/
theorem Same.at_offset (hma : Scoped ma) (hmb : Scoped mb) {a b offset : Nat} (h : Same ma mb a b)
    (hoff : offset < (ma.groupOf a).2) :
    Same ma mb ((ma.groupOf a).1 + offset) ((mb.groupOf b).1 + offset) := by
  obtain ⟨ha, hb⟩ := h.valid hma hmb
  obtain @⟨_, _, R, hR, hlen, hpos, hmembers⟩ := h
  obtain ⟨-, hsameA⟩ := hma.at_offset ha hoff
  obtain ⟨-, hsameB⟩ := hmb.at_offset hb (hlen ▸ hoff)
  refine .groups (R := R) hR ?_ ?_ ?_
  · rw [hsameA, hsameB, hlen]
  · rw [hsameA, hsameB]
    omega
  · rw [hsameA, hsameB]
    exact hmembers

/-- What the compared members have in common. -/
theorem Same.member (hma : Scoped ma) (hmb : Scoped mb) (h : Same ma mb a b) :
    ∃ subA subB, ma.types[a]? = some subA ∧ mb.types[b]? = some subB ∧
      subA.isFinal = subB.isFinal ∧ List.Forall₂ (Same ma mb) subA.supertypes subB.supertypes ∧
      subA.composite.kind = subB.composite.kind := by
  have hpositions : ∀ offset < (ma.groupOf a).2,
      Same ma mb ((ma.groupOf a).1 + offset) ((mb.groupOf b).1 + offset) :=
    fun _ hoff => h.at_offset hma hmb hoff
  obtain ⟨ha, hb⟩ := h.valid hma hmb
  obtain @⟨_, _, R, hR, hlen, hpos, hmembers⟩ := h
  have hgroupA := hma.group ha
  have hgroupB := hmb.group hb
  obtain ⟨subA, subB, hA, hB, hfinal, hsups, hcomposite⟩ :=
    hmembers (a - (ma.groupOf a).1) (by omega)
  rw [Nat.add_sub_cancel' hgroupA.1] at hA
  rw [hpos, Nat.add_sub_cancel' hgroupB.1] at hB
  refine ⟨subA, subB, hA, hB, hfinal, hsups.imp fun p q hpq => ?_, hcomposite.kind_eq⟩
  unfold Within offsetIn at hpq
  split at hpq
  · rename_i i j hi hj
    split at hi
    · split at hj
      · rename_i hp hq
        have hoff := hpositions (p - (ma.groupOf a).1) (by omega)
        cases hi
        cases hj
        rwa [Nat.add_sub_cancel' hp.1, hpq, Nat.add_sub_cancel' hq.1] at hoff
      · cases hj
    · cases hi
  · exact hR p q hpq
  · exact hpq.elim

/-- What the comparison of two type sections promises. -/
structure Decides (ma mb : Module) : Prop where
  ends : ∀ a < ma.types.length, ∀ b < mb.types.length,
    ∃ fuel, (indicesEquivalent ma mb fuel a b).isSome
  refl : ∀ m ∈ [ma, mb], ∀ a < m.types.length, Equivalent m m a a
  symm : ∀ a b, Equivalent ma mb a b → Equivalent mb ma b a
  trans : ∀ mc, Accepted mc → ∀ a b c, Equivalent ma mb a b → Equivalent mb mc b c →
    Equivalent ma mc a c
  exact : ∀ a < ma.types.length, ∀ b < mb.types.length, Equivalent ma mb a b ↔ Same ma mb a b

theorem noInnerSupertype_of_refl (h : Scoped m) (hrefl : ∀ a < m.types.length, Equivalent m m a a) :
    NoInnerSupertype m := by
  intro i st hst p hp
  by_contra hinner
  have hi := (List.getElem?_eq_some_iff.mp hst).1
  obtain ⟨fuel, hholds⟩ := hrefl i hi
  exact h.never_holds hst hp hinner hi rfl hholds

theorem decides_iff (ma mb : Module) (hma : Accepted ma) (hmb : Accepted mb) :
    Decides ma mb ↔ NoInnerSupertype ma ∧ NoInnerSupertype mb := by
  constructor
  · intro h
    exact ⟨noInnerSupertype_of_refl hma.scoped (h.refl ma List.mem_cons_self),
      noInnerSupertype_of_refl hmb.scoped (h.refl mb (by simp))⟩
  · rintro ⟨hinnerA, hinnerB⟩
    have hdepth : ∀ {m : Module}, Scoped m → ∀ {a}, a < m.types.length →
        (m.groupOf a).1 < m.types.length + 1 := by
      intro m hm a ha
      have := hm.group ha
      omega
    have hrefl : ∀ {m : Module}, Scoped m → NoInnerSupertype m → ∀ a < m.types.length,
        Equivalent m m a a := by
      intro m hm hinner a ha
      exact ⟨_, holds_of_same hm (hm.same_refl ha) (founded_of_noInner hm hinner ha) ha (hdepth hm ha)⟩
    exact {
      ends := fun a ha b _ =>
        ⟨_, hma.scoped.indicesEquivalent_isSome hinnerA ha (hdepth hma.scoped ha)⟩
      refl := by
        intro m hm
        rcases List.mem_pair.mp hm with rfl | rfl
        · exact hrefl hma.scoped hinnerA
        · exact hrefl hmb.scoped hinnerB
      symm := fun a b ⟨fuel, h⟩ => ⟨fuel, holds_symm h⟩
      trans := fun mc _ a b c ⟨fuel, h⟩ ⟨fuel', h'⟩ => ⟨fuel, holds_trans h h'⟩
      exact := fun a ha b hb => ⟨fun ⟨fuel, h⟩ =>
          same_of_holds hma.scoped hmb.scoped ha hb h,
        fun h => ⟨_, holds_of_same hma.scoped h (founded_of_noInner hma.scoped hinnerA ha) ha
          (hdepth hma.scoped ha)⟩⟩ }

/-- A rec group of a struct type and a subtype of it. -/
def innerPair : Module where
  types := [⟨false, [], .struct []⟩, ⟨true, [0], .struct []⟩]
  recGroups := [2]

/-- The code accepts the group and never comes to an end comparing it with
itself. -/
theorem innerPair_never_ends : Accepted innerPair ∧
    (∀ fuel, indicesEquivalent innerPair innerPair fuel 0 0 = none) ∧
    ¬ Decides innerPair innerPair := by
  have hnone : ∀ fuel, indicesEquivalent innerPair innerPair fuel 0 0 = none := by
    intro fuel
    induction fuel with
    | zero => rfl
    | succ fuel ih =>
        have hstep : indicesEquivalent innerPair innerPair (fuel + 1) 0 0 =
            both (some true) (both (both (both (some true)
              (both (indicesEquivalent innerPair innerPair fuel 0 0) (some true))) (some true))
              (some true)) := rfl
        rw [hstep, ih]
        rfl
  refine ⟨⟨1, rfl⟩, hnone, fun h => ?_⟩
  obtain ⟨fuel, hends⟩ := h.ends 0 (by decide) 0 (by decide)
  rw [hnone] at hends
  cases hends

/-- Two rec groups in a row, the second with a supertype in the first. -/
def outerPair : Module where
  types := [⟨false, [], .struct []⟩, ⟨true, [0], .struct []⟩]
  recGroups := [1, 1]

theorem noInnerSupertype_outerPair : NoInnerSupertype outerPair := by
  intro i st hst p hp
  match i, hst with
  | 0, hst =>
      cases hst
      cases hp
  | 1, hst =>
      cases hst
      cases List.mem_singleton.mp hp
      rfl

theorem outerPair_decides : Accepted outerPair ∧ Decides outerPair outerPair := by
  have haccepted : Accepted outerPair := ⟨1, rfl⟩
  have hinner := @noInnerSupertype_outerPair
  exact ⟨haccepted, (decides_iff outerPair outerPair haccepted haccepted).mpr ⟨hinner, hinner⟩⟩

end Slag.Wasm
