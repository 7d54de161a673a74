import Mathlib.Logic.Relation
import Slag.Wasm.Depth

/-!
Subtyping of accepted modules. The two case tables of the validator agree, and
where comparisons come to an end they are a preorder over the declared
supertypes.
-/

namespace Slag.Wasm

open Slag.Answer

/-! ## The two tables -/

variable {m : Module} {fuel : Nat}

theorem heapMatches_eq_heapSub {sub sup : HeapType} :
    heapMatches fuel m sub sup = heapSub? fuel m sub sup := by
  unfold heapMatches heapSub?
  split
  · rfl
  rename_i hne
  cases sub with
  | type s =>
      cases sup with
      | type t => rfl
      | _ =>
          simp only [unfoldsTo, aggregate]
          cases m.types[s]? with
          | none => rfl
          | some st =>
              obtain ⟨_, _, composite⟩ := st
              cases composite <;> rfl
  | none =>
      cases sup with
      | type t =>
          simp only [unfoldsTo, aggregate]
          cases m.types[t]? with
          | none => rfl
          | some st =>
              obtain ⟨_, _, composite⟩ := st
              cases composite <;> rfl
      | _ => first | rfl | exact absurd rfl hne
  | noFunc =>
      cases sup with
      | type t =>
          simp only [unfoldsTo]
          cases m.types[t]? with
          | none => rfl
          | some st =>
              obtain ⟨_, _, composite⟩ := st
              cases composite <;> rfl
      | _ => first | rfl | exact absurd rfl hne
  | _ =>
      cases sup <;> first | rfl | exact absurd rfl hne

theorem valtypeMatches_eq_valSub {sub sup : ValType} :
    valtypeMatches fuel m sub sup = valSub? fuel m sup sub := by
  cases sub with
  | ref a =>
      cases sup with
      | ref b =>
          simp only [valtypeMatches, valSub?, reftypeMatches, refSub?, heapMatches_eq_heapSub]
          by_cases heq : a = b
          · subst heq
            simp [both, heapSub?]
          · have hne : ValType.ref b ≠ ValType.ref a := fun h => heq (ValType.ref.inj h).symm
            rw [if_neg hne]
            cases a.nullable <;> cases b.nullable <;> rfl
      | _ => rfl
  | _ => cases sup <;> rfl

/-! ## Declared supertypes -/

/-- One type declares the other as its supertype. -/
def Declares (m : Module) (sub sup : Nat) : Prop :=
  m.parent? sub = some sup

/-- The supertypes of a type lead to one that is equivalent to the other. -/
def Below (m : Module) (s t : Nat) : Prop :=
  ∃ x, Relation.ReflTransGen (Declares m) s x ∧ Equivalent m m x t

theorem declares_iff {sub sup : Nat} :
    Declares m sub sup ↔ ∃ st, m.types[sub]? = some st ∧ st.supertypes.head? = some sup :=
  Option.bind_eq_some_iff

theorem Scoped.of_declares (h : Scoped m) {sub sup : Nat} (hsup : Declares m sub sup) :
    sup < sub ∧ sup < m.types.length ∧ ∃ st pst, m.types[sub]? = some st ∧
      m.types[sup]? = some pst ∧ st.composite.kind = pst.composite.kind := by
  obtain ⟨st, hst, hhead⟩ := declares_iff.mp hsup
  obtain ⟨hless, pst, hpst, -, hkind⟩ := h.parent hst sup (List.mem_of_mem_head? hhead)
  exact ⟨hless, (List.getElem?_eq_some_iff.mp hpst).1, st, pst, hst, hpst, hkind⟩

/-- What two types found equivalent have in common. -/
theorem Equivalent.member {ma mb : Module} (hma : Scoped ma) (hmb : Scoped mb) {a b : Nat}
    (ha : a < ma.types.length) (hb : b < mb.types.length) (h : Equivalent ma mb a b) :
    ∃ subA subB, ma.types[a]? = some subA ∧ mb.types[b]? = some subB ∧
      subA.isFinal = subB.isFinal ∧ List.Forall₂ (Equivalent ma mb) subA.supertypes subB.supertypes ∧
      subA.composite.kind = subB.composite.kind := by
  obtain ⟨fuel, h⟩ := h
  cases fuel with
  | zero => cases h
  | succ fuel =>
      obtain ⟨hlen, hpos, hmembers⟩ := indicesEquivalent_eq_true.mp h
      have hgroupA := hma.group ha
      have hgroupB := hmb.group hb
      obtain ⟨subA, subB, hA, hB, hfinal, hsups, hcomposite⟩ :=
        hmembers (a - (ma.groupOf a).1) (by omega)
      rw [Nat.add_sub_cancel' hgroupA.1] at hA
      rw [hpos, Nat.add_sub_cancel' hgroupB.1] at hB
      exact ⟨subA, subB, hA, hB, hfinal, hsups.imp fun x y hxy => ⟨fuel, hxy⟩, hcomposite.kind_eq⟩

/-- Supertypes of equivalent types are equivalent. -/
theorem Equivalent.declares (hm : Scoped m) {a b q : Nat} (ha : a < m.types.length)
    (hb : b < m.types.length) (h : Equivalent m m a b) (hq : Declares m b q) :
    ∃ p, Declares m a p ∧ Equivalent m m p q := by
  obtain ⟨subA, subB, hA, hB, -, hsups, -⟩ := h.member hm hm ha hb
  obtain ⟨st, hst, hhead⟩ := declares_iff.mp hq
  rw [hB] at hst
  cases hst
  cases hA' : subA.supertypes with
  | nil =>
      rw [hA', List.forall₂_nil_left_iff] at hsups
      rw [hsups] at hhead
      cases hhead
  | cons p rest =>
      rw [hA', List.forall₂_cons_left_iff] at hsups
      obtain ⟨q', rest', hpq, -, hB'⟩ := hsups
      rw [hB'] at hhead
      cases hhead
      exact ⟨p, declares_iff.mpr ⟨subA, hA, by rw [hA']; rfl⟩, hpq⟩

theorem Scoped.valid_of_leads (hm : Scoped m) {s x : Nat} (hs : s < m.types.length)
    (h : Relation.ReflTransGen (Declares m) s x) : x < m.types.length := by
  induction h with
  | refl => exact hs
  | tail _ hstep _ => exact (hm.of_declares hstep).2.1

theorem Equivalent.trans {ma mb mc : Module} {a b c : Nat} (h : Equivalent ma mb a b)
    (h' : Equivalent mb mc b c) : Equivalent ma mc a c := by
  obtain ⟨fuel, h⟩ := h
  obtain ⟨fuel', h'⟩ := h'
  exact ⟨fuel, holds_trans h h'⟩

theorem Below.trans (hm : Scoped m) {s t u : Nat} (hs : s < m.types.length) (ht : t < m.types.length)
    (h : Below m s t) (h' : Below m t u) : Below m s u := by
  obtain ⟨x, hsx, hxt⟩ := h
  obtain ⟨y, hty, hyu⟩ := h'
  -- The path from the middle type is followed from the equivalent one.
  have hfollow : ∃ x', Relation.ReflTransGen (Declares m) s x' ∧ Equivalent m m x' y := by
    clear hyu
    induction hty with
    | refl => exact ⟨x, hsx, hxt⟩
    | @tail y z hty hyz ih =>
        obtain ⟨x', hsx', heq⟩ := ih
        obtain ⟨p, hp, hpz⟩ := heq.declares hm (hm.valid_of_leads hs hsx') (hm.valid_of_leads ht hty) hyz
        exact ⟨p, hsx'.tail hp, hpz⟩
  obtain ⟨x', hsx', heq⟩ := hfollow
  exact ⟨x', hsx', heq.trans hyu⟩

theorem Below.kind (hm : Scoped m) {s t : Nat} (hs : s < m.types.length) (ht : t < m.types.length)
    (h : Below m s t) :
    ∃ st tt, m.types[s]? = some st ∧ m.types[t]? = some tt ∧
      st.composite.kind = tt.composite.kind := by
  obtain ⟨x, hsx, hxt⟩ := h
  have hx := hm.valid_of_leads hs hsx
  have hleads : ∃ st xt, m.types[s]? = some st ∧ m.types[x]? = some xt ∧
      st.composite.kind = xt.composite.kind := by
    clear hxt hx
    induction hsx with
    | refl => exact ⟨_, _, List.getElem?_eq_getElem hs, List.getElem?_eq_getElem hs, rfl⟩
    | @tail y z _ hyz ih =>
        obtain ⟨st, yt, hst, hyt, hkind⟩ := ih
        obtain ⟨-, -, yt', zt, hyt', hzt, hkind'⟩ := hm.of_declares hyz
        rw [hyt] at hyt'
        cases hyt'
        exact ⟨st, zt, hst, hzt, hkind.trans hkind'⟩
  obtain ⟨st, xt, hst, hxt', hkind⟩ := hleads
  obtain ⟨xt', tt, hxt'', htt, -, -, hkind'⟩ := hxt.member hm hm hx ht
  rw [hxt'] at hxt''
  cases hxt''
  exact ⟨st, tt, hst, htt, hkind.trans hkind'⟩

/-! ## The walk over the supertypes -/

theorem below_of_walk {hops s t : Nat} (h : walkSupertypes fuel m hops s t = some true) :
    Below m s t := by
  induction hops generalizing s with
  | zero => cases h
  | succ hops ih =>
      rw [walkSupertypes] at h
      cases heq : indicesEquivalent m m fuel s t with
      | none =>
          rw [heq] at h
          cases h
      | some r =>
          rw [heq] at h
          cases r with
          | true => exact ⟨s, .refl, fuel, heq⟩
          | false =>
              dsimp only at h
              cases hp : m.parent? s with
              | none =>
                  rw [hp] at h
                  cases h
              | some p =>
                  rw [hp] at h
                  obtain ⟨x, hpx, hxt⟩ := ih h
                  exact ⟨x, .head hp hpx, hxt⟩

theorem Scoped.lt_depth (hm : Scoped m) {a : Nat} (ha : a < m.types.length) :
    (m.groupOf a).1 < comparisonDepth m m := by
  have := hm.group ha
  unfold comparisonDepth
  omega

theorem Equivalent.at_depth (hm : Scoped m) {a b : Nat} (ha : a < m.types.length)
    (hb : b < m.types.length) (h : Equivalent m m a b) :
    indicesEquivalent m m (comparisonDepth m m) a b = some true := by
  obtain ⟨fuel, h⟩ := h
  exact holds_of_same hm (same_of_holds hm hm ha hb h) (founded_of_holds hm ha h) ha (hm.lt_depth ha)

theorem walk_of_below (hm : Scoped m) (hinner : NoInnerSupertype m) {hops s t : Nat}
    (hs : s < m.types.length) (ht : t < m.types.length) (hhops : s < hops) :
    ∃ r, walkSupertypes (comparisonDepth m m) m hops s t = some r ∧ (Below m s t → r = true) := by
  induction hops generalizing s with
  | zero => exact absurd hhops (Nat.not_lt_zero _)
  | succ hops ih =>
      rw [walkSupertypes]
      have hsome : (indicesEquivalent m m (comparisonDepth m m) s t).isSome :=
        hm.indicesEquivalent_isSome hinner hs (hm.lt_depth hs)
      obtain ⟨r, hr⟩ := Option.isSome_iff_exists.mp hsome
      rw [hr]
      cases r with
      | true => exact ⟨true, rfl, fun _ => rfl⟩
      | false =>
          have hne : ¬ Equivalent m m s t := by
            intro heq
            rw [heq.at_depth hm hs ht] at hr
            cases hr
          have hbelow : Below m s t → ∃ p, m.parent? s = some p ∧ Below m p t := by
            rintro ⟨x, hsx, hxt⟩
            rcases Relation.ReflTransGen.cases_head hsx with rfl | ⟨p, hp, hpx⟩
            · exact absurd hxt hne
            · exact ⟨p, hp, x, hpx, hxt⟩
          dsimp only
          cases hp : m.parent? s with
          | none =>
              refine ⟨false, rfl, fun h => ?_⟩
              obtain ⟨p, hp', -⟩ := hbelow h
              rw [hp] at hp'
              cases hp'
          | some p =>
              obtain ⟨hless, hvalid, -⟩ := hm.of_declares hp
              obtain ⟨r, hr, htrue⟩ := ih hvalid (by omega)
              refine ⟨r, hr, fun h => htrue ?_⟩
              obtain ⟨p', hp', hbelow⟩ := hbelow h
              rw [hp] at hp'
              cases hp'
              exact hbelow

/-! ## Heap types -/

def HeapType.Over (m : Module) (h : HeapType) : Prop :=
  ∀ x ∈ h.refs, x < m.types.length

def ValType.Over (m : Module) (a : ValType) : Prop :=
  ∀ x ∈ a.refs, x < m.types.length

instance (m : Module) (h : HeapType) : Decidable (h.Over m) :=
  inferInstanceAs (Decidable (∀ x ∈ h.refs, x < m.types.length))

/-- Subtyping of heap types: the abstract lattice, the kinds of concrete types,
their declared supertypes and the bottoms. -/
inductive HeapBelow (m : Module) : HeapType → HeapType → Prop where
  | abs {h k : HeapType} (hsub : absSub h k = true) : HeapBelow m h k
  | types {s t : Nat} (hbelow : Below m s t) : HeapBelow m (.type s) (.type t)
  | kind {s : Nat} {st : SubType} {k : HeapType} (hst : m.types[s]? = some st)
      (hsub : absSub st.composite.kind k = true) : HeapBelow m (.type s) k
  | noFunc {t : Nat} {st : SubType} (hst : m.types[t]? = some st)
      (hkind : st.composite.kind = .func) : HeapBelow m .noFunc (.type t)
  | none {t : Nat} {st : SubType} (hst : m.types[t]? = some st)
      (hkind : st.composite.kind ≠ .func) : HeapBelow m .none (.type t)

theorem absSub_refl (h : HeapType) : absSub h h = true := by
  simp [absSub]

theorem absSub_cases {a b : HeapType} (h : absSub a b = true) :
    a = b ∨ (a = .eq ∧ b = .any) ∨
    ((a = .i31 ∨ a = .struct ∨ a = .array) ∧ (b = .eq ∨ b = .any)) ∨
    (a = .none ∧ b ∈ [.any, .eq, .i31, .struct, .array]) ∨
    (a = .noFunc ∧ b = .func) ∨ (a = .noExternal ∧ b = .external) ∨ (a = .noExn ∧ b = .exn) := by
  unfold absSub at h
  rcases Bool.or_eq_true_iff.mp h with h | h
  · exact .inl (of_decide_eq_true h)
  · refine .inr ?_
    split at h <;> simp_all only [decide_eq_true_eq, true_or, or_true, true_and, reduceCtorEq]

theorem absSub_trans {a b c : HeapType} (h : absSub a b = true) (h' : absSub b c = true) :
    absSub a c = true := by
  rcases absSub_cases h with rfl | ⟨rfl, rfl⟩ | ⟨ha, hb⟩ | ⟨rfl, hb⟩ | ⟨rfl, rfl⟩ | ⟨rfl, rfl⟩ |
    ⟨rfl, rfl⟩
  · exact h'
  · cases c <;> first | rfl | cases h'
  · rcases ha with rfl | rfl | rfl <;> rcases hb with rfl | rfl <;> cases c <;>
      first | rfl | cases h'
  · simp only [List.mem_cons, List.not_mem_nil, or_false] at hb
    rcases hb with rfl | rfl | rfl | rfl | rfl <;> cases c <;> first | rfl | cases h'
  all_goals cases c <;> first | rfl | cases h'

theorem absSub_type {a : HeapType} {t : Nat} (h : absSub a (.type t) = true) : a = .type t := by
  cases a <;> simp_all [absSub]

theorem type_absSub {s : Nat} {k : HeapType} (h : absSub (.type s) k = true) : k = .type s := by
  simp_all [absSub]

theorem CompositeType.kind_cases (c : CompositeType) :
    c.kind = .func ∨ c.kind = .struct ∨ c.kind = .array := by
  cases c <;> simp [CompositeType.kind]

theorem heapBelow_of_heapSub {h k : HeapType} (hsub : heapSub? fuel m h k = some true) :
    HeapBelow m h k := by
  unfold heapSub? at hsub
  split at hsub
  · rename_i heq
    subst heq
    exact .abs (absSub_refl _)
  split at hsub
  · exact .types (below_of_walk hsub)
  · split at hsub
    · rename_i st hst
      exact .kind hst (Option.some.inj hsub)
    · cases hsub
  · split at hsub
    · rename_i st hst
      exact .noFunc hst (of_decide_eq_true (Option.some.inj hsub))
    · cases hsub
  · split at hsub
    · rename_i st hst
      exact .none hst (of_decide_eq_true (Option.some.inj hsub))
    · cases hsub
  · exact .abs (Option.some.inj hsub)

theorem heapSub_of_heapBelow (hm : Scoped m) (hinner : NoInnerSupertype m) {h k : HeapType}
    (hh : h.Over m) (hk : k.Over m) :
    ∃ r, heapSub? (comparisonDepth m m) m h k = some r ∧ (HeapBelow m h k → r = true) := by
  unfold heapSub?
  split
  · exact ⟨true, rfl, fun _ => rfl⟩
  rename_i hne
  split
  · rename_i s t
    have hs : s < m.types.length := hh s List.mem_cons_self
    have ht : t < m.types.length := hk t List.mem_cons_self
    obtain ⟨r, hr, htrue⟩ := walk_of_below hm hinner hs ht (Nat.lt_succ_of_lt hs)
    refine ⟨r, hr, fun hbelow => ?_⟩
    cases hbelow with
    | abs hsub => exact absurd (absSub_type hsub) hne
    | types hbelow => exact htrue hbelow
    | kind _ hsub =>
        rename_i st _
        rcases st.composite.kind_cases with hkind | hkind | hkind <;> rw [hkind] at hsub <;>
          cases absSub_type hsub
  · rename_i s hsup
    have hs : s < m.types.length := hh s List.mem_cons_self
    rw [List.getElem?_eq_getElem hs]
    refine ⟨_, rfl, fun hbelow => ?_⟩
    cases hbelow with
    | abs hsub => exact absurd (type_absSub hsub).symm hne
    | types hbelow => exact (hsup _ rfl).elim
    | kind hst hsub =>
        rw [List.getElem?_eq_getElem hs] at hst
        cases hst
        exact hsub
  · rename_i t
    have ht : t < m.types.length := hk t List.mem_cons_self
    rw [List.getElem?_eq_getElem ht]
    refine ⟨_, rfl, fun hbelow => ?_⟩
    cases hbelow with
    | abs hsub => cases absSub_type hsub
    | noFunc hst hkind =>
        rw [List.getElem?_eq_getElem ht] at hst
        cases hst
        exact decide_eq_true hkind
  · rename_i t
    have ht : t < m.types.length := hk t List.mem_cons_self
    rw [List.getElem?_eq_getElem ht]
    refine ⟨_, rfl, fun hbelow => ?_⟩
    cases hbelow with
    | abs hsub => cases absSub_type hsub
    | none hst hkind =>
        rw [List.getElem?_eq_getElem ht] at hst
        cases hst
        exact decide_eq_true hkind
  · rename_i hnotype _ hnofunc hnone
    refine ⟨_, rfl, fun hbelow => ?_⟩
    cases hbelow with
    | abs hsub => exact hsub
    | types _ => exact (hnotype _ rfl).elim
    | kind _ _ => exact (hnotype _ rfl).elim
    | noFunc _ _ => exact (hnofunc _ rfl rfl).elim
    | none _ _ => exact (hnone _ rfl rfl).elim

theorem HeapBelow.trans (hm : Scoped m) {h k l : HeapType} (hh : h.Over m) (hk : k.Over m)
    (hl : l.Over m) (h₁ : HeapBelow m h k) (h₂ : HeapBelow m k l) :
    HeapBelow m h l := by
  cases h₁ with
  | abs hsub =>
      cases h₂ with
      | abs hsub' => exact .abs (absSub_trans hsub hsub')
      | types hbelow =>
          obtain rfl := absSub_type hsub
          exact .types hbelow
      | kind hst hsub' =>
          obtain rfl := absSub_type hsub
          exact .kind hst hsub'
      | noFunc hst hkind =>
          obtain rfl := absSub_noFunc hsub
          exact .noFunc hst hkind
      | none hst hkind =>
          obtain rfl := absSub_none hsub
          exact .none hst hkind
  | @types s t hbelow =>
      have hs : s < m.types.length := hh s List.mem_cons_self
      have ht : t < m.types.length := hk t List.mem_cons_self
      obtain ⟨st, tt, hst, htt, hkind⟩ := hbelow.kind hm hs ht
      cases h₂ with
      | abs hsub =>
          obtain rfl := type_absSub hsub
          exact .types hbelow
      | types hbelow' => exact .types (hbelow.trans hm hs ht hbelow')
      | kind htt' hsub =>
          rw [htt] at htt'
          cases htt'
          exact .kind hst (hkind ▸ hsub)
  | @kind s st k hst hsub =>
      cases h₂ with
      | abs hsub' => exact .kind hst (absSub_trans hsub hsub')
      | _ => 
        rcases st.composite.kind_cases with hkind | hkind | hkind <;> rw [hkind] at hsub <;>
          simp [absSub] at hsub
  | @noFunc t st hst hkind =>
      have ht : t < m.types.length := hk t List.mem_cons_self
      cases h₂ with
      | abs hsub =>
          obtain rfl := type_absSub hsub
          exact .noFunc hst hkind
      | @types _ u hbelow =>
          obtain ⟨st', ut, hst', hut, hkind'⟩ := hbelow.kind hm ht (hl u List.mem_cons_self)
          rw [hst] at hst'
          cases hst'
          exact .noFunc hut (hkind' ▸ hkind)
      | kind hst' hsub =>
          rw [hst] at hst'
          cases hst'
          rw [hkind] at hsub
          exact .abs (absSub_trans rfl hsub)
  | @none t st hst hkind =>
      have ht : t < m.types.length := hk t List.mem_cons_self
      cases h₂ with
      | abs hsub =>
          obtain rfl := type_absSub hsub
          exact .none hst hkind
      | @types _ u hbelow =>
          obtain ⟨st', ut, hst', hut, hkind'⟩ := hbelow.kind hm ht (hl u List.mem_cons_self)
          rw [hst] at hst'
          cases hst'
          exact .none hut (hkind' ▸ hkind)
      | kind hst' hsub =>
          rw [hst] at hst'
          cases hst'
          rcases st.composite.kind_cases with hfunc | hstruct | harray
          · exact absurd hfunc hkind
          · rw [hstruct] at hsub
            exact .abs (absSub_trans rfl hsub)
          · rw [harray] at hsub
            exact .abs (absSub_trans rfl hsub)

/-! ## Hierarchies -/

theorem absSub_top {h k : HeapType} (hsub : absSub h k = true) :
    topHeap m h = topHeap m k := by
  rcases absSub_cases hsub with rfl | ⟨rfl, rfl⟩ | ⟨ha, hb⟩ | ⟨rfl, hb⟩ | ⟨rfl, rfl⟩ | ⟨rfl, rfl⟩ |
    ⟨rfl, rfl⟩
  case inr.inr.inl => rcases ha with rfl | rfl | rfl <;> rcases hb with rfl | rfl <;> rfl
  case inr.inr.inr.inl =>
    simp only [List.mem_cons, List.not_mem_nil, or_false] at hb
    rcases hb with rfl | rfl | rfl | rfl | rfl <;> rfl
  all_goals rfl

theorem topHeap_type {s : Nat} {st : SubType} (hst : m.types[s]? = some st) :
    topHeap m (.type s) = topHeap m st.composite.kind := by
  simp only [topHeap, hst]
  rcases st.composite.kind_cases with hkind | hkind | hkind <;> rw [hkind] <;> rfl

theorem HeapBelow.top (hm : Scoped m) {h k : HeapType} (hh : h.Over m) (hk : k.Over m)
    (hbelow : HeapBelow m h k) : topHeap m h = topHeap m k := by
  cases hbelow with
  | abs hsub => exact absSub_top hsub
  | @types s t hbelow =>
      obtain ⟨st, tt, hst, htt, hkind⟩ :=
        hbelow.kind hm (hh s List.mem_cons_self) (hk t List.mem_cons_self)
      rw [topHeap_type hst, topHeap_type htt, hkind]
  | kind hst hsub => exact (topHeap_type hst).trans (absSub_top hsub)
  | noFunc hst hkind =>
      rw [topHeap_type hst, hkind]
      rfl
  | @none t st hst hkind =>
      rw [topHeap_type hst]
      rcases st.composite.kind_cases with hfunc | hstruct | harray
      · exact absurd hfunc hkind
      · rw [hstruct]
        rfl
      · rw [harray]
        rfl

/-- The bottom of a hierarchy, by the top of it. -/
inductive Bottom : HeapType → HeapType → Prop where
  | none : Bottom .none .any
  | noFunc : Bottom .noFunc .func
  | noExternal : Bottom .noExternal .external
  | noExn : Bottom .noExn .exn

theorem heapBelow_bottom {bottom top k : HeapType} (hbottom : Bottom bottom top) (hk : k.Over m)
    (htop : topHeap m k = top) : HeapBelow m bottom k := by
  cases k with
  | type t =>
      have ht : t < m.types.length := hk t List.mem_cons_self
      have hst := List.getElem?_eq_getElem ht
      rw [topHeap_type hst] at htop
      rcases CompositeType.kind_cases m.types[t].composite with hkind | hkind | hkind <;>
        rw [hkind] at htop <;> subst htop <;> cases hbottom
      · exact .noFunc hst hkind
      · exact .none hst (by rw [hkind]; nofun)
      · exact .none hst (by rw [hkind]; nofun)
  | _ => cases hbottom <;> first | exact .abs rfl | cases htop

/-! ## Value types, and the relation as a whole -/

/-- Value types are subtypes by equality, references by nullability and heap
type. -/
inductive ValBelow (m : Module) : ValType → ValType → Prop where
  | refl (a : ValType) : ValBelow m a a
  | ref {a b : RefType} (hnull : a.nullable = true → b.nullable = true)
      (hheap : HeapBelow m a.heap b.heap) : ValBelow m (.ref a) (.ref b)

theorem valBelow_of_valSub {a b : ValType} (h : valSub? fuel m b a = some true) : ValBelow m a b := by
  unfold valSub? at h
  split at h
  · rename_i heq
    subst heq
    exact .refl b
  split at h
  · unfold refSub? at h
    split at h
    · cases h
    · rename_i hnull
      refine .ref (fun ha => ?_) (heapBelow_of_heapSub h)
      simpa [ha] using hnull
  · cases h

theorem valSub_of_valBelow (hm : Scoped m) (hinner : NoInnerSupertype m) {a b : ValType} (ha : a.Over m)
    (hb : b.Over m) :
    ∃ r, valSub? (comparisonDepth m m) m b a = some r ∧ (ValBelow m a b → r = true) := by
  unfold valSub?
  split
  · exact ⟨true, rfl, fun _ => rfl⟩
  rename_i hne
  split
  · rename_i e a
    unfold refSub?
    split
    · rename_i hnull
      rw [Bool.and_eq_true, Bool.not_eq_true'] at hnull
      refine ⟨false, rfl, fun hbelow => ?_⟩
      cases hbelow with
      | refl => exact absurd rfl hne
      | ref hn _ =>
          rw [hn hnull.2] at hnull
          cases hnull.1
    · obtain ⟨r, hr, htrue⟩ := heapSub_of_heapBelow hm hinner (h := a.heap) (k := e.heap) ha hb
      refine ⟨r, hr, fun hbelow => ?_⟩
      cases hbelow with
      | refl => exact absurd rfl hne
      | ref _ hheap => exact htrue hheap
  · rename_i href
    refine ⟨false, rfl, fun hbelow => ?_⟩
    cases hbelow with
    | refl => exact absurd rfl hne
    | ref _ _ => exact (href _ _ rfl rfl).elim

theorem ValBelow.trans (hm : Scoped m) {a b c : ValType} (ha : a.Over m) (hb : b.Over m) (hc : c.Over m)
    (h₁ : ValBelow m a b) (h₂ : ValBelow m b c) : ValBelow m a c := by
  cases h₁ with
  | refl => exact h₂
  | ref hnull hheap =>
      cases h₂ with
      | refl => exact .ref hnull hheap
      | ref hnull' hheap' =>
          exact .ref (fun h => hnull' (hnull h)) (hheap.trans hm ha hb hc hheap')

/-- The hierarchy of a value type: its own, or that of its heap type. -/
def hierarchyOf (m : Module) : ValType → ValType
  | .ref r => .ref ⟨true, topHeap m r.heap⟩
  | a => a

theorem ValBelow.hierarchy (hm : Scoped m) {a b : ValType} (ha : a.Over m) (hb : b.Over m)
    (h : ValBelow m a b) : hierarchyOf m a = hierarchyOf m b := by
  cases h with
  | refl => rfl
  | ref _ hheap => rw [hierarchyOf, hierarchyOf, hheap.top hm ha hb]

/-- The body machine's comparison comes to an end with a subtype. -/
def HeapSub (m : Module) (sub sup : HeapType) : Prop :=
  ∃ fuel, heapSub? fuel m sub sup = some true

def ValSub (m : Module) (sub sup : ValType) : Prop :=
  ∃ fuel, valSub? fuel m sup sub = some true

/-- What subtyping over a module promises. -/
structure Coincides (m : Module) : Prop where
  heaps : ∀ fuel h k, heapMatches fuel m h k = heapSub? fuel m h k
  vals : ∀ fuel a b, valtypeMatches fuel m a b = valSub? fuel m b a
  heapEnds : ∀ h k, h.Over m → k.Over m → ∃ fuel, (heapSub? fuel m h k).isSome
  valEnds : ∀ a b, a.Over m → b.Over m → ∃ fuel, (valSub? fuel m b a).isSome
  heapRefl : ∀ h, HeapSub m h h
  valRefl : ∀ a, ValSub m a a
  heapTrans : ∀ h k l, h.Over m → k.Over m → l.Over m → HeapSub m h k → HeapSub m k l → HeapSub m h l
  valTrans : ∀ a b c, a.Over m → b.Over m → c.Over m → ValSub m a b → ValSub m b c → ValSub m a c
  heapEquivalent : ∀ h k, h.Over m → k.Over m → h.Lift (Equivalent m m) k → HeapSub m h k
  valEquivalent : ∀ a b, a.Over m → b.Over m → a.Lift (Equivalent m m) b → ValSub m a b
  bottoms : ∀ bottom top k, Bottom bottom top → k.Over m →
    (HeapSub m bottom k ↔ topHeap m k = top)
  heapHierarchies : ∀ h k, h.Over m → k.Over m → HeapSub m h k → topHeap m h = topHeap m k
  valHierarchies : ∀ a b, a.Over m → b.Over m → ValSub m a b → hierarchyOf m a = hierarchyOf m b

section Iff

variable {m : Module} (hm : Scoped m)

include hm

/-- A type with a supertype of its own group is never told to be its subtype. -/
theorem heapSub_never_ends {i p : Nat} {st : SubType} (hst : m.types[i]? = some st)
    (hp : p ∈ st.supertypes) (hinner : offsetIn (m.groupOf i) p ≠ none) (fuel : Nat) :
    heapSub? fuel m (.type i) (.type p) = none := by
  have hi := (List.getElem?_eq_some_iff.mp hst).1
  have hless := (hm.parent hst p hp).1
  have hvalid : p < m.types.length := Nat.lt_trans hless hi
  have hin := offsetIn_eq_none.not.mp hinner
  rw [not_not] at hin
  have hsame : m.groupOf p = m.groupOf i := hm.member hi hin.1 hin.2
  have hparent : m.parent? i = some p := by
    refine declares_iff.mpr ⟨st, hst, ?_⟩
    match hs : st.supertypes, hp, hm.single hst with
    | [q], hp, _ => rw [List.mem_singleton.mp hp, List.head?_cons]
  have hself : indicesEquivalent m m fuel p p = none := by
    cases hr : indicesEquivalent m m fuel p p with
    | none => rfl
    | some r =>
        cases r with
        | true => exact absurd hr (hm.never_holds hst hp hinner hvalid hsame)
        | false => exact absurd hr ((hm.same_refl hvalid).ne_false hm hm fuel)
  have hlen : ∃ hops, m.types.length = hops + 1 := ⟨m.types.length - 1, by omega⟩
  obtain ⟨hops, hlen⟩ := hlen
  have hne : HeapType.type i ≠ HeapType.type p := fun h => by
    have := HeapType.type.inj h
    omega
  rw [heapSub?, if_neg hne, hlen, walkSupertypes]
  cases fuel with
  | zero => rfl
  | succ fuel =>
      have hgroup := hm.group hi
      have hfalse : indicesEquivalent m m (fuel + 1) i p = some false := by
        rw [indicesEquivalent, if_pos]
        rw [hsame]
        omega
      rw [hfalse]
      dsimp only
      rw [hparent]
      dsimp only
      rw [walkSupertypes, hself]

theorem heapSub_iff (hinner : NoInnerSupertype m) {h k : HeapType} (hh : h.Over m) (hk : k.Over m) :
    HeapSub m h k ↔ HeapBelow m h k := by
  constructor
  · rintro ⟨fuel, hsub⟩
    exact heapBelow_of_heapSub hsub
  · intro hbelow
    obtain ⟨r, hr, htrue⟩ := heapSub_of_heapBelow hm hinner hh hk
    rw [htrue hbelow] at hr
    exact ⟨_, hr⟩

theorem valSub_iff (hinner : NoInnerSupertype m) {a b : ValType} (ha : a.Over m) (hb : b.Over m) :
    ValSub m a b ↔ ValBelow m a b := by
  constructor
  · rintro ⟨fuel, hsub⟩
    exact valBelow_of_valSub hsub
  · intro hbelow
    obtain ⟨r, hr, htrue⟩ := valSub_of_valBelow hm hinner ha hb
    rw [htrue hbelow] at hr
    exact ⟨_, hr⟩

end Iff

theorem heapBelow_of_lift {h k : HeapType} (hlift : h.Lift (Equivalent m m) k) :
    HeapBelow m h k := by
  unfold HeapType.Lift at hlift
  split at hlift
  · exact .types ⟨_, .refl, hlift⟩
  · subst hlift
    exact .abs (absSub_refl _)

theorem valBelow_of_lift {a b : ValType} (hlift : a.Lift (Equivalent m m) b) :
    ValBelow m a b := by
  unfold ValType.Lift at hlift
  split at hlift
  · exact .ref (fun h => hlift.1 ▸ h) (heapBelow_of_lift hlift.2)
  · subst hlift
    exact .refl _

theorem Bottom.over {bottom top : HeapType} (h : Bottom bottom top) :
    bottom.Over m ∧ topHeap m bottom = top := by
  cases h <;> exact ⟨nofun, rfl⟩

theorem coincides_iff (m : Module) (haccepted : Accepted m) :
    Coincides m ↔ NoInnerSupertype m := by
  have hm := haccepted.scoped
  constructor
  · intro h i st hst p hp
    by_contra hinner
    have hi := (List.getElem?_eq_some_iff.mp hst).1
    have hless := (hm.parent hst p hp).1
    have hover : ∀ x < m.types.length, HeapType.Over m (.type x) := by
      intro x hx y hy
      rw [List.mem_singleton.mp hy]
      exact hx
    obtain ⟨fuel, hends⟩ := h.heapEnds (.type i) (.type p) (hover i hi) (hover p (by omega))
    rw [heapSub_never_ends hm hst hp hinner fuel] at hends
    cases hends
  · intro hinner
    exact {
      heaps := fun _ _ _ => heapMatches_eq_heapSub
      vals := fun _ _ _ => valtypeMatches_eq_valSub
      heapEnds := fun h k hh hk => by
        obtain ⟨r, hr, -⟩ := heapSub_of_heapBelow hm hinner hh hk
        exact ⟨_, Option.isSome_of_eq_some hr⟩
      valEnds := fun a b ha hb => by
        obtain ⟨r, hr, -⟩ := valSub_of_valBelow hm hinner ha hb
        exact ⟨_, Option.isSome_of_eq_some hr⟩
      heapRefl := fun h => ⟨0, if_pos rfl⟩
      valRefl := fun a => ⟨0, if_pos rfl⟩
      heapTrans := fun h k l hh hk hl h₁ h₂ => (heapSub_iff hm hinner hh hl).mpr
        (((heapSub_iff hm hinner hh hk).mp h₁).trans hm hh hk hl ((heapSub_iff hm hinner hk hl).mp h₂))
      valTrans := fun a b c ha hb hc h₁ h₂ => (valSub_iff hm hinner ha hc).mpr
        (((valSub_iff hm hinner ha hb).mp h₁).trans hm ha hb hc ((valSub_iff hm hinner hb hc).mp h₂))
      heapEquivalent := fun h k hh hk hlift =>
        (heapSub_iff hm hinner hh hk).mpr (heapBelow_of_lift hlift)
      valEquivalent := fun a b ha hb hlift =>
        (valSub_iff hm hinner ha hb).mpr (valBelow_of_lift hlift)
      bottoms := fun bottom top k hbottom hk => by
        obtain ⟨hover, htop⟩ := Bottom.over (m := m) hbottom
        rw [heapSub_iff hm hinner hover hk]
        constructor
        · intro hbelow
          rw [← hbelow.top hm hover hk, htop]
        · exact heapBelow_bottom hbottom hk
      heapHierarchies := fun h k hh hk hsub => ((heapSub_iff hm hinner hh hk).mp hsub).top hm hh hk
      valHierarchies := fun a b ha hb hsub =>
        ((valSub_iff hm hinner ha hb).mp hsub).hierarchy hm ha hb }

/-- The subtype of a rec group is compared with its supertype for ever. -/
theorem innerPair_not_coincides : Accepted innerPair ∧
    (∀ fuel, heapSub? fuel innerPair (.type 1) (.type 0) = none) ∧ ¬ Coincides innerPair := by
  have haccepted : Accepted innerPair := ⟨1, rfl⟩
  have hnone : ∀ fuel, heapSub? fuel innerPair (.type 1) (.type 0) = none :=
    heapSub_never_ends haccepted.scoped rfl List.mem_cons_self nofun
  refine ⟨haccepted, hnone, fun h => ?_⟩
  obtain ⟨fuel, hends⟩ := h.heapEnds (.type 1) (.type 0) (by decide) (by decide)
  rw [hnone] at hends
  cases hends

theorem outerPair_coincides : Accepted outerPair ∧ Coincides outerPair :=
  have haccepted : Accepted outerPair := ⟨1, rfl⟩
  ⟨haccepted, (coincides_iff outerPair haccepted).mpr noInnerSupertype_outerPair⟩

end Slag.Wasm
