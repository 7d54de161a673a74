import Slag.Wasm.Equivalence

/-!
When the comparison of two types comes to an end. Each step goes to earlier
groups on one side at least, or to the same two groups again; so the depth of
the sections is enough, and where it is not the comparison goes on for ever.
-/

namespace Slag.Wasm

open Slag.Answer

/-! ## More answers -/

section More

variable {indices indices' : Nat → Nat → Option Bool} {groupA groupB : Nat × Nat}

theorem heapsEquivalent_extends {a b : HeapType} (h : ∀ x ∈ a.refs, ∀ y ∈ b.refs,
      offsetIn groupA x = none → offsetIn groupB y = none → Extends (indices x y) (indices' x y)) :
    Extends (heapsEquivalent indices groupA groupB a b)
      (heapsEquivalent indices' groupA groupB a b) := by
  unfold heapsEquivalent
  split
  · split
    · exact .refl _
    · exact h _ List.mem_cons_self _ List.mem_cons_self ‹_› ‹_›
    · exact .refl _
  · exact .refl _

theorem reftypesEquivalent_extends {a b : RefType} (h : ∀ x ∈ a.heap.refs, ∀ y ∈ b.heap.refs,
      offsetIn groupA x = none → offsetIn groupB y = none → Extends (indices x y) (indices' x y)) :
    Extends (reftypesEquivalent indices groupA groupB a b)
      (reftypesEquivalent indices' groupA groupB a b) :=
  (Extends.refl _).both fun _ => heapsEquivalent_extends h

theorem valtypesEquivalent_extends {a b : ValType} (h : ∀ x ∈ a.refs, ∀ y ∈ b.refs,
      offsetIn groupA x = none → offsetIn groupB y = none → Extends (indices x y) (indices' x y)) :
    Extends (valtypesEquivalent indices groupA groupB a b)
      (valtypesEquivalent indices' groupA groupB a b) := by
  unfold valtypesEquivalent
  split
  · exact reftypesEquivalent_extends h
  · exact .refl _

theorem fieldsEquivalent_extends {a b : FieldType} (h : ∀ x ∈ a.ty.refs, ∀ y ∈ b.ty.refs,
      offsetIn groupA x = none → offsetIn groupB y = none → Extends (indices x y) (indices' x y)) :
    Extends (fieldsEquivalent indices groupA groupB a b)
      (fieldsEquivalent indices' groupA groupB a b) := by
  refine (Extends.refl _).both fun _ => ?_
  obtain ⟨tyA, mutA⟩ := a
  obtain ⟨tyB, mutB⟩ := b
  dsimp only at h ⊢
  unfold storagesEquivalent
  split
  · exact reftypesEquivalent_extends h
  · exact .refl _

theorem compositesEquivalent_extends {a b : CompositeType} (h : ∀ x ∈ a.refs, ∀ y ∈ b.refs,
      offsetIn groupA x = none → offsetIn groupB y = none → Extends (indices x y) (indices' x y)) :
    Extends (compositesEquivalent indices groupA groupB a b)
      (compositesEquivalent indices' groupA groupB a b) := by
  unfold compositesEquivalent
  split
  · refine (Extends.refl _).both fun _ => Extends.both ?_ fun _ => ?_
    · refine .everyPair fun u hu v hv => valtypesEquivalent_extends fun x hx y hy => ?_
      exact h x (List.mem_append_left _ (List.mem_flatMap_of_mem hu hx)) y
        (List.mem_append_left _ (List.mem_flatMap_of_mem hv hy))
    · refine .everyPair fun u hu v hv => valtypesEquivalent_extends fun x hx y hy => ?_
      exact h x (List.mem_append_right _ (List.mem_flatMap_of_mem hu hx)) y
        (List.mem_append_right _ (List.mem_flatMap_of_mem hv hy))
  · refine .everyPair fun u hu v hv => fieldsEquivalent_extends fun x hx y hy => ?_
    exact h x (List.mem_flatMap_of_mem hu hx) y (List.mem_flatMap_of_mem hv hy)
  · exact fieldsEquivalent_extends h
  · exact .refl _

/-- The comparison of two members asks for their supertypes, and for references
that leave the groups. -/
theorem subtypeEquivalent_extends {a b : Option SubType}
    (hsups : ∀ subA ∈ a, ∀ subB ∈ b, ∀ p ∈ subA.supertypes, ∀ q ∈ subB.supertypes,
      Extends (indices p q) (indices' p q))
    (hrefs : ∀ subA ∈ a, ∀ subB ∈ b, ∀ x ∈ subA.composite.refs, ∀ y ∈ subB.composite.refs,
      offsetIn groupA x = none → offsetIn groupB y = none → Extends (indices x y) (indices' x y)) :
    Extends (subtypeEquivalent indices groupA groupB a b)
      (subtypeEquivalent indices' groupA groupB a b) := by
  unfold subtypeEquivalent
  split
  · refine (Extends.refl _).both fun _ => Extends.both (.everyPair ?_) fun _ => ?_
    · exact hsups _ rfl _ rfl
    · exact compositesEquivalent_extends (hrefs _ rfl _ rfl)
  · exact .refl _

end More

section Fuel

variable {ma mb : Module}

theorem indicesEquivalent_succ (fuel a b : Nat) :
    Extends (indicesEquivalent ma mb fuel a b) (indicesEquivalent ma mb (fuel + 1) a b) := by
  induction fuel generalizing a b with
  | zero => exact extends_none _
  | succ fuel ih =>
      rw [indicesEquivalent, indicesEquivalent]
      split
      · exact .refl _
      · refine .every fun offset _ => subtypeEquivalent_extends ?_ ?_
        · exact fun _ _ _ _ p _ q _ => ih p q
        · exact fun _ _ _ _ x _ y _ _ _ => ih x y

/-- Two types at the same position of two groups are compared by the groups. -/
theorem indicesEquivalent_aligned {a b x y fuel : Nat} (hx : ma.groupOf x = ma.groupOf a)
    (hy : mb.groupOf y = mb.groupOf b) (hpos : a - (ma.groupOf a).1 = b - (mb.groupOf b).1)
    (haligned : x - (ma.groupOf a).1 = y - (mb.groupOf b).1) :
    indicesEquivalent ma mb fuel x y = indicesEquivalent ma mb fuel a b := by
  cases fuel with
  | zero => rfl
  | succ fuel =>
      simp only [indicesEquivalent, hx, hy, hpos, haligned, ne_eq, not_true_eq_false, or_false]

/-- A type before the end of a group is in that group or in an earlier one. -/
theorem Scoped.group_le {m : Module} (hm : Scoped m) {a x : Nat} (ha : a < m.types.length)
    (hx : x < (m.groupOf a).1 + (m.groupOf a).2) : (m.groupOf x).1 ≤ (m.groupOf a).1 := by
  have hgroup := hm.group ha
  by_contra hlt
  have hle := (hm.group (show x < m.types.length by omega)).1
  rw [hm.member ha (show (m.groupOf a).1 ≤ x by omega) hx] at hlt
  exact hlt (Nat.le_refl _)

/-- A comparison that comes to an end does so at the depth of its groups. -/
theorem indicesEquivalent_depth (hma : Scoped ma) (hmb : Scoped mb) {fuel depth a b : Nat}
    (ha : a < ma.types.length) (hb : b < mb.types.length)
    (hdepth : (ma.groupOf a).1 + (mb.groupOf b).1 + 2 ≤ depth) :
    Extends (indicesEquivalent ma mb fuel a b) (indicesEquivalent ma mb depth a b) := by
  induction fuel generalizing depth a b with
  | zero => exact extends_none _
  | succ fuel ih =>
      cases hprev : indicesEquivalent ma mb fuel a b with
      | some r =>
          -- Nothing is added by the last unit of fuel.
          rw [indicesEquivalent_succ fuel a b r hprev, ih ha hb hdepth r hprev]
          exact .refl _
      | none =>
          obtain ⟨depth, rfl⟩ : ∃ k, depth = k + 1 := ⟨depth - 1, by omega⟩
          rw [indicesEquivalent, indicesEquivalent]
          split
          · exact .refl _
          rename_i hgroups
          rw [not_or, not_not, not_not] at hgroups
          obtain ⟨hlen, hpos⟩ := hgroups
          have hgroupA := hma.group ha
          have hgroupB := hmb.group hb
          -- A step to types before one of the groups.
          have hearlier : ∀ x y, x < (ma.groupOf a).1 + (ma.groupOf a).2 →
              y < (mb.groupOf b).1 + (mb.groupOf b).2 →
              offsetIn (ma.groupOf a) x = none ∨ offsetIn (mb.groupOf b) y = none →
              Extends (indicesEquivalent ma mb fuel x y) (indicesEquivalent ma mb depth x y) := by
            intro x y hx hy hout
            refine ih (by omega) (by omega) ?_
            have hleA := (hma.group (show x < ma.types.length by omega)).1
            have hleB := (hmb.group (show y < mb.types.length by omega)).1
            have hA := hma.group_le ha hx
            have hB := hmb.group_le hb hy
            rcases hout with hout | hout
            · have := lt_of_outside hout hx
              omega
            · have := lt_of_outside hout hy
              omega
          refine .every fun offset hoff => ?_
          have hoff := List.mem_range.mp hoff
          obtain ⟨-, hsameA⟩ := hma.at_offset ha hoff
          obtain ⟨-, hsameB⟩ := hmb.at_offset hb (hlen ▸ hoff)
          refine subtypeEquivalent_extends ?_ ?_
          · intro subA hA subB hB p hp q hq
            have hpa := (hma.parent hA p hp).1
            have hqb := (hmb.parent hB q hq).1
            by_cases hout : offsetIn (ma.groupOf a) p = none ∨ offsetIn (mb.groupOf b) q = none
            · exact hearlier p q (by omega) (by omega) hout
            rw [not_or, offsetIn_eq_none, offsetIn_eq_none, not_not, not_not] at hout
            have hgp := hma.member ha hout.1.1 hout.1.2
            have hgq := hmb.member hb hout.2.1 hout.2.2
            by_cases haligned : p - (ma.groupOf a).1 = q - (mb.groupOf b).1
            · -- The same groups again, which had no answer.
              rw [indicesEquivalent_aligned hgp hgq hpos haligned, hprev]
              exact extends_none _
            · cases fuel with
              | zero => exact extends_none _
              | succ fuel =>
                  obtain ⟨depth, rfl⟩ : ∃ k, depth = k + 1 := ⟨depth - 1, by omega⟩
                  rw [indicesEquivalent, indicesEquivalent, hgp, hgq, if_pos (.inr haligned),
                    if_pos (.inr haligned)]
                  exact .refl _
          · intro subA hA subB hB x hx y hy houtA houtB
            have hxa := hma.refs hA x hx
            have hyb := hmb.refs hB y hy
            rw [hsameA] at hxa
            rw [hsameB] at hyb
            exact hearlier x y hxa hyb (.inl houtA)

/-- Indices without a type are found different at once. -/
theorem indicesEquivalent_beyond (hma : Scoped ma) (hmb : Scoped mb) {fuel a b : Nat}
    (h : ma.types.length ≤ a ∨ mb.types.length ≤ b) :
    indicesEquivalent ma mb (fuel + 1) a b = some false := by
  rw [indicesEquivalent]
  split
  · rfl
  rename_i hgroups
  rw [not_or, not_not, not_not] at hgroups
  rcases h with h | h
  · simp only [hma.beyond h, List.range_one, every, Nat.add_zero, List.getElem?_eq_none h,
      subtypeEquivalent, both]
  · have hlen : (ma.groupOf a).2 = 1 := by rw [hgroups.1, hmb.beyond h]
    simp only [hlen, hmb.beyond h, List.range_one, every, Nat.add_zero, List.getElem?_eq_none h]
    cases ma.types[(ma.groupOf a).1]? <;> rfl

/-- Types that are the same are not found different. -/
theorem Same.ne_false (hma : Scoped ma) (hmb : Scoped mb) {a b : Nat} (h : Same ma mb a b)
    (fuel : Nat) : indicesEquivalent ma mb fuel a b ≠ some false := by
  induction fuel generalizing a b with
  | zero => rintro ⟨⟩
  | succ fuel ih =>
      classical
      -- Answers that know the types that are the same find these equal.
      let known : Nat → Nat → Option Bool := fun x y =>
        if Same ma mb x y then some true else indicesEquivalent ma mb fuel x y
      have hknown : ∀ x y, Same ma mb x y → Holds known x y := fun x y hxy => if_pos hxy
      have hextends : ∀ x y, Extends (indicesEquivalent ma mb fuel x y) (known x y) := by
        intro x y r hr
        by_cases hxy : Same ma mb x y
        · cases r with
          | true => exact hknown x y hxy
          | false => exact absurd hr (ih hxy)
        · exact (if_neg hxy).trans hr
      have hpositions : ∀ offset < (ma.groupOf a).2,
          Same ma mb ((ma.groupOf a).1 + offset) ((mb.groupOf b).1 + offset) :=
        fun _ hoff => h.at_offset hma hmb hoff
      obtain @⟨_, _, R, hR, hlen, hpos, hmembers⟩ := h
      intro hfalse
      rw [indicesEquivalent, if_neg (by omega)] at hfalse
      have hmember : ∀ offset, Extends
          (subtypeEquivalent (indicesEquivalent ma mb fuel) (ma.groupOf a) (mb.groupOf b)
            ma.types[(ma.groupOf a).1 + offset]? mb.types[(mb.groupOf b).1 + offset]?)
          (subtypeEquivalent known (ma.groupOf a) (mb.groupOf b)
            ma.types[(ma.groupOf a).1 + offset]? mb.types[(mb.groupOf b).1 + offset]?) :=
        fun offset => subtypeEquivalent_extends (fun _ _ _ _ p _ q _ => hextends p q)
          fun _ _ _ _ x _ y _ _ _ => hextends x y
      have hevery := Extends.every (l := List.range (ma.groupOf a).2) (fun offset _ => hmember offset)
        false hfalse
      have htrue : every (fun offset => subtypeEquivalent known (ma.groupOf a) (mb.groupOf b)
          ma.types[(ma.groupOf a).1 + offset]? mb.types[(mb.groupOf b).1 + offset]?)
          (List.range (ma.groupOf a).2) = some true := by
        refine every_eq_true.mpr fun offset hoff => ?_
        have hoff := List.mem_range.mp hoff
        obtain ⟨subA, subB, hA, hB, hfinal, -, hcomposite⟩ := hmembers offset hoff
        obtain ⟨subA', subB', hA', hB', -, hsups, -⟩ := (hpositions offset hoff).member hma hmb
        cases hA.symm.trans hA'
        cases hB.symm.trans hB'
        refine subtypeEquivalent_eq_true.mpr ⟨subA, subB, hA, hB, hfinal, hsups.imp hknown, ?_⟩
        exact hcomposite.imp fun x _ y _ hxy => hxy.imp fun _ _ hR' => hknown x y (hR x y hR')
      cases hevery.symm.trans htrue

end Fuel

/-! ## The comparison of two modules -/

/-- The comparison of two types comes to an end. -/
def Answered (ma mb : Module) (a b : Nat) : Prop :=
  ∃ fuel, (indicesEquivalent ma mb fuel a b).isSome

section Modules

variable {ma mb : Module} (hma : Scoped ma) (hmb : Scoped mb) {a b : Nat}

include hma hmb

theorem typeIndicesEquivalent_of_answer {fuel : Nat} {r : Bool}
    (h : indicesEquivalent ma mb fuel a b = some r) : typeIndicesEquivalent ma a mb b = some r := by
  unfold typeIndicesEquivalent comparisonDepth
  by_cases hvalid : a < ma.types.length ∧ b < mb.types.length
  · have hgroupA := hma.group hvalid.1
    have hgroupB := hmb.group hvalid.2
    exact indicesEquivalent_depth hma hmb hvalid.1 hvalid.2 (by omega) r h
  · rw [not_and_or, Nat.not_lt, Nat.not_lt] at hvalid
    cases fuel with
    | zero => cases h
    | succ fuel =>
        rw [indicesEquivalent_beyond hma hmb hvalid] at h ⊢
        exact h

/-- No answer at the depth of the sections is no answer at all. -/
theorem typeIndicesEquivalent_eq_none :
    typeIndicesEquivalent ma a mb b = none ↔ ¬ Answered ma mb a b := by
  constructor
  · rintro hnone ⟨fuel, hanswer⟩
    obtain ⟨r, hr⟩ := Option.isSome_iff_exists.mp hanswer
    cases hnone.symm.trans (typeIndicesEquivalent_of_answer hma hmb hr)
  · intro hnever
    rw [← Option.not_isSome_iff_eq_none]
    exact fun hanswer => hnever ⟨_, hanswer⟩

theorem typeIndicesEquivalent_eq_true :
    typeIndicesEquivalent ma a mb b = some true ↔ Same ma mb a b ∧ Answered ma mb a b := by
  constructor
  · intro h
    exact ⟨((equivalent_iff hma hmb).mp ⟨_, h⟩).1, _, Option.isSome_iff_exists.mpr ⟨true, h⟩⟩
  · rintro ⟨hsame, fuel, hanswer⟩
    obtain ⟨r, hr⟩ := Option.isSome_iff_exists.mp hanswer
    cases r with
    | true => exact typeIndicesEquivalent_of_answer hma hmb hr
    | false => exact absurd hr (hsame.ne_false hma hmb fuel)

theorem typeIndicesEquivalent_eq_false :
    typeIndicesEquivalent ma a mb b = some false ↔ ¬ Same ma mb a b ∧ Answered ma mb a b := by
  constructor
  · intro h
    exact ⟨fun hsame => hsame.ne_false hma hmb _ h, _, Option.isSome_iff_exists.mpr ⟨false, h⟩⟩
  · rintro ⟨hdiff, fuel, hanswer⟩
    obtain ⟨r, hr⟩ := Option.isSome_iff_exists.mp hanswer
    have hdepth := typeIndicesEquivalent_of_answer hma hmb hr
    cases r with
    | true => exact absurd ((typeIndicesEquivalent_eq_true hma hmb).mp hdepth).1 hdiff
    | false => exact hdepth

/-- The answer is whether the types are the same. -/
theorem typeIndicesEquivalent_tells :
    Tells (typeIndicesEquivalent ma a mb b) (Same ma mb a b) ↔ Answered ma mb a b := by
  rcases hanswer : typeIndicesEquivalent ma a mb b with _ | _ | _
  · exact iff_of_false not_tells_none ((typeIndicesEquivalent_eq_none hma hmb).mp hanswer)
  · obtain ⟨hdiff, hends⟩ := (typeIndicesEquivalent_eq_false hma hmb).mp hanswer
    exact iff_of_true (tells_false.mpr hdiff) hends
  · obtain ⟨hsame, hends⟩ := (typeIndicesEquivalent_eq_true hma hmb).mp hanswer
    exact iff_of_true (tells_true.mpr hsame) hends

end Modules

end Slag.Wasm
