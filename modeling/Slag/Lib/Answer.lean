import Mathlib.Data.List.Forall2

/-!
Tests that may not come to an end. `none` is a run without an answer; a
conjunction stops at the first test that fails.
-/

namespace Slag.Answer

variable {α β : Type}

/-- The second test is run only when the first one holds. -/
def both (x y : Option Bool) : Option Bool :=
  match x with
  | some true => y
  | r => r

/-- Every element in order, up to the first one that fails. -/
def every (p : α → Option Bool) : List α → Option Bool
  | [] => some true
  | a :: l => both (p a) (every p l)

/-- Two lists of one length, element by element. -/
def everyPair (p : α → β → Option Bool) (l : List α) (k : List β) : Option Bool :=
  both (some (l.length == k.length)) (every (fun q => p q.1 q.2) (l.zip k))

/-- The run comes to an end with the truth of a property. -/
def Tells (answer : Option Bool) (P : Prop) : Prop :=
  (P ∧ answer = some true) ∨ (¬ P ∧ answer = some false)

theorem tells_true {P : Prop} : Tells (some true) P ↔ P := by
  simp only [Tells, and_true, Option.some.injEq, Bool.true_eq_false, and_false, or_false]

theorem tells_false {P : Prop} : Tells (some false) P ↔ ¬ P := by
  simp only [Tells, Option.some.injEq, Bool.false_eq_true, and_false, and_true, false_or]

theorem not_tells_none {P : Prop} : ¬ Tells none P := by
  rintro (⟨-, ⟨⟩⟩ | ⟨-, ⟨⟩⟩)

theorem both_eq_true {x y : Option Bool} :
    both x y = some true ↔ x = some true ∧ y = some true := by
  unfold both
  split
  · exact ⟨fun h => ⟨rfl, h⟩, And.right⟩
  · rename_i hx
    exact ⟨fun h => absurd h hx, fun h => absurd h.1 hx⟩

/-- The second run answers wherever the first one does, and the same. -/
def Extends (x y : Option Bool) : Prop :=
  ∀ r, x = some r → y = some r

theorem Extends.refl (x : Option Bool) : Extends x x :=
  fun _ h => h

theorem extends_none (y : Option Bool) : Extends none y := by
  rintro _ ⟨⟩

theorem Extends.both {x x' y y' : Option Bool} (hx : Extends x x')
    (hy : x = some true → Extends y y') : Extends (both x y) (both x' y') := by
  rcases x with _ | _ | _
  · exact extends_none _
  · rw [hx _ rfl]
    exact .refl _
  · rw [hx _ rfl]
    exact hy rfl

variable {l : List α} {k : List β} {R : α → β → Prop}

theorem Extends.every {p p' : α → Option Bool} (h : ∀ a ∈ l, Extends (p a) (p' a)) :
    Extends (every p l) (every p' l) := by
  induction l with
  | nil => exact .refl _
  | cons a l ih =>
      obtain ⟨ha, hl⟩ := List.forall_mem_cons.mp h
      exact ha.both fun _ => ih hl

theorem Extends.everyPair {p p' : α → β → Option Bool} (h : ∀ a ∈ l, ∀ b ∈ k, Extends (p a b) (p' a b)) :
    Extends (everyPair p l k) (everyPair p' l k) := by
  refine (Extends.refl _).both fun _ => .every fun q hq => ?_
  exact h q.1 (List.of_mem_zip hq).1 q.2 (List.of_mem_zip hq).2

theorem both_isSome {x y : Option Bool} (hx : x.isSome) (hy : x = some true → y.isSome) :
    (both x y).isSome := by
  unfold both
  split
  · exact hy rfl
  · exact hx

theorem every_eq_true {p : α → Option Bool} :
    every p l = some true ↔ ∀ a ∈ l, p a = some true := by
  induction l with
  | nil => exact ⟨fun _ => nofun, fun _ => rfl⟩
  | cons a l ih => rw [every, both_eq_true, ih, List.forall_mem_cons]

theorem every_isSome {p : α → Option Bool} (h : ∀ a ∈ l, (p a).isSome) :
    (every p l).isSome := by
  induction l with
  | nil => rfl
  | cons a l ih =>
      obtain ⟨ha, hl⟩ := List.forall_mem_cons.mp h
      exact both_isSome ha fun _ => ih hl

theorem everyPair_eq_true {p : α → β → Option Bool} :
    everyPair p l k = some true ↔ List.Forall₂ (fun a b => p a b = some true) l k := by
  rw [everyPair, both_eq_true, every_eq_true, List.forall₂_iff_zip, Option.some.injEq, beq_iff_eq]
  refine and_congr_right fun _ => ⟨fun h a b hab => h (a, b) hab, fun h q hq => h hq⟩

theorem everyPair_isSome {p : α → β → Option Bool} (h : ∀ a ∈ l, ∀ b ∈ k, (p a b).isSome) :
    (everyPair p l k).isSome := by
  refine both_isSome rfl fun _ => every_isSome fun q hq => ?_
  exact h q.1 (List.of_mem_zip hq).1 q.2 (List.of_mem_zip hq).2

/-! ## Pointwise relations on lists -/

theorem forall₂_imp_mem {R R' : α → β → Prop} (h : ∀ a ∈ l, ∀ b ∈ k, R a b → R' a b)
    (hR : List.Forall₂ R l k) : List.Forall₂ R' l k := by
  induction hR with
  | nil => exact .nil
  | cons hab _ ih =>
      refine .cons (h _ List.mem_cons_self _ List.mem_cons_self hab) (ih fun a ha b hb => ?_)
      exact h a (List.mem_cons_of_mem _ ha) b (List.mem_cons_of_mem _ hb)

theorem forall₂_comp {γ : Type} {R' : β → γ → Prop} {T : α → γ → Prop}
    (h : ∀ a b c, R a b → R' b c → T a c) {j : List γ} (hR : List.Forall₂ R l k)
    (hR' : List.Forall₂ R' k j) : List.Forall₂ T l j := by
  induction hR generalizing j with
  | nil =>
      cases hR'
      exact .nil
  | cons hab _ ih =>
      cases hR' with
      | cons hbc hrest => exact .cons (h _ _ _ hab hbc) (ih hrest)

theorem forall₂_exists_of_mem {l' : List β} (h : List.Forall₂ R l l') {b : β} (hb : b ∈ l') :
    ∃ a ∈ l, R a b := by
  induction h with
  | nil => cases hb
  | cons hab _ ih =>
      rcases List.mem_cons.mp hb with rfl | hb
      · exact ⟨_, List.mem_cons_self, hab⟩
      · obtain ⟨a, ha, hr⟩ := ih hb
        exact ⟨a, List.mem_cons_of_mem _ ha, hr⟩

theorem forall₂_getElem? {i : Nat} {a : α} (hR : List.Forall₂ R l k) (ha : l[i]? = some a) :
    ∃ b, k[i]? = some b ∧ R a b := by
  induction hR generalizing i with
  | nil => cases ha
  | cons hab _ ih =>
      cases i with
      | zero =>
          cases ha
          exact ⟨_, rfl, hab⟩
      | succ i => exact ih ha

theorem getElem?_of_isPrefix {l l' : List α} {i : Nat} {a : α} (h : l <+: l') (ha : l[i]? = some a) :
    l'[i]? = some a := by
  obtain ⟨hi, rfl⟩ := List.getElem?_eq_some_iff.mp ha
  exact List.prefix_iff_getElem?.mp h i hi

end Slag.Answer
