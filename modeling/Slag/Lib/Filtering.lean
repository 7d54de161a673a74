import Mathlib.Data.List.Basic

/-!
Where the elements that a filter keeps stand in its result.
-/

namespace Slag

variable {α : Type*} {p : α → Bool} {l : List α} {a : α} {i k : Nat}

/-- What is kept stands behind what is kept before it. -/
theorem filter_getElem? (h : l[i]? = some a) (hp : p a = true) :
    (l.filter p)[(l.take i).countP p]? = some a := by
  induction l generalizing i with
  | nil => cases h
  | cons b l ih =>
      cases i with
      | zero =>
          cases h
          rw [List.filter_cons_of_pos hp]
          rfl
      | succ i =>
          have hrest := ih h
          cases hb : p b with
          | true => rwa [List.filter_cons_of_pos hb, List.take_succ_cons, List.countP_cons_of_pos hb]
          | false =>
              have hb' : ¬ p b = true := Bool.not_eq_true _ ▸ hb
              rwa [List.filter_cons_of_neg hb', List.take_succ_cons, List.countP_cons_of_neg hb']

theorem getElem?_filter (h : (l.filter p)[k]? = some a) :
    ∃ i, l[i]? = some a ∧ p a = true ∧ (l.take i).countP p = k := by
  induction l generalizing k with
  | nil => cases h
  | cons b l ih =>
      cases hb : p b with
      | true =>
          rw [List.filter_cons_of_pos hb] at h
          cases k with
          | zero =>
              cases h
              exact ⟨0, rfl, hb, rfl⟩
          | succ k =>
              obtain ⟨i, hi, ha, hk⟩ := ih h
              refine ⟨i + 1, hi, ha, ?_⟩
              rw [List.take_succ_cons, List.countP_cons_of_pos hb, hk]
      | false =>
          have hb' : ¬ p b = true := Bool.not_eq_true _ ▸ hb
          rw [List.filter_cons_of_neg hb'] at h
          obtain ⟨i, hi, ha, hk⟩ := ih h
          refine ⟨i + 1, hi, ha, ?_⟩
          rw [List.take_succ_cons, List.countP_cons_of_neg hb', hk]

/-- The order of what is kept is the old one. -/
theorem countP_take_lt (h : l[i]? = some a) (hp : p a = true) (hik : i < k) :
    (l.take i).countP p < (l.take k).countP p := by
  induction l generalizing i k with
  | nil => cases h
  | cons b l ih =>
      obtain ⟨k, rfl⟩ := Nat.exists_eq_add_one_of_ne_zero (Nat.ne_zero_of_lt hik)
      cases i with
      | zero =>
          cases h
          rw [List.take_succ_cons, List.countP_cons_of_pos hp]
          exact Nat.succ_pos _
      | succ i =>
          rw [List.take_succ_cons, List.take_succ_cons, List.countP_cons, List.countP_cons]
          exact Nat.add_lt_add_right (ih h (Nat.lt_of_succ_lt_succ hik)) _

end Slag
