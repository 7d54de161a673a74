import Mathlib.Data.List.Forall2

/-!
What holds of the value of a computation that may fail, if it returns one.
-/

namespace Slag

variable {ε α β : Type}

variable {f : α → Except ε β} {l : List α}

/-- A sequence returns what its parts return. -/
theorem bind_eq_ok {x : Except ε α} {b : β} :
    x >>= f = .ok b ↔ ∃ a, x = .ok a ∧ f a = .ok b := by
  cases x with
  | error e => exact ⟨nofun, fun ⟨_, h, _⟩ => nomatch h⟩
  | ok a => exact ⟨fun h => ⟨a, rfl, h⟩, fun ⟨_, h, hf⟩ => by cases h; exact hf⟩

theorem ok_bind (a : α) (f : α → Except ε β) : (Except.ok a >>= f) = f a := rfl

/-- A sequence fails where a part of it does. -/
theorem bind_eq_error {x : Except ε α} {e : ε} :
    x >>= f = .error e ↔ x = .error e ∨ ∃ a, x = .ok a ∧ f a = .error e := by
  cases x with
  | error d =>
      constructor
      · intro h
        cases h
        exact .inl rfl
      · rintro (h | ⟨_, h, -⟩)
        · cases h
          rfl
        · cases h
  | ok a =>
      constructor
      · exact fun h => .inr ⟨a, rfl, h⟩
      · rintro (h | ⟨_, h, hf⟩)
        · cases h
        · cases h
          exact hf

theorem bind_unit_eq_ok {x y : Except ε Unit} :
    (x >>= fun _ => y) = .ok () ↔ x = .ok () ∧ y = .ok () := by
  cases x with
  | error e => exact ⟨nofun, fun h => nomatch h.1⟩
  | ok u => exact ⟨fun h => ⟨rfl, h⟩, And.right⟩

/-- A loop of checks passes where each of them does. -/
theorem forM_eq_ok {f : α → Except ε Unit} :
    l.forM f = .ok () ↔ ∀ a ∈ l, f a = .ok () := by
  induction l with
  | nil => exact ⟨fun _ => nofun, fun _ => rfl⟩
  | cons a l ih =>
      rw [List.forall_mem_cons, ← ih]
      exact bind_unit_eq_ok

/-- A loop that collects results has one for each element. -/
theorem forall₂_of_mapM {bs : List β} (h : l.mapM f = .ok bs) :
    List.Forall₂ (fun a b => f a = .ok b) l bs := by
  induction l generalizing bs with
  | nil =>
      rw [List.mapM_nil] at h
      cases h
      exact .nil
  | cons a l ih =>
      rw [List.mapM_cons] at h
      obtain ⟨b, hb, h⟩ := bind_eq_ok.mp h
      obtain ⟨bs', hbs, h⟩ := bind_eq_ok.mp h
      cases h
      exact .cons hb (ih hbs)

/-- A loop that collects results does so where none of its steps fails. -/
theorem mapM_eq_ok {g : α → β} (h : ∀ a ∈ l, f a = .ok (g a)) :
    l.mapM f = .ok (l.map g) := by
  induction l with
  | nil => rfl
  | cons a l ih =>
      obtain ⟨ha, hl⟩ := List.forall_mem_cons.mp h
      rw [List.mapM_cons, ha, ih hl]
      rfl

/-- A loop with a state that comes to its end has a state before and after each
element. -/
theorem foldlM_take_succ {f : β → α → Except ε β} {b b' : β} {a : α} {i : Nat}
    (h : l.foldlM f b = .ok b') (hi : l[i]? = some a) :
    ∃ c c', (l.take i).foldlM f b = .ok c ∧ f c a = .ok c' ∧ (l.take (i + 1)).foldlM f b = .ok c' := by
  induction l generalizing b i with
  | nil => cases hi
  | cons x l ih =>
      rw [List.foldlM_cons] at h
      obtain ⟨d, hd, h⟩ := bind_eq_ok.mp h
      cases i with
      | zero =>
          cases hi
          exact ⟨b, d, rfl, hd, bind_eq_ok.mpr ⟨d, hd, rfl⟩⟩
      | succ i =>
          obtain ⟨c, c', hc, hf, hc'⟩ := ih h hi
          exact ⟨c, c', bind_eq_ok.mpr ⟨d, hd, hc⟩, hf, bind_eq_ok.mpr ⟨d, hd, hc'⟩⟩

def Returns (p : α → Prop) (x : Except ε α) : Prop :=
  ∀ a, x = .ok a → p a

namespace Returns

variable {p : α → Prop} {q : β → Prop} {x y : Except ε α}

theorem ok {a : α} (h : p a) : Returns p (.ok a : Except ε α) := by
  intro b hb
  cases hb
  exact h

theorem error {e : ε} : Returns p (.error e : Except ε α) := by
  intro b hb
  cases hb

theorem bind (hx : Returns p x) (hf : ∀ a, p a → Returns q (f a)) :
    Returns q (x >>= f) := by
  intro b hb
  cases x with
  | error e => cases hb
  | ok a => exact hf a (hx a rfl) b hb

/-- Every result of a loop is one of its body. -/
theorem mapM (hf : ∀ a ∈ l, Returns q (f a)) :
    Returns (fun bs => ∀ b ∈ bs, q b) (l.mapM f) := by
  induction l with
  | nil =>
      rw [List.mapM_nil]
      exact ok nofun
  | cons a l ih =>
      rw [List.mapM_cons]
      refine bind (hf a List.mem_cons_self) fun b hb => ?_
      refine bind (ih fun a' ha' => hf a' (List.mem_cons_of_mem _ ha')) fun bs hbs => ?_
      exact ok (List.forall_mem_cons.mpr ⟨hb, hbs⟩)

theorem ite {c : Prop} [Decidable c] (hx : c → Returns p x) (hy : ¬ c → Returns p y) :
    Returns p (if c then x else y) := by
  split
  · rename_i h
    exact hx h
  · rename_i h
    exact hy h

theorem mono {p' : α → Prop} (hx : Returns p x) (h : ∀ a, p a → p' a) : Returns p' x :=
  fun a ha => h a (hx a ha)

/-- Nothing need be known of a value that is only looked up. -/
theorem any (x : Except ε α) : Returns (fun _ => True) x :=
  fun _ _ => trivial

theorem self (x : Except ε α) : Returns (fun a => x = .ok a) x :=
  fun _ h => h

/-- A check that returns no value. -/
theorem check {c : Prop} [Decidable c] {e : ε} {k : Except ε α} (h : ¬ c → Returns p k) :
    Returns p (do
      if c then throw e
      k) := by
  by_cases hc : c
  · simp only [hc, if_true]
    exact error
  · simp only [hc, if_false]
    exact h hc

theorem foldlM {f : β → α → Except ε β} {I : List α → β → Prop}
    (hf : ∀ a rest b, I (a :: rest) b → Returns (I rest) (f b a)) :
    ∀ (l : List α) (b : β), I l b → Returns (I []) (l.foldlM f b)
  | [], b, h => ok h
  | a :: rest, b, h => by
      rw [List.foldlM_cons]
      exact bind (hf a rest b h) fun b' h' => foldlM hf rest b' h'

end Returns

end Slag
