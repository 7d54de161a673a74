import Mathlib.Data.List.Basic

/-!
Greedy iteration of a step that has several results in order of preference.
Two lists of results are as good as each other when the first result of every
kind is the same. Two iterations one after the other are as good as one with
the bounds added when the second one has no minimum, when the first one has a
fixed count, or when a step has at most one result.
-/

namespace Slag.Iteration

variable {α β : Type*}

/-- The first element of every kind is the same. -/
def SameFirst (l l' : List α) : Prop :=
  ∀ p : α → Bool, l.find? p = l'.find? p

namespace SameFirst

variable {l l' l'' k k' : List α}

theorem refl (l : List α) : SameFirst l l :=
  fun _ => rfl

theorem trans (h : SameFirst l l') (h' : SameFirst l' l'') : SameFirst l l'' :=
  fun p => (h p).trans (h' p)

theorem findSome?_eq_find? (l : List α) (c : α → Option β) :
    l.findSome? c = (l.find? fun a => (c a).isSome).bind c := by
  induction l with
  | nil => rfl
  | cons a l ih =>
      rw [List.findSome?_cons, List.find?_cons, ih]
      cases hc : c a with
      | none => rfl
      | some b => simp [hc]

/-- A continuation that takes the first result it accepts finds the same. -/
theorem findSome?_eq (h : SameFirst l l') (c : α → Option β) :
    l.findSome? c = l'.findSome? c := by
  rw [findSome?_eq_find?, findSome?_eq_find?, h]

theorem append (h : SameFirst l l') (h' : SameFirst k k') : SameFirst (l ++ k) (l' ++ k') := by
  intro p
  rw [List.find?_append, List.find?_append, h p, h' p]

theorem flatMap_congr {f g : α → List β} (h : ∀ a ∈ l, SameFirst (f a) (g a)) :
    SameFirst (l.flatMap f) (l.flatMap g) := by
  induction l with
  | nil => exact refl _
  | cons a l ih =>
      rw [List.flatMap_cons, List.flatMap_cons]
      exact append (h a List.mem_cons_self) (ih fun b hb => h b (List.mem_cons_of_mem _ hb))

/-- Results that came before count for nothing. -/
theorem absorb (h : ∀ a ∈ k, a ∈ l) : SameFirst (l ++ (k ++ k')) (l ++ k') := by
  intro p
  rw [List.find?_append, List.find?_append, List.find?_append]
  cases hl : l.find? p with
  | some a => rfl
  | none =>
      have hk : k.find? p = none := by
        rw [List.find?_eq_none] at hl ⊢
        exact fun a ha => hl a (h a ha)
      rw [hk]
      rfl

end SameFirst

/-- A bound lowered by one; none is no bound. -/
def pred (max : Option Nat) : Option Nat :=
  max.map fun n => n - 1

/-- The sum of two bounds. -/
def plus : Option Nat → Option Nat → Option Nat
  | some m, some n => some (m + n)
  | _, _ => none

/-- A count is below a bound. -/
def AtMost (n : Nat) (max : Option Nat) : Prop :=
  ∀ most, max = some most → n ≤ most

/-- A bound is below another. -/
def Within (max max' : Option Nat) : Prop :=
  ∀ most', max' = some most' → ∃ most, max = some most ∧ most ≤ most'

theorem plus_zero_left (max : Option Nat) : plus (some 0) max = max := by
  cases max <;> simp [plus]

theorem pred_plus {b d : Option Nat} (hb : b ≠ some 0) : pred (plus b d) = plus (pred b) d := by
  cases b with
  | none => rfl
  | some m =>
      cases d with
      | none => rfl
      | some n =>
          have : m ≠ 0 := fun h => hb (by rw [h])
          simp only [plus, pred, Option.map_some, Option.some.injEq]
          omega

theorem plus_ne_zero {b d : Option Nat} (hb : b ≠ some 0) : plus b d ≠ some 0 := by
  cases b with
  | none => nofun
  | some m =>
      cases d with
      | none => nofun
      | some n =>
          have : m ≠ 0 := fun h => hb (by rw [h])
          simp only [plus, ne_eq, Option.some.injEq]
          omega

variable {max : Option Nat} {n : Nat}

theorem AtMost.ne_zero (h : AtMost (n + 1) max) : max ≠ some 0 :=
  fun heq => absurd (h 0 heq) (Nat.not_succ_le_zero n)

theorem AtMost.pred (h : AtMost (n + 1) max) :
    AtMost n (Iteration.pred max) := by
  intro most hm
  obtain ⟨m, rfl, rfl⟩ := Option.map_eq_some_iff.mp hm
  have := h m rfl
  omega

theorem AtMost.plus {b d : Option Nat} (h : AtMost n d) : AtMost n (plus b d) := by
  intro most hm
  cases b with
  | none => cases hm
  | some m =>
      cases d with
      | none => cases hm
      | some k =>
          cases hm
          exact Nat.le_trans (h k rfl) (Nat.le_add_left k m)

theorem within_pred_plus (b : Option Nat) {d : Option Nat} :
    Within (pred d) (plus b d) := by
  intro most' hm
  cases b with
  | none => cases hm
  | some m =>
      cases d with
      | none => cases hm
      | some k =>
          cases hm
          exact ⟨k - 1, rfl, by omega⟩

theorem Within.pred {max max' : Option Nat} (h : Within max max') :
    Within (Iteration.pred max) (Iteration.pred max') := by
  intro most' hm
  obtain ⟨n, rfl, rfl⟩ := Option.map_eq_some_iff.mp hm
  obtain ⟨most, rfl, hle⟩ := h n rfl
  exact ⟨most - 1, rfl, by omega⟩

theorem Within.ne_zero {max max' : Option Nat} (h : Within max max') (hmax : max ≠ some 0) :
    max' ≠ some 0 := by
  rintro rfl
  obtain ⟨most, rfl, hle⟩ := h 0 rfl
  exact hmax (by rw [Nat.le_zero.mp hle])

/-- Greedy iteration of `body`: at least `min` times, then as long as it gets
somewhere and the bound allows, longest first. -/
structure Greedy (α : Type*) where
  body : α → List α
  stays : α → α → Bool
  rank : α → Nat
  moves : ∀ x, ∀ y ∈ body x, stays x y = true ∨ rank y < rank x
  results : Nat → Option Nat → α → List α
  results_eq : ∀ min max x, results min max x =
    if max = some 0 then [x]
    else ((body x).flatMap fun y =>
      if min = 0 ∧ stays x y = true then [] else results (min - 1) (pred max) y) ++
        if min = 0 then [x] else []

namespace Greedy

variable (G : Greedy α) {x y : α} {b d : Option Nat}

/-- The results of a step that get somewhere. -/
def advances (x : α) : List α :=
  (G.body x).filter fun y => !G.stays x y

theorem results_bound_zero (min : Nat) (x : α) : G.results min (some 0) x = [x] := by
  rw [G.results_eq, if_pos rfl]

theorem results_succ (hmax : max ≠ some 0) (min : Nat) (x : α) :
    G.results (min + 1) max x = (G.body x).flatMap (G.results min (pred max)) := by
  rw [G.results_eq, if_neg hmax]
  simp

omit G in
theorem flatMap_skip (l : List α) (p : α → Bool) (f : α → List β) :
    (l.flatMap fun y => if p y = true then [] else f y) = (l.filter fun y => !p y).flatMap f := by
  induction l with
  | nil => rfl
  | cons y l ih =>
      rw [List.flatMap_cons, ih, List.filter_cons]
      cases p y <;> rfl

theorem results_zero (hmax : max ≠ some 0) (x : α) :
    G.results 0 max x = (G.advances x).flatMap (G.results 0 (pred max)) ++ [x] := by
  rw [G.results_eq, if_neg hmax, advances, ← flatMap_skip]
  simp

theorem rank_advances (h : y ∈ G.advances x) : G.rank y < G.rank x := by
  obtain ⟨hmem, hstays⟩ := List.mem_filter.mp h
  refine (G.moves x y hmem).resolve_left fun hs => ?_
  rw [hs] at hstays
  cases hstays

theorem mem_results_zero (max : Option Nat) (x : α) : x ∈ G.results 0 max x := by
  by_cases hmax : max = some 0
  · rw [hmax, results_bound_zero]
    exact List.mem_singleton_self x
  · rw [results_zero G hmax]
    exact List.mem_append_right _ (List.mem_singleton_self x)

/-- A larger bound allows more. -/
theorem results_subset (h : Within b d) (x : α) : ∀ y ∈ G.results 0 b x, y ∈ G.results 0 d x := by
  induction hn : G.rank x using Nat.strongRecOn generalizing x b d with
  | ind n ih =>
      intro y hy
      by_cases hb : b = some 0
      · rw [hb, results_bound_zero, List.mem_singleton] at hy
        rw [hy]
        exact G.mem_results_zero d x
      · rw [results_zero G hb, List.mem_append, List.mem_singleton] at hy
        rcases hy with hy | rfl
        · rw [results_zero G (h.ne_zero hb)]
          obtain ⟨z, hz, hy⟩ := List.mem_flatMap.mp hy
          refine List.mem_append_left _ (List.mem_flatMap.mpr ⟨z, hz, ?_⟩)
          exact ih _ (hn ▸ G.rank_advances hz) h.pred z rfl y hy
        · exact G.mem_results_zero d y

/-- What comes after the first iterations is tried before fewer of them are. -/
theorem absorb_results (hd : Within (pred d) b) (x : α) :
    SameFirst ((G.advances x).flatMap (G.results 0 b) ++ G.results 0 d x)
      ((G.advances x).flatMap (G.results 0 b) ++ [x]) := by
  by_cases hzero : d = some 0
  · rw [hzero, results_bound_zero]
    exact .refl _
  · rw [results_zero G hzero]
    refine .absorb fun z hz => ?_
    obtain ⟨y, hy, hz⟩ := List.mem_flatMap.mp hz
    exact List.mem_flatMap.mpr ⟨y, hy, G.results_subset hd y z hz⟩

/-- Two iterations without a minimum. -/
theorem fuse_optional (b d : Option Nat) (x : α) :
    SameFirst ((G.results 0 b x).flatMap (G.results 0 d)) (G.results 0 (plus b d) x) := by
  induction hn : G.rank x using Nat.strongRecOn generalizing x b with
  | ind n ih =>
      by_cases hb : b = some 0
      · rw [hb, results_bound_zero, plus_zero_left, List.flatMap_singleton]
        exact .refl _
      · rw [results_zero G hb, results_zero G (plus_ne_zero hb), pred_plus hb, List.flatMap_append,
          List.flatMap_assoc, List.flatMap_singleton]
        have hfirst := SameFirst.flatMap_congr fun y (hy : y ∈ G.advances x) =>
          ih _ (hn ▸ G.rank_advances hy) (pred b) y rfl
        exact (hfirst.append (.refl _)).trans (G.absorb_results (within_pred_plus _) x)

variable {c : Nat}

/-- The mandatory iterations of the first come first in any case. -/
theorem fuse_of_optional
    (h : ∀ b x, SameFirst ((G.results 0 b x).flatMap (G.results c d)) (G.results c (plus b d) x))
    {a : Nat} (hab : AtMost a b) (x : α) :
    SameFirst ((G.results a b x).flatMap (G.results c d)) (G.results (a + c) (plus b d) x) := by
  induction a generalizing b x with
  | zero =>
      rw [Nat.zero_add]
      exact h b x
  | succ a ih =>
      rw [results_succ G hab.ne_zero, Nat.add_right_comm,
        results_succ G (plus_ne_zero hab.ne_zero), pred_plus hab.ne_zero, List.flatMap_assoc]
      exact .flatMap_congr fun y _ => ih hab.pred y

/-- The second iteration has no minimum. -/
theorem fuse_zero {a : Nat} (hab : AtMost a b) (x : α) :
    SameFirst ((G.results a b x).flatMap (G.results 0 d)) (G.results a (plus b d) x) :=
  G.fuse_of_optional (fun b x => G.fuse_optional b d x) hab x

/-- The first iteration has a fixed count. -/
theorem fuse_fixed (a c : Nat) (x : α) :
    SameFirst ((G.results a (some a) x).flatMap (G.results c d))
      (G.results (a + c) (plus (some a) d) x) := by
  induction a generalizing x with
  | zero =>
      rw [results_bound_zero, plus_zero_left, List.flatMap_singleton, Nat.zero_add]
      exact .refl _
  | succ a ih =>
      have hb : some (a + 1) ≠ some 0 := nofun
      rw [results_succ G hb, Nat.add_right_comm, results_succ G (plus_ne_zero hb), pred_plus hb,
        List.flatMap_assoc]
      exact .flatMap_congr fun y _ => ih y

section Single

variable (hsingle : ∀ x, (G.body x).length ≤ 1)
  (hstays : ∀ x, ∀ y ∈ G.body x, G.stays x y = true → y = x)

include hsingle hstays

/-- A step goes nowhere, stays, or goes on in one way. -/
theorem body_cases (x : α) :
    G.body x = [] ∨ (G.body x = [x] ∧ G.advances x = []) ∨
      ∃ y, G.body x = [y] ∧ G.advances x = [y] := by
  have hlen := hsingle x
  have hstay := hstays x
  unfold advances
  match hbody : G.body x with
  | [] => exact .inl rfl
  | [y] =>
      rw [hbody] at hstay
      cases hs : G.stays x y with
      | true =>
          obtain rfl := hstay y (List.mem_singleton_self y) hs
          exact .inr (.inl ⟨rfl, by simp [hs]⟩)
      | false => exact .inr (.inr ⟨y, rfl, by simp [hs]⟩)
  | y :: z :: rest =>
      rw [hbody] at hlen
      simp at hlen

omit hsingle hstays in
theorem results_stalled (hbody : G.body x = [x]) (hadv : G.advances x = []) (hcd : AtMost c d) :
    G.results c d x = [x] := by
  induction c generalizing d with
  | zero =>
      by_cases hd : d = some 0
      · rw [hd, results_bound_zero]
      · rw [results_zero G hd, hadv]
        rfl
  | succ c ih =>
      rw [results_succ G hcd.ne_zero, hbody, List.flatMap_singleton]
      exact ih hcd.pred

/-- One iteration more or less: the longer ones come first. -/
theorem absorb_shorter (hcb : AtMost (c + 1) b) (hcd : AtMost c d) (hdb : Within d b) (x : α) :
    SameFirst (G.results (c + 1) b x ++ G.results c d x) (G.results c b x) := by
  induction c generalizing b d x with
  | zero =>
      rw [results_succ G hcb.ne_zero, results_zero G hcb.ne_zero]
      have habsorb := G.absorb_results hdb.pred x
      rcases G.body_cases hsingle hstays x with hbody | ⟨hbody, hadv⟩ | ⟨y, hbody, hadv⟩
      · have hadv : G.advances x = [] := by rw [advances, hbody]; rfl
        rw [hadv] at habsorb ⊢
        rw [hbody]
        exact habsorb
      · rw [hbody, hadv, List.flatMap_singleton, G.results_stalled hbody hadv fun _ _ => Nat.zero_le _,
          G.results_stalled hbody hadv fun _ _ => Nat.zero_le _]
        change SameFirst ([x] ++ ([x] ++ [])) ([x] ++ [])
        exact .absorb fun _ => id
      · rw [hadv] at habsorb ⊢
        rw [hbody]
        exact habsorb
  | succ c ih =>
      rw [results_succ G hcb.ne_zero, results_succ G hcd.ne_zero, results_succ G hcb.ne_zero]
      rcases G.body_cases hsingle hstays x with hbody | ⟨hbody, hadv⟩ | ⟨y, hbody, hadv⟩
      · rw [hbody]
        exact .refl _
      · rw [hbody, List.flatMap_singleton, List.flatMap_singleton, List.flatMap_singleton]
        exact ih hcb.pred hcd.pred hdb.pred x
      · rw [hbody, List.flatMap_singleton, List.flatMap_singleton, List.flatMap_singleton]
        exact ih hcb.pred hcd.pred hdb.pred y

/-- A step has at most one result. -/
theorem fuse_single {a c : Nat} (hab : AtMost a b) (hcd : AtMost c d) (x : α) :
    SameFirst ((G.results a b x).flatMap (G.results c d)) (G.results (a + c) (plus b d) x) := by
  refine G.fuse_of_optional (fun b x => ?_) hab x
  cases c with
  | zero => exact G.fuse_optional b d x
  | succ c =>
      induction hn : G.rank x using Nat.strongRecOn generalizing x b with
      | ind n ih =>
          by_cases hb : b = some 0
          · rw [hb, results_bound_zero, plus_zero_left, List.flatMap_singleton]
            exact .refl _
          · have hsum : AtMost (c + 1) (plus b d) := hcd.plus
            rw [results_zero G hb, List.flatMap_append, List.flatMap_singleton, List.flatMap_assoc]
            rcases G.body_cases hsingle hstays x with hbody | ⟨hbody, hadv⟩ | ⟨y, hbody, hadv⟩
            · have hadv : G.advances x = [] := by rw [advances, hbody]; rfl
              rw [hadv, results_succ G hcd.ne_zero, results_succ G hsum.ne_zero, hbody]
              exact .refl _
            · rw [hadv, G.results_stalled hbody hadv hcd, G.results_stalled hbody hadv hsum]
              exact .refl _
            · have hy : G.rank y < G.rank x :=
                G.rank_advances (hadv ▸ List.mem_singleton_self y)
              have hfirst := ih _ (hn ▸ hy) (pred b) y rfl
              have hshort := G.absorb_shorter hsingle hstays hcd.plus hcd.pred
                (within_pred_plus (pred b)) y
              rw [hadv, List.flatMap_singleton, results_succ G hcd.ne_zero,
                results_succ G hsum.ne_zero, hbody, List.flatMap_singleton,
                List.flatMap_singleton, pred_plus hb]
              exact (hfirst.append (.refl _)).trans hshort

end Single

end Greedy

end Slag.Iteration
