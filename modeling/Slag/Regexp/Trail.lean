import Slag.Regexp.Outcomes

/-!
The undo log restores captures exactly, and what a store of the engine stands
for in the reference matcher.
-/

namespace Slag.Regexp

open Slag.Backtrack

namespace Caps

variable {a b c caps : Caps}

theorem undo_length (trail : List (Nat × Option Span)) (values : List (Option Span)) :
    undo trail.length trail values = ⟨values, trail⟩ := by
  cases trail with
  | nil => rfl
  | cons entry trail => simp [undo]

theorem rollback_mark (caps : Caps) : caps.rollback caps.mark = caps :=
  undo_length caps.trail caps.values

theorem undo_undo {m n : Nat} (h : m ≤ n) (trail : List (Nat × Option Span))
    (values : List (Option Span)) :
    undo m (undo n trail values).trail (undo n trail values).values = undo m trail values := by
  induction trail generalizing values with
  | nil => rfl
  | cons entry trail ih =>
      by_cases hn : n < trail.length + 1
      · rw [undo, if_pos hn, ih, undo, if_pos (Nat.lt_of_le_of_lt h hn)]
      · rw [undo, if_neg hn]

theorem rollback_rollback {m n : Nat} (h : m ≤ n) (caps : Caps) :
    (caps.rollback n).rollback m = caps.rollback m :=
  undo_undo h caps.trail caps.values

/-- The later log can be undone down to the earlier one. -/
def Extends (a b : Caps) : Prop :=
  a.mark ≤ b.mark ∧ b.rollback a.mark = a

theorem Extends.refl (caps : Caps) : caps.Extends caps :=
  ⟨Nat.le_refl _, rollback_mark caps⟩

theorem Extends.trans (h : a.Extends b) (h' : b.Extends c) : a.Extends c := by
  refine ⟨Nat.le_trans h.1 h'.1, ?_⟩
  calc
    c.rollback a.mark = (c.rollback b.mark).rollback a.mark := (rollback_rollback h.1 c).symm
    _ = b.rollback a.mark := by rw [h'.2]
    _ = a := h.2

theorem set_get_self (values : List (Option Span)) (index : Nat) (value : Option Span) :
    (values.set index value).set index (values[index]?).join = values := by
  rw [List.set_set]
  cases hv : values[index]? with
  | none => exact List.set_eq_of_length_le (List.getElem?_eq_none_iff.mp hv)
  | some old =>
      obtain ⟨hlt, hget⟩ := List.getElem?_eq_some_iff.mp hv
      rw [Option.join_some, ← hget]
      exact List.set_getElem_self hlt

/-- An entry that saves the old value undoes the write it comes with. -/
theorem extends_write (caps : Caps) (index : Nat) (value : Option Span) :
    caps.Extends ⟨caps.values.set index value, (index, caps.get index) :: caps.trail⟩ := by
  refine ⟨Nat.le_succ _, ?_⟩
  rw [rollback, mark, undo, if_pos (Nat.lt_succ_self _), undo_length, get, set_get_self]

theorem extends_set (caps : Caps) (index : Nat) (value : Span) :
    caps.Extends (caps.set index value) := by
  unfold set
  split
  · exact .refl caps
  · exact extends_write caps index (some value)

theorem values_set (caps : Caps) (index : Nat) (value : Span) :
    (caps.set index value).values = caps.values.set index (some value) := by
  unfold set
  split
  · rename_i hempty
    rw [List.isEmpty_iff.mp hempty]
    rfl
  · rfl

theorem extends_clearOne (caps : Caps) (index : Nat) : caps.Extends (caps.clearOne index) := by
  unfold clearOne
  split
  · rename_i old hold
    rw [← hold]
    exact extends_write caps index none
  · exact .refl caps

theorem values_clearOne (caps : Caps) (index : Nat) :
    (caps.clearOne index).values = caps.values.set index none := by
  unfold clearOne
  split
  · rfl
  · rename_i hnone
    conv => lhs; rw [← set_get_self caps.values index none, List.set_set]
    rw [get] at hnone
    rw [hnone]

theorem clearOne_foldl (owned : List Nat) (caps : Caps) :
    caps.Extends (owned.foldl clearOne caps) ∧ (owned.foldl clearOne caps).values =
      owned.foldl (fun captures index => captures.set index none) caps.values := by
  induction owned generalizing caps with
  | nil => exact ⟨.refl caps, rfl⟩
  | cons index owned ih =>
      obtain ⟨he, hv⟩ := ih (caps.clearOne index)
      refine ⟨(extends_clearOne caps index).trans he, ?_⟩
      rw [List.foldl_cons, hv, values_clearOne]
      rfl

theorem clear_nil (owned : List Nat) :
    owned.foldl (fun captures index => captures.set index none) ([] : List (Option Span)) = [] := by
  induction owned with
  | nil => rfl
  | cons index owned ih => exact ih

theorem extends_clearOwned (caps : Caps) (owned : List Nat) :
    caps.Extends (caps.clearOwned owned) := by
  unfold clearOwned
  split
  · exact .refl caps
  · exact (clearOne_foldl owned caps).1

theorem values_clearOwned (caps : Caps) (owned : List Nat) :
    (caps.clearOwned owned).values =
      owned.foldl (fun captures index => captures.set index none) caps.values := by
  unfold clearOwned
  split
  · rename_i hempty
    rw [List.isEmpty_iff.mp hempty, clear_nil]
  · exact (clearOne_foldl owned caps).2

end Caps

/-- The store stands for a state of the reference matcher, matching in `dir`. -/
def Store.Stands (dir : Direction) (s : Store) (x : MatchState) : Prop :=
  s.pos = x.endIndex ∧ s.caps.values = x.captures ∧ s.dir = dir

/-- The choice points of the earlier store can be restored from the later one. -/
def Store.Restorable (s t : Store) : Prop :=
  s.caps.Extends t.caps ∧ t.dir = s.dir

/-- How the engine's results are read while it matches in one direction. -/
def reading (dir : Direction) (bad : Cfg → Bool) : Reading Task Choice Store MatchState where
  stands := Store.Stands dir
  extend := Store.Restorable
  bad := bad
  refl _ := ⟨.refl _, rfl⟩
  trans h h' := ⟨h.1.trans h'.1, h'.2.trans h.2⟩

namespace Store

variable {dir : Direction} {s t : Store} {x : MatchState}

theorem Stands.setPos (h : s.Stands dir x) (pos : Nat) :
    Stands dir { s with pos := pos } { x with endIndex := pos } :=
  ⟨rfl, h.2⟩

theorem Stands.clearOwned (h : s.Stands dir x) (owned : List Nat) :
    Stands dir { s with caps := s.caps.clearOwned owned } (x.clear owned) :=
  ⟨h.1, by rw [MatchState.clear, ← h.2.1, Caps.values_clearOwned], h.2.2⟩

theorem Stands.setCapture (h : s.Stands dir x) (index : Nat) (value : Span) :
    Stands dir { s with caps := s.caps.set index value } (x.setCapture index value) :=
  ⟨h.1, by rw [MatchState.setCapture, ← h.2.1, Caps.values_set], h.2.2⟩

/-- A choice recorded at a store brings back its position and captures. -/
theorem Restorable.rollback (h : s.Restorable t) : t.caps.rollback s.caps.mark = s.caps :=
  h.1.2

end Store

end Slag.Regexp
