import Slag.Lib.Backtrack

/-!
A run of a backtracking machine with, beside each choice, the configuration it
was recorded at.
-/

namespace Slag.Backtrack

variable {τ κ σ : Type}

structure Recorded (τ κ σ : Type) where
  state : State τ κ σ
  moments : List (Config τ κ σ)

namespace Backtracker

/-- One move. A task records choices at the configuration `moment` gives, or
drops some of those there were. -/
def recordStep (B : Backtracker τ κ σ) (moment : τ → Config τ κ σ → Config τ κ σ)
    (x : Recorded τ κ σ) : Option (Recorded τ κ σ) :=
  match x.state with
  | .running c =>
      match c.tasks with
      | [] => none
      | task :: tasks =>
          let below := { c with tasks := tasks }
          let r := B.dispatch task below
          some ⟨if r.1 then .running r.2 else .failing r.2,
            List.replicate (r.2.choices.length - c.choices.length) (moment task below) ++
              x.moments.drop (c.choices.length - r.2.choices.length)⟩
  | .failing c =>
      match c.choices with
      | [] => none
      | choice :: choices =>
          some ⟨.running (B.restore choice { c with choices := choices }), x.moments.tail⟩

/-- A run of some moves, shorter where it ends before. -/
def recorded (B : Backtracker τ κ σ) (moment : τ → Config τ κ σ → Config τ κ σ) :
    Nat → Recorded τ κ σ → Recorded τ κ σ
  | 0, x => x
  | n + 1, x =>
      match B.recordStep moment x with
      | some y => recorded B moment n y
      | none => x

variable {B : Backtracker τ κ σ} {moment : τ → Config τ κ σ → Config τ κ σ}
  {inv : Recorded τ κ σ → Prop} {x : Recorded τ κ σ}

/-- What holds at first and is kept by every move holds throughout. -/
theorem recorded_invariant (hstep : ∀ x y, inv x → B.recordStep moment x = some y → inv y)
    (h : inv x) (n : Nat) : inv (B.recorded moment n x) := by
  induction n generalizing x with
  | zero => exact h
  | succ n ih =>
      rw [recorded]
      split
      · rename_i y hy
        exact ih (hstep x y h hy)
      · exact h

end Backtracker

end Slag.Backtrack
