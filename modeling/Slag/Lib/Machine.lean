import Mathlib.Init

/-!
Deterministic machines with an output per step: runs over a list of inputs, and
simulation of one machine by another under a condition on each step taken.
-/

namespace Slag.Machine

variable {σ τ ι ω : Type*}

def run (step : σ → ι → σ × ω) : σ → List ι → σ × List ω
  | s, [] => (s, [])
  | s, i :: is =>
      let next := step s i
      let rest := run step next.1 is
      (rest.1, next.2 :: rest.2)

/-- The condition holds at every step the run takes. -/
def Guarded (step : σ → ι → σ × ω) (guard : σ → ι → Prop) : σ → List ι → Prop
  | _, [] => True
  | s, i :: is => guard s i ∧ Guarded step guard (step s i).1 is

variable {step : σ → ι → σ × ω} {guard : σ → ι → Prop}

theorem run_append (s : σ) (is js : List ι) :
    run step s (is ++ js) =
      ((run step (run step s is).1 js).1, (run step s is).2 ++ (run step (run step s is).1 js).2) := by
  induction is generalizing s with
  | nil => rfl
  | cons i is ih => simp only [List.cons_append, run, ih]

/-- Runs of a machine whose steps are the steps of another on translated inputs. -/
theorem run_translate {κ υ : Type*} {step' : σ → κ → σ × υ} {op : ι → κ} {result : ι → υ → ω}
    (h : ∀ s i, step s i = ((step' s (op i)).1, result i (step' s (op i)).2)) (s : σ) (is : List ι) :
    run step s is = ((run step' s (is.map op)).1,
      List.zipWith result is (run step' s (is.map op)).2) := by
  induction is generalizing s with
  | nil => rfl
  | cons i is ih => simp only [run, List.map_cons, List.zipWith_cons_cons, h, ih]

/-- A step-by-step simulation gives equal outputs and related final states. -/
theorem simulation_run {step' : τ → ι → τ × ω} (R : σ → τ → Prop)
    (hstep : ∀ s t i, R s t → guard s i →
      (step s i).2 = (step' t i).2 ∧ R (step s i).1 (step' t i).1)
    {s : σ} {t : τ} {is : List ι} (h : R s t) (hg : Guarded step guard s is) :
    (run step s is).2 = (run step' t is).2 ∧ R (run step s is).1 (run step' t is).1 := by
  induction is generalizing s t with
  | nil => exact ⟨rfl, h⟩
  | cons i is ih =>
      obtain ⟨ho, hr⟩ := hstep s t i h hg.1
      obtain ⟨hos, hrs⟩ := ih hr hg.2
      exact ⟨by simp only [run, ho, hos], hrs⟩

end Slag.Machine
