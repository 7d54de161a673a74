import Slag.Jit.DceSound
import Slag.Jit.FoldSound

/-!
Folding, then elimination: what is left of a graph, and what its runs show.
-/

namespace Slag.Jit

open Crux

namespace FoldDce

variable {f g : Function} {ω : Type} {C : Realm ω} {R : Runtime Value ω} {s₀ : Machine Value ω}

/-- What folding leaves only defines values where it did, and so do its constants. -/
theorem silent_of_folds (hsilent : Dce.Silent R f s₀) (hR : Evaluates C R)
    (h : Fold.Folds C.ieee f g) (hlock : Function.Lockstep R f g s₀) : Dce.Silent R g s₀ := by
  intro done b i s inst' hat hi' hdrop
  have hatf := hlock.at_of_at hat
  have hlt : i < (f.block b).insts.length := h.length b ▸ (List.getElem?_eq_some_iff.mp hi').1
  have hi := List.getElem?_eq_getElem hlt
  rcases h.insts b i _ hi with hsame | ⟨-, c, hconst, -⟩
  · rw [hi'] at hsame
    cases hsame
    exact hsilent done b i s _ hatf hi hdrop
  · rw [hi'] at hconst
    cases hconst
    have hc : Fold.Inst.constant (Fold.Inst.become (f.block b).insts[i] c) = some c := by
      cases c <;> rfl
    exact ⟨_, Fold.exec_constant hR hc⟩

/-- Both passes return, of a verified graph, verified graphs. Folding leaves
every instruction or puts a constant in its place, elimination removes nothing
but dead values and leaves none, and what runs over the values of the language
show, the numbers of that arithmetic, is what they showed. -/
def Preserves (A : Ieee) (f : Function) : Prop :=
  (∃ q, Dce.run f = .ok q ∧ Dce.Cleaned f q.2) ∧
  ∃ r q, Fold.run A f = .ok r ∧ verify r.2 = .ok () ∧ Fold.Folds A f r.2 ∧
    Dce.run r.2 = .ok q ∧ Dce.Cleaned r.2 q.2 ∧
    ∀ (ω : Type) (C : Realm ω) (R : Runtime Value ω) (s₀ : Machine Value ω)
      (value : Op → Imm → List Value → Value), C.ieee = A → Evaluates C R → f.Honest R s₀ value →
      ∀ fuel, q.2.shown R fuel q.2.entry s₀ = f.shown R fuel f.entry s₀

theorem fold_dce_preserves (A : Ieee) (f : Function) (hv : verify f = .ok ()) : Preserves A f := by
  have hf := (verify_ok_iff f).mp hv
  obtain ⟨p, keep₀, hp, hpruned, hpdone⟩ := Dce.run_spec hf
  obtain ⟨r, hr, hsteps⟩ := Fold.run_spec (A := A) hf
  have hg : r.2.WellFormed := by
    cases hsteps with
    | single h => exact h.after
    | tail _ h => exact h.after
  obtain ⟨q, keep, hq, hqpruned, hqdone⟩ := Dce.run_spec hg
  have hfolds := Fold.steps_folds hsteps
  refine ⟨⟨p, hp, hpruned.cleaned hf hpdone⟩, r, q, hr, (verify_ok_iff _).mpr hg, hfolds, hq,
    hqpruned.cleaned hg hqdone, ?_⟩
  rintro ω C R s₀ value rfl hR hh fuel
  have hlock := Fold.steps_lockstep hR hsteps s₀
  have hsilent := silent_of_folds (Dce.silent_of_honest hh) hR hfolds hlock
  rw [hqpruned.shown hsilent fuel, hlock.shown fuel]

/-- A comparison of constants, and a check that nothing uses. -/
def checked : Function where
  blocks := [⟨[], [⟨.const, [], some 0, .number, Op.const.defaultEffects, .int 1⟩,
    ⟨.const, [], some 1, .number, Op.const.defaultEffects, .int 2⟩,
    ⟨.lt, [0, 1], some 2, .bool, Op.lt.defaultEffects, .none⟩,
    ⟨.check, [2], some 3, .bool, Op.check.defaultEffects, .none⟩], some (.ret (some 2))⟩]
  valueTypes := [.number, .number, .bool, .bool]
  entry_lt := Nat.zero_lt_one

def checkedStart : Machine Value Unit := ⟨fun _ => .undefined, fun _ => .undefined, ()⟩

theorem checked_inst {b : BlockId} {inst : Inst} (h : inst ∈ (checked.block b).insts) :
    inst ∈ (checked.block 0).insts := by
  cases b with
  | zero => exact h
  | succ b => cases h

theorem checked_honest : checked.Honest Realm.strict.runtime checkedStart fun _ imm _ =>
    imm.constant.getD .undefined where
  access := by
    intro b inst hmem hop
    have hnone : ∀ inst ∈ (checked.block 0).insts, inst.op ≠ .frameLoad := by decide
    exact absurd hop (hnone inst (checked_inst hmem))
  slots := by
    rintro b inst hmem -
    have hall : ∀ inst ∈ (checked.block 0).insts, Realm.strict.runtime.slotsBound inst = [] := by
      decide
    exact hall inst (checked_inst hmem)
  reads := by
    rintro b inst hmem -
    have hall : ∀ inst ∈ (checked.block 0).insts, Realm.strict.runtime.slotsRead inst = [] := by
      decide
    exact hall inst (checked_inst hmem)
  quiet := by
    intro done b i s inst hat hi hpure hguard
    have hconst : ∀ inst ∈ (checked.block 0).insts, inst.effects.isPure = true →
        inst.isGuard = false → inst.op = .const ∧ inst.imm.constant.isSome = true := by decide
    obtain ⟨hop, hsome⟩ := hconst inst (checked_inst (List.mem_of_getElem? hi)) hpure hguard
    obtain ⟨v, hv⟩ := Option.isSome_iff_exists.mp hsome
    rw [hop, hv]
    exact (Realm.strict.runtime_evaluates.const inst.imm v hv).2 _ _ _

theorem checked_preserved : ∃ r q, Fold.run .binary64 checked = .ok r ∧ Dce.run r.2 = .ok q ∧
    ∀ fuel, q.2.shown Realm.strict.runtime fuel q.2.entry checkedStart =
      checked.shown Realm.strict.runtime fuel checked.entry checkedStart := by
  obtain ⟨-, r, q, hr, -, -, hq, -, hshown⟩ := fold_dce_preserves .binary64 checked (by decide)
  exact ⟨r, q, hr, hq, hshown Unit Realm.strict _ _ _ rfl Realm.strict.runtime_evaluates
    checked_honest⟩

example : ∃ f g, Fold.run .binary64 checked = .ok (true, f) ∧ Dce.run f = .ok (true, g) ∧
    (g.block 0).insts.map Inst.op = [.const, .check] := ⟨_, _, rfl, rfl, rfl⟩

end FoldDce

end Slag.Jit
