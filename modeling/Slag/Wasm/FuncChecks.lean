import Slag.Lib.Returns
import Slag.Wasm.Subtyping
import Slag.Wasm.Engine
import Slag.Wasm.Validate

/-!
The function type checks of indirect calls, calls of references and imports,
against declared subtyping across modules.
-/

namespace Slag.Wasm

open Relation
open Slag.Answer (Tells tells_true tells_false not_tells_none)

/-! ## A type and its ancestors -/

theorem Same.declares {ma mb : Module} (hma : Scoped ma) (hmb : Scoped mb) {a b q : Nat}
    (h : Same ma mb a b) (hq : Declares mb b q) : ∃ p, Declares ma a p ∧ Same ma mb p q := by
  obtain ⟨subA, subB, hA, hB, -, hsups, -⟩ := h.member hma hmb
  obtain ⟨st, hst, hhead⟩ := declares_iff.mp hq
  rw [hB] at hst
  cases hst
  cases hA' : subA.supertypes with
  | nil =>
      rw [hA', List.forall₂_nil_left_iff] at hsups
      rw [hsups] at hhead
      cases hhead
  | cons p rest =>
      rw [hA', List.forall₂_cons_left_iff] at hsups
      obtain ⟨q', rest', hpq, -, hB'⟩ := hsups
      rw [hB'] at hhead
      cases hhead
      exact ⟨p, declares_iff.mpr ⟨subA, hA, by rw [hA']; rfl⟩, hpq⟩

variable {m : Module} {target : FuncTarget} {typeIndex : Nat} {P : Prop}

namespace World

/-- The declared type of a function is a proper subtype of a type of a module, or
its comparison with that type does not come to an end. -/
inductive Missed (w : World) (m : Module) (typeIndex : Nat) : FuncTarget → Prop where
  | proper {inst defined ty x : Nat} {owner : Instance} (howner : w.instances[inst]? = some owner)
      (hty : owner.module.functions[defined]? = some ty)
      (hx : TransGen (Declares owner.module) ty x) (hsame : Same m owner.module typeIndex x) :
      Missed w m typeIndex (.owned inst defined)
  | endless {inst defined ty : Nat} {owner : Instance} (howner : w.instances[inst]? = some owner)
      (hty : owner.module.functions[defined]? = some ty)
      (hnever : ¬ Answered m owner.module typeIndex ty) : Missed w m typeIndex (.owned inst defined)

variable {w : World} {m : Module}

section Owned

variable {typeIndex inst defined ty : Nat} {owner : Instance} (howner : w.instances[inst]? = some owner)
  (hty : owner.module.functions[defined]? = some ty)

include howner hty

end Owned

end World

/-! ## Stores of validated modules -/

namespace World

/-- The stores that host registrations and instantiations of validated modules
build. Tags are also left behind by an instantiation that fails later. -/
inductive Built : World → Prop where
  | empty : Built ⟨[], [], []⟩
  | hostFunc {w : World} (host : HostFunc) (h : Built w) :
      Built { w with hostFuncs := w.hostFuncs ++ [host] }
  | tags {w : World} (tags : List TagInst) (h : Built w) : Built { w with tags := w.tags ++ tags }
  | instantiate {w w' : World} {m : Module} {funcImports tagImports : List (Option ExternVal)}
      {depthLimit : Nat} (h : Built w) (hvalid : validate m = .ok ())
      (hnew : w.instantiate m funcImports tagImports depthLimit = .ok w') : Built w'

end World

theorem accepted_of_validate (h : validate m = .ok ()) : Accepted m := by
  obtain ⟨s, hs, -⟩ := bind_eq_ok.mp h
  obtain ⟨⟨⟩, hsection, -⟩ := bind_eq_ok.mp hs
  exact ⟨_, hsection⟩

theorem World.Built.scoped {w : World} (h : w.Built) : ∀ i ∈ w.instances, Scoped i.module := by
  induction h with
  | empty => nofun
  | hostFunc _ _ ih => exact ih
  | tags _ _ ih => exact ih
  | instantiate _ hvalid hnew ih =>
      obtain ⟨_, -, hnew⟩ := bind_eq_ok.mp hnew
      obtain ⟨_, -, hnew⟩ := bind_eq_ok.mp hnew
      obtain ⟨_, -, hnew⟩ := bind_eq_ok.mp hnew
      cases hnew
      intro i hi
      rcases List.mem_append.mp hi with hi | hi
      · exact ih i hi
      · rw [List.mem_singleton.mp hi]
        exact (accepted_of_validate hvalid).scoped

section Steps

variable {σ : Type} {w : World} {fx : Effects σ}

def mismatch : ExecFail := .trap .indirectCallTypeMismatch

/-- A computation that does not fail for a function type, nor on comparing one. -/
def Passes {α : Type} (x : Except ExecFail α) : Prop :=
  x ≠ .error mismatch ∧ x ≠ .error .endless

/-- A computation that passes where a property holds, and is refused where it
does not. -/
def Checks {α : Type} (x : Except ExecFail α) (P : Prop) : Prop :=
  (P ∧ Passes x) ∨ (¬ P ∧ x = .error mismatch)

theorem Passes.bind {α β : Type} {x : Except ExecFail α} {f : α → Except ExecFail β}
    (hx : Passes x) (hf : ∀ a, Passes (f a)) : Passes (x >>= f) := by
  cases x with
  | error e =>
      exact ⟨fun h => hx.1 (congrArg Except.error (Except.error.inj h)),
        fun h => hx.2 (congrArg Except.error (Except.error.inj h))⟩
  | ok a => exact hf a

variable {stack : List Value} {e : Engine σ} {frame : Frame} {callers : List Frame}

end Steps

/-- The function an import value stands for. -/
def World.imported (w : World) : World.ExternVal → Option FuncTarget
  | .hostFunc id => some (.host id)
  | .func inst index => w.instances[inst]?.bind fun i => i.funcs[index]?
  | _ => none

end Slag.Wasm
