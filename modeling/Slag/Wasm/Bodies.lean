import Slag.Lib.Returns
import Slag.Wasm.Validate

/-!
The bodies of a valid module: each was checked with the signature of its
function, one instruction after the other.
-/

namespace Slag.Wasm

open Slag.Answer (forall₂_getElem?)

variable {m : Module} {s : Spaces}

/-- The module a module's index spaces name, and its functions with their types. -/
theorem buildSpaces_spec (h : buildSpaces m = .ok s) :
    s.module = m ∧ s.funcTypes = m.importedFuncs ++ m.functions ∧
      List.Forall₂ (fun index ty => typeAt m index = .ok ty) s.funcTypes s.funcs := by
  unfold buildSpaces at h
  obtain ⟨-, -, h⟩ := bind_eq_ok.mp h
  obtain ⟨funcs, hfuncs, h⟩ := bind_eq_ok.mp h
  obtain ⟨tags, -, h⟩ := bind_eq_ok.mp h
  cases h
  exact ⟨rfl, rfl, forall₂_of_mapM hfuncs⟩

/-- A function of a module whose body passes its check. -/
structure Checked (m : Module) (s : Spaces) (defined : Nat) (body : FuncBody) (signature : FuncType) :
    Prop where
  spaces : buildSpaces m = .ok s
  has : m.bodies[defined]? = some body
  type : ∃ index, m.functions[defined]? = some index ∧ typeAt m index = .ok signature
  valid : (Machine.entry signature (signature.params ++ body.locals)).validateBody s body.body
    signature (signature.params ++ body.locals) = .ok ()

theorem validate_spec (h : validate m = .ok ()) :
    ∃ s, buildSpaces m = .ok s ∧ validateModuleLimits m = .ok () ∧ validateCode m s = .ok () := by
  obtain ⟨s, hs, h⟩ := bind_eq_ok.mp h
  obtain ⟨hlimits, hcode⟩ := bind_unit_eq_ok.mp h
  exact ⟨s, hs, hlimits, hcode⟩

/-- Every body of a valid module is checked. -/
theorem checked_of_validate (h : validate m = .ok ()) {defined : Nat} {body : FuncBody}
    (hbody : m.bodies[defined]? = some body) : ∃ s signature, Checked m s defined body signature := by
  obtain ⟨s, hs, -, hcode⟩ := validate_spec h
  obtain ⟨-, htypes, hfuncs⟩ := buildSpaces_spec hs
  unfold validateCode at hcode
  split at hcode
  · cases hcode
  · rename_i hlen
    have hlen' := not_not.mp hlen
    have hall := forM_eq_ok.mp hcode
    -- The signatures after those of the imports belong to the bodies.
    have hlt : defined < m.functions.length := by
      rw [← hlen']
      exact (List.getElem?_eq_some_iff.mp hbody).1
    have hindex : s.funcTypes[m.importedFuncs.length + defined]? = some m.functions[defined] := by
      rw [htypes, List.getElem?_append_right (Nat.le_add_right _ _), Nat.add_sub_cancel_left,
        List.getElem?_eq_getElem hlt]
    obtain ⟨signature, hsignature, htype⟩ := forall₂_getElem? hfuncs hindex
    have hzip : (m.bodies.zip (s.funcs.drop m.importedFuncs.length))[defined]? = some (body, signature) := by
      rw [List.getElem?_zip_eq_some, List.getElem?_drop]
      exact ⟨hbody, hsignature⟩
    have hone := hall _ (List.mem_of_getElem? hzip)
    obtain ⟨-, hvalid⟩ := bind_unit_eq_ok.mp hone
    exact ⟨s, signature, hs, hbody, ⟨_, List.getElem?_eq_getElem hlt, htype⟩, hvalid⟩

namespace Checked

variable {defined : Nat} {body : FuncBody} {signature : FuncType}

/-- The check of a body before one of its instructions. -/
def before (s : Spaces) (body : FuncBody) (signature : FuncType) (pc : Nat) : Except Error Machine :=
  (body.body.take pc).foldlM
    (fun machine instr => machine.step s signature (signature.params ++ body.locals) instr)
    (Machine.entry signature (signature.params ++ body.locals))

theorem before_step (h : Checked m s defined body signature) {pc : Nat} {instr : Instr}
    (hinstr : body.body[pc]? = some instr) :
    ∃ machine machine', before s body signature pc = .ok machine ∧
      machine.step s signature (signature.params ++ body.locals) instr = .ok machine' ∧
      before s body signature (pc + 1) = .ok machine' := by
  obtain ⟨last, hrun, -⟩ := bind_eq_ok.mp h.valid
  exact foldlM_take_succ hrun hinstr

end Checked

end Slag.Wasm
