import Slag.Jit.Uses

/-!
Common-subexpression elimination within a block: an instruction with the same
operation, immediate and resolved arguments as an available one has its uses
rewritten to that one's value.
-/

namespace Slag.Jit

/-- The comparison of payloads, which compares floats as numbers. -/
def Imm.same : Imm → Imm → Bool
  | .float x, .float y => F64.eq x y
  | x, y => x = y

namespace Cse

/-- A computation seen before and still available. -/
structure Available where
  op : Op
  imm : Imm
  args : List ValueId
  value : ValueId
  isLoad : Bool
deriving DecidableEq, Repr

abbrev Subst := List (Option ValueId)

structure State where
  subst : Subst
  avail : List Available
  changed : Bool
deriving DecidableEq, Repr

/-- Follow a chain of substitutions; one longer than the table has a cycle. -/
def resolveFrom (subst : Subst) : Nat → ValueId → Except Stop ValueId
  | 0, _ => .error .diverged
  | fuel + 1, v =>
      match subst[v]? with
      | none => .error .panicked
      | some none => .ok v
      | some (some next) => resolveFrom subst fuel next

def resolveOne (subst : Subst) (v : ValueId) : Except Stop ValueId :=
  resolveFrom subst (subst.length + 1) v

def eligible (inst : Inst) : Bool :=
  inst.op ∉ [.check, .tdzCheck, .guardType, .guardCallee] ∧
    (inst.op = .frameLoad ∨ inst.effects.isPure)

/-- A load is forgotten where a slot may change. -/
def retained (avail : List Available) (inst : Inst) : List Available :=
  if inst.effects.mayClobberReadsOf (.read .slots) then avail.filter (!·.isLoad) else avail

def record (st : State) (inst : Inst) (args : List ValueId) (result : ValueId) :
    Except Stop State :=
  match st.avail.find? fun a => a.op = inst.op ∧ a.imm.same inst.imm ∧ a.args = args with
  | some a =>
      if a.value = result then .ok st
      else if result < st.subst.length then
        .ok { st with subst := st.subst.set result (some a.value), changed := true }
      else .error .panicked
  | none =>
      .ok { st with avail :=
        st.avail ++ [⟨inst.op, inst.imm, args, result, inst.op = .frameLoad⟩] }

def visit (st : State) (inst : Inst) : Except Stop State :=
  let st := { st with avail := retained st.avail inst }
  match inst.result with
  | none => .ok st
  | some result =>
      if eligible inst then do
        let args ← inst.args.mapM (resolveOne st.subst)
        record st inst args result
      else .ok st

def visitBlock (st : State) (block : Block) : Except Stop State :=
  block.insts.foldlM visit { st with avail := [] }

/-- Every substitution to its end, in the order of the table. -/
def resolve (subst : Subst) : Except Stop Subst :=
  (List.range subst.length).foldlM (fun subst i => do
    match subst[i]? with
    | some (some v) => return subst.set i (some (← resolveOne subst v))
    | _ => return subst) subst

def use (subst : Subst) (v : ValueId) : ValueId := (subst[v]?.getD none).getD v

/-- An id past the table panics. -/
def rewriteUses (f : Function) (subst : Subst) : Except Stop Function :=
  if ∀ block ∈ f.blocks, ∀ u ∈ block.uses, u.2 < subst.length then .ok (f.mapUses (use subst))
  else .error .panicked

/-- Whether the graph has changed, and what it has become. -/
def run (f : Function) : Except Stop (Bool × Function) := do
  let st ← f.blocks.foldlM visitBlock ⟨List.replicate f.valueCount none, [], false⟩
  if st.changed then
    let subst ← resolve st.subst
    return (true, ← rewriteUses f subst)
  else return (false, f)

end Cse

end Slag.Jit
