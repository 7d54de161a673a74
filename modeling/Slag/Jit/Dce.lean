import Slag.Jit.Verify

/-!
Dead-code elimination: an instruction whose result nothing uses goes, if it is
pure or a load and no guard, until none is left.
-/

namespace Slag.Jit.Dce

def markUse (used : List Bool) (u : Nat × ValueId) : Except Stop (List Bool) :=
  if u.2 < used.length then .ok (used.set u.2 true) else .error .panicked

/-- The values an instruction argument, a branch condition or an edge names. -/
def usedValues (f : Function) : Except Stop (List Bool) :=
  f.blocks.foldlM (fun used block => block.uses.foldlM markUse used)
    (List.replicate f.valueCount false)

/-- The instruction goes if its result is unused. -/
def droppable (inst : Inst) : Bool :=
  inst.result.isSome && !inst.isGuard && (inst.effects.isPure || inst.op == .frameLoad)

def keeps (used : List Bool) (inst : Inst) : Bool :=
  !droppable inst || inst.result.any fun r => used[r]?.getD false

def sweepBlock (used : List Bool) (block : Block) : Block where
  params := block.params
  insts := block.insts.filter (keeps used)
  term := block.term

/-- The result of a droppable instruction is looked up in the table. -/
def asksWithin (f : Function) (used : List Bool) : Bool :=
  f.blocks.all fun block => block.insts.all fun inst =>
    !droppable inst || inst.result.all (· < used.length)

/-- One round, and whether it has removed anything. -/
def round (f : Function) : Except Stop (Bool × Function) := do
  let used ← usedValues f
  if asksWithin f used then
    let removed := f.blocks.any fun block => (sweepBlock used block).insts.length ≠ block.insts.length
    return (removed, f.mapBlocks (sweepBlock used))
  else throw .panicked

def loop : Nat → Bool → Function → Except Stop (Bool × Function)
  | 0, _, _ => .error .diverged
  | fuel + 1, changed, f => do
      let r ← round f
      if r.1 then loop fuel true r.2 else return (changed, r.2)

/-- More rounds than instructions are never made. -/
def run (f : Function) : Except Stop (Bool × Function) := loop (f.instCount + 1) false f

end Slag.Jit.Dce
