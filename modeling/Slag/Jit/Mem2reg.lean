import Slag.Jit.Verify

/-!
Where promotion of a frame slot to SSA finds it assigned: the blocks that are
entered only past a store of the slot (`mem2reg.rs`).
-/

namespace Slag.Jit

open FlowGraph

def Inst.stores (inst : Inst) (slot : Nat) : Bool :=
  inst.op == .frameStore && inst.imm == .slot slot

namespace Mem2reg

def predecessors (f : Function) : BlockId → List BlockId := predsOf f.successors f.blockCount

def blockStores (f : Function) (b : BlockId) (slot : Nat) : Bool :=
  (f.block b).insts.any (·.stores slot)

/-- Which blocks are entered, and left, only past a store of the slot. -/
structure Reach where
  into : List Bool
  out : List Bool

def Reach.start (f : Function) : Reach where
  into := (List.replicate f.blockCount true).set f.entry false
  out := List.replicate f.blockCount false

def reachInto (f : Function) (out : List Bool) (b : BlockId) : Bool :=
  if b = f.entry ∨ predecessors f b = [] then false
  else (predecessors f b).all fun p => out[p]?.getD false

def reachBlock (f : Function) (slot : Nat) (s : Reach × Bool) (b : BlockId) : Reach × Bool :=
  let rin := reachInto f s.1.out b
  let rout := rin || blockStores f b slot
  if some rin ≠ s.1.into[b]? ∨ some rout ≠ s.1.out[b]? then
    (⟨s.1.into.set b rin, s.1.out.set b rout⟩, true)
  else s

def reachLoop (f : Function) (slot : Nat) : Nat → Reach → Except Stop (List Bool)
  | 0, _ => .error .diverged
  | fuel + 1, r =>
      let s := (List.range f.blockCount).foldl (reachBlock f slot) (r, false)
      if s.2 then reachLoop f slot fuel s.1 else .ok s.1.into

/-- The "assigned on every path" dataflow. -/
def storeReach (f : Function) (slot : Nat) : Except Stop (List Bool) :=
  reachLoop f slot (2 * f.blockCount + 3) (Reach.start f)

end Mem2reg

end Slag.Jit
