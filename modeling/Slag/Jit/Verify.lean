import Slag.Jit.Ir

/-!
The graph verifier, pass by pass, and what a well-formed graph is: one
definition per value, reachable and terminated blocks, matching edges, and on
every walk from the entry each use after its definition.
-/

namespace Slag.Jit

inductive Error
  | missingTerminator (b : BlockId)
  | unreachableBlock (b : BlockId)
  | edgeOutOfRange (source target : BlockId)
  | edgeArity (source target : BlockId) (expected got : Nat)
  | entryHasParams (count : Nat)
  | undefinedValue (block : BlockId) (value : ValueId)
  | duplicateDefinition (value : ValueId)
  | valueOutOfRange (value : ValueId)
  | useNotDominated (block : BlockId) (value : ValueId)
  | typeMismatch (value : ValueId) (inst table : Ty)
deriving DecidableEq, Repr

/-- Why the verifier stops early: it refuses the graph, or indexes past a
vector's end, or a loop of its does not end. -/
inductive Stop
  | refused (e : Error)
  | panicked
  | diverged
deriving DecidableEq, Repr

/-- Where each value is defined, and at which instruction; a parameter has no
position. -/
structure Defs where
  block : List (Option BlockId)
  pos : List (Option Nat)

def Defs.none (count : Nat) : Defs := ⟨List.replicate count .none, List.replicate count .none⟩

def define (defs : Defs) (v : ValueId) (b : BlockId) (pos : Option Nat) : Except Stop Defs :=
  match defs.block[v]? with
  | .none => .error (.refused (.valueOutOfRange v))
  | some (some _) => .error (.refused (.duplicateDefinition v))
  | some .none => .ok ⟨defs.block.set v (some b), defs.pos.set v pos⟩

def defineInst (f : Function) (b : BlockId) (defs : Defs) (inst : Inst) (i : Nat) :
    Except Stop Defs :=
  match inst.result with
  | .none => .ok defs
  | some r =>
      -- the type is looked up before `define` has tested the id
      match f.valueTypes[r]? with
      | .none => .error .panicked
      | some table =>
          if inst.ty ≠ table then .error (.refused (.typeMismatch r inst.ty table))
          else define defs r b (some i)

def terminated (defs : Defs) (b : BlockId) (term : Option Term) : Except Stop Defs :=
  match term with
  | .none => .error (.refused (.missingTerminator b))
  | some _ => .ok defs

def defineBlock (f : Function) (defs : Defs) (block : Block) (b : BlockId) : Except Stop Defs := do
  let defs ← block.params.foldlM (fun defs p => define defs p b .none) defs
  let defs ← block.insts.zipIdx.foldlM (fun defs e => defineInst f b defs e.1 e.2) defs
  terminated defs b block.term

def definitions (f : Function) : Except Stop Defs :=
  f.blocks.zipIdx.foldlM (fun defs e => defineBlock f defs e.1 e.2) (Defs.none f.valueCount)

def reachability (f : Function) : Except Stop Unit :=
  match FlowGraph.reachableFrom f.successors f.blockCount f.entry with
  | .none => .error .diverged
  | some marks =>
      match marks.findIdx? fun ok => !ok with
      | some b => .error (.refused (.unreachableBlock b))
      | .none => .ok ()

def dominators (f : Function) : Except Stop FlowGraph.Table :=
  match FlowGraph.dominatorTable (FlowGraph.predsOf f.successors f.blockCount) f.entry
      f.blockCount with
  | .none => .error .diverged
  | some dom => .ok dom

def checkUse (defs : Defs) (dom : FlowGraph.Table) (b : BlockId) (pos : Nat) (v : ValueId) :
    Except Stop Unit :=
  match defs.block[v]? with
  | .none => .error (.refused (.valueOutOfRange v))
  | some .none => .error (.refused (.undefinedValue b v))
  | some (some db) =>
      if db = b then
        match defs.pos[v]?.getD .none with
        | .none => .ok ()
        | some dp => if dp < pos then .ok () else .error (.refused (.useNotDominated b v))
      else if dom.holds b db then .ok ()
      else .error (.refused (.useNotDominated b v))

def checkUses (defs : Defs) (dom : FlowGraph.Table) (b : BlockId) (pos : Nat)
    (vs : List ValueId) : Except Stop Unit :=
  vs.forM (checkUse defs dom b pos)

def checkEdge (f : Function) (source target : BlockId) (got : Nat) : Except Stop Unit :=
  if f.blockCount ≤ target then .error (.refused (.edgeOutOfRange source target))
  else if got ≠ (f.block target).params.length then
    .error (.refused (.edgeArity source target (f.block target).params.length got))
  else .ok ()

def checkTerm (f : Function) (defs : Defs) (dom : FlowGraph.Table) (b : BlockId) (pos : Nat) :
    Option Term → Except Stop Unit
  | some (.jump target args) => do
      checkEdge f b target args.length
      checkUses defs dom b pos args
  | some (.branch cond thenBlock thenArgs elseBlock elseArgs) => do
      checkUse defs dom b pos cond
      checkEdge f b thenBlock thenArgs.length
      checkEdge f b elseBlock elseArgs.length
      checkUses defs dom b pos thenArgs
      checkUses defs dom b pos elseArgs
  | some (.ret (some v)) => checkUse defs dom b pos v
  | some (.throw v) => checkUse defs dom b pos v
  | some (.ret .none) | some .unreachable => .ok ()
  | .none => .error .panicked

def checkBlock (f : Function) (defs : Defs) (dom : FlowGraph.Table) (block : Block)
    (b : BlockId) : Except Stop Unit := do
  block.insts.zipIdx.forM fun e => checkUses defs dom b e.2 e.1.args
  checkTerm f defs dom b block.insts.length block.term

def verify (f : Function) : Except Stop Unit := do
  if (f.block f.entry).params ≠ [] then
    throw (.refused (.entryHasParams (f.block f.entry).params.length))
  let defs ← definitions f
  reachability f
  let dom ← dominators f
  f.blocks.zipIdx.forM fun e => checkBlock f defs dom e.1 e.2

/-- A definition of a value: by a parameter of the block, or by the
instruction at a position. -/
structure Site where
  value : ValueId
  block : BlockId
  pos : Option Nat
deriving DecidableEq, Repr

def instSite (b : BlockId) (e : Inst × Nat) : Option Site := e.1.result.map (⟨·, b, some e.2⟩)

def Block.sites (block : Block) (b : BlockId) : List Site :=
  block.params.map (⟨·, b, none⟩) ++ block.insts.zipIdx.filterMap (instSite b)

/-- The values a block reads, each with the position that reads it. -/
def Block.uses (block : Block) : List (Nat × ValueId) :=
  block.insts.zipIdx.flatMap (fun e => e.1.args.map (e.2, ·)) ++
    (block.term.elim [] Term.uses).map (block.insts.length, ·)

/-- The definition comes before a position of a block, for a walk that has
left the blocks of `done`. -/
def Site.Before (s : Site) (done : List BlockId) (b : BlockId) (pos : Nat) : Prop :=
  s.block ∈ done ∨ s.block = b ∧ ∀ i, s.pos = some i → i < pos

namespace Function

def sites (f : Function) : List Site := f.blocks.zipIdx.flatMap fun e => e.1.sites e.2

abbrev Walk (f : Function) : List BlockId → BlockId → Prop := FlowGraph.Walk f.entry f.Edge

structure WellFormed (f : Function) : Prop where
  entry : (f.block f.entry).params = []
  single : (f.sites.map Site.value).Nodup
  known : ∀ s ∈ f.sites, s.value < f.valueCount
  types : ∀ block ∈ f.blocks, ∀ inst ∈ block.insts, ∀ r, inst.result = some r →
    f.valueTypes[r]? = some inst.ty
  terminated : ∀ block ∈ f.blocks, block.term ≠ none
  reachable : ∀ b < f.blockCount, FlowGraph.Reaches f.entry f.Edge b
  edges : ∀ block ∈ f.blocks, ∀ term, block.term = some term → ∀ e ∈ term.edges,
    e.1 < f.blockCount ∧ e.2.length = (f.block e.1).params.length
  defined : ∀ b done, f.Walk done b → ∀ u ∈ (f.block b).uses,
    ∃ s ∈ f.sites, s.value = u.2 ∧ s.Before done b u.1

end Function

end Slag.Jit
