import Slag.Jit.Available

/-!
Graphs with the blocks, the parameters and the edges of another: what of their
well-formedness is left to show when instructions come, go or change.
-/

namespace Slag.Jit

open FlowGraph

/-- The edges of a terminator, with how many arguments each passes. -/
def Term.shape (t : Term) : List (BlockId × Nat) := t.edges.map fun e => (e.1, e.2.length)

theorem Term.successors_eq (t : Term) : t.successors = t.shape.map Prod.fst := by
  cases t <;> rfl

namespace Function

/-- The graphs differ in instructions, and in what terminators name, only. -/
structure Reshapes (f g : Function) : Prop where
  count : g.blockCount = f.blockCount
  params : ∀ b, (g.block b).params = (f.block b).params
  shape : ∀ b, (g.block b).term.map Term.shape = (f.block b).term.map Term.shape

variable {f g : Function}

theorem block_of_mem {block : Block} (h : block ∈ f.blocks) :
    ∃ b < f.blockCount, f.block b = block := by
  obtain ⟨b, hb, rfl⟩ := List.getElem_of_mem h
  refine ⟨b, hb, ?_⟩
  rw [Function.block, List.getElem?_eq_getElem hb]
  rfl

theorem successors_eq (f : Function) (b : BlockId) :
    f.successors b = (((f.block b).term.map Term.shape).getD []).map Prod.fst := by
  unfold Function.successors
  cases (f.block b).term with
  | none => rfl
  | some t => exact t.successors_eq

theorem Reshapes.edge (h : f.Reshapes g) : g.Edge = f.Edge := by
  have hsucc : g.successors = f.successors := by
    funext b
    rw [successors_eq, successors_eq, h.shape]
  rw [Function.Edge, Function.Edge, hsucc, h.count]

theorem Reshapes.walk (h : f.Reshapes g) : g.Walk = f.Walk := by
  rw [Function.Walk, Function.Walk, h.edge]
  rfl

/-- What instructions have to keep. -/
theorem WellFormed.reshape (hf : f.WellFormed) (h : f.Reshapes g)
    (single : (g.sites.map Site.value).Nodup) (known : ∀ s ∈ g.sites, s.value < g.valueCount)
    (types : ∀ b, ∀ inst ∈ (g.block b).insts, ∀ r, inst.result = some r →
      g.valueTypes[r]? = some inst.ty)
    (defined : ∀ b, ∀ u ∈ (g.block b).uses, g.DefinedAt b u.1 u.2) : g.WellFormed where
  entry := by
    rw [h.params]
    exact hf.entry
  single := single
  known := known
  types := by
    intro block hblock inst hinst r hr
    obtain ⟨b, -, rfl⟩ := block_of_mem hblock
    exact types b inst hinst r hr
  terminated := by
    intro block hblock hnone
    obtain ⟨b, hb, rfl⟩ := block_of_mem hblock
    have hshape := h.shape b
    rw [hnone, Option.map_none, eq_comm, Option.map_eq_none_iff] at hshape
    exact hf.terminated _ (block_mem (h.count ▸ hb)) hshape
  reachable := by
    rw [h.count, h.edge]
    exact hf.reachable
  edges := by
    intro block hblock term hterm e he
    obtain ⟨b, hb, rfl⟩ := block_of_mem hblock
    have hshape := h.shape b
    rw [hterm, Option.map_some, eq_comm, Option.map_eq_some_iff] at hshape
    obtain ⟨t, ht, hsame⟩ := hshape
    have hmem : (e.1, e.2.length) ∈ t.shape := hsame ▸ List.mem_map_of_mem he
    obtain ⟨e', he', heq⟩ := List.mem_map.mp hmem
    obtain ⟨hfst, hlen⟩ := Prod.mk.inj heq
    obtain ⟨hlt, harity⟩ := hf.edges _ (block_mem (h.count ▸ hb)) t ht e' he'
    rw [h.count, h.params, ← hfst, ← hlen]
    exact ⟨hlt, harity⟩
  defined := by
    intro b done hw u hu
    exact defined b u hu done hw

theorem sublist_flatMap {α β : Type} {l : List α} {g h : α → List β}
    (hsub : ∀ a, (g a).Sublist (h a)) : (l.flatMap g).Sublist (l.flatMap h) := by
  induction l with
  | nil => exact List.Sublist.refl _
  | cons a l ih =>
      rw [List.flatMap_cons, List.flatMap_cons]
      exact (hsub a).append ih

theorem sublist_filterMap {α β : Type} {l : List α} {g h : α → Option β}
    (hsub : ∀ a, g a = none ∨ g a = h a) : (l.filterMap g).Sublist (l.filterMap h) := by
  induction l with
  | nil => exact List.Sublist.refl _
  | cons a l ih =>
      rcases hsub a with hnone | hsame
      · rw [List.filterMap_cons_none hnone]
        refine ih.trans ?_
        cases hh : h a with
        | none => rw [List.filterMap_cons_none hh]
        | some b =>
            rw [List.filterMap_cons_some hh]
            exact List.sublist_cons_self _ _
      · cases hh : h a with
        | none => rwa [List.filterMap_cons_none hh, List.filterMap_cons_none (hsame.trans hh)]
        | some b =>
            rw [List.filterMap_cons_some hh, List.filterMap_cons_some (hsame.trans hh)]
            exact ih.cons_cons b

theorem sites_values (f : Function) : f.sites.map Site.value =
    f.blocks.flatMap fun block => block.params ++ block.insts.filterMap Inst.result := by
  have hblock : ∀ (block : Block) (b : BlockId), (block.sites b).map Site.value =
      block.params ++ block.insts.filterMap Inst.result := by
    intro block b
    rw [Block.sites, List.map_append, List.map_map, List.map_filterMap]
    congr 1
    · exact List.map_id' _
    · have hvalue : (fun e => (instSite b e).map Site.value) = Inst.result ∘ Prod.fst := by
        funext e
        rw [instSite, Option.map_map]
        exact Option.map_id'
      rw [hvalue, ← List.filterMap_map, List.zipIdx_map_fst]
  rw [Function.sites, List.map_flatMap]
  have hfst : (fun e : Block × Nat => (e.1.sites e.2).map Site.value) =
      (fun block : Block => block.params ++ block.insts.filterMap Inst.result) ∘ Prod.fst := by
    funext e
    exact hblock e.1 e.2
  rw [hfst]
  have hmap := List.flatMap_map (Prod.fst : Block × Nat → Block)
    (fun block : Block => block.params ++ block.insts.filterMap Inst.result) f.blocks.zipIdx
  rw [List.zipIdx_map_fst] at hmap
  exact hmap.symm

end Function

end Slag.Jit
