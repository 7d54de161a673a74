import Slag.Jit.FoldSound
import Slag.Jit.NarrowFacts

/-!
What narrowing makes of a graph: the instructions one by one, and the table of
the types.
-/

namespace Slag.Jit

namespace Narrow

variable {f g : Function} {φ : Facts} {widen : Bool} {inst : Inst} {b : BlockId}

theorem widenInst_eq (φ : Facts) (widen : Bool) (inst : Inst) :
    ∃ effects, widenInst φ widen inst = { inst with effects } := by
  unfold widenInst
  split
  · exact ⟨_, rfl⟩
  · exact ⟨inst.effects, rfl⟩

/-- Only the type and the effects of an instruction are rewritten. -/
theorem rewriteInst_eq (φ : Facts) (widen : Bool) (inst : Inst) :
    ∃ ty effects, (rewriteInst φ widen inst).1 = { inst with ty, effects } := by
  obtain ⟨effects, hwiden⟩ := widenInst_eq φ widen inst
  unfold rewriteInst
  split
  · split
    · exact ⟨_, inst.effects, rfl⟩
    · split
      · exact ⟨_, inst.effects, rfl⟩
      · exact ⟨inst.ty, inst.effects, rfl⟩
  · split
    · exact ⟨_, _, rfl⟩
    · split
      · refine ⟨if inst.result.any (flag φ.values) then .number else .unknown, effects, ?_⟩
        rw [hwiden]
      · split
        · exact ⟨_, _, rfl⟩
        · exact ⟨inst.ty, effects, hwiden⟩

theorem rewriteInst_op : (rewriteInst φ widen inst).1.op = inst.op := by
  obtain ⟨ty, effects, h⟩ := rewriteInst_eq φ widen inst
  rw [h]

theorem rewriteInst_args : (rewriteInst φ widen inst).1.args = inst.args := by
  obtain ⟨ty, effects, h⟩ := rewriteInst_eq φ widen inst
  rw [h]

theorem rewriteInst_imm : (rewriteInst φ widen inst).1.imm = inst.imm := by
  obtain ⟨ty, effects, h⟩ := rewriteInst_eq φ widen inst
  rw [h]

theorem rewriteInst_result : (rewriteInst φ widen inst).1.result = inst.result := by
  obtain ⟨ty, effects, h⟩ := rewriteInst_eq φ widen inst
  rw [h]

/-- A value that is given a type has the type of its instruction. -/
theorem rewriteInst_ty : (rewriteInst φ widen inst).1.ty = (rewriteInst φ widen inst).2.getD inst.ty := by
  obtain ⟨effects, hwiden⟩ := widenInst_eq φ widen inst
  unfold rewriteInst
  split
  · split
    · rfl
    · split <;> rfl
  · split
    · rfl
    · split
      · rfl
      · split
        · rfl
        · rw [hwiden]
          rfl

section Fusion

theorem insts_mapBlocks (h : Inst → Inst) (hb : Block → Block)
    (heq : ∀ block, (hb block).insts = block.insts.map h) :
    (f.mapBlocks hb).insts = f.insts.map h := by
  rw [Function.insts, Function.insts, Function.mapBlocks, List.flatMap_map, List.map_flatMap]
  exact List.flatMap_congr fun block _ => heq block

theorem defOf_rewritten (hg : g.insts = f.insts.map fun inst => (rewriteInst φ widen inst).1)
    (v : ValueId) : defOf g v = (defOf f v).map fun inst => (rewriteInst φ widen inst).1 := by
  rw [defOf, defOf, hg, ← List.map_reverse, List.find?_map]
  have hsame : ((fun inst : Inst => decide (inst.result = some v)) ∘
      fun inst => (rewriteInst φ widen inst).1) = fun inst => decide (inst.result = some v) := by
    funext inst
    rw [Function.comp, rewriteInst_result]
  rw [hsame]

theorem isZero_rewritten (hg : g.insts = f.insts.map fun inst => (rewriteInst φ widen inst).1)
    (v : ValueId) : isZero g v = isZero f v := by
  rw [isZero, isZero, defOf_rewritten hg]
  cases defOf f v with
  | none => rfl
  | some inst =>
      simp only [Option.map_some]
      rw [rewriteInst_op, rewriteInst_imm]

theorem fusion_rewritten (hg : g.insts = f.insts.map fun inst => (rewriteInst φ widen inst).1)
    (ints : Flags) : fusion g ints (rewriteInst φ widen inst).1 = fusion f ints inst := by
  have htrunc : truncated g (rewriteInst φ widen inst).1 = truncated f inst := by
    unfold truncated
    rw [rewriteInst_op, rewriteInst_args]
    simp only [isZero_rewritten hg]
  have hdef : (truncated f inst).bind (defOf g) =
      ((truncated f inst).bind (defOf f)).map fun inst => (rewriteInst φ widen inst).1 := by
    cases truncated f inst with
    | none => rfl
    | some v => exact defOf_rewritten hg v
  unfold fusion
  rw [htrunc, hdef]
  cases (truncated f inst).bind (defOf f) with
  | none => rfl
  | some d =>
      simp only [Option.map_some]
      rw [rewriteInst_op, rewriteInst_args]

end Fusion

/-- What narrowing makes of an instruction. -/
def narrowInst (f : Function) (φ : Facts) (widen : Bool) (inst : Inst) : Inst :=
  match fusion f φ.ints inst with
  | some (op, args) => { (rewriteInst φ widen inst).1 with op, args, ty := .int }
  | none => (rewriteInst φ widen inst).1

theorem narrowInst_result : (narrowInst f φ widen inst).result = inst.result := by
  unfold narrowInst
  split <;> exact rewriteInst_result

/-- What narrowing makes of a graph. -/
structure Narrowed (f : Function) (φ : Facts) (widen : Bool) (g : Function) : Prop where
  blocks : g.blocks = f.blocks.map fun block =>
    ⟨block.params, block.insts.map (narrowInst f φ widen), block.term⟩
  valueCount : g.valueCount = f.valueCount
  results : ∀ inst ∈ f.insts, ∀ r, inst.result = some r →
    g.valueTypes[r]? = some (rewriteInst φ widen inst).1.ty
  others : ∀ v, v ∉ f.insts.filterMap Inst.result → g.valueTypes[v]? = f.valueTypes[v]?

theorem retypes_sublist : ((retypes φ widen f).map Prod.fst).Sublist
    (f.insts.filterMap Inst.result) := by
  rw [retypes, List.map_filterMap]
  refine Function.sublist_filterMap fun inst => ?_
  cases hr : inst.result with
  | none => exact .inl rfl
  | some r =>
      cases (rewriteInst φ widen inst).2 with
      | none => exact .inl rfl
      | some ty => exact .inr rfl

theorem mem_retypes {inst : Inst} (hinst : inst ∈ f.insts) {r : ValueId} (hr : inst.result = some r)
    {ty : Ty} (hty : (rewriteInst φ widen inst).2 = some ty) : (r, ty) ∈ retypes φ widen f := by
  refine List.mem_filterMap.mpr ⟨inst, hinst, ?_⟩
  rw [hr, hty]
  rfl

/-- Results are told apart. -/
theorem inst_unique (hf : f.WellFormed) {inst inst' : Inst} (h : inst ∈ f.insts)
    (h' : inst' ∈ f.insts) {r : ValueId} (hr : inst.result = some r) (hr' : inst'.result = some r) :
    inst = inst' := by
  obtain ⟨b, i, hi⟩ := Function.mem_insts.mp h
  obtain ⟨c, j, hj⟩ := Function.mem_insts.mp h'
  exact (hf.inst_eq hi hj hr hr').2.2

theorem not_mem_retypes (hf : f.WellFormed) (hinst : inst ∈ f.insts) {r : ValueId}
    (hr : inst.result = some r) (hty : (rewriteInst φ widen inst).2 = none) :
    r ∉ (retypes φ widen f).map Prod.fst := by
  intro hmem
  obtain ⟨⟨v, ty⟩, hv, rfl⟩ := List.mem_map.mp hmem
  obtain ⟨other, hother, heq⟩ := List.mem_filterMap.mp hv
  obtain ⟨w, hw, hpair⟩ := Option.bind_eq_some_iff.mp heq
  obtain ⟨ty', hty', hsame⟩ := Option.map_eq_some_iff.mp hpair
  cases hsame
  obtain rfl := inst_unique hf hinst hother hr hw
  rw [hty] at hty'
  cases hty'

theorem foldlM_retype {l : List (ValueId × Ty)} {c : Bool} (h : l.foldlM Fold.setType f = .ok g) :
    ∃ c', l.foldlM retype (c, f) = .ok (c', g) := by
  induction l generalizing c f with
  | nil =>
      cases h
      exact ⟨c, rfl⟩
  | cons e l ih =>
      obtain ⟨mid, hmid, hrest⟩ := bind_eq_ok.mp h
      unfold Fold.setType at hmid
      split at hmid
      · rename_i hlt
        cases hmid
        obtain ⟨c', hc'⟩ := ih hrest (c := c || decide (f.valueType e.1 ≠ e.2))
        refine ⟨c', ?_⟩
        rw [List.foldlM_cons, retype, if_pos hlt]
        exact hc'
      · cases hmid

theorem rewrite_spec (hf : f.WellFormed) (φ : Facts) (widen : Bool) :
    ∃ r, rewrite φ widen f = .ok r ∧ Narrowed f φ widen r.2 := by
  have hlt : ∀ e ∈ retypes φ widen f, e.1 < (f.mapBlocks (rewriteBlock φ widen)).valueCount := by
    intro e he
    have hmem := retypes_sublist.subset (List.mem_map_of_mem he)
    obtain ⟨inst, hinst, hr⟩ := List.mem_filterMap.mp hmem
    exact hf.loose.result_lt hinst hr
  obtain ⟨g, hg, hblocks, hvalues, hset, hkeep⟩ :=
    Fold.setTypes_spec (retypes_sublist.nodup hf.loose.results_nodup) hlt
  obtain ⟨c, hc⟩ := foldlM_retype (c := f.insts.any fun inst => (rewriteInst φ widen inst).1 ≠ inst) hg
  have hinsts : g.insts = f.insts.map fun inst => (rewriteInst φ widen inst).1 := by
    have hmapped := insts_mapBlocks (f := f) (fun inst => (rewriteInst φ widen inst).1)
      (rewriteBlock φ widen) fun _ => rfl
    rw [← hmapped, Function.insts, hblocks]
    rfl
  refine ⟨_, bind_eq_ok.mpr ⟨_, hc, rfl⟩, ?_, hvalues, fun inst hinst r hr => ?_, fun v hv => ?_⟩
  · change (g.blocks.map (fuseBlock g φ.ints)) = _
    rw [hblocks, Function.mapBlocks, List.map_map]
    refine List.map_congr_left fun block _ => ?_
    simp only [Function.comp, fuseBlock, rewriteBlock, List.map_map]
    congr 1
    refine List.map_congr_left fun inst _ => ?_
    rw [Function.comp, fuseInst, fusion_rewritten hinsts]
    rfl
  · change g.valueTypes[r]? = _
    rw [rewriteInst_ty]
    cases hty : (rewriteInst φ widen inst).2 with
    | some ty => exact hset _ (mem_retypes hinst hr hty)
    | none =>
        rw [hkeep r (not_mem_retypes hf hinst hr hty)]
        obtain ⟨block, hblock, hmem⟩ := List.mem_flatMap.mp hinst
        exact hf.types block hblock inst hmem r hr
  · exact hkeep v fun hmem => hv (retypes_sublist.subset hmem)

/-- Narrowing returns. -/
theorem run_spec (hf : f.WellFormed) (widen : Bool) :
    ∃ r φ, run widen f = .ok r ∧ Justified f φ ∧ Narrowed f φ widen r.2 := by
  obtain ⟨φ, hφ, hfixed⟩ := facts_spec hf.loose
  obtain ⟨r, hr, hnarrowed⟩ := rewrite_spec hf φ widen
  exact ⟨r, φ, bind_eq_ok.mpr ⟨φ, hφ, hr⟩, hfixed.justified hf.loose, hnarrowed⟩

namespace Narrowed

theorem block (h : Narrowed f φ widen g) (b : BlockId) : g.block b =
    ⟨(f.block b).params, (f.block b).insts.map (narrowInst f φ widen), (f.block b).term⟩ := by
  simp only [Function.block]
  rw [h.blocks, List.getElem?_map]
  cases f.blocks[b]? with
  | none => rfl
  | some block => rfl

end Narrowed

end Narrow

end Slag.Jit
