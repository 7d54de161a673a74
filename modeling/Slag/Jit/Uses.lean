import Slag.Jit.Runs

/-!
Redirecting the uses of values: a graph stays verified when the new values are
defined before the uses, and runs as before when they are equal there.
-/

namespace Slag.Jit

open FlowGraph

def Inst.mapUses (h : ValueId → ValueId) (inst : Inst) : Inst := { inst with args := inst.args.map h }

def Block.mapUses (h : ValueId → ValueId) (block : Block) : Block where
  params := block.params
  insts := block.insts.map (Inst.mapUses h)
  term := block.term.map (Term.mapUses h)

/-- Every instruction argument, branch condition and edge argument. -/
def Function.mapUses (h : ValueId → ValueId) (f : Function) : Function where
  blocks := f.blocks.map (Block.mapUses h)
  valueTypes := f.valueTypes
  entry_lt := by rw [List.length_map]; exact f.entry_lt

section MapUses

variable {f : Function} {h : ValueId → ValueId} {b : BlockId}

theorem Function.mapUses_block (b : BlockId) : (f.mapUses h).block b = (f.block b).mapUses h := by
  simp only [Function.block, Function.mapUses, List.getElem?_map]
  cases f.blocks[b]? with
  | none => rfl
  | some block => rfl

theorem Function.mapUses_blockCount : (f.mapUses h).blockCount = f.blockCount := List.length_map _

theorem Term.mapUses_successors (t : Term) : (t.mapUses h).successors = t.successors := by
  cases t <;> rfl

theorem Term.mapUses_uses (t : Term) : (t.mapUses h).uses = t.uses.map h := by
  cases t with
  | jump | throw | unreachable => rfl
  | branch =>
      simp only [Term.mapUses, Term.uses, List.map_cons, List.map_append]
  | ret value => cases value <;> rfl

theorem Term.mapUses_edges (t : Term) :
    (t.mapUses h).edges = t.edges.map fun e => (e.1, e.2.map h) := by
  cases t <;> rfl

theorem Function.mapUses_edge : (f.mapUses h).Edge = f.Edge := by
  have hsucc : (f.mapUses h).successors = f.successors := by
    funext b
    rw [Function.successors, Function.successors, Function.mapUses_block, Block.mapUses]
    cases (f.block b).term with
    | none => rfl
    | some term => exact Term.mapUses_successors term
  rw [Function.Edge, Function.Edge, hsucc, Function.mapUses_blockCount]

theorem Block.mapUses_sites (block : Block) (b : BlockId) :
    (block.mapUses h).sites b = block.sites b := by
  rw [Block.sites, Block.sites, Block.mapUses, List.zipIdx_map, List.filterMap_map]
  rfl

theorem Function.mapUses_sites : (f.mapUses h).sites = f.sites := by
  rw [Function.sites, Function.sites, Function.mapUses, List.zipIdx_map, List.flatMap_map]
  exact List.flatMap_congr fun e _ => Block.mapUses_sites e.1 e.2

theorem Block.mem_mapUses_uses {block : Block} {u : Nat × ValueId} :
    u ∈ (block.mapUses h).uses ↔ ∃ v, (u.1, v) ∈ block.uses ∧ h v = u.2 := by
  obtain ⟨pos, w⟩ := u
  simp only [mem_uses, Block.mapUses, List.getElem?_map, List.length_map, Option.map_eq_some_iff]
  constructor
  · rintro (⟨inst', ⟨inst, hi, rfl⟩, hw⟩ | ⟨rfl, term', ⟨term, ht, rfl⟩, hw⟩)
    · obtain ⟨v, hv, rfl⟩ := List.mem_map.mp hw
      exact ⟨v, .inl ⟨inst, hi, hv⟩, rfl⟩
    · rw [Term.mapUses_uses] at hw
      obtain ⟨v, hv, rfl⟩ := List.mem_map.mp hw
      exact ⟨v, .inr ⟨rfl, term, ht, hv⟩, rfl⟩
  · rintro ⟨v, ⟨inst, hi, hv⟩ | ⟨rfl, term, ht, hv⟩, rfl⟩
    · exact .inl ⟨_, ⟨inst, hi, rfl⟩, List.mem_map_of_mem hv⟩
    · refine .inr ⟨rfl, _, ⟨term, ht, rfl⟩, ?_⟩
      rw [Term.mapUses_uses]
      exact List.mem_map_of_mem hv

/-- Uses may be redirected to values that are defined before them. -/
theorem Function.WellFormed.mapUses (hf : f.WellFormed)
    (hh : ∀ b, ∀ u ∈ (f.block b).uses, f.DefinedAt b u.1 (h u.2)) : (f.mapUses h).WellFormed where
  entry := by
    rw [Function.mapUses_block]
    exact hf.entry
  single := by
    rw [Function.mapUses_sites]
    exact hf.single
  known := by
    rw [Function.mapUses_sites]
    exact hf.known
  types := by
    intro block hblock inst hinst r hr
    obtain ⟨old, hold, rfl⟩ := List.mem_map.mp hblock
    obtain ⟨inst', hinst', rfl⟩ := List.mem_map.mp hinst
    exact hf.types old hold inst' hinst' r hr
  terminated := by
    intro block hblock
    obtain ⟨old, hold, rfl⟩ := List.mem_map.mp hblock
    exact fun hnone => hf.terminated old hold (Option.map_eq_none_iff.mp hnone)
  reachable := by
    rw [Function.mapUses_blockCount, Function.mapUses_edge]
    exact hf.reachable
  edges := by
    intro block hblock term hterm e he
    obtain ⟨old, hold, rfl⟩ := List.mem_map.mp hblock
    obtain ⟨term', hterm', rfl⟩ := Option.map_eq_some_iff.mp hterm
    rw [Term.mapUses_edges] at he
    obtain ⟨e', he', rfl⟩ := List.mem_map.mp he
    rw [Function.mapUses_blockCount, Function.mapUses_block, List.length_map]
    exact hf.edges old hold term' hterm' e' he'
  defined := by
    intro b done hw u hu
    rw [Function.mapUses_block] at hu
    obtain ⟨v, hv, heq⟩ := Block.mem_mapUses_uses.mp hu
    rw [Function.Walk, Function.mapUses_edge] at hw
    rw [Function.mapUses_sites, ← heq]
    exact hh b _ hv done hw

theorem Inst.mapUses_args {ν ω : Type} {R : Runtime ν ω} {s : Machine ν ω} {inst : Inst}
    (hargs : ∀ v ∈ inst.args, s.env (h v) = s.env v) :
    s.args R (inst.mapUses h) = s.args R inst := by
  have hslots : R.slotsRead (inst.mapUses h) = R.slotsRead inst := rfl
  rw [Machine.args, Machine.args, hslots, Inst.mapUses, List.map_map]
  exact congrArg (· ++ _) (List.map_congr_left hargs)

theorem Inst.mapUses_exec {ν ω : Type} {R : Runtime ν ω} {s : Machine ν ω} {inst : Inst}
    (hargs : ∀ v ∈ inst.args, s.env (h v) = s.env v) :
    s.exec R (inst.mapUses h) = s.exec R inst ∧ s.entry R (inst.mapUses h) = s.entry R inst := by
  have hsame := Inst.mapUses_args (R := R) hargs
  have hvalues : (inst.mapUses h).args.map s.env = inst.args.map s.env := by
    rw [Inst.mapUses, List.map_map]
    exact List.map_congr_left hargs
  refine ⟨?_, ?_⟩
  · by_cases hop : inst.isAccess = false
    · have hop' : (inst.mapUses h).isAccess = false := hop
      rw [Machine.exec_call hop, Machine.exec_call hop', hsame]
      rfl
    · obtain ⟨slot, himm, hop | hop⟩ := Inst.access_cases hop
      · have hop' : (inst.mapUses h).op = .frameLoad := hop
        have himm' : (inst.mapUses h).imm = .slot slot := himm
        exact (Machine.exec_load hop' himm').trans (Machine.exec_load hop himm).symm
      · have hop' : (inst.mapUses h).op = .frameStore := hop
        have himm' : (inst.mapUses h).imm = .slot slot := himm
        simp only [Machine.exec, hop, himm, hop', himm', hvalues]
  · rw [Machine.entry, Machine.entry, hsame]
    rfl

variable {ν ω : Type} {R : Runtime ν ω} {s₀ : Machine ν ω}

/-- Where redirected uses have the same values, every block runs as before. -/
theorem Function.mapUses_execAll {done : List BlockId} {before insts : List Inst} {s : Machine ν ω}
    (hh : ∀ done b i s, At R f s₀ done b i s → ∀ v, (i, v) ∈ (f.block b).uses → s.env (h v) = s.env v)
    (hinsts : (f.block b).insts = before ++ insts) (hat : At R f s₀ done b before.length s) :
    s.execAll R (insts.map (Inst.mapUses h)) = s.execAll R insts := by
  induction insts generalizing before s with
  | nil => rfl
  | cons inst insts ih =>
      obtain ⟨hi, hafter⟩ := hat.step hinsts
      obtain ⟨hexec, hentry⟩ := Inst.mapUses_exec (R := R) fun v hv =>
        hh done b _ s hat v (mem_uses.mpr (.inl ⟨inst, hi, hv⟩))
      rw [List.map_cons, Machine.execAll, Machine.execAll, hexec, hentry]
      cases hnext : s.exec R inst with
      | mk ok s' =>
          cases ok with
          | false => rfl
          | true =>
              rw [List.append_cons] at hinsts
              simp only [if_true, ih hinsts (hafter s' hnext)]

theorem Term.mapUses_leave {s : Machine ν ω} {term : Option Term}
    (hh : ∀ t, term = some t → ∀ v ∈ t.uses, s.env (h v) = s.env v) :
    Term.leave R s (term.map (Term.mapUses h)) = Term.leave R s term := by
  cases term with
  | none => rfl
  | some t =>
      have hlist : ∀ vs : List ValueId, (∀ v ∈ vs, v ∈ t.uses) →
          (vs.map h).map s.env = vs.map s.env := by
        intro vs hvs
        rw [List.map_map]
        exact List.map_congr_left fun v hv => hh t rfl v (hvs v hv)
      cases t with
      | jump target args => exact congrArg (Leaving.goto target) (hlist args fun _ => id)
      | branch cond thenBlock thenArgs elseBlock elseArgs =>
          have hcond : s.env (h cond) = s.env cond := hh _ rfl _ List.mem_cons_self
          have hthen := hlist thenArgs fun v hv =>
            List.mem_cons_of_mem _ (List.mem_append_left _ hv)
          have helse := hlist elseArgs fun v hv =>
            List.mem_cons_of_mem _ (List.mem_append_right _ hv)
          simp only [Option.map_some, Term.mapUses, Term.leave, hcond, hthen, helse]
      | ret value =>
          cases value with
          | none => rfl
          | some v =>
              have hv : s.env (h v) = s.env v := hh _ rfl v (List.mem_singleton.mpr rfl)
              simp only [Option.map_some, Term.mapUses, Term.leave, hv]
      | throw v =>
          have hv : s.env (h v) = s.env v := hh _ rfl v (List.mem_singleton.mpr rfl)
          simp only [Option.map_some, Term.mapUses, Term.leave, hv]
      | unreachable => rfl

theorem Function.mapUses_runFrom (fuel : Nat) {done : List BlockId} {s : Machine ν ω}
    (hh : ∀ done b i s, At R f s₀ done b i s → ∀ v, (i, v) ∈ (f.block b).uses → s.env (h v) = s.env v)
    (hat : At R f s₀ done b 0 s) : (f.mapUses h).runFrom R fuel b s = f.runFrom R fuel b s := by
  induction fuel generalizing done b s with
  | zero => rfl
  | succ fuel ih =>
      have hinsts : (f.block b).insts = [] ++ (f.block b).insts := rfl
      have hall := Function.mapUses_execAll hh hinsts hat
      have hblock : ((f.mapUses h).block b).insts = (f.block b).insts.map (Inst.mapUses h) := by
        rw [Function.mapUses_block]
        rfl
      have hterm : ((f.mapUses h).block b).term = (f.block b).term.map (Term.mapUses h) := by
        rw [Function.mapUses_block]
        rfl
      rw [Function.runFrom_succ, Function.runFrom_succ, hblock, hterm, hall]
      cases hok : (s.execAll R (f.block b).insts).2.1 with
      | false => rfl
      | true =>
          have hend := hat.execAll hinsts hok
          have hleave := Term.mapUses_leave (R := R) (h := h) fun t ht v hv =>
            hh done b _ _ hend v (mem_uses.mpr (.inr ⟨rfl, t, ht, hv⟩))
          simp only [if_true, hleave]
          cases hgo : Term.leave R (s.execAll R (f.block b).insts).2.2 (f.block b).term with
          | ends e => rfl
          | goto target values =>
              have hparams : ((f.mapUses h).block target).params = (f.block target).params := by
                rw [Function.mapUses_block]
                rfl
              simp only [hparams, ih (hend.edge hgo)]

end MapUses

end Slag.Jit
