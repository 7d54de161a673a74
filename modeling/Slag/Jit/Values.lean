import Slag.Jit.Reshape
import Slag.Jit.Runs

/-!
The values of a run: what holds of each from its definition on, and the
equation between a value and the operands of the instruction that defines it.
-/

namespace Slag.Jit

open FlowGraph

variable {inst : Inst} {v : ValueId}

/-- A value is defined by one instruction at most. -/
theorem Function.WellFormed.inst_eq {f : Function} (hf : f.WellFormed) {b c : BlockId} {i j : Nat}
    {inst inst' : Inst} (hi : (f.block b).insts[i]? = some inst)
    (hj : (f.block c).insts[j]? = some inst') {r : ValueId} (hr : inst.result = some r)
    (hr' : inst'.result = some r) : b = c ∧ i = j ∧ inst = inst' := by
  obtain ⟨rfl, hpos⟩ := site_eq hf.loose (site_of_result (lt_of_inst hi) hi hr)
    (site_of_result (lt_of_inst hj) hj hr')
  obtain rfl := Option.some.inj hpos
  rw [hi] at hj
  exact ⟨rfl, rfl, Option.some.inj hj⟩

theorem Inst.mem_of_storeOf {slot : Nat} (h : inst.storeOf = some (slot, v)) : v ∈ inst.args := by
  unfold Inst.storeOf at h
  split at h
  · rename_i hargs
    cases h
    rw [hargs]
    exact List.mem_cons_self
  · cases h

namespace Machine

variable {ν ω : Type} {s : Machine ν ω}

/-- A parameter has the value that is passed for it. -/
theorem assign_env_of_mem {vs : List ValueId} {values : List ν} {x : ν} (hnd : vs.Nodup)
    (h : (v, x) ∈ vs.zip values) : (s.assign vs values).env v = x := by
  induction vs generalizing values s with
  | nil => cases h
  | cons w vs ih =>
      cases values with
      | nil => cases h
      | cons y values =>
          obtain ⟨hnot, hnd⟩ := List.nodup_cons.mp hnd
          have hstep : (s.assign (w :: vs) (y :: values)).env =
              ((s.assign [w] [y]).assign vs values).env := rfl
          rw [hstep]
          rcases List.mem_cons.mp h with heq | hmem
          · cases heq
            rw [assign_env_of_notMem hnot, assign_single, Function.update_self]
          · exact ih hnd hmem

/-- The value of an instruction that is no access. -/
theorem exec_result {ν ω : Type} {R : Runtime ν ω} {s s' : Machine ν ω} (hop : inst.isAccess = false)
    (h : s.exec R inst = (true, s')) (hv : inst.result = some v) : ∃ binds world,
      R.exec inst.op inst.ty inst.imm (s.args R inst) s.world = .next (s'.env v) binds world := by
  rw [exec_call hop] at h
  split at h
  · rename_i value binds world hexec
    cases h
    refine ⟨binds, world, ?_⟩
    rw [hexec, hv]
    have hsame := Function.update_self v value s.env
    exact congrArg (Outcome.next · binds world) hsame.symm
  · cases h

end Machine

namespace Function

variable {ν ω : Type} {R : Runtime ν ω} {f : Function} {s₀ s : Machine ν ω} {done : List BlockId}
variable {b : BlockId} {i : Nat}

/-- The value is defined somewhere. -/
def Defined (f : Function) (v : ValueId) : Prop := ∃ s ∈ f.sites, s.value = v

theorem WellFormed.use (hf : f.WellFormed) (hu : (i, v) ∈ (f.block b).uses) :
    f.Defined v ∧ f.Avail b i v := by
  obtain ⟨done, hw⟩ := hf.reachable b (lt_of_mem_uses hu)
  obtain ⟨s, hs, hv, -⟩ := hf.defined b done hw _ hu
  exact ⟨⟨s, hs, hv⟩, hf.loose.defined b _ hu⟩

theorem WellFormed.params_nodup (hf : f.WellFormed) (hb : b < f.blockCount) :
    (f.block b).params.Nodup := by
  have hblock : ((f.block b).params ++ (f.block b).insts.filterMap Inst.result).Sublist
      (f.sites.map Site.value) := by
    rw [sites_values, List.flatMap_def]
    exact List.sublist_flatten_of_mem (List.mem_map_of_mem (block_mem hb))
  exact ((List.sublist_append_left _ _).trans hblock).nodup hf.single

/-- Nothing is defined where a run starts. -/
theorem not_avail_start (hf : f.WellFormed) (hv : f.Defined v) :
    ¬ f.Avail f.entry 0 v := by
  intro h
  obtain ⟨⟨v, c, pos⟩, hs, rfl⟩ := hv
  rcases h _ hs rfl [] .root with hmem | ⟨rfl, hpos⟩
  · cases hmem
  · cases pos with
    | none =>
        have hparam : v ∈ (f.block f.entry).params := (mem_sites.mp hs).2
        rw [hf.entry] at hparam
        cases hparam
    | some k => exact absurd (hpos k rfl) (Nat.not_lt_zero k)

/-- A run, and the slots of which a store wrote last what they hold. -/
inductive Traced (R : Runtime ν ω) (f : Function) (s₀ : Machine ν ω) :
    List BlockId → BlockId → Nat → Machine ν ω → (Nat → Prop) → Prop
  | start : Traced R f s₀ [] f.entry 0 s₀ fun _ => False
  | exec {done : List BlockId} {b : BlockId} {i : Nat} {s s' : Machine ν ω} {stored : Nat → Prop}
      {inst : Inst} (h : Traced R f s₀ done b i s stored) (hi : (f.block b).insts[i]? = some inst)
      (he : s.exec R inst = (true, s')) : Traced R f s₀ done b (i + 1) s' fun slot =>
        (∃ v, inst.storeOf = some (slot, v)) ∨ stored slot ∧ slot ∉ R.slotsBound inst
  | edge {done : List BlockId} {b target : BlockId} {s : Machine ν ω} {stored : Nat → Prop}
      {values : List ν} (h : Traced R f s₀ done b (f.block b).insts.length s stored)
      (ht : Term.leave R s (f.block b).term = .goto target values) :
      Traced R f s₀ (b :: done) target 0 (s.assign (f.block target).params values) stored

theorem Traced.at {stored : Nat → Prop} (h : Traced R f s₀ done b i s stored) :
    At R f s₀ done b i s := by
  induction h with
  | start => exact .start
  | exec _ hi he ih => exact ih.exec hi he
  | edge _ ht ih => exact ih.edge ht

theorem At.traced (h : At R f s₀ done b i s) : ∃ stored, Traced R f s₀ done b i s stored := by
  induction h with
  | start => exact ⟨_, .start⟩
  | exec _ hi he ih =>
      obtain ⟨stored, hs⟩ := ih
      exact ⟨_, hs.exec hi he⟩
  | edge _ ht ih =>
      obtain ⟨stored, hs⟩ := ih
      exact ⟨_, hs.edge ht⟩

/-- What the defining instruction, or the edge, makes of a value holds as long
as the value is available, and what is stored to a slot as long as it is there. -/
theorem Traced.holds (hf : f.WellFormed) {Q : ValueId → ν → Prop} {P : Nat → ν → Prop}
    (hstore : ∀ inst ∈ f.blocks.flatMap Block.insts, ∀ slot v, inst.storeOf = some (slot, v) →
      ∀ x, Q v x → P slot x)
    (hinst : ∀ done b i s stored s' inst v, Traced R f s₀ done b i s stored →
      (f.block b).insts[i]? = some inst → inst.result = some v → s.exec R inst = (true, s') →
      (∀ u, f.Defined u → f.Avail b i u → Q u (s.env u)) →
      (∀ slot, stored slot → P slot (s.frame slot)) → Q v (s'.env v))
    (hedge : ∀ done b s target values, At R f s₀ done b (f.block b).insts.length s →
      Term.leave R s (f.block b).term = .goto target values →
      (∀ u, f.Defined u → f.Avail b (f.block b).insts.length u → Q u (s.env u)) →
      ∀ e ∈ (f.block target).params.zip values, Q e.1 e.2)
    {stored : Nat → Prop} (h : Traced R f s₀ done b i s stored) :
    (∀ v, f.Defined v → f.Avail b i v → Q v (s.env v)) ∧
      ∀ slot, stored slot → P slot (s.frame slot) := by
  induction h with
  | start => exact ⟨fun v hv hav => absurd hav (not_avail_start hf hv), fun _ => False.elim⟩
  | @exec done b i s s' stored inst h hi hexec ih =>
      obtain ⟨hvalues, hslots⟩ := ih
      have huses : ∀ u, (i, u) ∈ (f.block b).uses → Q u (s.env u) := fun u hu =>
        hvalues u (hf.use hu).1 (hf.use hu).2
      refine ⟨fun v hv hav => ?_, fun slot hslot => ?_⟩
      · by_cases hr : inst.result = some v
        · exact hinst done b i s stored s' inst v h hi hr hexec hvalues hslots
        · rw [Machine.exec_env hexec hr]
          refine hvalues v hv (hav.before fun inst' hi' => ?_)
          rw [hi] at hi'
          cases hi'
          exact hr
      · by_cases hsto : ∃ v, inst.storeOf = some (slot, v)
        · obtain ⟨v, hv⟩ := hsto
          have hmem : v ∈ inst.args := Inst.mem_of_storeOf hv
          have hin : inst ∈ f.blocks.flatMap Block.insts :=
            List.mem_flatMap.mpr ⟨_, block_mem (lt_of_inst hi), List.mem_of_getElem? hi⟩
          rw [Machine.exec_stored hexec hv, Function.update_self]
          exact hstore inst hin slot v hv _ (huses v (mem_uses.mpr (.inl ⟨inst, hi, hmem⟩)))
        · obtain ⟨hold, hbound⟩ := hslot.resolve_left hsto
          rw [Machine.exec_slot hexec hbound]
          exact hslots slot hold
  | @edge done b target s stored values h hleave ih =>
      obtain ⟨hvalues, hslots⟩ := ih
      refine ⟨fun v hv hav => ?_, hslots⟩
      obtain ⟨t, hterm, args, he, rfl⟩ := Term.leave_goto hleave
      have hat := h.at
      have hb := hat.lt hf.loose
      have hstep := hf.loose.edge hb hterm he
      by_cases hparam : v ∈ (f.block target).params
      · have hlen : ((f.block target).params).length ≤ (args.map s.env).length := by
          rw [List.length_map]
          exact (hf.loose.edges b hb t hterm _ he).2
        obtain ⟨n, hn, rfl⟩ := List.getElem_of_mem hparam
        have hzip : ((f.block target).params[n], (args.map s.env)[n]) ∈
            (f.block target).params.zip (args.map s.env) := by
          refine List.mem_iff_getElem.mpr ⟨n, ?_, ?_⟩
          · rw [List.length_zip, Nat.min_eq_left hlen]
            exact hn
          · rw [List.getElem_zip]
        rw [Machine.assign_env_of_mem (hf.params_nodup hstep.2.1) hzip]
        exact hedge done b s target _ hat hleave hvalues _ hzip
      · rw [Machine.assign_env_of_notMem hparam]
        exact hvalues v hv (hav.across hstep hparam)

/-- A value is, wherever it is available, what its instruction makes of the
operands as they are there. -/
theorem At.equation (hf : f.WellFormed) {d : BlockId} {k : Nat} (hk : (f.block d).insts[k]? = some inst)
    (hv : inst.result = some v) {P : List ν → ν → Prop}
    (hexec : ∀ done s s', At R f s₀ done d k s → s.exec R inst = (true, s') →
      P (inst.args.map s.env) (s'.env v)) (hat : At R f s₀ done b i s) (hav : f.Avail b i v) :
    P (inst.args.map s.env) (s.env v) := by
  have hloose := hf.loose
  have hsite := site_of_result (lt_of_inst hk) hk hv
  have huse : ∀ a ∈ inst.args, f.Avail d k a := fun a ha =>
    hloose.defined d _ (mem_uses.mpr (.inl ⟨inst, hk, ha⟩))
  induction hat with
  | start => exact absurd hav (not_avail_start hf ⟨_, hsite, rfl⟩)
  | @exec done b i s s' now hat hi hnow ih =>
      by_cases hr : now.result = some v
      · obtain ⟨rfl, rfl, rfl⟩ := hf.inst_eq hi hk hr hv
        have hargs : now.args.map s'.env = now.args.map s.env := by
          refine List.map_congr_left fun a ha => Machine.exec_env hnow fun hra => ?_
          exact Nat.lt_irrefl _
            (not_avail_self hloose (huse a ha) (site_of_result (lt_of_inst hk) hk hra))
        rw [hargs]
        exact hexec done s s' hat hnow
      · have hbefore : f.Avail b i v := by
          refine hav.before fun inst' hi' => ?_
          rw [hi] at hi'
          cases hi'
          exact hr
        have hargs : inst.args.map s'.env = inst.args.map s.env := by
          refine List.map_congr_left fun a ha => Machine.exec_env hnow fun hra => ?_
          exact Avail.acyclic (site_of_result (lt_of_inst hi) hi hra) hsite rfl
            (hloose.reachable b (lt_of_inst hi)) (huse a ha) hbefore
        rw [hargs, Machine.exec_env hnow hr]
        exact ih hbefore
  | @edge done b target s values hat hleave ih =>
      obtain ⟨t, hterm, args, he, -⟩ := Term.leave_goto hleave
      have hstep := hloose.edge (hat.lt hloose) hterm he
      have hparam : v ∉ (f.block target).params := by
        intro hmem
        have hother : (⟨v, target, none⟩ : Site) ∈ f.sites := mem_sites.mpr ⟨hstep.2.1, hmem⟩
        cases (site_eq hloose hsite hother).2
      have hargs : inst.args.map (s.assign (f.block target).params values).env =
          inst.args.map s.env := by
        refine List.map_congr_left fun a ha => Machine.assign_env_of_notMem fun hmem => ?_
        have hother : (⟨a, target, none⟩ : Site) ∈ f.sites := mem_sites.mpr ⟨hstep.2.1, hmem⟩
        exact Avail.acyclic hother hsite rfl (hloose.reachable target hstep.2.1) (huse a ha) hav
      rw [hargs, Machine.assign_env_of_notMem hparam]
      exact ih (hav.across hstep hparam)

end Function

end Slag.Jit
