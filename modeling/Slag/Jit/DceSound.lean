import Slag.Jit.Dce
import Slag.Jit.Reshape
import Slag.Jit.Runs
import Slag.Lib.Filtering
import Slag.Lib.Returns

/-!
Elimination ends with nothing dead left, drops nothing that is no dead value,
and keeps a graph verified and what its runs show.
-/

namespace Slag.Jit

/-- Some instruction or terminator names the value. -/
def Function.Uses (f : Function) (v : ValueId) : Prop :=
  ∃ block ∈ f.blocks, ∃ u ∈ block.uses, u.2 = v

namespace Dce

variable {f g : Function} {b : BlockId}

theorem foldlM_markUse {us : List (Nat × ValueId)} {used : List Bool}
    (hlt : ∀ u ∈ us, u.2 < used.length) : ∃ used', us.foldlM markUse used = .ok used' ∧
      used'.length = used.length ∧ ∀ v : ValueId, used'[v]?.getD false = true ↔
        used[v]?.getD false = true ∨ ∃ u ∈ us, u.2 = v := by
  induction us generalizing used with
  | nil => exact ⟨used, rfl, rfl, fun v => by simp⟩
  | cons u us ih =>
      obtain ⟨hu, hus⟩ := List.forall_mem_cons.mp hlt
      have hlen : (used.set u.2 true).length = used.length := List.length_set
      have hrest : ∀ u' ∈ us, u'.2 < (used.set u.2 true).length := hlen ▸ hus
      obtain ⟨used', hfold, hlen', hmem⟩ := ih hrest
      refine ⟨used', ?_, hlen'.trans hlen, fun v => ?_⟩
      · rw [List.foldlM_cons, markUse, if_pos hu]
        exact hfold
      · rw [hmem, FlowGraph.getD_set hu]
        by_cases hv : v = u.2
        · simp [hv]
        · simp [hv, Ne.symm hv]

theorem usedValues_spec (hf : f.Loose) : ∃ used, usedValues f = .ok used ∧
    used.length = f.valueCount ∧ ∀ v : ValueId, used[v]?.getD false = true ↔ f.Uses v := by
  have hblocks : ∀ (blocks : List Block) (used : List Bool), used.length = f.valueCount →
      (∀ block ∈ blocks, ∀ u ∈ block.uses, u.2 < f.valueCount) →
      ∃ used', blocks.foldlM (fun used block => block.uses.foldlM markUse used) used = .ok used' ∧
        used'.length = f.valueCount ∧ ∀ v : ValueId, used'[v]?.getD false = true ↔
          used[v]?.getD false = true ∨ ∃ block ∈ blocks, ∃ u ∈ block.uses, u.2 = v := by
    intro blocks
    induction blocks with
    | nil => exact fun used hlen _ => ⟨used, rfl, hlen, fun v => by simp⟩
    | cons block blocks ih =>
        intro used hlen hsmall
        obtain ⟨hhead, htail⟩ := List.forall_mem_cons.mp hsmall
        obtain ⟨mid, hmid, hmidlen, hmidmem⟩ := foldlM_markUse (hlen ▸ hhead)
        obtain ⟨used', hfold, hlen', hmem⟩ := ih mid (hmidlen.trans hlen) htail
        refine ⟨used', bind_eq_ok.mpr ⟨mid, hmid, hfold⟩, hlen', fun v => ?_⟩
        rw [hmem, hmidmem, or_assoc]
        simp only [List.mem_cons, exists_eq_or_imp]
  have hsmall : ∀ block ∈ f.blocks, ∀ u ∈ block.uses, u.2 < f.valueCount := by
    intro block hblock u hu
    obtain ⟨b, -, rfl⟩ := Function.block_of_mem hblock
    exact hf.small b u hu
  obtain ⟨used, hused, hlen, hmem⟩ := hblocks f.blocks _ List.length_replicate hsmall
  refine ⟨used, hused, hlen, fun v => ?_⟩
  rw [hmem]
  refine or_iff_right fun h => ?_
  rw [List.getElem?_replicate] at h
  split at h <;> cases h

def keepBlock (keep : Inst → Bool) (block : Block) : Block where
  params := block.params
  insts := block.insts.filter keep
  term := block.term

/-- The graph without some instructions, all of them droppable and dead in it. -/
structure Pruned (keep : Inst → Bool) (f g : Function) : Prop where
  blocks : g.blocks = f.blocks.map (keepBlock keep)
  types : g.valueTypes = f.valueTypes
  droppable : ∀ inst, keep inst = false → droppable inst = true
  dead : ∀ inst, keep inst = false → ∀ r, inst.result = some r → ¬ g.Uses r

variable {keep keep' : Inst → Bool}

theorem Pruned.block (h : Pruned keep f g) (b : BlockId) :
    g.block b = keepBlock keep (f.block b) := by
  simp only [Function.block]
  rw [h.blocks, List.getElem?_map]
  cases f.blocks[b]? with
  | none => rfl
  | some block => rfl

theorem Pruned.reshapes (h : Pruned keep f g) : f.Reshapes g := by
  refine ⟨?_, fun b => ?_, fun b => ?_⟩
  · rw [Function.blockCount, h.blocks]
    exact List.length_map _
  · rw [h.block b]
    rfl
  · rw [h.block b]
    rfl

/-- A use that is left, and where it was. -/
theorem Pruned.use (h : Pruned keep f g) {u : Nat × ValueId} (hu : u ∈ (g.block b).uses) :
    ∃ i, (i, u.2) ∈ (f.block b).uses ∧ ((f.block b).insts.take i).countP keep = u.1 := by
  obtain ⟨pos, v⟩ := u
  rw [h.block b] at hu
  rcases mem_uses.mp hu with ⟨inst, hi, hv⟩ | ⟨hpos, term, hterm, hv⟩
  · obtain ⟨i, hi', -, hk⟩ := getElem?_filter hi
    exact ⟨i, mem_uses.mpr (.inl ⟨inst, hi', hv⟩), hk⟩
  · refine ⟨_, mem_uses.mpr (.inr ⟨rfl, term, hterm, hv⟩), ?_⟩
    rw [List.take_length, List.countP_eq_length_filter]
    exact hpos.symm

theorem uses_of_mem {pos : Nat} {v : ValueId} (hu : (pos, v) ∈ (f.block b).uses) : f.Uses v :=
  ⟨_, Function.block_mem (Function.lt_of_mem_uses hu), _, hu, rfl⟩

theorem Pruned.uses (h : Pruned keep f g) {v : ValueId} (hv : g.Uses v) : f.Uses v := by
  obtain ⟨block, hblock, u, hu, rfl⟩ := hv
  obtain ⟨b, -, rfl⟩ := Function.block_of_mem hblock
  obtain ⟨i, hi, -⟩ := h.use hu
  exact uses_of_mem hi

theorem Pruned.trans {h : Function} (hfg : Pruned keep f g) (hgh : Pruned keep' g h) :
    Pruned (fun inst => keep' inst && keep inst) f h where
  blocks := by
    rw [hgh.blocks, hfg.blocks, List.map_map]
    refine List.map_congr_left fun block _ => ?_
    simp only [Function.comp, keepBlock, List.filter_filter]
  types := hgh.types.trans hfg.types
  droppable inst hk := by
    rcases Bool.and_eq_false_iff.mp hk with hk | hk
    · exact hgh.droppable inst hk
    · exact hfg.droppable inst hk
  dead inst hk r hr hu := by
    rcases Bool.and_eq_false_iff.mp hk with hk | hk
    · exact hgh.dead inst hk r hr hu
    · exact hfg.dead inst hk r hr (hgh.uses hu)

theorem Pruned.site_of (h : Pruned keep f g) {s : Site} (hs : s ∈ g.sites) :
    ∃ pos, (⟨s.value, s.block, pos⟩ : Site) ∈ f.sites := by
  obtain ⟨v, b, pos⟩ := s
  obtain ⟨hb, hdef⟩ := mem_sites.mp hs
  rw [h.reshapes.count] at hb
  rw [h.block b] at hdef
  cases pos with
  | none => exact ⟨none, mem_sites.mpr ⟨hb, hdef⟩⟩
  | some k =>
      obtain ⟨inst, hi, hr⟩ := hdef
      obtain ⟨i, hi', -, -⟩ := getElem?_filter hi
      exact ⟨some i, mem_sites.mpr ⟨hb, inst, hi', hr⟩⟩

/-- A definition that is used is left, behind those before it. -/
theorem Pruned.site (h : Pruned keep f g) {v : ValueId} {pos : Option Nat} (hv : g.Uses v)
    (hs : (⟨v, b, pos⟩ : Site) ∈ f.sites) :
    (⟨v, b, pos.map fun i => ((f.block b).insts.take i).countP keep⟩ : Site) ∈ g.sites ∧
      ∀ j k, pos = some j → j < k →
        ((f.block b).insts.take j).countP keep < ((f.block b).insts.take k).countP keep := by
  obtain ⟨hb, hdef⟩ := mem_sites.mp hs
  have hb' : b < g.blockCount := h.reshapes.count ▸ hb
  cases pos with
  | none =>
      refine ⟨mem_sites.mpr ⟨hb', ?_⟩, fun j k hj => nomatch hj⟩
      rw [h.block b]
      exact hdef
  | some i =>
      obtain ⟨inst, hi, hr⟩ := hdef
      have hkeep : keep inst = true := by
        by_contra hnot
        exact h.dead inst (Bool.eq_false_of_not_eq_true hnot) v hr hv
      refine ⟨mem_sites.mpr ⟨hb', inst, ?_, hr⟩, fun j k hj hjk => ?_⟩
      · rw [h.block b]
        exact filter_getElem? hi hkeep
      · cases hj
        exact countP_take_lt hi hkeep hjk

theorem Pruned.wellFormed (h : Pruned keep f g) (hf : f.WellFormed) : g.WellFormed := by
  have hshape := h.reshapes
  refine hf.reshape hshape ?_ ?_ ?_ ?_
  · have hsub : (g.sites.map Site.value).Sublist (f.sites.map Site.value) := by
      rw [Function.sites_values, Function.sites_values, h.blocks, List.flatMap_map]
      exact Function.sublist_flatMap fun block =>
        (List.Sublist.refl _).append (List.filter_sublist.filterMap _)
    exact hsub.nodup hf.single
  · intro s hs
    obtain ⟨pos, hs'⟩ := h.site_of hs
    rw [Function.valueCount, h.types]
    have hknown := hf.known _ hs'
    exact hknown
  · intro b inst hinst r hr
    rw [h.block b] at hinst
    have hmem := List.mem_of_mem_filter hinst
    rw [h.types]
    exact hf.types _ (Function.block_mem (Function.lt_of_mem_insts hmem)) inst hmem r hr
  · intro b u hu done hw
    rw [hshape.walk] at hw
    obtain ⟨i, hi, hk⟩ := h.use hu
    obtain ⟨⟨v, c, pos⟩, hs, rfl, hbefore⟩ := hf.defined b done hw _ hi
    obtain ⟨hs', hlt⟩ := h.site (uses_of_mem hu) hs
    refine ⟨_, hs', rfl, ?_⟩
    rcases hbefore with hmem | ⟨hc, hpos⟩
    · exact .inl hmem
    · refine .inr ⟨hc, fun k hk' => ?_⟩
      obtain ⟨j, hj, rfl⟩ := Option.map_eq_some_iff.mp hk'
      have hless := hlt j i hj (hpos j hj)
      dsimp only at hc
      rw [hc] at hless ⊢
      exact hk ▸ hless

/-- Nothing is left that could go. -/
def NoDead (f : Function) : Prop :=
  ∀ block ∈ f.blocks, ∀ inst ∈ block.insts, droppable inst = true →
    ∃ r, inst.result = some r ∧ f.Uses r

theorem round_spec (hf : f.Loose) : ∃ removed g keep, round f = .ok (removed, g) ∧
    Pruned keep f g ∧ (removed = true → g.instCount < f.instCount) ∧
    (removed = false → NoDead g) := by
  obtain ⟨used, hused, hlen, hmem⟩ := usedValues_spec hf
  have hasks : asksWithin f used = true := by
    refine List.all_eq_true.mpr fun block hblock => List.all_eq_true.mpr fun inst hinst => ?_
    obtain ⟨b, hb, rfl⟩ := Function.block_of_mem hblock
    obtain ⟨i, hi⟩ := List.mem_iff_getElem?.mp hinst
    cases hr : inst.result with
    | none => rw [Option.all_none, Bool.or_true]
    | some r =>
        have hlt := hf.known _ (mem_sites.mpr ⟨hb, inst, hi, hr⟩ : (⟨r, b, some i⟩ : Site) ∈ _)
        rw [Option.all_some, hlen, decide_eq_true hlt, Bool.or_true]
  have hpruned : Pruned (keeps used) f (f.mapBlocks (sweepBlock used)) := by
    have hdrop : ∀ inst, keeps used inst = false → droppable inst = true ∧
        ∀ r, inst.result = some r → ¬ f.Uses r := by
      intro inst hk
      obtain ⟨hdrop, hany⟩ := Bool.or_eq_false_iff.mp hk
      refine ⟨by simpa using hdrop, fun r hr hu => ?_⟩
      rw [hr, Option.any_some, (hmem r).mpr hu] at hany
      cases hany
    have hraw : ∀ {v}, (f.mapBlocks (sweepBlock used)).Uses v → f.Uses v := by
      rintro v ⟨block, hblock, u, hu, rfl⟩
      obtain ⟨old, hold, rfl⟩ := List.mem_map.mp hblock
      obtain ⟨pos, v⟩ := u
      rcases mem_uses.mp hu with ⟨inst, hi, hv⟩ | ⟨-, term, hterm, hv⟩
      · obtain ⟨i, hi', -, -⟩ := getElem?_filter hi
        exact ⟨old, hold, (i, v), mem_uses.mpr (.inl ⟨inst, hi', hv⟩), rfl⟩
      · exact ⟨old, hold, (_, v), mem_uses.mpr (.inr ⟨rfl, term, hterm, hv⟩), rfl⟩
    exact ⟨rfl, rfl, fun inst hk => (hdrop inst hk).1,
      fun inst hk r hr hu => (hdrop inst hk).2 r hr (hraw hu)⟩
  let removed := f.blocks.any fun block => (sweepBlock used block).insts.length ≠ block.insts.length
  refine ⟨removed, _, keeps used, ?_, hpruned, fun hremoved => ?_, fun hremoved => ?_⟩
  · rw [round, hused, ok_bind, if_pos hasks]
    rfl
  · obtain ⟨block, hblock, hne⟩ := List.any_eq_true.mp hremoved
    have hle : ∀ block : Block, (sweepBlock used block).insts.length ≤ block.insts.length :=
      fun block => List.length_filter_le _ _
    rw [Function.instCount, Function.instCount, Function.mapBlocks, List.map_map]
    exact List.sum_lt_sum _ _ (fun block _ => hle block)
      ⟨block, hblock, Nat.lt_of_le_of_ne (hle block) (of_decide_eq_true hne)⟩
  · have hsame : ∀ block ∈ f.blocks, sweepBlock used block = block ∧
        ∀ inst ∈ block.insts, keeps used inst = true := by
      intro block hblock
      have hlen := List.any_eq_false.mp hremoved block hblock
      have hlen := of_not_not (mt decide_eq_true hlen)
      have hall := List.length_filter_eq_length_iff.mp hlen
      refine ⟨?_, hall⟩
      rw [sweepBlock, List.filter_eq_self.mpr hall]
    have hblocks : (f.mapBlocks (sweepBlock used)).blocks = f.blocks :=
      (List.map_congr_left fun block hblock => (hsame block hblock).1).trans (List.map_id' _)
    intro block hblock inst hinst hdrop
    rw [hblocks] at hblock
    have hkeep := (hsame block hblock).2 inst hinst
    rw [keeps, hdrop, Bool.not_true, Bool.false_or] at hkeep
    cases hr : inst.result with
    | none =>
        rw [hr] at hkeep
        cases hkeep
    | some r =>
        rw [hr, Option.any_some] at hkeep
        obtain ⟨user, huser, u, hu, heq⟩ := (hmem r).mp hkeep
        exact ⟨r, rfl, user, hblocks.symm ▸ huser, u, hu, heq⟩

/-- What elimination makes of a graph. -/
theorem run_spec (hf : f.WellFormed) :
    ∃ r keep, run f = .ok r ∧ Pruned keep f r.2 ∧ NoDead r.2 := by
  have hloop : ∀ fuel changed (f : Function), f.WellFormed → f.instCount < fuel →
      ∃ r keep, loop fuel changed f = .ok r ∧ Pruned keep f r.2 ∧ NoDead r.2 := by
    intro fuel
    induction fuel with
    | zero => exact fun _ f _ hlt => absurd hlt (Nat.not_lt_zero _)
    | succ fuel ih =>
        intro changed f hf hlt
        obtain ⟨removed, g, keep, hround, hpruned, hless, hdone⟩ := round_spec hf.loose
        rw [loop, hround, ok_bind]
        cases removed with
        | false => exact ⟨_, keep, rfl, hpruned, hdone rfl⟩
        | true =>
            have hfew := Nat.lt_of_lt_of_le (hless rfl) (Nat.lt_succ_iff.mp hlt)
            obtain ⟨r, keep', hr, hrest, hnone⟩ := ih true g (hpruned.wellFormed hf) hfew
            exact ⟨r, _, hr, hpruned.trans hrest, hnone⟩
  exact hloop _ _ f hf (Nat.lt_succ_self _)

/-- What is no dead value stays, in its order. -/
theorem Pruned.kept (h : Pruned keep f g) (b : BlockId) :
    ((g.block b).insts.filter fun inst => !Dce.droppable inst) = (f.block b).insts.filter fun inst => !Dce.droppable inst := by
  rw [h.block b, keepBlock, List.filter_filter]
  refine List.filter_congr fun inst _ => ?_
  cases hk : keep inst with
  | true => rw [Bool.and_true]
  | false => rw [h.droppable inst hk, Bool.and_false, Bool.not_true]

/-- The graph is verified, nothing more can go from it, and of the other one
everything is left that is no dead value. -/
structure Cleaned (f g : Function) : Prop where
  verified : verify g = .ok ()
  noDead : NoDead g
  kept : ∀ b, ((g.block b).insts.filter fun inst => !droppable inst) =
    (f.block b).insts.filter fun inst => !droppable inst

theorem Pruned.cleaned (h : Pruned keep f g) (hf : f.WellFormed) (hg : NoDead g) : Cleaned f g :=
  ⟨(verify_ok_iff g).mpr (h.wellFormed hf), hg, h.kept⟩

section Meaning

variable {ν ω : Type} {R : Runtime ν ω} {s₀ s t : Machine ν ω} {done : List BlockId}

/-- In a run of the graph instructions that may go only define their values. -/
def Silent (R : Runtime ν ω) (f : Function) (s₀ : Machine ν ω) : Prop :=
  ∀ done b i s inst, Function.At R f s₀ done b i s → (f.block b).insts[i]? = some inst →
    droppable inst = true → ∃ x, s.exec R inst = (true, s.assign inst.result.toList [x])

theorem silent_of_honest {value : Op → Imm → List ν → ν} (h : f.Honest R s₀ value) :
    Silent R f s₀ := by
  intro done b i s inst hat hi hdrop
  simp only [droppable, Bool.and_eq_true, Bool.or_eq_true, Bool.not_eq_true', beq_iff_eq] at hdrop
  obtain ⟨⟨-, hguard⟩, hkind⟩ := hdrop
  have hmem := List.mem_of_getElem? hi
  by_cases hload : inst.op = .frameLoad
  · obtain ⟨slot, himm⟩ := h.access b inst hmem hload
    exact ⟨_, Machine.exec_load hload himm⟩
  · have hpure := hkind.resolve_right hload
    obtain ⟨hcall, -⟩ := h.pure_args (s := s) hmem hpure hload
    exact ⟨_, Machine.exec_quiet hcall (h.quiet done b i s inst hat hi hpure hguard)⟩

/-- A block does the same without its dead instructions. -/
theorem Pruned.execAll (h : Pruned keep f g) (hs : Silent R f s₀) {before insts : List Inst}
    (hinsts : (f.block b).insts = before ++ insts)
    (hat : Function.At R f s₀ done b before.length s) (hst : Machine.Agree g.Uses s t) :
    (t.execAll R (insts.filter keep)).2.1 = (s.execAll R insts).2.1 ∧
      Machine.Agree g.Uses (s.execAll R insts).2.2 (t.execAll R (insts.filter keep)).2.2 := by
  induction insts generalizing before s t with
  | nil => exact ⟨rfl, hst⟩
  | cons inst insts ih =>
      obtain ⟨hi, hnext⟩ := hat.step hinsts
      rw [List.append_cons] at hinsts
      cases hkeep : keep inst with
      | false =>
          obtain ⟨x, hexec⟩ := hs done b _ s inst hat hi (h.droppable inst hkeep)
          have hdead : ∀ v ∈ inst.result.toList, ¬ g.Uses v :=
            fun v hv => h.dead inst hkeep v (Option.mem_toList.mp hv)
          rw [List.filter_cons_of_neg (Bool.eq_false_iff.mp hkeep), Machine.execAll, hexec]
          exact ih hinsts (hnext _ hexec) (hst.assign_left hdead [x])
      | true =>
          have hargs : ∀ v ∈ inst.args, g.Uses v := by
            intro v hv
            have hpos := filter_getElem? hi hkeep
            have hblock : (g.block b).insts = (f.block b).insts.filter keep := by
              rw [h.block b]
              rfl
            rw [← hblock] at hpos
            exact uses_of_mem (mem_uses.mpr (.inl ⟨inst, hpos, hv⟩))
          obtain ⟨hok, hagree⟩ := hst.exec (R := R) hargs
          rw [List.filter_cons_of_pos hkeep, Machine.execAll, Machine.execAll]
          cases hexec : s.exec R inst with
          | mk ok s' =>
              cases hexec' : t.exec R inst with
              | mk ok' t' =>
                  rw [hexec, hexec'] at hok hagree
                  obtain rfl : ok' = ok := hok
                  cases ok' with
                  | false => exact ⟨rfl, hagree⟩
                  | true => exact ih hinsts (hnext s' hexec) hagree

/-- Every run shows what it showed. -/
theorem Pruned.shown (h : Pruned keep f g) (hs : Silent R f s₀) (fuel : Nat) :
    g.shown R fuel g.entry s₀ = f.shown R fuel f.entry s₀ := by
  let rel (b : BlockId) (s t : Machine ν ω) : Prop :=
    Machine.Agree g.Uses s t ∧ ∃ done, Function.At R f s₀ done b 0 s
  have hstart : rel f.entry s₀ s₀ := ⟨.refl _ _, [], .start⟩
  refine Function.shown_eq_of_matches ?_ ?_ fuel hstart
  · rintro b s t ⟨hst, -⟩
    exact ⟨hst.frame, hst.world⟩
  · rintro b s t ⟨hst, done, hat⟩
    have hinsts : (f.block b).insts = [] ++ (f.block b).insts := rfl
    have hinsts' : (g.block b).insts = (f.block b).insts.filter keep := by
      rw [h.block b]
      rfl
    obtain ⟨hok, hend⟩ := h.execAll hs hinsts hat hst
    rw [← hinsts'] at hok hend
    have hleave : Term.leave R (t.execAll R (g.block b).insts).2.2 (g.block b).term =
        Term.leave R (s.execAll R (f.block b).insts).2.2 (f.block b).term := by
      rw [show (g.block b).term = (f.block b).term by rw [h.block b]; rfl]
      refine hend.leave fun x hx v hv => ?_
      have hx' : (g.block b).term = some x := by
        rw [h.block b]
        exact hx
      exact uses_of_mem (mem_uses.mpr (.inr ⟨rfl, x, hx', hv⟩))
    cases hok' : (s.execAll R (f.block b).insts).2.1 with
    | false =>
        rw [hok'] at hok
        rw [Function.pass, Function.pass, hok, hok', if_neg Bool.false_ne_true,
          if_neg Bool.false_ne_true, hend.world]
        rfl
    | true =>
        rw [hok'] at hok
        rw [Function.pass, Function.pass, hok, hok', if_pos rfl, if_pos rfl, Function.leave,
          Function.leave, hleave]
        cases hgo : Term.leave R (s.execAll R (f.block b).insts).2.2 (f.block b).term with
        | ends e => rfl
        | goto target values =>
            have hparams : (g.block target).params = (f.block target).params := h.reshapes.params _
            refine ⟨rfl, ?_, b :: done, (hat.execAll hinsts hok').edge hgo⟩
            rw [hparams]
            exact hend.assign _ _

end Meaning

end Dce

end Slag.Jit
