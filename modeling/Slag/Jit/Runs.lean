import Slag.Jit.Semantics
import Slag.Jit.Available

/-!
The states a run goes through, block by block and instruction by instruction,
what it shows of them, and how two graphs that show the same are compared. The
effects an instruction declares are a promise about the states that execute it.
-/

namespace Slag.Jit

open FlowGraph

variable {ν ω : Type}

/-- Where control goes from the end of a block. -/
inductive Leaving (ν ω : Type) where
  | goto (target : BlockId) (values : List ν)
  | ends (e : Ending ν ω)

def Term.leave (R : Runtime ν ω) (s : Machine ν ω) : Option Term → Leaving ν ω
  | some (.jump target args) => .goto target (args.map s.env)
  | some (.branch cond thenBlock thenArgs elseBlock elseArgs) =>
      if R.truthy (s.env cond) then .goto thenBlock (thenArgs.map s.env)
      else .goto elseBlock (elseArgs.map s.env)
  | some (.ret value) => .ends (.returned (value.map s.env) s.world)
  | some (.throw value) => .ends (.threw (s.env value) s.world)
  | some .unreachable | none => .ends .stuck

/-- What a block comes to, run from its start. -/
inductive Passed (ν ω : Type) where
  | block (b : BlockId) (s : Machine ν ω)
  | ends (e : Ending ν ω)

/-- Both come to the same block, in related states, or to the same end. -/
def Passed.Matches (rel : BlockId → Machine ν ω → Machine ν ω → Prop) :
    Passed ν ω → Passed ν ω → Prop
  | .block b s, .block c t => b = c ∧ rel b s t
  | .ends e, .ends e' => e = e'
  | _, _ => False

namespace Function

variable (R : Runtime ν ω) (f : Function)

def leave (s : Machine ν ω) (term : Option Term) : Passed ν ω :=
  match Term.leave R s term with
  | .goto target values => .block target (s.assign (f.block target).params values)
  | .ends e => .ends e

def pass (b : BlockId) (s : Machine ν ω) : Passed ν ω :=
  if (s.execAll R (f.block b).insts).2.1 then
    f.leave R (s.execAll R (f.block b).insts).2.2 (f.block b).term
  else .ends (.left (s.execAll R (f.block b).insts).2.2.world)

/-- What can be seen of a run: the frame and the world it brings to each block,
and its end. The world may keep a record of everything done to it. -/
def shown : Nat → BlockId → Machine ν ω → List (BlockId × (Nat → ν) × ω) × Ending ν ω
  | 0, _, _ => ([], .running)
  | fuel + 1, b, s =>
      let rest :=
        match f.pass R b s with
        | .block target s' => shown fuel target s'
        | .ends e => ([], e)
      ((b, s.frame, s.world) :: rest.1, rest.2)

/-- A run from `s₀` comes to a position of a block in a state, having left the
blocks of `done`; the position after the last instruction is the terminator's. -/
inductive At (R : Runtime ν ω) (f : Function) (s₀ : Machine ν ω) :
    List BlockId → BlockId → Nat → Machine ν ω → Prop
  | start : At R f s₀ [] f.entry 0 s₀
  | exec {done : List BlockId} {b : BlockId} {i : Nat} {s s' : Machine ν ω} {inst : Inst}
      (h : At R f s₀ done b i s) (hi : (f.block b).insts[i]? = some inst)
      (he : s.exec R inst = (true, s')) : At R f s₀ done b (i + 1) s'
  | edge {done : List BlockId} {b target : BlockId} {s : Machine ν ω} {values : List ν}
      (h : At R f s₀ done b (f.block b).insts.length s)
      (ht : Term.leave R s (f.block b).term = .goto target values) :
      At R f s₀ (b :: done) target 0 (s.assign (f.block target).params values)

/-- The declared effects are the real ones along a run: what is declared pure
and is no guard reads no slot, leaves the world as it is and has its value from its operands
alone, and slots are bound only where a write to them is declared. -/
structure Honest (s₀ : Machine ν ω) (value : Op → Imm → List ν → ν) : Prop where
  /-- The lowering refuses an access that does not name its slot. -/
  access : ∀ b, ∀ inst ∈ (f.block b).insts, inst.op = .frameLoad → ∃ slot, inst.imm = .slot slot
  slots : ∀ b, ∀ inst ∈ (f.block b).insts,
    inst.effects.mayClobberReadsOf (.read .slots) = false → R.slotsBound inst = []
  reads : ∀ b, ∀ inst ∈ (f.block b).insts, inst.effects.isPure → R.slotsRead inst = []
  quiet : ∀ done b i s inst, At R f s₀ done b i s → (f.block b).insts[i]? = some inst →
    inst.effects.isPure → inst.isGuard = false →
    R.exec inst.op inst.ty inst.imm (s.args R inst) s.world =
      .next (value inst.op inst.imm (s.args R inst)) [] s.world

end Function

variable {vs : List ValueId}

section Steps

variable {R : Runtime ν ω} {s s' : Machine ν ω} {inst : Inst}

variable {slot : Nat} {v : ValueId} {b : Bool}

theorem Machine.exec_load (hop : inst.op = .frameLoad) (himm : inst.imm = .slot slot) :
    s.exec R inst = (true, s.assign inst.result.toList [s.frame slot]) := by
  simp only [Machine.exec, hop, himm]

/-- Only a load and a store go to a slot of the frame. -/
theorem Inst.access_cases (hop : ¬ inst.isAccess = false) :
    ∃ slot, inst.imm = .slot slot ∧ (inst.op = .frameLoad ∨ inst.op = .frameStore) := by
  unfold Inst.isAccess at hop
  split at hop
  · exact ⟨_, ‹_›, .inl ‹_›⟩
  · exact ⟨_, ‹_›, .inr ‹_›⟩
  · exact absurd rfl hop

theorem Inst.isAccess_of_slot (himm : inst.imm = .slot slot)
    (hop : inst.op = .frameLoad ∨ inst.op = .frameStore) : inst.isAccess = true := by
  unfold Inst.isAccess
  rcases hop with hop | hop <;> rw [hop, himm]

theorem Machine.exec_call (hop : inst.isAccess = false) :
    s.exec R inst =
      match R.exec inst.op inst.ty inst.imm (s.args R inst) s.world with
      | .next value binds world =>
          (true, { (s.bind (R.binds inst.op inst.imm) binds).assign inst.result.toList [value] with
            world := world })
      | .stop world => (false, { s with world := world }) := by
  unfold Machine.exec
  split
  · rw [Inst.isAccess_of_slot ‹_› (.inl ‹_›)] at hop
    cases hop
  · rw [Inst.isAccess_of_slot ‹_› (.inr ‹_›)] at hop
    cases hop
  · rfl

theorem Machine.bind_nil_right (slots : List Nat) : s.bind slots [] = s := by
  rw [Machine.bind, List.zip_nil_right]
  rfl

/-- An operation that is quiet only defines its value. -/
theorem Machine.exec_quiet {v : ν} (hop : inst.isAccess = false)
    (h : R.exec inst.op inst.ty inst.imm (s.args R inst) s.world = .next v [] s.world) :
    s.exec R inst = (true, s.assign inst.result.toList [v]) := by
  rw [Machine.exec_call hop, h]
  dsimp only
  rw [Machine.bind_nil_right]
  rfl

/-- Updates elsewhere. -/
theorem foldl_update_of_notMem {ks : List Nat} {values : List ν} {k : Nat} (hk : k ∉ ks)
    (h : Nat → ν) :
    (ks.zip values).foldl (fun h e => Function.update h e.1 e.2) h k = h k := by
  have fold : ∀ (l : List (Nat × ν)) (h : Nat → ν), (∀ e ∈ l, e.1 ≠ k) →
      l.foldl (fun h e => Function.update h e.1 e.2) h k = h k := by
    intro l
    induction l with
    | nil => exact fun _ _ => rfl
    | cons e l ih =>
        intro h hl
        obtain ⟨he, hl⟩ := List.forall_mem_cons.mp hl
        rw [List.foldl_cons, ih _ hl, Function.update_of_ne he.symm]
  refine fold _ _ fun e he heq => hk ?_
  exact heq ▸ (List.of_mem_zip he).1

theorem Machine.assign_env_of_notMem {values : List ν} (hv : v ∉ vs) :
    (s.assign vs values).env v = s.env v := foldl_update_of_notMem hv s.env

theorem Machine.bind_frame_of_notMem {slots : List Nat} {values : List ν} (hs : slot ∉ slots) :
    (s.bind slots values).frame slot = s.frame slot :=
  foldl_update_of_notMem hs s.frame

theorem Machine.assign_single (v : ValueId) (x : ν) :
    (s.assign [v] [x]).env = Function.update s.env v x := rfl

theorem Machine.exec_env (h : s.exec R inst = (b, s')) (hv : inst.result ≠ some v) :
    s'.env v = s.env v := by
  have hmem : v ∉ inst.result.toList := by
    rw [Option.mem_toList]
    exact hv
  by_cases hop : inst.isAccess = false
  · rw [Machine.exec_call hop] at h
    split at h
    · cases h
      exact Machine.assign_env_of_notMem hmem
    · cases h
      rfl
  · obtain ⟨slot, himm, hop | hop⟩ := Inst.access_cases hop
    · simp only [Machine.exec, hop, himm] at h
      cases h
      exact Machine.assign_env_of_notMem hmem
    · simp only [Machine.exec, hop, himm] at h
      cases h
      rfl

/-- A slot that is not bound keeps what it holds. -/
theorem Machine.exec_slot (h : s.exec R inst = (b, s')) (hb : slot ∉ R.slotsBound inst) :
    s'.frame slot = s.frame slot := by
  by_cases hop : inst.isAccess = false
  · have hbinds : slot ∉ R.binds inst.op inst.imm := by
      unfold Runtime.slotsBound at hb
      split at hb
      · rw [Inst.isAccess_of_slot ‹_› (.inl ‹_›)] at hop
        cases hop
      · rw [Inst.isAccess_of_slot ‹_› (.inr ‹_›)] at hop
        cases hop
      · exact hb
    rw [Machine.exec_call hop] at h
    split at h
    · cases h
      exact Machine.bind_frame_of_notMem hbinds
    · cases h
      rfl
  · obtain ⟨slot', himm, hop | hop⟩ := Inst.access_cases hop
    · simp only [Machine.exec, hop, himm] at h
      cases h
      rfl
    · simp only [Machine.exec, hop, himm] at h
      simp only [Runtime.slotsBound, hop, himm] at hb
      cases h
      exact Machine.bind_frame_of_notMem hb

/-- Slots that are not bound keep what they hold. -/
theorem Machine.exec_frame (h : s.exec R inst = (b, s')) (hb : R.slotsBound inst = []) :
    s'.frame = s.frame := by
  funext slot
  exact Machine.exec_slot h (hb ▸ List.not_mem_nil)

theorem Machine.exec_stored (h : s.exec R inst = (b, s')) (hs : inst.storeOf = some (slot, v)) :
    s'.frame = Function.update s.frame slot (s.env v) := by
  obtain ⟨op, args, result, ty, effects, imm⟩ := inst
  unfold Inst.storeOf at hs
  split at hs
  · rename_i hop himm hargs
    dsimp only at hop himm hargs
    subst hop himm hargs
    cases hs
    cases h
    rfl
  · cases hs

end Steps

section States

variable {R : Runtime ν ω} {f : Function} {s₀ s : Machine ν ω} {done : List BlockId} {b : BlockId}
variable {i : Nat}

variable {target : BlockId}

theorem Term.leave_goto {term : Option Term} {values : List ν}
    (h : Term.leave R s term = .goto target values) :
    ∃ t, term = some t ∧ ∃ args, (target, args) ∈ t.edges ∧ values = args.map s.env := by
  unfold Term.leave at h
  split at h
  · cases h
    exact ⟨_, rfl, _, List.mem_singleton.mpr rfl, rfl⟩
  · rename_i cond thenBlock thenArgs elseBlock elseArgs
    refine ⟨_, rfl, ?_⟩
    split at h
    · cases h
      exact ⟨_, List.mem_cons_self, rfl⟩
    · cases h
      exact ⟨_, List.mem_cons_of_mem _ (List.mem_singleton.mpr rfl), rfl⟩
  · cases h
  · cases h
  · cases h
  · cases h

theorem Term.mem_successors {t : Term} {args : List ValueId} (h : (target, args) ∈ t.edges) :
    target ∈ t.successors := by
  cases t with
  | jump =>
      cases List.mem_singleton.mp h
      exact List.mem_singleton.mpr rfl
  | branch =>
      simp only [Term.edges, List.mem_cons, Prod.mk.injEq, List.not_mem_nil, or_false] at h
      simp only [Term.successors, List.mem_cons, List.not_mem_nil, or_false]
      exact h.imp And.left And.left
  | ret | throw | unreachable => cases h

namespace Function

variable {inst : Inst}

theorem lt_of_inst (hi : (f.block b).insts[i]? = some inst) : b < f.blockCount := by
  by_contra hnot
  have hnone : f.blocks[b]? = none := List.getElem?_eq_none (Nat.not_lt.mp hnot)
  rw [Function.block, hnone] at hi
  cases hi

theorem lt_of_mem_insts (hmem : inst ∈ (f.block b).insts) : b < f.blockCount := by
  obtain ⟨i, hi⟩ := List.mem_iff_getElem?.mp hmem
  exact lt_of_inst hi

theorem walk_lt (h : f.Walk done b) : b < f.blockCount := by
  cases h with
  | root => exact f.entry_lt
  | step h e => exact e.2.1

theorem Loose.edge (hf : f.Loose) (hb : b < f.blockCount) {t : Term} (ht : (f.block b).term = some t)
    {args : List ValueId} (he : (target, args) ∈ t.edges) : f.Edge b target := by
  refine ⟨hb, (hf.edges b hb t ht _ he).1, ?_⟩
  rw [Function.successors, ht]
  exact Term.mem_successors he

theorem At.walk (hf : f.Loose) (h : At R f s₀ done b i s) : f.Walk done b := by
  induction h with
  | start => exact .root
  | exec _ _ _ ih => exact ih
  | edge _ ht ih =>
      obtain ⟨t, hterm, args, he, -⟩ := Term.leave_goto ht
      exact ih.step (hf.edge (walk_lt ih) hterm he)

theorem At.lt (hf : f.Loose) (h : At R f s₀ done b i s) : b < f.blockCount :=
  walk_lt (h.walk hf)

/-- The next instruction of a block, and the state after it. -/
theorem At.step {before insts : List Inst} (hinsts : (f.block b).insts = before ++ inst :: insts)
    (h : At R f s₀ done b before.length s) : (f.block b).insts[before.length]? = some inst ∧
      ∀ s', s.exec R inst = (true, s') → At R f s₀ done b (before ++ [inst]).length s' := by
  have hi : (f.block b).insts[before.length]? = some inst := by
    rw [hinsts, List.getElem?_append_right (Nat.le_refl _), Nat.sub_self]
    rfl
  refine ⟨hi, fun s' hexec => ?_⟩
  rw [List.length_append]
  exact h.exec hi hexec

/-- A block run from a state of a run comes to its terminator in a state of the
run, unless it leaves the body. -/
theorem At.execAll {before insts : List Inst} (hinsts : (f.block b).insts = before ++ insts)
    (h : At R f s₀ done b before.length s) (hok : (s.execAll R insts).2.1 = true) :
    At R f s₀ done b (f.block b).insts.length (s.execAll R insts).2.2 := by
  induction insts generalizing before s with
  | nil =>
      rw [hinsts, List.append_nil]
      exact h
  | cons inst insts ih =>
      obtain ⟨-, hnext⟩ := h.step hinsts
      cases hexec : s.exec R inst with
      | mk ok s' =>
          rw [Machine.execAll, hexec] at hok ⊢
          cases ok with
          | false => cases hok
          | true =>
              rw [List.append_cons] at hinsts
              exact ih hinsts (hnext s' hexec) hok

/-- A block run from a state of a run passes control to a state of the run. -/
theorem At.pass {s' : Machine ν ω} (h : At R f s₀ done b 0 s) (hpass : f.pass R b s = .block target s') :
    At R f s₀ (b :: done) target 0 s' := by
  unfold Function.pass at hpass
  split at hpass
  · rename_i hok
    have hinsts : (f.block b).insts = [] ++ (f.block b).insts := rfl
    have hend := h.execAll hinsts hok
    unfold Function.leave at hpass
    split at hpass
    · rename_i hleave
      cases hpass
      exact hend.edge hleave
    · cases hpass
  · cases hpass

end Function

end States

section Comparison

variable {R : Runtime ν ω} {f g : Function} {s₀ s t : Machine ν ω} {done : List BlockId}
variable {b : BlockId}

namespace Function

theorem runFrom_succ (fuel : Nat) : f.runFrom R (fuel + 1) b s =
    let rest :=
      if (s.execAll R (f.block b).insts).2.1 then
        match Term.leave R (s.execAll R (f.block b).insts).2.2 (f.block b).term with
        | .goto target values =>
            f.runFrom R fuel target
              ((s.execAll R (f.block b).insts).2.2.assign (f.block target).params values)
        | .ends e => ([], e)
      else ([], .left (s.execAll R (f.block b).insts).2.2.world)
    ((s.execAll R (f.block b).insts).1.map (b, ·) ++ rest.1, rest.2) := by
  rw [runFrom]
  congr 1
  all_goals
    cases (s.execAll R (f.block b).insts).2.1 with
    | false => rfl
    | true =>
        simp only [if_true]
        cases (f.block b).term with
        | none => rfl
        | some term =>
            cases term with
            | branch cond =>
                simp only [Term.leave]
                split <;> rfl
            | jump | ret | throw | unreachable => rfl

/-- Two graphs show the same when related states pass to related states, block
by block. -/
theorem shown_eq_of_matches {rel : BlockId → Machine ν ω → Machine ν ω → Prop}
    (hseen : ∀ b s t, rel b s t → t.frame = s.frame ∧ t.world = s.world)
    (hpass : ∀ b s t, rel b s t → (f.pass R b s).Matches rel (g.pass R b t))
    (fuel : Nat) (h : rel b s t) : g.shown R fuel b t = f.shown R fuel b s := by
  induction fuel generalizing b s t with
  | zero => rfl
  | succ fuel ih =>
      have hnext := hpass b s t h
      obtain ⟨hframe, hworld⟩ := hseen b s t h
      rw [shown, shown, hframe, hworld]
      cases hf : f.pass R b s with
      | block c s' =>
          cases hg : g.pass R b t with
          | block d t' =>
              rw [hf, hg] at hnext
              obtain ⟨rfl, hrel⟩ := hnext
              dsimp only
              rw [ih hrel]
          | ends e =>
              rw [hf, hg] at hnext
              exact hnext.elim
      | ends e =>
          cases hg : g.pass R b t with
          | block d t' =>
              rw [hf, hg] at hnext
              exact hnext.elim
          | ends e' =>
              rw [hf, hg] at hnext
              cases hnext
              rfl

/-- The second graph does in every state of a run of the first what the first
does there. -/
structure Lockstep (R : Runtime ν ω) (f g : Function) (s₀ : Machine ν ω) : Prop where
  params : ∀ b, (g.block b).params = (f.block b).params
  length : ∀ b, (g.block b).insts.length = (f.block b).insts.length
  exec : ∀ done b i s inst inst', At R f s₀ done b i s → (f.block b).insts[i]? = some inst →
    (g.block b).insts[i]? = some inst' → s.exec R inst' = s.exec R inst
  leave : ∀ done b s, At R f s₀ done b (f.block b).insts.length s →
    Term.leave R s (g.block b).term = Term.leave R s (f.block b).term

namespace Lockstep

theorem execAll (h : Lockstep R f g s₀) {before before' insts insts' : List Inst}
    (hinsts : (f.block b).insts = before ++ insts) (hinsts' : (g.block b).insts = before' ++ insts')
    (hlen : before'.length = before.length) (hat : At R f s₀ done b before.length s) :
    (s.execAll R insts').2 = (s.execAll R insts).2 := by
  induction insts generalizing before before' insts' s with
  | nil =>
      have hall := h.length b
      rw [hinsts, hinsts', List.length_append, List.length_append, hlen] at hall
      rw [List.length_eq_zero_iff.mp (Nat.add_left_cancel hall)]
  | cons inst insts ih =>
      cases insts' with
      | nil =>
          have hall := h.length b
          rw [hinsts, hinsts', List.length_append, List.length_append, hlen] at hall
          cases Nat.add_left_cancel hall
      | cons inst' insts' =>
          obtain ⟨hi, hnext⟩ := hat.step hinsts
          have hi' : (g.block b).insts[before.length]? = some inst' := by
            rw [hinsts', ← hlen, List.getElem?_append_right (Nat.le_refl _), Nat.sub_self]
            rfl
          have hsame := h.exec done b _ s inst inst' hat hi hi'
          rw [Machine.execAll, Machine.execAll, hsame]
          cases hexec : s.exec R inst with
          | mk ok s' =>
              cases ok with
              | false => rfl
              | true =>
                  rw [List.append_cons] at hinsts hinsts'
                  refine ih hinsts hinsts' ?_ (hnext s' hexec)
                  rw [List.length_append, List.length_append, hlen]
                  rfl

theorem pass (h : Lockstep R f g s₀) (hat : At R f s₀ done b 0 s) :
    g.pass R b s = f.pass R b s := by
  have hinsts : (f.block b).insts = [] ++ (f.block b).insts := rfl
  have hinsts' : (g.block b).insts = [] ++ (g.block b).insts := rfl
  have hall : (s.execAll R (g.block b).insts).2 = (s.execAll R (f.block b).insts).2 :=
    h.execAll hinsts hinsts' rfl hat
  unfold Function.pass
  rw [hall]
  split
  · rename_i hok
    have hend := hat.execAll hinsts hok
    simp only [Function.leave, h.leave done b _ hend, h.params]
  · rfl

/-- The second graph has no other states. -/
theorem at_of_at (h : Lockstep R f g s₀) {i : Nat} (hat : At R g s₀ done b i s) :
    At R f s₀ done b i s := by
  induction hat with
  | start => exact .start
  | @exec done b i s s' inst' _ hi' hexec ih =>
      have hlt : i < (f.block b).insts.length :=
        h.length b ▸ (List.getElem?_eq_some_iff.mp hi').1
      have hi := List.getElem?_eq_getElem hlt
      exact ih.exec hi ((h.exec done b i s _ inst' ih hi hi').symm.trans hexec)
  | @edge done b target s values _ hleave ih =>
      rw [h.length b] at ih
      rw [h.params]
      exact ih.edge ((h.leave done b s ih).symm.trans hleave)

/-- It has all of them. -/
theorem at_of_first (h : Lockstep R f g s₀) {i : Nat} (hat : At R f s₀ done b i s) :
    At R g s₀ done b i s := by
  induction hat with
  | start => exact .start
  | @exec done b i s s' inst hat hi hexec ih =>
      have hlt : i < (g.block b).insts.length :=
        (h.length b).symm ▸ (List.getElem?_eq_some_iff.mp hi).1
      have hi' := List.getElem?_eq_getElem hlt
      exact ih.exec hi' ((h.exec done b i s inst _ hat hi hi').trans hexec)
  | @edge done b target s values hat hleave ih =>
      rw [← h.length b] at ih
      rw [← h.params]
      exact ih.edge ((h.leave done b s hat).trans hleave)

theorem trans {g' : Function} (h : Lockstep R f g s₀) (h' : Lockstep R g g' s₀) :
    Lockstep R f g' s₀ where
  params b := (h'.params b).trans (h.params b)
  length b := (h'.length b).trans (h.length b)
  exec done b i s inst inst'' hat hi hi'' := by
    have hlt : i < (g.block b).insts.length :=
      (h.length b).symm ▸ (List.getElem?_eq_some_iff.mp hi).1
    have hi' := List.getElem?_eq_getElem hlt
    exact (h'.exec done b i s _ inst'' (h.at_of_first hat) hi' hi'').trans
      (h.exec done b i s inst _ hat hi hi')
  leave done b s hat := by
    have hat' := h.at_of_first hat
    rw [← h.length b] at hat'
    exact (h'.leave done b s hat').trans (h.leave done b s hat)

theorem shown (h : Lockstep R f g s₀) (fuel : Nat) :
    g.shown R fuel g.entry s₀ = f.shown R fuel f.entry s₀ := by
  let rel (b : BlockId) (s t : Machine ν ω) : Prop := t = s ∧ ∃ done, At R f s₀ done b 0 s
  have hstart : rel f.entry s₀ s₀ := ⟨rfl, [], .start⟩
  refine shown_eq_of_matches ?_ ?_ fuel hstart
  · rintro b s t ⟨rfl, -⟩
    exact ⟨rfl, rfl⟩
  · rintro b s t ⟨rfl, done, hat⟩
    rw [h.pass hat]
    cases hpass : f.pass R b t with
    | block c s' => exact ⟨rfl, rfl, b :: done, hat.pass hpass⟩
    | ends e => rfl

end Lockstep

end Function

end Comparison

section Agreement

variable {R : Runtime ν ω} {U : ValueId → Prop} {s t : Machine ν ω} {inst : Inst}

/-- The states differ in values outside of a set only. -/
structure Machine.Agree (U : ValueId → Prop) (s t : Machine ν ω) : Prop where
  frame : t.frame = s.frame
  world : t.world = s.world
  env : ∀ v, U v → t.env v = s.env v

theorem Machine.Agree.refl (U : ValueId → Prop) (s : Machine ν ω) : Agree U s s :=
  ⟨rfl, rfl, fun _ _ => rfl⟩

theorem Machine.Agree.values (h : Agree U s t) (hvs : ∀ v ∈ vs, U v) :
    vs.map t.env = vs.map s.env :=
  List.map_congr_left fun v hv => h.env v (hvs v hv)

theorem Machine.Agree.assign (h : Agree U s t) (vs : List ValueId) (values : List ν) :
    Agree U (s.assign vs values) (t.assign vs values) where
  frame := h.frame
  world := h.world
  env := by
    have fold : ∀ (l : List (ValueId × ν)) (d e : ValueId → ν), (∀ v, U v → e v = d v) →
        ∀ v, U v → l.foldl (fun env e => Function.update env e.1 e.2) e v =
          l.foldl (fun env e => Function.update env e.1 e.2) d v := by
      intro l
      induction l with
      | nil => exact fun _ _ heq => heq
      | cons x l ih =>
          intro d e heq
          refine ih _ _ fun v hv => ?_
          dsimp only
          by_cases hx : v = x.1
          · rw [hx, Function.update_self, Function.update_self]
          · rw [Function.update_of_ne hx, Function.update_of_ne hx]
            exact heq v hv
    exact fold _ _ _ h.env

/-- An assignment to values outside of the set. -/
theorem Machine.Agree.assign_left (h : Agree U s t) (hvs : ∀ v ∈ vs, ¬ U v) (values : List ν) :
    Agree U (s.assign vs values) t where
  frame := h.frame
  world := h.world
  env v hv := by
    rw [Machine.assign_env_of_notMem fun hmem => hvs v hmem hv]
    exact h.env v hv

theorem Machine.Agree.bind (h : Agree U s t) (slots : List Nat) (values : List ν) :
    Agree U (s.bind slots values) (t.bind slots values) where
  frame := by
    rw [Machine.bind, Machine.bind, h.frame]
  world := h.world
  env := h.env

/-- An instruction that takes values of the set does the same in both. -/
theorem Machine.Agree.exec (h : Agree U s t) (hargs : ∀ v ∈ inst.args, U v) :
    (t.exec R inst).1 = (s.exec R inst).1 ∧ Agree U (s.exec R inst).2 (t.exec R inst).2 := by
  have hvalues := h.values hargs
  have hall : t.args R inst = s.args R inst := by
    rw [Machine.args, Machine.args, hvalues, h.frame]
  by_cases hop : inst.isAccess = false
  · rw [Machine.exec_call hop, Machine.exec_call hop, hall, h.world]
    split
    · refine ⟨rfl, ?_⟩
      have hassign := (h.bind (R.binds inst.op inst.imm) ‹_›).assign inst.result.toList [‹_›]
      exact ⟨hassign.frame, rfl, hassign.env⟩
    · exact ⟨rfl, h.frame, rfl, h.env⟩
  · obtain ⟨slot, himm, hop | hop⟩ := Inst.access_cases hop
    · simp only [Machine.exec, hop, himm, h.frame]
      exact ⟨trivial, h.assign _ _⟩
    · simp only [Machine.exec, hop, himm, hvalues]
      exact ⟨trivial, h.bind _ _⟩

theorem Machine.Agree.leave (h : Agree U s t) {term : Option Term}
    (huses : ∀ x, term = some x → ∀ v ∈ x.uses, U v) :
    Term.leave R t term = Term.leave R s term := by
  cases term with
  | none => rfl
  | some x =>
      have huses := huses x rfl
      cases x with
      | jump target args => exact congrArg (Leaving.goto target) (h.values huses)
      | branch cond thenBlock thenArgs elseBlock elseArgs =>
          obtain ⟨hcond, hargs⟩ := List.forall_mem_cons.mp huses
          obtain ⟨hthen, helse⟩ := List.forall_mem_append.mp hargs
          simp only [Term.leave, h.env cond hcond, h.values hthen, h.values helse]
      | ret value =>
          cases value with
          | none => simp only [Term.leave, Option.map_none, h.world]
          | some v =>
              simp only [Term.leave, Option.map_some, h.env v (huses v List.mem_cons_self), h.world]
      | throw v => simp only [Term.leave, h.env v (huses v List.mem_cons_self), h.world]
      | unreachable => rfl

end Agreement

section Promises

variable {R : Runtime ν ω} {f : Function} {s₀ s : Machine ν ω} {value : Op → Imm → List ν → ν}
variable {b : BlockId} {inst : Inst}

theorem Effects.clobber_of_pure {e earlier : Effects} (h : e.isPure = true) :
    e.mayClobberReadsOf earlier = false := by
  have hwrites : e.writes = 0 := by
    rw [Effects.isPure, Bool.and_eq_true, beq_iff_eq, beq_iff_eq] at h
    exact h.2
  rw [Effects.mayClobberReadsOf, hwrites]
  simp

/-- A pure instruction that is no load is no frame access, and takes only its
arguments. -/
theorem Function.Honest.pure_args (h : f.Honest R s₀ value) (hmem : inst ∈ (f.block b).insts)
    (hpure : inst.effects.isPure = true) (hload : inst.op ≠ .frameLoad) :
    inst.isAccess = false ∧ s.args R inst = inst.args.map s.env := by
  refine ⟨?_, ?_⟩
  · have hbound := h.slots b inst hmem (Effects.clobber_of_pure hpure)
    by_contra hop
    obtain ⟨slot, himm, hop | hop⟩ := Inst.access_cases hop
    · exact hload hop
    · simp only [Runtime.slotsBound, hop, himm] at hbound
      cases hbound
  · rw [Machine.args, h.reads b inst hmem hpure, List.map_nil, List.append_nil]

end Promises

end Slag.Jit
