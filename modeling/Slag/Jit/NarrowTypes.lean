import Slag.Jit.NarrowSteps
import Slag.Jit.Sources

/-!
The types that are recorded for the values of a body, once it is narrowed,
cover the values, unless a minus meets a BigInt, arithmetic takes the constant
-0, or a slot is read that holds, of another kind, what no store has put there.
-/

namespace Slag.Jit

open Crux

/-- A body as it is lifted: the parameters of the blocks are of no known type. -/
structure Lifted (f : Function) : Prop extends Shaped f where
  params : ∀ block ∈ f.blocks, ∀ p ∈ block.params, f.valueType p = .unknown

/-- The type is the one the lift declares for the operator. -/
def Inst.Declared (inst : Inst) : Prop :=
  (∃ op, Lift.binaryOp op = some inst.op ∧ inst.ty = Lift.binaryType inst.op) ∨
    ∃ op, Lift.unaryOp op = some inst.op ∧ inst.ty = Lift.unaryType inst.op

namespace Narrow

variable {ω : Type}

/-- What is no operator of the type the lift declares for it has a value of its
type: guards, constants, loads and calls, the int operations of register bodies,
and an operator that is given another type. -/
def Trusted (R : Runtime Value ω) (f : Function) (s₀ : Machine Value ω) : Prop :=
  ∀ done b i s s' inst v, Function.At R f s₀ done b i s → (f.block b).insts[i]? = some inst →
    ¬ inst.Declared → inst.result = some v → s.exec R inst = (true, s') →
    inst.ty.Covers (s'.env v)

/-- In a run every minus is of a value that is no BigInt, no arithmetic is to
take a negative zero that is a constant, and every load finds what a store has
left in the slot, or what is of the kind of all that the body stores there. -/
structure Met (C : Realm ω) (R : Runtime Value ω) (f : Function) (s₀ : Machine Value ω) : Prop where
  minus : ∀ done b i s inst a, Function.At R f s₀ done b i s → (f.block b).insts[i]? = some inst →
    inst.op = .neg → inst.Declared → inst.args = [a] →
    ∀ n w, C.toNumericOperand (s.env a) s.world = (some n, w) → ∀ k, n ≠ .bigint k
  zeros : ∀ done b i s inst v, Function.At R f s₀ done b i s → (f.block b).insts[i]? = some inst →
    inst.op = .const → inst.imm = .float .negZero → inst.result = some v → ¬ Worked f v
  loads : ∀ done b i s stored inst slot, Function.Traced R f s₀ done b i s stored →
    (f.block b).insts[i]? = some inst → inst.op = .frameLoad → inst.imm = .slot slot →
    stored slot ∨ (IsNumber (s.frame slot) ∨ NotNumber f (.slot slot)) ∧
      (IsI32 (s.frame slot) ∨ NotInt f (.slot slot))

/-- A slot holds what its flags say. -/
structure GoodSlot (φ : Facts) (slot : Nat) (x : Value) : Prop where
  numeric : flag φ.slotNumeric slot = true → IsNumber x
  int : flag φ.slotInt slot = true → IsI32 x

/-- In a run the recorded types cover the values, and an operand that is taken
for a Number is one. -/
structure Sound (R : Runtime Value ω) (f : Function) (s₀ : Machine Value ω) (g : Function) :
    Prop where
  values : ∀ done b i s v, Function.At R f s₀ done b i s → f.Defined v → f.Avail b i v →
    (g.valueType v).Covers (s.env v)
  insts : ∀ done b i s v, Function.At R f s₀ done b i s → f.Avail b i v →
    ∀ inst ∈ g.insts, inst.result = some v → inst.ty.Covers (s.env v)
  operands : ∀ done b i s inst v, Function.At R f s₀ done b i s →
    (g.block b).insts[i]? = some inst → v ∈ inst.args →
    g.valueType v = .number ∨ g.valueType v = .int → IsNumber (s.env v)

section Covering

variable {C : Realm ω} {R : Runtime Value ω} {f g : Function} {φ : Facts} {widen : Bool}
variable {s₀ s s' : Machine Value ω} {inst : Inst} {v : ValueId} {done : List BlockId} {b : BlockId}
variable {i : Nat} {stored : Nat → Prop}

/-- A value is as the facts and the types of the narrowed graph say. -/
structure Good (f g : Function) (φ : Facts) (widen : Bool) (v : ValueId) (x : Value) : Prop where
  numeric : flag φ.values v = true → IsNumber x
  int : flag φ.ints v = true → IsI32 x
  table : (g.valueType v).Covers x
  inst : ∀ inst ∈ f.insts, inst.result = some v → (narrowInst f φ widen inst).ty.Covers x

theorem isIntOp_of_binary {op : BinaryOp} {o : Op} (ho : Lift.binaryOp op = some o) :
    isIntOp o = false := by
  cases op <;> cases ho <;> rfl

theorem isIntOp_of_unary {op : UnaryOp} {o : Op} (ho : Lift.unaryOp op = some o) :
    isIntOp o = false := by
  cases op <;> cases ho <;> rfl

theorem not_declared (hbin : ∀ op, Lift.binaryOp op ≠ some inst.op)
    (hun : ∀ op, Lift.unaryOp op ≠ some inst.op) : ¬ inst.Declared := by
  rintro (⟨op, ho, -⟩ | ⟨op, ho, -⟩)
  · exact hbin op ho
  · exact hun op ho

/-- An instruction that is executed in a run, with all that is known there. -/
structure Stepping (C : Realm ω) (R : Runtime Value ω) (f g : Function) (φ : Facts) (widen : Bool)
    (s₀ : Machine Value ω) (done : List BlockId) (b : BlockId) (i : Nat) (s s' : Machine Value ω)
    (stored : Nat → Prop) (inst : Inst) (v : ValueId) : Prop where
  wellFormed : f.WellFormed
  justified : Justified f φ
  evaluates : Evaluates C R
  lifted : Lifted f
  trusted : Trusted R f s₀
  met : Met C R f s₀
  traced : Function.Traced R f s₀ done b i s stored
  at_inst : (f.block b).insts[i]? = some inst
  result : inst.result = some v
  exec : s.exec R inst = (true, s')
  values : ∀ u, f.Defined u → f.Avail b i u → Good f g φ widen u (s.env u)
  slots : ∀ slot, stored slot → GoodSlot φ slot (s.frame slot)

namespace Stepping

variable (h : Stepping C R f g φ widen s₀ done b i s s' stored inst v)
include h

theorem mem : inst ∈ f.insts := Function.mem_insts.mpr ⟨b, i, h.at_inst⟩

theorem trust (hbin : ∀ op, Lift.binaryOp op ≠ some inst.op)
    (hun : ∀ op, Lift.unaryOp op ≠ some inst.op) : inst.ty.Covers (s'.env v) :=
  h.trusted done b i s s' inst v h.traced.at h.at_inst (not_declared hbin hun) h.result h.exec

theorem operand {u : ValueId} (hu : u ∈ inst.args) : Good f g φ widen u (s.env u) := by
  obtain ⟨hdef, hav⟩ := h.wellFormed.use (mem_uses.mpr (.inl ⟨inst, h.at_inst, hu⟩))
  exact h.values u hdef hav

theorem numbers (hall : allFlagged φ.values inst = true) : ∀ a ∈ inst.args, IsNumber (s.env a) :=
  fun a ha => (h.operand ha).numeric ((allFlagged_spec hall).2 a ha)

theorem loaded (hop : inst.op = .frameLoad) {slot : Nat} (himm : inst.imm = .slot slot) :
    GoodSlot φ slot (s'.env v) := by
  rw [exec_loaded hop himm h.exec h.result]
  rcases h.met.loads done b i s stored inst slot h.traced h.at_inst hop himm with hs | ⟨hnum, hint⟩
  · exact h.slots slot hs
  · refine ⟨fun hflag => hnum.resolve_right fun hother => ?_,
      fun hflag => hint.resolve_right fun hother => ?_⟩
    · exact absurd ((hother.not_flagged h.justified).symm.trans hflag) Bool.false_ne_true
    · exact absurd ((hother.not_flagged h.justified).symm.trans hflag) Bool.false_ne_true

theorem int_op (hop : isIntOp inst.op = true) : IsI32 (s'.env v) := by
  have hty := h.lifted.int inst h.mem hop
  have hbin : ∀ op, Lift.binaryOp op ≠ some inst.op := by
    intro op ho
    rw [isIntOp_of_binary ho] at hop
    cases hop
  have hun : ∀ op, Lift.unaryOp op ≠ some inst.op := by
    intro op ho
    rw [isIntOp_of_unary ho] at hop
    cases hop
  have hcovers := h.trust hbin hun
  rw [hty] at hcovers
  exact hcovers

theorem numeric (hflag : flag φ.values v = true) : IsNumber (s'.env v) := by
  refine exec_numeric h.evaluates h.lifted.toShaped h.mem h.exec h.result h.numbers ?_ ?_
    (fun hop => (h.int_op hop).isNumber) (h.justified.values inst h.mem v h.result hflag)
  · intro hop hnum
    have hcovers := h.trust (fun op ho => by rw [hop] at ho; cases op <;> cases ho)
      (fun op ho => by rw [hop] at ho; cases op <;> cases ho)
    cases hty : inst.ty <;> rw [hty] at hnum hcovers <;> first
      | exact hcovers
      | exact IsI32.isNumber hcovers
      | cases hnum
  · intro slot hop himm hslot
    exact (h.loaded hop himm).numeric hslot

theorem int (hflag : flag φ.ints v = true) : IsI32 (s'.env v) := by
  have hint := h.justified.ints inst h.mem v h.result hflag
  unfold isIntInst at hint
  split at hint
  · rename_i hop
    obtain ⟨x, k, hx, hhas, hlo, hhi, hform⟩ := isIntConst_spec h.lifted.toShaped h.mem hint
    rw [exec_const h.evaluates h.lifted.toShaped h.mem hop hx h.exec h.result]
    rcases hform with rfl | himm
    · exact isI32_ofInt hlo hhi
    · refine isI32_of_hasInt hhas hlo hhi ?_
      -- the constant -0 is integral as well, but flagged only for the arithmetic that takes it
      rintro rfl
      rcases h.justified.used inst h.mem v h.result hflag with hused | hint
      · exact h.met.zeros done b i s inst v h.traced.at h.at_inst hop himm h.result
          (worked_of_flag hused)
      · rw [hop] at hint
        cases hint
  · rename_i hop
    obtain ⟨slot, himm, hflag⟩ := slotFlag_spec hint
    exact (h.loaded hop himm).int hflag
  · simp only [Bool.or_eq_true, Bool.and_eq_true, bne_iff_ne, ne_eq] at hint
    rcases hint with ⟨⟨hbit, hne⟩, hall⟩ | hop
    · exact (exec_numbers h.evaluates h.lifted.toShaped h.mem (.inr hbit) (h.numbers hall) h.exec
        h.result).2 hbit hne
    · exact h.int_op hop

/-- The type the lift declares covers the value, but for the int32s that
narrowing withdraws. -/
theorem declared (hdecl : inst.Declared) (hint : ¬ (inst.ty = .int ∧ (isBitOp inst.op = true ∨
    inst.op = .const))) : inst.ty.Covers (s'.env v) := by
  rcases hdecl with ⟨op, ho, hty⟩ | ⟨op, ho, hty⟩
  · obtain ⟨a, c, w, -, happly⟩ := exec_binary h.evaluates h.lifted.toShaped h.mem ho h.exec h.result
    by_cases hbool : Lift.binaryType inst.op = .bool
    · rw [hty, hbool]
      exact Realm.applyBinary_bool ho hbool happly
    · rw [hty]
      cases op with
      | unsignedRightShift =>
          rw [← Option.some.inj ho]
          exact Realm.applyBinary_ushr happly
      | exp | mul | div | rem | add | sub =>
          rw [← Option.some.inj ho]
          trivial
      | lessThan | greaterThan | lessEqual | greaterEqual | equal | strictEqual =>
          rw [← Option.some.inj ho] at hbool
          exact absurd rfl hbool
      | leftShift | rightShift | bitAnd | bitXor | bitOr =>
          rw [← Option.some.inj ho] at hty hint
          exact absurd ⟨hty, .inl rfl⟩ hint
      | isIn | instanceof | notEqual | strictNotEqual => cases ho
  · obtain ⟨a, w, hargs, happly⟩ := exec_unary h.evaluates h.lifted.toShaped h.mem ho h.exec h.result
    rw [hty]
    cases op with
    | plus =>
        rw [← Option.some.inj ho]
        exact Realm.evalUnary_plus happly
    | minus =>
        rw [← Option.some.inj ho]
        have hop := (Option.some.inj ho).symm
        refine Realm.evalUnary_minus (fun n w' hn => ?_) happly
        have hnot := h.met.minus done b i s inst a h.traced.at h.at_inst hop
          (.inr ⟨.minus, ho, hty⟩) hargs n w' hn
        exact (Realm.toNumericOperand_kind hn).resolve_right fun ⟨k, hk⟩ => hnot k hk
    | bitNot =>
        have hop := (Option.some.inj ho).symm
        rw [hop] at hty hint
        exact absurd ⟨hty, .inl rfl⟩ hint
    | not =>
        rw [← Option.some.inj ho]
        exact Realm.evalUnary_not happly
    | delete | void | typeof => cases ho

/-- A type an instruction keeps. -/
theorem kept (hint : ¬ (inst.ty = .int ∧ (isBitOp inst.op = true ∨ inst.op = .const))) :
    inst.ty.Covers (s'.env v) := by
  by_cases hdecl : inst.Declared
  · exact h.declared hdecl hint
  · exact h.trusted done b i s s' inst v h.traced.at h.at_inst hdecl h.result h.exec

theorem rewritten : (rewriteInst φ widen inst).1.ty.Covers (s'.env v) := by
  obtain ⟨effects, hwiden⟩ := widenInst_eq φ widen inst
  unfold rewriteInst
  split
  · rename_i hop
    split
    · rename_i hs
      obtain ⟨slot, himm, hflag⟩ := slotFlag_spec hs
      exact (h.loaded hop himm).int hflag
    · split
      · rename_i hs
        obtain ⟨slot, himm, hflag⟩ := slotFlag_spec hs
        exact (h.loaded hop himm).numeric hflag
      · refine h.kept fun hint => ?_
        rw [hop] at hint
        rcases hint.2 with hbit | hconst
        · cases hbit
        · cases hconst
  · have hany : ∀ {l : Flags}, inst.result.any (flag l) = true → flag l v = true := by
      intro l hl
      rwa [h.result, Option.any_some] at hl
    split
    · rename_i hflag
      exact h.int (hany hflag)
    · split
      · split
        · rename_i hflag
          exact h.numeric (hany hflag)
        · trivial
      · rename_i hint
        split
        · rename_i hnum
          exact (exec_numbers h.evaluates h.lifted.toShaped h.mem (.inl hnum.1) (h.numbers hnum.2) h.exec
            h.result).1
        · rw [hwiden]
          exact h.kept hint

/-- What is fused is an int32. -/
theorem fused {op : Op} {args : List ValueId} (hfuse : fusion f φ.ints inst = some (op, args)) :
    IsI32 (s'.env v) := by
  obtain ⟨x, y, -, hfusing⟩ := fusion_spec hfuse
  obtain ⟨hx, hxav, hy, hyav, z, w, zero, d, hargs, -, hz, -, hw⟩ :=
    hfusing.operands h.wellFormed h.evaluates h.lifted.toShaped h.traced.at h.at_inst
  obtain ⟨p, hp⟩ := ((h.values x hx hxav).int hfusing.left).isNumber
  obtain ⟨q, hq⟩ := ((h.values y hy hyav).int hfusing.right).isNumber
  have hother := hw p q hp hq
  have hnum : ∀ a ∈ inst.args, IsNumber (s.env a) := by
    intro a ha
    have hmem : a = z ∨ a = w := by
      rcases hargs with hargs | hargs <;> rw [hargs] at ha <;> simp at ha
      · exact ha
      · exact ha.symm
    rcases hmem with rfl | rfl
    · exact ⟨_, hz⟩
    · exact ⟨_, hother⟩
  have hbit : isBitOp inst.op = true ∧ inst.op ≠ .ushr := by
    rcases hfusing.bits with hop | hop <;> rw [hop] <;> exact ⟨rfl, nofun⟩
  exact (exec_numbers h.evaluates h.lifted.toShaped h.mem (.inr hbit.1) hnum h.exec h.result).2
    hbit.1 hbit.2

theorem good (hg : Narrowed f φ widen g) : Good f g φ widen v (s'.env v) := by
  refine ⟨h.numeric, h.int, ?_, fun inst' hin hr => ?_⟩
  · have hty := hg.results inst h.mem v h.result
    rw [Function.valueType, hty]
    exact h.rewritten
  · obtain rfl := inst_unique h.wellFormed h.mem hin h.result hr
    unfold narrowInst
    split
    · rename_i hfuse
      exact h.fused hfuse
    · exact h.rewritten

end Stepping

/-- Every value of a run is as the facts and the types say. -/
theorem good_at (hf : f.WellFormed) (hφ : Justified f φ) (hg : Narrowed f φ widen g) (hR : Evaluates C R)
    (hl : Lifted f) (ht : Trusted R f s₀) (hm : Met C R f s₀)
    (hat : Function.Traced R f s₀ done b i s stored) :
    ∀ v, f.Defined v → f.Avail b i v → Good f g φ widen v (s.env v) := by
  refine (hat.holds hf (P := GoodSlot φ) ?_ ?_ ?_).1
  · intro inst hin slot v hstore x hx
    exact ⟨fun hflag => hx.numeric ((hφ.slotNumeric slot hflag).2 inst hin v hstore),
      fun hflag => hx.int ((hφ.slotInt slot hflag).2 inst hin v hstore)⟩
  · intro done b i s stored s' inst v h hi hr hexec hvalues hslots
    have hstep : Stepping C R f g φ widen s₀ done b i s s' stored inst v :=
      ⟨hf, hφ, hR, hl, ht, hm, h, hi, hr, hexec, hvalues, hslots⟩
    exact hstep.good hg
  · intro done b s target values hat hleave hvalues e he
    obtain ⟨t, hterm, args, hedge, -⟩ := Term.leave_goto hleave
    have hmem : e.1 ∈ (f.block target).params := (List.of_mem_zip he).1
    have hlt := (hf.loose.edge (hat.lt hf.loose) hterm hedge).2.1
    have hnone : ∀ inst ∈ f.insts, inst.result ≠ some e.1 := by
      intro inst hin hr
      obtain ⟨d, k, hk⟩ := Function.mem_insts.mp hin
      have hparam : (⟨e.1, target, none⟩ : Site) ∈ f.sites := mem_sites.mpr ⟨hlt, hmem⟩
      cases (site_eq hf.loose (site_of_result (Function.lt_of_inst hk) hk hr) hparam).2
    refine ⟨fun hflag => ?_, fun hflag => ?_, ?_, fun inst hin hr => absurd hr (hnone inst hin)⟩
    · obtain ⟨inst, hin, hr⟩ := hφ.valueDefs _ hflag
      exact absurd hr (hnone inst hin)
    · obtain ⟨inst, hin, hr⟩ := hφ.intDefs _ hflag
      exact absurd hr (hnone inst hin)
    · have hother : e.1 ∉ f.insts.filterMap Inst.result := by
        intro hres
        obtain ⟨inst, hin, hr⟩ := List.mem_filterMap.mp hres
        exact hnone inst hin hr
      have hty := hl.params _ (Function.block_mem hlt) e.1 hmem
      rw [Function.valueType] at hty ⊢
      rw [hg.others _ hother, hty]
      trivial

theorem Narrowed.inst_of (hg : Narrowed f φ widen g) {inst' : Inst}
    (hi : (g.block b).insts[i]? = some inst') :
    ∃ inst, (f.block b).insts[i]? = some inst ∧ inst' = narrowInst f φ widen inst := by
  rw [hg.block b, List.getElem?_map] at hi
  obtain ⟨inst, hinst, rfl⟩ := Option.map_eq_some_iff.mp hi
  exact ⟨inst, hinst, rfl⟩

/-- The operands of a narrowed instruction are there. -/
theorem Narrowed.operand (hg : Narrowed f φ widen g) (hf : f.WellFormed) (hR : Evaluates C R)
    (hl : Lifted f) (hat : Function.At R f s₀ done b i s) {inst' : Inst}
    (hi : (g.block b).insts[i]? = some inst') (hv : v ∈ inst'.args) :
    f.Defined v ∧ f.Avail b i v := by
  obtain ⟨inst, hinst, rfl⟩ := hg.inst_of hi
  unfold narrowInst at hv
  split at hv
  · rename_i hfuse
    obtain ⟨x, y, hargs, hfusing⟩ := fusion_spec hfuse
    obtain ⟨hx, hxav, hy, hyav, -⟩ := hfusing.operands hf hR hl.toShaped hat hinst
    dsimp only at hv
    rw [hargs] at hv
    rcases List.mem_cons.mp hv with rfl | hv
    · exact ⟨hx, hxav⟩
    · obtain rfl := List.mem_singleton.mp hv
      exact ⟨hy, hyav⟩
  · rw [rewriteInst_args] at hv
    exact hf.use (mem_uses.mpr (.inl ⟨inst, hinst, hv⟩))

theorem sound_of_met (hf : f.WellFormed) (hφ : Justified f φ) (hg : Narrowed f φ widen g) (hR : Evaluates C R)
    (hl : Lifted f) (ht : Trusted R f s₀) (hm : Met C R f s₀) :
    Sound R f s₀ g := by
  have hgood : ∀ done b i s v, Function.At R f s₀ done b i s → f.Defined v → f.Avail b i v →
      Good f g φ widen v (s.env v) := by
    intro done b i s v hat hdef hav
    obtain ⟨stored, htraced⟩ := hat.traced
    exact good_at hf hφ hg hR hl ht hm htraced v hdef hav
  refine ⟨fun done b i s v hat hdef hav => (hgood done b i s v hat hdef hav).table, ?_, ?_⟩
  · intro done b i s v hat hav inst' hin' hr'
    obtain ⟨d, k, hk⟩ := Function.mem_insts.mp hin'
    obtain ⟨inst, hinst, rfl⟩ := hg.inst_of hk
    have hin := Function.mem_insts.mpr ⟨d, k, hinst⟩
    have hr : inst.result = some v := narrowInst_result.symm.trans hr'
    have hdef : f.Defined v := ⟨_, site_of_result (Function.lt_of_inst hinst) hinst hr, rfl⟩
    exact (hgood done b i s v hat hdef hav).inst inst hin hr
  · intro done b i s inst' v hat hi' hv hty
    obtain ⟨hdef, hav⟩ := hg.operand hf hR hl hat hi' hv
    have hcovers := (hgood done b i s v hat hdef hav).table
    rcases hty with hty | hty <;> rw [hty] at hcovers
    · exact hcovers
    · exact IsI32.isNumber hcovers

end Covering

/-- In every run the types recorded after narrowing are sound. -/
def TypesSound (f : Function) : Prop :=
  ∀ widen, ∃ r, run widen f = .ok r ∧
    ∀ (ω : Type) (C : Realm ω) (R : Runtime Value ω) (s₀ : Machine Value ω),
      Evaluates C R → Trusted R f s₀ → Sound R f s₀ r.2

/-- They are in a run where no minus meets a BigInt, no arithmetic the constant -0,
and loads find what was stored, or what is of the kind of it. -/
theorem types_sound_of_met (f : Function) (hv : verify f = .ok ()) (hl : Lifted f) (widen : Bool) :
    ∃ r, run widen f = .ok r ∧
      ∀ (ω : Type) (C : Realm ω) (R : Runtime Value ω) (s₀ : Machine Value ω),
        Evaluates C R → Trusted R f s₀ → Met C R f s₀ → Sound R f s₀ r.2 := by
  have hf := (verify_ok_iff f).mp hv
  obtain ⟨r, φ, hr, hφ, hg⟩ := run_spec hf widen
  exact ⟨r, hr, fun ω C R s₀ hR ht hm => sound_of_met hf hφ hg hR hl ht hm⟩

/-- A sum that is stored, and truncated. -/
def summed : Function where
  blocks := [⟨[], [⟨.const, [], some 0, .number, Op.const.defaultEffects, .int 0⟩,
    ⟨.frameStore, [0], none, .never, Op.frameStore.defaultEffects, .slot 0⟩,
    ⟨.frameLoad, [], some 1, .unknown, Op.frameLoad.defaultEffects, .slot 0⟩,
    ⟨.const, [], some 2, .number, Op.const.defaultEffects, .int 1⟩,
    ⟨.add, [1, 2], some 3, .unknown, Op.add.defaultEffects, .none⟩,
    ⟨.bitOr, [3, 0], some 4, .int, Op.bitOr.defaultEffects, .none⟩,
    ⟨.frameStore, [4], none, .never, Op.frameStore.defaultEffects, .slot 0⟩],
    some (.ret (some 4))⟩]
  valueTypes := [.number, .unknown, .number, .unknown, .int]
  entry_lt := Nat.zero_lt_one

theorem summed_lifted : Lifted summed where
  binary inst hin op ho := by
    simp only [Function.insts, summed, List.flatMap_cons, List.flatMap_nil, List.append_nil,
      List.mem_cons, List.not_mem_nil, or_false] at hin
    rcases hin with rfl | rfl | rfl | rfl | rfl | rfl | rfl <;> cases op <;> first | rfl | cases ho
  unary inst hin op ho := by
    simp only [Function.insts, summed, List.flatMap_cons, List.flatMap_nil, List.append_nil,
      List.mem_cons, List.not_mem_nil, or_false] at hin
    rcases hin with rfl | rfl | rfl | rfl | rfl | rfl | rfl <;> cases op <;> cases ho
  const := by decide
  int := by decide
  payload inst hin i himm := by
    simp only [Function.insts, summed, List.flatMap_cons, List.flatMap_nil, List.append_nil,
      List.mem_cons, List.not_mem_nil, or_false] at hin
    rcases hin with rfl | rfl | rfl | rfl | rfl | rfl | rfl <;> cases himm <;> decide
  params := by decide

/-- Nothing is known of the slots at the start. -/
def summedStart : Machine Value Unit := ⟨fun _ => .undefined, fun _ => .undefined, ()⟩

theorem summed_trusted : Trusted Realm.strict.runtime summed summedStart := by
  intro done b i s s' inst v hat hi hdecl hr hexec
  have hin := Function.mem_insts.mpr ⟨b, i, hi⟩
  match b, i, hi with
  | 0, 0, hi | 0, 3, hi =>
      cases hi
      exact ⟨_, exec_const Realm.strict.runtime_evaluates summed_lifted.toShaped hin rfl rfl hexec hr⟩
  | 0, 1, hi | 0, 6, hi =>
      cases hi
      cases hr
  | 0, 2, hi =>
      cases hi
      trivial
  | 0, 4, hi =>
      cases hi
      exact absurd (.inl ⟨.add, rfl, rfl⟩) hdecl
  | 0, 5, hi =>
      cases hi
      exact absurd (.inl ⟨.bitOr, rfl, rfl⟩) hdecl
  | 0, i + 7, hi => cases hi
  | b + 1, i, hi => cases hi

theorem summed_met : Met Realm.strict Realm.strict.runtime summed summedStart where
  minus := by
    intro done b i s inst a hat hi hop
    have hin := Function.mem_insts.mpr ⟨b, i, hi⟩
    have hnone : ∀ inst ∈ summed.insts, inst.op ≠ .neg := by decide
    exact absurd hop (hnone inst hin)
  zeros := by
    intro done b i s inst v hat hi hop himm
    have hin := Function.mem_insts.mpr ⟨b, i, hi⟩
    have hnone : ∀ inst ∈ summed.insts, inst.imm ≠ .float .negZero := by decide
    exact absurd himm (hnone inst hin)
  loads := by
    intro done b i s stored inst slot hat hi hop himm
    match b, i, hi with
    | 0, 0, hi | 0, 1, hi | 0, 3, hi | 0, 4, hi | 0, 5, hi | 0, 6, hi =>
        cases hi
        cases hop
    | 0, 2, hi =>
        cases hi
        cases himm
        cases hat with
        | exec h hi hexec =>
            cases hi
            exact .inl (.inl ⟨0, rfl⟩)
    | 0, i + 7, hi => cases hi
    | b + 1, i, hi => cases hi

theorem summed_types_sound : ∃ r, run true summed = .ok r ∧
    Sound Realm.strict.runtime summed summedStart r.2 := by
  obtain ⟨r, hr, hsound⟩ := types_sound_of_met summed (by decide) summed_lifted true
  exact ⟨r, hr, hsound Unit Realm.strict _ _ Realm.strict.runtime_evaluates summed_trusted summed_met⟩

example : ∃ g, run true summed = .ok (true, g) ∧
    g.valueTypes = [.int, .int, .int, .number, .int] ∧
    ((g.block 0).insts.map Inst.op)[5]? = some .intAdd := ⟨_, rfl, rfl, rfl⟩

/-- `-x` of a parameter. -/
def negated : Function where
  blocks := [⟨[], [⟨.frameLoad, [], some 0, .unknown, Op.frameLoad.defaultEffects, .slot 0⟩,
    ⟨.neg, [0], some 1, .number, Op.neg.defaultEffects, .none⟩], some (.ret (some 1))⟩]
  valueTypes := [.unknown, .number]
  entry_lt := Nat.zero_lt_one

theorem negated_lifted : Lifted negated where
  binary inst hin op ho := by
    simp only [Function.insts, negated, List.flatMap_cons, List.flatMap_nil, List.append_nil,
      List.mem_cons, List.not_mem_nil, or_false] at hin
    rcases hin with rfl | rfl <;> cases op <;> cases ho
  unary inst hin op ho := by
    simp only [Function.insts, negated, List.flatMap_cons, List.flatMap_nil, List.append_nil,
      List.mem_cons, List.not_mem_nil, or_false] at hin
    rcases hin with rfl | rfl <;> cases op <;> first | rfl | cases ho
  const := by decide
  int := by decide
  payload inst hin i himm := by
    simp only [Function.insts, negated, List.flatMap_cons, List.flatMap_nil, List.append_nil,
      List.mem_cons, List.not_mem_nil, or_false] at hin
    rcases hin with rfl | rfl <;> cases himm
  params := by decide

/-- The parameter is a BigInt. -/
def negatedStart : Machine Value Unit := ⟨fun _ => .undefined, fun _ => .bigint 1, ()⟩

theorem negated_trusted : Trusted Realm.strict.runtime negated negatedStart := by
  intro done b i s s' inst v hat hi hdecl hr hexec
  match b, i, hi with
  | 0, 0, hi =>
      cases hi
      trivial
  | 0, 1, hi =>
      cases hi
      exact absurd (.inr ⟨.minus, rfl, rfl⟩) hdecl
  | 0, i + 2, hi => cases hi
  | b + 1, i, hi => cases hi

theorem negated_unsound : verify negated = .ok () ∧ Lifted negated ∧ ¬ TypesSound negated := by
  refine ⟨by decide, negated_lifted, fun hsound => ?_⟩
  obtain ⟨r, hrun, hall⟩ := hsound true
  have hs := hall Unit Realm.strict Realm.strict.runtime negatedStart
    Realm.strict.runtime_evaluates negated_trusted
  obtain rfl := Except.ok.inj hrun
  have hf := (verify_ok_iff negated).mp (by decide)
  have hload : Function.At Realm.strict.runtime negated negatedStart [] 0 1
      (negatedStart.assign [0] [.bigint 1]) := Function.At.exec .start rfl rfl
  have hneg : Function.At Realm.strict.runtime negated negatedStart [] 0 2
      ((negatedStart.assign [0] [.bigint 1]).assign [1] [.bigint (-1)]) :=
    Function.At.exec hload rfl rfl
  obtain ⟨hdef, hav⟩ := hf.use (b := 0) (i := 2) (v := 1) (by decide)
  obtain ⟨x, hx⟩ := hs.values _ _ _ _ _ hneg hdef hav
  cases hx

end Narrow

end Slag.Jit
