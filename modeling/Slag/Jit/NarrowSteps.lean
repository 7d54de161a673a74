import Slag.Jit.Evaluates
import Slag.Jit.Narrowed

/-!
The steps narrowing is about: what the operators and the constants of a body
yield in a run, and what a fused instruction truncates.
-/

namespace Slag.Jit

open Crux

/-- The operations of a body take the operands they have. -/
structure Shaped (f : Function) : Prop where
  binary : ∀ inst ∈ f.insts, ∀ op, Lift.binaryOp op = some inst.op → inst.args.length = 2
  unary : ∀ inst ∈ f.insts, ∀ op, Lift.unaryOp op = some inst.op → inst.args.length = 1
  const : ∀ inst ∈ f.insts, inst.op = .const → inst.args = []
  int : ∀ inst ∈ f.insts, Narrow.isIntOp inst.op = true → inst.ty = .int
  payload : ∀ inst ∈ f.insts, ∀ i, inst.imm = .int i → -2 ^ 31 ≤ i ∧ i < 2 ^ 31

namespace Narrow

variable {ω : Type}

section Instructions

variable {C : Realm ω} {R : Runtime Value ω} {f : Function} {s s' : Machine Value ω} {inst : Inst}
variable {v : ValueId}

theorem isAccess_of_binary {op : BinaryOp} (ho : Lift.binaryOp op = some inst.op) :
    inst.isAccess = false := by
  refine Fold.isAccess_of_op ?_ ?_
  · intro h
    rw [h] at ho
    cases op <;> cases ho
  · intro h
    rw [h] at ho
    cases op <;> cases ho

theorem isAccess_of_unary {op : UnaryOp} (ho : Lift.unaryOp op = some inst.op) :
    inst.isAccess = false := by
  refine Fold.isAccess_of_op ?_ ?_
  · intro h
    rw [h] at ho
    cases op <;> cases ho
  · intro h
    rw [h] at ho
    cases op <;> cases ho

theorem slotsRead_of_reads (hread : R.reads inst.op inst.imm = []) (hop : inst.isAccess = false)
    (htdz : inst.op ≠ .tdzCheck) : R.slotsRead inst = [] := by
  unfold Runtime.slotsRead
  split
  · rw [Inst.isAccess_of_slot ‹_› (.inl ‹_›)] at hop
    cases hop
  · exact absurd ‹_› htdz
  · rfl
  · exact hread

theorem ofEval_next {r : Option Value × ω} {x : Value} {binds : List Value} {w : ω}
    (h : Outcome.ofEval r = .next x binds w) : r = (some x, w) := by
  obtain ⟨o, w'⟩ := r
  cases o with
  | none => cases h
  | some y =>
      cases h
      rfl

/-- What an operator comes to. -/
theorem runtime_binary (hR : Evaluates C R) {op : BinaryOp} (ho : Lift.binaryOp op = some inst.op)
    {a b : ValueId} (hargs : inst.args = [a, b]) :
    R.exec inst.op inst.ty inst.imm (s.args R inst) s.world =
      .ofEval (C.applyBinary op (s.env a) (s.env b) s.world) := by
  obtain ⟨hread, hexec⟩ := hR.binary op inst.op ho inst.imm
  have htdz : inst.op ≠ .tdzCheck := by
    intro h
    rw [h] at ho
    cases op <;> cases ho
  rw [Machine.args, slotsRead_of_reads hread (isAccess_of_binary ho) htdz, hargs, List.map_nil,
    List.append_nil, List.map_cons, List.map_cons, List.map_nil, hexec]

theorem exec_binary (hR : Evaluates C R) (hl : Shaped f) (hin : inst ∈ f.insts) {op : BinaryOp}
    (ho : Lift.binaryOp op = some inst.op) (h : s.exec R inst = (true, s'))
    (hv : inst.result = some v) : ∃ a b w, inst.args = [a, b] ∧
      C.applyBinary op (s.env a) (s.env b) s.world = (some (s'.env v), w) := by
  obtain ⟨a, b, hargs⟩ := List.length_eq_two.mp (hl.binary inst hin op ho)
  obtain ⟨binds, w, hrun⟩ := Machine.exec_result (isAccess_of_binary ho) h hv
  rw [runtime_binary hR ho hargs] at hrun
  exact ⟨a, b, w, hargs, ofEval_next hrun⟩

theorem exec_unary (hR : Evaluates C R) (hl : Shaped f) (hin : inst ∈ f.insts) {op : UnaryOp}
    (ho : Lift.unaryOp op = some inst.op) (h : s.exec R inst = (true, s'))
    (hv : inst.result = some v) : ∃ a w, inst.args = [a] ∧
      C.evalUnary op (s.env a) s.world = (some (s'.env v), w) := by
  obtain ⟨a, hargs⟩ := List.length_eq_one_iff.mp (hl.unary inst hin op ho)
  have hcall := isAccess_of_unary ho
  obtain ⟨hread, hexec⟩ := hR.unary op inst.op ho inst.imm
  have htdz : inst.op ≠ .tdzCheck := by
    intro h
    rw [h] at ho
    cases op <;> cases ho
  obtain ⟨binds, w, hrun⟩ := Machine.exec_result hcall h hv
  rw [Machine.args, slotsRead_of_reads hread hcall htdz, hargs, List.map_nil, List.append_nil,
    List.map_cons, List.map_nil, hexec] at hrun
  exact ⟨a, w, hargs, ofEval_next hrun⟩

theorem exec_const (hR : Evaluates C R) (hl : Shaped f) (hin : inst ∈ f.insts)
    (ho : inst.op = .const) {x : Value} (hx : inst.imm.constant = some x)
    (h : s.exec R inst = (true, s')) (hv : inst.result = some v) : s'.env v = x := by
  have hcall : inst.isAccess = false := Fold.isAccess_of_op (by rw [ho]; exact nofun)
    (by rw [ho]; exact nofun)
  obtain ⟨hread, hexec⟩ := hR.const inst.imm x hx
  obtain ⟨binds, w, hrun⟩ := Machine.exec_result hcall h hv
  have hslots : R.slotsRead inst = [] :=
    slotsRead_of_reads (by rw [ho]; exact hread) hcall (by rw [ho]; exact nofun)
  rw [Machine.args, hslots, hl.const inst hin ho, ho, List.map_nil, List.map_nil, List.append_nil,
    hexec] at hrun
  cases hrun
  rfl

theorem exec_loaded {slot : Nat} (hop : inst.op = .frameLoad) (himm : inst.imm = .slot slot)
    (h : s.exec R inst = (true, s')) (hv : inst.result = some v) : s'.env v = s.frame slot := by
  rw [Machine.exec_load hop himm, hv] at h
  cases h
  exact Function.update_self _ _ _

/-- A number operation or a bit operation is an operator. -/
theorem operator_cases {o : Op} (h : isNumberOp o = true ∨ isBitOp o = true) :
    (∃ op, Lift.binaryOp op = some o ∧ Realm.isNumeric o = true) ∨
      o = .toNumber ∨ o = .neg ∨ o = .bitNot := by
  cases o <;> first
    | (rcases h with h | h <;> cases h; done)
    | exact .inl ⟨.add, rfl, rfl⟩
    | exact .inl ⟨.sub, rfl, rfl⟩
    | exact .inl ⟨.mul, rfl, rfl⟩
    | exact .inl ⟨.div, rfl, rfl⟩
    | exact .inl ⟨.rem, rfl, rfl⟩
    | exact .inl ⟨.exp, rfl, rfl⟩
    | exact .inl ⟨.bitAnd, rfl, rfl⟩
    | exact .inl ⟨.bitOr, rfl, rfl⟩
    | exact .inl ⟨.bitXor, rfl, rfl⟩
    | exact .inl ⟨.leftShift, rfl, rfl⟩
    | exact .inl ⟨.rightShift, rfl, rfl⟩
    | exact .inl ⟨.unsignedRightShift, rfl, rfl⟩
    | exact .inr (.inl rfl)
    | exact .inr (.inr (.inl rfl))
    | exact .inr (.inr (.inr rfl))

/-- Numbers make a Number, and bit operations an int32 of them. -/
theorem exec_numbers (hR : Evaluates C R) (hl : Shaped f) (hin : inst ∈ f.insts)
    (ho : isNumberOp inst.op = true ∨ isBitOp inst.op = true)
    (hargs : ∀ a ∈ inst.args, IsNumber (s.env a)) (h : s.exec R inst = (true, s'))
    (hv : inst.result = some v) : IsNumber (s'.env v) ∧
      (isBitOp inst.op = true → inst.op ≠ .ushr → IsI32 (s'.env v)) := by
  rcases operator_cases ho with ⟨op, hop, hnum⟩ | hop | hop | hop
  · obtain ⟨a, b, w, heq, happly⟩ := exec_binary hR hl hin hop h hv
    rw [heq] at hargs
    obtain ⟨x, hx⟩ := hargs a List.mem_cons_self
    obtain ⟨y, hy⟩ := hargs b (List.mem_cons_of_mem _ List.mem_cons_self)
    rw [hx, hy] at happly
    refine ⟨Realm.applyBinary_numbers hop hnum happly, fun hbit hne => ?_⟩
    refine Realm.applyBinary_bits hop ?_ happly
    revert hbit hne hop
    cases inst.op <;> intro hop hbit hne <;> first
      | rfl
      | exact absurd rfl hne
      | exact absurd hbit (by decide)
      | (cases op <;> cases hop)
  · have hplus : Lift.unaryOp .plus = some inst.op := by rw [hop]; rfl
    obtain ⟨a, w, heq, happly⟩ := exec_unary hR hl hin hplus h hv
    refine ⟨Realm.evalUnary_plus happly, fun hbit => ?_⟩
    rw [hop] at hbit
    cases hbit
  · have hminus : Lift.unaryOp .minus = some inst.op := by rw [hop]; rfl
    obtain ⟨a, w, heq, happly⟩ := exec_unary hR hl hin hminus h hv
    rw [heq] at hargs
    obtain ⟨x, hx⟩ := hargs a List.mem_cons_self
    refine ⟨Realm.evalUnary_minus (fun n w' hn => ?_) happly, fun hbit => ?_⟩
    · rw [hx, Realm.toNumericOperand_number] at hn
      cases hn
      exact ⟨x, rfl⟩
    · rw [hop] at hbit
      cases hbit
  · have hnot : Lift.unaryOp .bitNot = some inst.op := by rw [hop]; rfl
    obtain ⟨a, w, heq, happly⟩ := exec_unary hR hl hin hnot h hv
    rw [heq] at hargs
    obtain ⟨x, hx⟩ := hargs a List.mem_cons_self
    rw [hx] at happly
    have hint := Realm.evalUnary_bitNot happly
    exact ⟨hint.isNumber, fun _ _ => hint⟩

/-- An integral constant of the range of an int32. -/
theorem isIntConst_spec (hl : Shaped f) (hin : inst ∈ f.insts) (h : isIntConst inst.imm = true) :
    ∃ x i, inst.imm.constant = some (.number x) ∧ x.HasInt i ∧ -2 ^ 31 ≤ i ∧ i < 2 ^ 31 ∧
      (x = F64.ofInt i ∨ inst.imm = .float x) := by
  cases himm : inst.imm with
  | int i =>
      obtain ⟨hlo, hhi⟩ := hl.payload inst hin i himm
      exact ⟨_, i, rfl, F64.hasInt_ofInt (by omega), hlo, hhi, .inl rfl⟩
  | float x =>
      rw [himm] at h
      obtain ⟨hint, hlt⟩ := Bool.and_eq_true_iff.mp h
      have hhas := F64.hasInt_truncate hint
      have habs := F64.abs_lt hhas hlt
      exact ⟨x, _, rfl, hhas, by omega, by omega, .inr rfl⟩
  | none | bool | str | slot | arg | atom | context | forOfBind | u64 =>
      rw [himm] at h
      cases h

/-- What is flagged to be a Number is one, if guards, slots and int operations
are what they are taken for. -/
theorem exec_numeric (hR : Evaluates C R) (hl : Shaped f) (hin : inst ∈ f.insts) {φ : Facts}
    (h : s.exec R inst = (true, s')) (hv : inst.result = some v)
    (hargs : allFlagged φ.values inst = true → ∀ a ∈ inst.args, IsNumber (s.env a))
    (hguard : inst.op = .guardType → inst.ty.isNumeric = true → IsNumber (s'.env v))
    (hload : ∀ slot, inst.op = .frameLoad → inst.imm = .slot slot →
      flag φ.slotNumeric slot = true → IsNumber (s'.env v))
    (hint : isIntOp inst.op = true → IsNumber (s'.env v))
    (hnum : isNumericInst φ.slotNumeric inst φ.values = true) : IsNumber (s'.env v) := by
  unfold isNumericInst at hnum
  split at hnum
  · rename_i hop
    have hconst : ∃ x, inst.imm.constant = some (.number x) := by
      cases himm : inst.imm <;> rw [himm] at hnum <;> first | exact ⟨_, rfl⟩ | cases hnum
    obtain ⟨x, hx⟩ := hconst
    exact ⟨x, exec_const hR hl hin hop hx h hv⟩
  · exact hguard ‹_› hnum
  · rename_i hop
    cases himm : inst.imm <;> rw [himm] at hnum <;> first
      | cases hnum
      | exact hload _ hop himm hnum
  · simp only [Bool.or_eq_true, Bool.and_eq_true] at hnum
    rcases hnum with ⟨hop, hall⟩ | hop
    · exact (exec_numbers hR hl hin hop (hargs hall) h hv).1
    · exact hint hop

end Instructions

section Fused

variable {C : Realm ω} {R : Runtime Value ω} {f : Function} {s₀ s s' : Machine Value ω}
variable {inst : Inst} {v : ValueId} {done : List BlockId} {b : BlockId} {i : Nat}

theorem defOf_spec {d : Inst} (h : defOf f v = some d) : d ∈ f.insts ∧ d.result = some v := by
  have hfound := List.find?_some h
  exact ⟨List.mem_reverse.mp (List.mem_of_find?_eq_some h), of_decide_eq_true hfound⟩

theorem isZero_spec (h : isZero f v = true) : ∃ d ∈ f.insts, d.result = some v ∧
    d.op = .const ∧ ∃ x : F64, d.imm.constant = some (.number x) ∧ x.toInt32 = 0 := by
  unfold isZero at h
  split at h
  · rename_i d hd
    obtain ⟨hin, hr⟩ := defOf_spec hd
    split at h
    · rename_i i hop himm
      obtain rfl := of_decide_eq_true h
      refine ⟨d, hin, hr, hop, _, by rw [himm]; rfl, ?_⟩
      rw [F64.toInt32_int (F64.hasInt_ofInt (by decide))]
      rfl
    · rename_i x hop himm
      refine ⟨d, hin, hr, hop, x, by rw [himm]; rfl, ?_⟩
      rw [F64.toInt32_int (F64.hasInt_of_eq_zero h)]
      rfl
    · cases h
  · cases h

/-- What a wrapping operation stands for. -/
def exactly (A : Ieee) : Op → F64 → F64 → F64
  | .add => A.add
  | _ => A.sub

/-- The parts of an instruction that is fused. -/
structure Fusing (f : Function) (ints : Flags) (inst : Inst) (op : Op) (x y : ValueId) : Prop where
  bits : inst.op = .bitOr ∨ inst.op = .bitXor
  parts : ∃ z w d, (inst.args = [z, w] ∨ inst.args = [w, z]) ∧ isZero f z = true ∧ d ∈ f.insts ∧
    d.result = some w ∧ wrapping d.op = some op ∧ d.args = [x, y]
  left : flag ints x = true
  right : flag ints y = true

theorem fusion_spec {ints : Flags} {op : Op} {args : List ValueId}
    (h : fusion f ints inst = some (op, args)) :
    ∃ x y, args = [x, y] ∧ Fusing f ints inst op x y := by
  unfold fusion at h
  split at h
  · rename_i d hd
    obtain ⟨w, hw, hdef⟩ := Option.bind_eq_some_iff.mp hd
    obtain ⟨hin, hr⟩ := defOf_spec hdef
    split at h
    · rename_i op' x y hwrap hargs
      split at h
      · rename_i hflags
        cases h
        obtain ⟨hx, hy⟩ := Bool.and_eq_true_iff.mp hflags
        have hparts : (inst.op = .bitOr ∨ inst.op = .bitXor) ∧ ∃ z,
            (inst.args = [z, w] ∨ inst.args = [w, z]) ∧ isZero f z = true := by
          unfold truncated at hw
          have hpick : ∀ z u : ValueId, (if isZero f z then some u else if isZero f u then some z
              else none) = some w → ∃ z', ([z, u] = [z', w] ∨ [z, u] = [w, z']) ∧
                isZero f z' = true := by
            intro z u hpick
            split at hpick
            · cases hpick
              exact ⟨z, .inl rfl, ‹_›⟩
            · split at hpick
              · cases hpick
                exact ⟨u, .inr rfl, ‹_›⟩
              · cases hpick
          split at hw
          · rename_i z u hop hargs
            rw [hargs]
            exact ⟨.inl hop, hpick z u hw⟩
          · rename_i z u hop hargs
            rw [hargs]
            exact ⟨.inr hop, hpick z u hw⟩
          · cases hw
        obtain ⟨hbits, z, hz, hzero⟩ := hparts
        exact ⟨x, y, rfl, hbits, ⟨z, w, d, hz, hzero, hin, hr, hwrap, hargs⟩, hx, hy⟩
      · cases h
    · cases h
  · cases h

theorem exec_exactly (hR : Evaluates C R) (hl : Shaped f) (hin : inst ∈ f.insts) {op : Op}
    (hwrap : wrapping inst.op = some op) {a c : ValueId} (hargs : inst.args = [a, c]) {x y : F64}
    (hx : s.env a = .number x) (hy : s.env c = .number y) (h : s.exec R inst = (true, s'))
    (hv : inst.result = some v) : s'.env v = .number (exactly C.ieee inst.op x y) := by
  have hop : inst.op = .add ∨ inst.op = .sub := by
    unfold wrapping at hwrap
    split at hwrap
    · exact .inl ‹_›
    · exact .inr ‹_›
    · cases hwrap
  rcases hop with hop | hop
  · have hadd : Lift.binaryOp .add = some inst.op := by rw [hop]; rfl
    obtain ⟨a', c', w, heq, happly⟩ := exec_binary hR hl hin hadd h hv
    rw [hargs] at heq
    cases heq
    rw [hx, hy] at happly
    rw [hop]
    exact (Option.some.inj (congrArg Prod.fst happly)).symm
  · have hsub : Lift.binaryOp .sub = some inst.op := by rw [hop]; rfl
    obtain ⟨a', c', w, heq, happly⟩ := exec_binary hR hl hin hsub h hv
    rw [hargs] at heq
    cases heq
    rw [hx, hy] at happly
    rw [hop]
    exact (Option.some.inj (congrArg Prod.fst happly)).symm

/-- What a fused instruction takes in a run: a zero, and the sum or the
difference of what the wrapping operation takes. -/
theorem Fusing.operands (hf : f.WellFormed) (hR : Evaluates C R) (hl : Shaped f) {ints : Flags}
    {op : Op} {x y : ValueId} (h : Fusing f ints inst op x y)
    (hat : Function.At R f s₀ done b i s) (hi : (f.block b).insts[i]? = some inst) :
    f.Defined x ∧ f.Avail b i x ∧ f.Defined y ∧ f.Avail b i y ∧
      ∃ (z w : ValueId) (zero : F64) (d : Inst), (inst.args = [z, w] ∨ inst.args = [w, z]) ∧
        zero.toInt32 = 0 ∧ s.env z = .number zero ∧ wrapping d.op = some op ∧
        ∀ p q, s.env x = .number p → s.env y = .number q →
          s.env w = .number (exactly C.ieee d.op p q) := by
  obtain ⟨z, w, d, hargs, hzero, hd, hdr, hwrap, hdargs⟩ := h.parts
  have hmem : z ∈ inst.args ∧ w ∈ inst.args := by
    rcases hargs with hargs | hargs <;> rw [hargs] <;> simp
  have huse : ∀ u ∈ inst.args, f.Defined u ∧ f.Avail b i u := fun u hu =>
    hf.use (mem_uses.mpr (.inl ⟨inst, hi, hu⟩))
  obtain ⟨e, j, hj⟩ := Function.mem_insts.mp hd
  have he := Function.lt_of_inst hj
  have hother : ∀ u ∈ d.args, f.Defined u ∧ f.Avail b i u := fun u hu =>
    ⟨(hf.use (mem_uses.mpr (.inl ⟨d, hj, hu⟩))).1,
      (huse w hmem.2).2.operand hf.loose hj he hdr hu⟩
  rw [hdargs] at hother
  obtain ⟨hx, hxav⟩ := hother x List.mem_cons_self
  obtain ⟨hy, hyav⟩ := hother y (List.mem_cons_of_mem _ List.mem_cons_self)
  obtain ⟨k, hk, hkr, hkop, zero, hconst, hint⟩ := isZero_spec hzero
  obtain ⟨c, l, hl'⟩ := Function.mem_insts.mp hk
  have hzenv : s.env z = .number zero :=
    Function.At.equation hf hl' hkr (P := fun _ r => r = .number zero)
      (fun _ _ _ _ hexec => exec_const hR hl hk hkop hconst hexec hkr) hat (huse z hmem.1).2
  have hwenv := Function.At.equation hf hj hdr
    (P := fun args r => ∀ p q, args = [.number p, .number q] → r = .number (exactly C.ieee d.op p q))
    (fun _ s s' _ hexec p q heq => by
      rw [hdargs] at heq
      obtain ⟨hp, hrest⟩ := List.cons.inj heq
      obtain ⟨hq, -⟩ := List.cons.inj hrest
      exact exec_exactly hR hl hd hwrap hdargs hp hq hexec hdr) hat (huse w hmem.2).2
  refine ⟨hx, hxav, hy, hyav, z, w, zero, d, hargs, hint, hzenv, hwrap, fun p q hp hq => ?_⟩
  refine hwenv p q ?_
  rw [hdargs, List.map_cons, List.map_cons, List.map_nil, hp, hq]

end Fused

end Narrow

end Slag.Jit
