import Slag.Lib.Returns
import Slag.Wasm.Validate
import Slag.Wasm.World

/-!
What the checks of one instruction do to the height of the operand types: each
agrees with the number of operands the interpreter pops and pushes.
-/

namespace Slag.Wasm

theorem numSignature_lengths (op : NumOp) :
    (numSignature op).1.length = numInputs op ∧ (numSignature op).2.length = 1 := by
  cases op <;> exact ⟨rfl, rfl⟩

theorem vecSig_relaxed : ∀ sub, 0x100 ≤ sub → sub ≤ 0x113 →
    vecSig sub = some (if relaxedArity sub = 1 then .unop else if relaxedArity sub = 2 then .binop
      else .ternop) := by
  intro sub hlow hhigh
  obtain ⟨k, rfl⟩ := Nat.exists_eq_add_of_le hlow
  have hk : k ≤ 19 := by omega
  clear hlow hhigh
  revert hk
  revert k
  decide

/-- The operands of a vector operator, by its shape. -/
def VecSig.operands : VecSig → Nat
  | .binop | .shift | .replace _ => 2
  | .ternop => 3
  | _ => 1

theorem simdReg_operands {sub : Nat} {lane : Option Nat} {types : List ValType × List ValType}
    (h : simdReg sub lane = .ok types) :
    types.1.length = simdOperands sub ∧ types.2.length = 1 := by
  cases hsig : vecSig sub with
  | none => simp [simdReg, hsig] at h
  | some sig =>
      have hop : types.1.length = sig.operands ∧ types.2.length = 1 := by
        revert h
        unfold simdReg
        simp only [hsig]
        cases sig <;> simp only <;> intro h
        case extractS | extractU | extract | replace =>
          split at h
          · cases h
            exact ⟨rfl, rfl⟩
          · cases h
        all_goals
          cases h
          exact ⟨rfl, rfl⟩
      refine ⟨?_, hop.2⟩
      rw [hop.1, simdOperands]
      by_cases hr : isRelaxed sub = true
      · simp only [hr, if_true]
        simp only [isRelaxed, decide_eq_true_eq] at hr
        have hrel := vecSig_relaxed sub hr.1 hr.2
        rw [hsig] at hrel
        have harity : relaxedArity sub = 1 ∨ relaxedArity sub = 2 ∨ relaxedArity sub = 3 := by
          unfold relaxedArity
          split
          · exact .inl rfl
          · split
            · exact .inr (.inl rfl)
            · exact .inr (.inr rfl)
        rcases harity with h1 | h1 | h1 <;>
          · simp only [h1] at hrel ⊢
            cases hrel
            rfl
      · simp only [hr, Bool.false_eq_true, if_false, hsig]
        cases sig <;> rfl

variable {instr : Instr}

/-- The validator and the interpreter agree on the operands and results of the
plain instructions. -/
theorem plainType_arity {s : Spaces} {types : Except Error (List ValType × List ValType)}
    (h : plainType s instr = some types) :
    Returns (fun r => plainArity s.module instr = some (r.1.length, r.2.length)) types := by
  cases instr
  case num op =>
      cases h
      refine .ok ?_
      rw [(numSignature_lengths op).1, (numSignature_lengths op).2]
      rfl
  case vec | vecLane =>
      cases h
      intro r hr
      rw [(simdReg_operands hr).1, (simdReg_operands hr).2]
      rfl
  case structNew ty =>
      cases h
      refine .bind (.self _) fun fields hfields => .ok ?_
      revert hfields
      unfold Spaces.structFields
      cases hty : s.module.types[ty]? with
      | none => nofun
      | some st =>
          obtain ⟨_, _, composite⟩ := st
          cases composite with
          | func | array => nofun
          | struct fields' =>
              intro hfields
              cases hfields
              unfold plainArity
              simp only [hty, List.length_map, List.length_singleton]
  case arrayNewFixed ty n =>
      cases h
      refine .check fun _ => .bind (.any _) fun field _ => .ok ?_
      rw [List.length_replicate]
      rfl
  -- The remaining ones return lists of fixed length after their lookups.
  all_goals first
    | (cases h; done)
    | (cases h
       repeat' first
         | exact .ok rfl
         | exact .error
         | refine .bind (.any _) fun _ _ => ?_
         | refine .check fun _ => ?_
         | refine .ite (fun _ => ?_) (fun _ => ?_)
         | split)

namespace Machine

variable {s : Spaces} {m m' m'' : Machine} {k n : Nat}

/-- Pops that leave the frames alone; in live code they take what they count. -/
structure Takes (m m' : Machine) (k : Nat) : Prop where
  frames : m'.frames = m.frames
  init : m'.init = m.init
  height : ∀ f rest, m.frames = f :: rest → f.height ≤ m.vals.length →
    f.height ≤ m'.vals.length ∧ (f.unreachable = false → m.vals.length = m'.vals.length + k)

theorem Takes.refl : Takes m m 0 :=
  ⟨rfl, rfl, fun _ _ _ h => ⟨h, fun _ => rfl⟩⟩

theorem Takes.trans (h : Takes m m' k) (h' : Takes m' m'' n) : Takes m m'' (k + n) := by
  refine ⟨h'.frames.trans h.frames, h'.init.trans h.init, fun f rest hf hheight => ?_⟩
  obtain ⟨h1, hlive1⟩ := h.height f rest hf hheight
  obtain ⟨h2, hlive2⟩ := h'.height f rest (h.frames.trans hf) h1
  refine ⟨h2, fun hlive => ?_⟩
  have hfirst := hlive1 hlive
  have hsecond := hlive2 hlive
  omega

theorem takes_popVal : Returns (fun r => Takes m r.2 1) m.popVal := by
  intro r hr
  unfold popVal at hr
  cases hframes : m.frames with
  | nil => simp [hframes] at hr
  | cons f rest =>
      simp only [hframes] at hr
      split at hr
      · split at hr
        · rename_i hlen hdead
          cases hr
          refine ⟨rfl, rfl, fun g rest' hg hheight => ⟨hheight, fun hlive => ?_⟩⟩
          cases hframes.symm.trans hg
          exact absurd (hdead.symm.trans hlive) (by decide)
        · cases hr
      · rename_i hlen
        cases hvals : m.vals with
        | nil => simp [hvals] at hr
        | cons ty vals =>
            simp only [hvals] at hr
            cases hr
            refine ⟨hframes.symm, rfl, fun g rest' hg hheight => ?_⟩
            cases hframes.symm.trans hg
            simp only [hvals, List.length_cons] at hlen hheight ⊢
            exact ⟨by omega, fun _ => trivial⟩

variable {expected : ValType} {types : List ValType} {l : Nat}

theorem takes_popValOf :
    Returns (fun r => Takes m r.2 1) (m.popValOf s expected) := by
  refine .bind takes_popVal fun r hr => ?_
  obtain ⟨entry, m'⟩ := r
  cases entry with
  | bot => exact .ok hr
  | known actual => exact .ite (fun _ => .ok hr) (fun _ => .error)

theorem takes_popExpected :
    Returns (fun m' => Takes m m' 1) (m.popExpected s expected) :=
  .bind takes_popValOf fun _ hr => .ok hr

theorem takes_popVals :
    Returns (fun m' => Takes m m' types.length) (m.popVals s types) := by
  have hfold := Returns.foldlM (ε := Error) (f := fun m ty => popExpected s m ty)
    (I := fun (rest : List ValType) m' => ∃ done, Takes m m' done ∧ done + rest.length = types.length)
    (fun ty rest m' ⟨done, htakes, hlen⟩ => takes_popExpected.mono fun m'' h =>
      ⟨done + 1, htakes.trans h, by simp only [List.length_cons] at hlen; omega⟩)
    types.reverse m ⟨0, .refl, by simp only [List.length_reverse, Nat.zero_add]⟩
  refine hfold.mono fun m' h => ?_
  obtain ⟨done, htakes, hlen⟩ := h
  rw [← hlen]
  exact htakes

theorem takes_popRef : Returns (fun r => Takes m r.2 1) m.popRef := by
  refine .bind takes_popVal fun r hr => ?_
  obtain ⟨entry, m'⟩ := r
  cases entry with
  | bot => exact .ok hr
  | known ty => cases ty <;> first | exact .ok hr | exact .error

theorem takes_popRefUnder :
    Returns (fun m' => Takes m m' 1) (m.popRefUnder s expected) := by
  refine .bind takes_popRef fun r hr => ?_
  obtain ⟨entry, m'⟩ := r
  cases entry with
  | bot => exact .ok hr
  | known actual => exact .ite (fun _ => .ok hr) (fun _ => .error)

theorem takes_popValsPeek :
    Returns (fun m' => Takes m m' 0) (m.popValsPeek s types) := by
  have hfold := Returns.foldlM (ε := Error)
    (f := fun (acc : List StackTy × Machine) ty => do
      let r ← acc.2.popValOf s ty
      return (r.1 :: acc.1, r.2))
    (I := fun (_ : List ValType) acc => Takes m acc.2 acc.1.length)
    (fun ty rest acc h => .bind takes_popValOf fun r hr => .ok (h.trans hr))
    types.reverse ([], m) .refl
  refine .bind hfold fun acc hacc => .ok ⟨hacc.frames, hacc.init, fun f rest hf hheight => ?_⟩
  obtain ⟨hlow, hlive⟩ := hacc.height f rest hf hheight
  simp only [List.length_append, List.length_reverse]
  refine ⟨Nat.le_trans hlow (Nat.le_add_left _ _), fun hl => ?_⟩
  have := hlive hl
  omega

/-- Operands taken and others put in their place. -/
def Acts (m m' : Machine) (k n : Nat) : Prop :=
  ∃ mid, Takes m mid k ∧ m'.frames = mid.frames ∧ m'.init = mid.init ∧
    m'.vals.length = mid.vals.length + n

/-- Operands taken, and dead code after that. -/
def Dies (m m' : Machine) (k : Nat) : Prop :=
  ∃ mid, Takes m mid k ∧ m' = mid.unreachable

theorem Takes.acts_pushVals (h : Takes m m' k) (types : List ValType) :
    Acts m (m'.pushVals types) k types.length :=
  ⟨m', h, rfl, rfl, by
    simp only [pushVals, List.length_append, List.length_reverse, List.length_map, Nat.add_comm]⟩

theorem Takes.acts_push (h : Takes m m' k) (ty : StackTy) : Acts m (m'.push ty) k 1 :=
  ⟨m', h, rfl, rfl, rfl⟩

theorem Takes.acts (h : Takes m m' k) : Acts m m' k 0 :=
  ⟨m', h, rfl, rfl, rfl⟩

variable {signature : FuncType} {locals : List ValType}

/-- A plain instruction takes and leaves what the interpreter does. -/
theorem acts_plain (h : plainArity s.module instr = some (k, n)) :
    Returns (fun m' => Acts m m' k n) (m.step s signature locals instr) := by
  have huniform : ∀ types, plainType s instr = some types →
      Returns (fun m' => Acts m m' k n) (do
        let r ← types
        let m ← m.popVals s r.1
        return m.pushVals r.2) := by
    intro types htypes
    refine .bind (plainType_arity htypes) fun r hr => ?_
    cases h.symm.trans hr
    exact .bind takes_popVals fun m1 h1 => .ok (h1.acts_pushVals _)
  cases instr
  case drop =>
      cases h
      exact .bind takes_popVal fun r hr => .ok hr.acts
  case select =>
      cases h
      refine .bind takes_popExpected fun m1 h1 => ?_
      refine .bind takes_popVal fun r2 h2 => .bind takes_popVal fun r3 h3 => ?_
      exact .check fun _ => .check fun _ => .ok (((h1.trans h2).trans h3).acts_push _)
  case refIsNull =>
      cases h
      exact .bind takes_popRef fun r hr => .ok (hr.acts_pushVals [.i32])
  case refAsNonNull =>
      cases h
      refine .bind takes_popRef fun r hr => ?_
      obtain ⟨entry, m'⟩ := r
      cases entry with
      | bot => exact .ok (hr.acts_push _)
      | known ty =>
          cases ty <;> exact .ok (hr.acts_push _)
  case refTest | refCast =>
      cases h
      refine .bind (.any _) fun _ _ => ?_
      exact .bind takes_popRefUnder fun m1 h1 => .ok (h1.acts_pushVals [_])
  case anyConvertExtern | externConvertAny =>
      cases h
      exact .bind takes_popValOf fun r hr => .ok (hr.acts_pushVals [_])
  all_goals first
    | (cases h; done)
    | exact huniform _ rfl

/-! ## Branches and calls -/

/-- The operands a branch to a label carries are there, below those popped
before the branch. -/
def Carries (m : Machine) (l popped : Nat) : Prop :=
  ∃ f mid, m.frames[l]? = some f ∧ Takes m mid (popped + f.labelTypes.length)

theorem returns_labelTypes :
    Returns (fun types => ∃ f, m.frames[l]? = some f ∧ types = f.labelTypes) (m.labelTypes l) := by
  unfold labelTypes
  cases hf : m.frames[l]? with
  | none => exact .error
  | some f => exact .ok ⟨f, rfl, rfl⟩

theorem check_br :
    Returns (fun m' => Carries m l 0 ∧ ∃ k, Dies m m' k) (m.step s signature locals (.br l)) := by
  refine .bind returns_labelTypes fun types htypes => ?_
  obtain ⟨f, hf, rfl⟩ := htypes
  refine .bind takes_popVals fun m1 h1 => .ok ⟨⟨f, m1, hf, ?_⟩, _, m1, h1, rfl⟩
  rw [Nat.zero_add]
  exact h1

theorem check_brIf :
    Returns (fun m' => Carries m l 1 ∧ ∃ k, Acts m m' (1 + k) k)
      (m.step s signature locals (.brIf l)) := by
  refine .bind takes_popExpected fun m0 h0 => ?_
  refine .bind returns_labelTypes fun types htypes => ?_
  obtain ⟨f, hf, rfl⟩ := htypes
  rw [h0.frames] at hf
  refine .bind takes_popVals fun m1 h1 => ?_
  exact .ok ⟨⟨f, m1, hf, h0.trans h1⟩, f.labelTypes.length, (h0.trans h1).acts_pushVals _⟩

theorem check_brTable {targets : List Nat} {default : Nat} :
    Returns (fun m' => (∀ l, l = default ∨ l ∈ targets → Carries m l 1) ∧ ∃ k, Dies m m' k)
      (m.step s signature locals (.brTable targets default)) := by
  refine .bind takes_popExpected fun m0 h0 => ?_
  refine .bind returns_labelTypes fun types htypes => ?_
  obtain ⟨f, hf, rfl⟩ := htypes
  -- Peeking leaves the machine as high as it was, so that all labels see the
  -- operands the default pops.
  have hfold := Returns.foldlM (ε := Error)
    (f := fun m target => do
      let types ← labelTypes m target
      if types.length ≠ f.labelTypes.length then throw typeMismatch
      popValsPeek s m types)
    (I := fun rest mid => Takes m0 mid 0 ∧ ∀ l, l ∈ targets → l ∈ rest ∨
      ∃ g, m0.frames[l]? = some g ∧ g.labelTypes.length = f.labelTypes.length)
    (fun l rest mid hmid => by
      refine .bind returns_labelTypes fun types htypes => .check fun hlen => ?_
      obtain ⟨g, hg, rfl⟩ := htypes
      refine takes_popValsPeek.mono fun mid' hmid' => ⟨hmid.1.trans hmid', fun l' hl' => ?_⟩
      rcases hmid.2 l' hl' with hin | hdone
      · rcases List.mem_cons.mp hin with rfl | hin
        · rw [hmid.1.frames] at hg
          exact .inr ⟨g, hg, by omega⟩
        · exact .inl hin
      · exact .inr hdone)
    targets m0 ⟨.refl, fun l hl => .inl hl⟩
  refine .bind hfold fun mid hmid => ?_
  refine .bind takes_popVals fun m1 h1 =>
    .ok ⟨fun l hl => ?_, _, m1, (h0.trans hmid.1).trans h1, rfl⟩
  have htakes : Takes m m1 (1 + f.labelTypes.length) := (h0.trans hmid.1).trans h1
  rcases hl with rfl | hl
  · rw [h0.frames] at hf
    exact ⟨f, m1, hf, htakes⟩
  · rcases hmid.2 l hl with hin | ⟨g, hg, hlen⟩
    · cases hin
    · rw [h0.frames] at hg
      rw [← hlen] at htakes
      exact ⟨g, m1, hg, htakes⟩

theorem check_brOnNull :
    Returns (fun m' => Carries m l 1 ∧ ∃ k, Acts m m' (1 + k) (k + 1))
      (m.step s signature locals (.brOnNull l)) := by
  refine .bind takes_popVal fun r h0 => ?_
  obtain ⟨operand, m0⟩ := r
  refine .bind returns_labelTypes fun types htypes => ?_
  obtain ⟨f, hf, rfl⟩ := htypes
  rw [h0.frames] at hf
  have hpush : ∀ ty, Returns (fun m' => Carries m l 1 ∧ ∃ k, Acts m m' (1 + k) (k + 1)) (do
      let m ← m0.popVals s f.labelTypes
      return (m.pushVals f.labelTypes).push ty) := by
    intro ty
    refine .bind takes_popVals fun m1 h1 =>
      .ok ⟨⟨f, m1, hf, h0.trans h1⟩, f.labelTypes.length, ?_⟩
    obtain ⟨mid, htakes, hframes, hinit, hvals⟩ := (h0.trans h1).acts_pushVals f.labelTypes
    exact ⟨mid, htakes, hframes, hinit, congrArg (· + 1) hvals⟩
  cases operand with
  | bot => exact hpush _
  | known ty => cases ty <;> first | exact hpush _ | exact .error

theorem length_dropLast_of_getLast {last : ValType} (h : types.getLast? = some last) :
    types.dropLast.length + 1 = types.length := by
  rw [List.length_dropLast]
  cases types with
  | nil => cases h
  | cons => rfl

theorem check_brOnNonNull :
    Returns (fun m' => Carries m l 0 ∧ ∃ k, Acts m m' (1 + k) k)
      (m.step s signature locals (.brOnNonNull l)) := by
  refine .bind returns_labelTypes fun types htypes => ?_
  obtain ⟨f, hf, rfl⟩ := htypes
  cases hlast : f.labelTypes.getLast? with
  | none => exact .error
  | some last =>
      have hlen := length_dropLast_of_getLast hlast
      cases last with
      | ref r =>
          refine .bind takes_popExpected fun m0 h0 => .bind takes_popVals fun m1 h1 => ?_
          have htakes := h0.trans h1
          refine .ok ⟨⟨f, m1, hf, ?_⟩, _, htakes.acts_pushVals _⟩
          rw [Nat.zero_add, ← hlen, Nat.add_comm]
          exact htakes
      | i32 | i64 | f32 | f64 | v128 => exact .error

theorem check_castBranch {source target carried left : RefType} :
    Returns (fun m' => Carries m l 0 ∧ ∃ k, Acts m m' (1 + k) (k + 1))
      (m.checkCastBranch s l source target carried left) := by
  refine .check fun _ => .bind returns_labelTypes fun types htypes => ?_
  obtain ⟨f, hf, rfl⟩ := htypes
  cases hlast : f.labelTypes.getLast? with
  | none => exact .error
  | some last =>
      have hlen := length_dropLast_of_getLast hlast
      refine .check fun _ => .bind takes_popExpected fun m0 h0 =>
        .bind takes_popVals fun m1 h1 => ?_
      have htakes := h0.trans h1
      refine .ok ⟨⟨f, m1, hf, ?_⟩, f.labelTypes.dropLast.length, ?_⟩
      · rw [Nat.zero_add, ← hlen, Nat.add_comm]
        exact htakes
      · obtain ⟨mid, hmid, hframes, hinit, hvals⟩ := htakes.acts_pushVals f.labelTypes.dropLast
        exact ⟨mid, hmid, hframes, hinit, congrArg (· + 1) hvals⟩

theorem check_call {ty : FuncType} :
    Returns (fun m' => Acts m m' ty.params.length ty.results.length) (m.call s ty) :=
  .bind takes_popVals fun _ h => .ok (h.acts_pushVals _)

theorem check_tailCall {ty : FuncType} :
    Returns (fun m' => Dies m m' ty.params.length ∧ ty.results.length = signature.results.length)
      (m.tailCall s ty signature) := by
  refine .bind takes_popVals fun m1 h1 => .check fun hlen => .check fun _ => ?_
  exact .ok ⟨⟨m1, h1, rfl⟩, by omega⟩

/-! ## Frames -/

/-- The frames stay as they are, but for what makes the innermost one dead. -/
structure Keeps (m m' : Machine) : Prop where
  init : m'.init = m.init
  frames : ∀ f rest, m.frames = f :: rest → f.height ≤ m.vals.length →
    ∃ dead, m'.frames = { f with unreachable := dead } :: rest ∧ f.height ≤ m'.vals.length

theorem Acts.keeps (h : Acts m m' k n) : Keeps m m' := by
  obtain ⟨mid, htakes, hframes, hinit, hvals⟩ := h
  refine ⟨hinit.trans htakes.init, fun f rest hf hheight => ?_⟩
  refine ⟨f.unreachable, hframes.trans (htakes.frames.trans hf), ?_⟩
  have := (htakes.height f rest hf hheight).1
  omega

theorem Dies.keeps (h : Dies m m' k) : Keeps m m' := by
  obtain ⟨mid, htakes, rfl⟩ := h
  have hinit : mid.unreachable.init = mid.init := by
    unfold unreachable
    split <;> rfl
  refine ⟨hinit.trans htakes.init, fun f rest hf hheight => ?_⟩
  have hmid := htakes.frames.trans hf
  have hlow := (htakes.height f rest hf hheight).1
  refine ⟨true, ?_, ?_⟩
  · simp only [unreachable, hmid]
  · simp only [unreachable, hmid, List.length_drop]
    omega

theorem keeps_lookup {α : Type} {x : Except Error α} {f : α → Except Error Machine}
    {P : Machine → Prop} (h : ∀ a, Returns P (f a)) : Returns P (x >>= f) :=
  .bind (Returns.any x) fun a _ => h a

theorem Keeps.of_takes (h : Takes m m' k) (h' : Keeps m' m'') : Keeps m m'' := by
  refine ⟨h'.init.trans h.init, fun f rest hf hheight => ?_⟩
  exact h'.frames f rest (h.frames.trans hf) (h.height f rest hf hheight).1

/-- The local that an instruction writes. -/
def sets? : Instr → Option Nat
  | .localSet index | .localTee index => some index
  | _ => none

/-- A write of a local keeps the frames and notes the local. -/
theorem check_sets {index : Nat} (h : sets? instr = some index) :
    Returns (fun m' => ∃ mid, Keeps m mid ∧ m' = { mid with init := m.init.set index true })
      (m.step s signature locals instr) := by
  cases instr
  case localSet =>
      cases h
      refine keeps_lookup fun ty => .bind takes_popExpected fun m1 h1 => .ok ?_
      exact ⟨m1, h1.acts.keeps, by rw [h1.init]⟩
  case localTee =>
      cases h
      refine keeps_lookup fun ty => .bind takes_popExpected fun m1 h1 => .ok ?_
      exact ⟨m1.pushVals [ty], (h1.acts_pushVals [ty]).keeps, by rw [← h1.init]; rfl⟩
  all_goals cases h

/-- All instructions but those of structured control and writes of locals keep
the frames and what is initialised. -/
theorem keeps_step (hopens : instr.opens? = none) (helse : instr ≠ .else_) (hend : instr ≠ .end_)
    (hsets : sets? instr = none) :
    Returns (Keeps m) (m.step s signature locals instr) := by
  cases harity : plainArity s.module instr with
  | some arity => exact (acts_plain harity).mono fun m' h => h.keeps
  | none =>
      have hcall : ∀ {m0 : Machine} (ty : FuncType), Takes m m0 0 ∨ Takes m m0 1 →
          Returns (Keeps m) (m0.call s ty) := by
        intro m0 ty h0
        refine check_call.mono fun m' h => ?_
        rcases h0 with h0 | h0 <;> exact h.keeps.of_takes h0
      have htail : ∀ {m0 : Machine} (ty : FuncType), Takes m m0 0 ∨ Takes m m0 1 →
          Returns (Keeps m) (m0.tailCall s ty signature) := by
        intro m0 ty h0
        refine check_tailCall.mono fun m' h => ?_
        rcases h0 with h0 | h0 <;> exact h.1.keeps.of_takes h0
      cases instr
      case block | loop | if_ | tryTable => cases hopens
      case else_ => exact absurd rfl helse
      case end_ => exact absurd rfl hend
      case unreachable => exact .ok (Dies.keeps ⟨m, .refl, rfl⟩)
      case nop => exact .ok Takes.refl.acts.keeps
      case br =>
          refine check_br.mono fun m' h => ?_
          obtain ⟨-, k, hdies⟩ := h
          exact hdies.keeps
      case brTable =>
          refine check_brTable.mono fun m' h => ?_
          obtain ⟨-, k, hdies⟩ := h
          exact hdies.keeps
      case brIf =>
          refine check_brIf.mono fun m' h => ?_
          obtain ⟨-, k, hacts⟩ := h
          exact hacts.keeps
      case brOnNull =>
          refine check_brOnNull.mono fun m' h => ?_
          obtain ⟨-, k, hacts⟩ := h
          exact hacts.keeps
      case brOnNonNull =>
          refine check_brOnNonNull.mono fun m' h => ?_
          obtain ⟨-, k, hacts⟩ := h
          exact hacts.keeps
      case brOnCast | brOnCastFail =>
          refine check_castBranch.mono fun m' h => ?_
          obtain ⟨-, k, hacts⟩ := h
          exact hacts.keeps
      case return_ =>
          exact .bind takes_popVals fun m1 h1 => .ok (Dies.keeps ⟨m1, h1, rfl⟩)
      case call => exact keeps_lookup fun ty => hcall ty (.inl .refl)
      case returnCall => exact keeps_lookup fun ty => htail ty (.inl .refl)
      case callIndirect =>
          refine keeps_lookup fun _ => .check fun _ => keeps_lookup fun ty => keeps_lookup fun _ => ?_
          exact .bind takes_popExpected fun m1 h1 => hcall ty (.inr h1)
      case returnCallIndirect =>
          refine keeps_lookup fun _ => .check fun _ => keeps_lookup fun ty => keeps_lookup fun _ => ?_
          exact .bind takes_popExpected fun m1 h1 => htail ty (.inr h1)
      case callRef =>
          refine keeps_lookup fun ty => ?_
          exact .bind takes_popExpected fun m1 h1 => hcall ty (.inr h1)
      case returnCallRef =>
          refine keeps_lookup fun ty => ?_
          exact .bind takes_popExpected fun m1 h1 => htail ty (.inr h1)
      case localGet =>
          exact keeps_lookup fun ty => .check fun _ => .ok (Takes.refl.acts_pushVals [ty]).keeps
      case localSet | localTee => cases hsets
      case throw =>
          refine keeps_lookup fun ty => .bind takes_popVals fun m1 h1 => .ok ?_
          exact Dies.keeps ⟨m1, h1, rfl⟩
      case throwRef =>
          exact .bind takes_popExpected fun m1 h1 => .ok (Dies.keeps ⟨m1, h1, rfl⟩)
      all_goals
        unfold plainArity at harity
        dsimp only at harity
        first
          | cases harity
          | (split at harity <;> cases harity)

/-- The frame kind an opening instruction starts with. -/
def opensCtrl : Instr → Ctrl
  | .loop _ => .loop
  | .if_ _ => .if_
  | .tryTable _ _ => .tryTable
  | _ => .block

/-- The operands an opening instruction pops beside its parameters. -/
def opensExtra : Instr → Nat
  | .if_ _ => 1
  | _ => 0

theorem check_enter {ctrl : Ctrl} {bt : BlockType} :
    Returns (fun m' => ∃ params results mid, s.resolveBlockType bt = .ok (params, results) ∧
      Takes m mid params.length ∧ m' = mid.pushFrame ctrl params results) (m.enter s ctrl bt) := by
  refine .bind (.self _) fun types htypes => ?_
  obtain ⟨params, results⟩ := types
  exact .bind takes_popVals fun mid hmid => .ok ⟨params, results, mid, htypes, hmid, rfl⟩

theorem check_opens {bt : BlockType} (hopens : instr.opens? = some bt) :
    Returns (fun m' => ∃ params results mid, s.resolveBlockType bt = .ok (params, results) ∧
      Takes m mid (opensExtra instr + params.length) ∧
      m' = mid.pushFrame (opensCtrl instr) params results) (m.step s signature locals instr) := by
  have henter : ∀ ctrl, Returns (fun m' => ∃ params results mid,
      s.resolveBlockType bt = .ok (params, results) ∧ Takes m mid (0 + params.length) ∧
      m' = mid.pushFrame ctrl params results) (m.enter s ctrl bt) := by
    intro ctrl
    simp only [Nat.zero_add]
    exact check_enter
  cases instr
  case block | loop =>
      cases hopens
      exact henter _
  case if_ =>
      cases hopens
      refine .bind takes_popExpected fun m0 h0 => check_enter.mono fun m' h => ?_
      obtain ⟨params, results, mid, htypes, hmid, rfl⟩ := h
      exact ⟨params, results, mid, htypes, h0.trans hmid, rfl⟩
  case tryTable =>
      cases hopens
      exact .bind (.any _) fun _ _ => .bind (.any _) fun _ _ => henter _
  all_goals cases hopens

theorem check_popFrame :
    Returns (fun r => ∃ rest, m.frames = r.1 :: rest ∧ r.2.frames = rest ∧
      r.2.vals.length = r.1.height ∧ (r.1.unreachable = false → r.1.height ≤ m.vals.length →
        m.vals.length = r.1.height + r.1.endTypes.length)) (m.popFrame s) := by
  unfold popFrame
  cases hframes : m.frames with
  | nil => exact .error
  | cons f rest =>
      refine .bind takes_popVals fun m1 h1 => ?_
      have hf := h1.frames.trans hframes
      simp only [hf]
      refine .check fun hlen => .ok ⟨rest, rfl, rfl, not_not.mp hlen, fun hlive hheight => ?_⟩
      have hcount := (h1.height f rest hframes hheight).2 hlive
      rw [not_not.mp hlen] at hcount
      exact hcount

theorem check_else :
    Returns (fun m' => ∃ f rest, m.frames = f :: rest ∧ f.ctrl = .if_ ∧
      m'.frames = ⟨.else_, f.startTypes, f.endTypes, f.height, false, f.savedInit⟩ :: rest ∧
      m'.init = f.savedInit ∧ m'.vals.length = f.height + f.startTypes.length)
      (m.step s signature locals .else_) := by
  refine .bind check_popFrame fun r hr => .check fun hctrl => .ok ?_
  obtain ⟨f, m1⟩ := r
  obtain ⟨rest, hframes, hrest, hvals, -⟩ := hr
  dsimp only at hframes hrest hvals
  refine ⟨f, rest, hframes, not_not.mp hctrl, ?_, rfl, ?_⟩
  · simp only [pushFrame, hrest, hvals]
  · simp only [pushFrame, pushVals, List.length_append, List.length_reverse, List.length_map, hvals,
      Nat.add_comm]

theorem check_end :
    Returns (fun m' => ∃ f rest, m.frames = f :: rest ∧
      (f.ctrl ≠ .func → m'.frames = rest ∧ m'.init = f.savedInit ∧
        m'.vals.length = f.height + f.endTypes.length ∧
        (f.ctrl = .if_ → f.endTypes = f.startTypes)) ∧
      (f.unreachable = false → f.height ≤ m.vals.length →
        m.vals.length = f.height + f.endTypes.length))
      (m.step s signature locals .end_) := by
  refine .bind check_popFrame fun r hr => ?_
  obtain ⟨f, m1⟩ := r
  obtain ⟨rest, hframes, hrest, hvals, hlive⟩ := hr
  dsimp only at hframes hrest hvals hlive
  refine .ite (fun hfunc => .ok ?_) fun hfunc => .check fun hif => .ok ?_
  · exact ⟨f, rest, hframes, fun hne => absurd hfunc hne, hlive⟩
  · refine ⟨f, rest, hframes, fun _ => ⟨hrest, rfl, ?_, fun hctrl => ?_⟩, hlive⟩
    · simp only [pushVals, List.length_append, List.length_reverse, List.length_map, hvals,
        Nat.add_comm]
    · by_contra hne
      exact hif ⟨hctrl, hne⟩

end Machine

end Slag.Wasm
