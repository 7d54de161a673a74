import Slag.Lib.Returns
import Slag.Wasm.Engine

/-!
What one iteration of the run loop does to the operands and the frames, case by
case.
-/

namespace Slag.Wasm

variable {σ : Type} (w : World) (fx : Effects σ) (state : σ)

def isLoop : Instr → Bool
  | .loop _ => true
  | _ => false

/-- Where a branch to a label goes on. -/
def Label.continues (map : BodyMap) (label : Label) : Nat :=
  if label.isLoop then label.opened + 1 else map.endOf label.opened + 1

/-- The labels that are left after a branch to one of them. -/
def labelsAfter (labels : List Label) (l : Nat) (target : Label) : List Label :=
  labels.drop (if target.isLoop then l else l + 1)

/-- The function that a call instruction finds, and the operands below its
operand; `tail` for the instructions that replace the frame. -/
inductive Callee (f : Frame) : Bool → Instr → List Value → FuncTarget → List Value → Prop where
  | direct {tail : Bool} {index : Nat} {stack : List Value} {target : FuncTarget} :
      Engine.funcOf w f.inst index = .ok target →
      Callee f tail (if tail then .returnCall index else .call index) stack target stack
  | indirect {tail : Bool} {typeIndex tableIndex : Nat} {v : Value} {stack : List Value} {addr : FuncAddr}
      {target : FuncTarget} :
      fx.element state f.inst tableIndex v = .ok addr →
      Engine.checkedTarget w f typeIndex addr = .ok target →
      Callee f tail (if tail then .returnCallIndirect typeIndex tableIndex
        else .callIndirect typeIndex tableIndex) (v :: stack) target stack
  | ref {tail : Bool} {typeIndex : Nat} {stack : List Value} {addr : FuncAddr} {target : FuncTarget} :
      Engine.checkedTarget w f typeIndex addr = .ok target →
      Callee f tail (if tail then .returnCallRef typeIndex else .callRef typeIndex)
        (.ref (.func addr) :: stack) target stack

/-- An exception goes from frame to frame until a clause takes it. -/
inductive Unwinds (tag : Nat) (args : List Value) (exn : Nat) :
    List Value → List Frame → List Value → List Frame → Prop where
  | caught {f : Frame} {cs : List Frame} {stack payload : List Value} {labels : List Label} {l : Nat}
      {target : Label} :
      Engine.findCatch w f tag args exn f.labels = some (labels, l, payload) →
      labels[l]? = some target → l + 1 ≠ labels.length →
      Unwinds tag args exn stack (f :: cs) (payload.reverse ++ truncate target.height stack)
        ({ f with pc := target.continues (mapFor w f), labels := labelsAfter labels l target } :: cs)
  | returns {f : Frame} {cs : List Frame} {stack payload : List Value} {labels : List Label} {l : Nat}
      {target : Label} :
      Engine.findCatch w f tag args exn f.labels = some (labels, l, payload) →
      labels[l]? = some target → l + 1 = labels.length → cs ≠ [] →
      Unwinds tag args exn stack (f :: cs) (payload.reverse ++ truncate target.height stack) cs
  | drops {f : Frame} {cs frames : List Frame} {stack stack' : List Value} :
      Engine.findCatch w f tag args exn f.labels = none →
      Unwinds tag args exn (truncate f.base stack) cs stack' frames →
      Unwinds tag args exn stack (f :: cs) stack' frames

/-- An iteration after which the run goes on. -/
inductive Moves : List Value → List Frame → List Value → List Frame → Prop where
  | plain {f : Frame} {cs : List Frame} {stack pushed : List Value} {instr : Instr} {operands : Nat} :
      (bodyOf w f)[f.pc]? = some instr →
      plainArity (moduleOf w f) instr = some (operands, pushed.length) → operands ≤ stack.length →
      Moves stack (f :: cs) (pushed ++ stack.drop operands) ({ f with pc := f.pc + 1 } :: cs)
  | nop {f : Frame} {cs : List Frame} {stack : List Value} :
      (bodyOf w f)[f.pc]? = some .nop → Moves stack (f :: cs) stack ({ f with pc := f.pc + 1 } :: cs)
  | get {f : Frame} {cs : List Frame} {stack : List Value} {index : Nat} {v : Value} :
      (bodyOf w f)[f.pc]? = some (.localGet index) → f.locals[index]? = some v →
      Moves stack (f :: cs) (v :: stack) ({ f with pc := f.pc + 1 } :: cs)
  | set {f : Frame} {cs : List Frame} {stack : List Value} {index : Nat} {v : Value} :
      (bodyOf w f)[f.pc]? = some (.localSet index) →
      Moves (v :: stack) (f :: cs) stack
        ({ f with pc := f.pc + 1, locals := f.locals.set index v } :: cs)
  | tee {f : Frame} {cs : List Frame} {stack : List Value} {index : Nat} {v : Value} :
      (bodyOf w f)[f.pc]? = some (.localTee index) →
      Moves (v :: stack) (f :: cs) (v :: stack)
        ({ f with pc := f.pc + 1, locals := f.locals.set index v } :: cs)
  | close {f : Frame} {cs : List Frame} {stack : List Value} :
      (bodyOf w f)[f.pc]? = some .end_ →
      Moves stack (f :: cs) stack ({ f with pc := f.pc + 1, labels := f.labels.tail } :: cs)
  | enter {f : Frame} {cs : List Frame} {stack : List Value} {instr : Instr} {bt : BlockType}
      {params arity : Nat} :
      (bodyOf w f)[f.pc]? = some instr → instr.opens? = some bt → (∀ bt, instr ≠ .if_ bt) →
      blockCounts (moduleOf w f) bt = .ok (params, arity) →
      Moves stack (f :: cs) stack ({ f with
        pc := f.pc + 1
        labels := ⟨if isLoop instr then params else arity, stack.length - params, isLoop instr, f.pc⟩ ::
          f.labels } :: cs)
  | enterIf {f : Frame} {cs : List Frame} {stack : List Value} {v : Value} {bt : BlockType}
      {params arity pc : Nat} :
      (bodyOf w f)[f.pc]? = some (.if_ bt) → blockCounts (moduleOf w f) bt = .ok (params, arity) →
      pc = f.pc ∨ (mapFor w f).elses[f.pc]? = some (some pc) →
      Moves (v :: stack) (f :: cs) stack ({ f with
        pc := pc + 1
        labels := ⟨arity, stack.length + 1 - params, false, f.pc⟩ :: f.labels } :: cs)
  | skip {f : Frame} {cs : List Frame} {stack : List Value} {v : Value} {bt : BlockType}
      {params arity : Nat} :
      (bodyOf w f)[f.pc]? = some (.if_ bt) → blockCounts (moduleOf w f) bt = .ok (params, arity) →
      (mapFor w f).elses[f.pc]?.join = none →
      Moves (v :: stack) (f :: cs) stack ({ f with pc := (mapFor w f).endOf f.pc + 1 } :: cs)
  | exit {f : Frame} {cs : List Frame} {stack : List Value} {label : Label} {labels : List Label} :
      (bodyOf w f)[f.pc]? = some .else_ → f.labels = label :: labels →
      Moves stack (f :: cs) stack
        ({ f with pc := (mapFor w f).endOf label.opened + 1, labels := labels } :: cs)
  | pass {f : Frame} {cs : List Frame} {stack stack' : List Value} {instr : Instr} :
      (bodyOf w f)[f.pc]? = some instr →
      Engine.branchOf fx f state stack instr = some (.ok (none, stack')) →
      Moves stack (f :: cs) stack' ({ f with pc := f.pc + 1 } :: cs)
  | branch {f : Frame} {cs : List Frame} {stack stack' : List Value} {instr : Instr} {l : Nat}
      {target : Label} :
      (bodyOf w f)[f.pc]? = some instr →
      Engine.branchOf fx f state stack instr = some (.ok (some l, stack')) →
      f.labels[l]? = some target → l + 1 ≠ f.labels.length →
      Moves stack (f :: cs) (moveTopTo target.arity target.height stack')
        ({ f with pc := target.continues (mapFor w f), labels := labelsAfter f.labels l target } :: cs)
  | leave {f : Frame} {cs : List Frame} {stack stack' : List Value} {instr : Instr} {l : Nat}
      {target : Label} :
      (bodyOf w f)[f.pc]? = some instr →
      Engine.branchOf fx f state stack instr = some (.ok (some l, stack')) →
      f.labels[l]? = some target → l + 1 = f.labels.length → cs ≠ [] →
      Moves stack (f :: cs) (moveTopTo f.results f.base (moveTopTo target.arity target.height stack')) cs
  | ret {f : Frame} {cs : List Frame} {stack : List Value} :
      (bodyOf w f)[f.pc]? = none ∨ (bodyOf w f)[f.pc]? = some .return_ → cs ≠ [] →
      Moves stack (f :: cs) (moveTopTo f.results f.base stack) cs
  | call {f callee : Frame} {cs : List Frame} {stack rest : List Value} {instr : Instr}
      {inst defined : Nat} {ty : FuncType} :
      (bodyOf w f)[f.pc]? = some instr → Callee w fx state f false instr stack (.owned inst defined) rest →
      w.targetType (.owned inst defined) = some ty → ty.params.length ≤ rest.length →
      Engine.frameOf w inst defined (rest.length - ty.params.length) (rest.take ty.params.length) =
        .ok callee →
      Moves stack (f :: cs) (rest.drop ty.params.length) (callee :: { f with pc := f.pc + 1 } :: cs)
  | host {f : Frame} {cs : List Frame} {stack rest : List Value} {instr : Instr} {id : Nat} {ty : FuncType} :
      (bodyOf w f)[f.pc]? = some instr → Callee w fx state f false instr stack (.host id) rest →
      w.targetType (.host id) = some ty → ty.params.length ≤ rest.length → ty.results = [] →
      Moves stack (f :: cs) (rest.drop ty.params.length) ({ f with pc := f.pc + 1 } :: cs)
  | tail {f callee : Frame} {cs : List Frame} {stack rest : List Value} {instr : Instr}
      {inst defined : Nat} {ty : FuncType} :
      (bodyOf w f)[f.pc]? = some instr → Callee w fx state f true instr stack (.owned inst defined) rest →
      w.targetType (.owned inst defined) = some ty → ty.params.length ≤ rest.length →
      Engine.frameOf w inst defined f.base (rest.take ty.params.length) = .ok callee →
      Moves stack (f :: cs) (rest.drop ty.params.length) (callee :: cs)
  | tailHost {f : Frame} {cs : List Frame} {stack rest : List Value} {instr : Instr} {id : Nat}
      {ty : FuncType} :
      (bodyOf w f)[f.pc]? = some instr → Callee w fx state f true instr stack (.host id) rest →
      w.targetType (.host id) = some ty → ty.params.length ≤ rest.length → ty.results = [] → cs ≠ [] →
      Moves stack (f :: cs) (moveTopTo f.results f.base (rest.drop ty.params.length)) cs
  | raise {f : Frame} {cs frames : List Frame} {stack rest stack' : List Value} {instr : Instr}
      {tag exn : Nat} {args : List Value} :
      (bodyOf w f)[f.pc]? = some instr → (∃ index, instr = .throw index) ∨ instr = .throwRef →
      rest <:+ stack → Unwinds w tag args exn rest (f :: cs) stack' frames →
      Moves stack (f :: cs) stack' frames

/-- An iteration that stops at a host function of some type. -/
inductive Suspends : List Value → List Frame → FuncType → List Value → List Frame → Prop where
  | call {f : Frame} {cs : List Frame} {stack rest : List Value} {instr : Instr} {id : Nat} {ty : FuncType} :
      (bodyOf w f)[f.pc]? = some instr → Callee w fx state f false instr stack (.host id) rest →
      w.targetType (.host id) = some ty → ty.params.length ≤ rest.length →
      Suspends stack (f :: cs) ty (rest.drop ty.params.length) ({ f with pc := f.pc + 1 } :: cs)
  | tail {f : Frame} {cs : List Frame} {stack rest : List Value} {instr : Instr} {id : Nat} {ty : FuncType} :
      (bodyOf w f)[f.pc]? = some instr → Callee w fx state f true instr stack (.host id) rest →
      w.targetType (.host id) = some ty → ty.params.length ≤ rest.length →
      Suspends stack (f :: cs) ty (truncate f.base (rest.drop ty.params.length)) cs

/-! ## Every iteration is one of them -/

variable {w fx}

/-- What a step of the top frame may ask for. -/
def Ctl.Means (w : World) (fx : Effects σ) (e : Engine σ) : Ctl σ → Prop
  | .next e' => Moves w fx e.store.state e.stack e.frames e'.advance.stack e'.advance.frames
  | .settled e' => Moves w fx e.store.state e.stack e.frames e'.stack e'.frames
  | .finished _ => True
  | .host _ _ e' => ∃ ty, Suspends w fx e.store.state e.stack e.frames ty e'.stack e'.frames
  | .raised _ e' => e'.frames = e.frames ∧
      ∀ tag args exn stack' frames, Unwinds w tag args exn e'.stack e'.frames stack' frames →
        Moves w fx e.store.state e.stack e.frames stack' frames

variable {args stack : List Value}

section Means

variable {e : Engine σ} {f : Frame} {cs : List Frame} {instr : Instr}

theorem means_finish {e' : Engine σ} (hframes : e'.frames = f :: cs)
    (h : cs ≠ [] → Moves w fx e.store.state e.stack e.frames (moveTopTo f.results f.base e'.stack) cs) :
    Returns (Ctl.Means w fx e) e'.finish := by
  unfold Engine.finish
  simp only [hframes]
  by_cases hempty : cs.isEmpty = true
  · rw [if_pos hempty]
    exact .ok trivial
  · rw [if_neg hempty]
    refine .ok (h ?_)
    rintro rfl
    exact hempty rfl

theorem pop_eq_ok {stack rest : List Value} {v : Value} (h : pop stack = .ok (v, rest)) : stack = v :: rest := by
  cases stack with
  | nil => cases h
  | cons v' rest' =>
      cases h
      rfl

theorem popI32_eq_ok {stack rest : List Value} {v : BitVec 32} (h : popI32 stack = .ok (v, rest)) :
    stack = .i32 v :: rest := by
  obtain ⟨⟨v', rest'⟩, hpop, h⟩ := bind_eq_ok.mp h
  cases v' with
  | i32 v' =>
      cases h
      exact pop_eq_ok hpop
  | _ => cases h

theorem popMany_eq_ok {count : Nat} {stack args rest : List Value} (h : popMany count stack = .ok (args, rest)) :
    count ≤ stack.length ∧ args = stack.take count ∧ rest = stack.drop count := by
  unfold popMany at h
  split at h
  · rename_i hle
    cases h
    exact ⟨hle, rfl, rfl⟩
  · cases h

theorem means_enter (hframes : e.frames = f :: cs) (hinstr : (bodyOf w f)[f.pc]? = some instr)
    {bt : BlockType} (hopens : instr.opens? = some bt) :
    Returns (fun e' => Moves w fx e.store.state e.stack e.frames e'.stack e'.frames)
      (e.enterStructured w f cs instr bt) := by
  rw [hframes]
  refine .bind (.self _) fun counts hcounts => ?_
  obtain ⟨params, arity⟩ := counts
  cases instr
  case loop =>
      cases hopens
      exact .ok (.enter hinstr rfl nofun hcounts)
  case block | tryTable =>
      cases hopens
      exact .ok (.enter hinstr rfl nofun hcounts)
  case if_ =>
      cases hopens
      refine .bind (.self _) fun popped hpopped => ?_
      obtain ⟨cond, stack⟩ := popped
      have hstack := popI32_eq_ok hpopped
      rw [hstack]
      refine .ite (fun _ => .ok (.enterIf hinstr hcounts (.inl rfl))) fun _ => ?_
      cases helse : (mapFor w f).elses[f.pc]?.join with
      | none => exact .ok (.skip hinstr hcounts helse)
      | some q => exact .ok (.enterIf hinstr hcounts (.inr (Option.join_eq_some_iff.mp helse)))
  all_goals cases hopens

theorem means_branchTo (hframes : e.frames = f :: cs) (hinstr : (bodyOf w f)[f.pc]? = some instr)
    {l : Nat} (hbranch : Engine.branchOf fx f e.store.state e.stack instr = some (.ok (some l, stack))) :
    Returns (Ctl.Means w fx e) (e.branchTo w fx f cs stack l) := by
  refine .ite (fun _ => .error) fun _ => ?_
  cases htarget : f.labels[l]? with
  | none => exact .error
  | some target =>
      refine .ite (fun hlast => ?_) fun hlast => .ite (fun hloop => .ok ?_) fun hloop => .ok ?_
      · refine means_finish hframes fun hcs => ?_
        rw [hframes]
        exact .leave hinstr hbranch htarget hlast hcs
      · have hmoves := @Moves.branch _ w fx e.store.state f cs _ _ _ _ _ hinstr hbranch htarget hlast
        simp only [Label.continues, labelsAfter, hloop, if_true] at hmoves
        rw [← hframes] at hmoves
        exact hmoves
      · have hmoves := @Moves.branch _ w fx e.store.state f cs _ _ _ _ _ hinstr hbranch htarget hlast
        simp only [Label.continues, labelsAfter, hloop, if_false, Bool.false_eq_true] at hmoves
        rw [← hframes] at hmoves
        exact hmoves

theorem means_callTarget (hframes : e.frames = f :: cs) (hinstr : (bodyOf w f)[f.pc]? = some instr)
    {target : FuncTarget} (hcallee : Callee w fx e.store.state f false instr e.stack target stack) :
    Returns (Ctl.Means w fx e) (e.callTarget w f cs stack target) := by
  unfold Engine.callTarget
  cases hty : w.targetType target with
  | none => exact .error
  | some ty =>
      cases target with
      | host id =>
          cases htoken : w.hostFuncs[id]?.bind HostFunc.token with
          | some token =>
              simp only [htoken]
              refine .bind (.self _) fun popped hpopped => .ok ?_
              obtain ⟨args, rest⟩ := popped
              obtain ⟨hle, rfl, rfl⟩ := popMany_eq_ok hpopped
              refine ⟨ty, ?_⟩
              rw [hframes]
              exact .call hinstr hcallee hty hle
          | none =>
              simp only [htoken]
              refine .check fun hresults => .bind (.self _) fun popped hpopped => .ok ?_
              obtain ⟨args, rest⟩ := popped
              obtain ⟨hle, rfl, rfl⟩ := popMany_eq_ok hpopped
              simp only [Ctl.Means]
              rw [hframes]
              exact .host hinstr hcallee hty hle (not_not.mp hresults)
      | owned inst defined =>
          refine .bind (.self _) fun popped hpopped => ?_
          obtain ⟨args, rest⟩ := popped
          obtain ⟨hle, rfl, rfl⟩ := popMany_eq_ok hpopped
          refine .bind (.self _) fun callee hcalled => .ok ?_
          rw [List.length_drop] at hcalled
          simp only [Ctl.Means]
          rw [hframes]
          exact .call hinstr hcallee hty hle hcalled

theorem means_tailTarget (hframes : e.frames = f :: cs) (hinstr : (bodyOf w f)[f.pc]? = some instr)
    {target : FuncTarget} (hcallee : Callee w fx e.store.state f true instr e.stack target stack) :
    Returns (Ctl.Means w fx e) (e.tailTarget w f cs stack target) := by
  unfold Engine.tailTarget
  cases hty : w.targetType target with
  | none => exact .error
  | some ty =>
      cases target with
      | host id =>
          cases htoken : w.hostFuncs[id]?.bind HostFunc.token with
          | some token =>
              simp only [htoken]
              refine .bind (.self _) fun popped hpopped => .ok ?_
              obtain ⟨args, rest⟩ := popped
              obtain ⟨hle, rfl, rfl⟩ := popMany_eq_ok hpopped
              refine ⟨ty, ?_⟩
              rw [hframes]
              exact .tail hinstr hcallee hty hle
          | none =>
              simp only [htoken]
              refine .check fun hresults => .bind (.self _) fun popped hpopped => ?_
              obtain ⟨args, rest⟩ := popped
              obtain ⟨hle, rfl, rfl⟩ := popMany_eq_ok hpopped
              refine means_finish rfl fun hcs => ?_
              rw [hframes]
              exact .tailHost hinstr hcallee hty hle (not_not.mp hresults) hcs
      | owned inst defined =>
          refine .bind (.self _) fun popped hpopped => ?_
          obtain ⟨args, rest⟩ := popped
          obtain ⟨hle, rfl, rfl⟩ := popMany_eq_ok hpopped
          refine .bind (.self _) fun callee hcalled => .ok ?_
          simp only [Ctl.Means]
          rw [hframes]
          exact .tail hinstr hcallee hty hle hcalled

theorem plainArity_results {m : Module} {operands results : Nat}
    (h : plainArity m instr = some (operands, results)) : results = 0 ∨ results = 1 := by
  cases instr
  case structNew ty =>
      unfold plainArity at h
      dsimp only at h
      split at h <;> cases h <;> exact .inr rfl
  all_goals first
    | (cases h; done)
    | (cases h; exact .inl rfl)
    | (cases h; exact .inr rfl)

theorem means_plain (hframes : e.frames = f :: cs) (hinstr : (bodyOf w f)[f.pc]? = some instr)
    {operands results : Nat} (harity : plainArity (moduleOf w f) instr = some (operands, results)) :
    Returns (Ctl.Means w fx e) (e.stepPlain fx f instr operands results) := by
  refine .bind (.self _) fun popped hpopped => .bind (.any _) fun out _ => .ok ?_
  obtain ⟨args, rest⟩ := popped
  obtain ⟨hle, rfl, rfl⟩ := popMany_eq_ok hpopped
  obtain ⟨state, v⟩ := out
  simp only [Ctl.Means, Engine.advance, hframes]
  rcases plainArity_results harity with rfl | rfl
  · exact @Moves.plain _ w fx _ f cs _ [] _ _ hinstr harity hle
  · exact @Moves.plain _ w fx _ f cs _ [v] _ _ hinstr harity hle

theorem popFuncRef_spec :
    Returns (fun r => stack = .ref (.func r.1) :: r.2) (Engine.popFuncRef stack) := by
  refine .bind (.self _) fun popped hpopped => ?_
  obtain ⟨v, rest⟩ := popped
  have hstack := pop_eq_ok hpopped
  cases v with
  | ref r =>
      cases r with
      | func addr => exact .ok hstack
      | _ => exact .error
  | _ => exact .error

theorem means_control (hframes : e.frames = f :: cs) (hinstr : (bodyOf w f)[f.pc]? = some instr) :
    Returns (Ctl.Means w fx e) (e.stepControl w fx f cs instr) := by
  have hnext : ∀ {stack : List Value} {f' : Frame}, Moves w fx e.store.state e.stack (f :: cs) stack
      ({ f' with pc := f'.pc + 1 } :: cs) →
      Ctl.Means w fx e (.next { e with stack := stack, frames := f' :: cs }) := by
    intro stack f' h
    simp only [Ctl.Means, Engine.advance, hframes]
    exact h
  cases instr
  case nop =>
      refine .ok ?_
      simp only [Ctl.Means, Engine.advance, hframes]
      exact .nop hinstr
  case else_ =>
      refine .bind (p := fun e' => Moves w fx e.store.state e.stack e.frames e'.stack e'.frames)
        ?_ fun e' h => ?_
      · unfold Engine.exitIf
        cases hlabels : f.labels with
        | nil => exact .error
        | cons label labels =>
            refine .ok ?_
            rw [hframes]
            exact .exit hinstr hlabels
      · exact .ok h
  case end_ => exact .ok (hnext (.close hinstr))
  case return_ =>
      refine means_finish hframes fun hcs => ?_
      rw [hframes]
      exact .ret (.inr hinstr) hcs
  case call index =>
      refine .bind (.any _) fun _ _ => .bind (.self _) fun target htarget => ?_
      exact means_callTarget hframes hinstr (@Callee.direct _ w fx _ f false _ _ _ htarget)
  case returnCall index =>
      refine .bind (.self _) fun target htarget => ?_
      exact means_tailTarget hframes hinstr (@Callee.direct _ w fx _ f true _ _ _ htarget)
  case callIndirect typeIndex tableIndex =>
      refine .bind (.self _) fun popped hpopped => ?_
      obtain ⟨v, stack⟩ := popped
      refine .bind (.any _) fun _ _ => .bind (.self _) fun addr haddr => ?_
      refine .bind (.self _) fun target htarget => ?_
      have hcallee := @Callee.indirect _ w fx _ f false _ _ _ stack _ _ haddr htarget
      rw [← pop_eq_ok hpopped] at hcallee
      exact means_callTarget hframes hinstr hcallee
  case returnCallIndirect typeIndex tableIndex =>
      refine .bind (.self _) fun popped hpopped => ?_
      obtain ⟨v, stack⟩ := popped
      refine .bind (.self _) fun addr haddr => ?_
      refine .bind (.self _) fun target htarget => ?_
      have hcallee := @Callee.indirect _ w fx _ f true _ _ _ stack _ _ haddr htarget
      rw [← pop_eq_ok hpopped] at hcallee
      exact means_tailTarget hframes hinstr hcallee
  case callRef typeIndex =>
      refine .bind popFuncRef_spec fun popped hpopped => ?_
      obtain ⟨addr, stack⟩ := popped
      refine .bind (.any _) fun _ _ => .bind (.self _) fun target htarget => ?_
      have hcallee := @Callee.ref _ w fx e.store.state f false _ stack _ _ htarget
      rw [← hpopped] at hcallee
      exact means_callTarget hframes hinstr hcallee
  case returnCallRef typeIndex =>
      refine .bind popFuncRef_spec fun popped hpopped => ?_
      obtain ⟨addr, stack⟩ := popped
      refine .bind (.self _) fun target htarget => ?_
      have hcallee := @Callee.ref _ w fx e.store.state f true _ stack _ _ htarget
      rw [← hpopped] at hcallee
      exact means_tailTarget hframes hinstr hcallee
  case localGet index =>
      simp only [Engine.stepControl]
      cases hlocal : f.locals[index]? with
      | none => exact .error
      | some v =>
          refine .ok ?_
          simp only [Ctl.Means, Engine.advance, hframes]
          exact .get hinstr hlocal
  case localSet index =>
      refine .bind (.self _) fun popped hpopped => .ok (hnext ?_)
      obtain ⟨v, stack⟩ := popped
      rw [pop_eq_ok hpopped]
      exact .set hinstr
  case localTee index =>
      refine .bind (.self _) fun popped hpopped => .ok (hnext ?_)
      obtain ⟨v, stack⟩ := popped
      rw [pop_eq_ok hpopped]
      exact .tee hinstr
  case throw index =>
      simp only [Engine.stepControl]
      cases htag : w.instances[f.inst]?.bind fun i => i.tags[index]? with
      | none => exact .error
      | some cell =>
          refine .ok ⟨rfl, fun tag args exn stack' frames hunwinds => ?_⟩
          rw [hframes] at hunwinds ⊢
          exact .raise hinstr (.inl ⟨index, rfl⟩) (List.drop_suffix _ _) hunwinds
  case throwRef =>
      refine .bind (.self _) fun popped hpopped => ?_
      obtain ⟨v, stack⟩ := popped
      have hstack := pop_eq_ok hpopped
      cases v with
      | ref r =>
          cases r with
          | exn exn =>
              refine .ok ⟨rfl, fun tag args exn stack' frames hunwinds => ?_⟩
              rw [hframes] at hunwinds ⊢
              refine .raise hinstr (.inr rfl) ?_ hunwinds
              rw [hstack]
              exact List.suffix_cons _ _
          | _ => exact .error
      | _ => exact .error
  all_goals exact .error

/-- One step of the top frame. -/
theorem means_step (hframes : e.frames = f :: cs) : Returns (Ctl.Means w fx e) (e.step w fx f cs) := by
  unfold Engine.step
  cases hinstr : (bodyOf w f)[f.pc]? with
  | none =>
      refine means_finish hframes fun hcs => ?_
      rw [hframes]
      exact .ret (.inl hinstr) hcs
  | some instr =>
      simp only
      cases hopens : instr.opens? with
      | some bt => exact .bind (means_enter hframes hinstr hopens) fun e' h => .ok h
      | none =>
          simp only
          cases hbranch : Engine.branchOf fx f e.store.state e.stack instr with
          | some decision =>
              refine .bind (.self _) fun taken htaken => ?_
              subst htaken
              obtain ⟨l, stack⟩ := taken
              cases l with
              | some l => exact means_branchTo hframes hinstr hbranch
              | none =>
                  refine .ok ?_
                  simp only [Ctl.Means, Engine.advance, hframes]
                  exact .pass hinstr hbranch
          | none =>
              simp only
              cases harity : plainArity (moduleOf w f) instr with
              | some arity => exact means_plain hframes hinstr harity
              | none => exact means_control hframes hinstr

end Means

/-- An exception that is caught is unwound to. -/
theorem unwinds_of_unwind {e e' : Engine σ} {tag exn : Nat} {frames : List Frame}
    (h : e.unwind w tag args exn frames stack = .running e') :
    Unwinds w tag args exn stack frames e'.stack e'.frames := by
  induction frames generalizing stack with
  | nil => cases h
  | cons f cs ih =>
      unfold Engine.unwind at h
      cases hfind : Engine.findCatch w f tag args exn f.labels with
      | none =>
          simp only [hfind] at h
          split at h
          · cases h
          · exact .drops hfind (ih h)
      | some hit =>
          obtain ⟨labels, l, payload⟩ := hit
          simp only [hfind, Engine.catchBranch] at h
          cases htarget : labels[l]? with
          | none => simp [htarget] at h
          | some target =>
              simp only [htarget] at h
              split at h
              · rename_i hlast
                split at h
                · cases h
                · rename_i hcs
                  cases h
                  refine .returns hfind htarget hlast fun hnil => hcs ?_
                  rw [hnil]
                  rfl
              · rename_i hlast
                have hcaught := @Unwinds.caught w tag args exn f cs stack _ _ _ _ hfind htarget hlast
                split at h
                · rename_i hloop
                  cases h
                  simp only [Label.continues, labelsAfter, hloop, if_true] at hcaught
                  exact hcaught
                · rename_i hloop
                  cases h
                  simp only [Label.continues, labelsAfter, hloop, if_false, Bool.false_eq_true] at hcaught
                  exact hcaught

theorem unwinds_of_raise {e e' : Engine σ} {exn : Nat} (h : e.raise w exn = .running e') :
    ∃ tag args, Unwinds w tag args exn e.stack e.frames e'.stack e'.frames := by
  unfold Engine.raise at h
  cases hexn : e.store.exceptions[exn]? with
  | none => simp [hexn] at h
  | some cell =>
      simp only [hexn] at h
      exact ⟨_, _, unwinds_of_unwind h⟩

theorem unwind_ne_host {e e' : Engine σ} {tag exn token : Nat} {args args' stack : List Value}
    {frames : List Frame} : e.unwind w tag args exn frames stack ≠ .host token args' e' := by
  induction frames generalizing stack with
  | nil => nofun
  | cons f cs ih =>
      unfold Engine.unwind Engine.catchBranch
      split
      · split
        · nofun
        · split
          · split <;> nofun
          · split <;> nofun
      · split
        · nofun
        · exact ih

theorem raise_ne_host {e e' : Engine σ} {exn token : Nat} :
    e.raise w exn ≠ .host token args e' := by
  unfold Engine.raise
  split
  · nofun
  · exact unwind_ne_host

/-- An iteration after which the run goes on is a move. -/
theorem moves_of_tick {e e' : Engine σ} (h : e.tick w fx = .running e') :
    Moves w fx e.store.state e.stack e.frames e'.stack e'.frames := by
  unfold Engine.tick at h
  cases hframes : e.frames with
  | nil => simp [hframes] at h
  | cons f cs =>
      simp only [hframes] at h
      rw [← hframes]
      cases hstep : e.step w fx f cs with
      | error fail => simp [hstep] at h
      | ok ctl =>
          have hmeans := means_step hframes ctl hstep
          simp only [hstep] at h
          cases ctl with
          | next e₁ =>
              cases h
              exact hmeans
          | settled e₁ =>
              cases h
              exact hmeans
          | finished results => cases h
          | host token args e₁ => cases h
          | raised exn e₁ =>
              obtain ⟨tag, args, hunwinds⟩ := unwinds_of_raise h
              exact hmeans.2 _ _ _ _ _ hunwinds

theorem suspends_of_tick {e e' : Engine σ} {token : Nat} (h : e.tick w fx = .host token args e') :
    ∃ ty, Suspends w fx e.store.state e.stack e.frames ty e'.stack e'.frames := by
  unfold Engine.tick at h
  cases hframes : e.frames with
  | nil => simp [hframes] at h
  | cons f cs =>
      simp only [hframes] at h
      rw [← hframes]
      cases hstep : e.step w fx f cs with
      | error fail => simp [hstep] at h
      | ok ctl =>
          have hmeans := means_step hframes ctl hstep
          simp only [hstep] at h
          cases ctl with
          | next e₁ | settled e₁ | finished results => cases h
          | host token args e₁ =>
              cases h
              exact hmeans
          | raised exn e₁ => exact absurd h raise_ne_host

end Slag.Wasm
