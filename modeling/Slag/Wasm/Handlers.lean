import Slag.Wasm.Constructs
import Slag.Wasm.Runs

/-!
Exceptions. A `try_table` is active at the places between it and its `end`; the
delivery of the engine is compared with one that is stated over the text of the
body: which constructs are open, which clause applies, what it pushes and where
its label is.
-/

namespace Slag.Wasm

variable {σ : Type}

/-! ## Clauses -/

namespace Catch

/-- The tag a clause names; one for all exceptions names none. -/
def tag? : Catch → Option Nat
  | .tag index _ | .tagRef index _ => some index
  | .all _ | .allRef _ => none

def label : Catch → Nat
  | .tag _ target | .tagRef _ target | .all target | .allRef target => target

/-- The forms that hand the exception on. -/
def isRef : Catch → Bool
  | .tagRef _ _ | .allRef _ => true
  | .tag _ _ | .all _ => false

/-- What a clause pushes: the arguments where it names their tag, and then, for
the `_ref` forms, the exception. -/
def pushes (args : List Value) (exn : Nat) (clause : Catch) : List Value :=
  (if clause.tag?.isSome then args else []) ++ if clause.isRef then [.ref (.exn exn)] else []

end Catch

/-! ## Delivery -/

section Spec

variable (w : World) (tag : Nat) (args : List Value) (exn : Nat)

/-- The tag that an index of a frame's module stands for. -/
def tagOf (f : Frame) (index : Nat) : Option Nat := do
  let inst ← w.instances[f.inst]?
  inst.tags[index]?

/-- A clause with a tag applies to the exceptions of that tag. -/
def applies (f : Frame) (clause : Catch) : Bool :=
  clause.tag?.all fun index => decide (tagOf w f index = some tag)

/-- The first clause of a `try_table` that applies. -/
def catches (f : Frame) (o : Nat) : Option Catch :=
  match (bodyOf w f)[o]? with
  | some (.tryTable _ clauses) => clauses.find? (applies w tag f)
  | _ => none

/-- The innermost `try_table` a frame is inside of with a clause that applies:
its opener, how many constructs are open inside it, and the clause. -/
def handler (f : Frame) : Option ((Nat × Nat) × Catch) :=
  (openAt (bodyOf w f) f.pc).zipIdx.findSome? fun open_ =>
    (catches w tag f open_.1).map fun clause => (open_, clause)

/-- Go on at the label of a clause of the `try_table` at `o`, inside of which `k`
constructs are open. The label counts the constructs around the `try_table`: a
loop begins again, anything else goes on behind its end, and one more than the
constructs is the function, which returns. What the clause pushes comes on top
of the operands below the target. -/
def deliver (e : Engine σ) (f : Frame) (callers : List Frame) (stack : List Value) (o k : Nat)
    (clause : Catch) : Progress σ :=
  let l := clause.label
  match f.labels[k + 1 + l]? with
  | none => .failed (.trap .unknownFunction)
  | some label =>
      let stack := (clause.pushes args exn).reverse ++ truncate label.height stack
      match (openAt (bodyOf w f) o)[l]? with
      | none =>
          match callers with
          | [] => .finished stack.reverse
          | _ => .running { e with stack := stack, frames := callers }
      | some target =>
          match (bodyOf w f)[target]?, endFor (bodyOf w f) target with
          | some (.loop _), _ => .running { e with
              stack := stack
              frames := { f with pc := target + 1, labels := f.labels.drop (k + 1 + l) } :: callers }
          | _, some stop => .running { e with
              stack := stack
              frames := { f with pc := stop + 1, labels := f.labels.drop (k + 1 + l + 1) } :: callers }
          | _, none => .failed (.trap .unknownFunction)

/-- An exception goes to the first frame with a handler; frames without one are
left with their operands, and without frames the run ends with it. -/
def dispatch (e : Engine σ) : List Frame → List Value → Progress σ
  | [], _ => .uncaught exn
  | f :: callers, stack =>
      match handler w tag f with
      | some ((o, k), clause) => deliver w args exn e f callers stack o k clause
      | none =>
          match callers with
          | [] => .uncaught exn
          | _ => dispatch e callers (truncate f.base stack)

end Spec

/-! ## The search of the engine -/

section Find

variable {w : World} {tag : Nat} {args : List Value} {exn : Nat} {f : Frame}

variable {clause : Catch}

end Find

/-! ## Exceptions in runs -/

/-- The run alone. -/
def Observer.blind (σ : Type) : Observer σ Unit where
  start _ := ()
  step _ _ _ _ := ()
  unwind _ _ _ := ()

/-- An exception is raised in a run: by an instruction, or by the host function
the run was stopped at. -/
inductive Raised (fx : Effects σ) : World → Engine σ → Nat → Prop where
  | throw {w : World} {e e' : Engine σ} {f : Frame} {callers : List Frame} {exn : Nat} :
      Runs fx (.blind σ) w e () → e.frames = f :: callers → e.step w fx f callers = .ok (.raised exn e') →
      Raised fx w e' exn
  | host {w w' : World} {e e' : Engine σ} {token exn : Nat} {args : List Value} {store : Store σ} :
      Runs fx (.blind σ) w e () → e.tick w fx = .host token args e' → w.Grows w' → w'.Valid →
      Raised fx w' { e' with store := store } exn

theorem Raised.fits {fx : Effects σ} {w : World} {e : Engine σ} {exn : Nat} (h : Raised fx w e exn) :
    ∀ f ∈ e.frames, f.Fits w := by
  cases h with
  | throw hruns hframes hstep =>
      obtain ⟨hsame, -⟩ := means_step hframes _ hstep
      rw [hsame]
      exact hruns.fits
  | host hruns htick hgrows _ =>
      obtain ⟨ty, hsuspends⟩ := suspends_of_tick htick
      intro f hf
      exact ((goes_of_suspends hsuspends).fits hruns.valid hruns.fits f hf).grows hgrows

/-- The exception, thrown with nothing on the stack. -/
def thrown (f : Frame) : Engine Unit :=
  ⟨[], [f], ⟨[⟨0, []⟩], ()⟩⟩

end Slag.Wasm
