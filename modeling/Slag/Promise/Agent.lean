import Slag.Crux.Value

/-!
Promise records, resolving functions and the job queues (`promise.rs`). User
code runs between the steps: a step that calls it leaves a frame, and the frame
goes on when the code completes. Promise hooks and the rejection tracker return
and change nothing here.
-/

namespace Slag.Promise

open Slag.Crux

inductive ReactionKind where
  | fulfill | reject
deriving DecidableEq, Repr

/-- A PromiseCapability Record. -/
structure Capability where
  promise : Value
  resolve : Value
  reject : Value
deriving DecidableEq, Repr

/-- A PromiseReaction Record; internal reactions have no capability. -/
structure Reaction where
  capability : Option Capability
  kind : ReactionKind
  handler : Option Value
deriving DecidableEq, Repr

inductive PromiseState where
  | pending (fulfillReactions rejectReactions : List Reaction)
  | fulfilled (value : Value)
  | rejected (reason : Value)
deriving DecidableEq, Repr

structure PromiseData where
  state : PromiseState
  isHandled : Bool
deriving DecidableEq, Repr

/-- What a resolving function resolves. `cell` names the flag it shares with the
other function of its pair. -/
structure ResolverData where
  promise : Value
  cell : Nat
  isReject : Bool
deriving DecidableEq, Repr

inductive Job where
  | reaction (promise : Value) (reaction : Reaction) (argument : Value)
  | resolveThenable (promise thenable method resolve reject : Value)
deriving DecidableEq, Repr

/-- Work that waits for user code: `resolve_promise` for the `then` it reads, a
reaction job for its handler, a thenable job for the method it calls. -/
inductive Frame where
  | getThen (promise resolution : Value)
  | handler (capability : Option Capability)
  | thenable (reject : Value)
deriving DecidableEq, Repr

/-- How user code completes: a value, or a language value it throws. -/
abbrev Completion := Except Value Value

structure Agent where
  /-- No heap object has this number or a greater one. -/
  fresh : ObjId
  promises : ObjId → Option PromiseData
  resolvers : ObjId → Option ResolverData
  resolved : Nat → Bool
  /-- The queued jobs, each with the queue of its realm. -/
  jobs : List (Nat × Job)
  frames : List Frame
  /-- The queue of the current realm. -/
  queue : Nat

namespace Agent

def promiseData (s : Agent) : Value → Option (ObjId × PromiseData)
  | .object id => (s.promises id).map (id, ·)
  | _ => none

def setPromise (s : Agent) (id : ObjId) (data : PromiseData) : Agent :=
  { s with promises := Function.update s.promises id (some data) }

def enqueue (s : Agent) (job : Job) : Agent :=
  { s with jobs := s.jobs ++ [(s.queue, job)] }

def enqueueReactions (s : Agent) (promise : Value) (reactions : List Reaction) (argument : Value) :
    Agent :=
  reactions.foldl (fun s reaction => s.enqueue (.reaction promise reaction argument)) s

def createResolvingFunctions (s : Agent) (promise : Value) : (Value × Value) × Agent :=
  ((.function s.fresh, .function (s.fresh + 1)),
    { s with
      fresh := s.fresh + 2
      resolvers := Function.update (Function.update s.resolvers s.fresh (some ⟨promise, s.fresh, false⟩))
        (s.fresh + 1) (some ⟨promise, s.fresh, true⟩)
      resolved := Function.update s.resolved s.fresh false })

def rejectPromise (s : Agent) (promise reason : Value) : Agent × Except String Unit :=
  match s.promiseData promise with
  | none => (s, .error "reject called on a non-promise object")
  | some (id, data) =>
      match data.state with
      | .pending _ rejectReactions =>
          ((s.setPromise id { data with state := .rejected reason }).enqueueReactions promise
            rejectReactions reason, .ok ())
      | _ => (s, .ok ())

def fulfillPromise (s : Agent) (promise value : Value) : Agent × Except String Unit :=
  match s.promiseData promise with
  | none => (s, .error "fulfill called on a non-promise object")
  | some (id, data) =>
      match data.state with
      | .pending fulfillReactions _ =>
          ((s.setPromise id { data with state := .fulfilled value }).enqueueReactions promise
            fulfillReactions value, .ok ())
      | _ => (s, .ok ())

/-- Up to the read of the resolution's `then`. -/
def resolvePromise (s : Agent) (promise resolution : Value) : Agent × Except String Unit :=
  if sameValue resolution promise then
    -- A fresh TypeError object for the chaining cycle.
    { s with fresh := s.fresh + 1 }.rejectPromise promise (.object s.fresh)
  else
    match resolution with
    | .object _ | .function _ => ({ s with frames := .getThen promise resolution :: s.frames }, .ok ())
    | _ => s.fulfillPromise promise resolution

def enqueueResolveThenableJob (s : Agent) (promise thenable method : Value) : Agent :=
  let ((resolve, reject), s) := s.createResolvingFunctions promise
  s.enqueue (.resolveThenable promise thenable method resolve reject)

def dispatchResolver (s : Agent) (resolver : ResolverData) (value : Value) :
    Agent × Except String Unit :=
  if s.resolved resolver.cell then (s, .ok ())
  else
    let s := { s with resolved := Function.update s.resolved resolver.cell true }
    if resolver.isReject then s.rejectPromise resolver.promise value
    else s.resolvePromise resolver.promise value

/-- Call a function value; what other functions than resolving functions do is
steps of their own. -/
def call (s : Agent) (function argument : Value) : Agent × Except String Unit :=
  match function with
  | .function id =>
      match s.resolvers id with
      | some resolver => s.dispatchResolver resolver argument
      | none => (s, .ok ())
  | _ => (s, .ok ())

section Callable

variable (callable : Value → Bool)

/-- The two reactions of a `then`. -/
def reactionsOf (onFulfilled onRejected : Option Value) (capability : Option Capability) :
    Reaction × Reaction :=
  (⟨capability, .fulfill, onFulfilled.filter callable⟩, ⟨capability, .reject, onRejected.filter callable⟩)

def performPromiseThen (s : Agent) (promise : Value) (onFulfilled onRejected : Option Value)
    (capability : Option Capability) : Agent × Except String Value :=
  let (fulfillReaction, rejectReaction) := reactionsOf callable onFulfilled onRejected capability
  match s.promiseData promise with
  | none => (s, .error "promise is not a promise")
  | some (id, data) =>
      let s := match data.state with
        | .pending fulfillReactions rejectReactions =>
            s.setPromise id { data with
              state := .pending (fulfillReactions ++ [fulfillReaction]) (rejectReactions ++ [rejectReaction])
              isHandled := true }
        | .fulfilled value =>
            (s.enqueue (.reaction promise fulfillReaction value)).setPromise id
              { data with isHandled := true }
        | .rejected value =>
            (s.enqueue (.reaction promise rejectReaction value)).setPromise id
              { data with isHandled := true }
      (s, .ok ((capability.map Capability.promise).getD .undefined))

/-- `resolve_promise` from the read of `then` on. -/
def resolveWithThen (s : Agent) (promise resolution : Value) : Completion → Agent × Except String Unit
  | .error error => s.rejectPromise promise error
  | .ok method =>
      if callable method then (s.enqueueResolveThenableJob promise resolution method, .ok ())
      else s.fulfillPromise promise resolution

end Callable

/-- The tail of a reaction job: settle the capability with the handler's completion. -/
def settleCapability (s : Agent) (capability : Option Capability) (result : Completion) :
    Agent × Except String Unit :=
  match capability with
  | none => (s, .ok ())
  | some capability =>
      match result with
      | .ok value => s.call capability.resolve value
      | .error error => s.call capability.reject error

/-- Up to the user code of the job. -/
def startJob (s : Agent) : Job → Agent × Except String Unit
  | .reaction _ reaction argument =>
      match reaction.handler with
      | some _ => ({ s with frames := .handler reaction.capability :: s.frames }, .ok ())
      | none =>
          match reaction.kind with
          | .fulfill => s.settleCapability reaction.capability (.ok argument)
          | .reject => s.settleCapability reaction.capability (.error argument)
  | .resolveThenable _ _ _ _ reject => ({ s with frames := .thenable reject :: s.frames }, .ok ())

end Agent

/-- What happens next: user code or the host acts, a job starts, or the user
code that the innermost frame waits for completes. -/
inductive Action where
  | newPromise
  | createResolvingFunctions (promise : Value)
  | call (function argument : Value)
  | attach (promise : Value) (onFulfilled onRejected : Option Value) (capability : Option Capability)
  | resolve (promise value : Value)
  | reject (promise reason : Value)
  | enter (queue : Nat)
  | runJob (queue : Nat)
  | complete (completion : Completion)

def step (callable : Value → Bool) (s : Agent) : Action → Agent
  | .newPromise =>
      { s.setPromise s.fresh ⟨.pending [] [], false⟩ with fresh := s.fresh + 1 }
  | .createResolvingFunctions promise => (s.createResolvingFunctions promise).2
  | .call function argument => (s.call function argument).1
  | .attach promise onFulfilled onRejected capability =>
      (s.performPromiseThen callable promise onFulfilled onRejected capability).1
  | .resolve promise value => (s.resolvePromise promise value).1
  | .reject promise reason => (s.rejectPromise promise reason).1
  | .enter queue => { s with queue := queue }
  | .runJob queue =>
      match s.jobs.find? fun entry => entry.1 = queue with
      | none => s
      | some (_, job) =>
          ({ s with jobs := s.jobs.eraseP fun entry => entry.1 = queue }.startJob job).1
  | .complete completion =>
      match s.frames with
      | [] => s
      | frame :: frames =>
          let s := { s with frames := frames }
          match frame with
          | .getThen promise resolution => (s.resolveWithThen callable promise resolution completion).1
          | .handler capability => (s.settleCapability capability completion).1
          | .thenable reject =>
              match completion with
              | .ok _ => s
              | .error error => (s.call reject error).1

def run (callable : Value → Bool) (s : Agent) (actions : List Action) : Agent :=
  actions.foldl (step callable) s

/-- No promise, no job and no code at work. -/
def start : Agent :=
  ⟨0, fun _ => none, fun _ => none, fun _ => false, [], [], 0⟩

end Slag.Promise
