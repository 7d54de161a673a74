import Slag.Crux.Value
import Mathlib.Logic.Function.Basic

/-!
The promise combinators (`builtins/promise.rs`). The loop over the elements runs
user code at each element, in the iterator, in the constructor's `resolve` and in
`then`, and the element handlers can be called whenever user code runs; so the
loop is cut there into actions, and a handler call is one more.
-/

namespace Slag.Promise

open Slag.Crux

inductive Variant where
  | all | allSettled | any | allKeyed | allSettledKeyed
deriving DecidableEq, Repr

/-- What an element's slot holds: `undefined` at first, the settled value, or the
object with its `status` and its `value` or `reason`. -/
inductive Item where
  | undefined
  | plain (value : Value)
  | status (fulfilled : Bool) (value : Value)
deriving DecidableEq, Repr

/-- The collected result: an array (the errors of the aggregate, for `any`), or
an object by key. -/
inductive Collected where
  | array (items : List Item)
  | object (properties : PropertyKey → Option Item)

/-- The state of an element handler; `called` names its flag. -/
structure CompoundState where
  index : Nat
  fulfilled : Bool
  called : Nat
deriving DecidableEq, Repr

/-- Where the loop stands: before a step of the iteration, in `promise_resolve`,
in `then`, past the end, or left on an error. -/
inductive Progress where
  | iterating | resolving | attaching | ended | failed
deriving DecidableEq, Repr

/-- The own keys of the argument of a keyed combinator. -/
structure OwnKeys where
  keys : List PropertyKey
  nodup : keys.Nodup

/-- What a step does to the counter, and the collected result when it is passed on.
A decrement is by an element's handler or by the end of the iteration. -/
inductive Event where
  | increment
  | decrement (element : Option Nat)
  | collect (result : Collected)

/-- One call of a combinator. `entries` are its values, results, errors or keyed
entries, `keys` the own keys still to visit, and the handlers are in `compound`. -/
structure Combinator where
  variant : Variant
  keys : List PropertyKey
  entries : List (Option PropertyKey × Item)
  remaining : Nat
  index : Nat
  compound : List CompoundState
  called : List Bool
  progress : Progress
deriving DecidableEq, Repr

def Variant.keyed : Variant → Bool
  | .allKeyed | .allSettledKeyed => true
  | _ => false

namespace Combinator

def start (variant : Variant) (own : OwnKeys) : Combinator :=
  ⟨variant, own.keys, [], 1, 0, [], [], .iterating⟩

def createDataProperty (object : PropertyKey → Option Item) (entry : Option PropertyKey × Item) :
    PropertyKey → Option Item :=
  match entry.1 with
  | some key => Function.update object key (some entry.2)
  | none => object

/-- One data property per entry. -/
def keyedResultObject (entries : List (Option PropertyKey × Item)) : PropertyKey → Option Item :=
  entries.foldl createDataProperty fun _ => none

def result (s : Combinator) : Collected :=
  if s.variant.keyed then .object (keyedResultObject s.entries)
  else .array (s.entries.map Prod.snd)

/-- `*remaining -= 1`, and the result is passed on at 0; `none` below it. -/
def decrement (s : Combinator) (element : Option Nat) : Option (Combinator × List Event) :=
  match s.remaining with
  | 0 => none
  | remaining + 1 =>
      let s := { s with remaining := remaining }
      some (s, .decrement element :: if remaining = 0 then [.collect s.result] else [])

def write (s : Combinator) (index : Nat) (item : Item) : Combinator :=
  let entries :=
    if s.variant.keyed then s.entries
    else s.entries ++ List.replicate (index + 1 - s.entries.length) (none, .undefined)
  { s with entries := entries.modify index fun entry => (entry.1, item) }

/-- The course of every element handler. -/
def settleElement (s : Combinator) (state : CompoundState) (item : Item) :
    Option (Combinator × List Event) :=
  if s.called.getD state.called false then some (s, [])
  else
    ({ s with called := s.called.set state.called true }.write state.index item).decrement
      (some state.index)

def allFulfilled (s : Combinator) (state : CompoundState) (value : Value) :=
  s.settleElement state (.plain value)

def allSettledHandler (s : Combinator) (state : CompoundState) (value : Value) :=
  s.settleElement state (.status state.fulfilled value)

def anyRejected (s : Combinator) (state : CompoundState) (reason : Value) :=
  s.settleElement state (.plain reason)

def allKeyedFulfilled (s : Combinator) (state : CompoundState) (value : Value) :=
  s.settleElement state (.plain value)

def allSettledKeyedHandler (s : Combinator) (state : CompoundState) (value : Value) :=
  s.settleElement state (.status state.fulfilled value)

def callHandler (s : Combinator) (state : CompoundState) (value : Value) :
    Option (Combinator × List Event) :=
  match s.variant with
  | .all => s.allFulfilled state value
  | .allSettled => s.allSettledHandler state value
  | .any => s.anyRejected state value
  | .allKeyed => s.allKeyedFulfilled state value
  | .allSettledKeyed => s.allSettledKeyedHandler state value

/-- `Rc::new(Cell::new(false))` -/
def newCell (s : Combinator) : Nat × Combinator :=
  (s.called.length, { s with called := s.called ++ [false] })

def createHandler (s : Combinator) (fulfilled : Bool) (called : Nat) : Combinator :=
  { s with compound := s.compound ++ [⟨s.index, fulfilled, called⟩] }

/-- The handlers an element's `then` is given. -/
def createHandlers (s : Combinator) : Combinator :=
  match s.variant with
  | .all | .allKeyed =>
      let (called, s) := s.newCell
      s.createHandler true called
  | .any =>
      let (called, s) := s.newCell
      s.createHandler false called
  | .allSettled =>
      -- Each of the two has a flag of its own.
      let (called, s) := s.newCell
      let (called', s) := (s.createHandler true called).newCell
      s.createHandler false called'
  | .allSettledKeyed =>
      let (called, s) := s.newCell
      (s.createHandler true called).createHandler false called

end Combinator

namespace Combinators

/-- `next`: the iterator gives an element, or the next key is enumerable and its
value is read. `skip`: the next key has no enumerable property. `resolved` and
`attached`: `promise_resolve` and `then` return. `fail`: one of them, or the
iteration, throws. `finish`: the iteration ends. `call`: user code calls a handler. -/
inductive Action where
  | next | skip | resolved | attached | fail | finish
  | call (handler : Nat) (value : Value)
deriving DecidableEq, Repr

/-- One action; one that does not fit where the loop stands changes nothing. `none`
is a counter below 0. -/
def step (s : Combinator) : Action → Option (Combinator × List Event)
  | .next =>
      match s.progress with
      | .iterating =>
          if s.variant.keyed then
            match s.keys with
            | [] => some (s, [])
            | key :: keys =>
                some ({ s with
                  keys := keys
                  entries := s.entries ++ [(some key, .undefined)]
                  progress := .resolving }, [])
          else
            -- The counter is bumped before user code runs.
            some ({ s with
              entries := s.entries ++ [(none, .undefined)]
              remaining := s.remaining + 1
              progress := .resolving }, [.increment])
      | _ => some (s, [])
  | .skip =>
      match s.progress with
      | .iterating => some ({ s with keys := s.keys.tail }, [])
      | _ => some (s, [])
  | .resolved =>
      match s.progress with
      | .resolving =>
          if s.variant.keyed then
            some ({ s with remaining := s.remaining + 1, progress := .attaching }.createHandlers,
              [.increment])
          else some ({ s with progress := .attaching }.createHandlers, [])
      | _ => some (s, [])
  | .attached =>
      match s.progress with
      | .attaching => some ({ s with index := s.index + 1, progress := .iterating }, [])
      | _ => some (s, [])
  | .fail =>
      match s.progress with
      | .ended => some (s, [])
      | _ => some ({ s with progress := .failed }, [])
  | .finish =>
      match s.progress with
      | .iterating =>
          if s.variant.keyed ∧ s.keys ≠ [] then some (s, [])
          else { s with progress := .ended }.decrement none
      | _ => some (s, [])
  | .call handler value =>
      match s.compound[handler]? with
      | none => some (s, [])
      | some state => s.callHandler state value

def run : Combinator → List Action → Option (Combinator × List Event)
  | s, [] => some (s, [])
  | s, action :: actions => do
      let (s', events) ← step s action
      let (t, later) ← run s' actions
      return (t, events ++ later)

/-- The handler a step calls, and the value it is given. -/
def callOf (s : Combinator) : Action → List (CompoundState × Value)
  | .call handler value => (s.compound[handler]?.map (·, value)).toList
  | _ => []

def calls : Combinator → List Action → List (CompoundState × Value)
  | _, [] => []
  | s, action :: actions =>
      callOf s action ++
        match step s action with
        | some (s', _) => calls s' actions
        | none => []

end Combinators

end Slag.Promise
