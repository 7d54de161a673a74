import Slag.Promise.Agent

/-!
A promise settles once and runs each reaction once. What a step does to one
promise is an entry of `Changes`: what was attached, what was enqueued, and the
record before and after. The accounts of a run add these up.
-/

namespace Slag.Promise

open Slag.Crux

variable {p : ObjId} {s s' t : Agent}

/-- The reaction and argument of a job of `p`. -/
def reactionFor (p : ObjId) (entry : Nat × Job) : Option (Reaction × Value) :=
  match entry.2 with
  | .reaction (.object id) reaction argument => if id = p then some (reaction, argument) else none
  | _ => none

section Observations

variable (callable : Value → Bool) (p : ObjId)

/-- The reactions a step attaches to `p`. -/
def attachedBy (s : Agent) : Action → List (Reaction × Reaction)
  | .attach (.object id) onFulfilled onRejected capability =>
      if id = p ∧ (s.promises p).isSome then [Agent.reactionsOf callable onFulfilled onRejected capability]
      else []
  | _ => []

/-- The jobs the step does not start. -/
def keptJobs (s : Agent) : Action → List (Nat × Job)
  | .runJob queue => s.jobs.eraseP fun entry => entry.1 = queue
  | _ => s.jobs

/-- The reaction jobs of `p` that a step enqueues. -/
def enqueuedBy (s : Agent) (action : Action) : List (Reaction × Value) :=
  ((step callable s action).jobs.drop (keptJobs s action).length).filterMap (reactionFor p)

def attached : Agent → List Action → List (Reaction × Reaction)
  | _, [] => []
  | s, action :: actions => attachedBy callable p s action ++ attached (step callable s action) actions

def enqueued : Agent → List Action → List (Reaction × Value)
  | _, [] => []
  | s, action :: actions => enqueuedBy callable p s action ++ enqueued (step callable s action) actions

end Observations

/-- Every number in use is below `fresh`. -/
structure Sound (s : Agent) : Prop where
  promises : ∀ id data, s.promises id = some data → id < s.fresh
  resolvers : ∀ id resolver, s.resolvers id = some resolver →
    id < s.fresh ∧ resolver.cell < s.fresh

/-- Resolving functions and the flags that are set stay. -/
structure Keeps (s s' : Agent) : Prop where
  sound : Sound s → Sound s'
  fresh : s.fresh ≤ s'.fresh
  resolvers : ∀ id < s.fresh, s'.resolvers id = s.resolvers id
  resolved : ∀ cell < s.fresh, s.resolved cell = true → s'.resolved cell = true

theorem Keeps.refl (s : Agent) : Keeps s s :=
  ⟨id, le_rfl, fun _ _ => rfl, fun _ _ h => h⟩

theorem Keeps.trans (h : Keeps s s') (h' : Keeps s' t) : Keeps s t where
  sound := h'.sound ∘ h.sound
  fresh := h.fresh.trans h'.fresh
  resolvers := fun id hid => (h'.resolvers id (hid.trans_le h.fresh)).trans (h.resolvers id hid)
  resolved := fun cell hc hs =>
    h'.resolved cell (hc.trans_le h.fresh) (h.resolved cell hc hs)

/-- One step at one promise: its record, what was attached, what was enqueued and
its record after. -/
inductive Changes : Option PromiseData → List (Reaction × Reaction) → List (Reaction × Value) →
    Option PromiseData → Prop
  | same {data} : Changes data [] [] data
  | create : Changes none [] [] (some ⟨.pending [] [], false⟩)
  | fulfill {fs rs handled value} :
      Changes (some ⟨.pending fs rs, handled⟩) [] (fs.map (·, value)) (some ⟨.fulfilled value, handled⟩)
  | reject {fs rs handled reason} :
      Changes (some ⟨.pending fs rs, handled⟩) [] (rs.map (·, reason)) (some ⟨.rejected reason, handled⟩)
  | wait {fs rs handled pair} :
      Changes (some ⟨.pending fs rs, handled⟩) [pair] []
        (some ⟨.pending (fs ++ [pair.1]) (rs ++ [pair.2]), true⟩)
  | fulfilled {value handled pair} :
      Changes (some ⟨.fulfilled value, handled⟩) [pair] [(pair.1, value)]
        (some ⟨.fulfilled value, true⟩)
  | rejected {reason handled pair} :
      Changes (some ⟨.rejected reason, handled⟩) [pair] [(pair.2, reason)]
        (some ⟨.rejected reason, true⟩)

/-- An operation that attaches nothing: it keeps, it appends jobs, and it changes
`p` as a step may. -/
structure Settles (p : ObjId) (s s' : Agent) : Prop extends Keeps s s' where
  changes : ∃ jobs, s'.jobs = s.jobs ++ jobs ∧
    Changes (s.promises p) [] (jobs.filterMap (reactionFor p)) (s'.promises p)

/-- What leaves promises and jobs as they are. -/
theorem Keeps.settles (h : Keeps s s') (hp : s'.promises = s.promises) (hj : s'.jobs = s.jobs) :
    Settles p s s' :=
  ⟨h, [], by rw [hj, List.append_nil], by rw [hp]; exact .same⟩

theorem Settles.refl (s : Agent) : Settles p s s :=
  (Keeps.refl s).settles rfl rfl

theorem Keeps.then_settles (h : Keeps s s') (hp : s'.promises = s.promises) (hj : s'.jobs = s.jobs)
    (h' : Settles p s' t) : Settles p s t :=
  ⟨h.trans h'.toKeeps, by rw [← hp, ← hj]; exact h'.changes⟩

variable {data : PromiseData}

namespace Agent

theorem enqueueReactions_eq (promise : Value) (reactions : List Reaction) (argument : Value) :
    s.enqueueReactions promise reactions argument =
      { s with jobs := s.jobs ++ reactions.map fun reaction =>
          (s.queue, .reaction promise reaction argument) } := by
  induction reactions generalizing s with
  | nil => simp [enqueueReactions]
  | cons reaction reactions ih =>
      have h := ih (s := s.enqueue (.reaction promise reaction argument))
      simp only [enqueueReactions, List.foldl_cons] at h ⊢
      rw [h]
      simp [enqueue]

variable {id : ObjId}

theorem promiseData_eq {promise : Value} (h : s.promiseData promise = some (id, data)) :
    promise = .object id ∧ s.promises id = some data := by
  cases promise with
  | object q =>
      simp only [promiseData, Option.map_eq_some_iff, Prod.mk.injEq] at h
      obtain ⟨_, hd, rfl, rfl⟩ := h
      exact ⟨rfl, hd⟩
  | _ => simp [promiseData] at h

theorem keeps_setPromise {data data' : PromiseData} (hd : s.promises id = some data) :
    Keeps s (s.setPromise id data') where
  sound := fun h => by
    refine ⟨fun q d hq => ?_, h.resolvers⟩
    by_cases hid : q = id
    · exact h.promises q data (hid ▸ hd)
    · exact h.promises q d (by simpa [setPromise, hid] using hq)
  fresh := le_rfl
  resolvers := fun _ _ => rfl
  resolved := fun _ _ h => h

theorem reactionFor_enqueued (id : ObjId) (reactions : List Reaction) (argument : Value) :
    (reactions.map fun reaction => (s.queue, Job.reaction (.object id) reaction argument)).filterMap
      (reactionFor p) = if id = p then reactions.map (·, argument) else [] := by
  induction reactions with
  | nil => simp
  | cons reaction reactions ih =>
      rw [List.map_cons, List.filterMap_cons, ih]
      by_cases h : id = p <;> simp [reactionFor, h]

/-- A pending record gives way to a settled one, and its reactions to their jobs. -/
theorem settles_settle {state : PromiseState} {reactions : List Reaction} {argument : Value}
    (hd : s.promises id = some data)
    (h : Changes (some data) [] (reactions.map (·, argument)) (some { data with state := state })) :
    Settles p s ((s.setPromise id { data with state := state }).enqueueReactions (.object id)
      reactions argument) := by
  rw [enqueueReactions_eq]
  refine ⟨?_, _, rfl, ?_⟩
  · have hk : Keeps s (s.setPromise id { data with state := state }) := keeps_setPromise hd
    exact ⟨fun hs => ⟨(hk.sound hs).promises, (hk.sound hs).resolvers⟩, hk.fresh, hk.resolvers,
      hk.resolved⟩
  · rw [reactionFor_enqueued]
    by_cases hid : id = p
    · subst hid
      simpa [hd, setPromise] using h
    · simpa [hid, Ne.symm hid, setPromise] using Changes.same

theorem settles_reject (promise reason : Value) : Settles p s (s.rejectPromise promise reason).1 := by
  unfold rejectPromise
  split
  · exact .refl s
  · rename_i id data hp
    obtain ⟨rfl, hd⟩ := promiseData_eq hp
    obtain ⟨state, handled⟩ := data
    cases state with
    | pending fs rs => exact settles_settle hd .reject
    | fulfilled _ | rejected _ => exact .refl s

theorem settles_fulfill (promise value : Value) : Settles p s (s.fulfillPromise promise value).1 := by
  unfold fulfillPromise
  split
  · exact .refl s
  · rename_i id data hp
    obtain ⟨rfl, hd⟩ := promiseData_eq hp
    obtain ⟨state, handled⟩ := data
    cases state with
    | pending fs rs => exact settles_settle hd .fulfill
    | fulfilled _ | rejected _ => exact .refl s

theorem keeps_frames (frames : List Frame) : Keeps s { s with frames := frames } :=
  ⟨fun h => ⟨h.promises, h.resolvers⟩, le_rfl, fun _ _ => rfl, fun _ _ h => h⟩

theorem keeps_jobs (jobs : List (Nat × Job)) : Keeps s { s with jobs := jobs } :=
  ⟨fun h => ⟨h.promises, h.resolvers⟩, le_rfl, fun _ _ => rfl, fun _ _ h => h⟩

theorem keeps_fresh : Keeps s { s with fresh := s.fresh + 1 } where
  sound := fun h =>
    ⟨fun id data hd => Nat.lt_succ_of_lt (h.promises id data hd), fun id resolver hr =>
      ⟨Nat.lt_succ_of_lt (h.resolvers id resolver hr).1,
        Nat.lt_succ_of_lt (h.resolvers id resolver hr).2⟩⟩
  fresh := Nat.le_succ _
  resolvers := fun _ _ => rfl
  resolved := fun _ _ h => h

theorem keeps_resolved (cell : Nat) :
    Keeps s { s with resolved := Function.update s.resolved cell true } where
  sound := fun h => ⟨h.promises, h.resolvers⟩
  fresh := le_rfl
  resolvers := fun _ _ => rfl
  resolved := fun other _ h => by
    by_cases ho : other = cell <;> simp [ho, h]

theorem keeps_createResolvingFunctions (promise : Value) :
    Keeps s (s.createResolvingFunctions promise).2 where
  sound := fun h => by
    refine ⟨fun id data hd => Nat.lt_add_right 2 (h.promises id data hd), fun id resolver hr => ?_⟩
    have h1 : s.fresh < s.fresh + 2 := Nat.lt_add_of_pos_right (by decide)
    simp only [createResolvingFunctions, Function.update_apply] at hr ⊢
    split at hr
    · cases hr
      subst id
      exact ⟨Nat.lt_succ_self _, h1⟩
    · split at hr
      · cases hr
        subst id
        exact ⟨h1, h1⟩
      · have hold := h.resolvers id resolver hr
        exact ⟨Nat.lt_add_right 2 hold.1, Nat.lt_add_right 2 hold.2⟩
  fresh := Nat.le_add_right _ _
  resolvers := fun id hid => by
    have h1 : id ≠ s.fresh + 1 := Nat.ne_of_lt (Nat.lt_succ_of_lt hid)
    simp only [createResolvingFunctions]
    rw [Function.update_of_ne h1, Function.update_of_ne (Nat.ne_of_lt hid)]
  resolved := fun cell hc h => by
    simp only [createResolvingFunctions]
    rw [Function.update_of_ne (Nat.ne_of_lt hc)]
    exact h

theorem settles_resolve (promise resolution : Value) :
    Settles p s (s.resolvePromise promise resolution).1 := by
  unfold resolvePromise
  split
  · exact keeps_fresh.then_settles rfl rfl (settles_reject _ _)
  · cases resolution with
    | object _ | function _ => exact (keeps_frames _).settles rfl rfl
    | _ => exact settles_fulfill _ _

theorem settles_enqueueResolveThenableJob (promise thenable method : Value) :
    Settles p s (s.enqueueResolveThenableJob promise thenable method) := by
  refine ⟨(keeps_createResolvingFunctions promise).trans (keeps_jobs _), _, rfl, ?_⟩
  exact .same

theorem settles_dispatch (resolver : ResolverData) (value : Value) :
    Settles p s (s.dispatchResolver resolver value).1 := by
  unfold dispatchResolver
  split
  · exact .refl s
  · refine (keeps_resolved resolver.cell).then_settles rfl rfl ?_
    dsimp only
    split
    · exact settles_reject _ _
    · exact settles_resolve _ _

theorem settles_call (function argument : Value) : Settles p s (s.call function argument).1 := by
  unfold call
  split
  · split
    · exact settles_dispatch _ _
    · exact .refl s
  · exact .refl s

theorem settles_settleCapability (capability : Option Capability) (result : Completion) :
    Settles p s (s.settleCapability capability result).1 := by
  unfold settleCapability
  split
  · exact .refl s
  · split
    · exact settles_call _ _
    · exact settles_call _ _

theorem settles_startJob (job : Job) : Settles p s (s.startJob job).1 := by
  cases job with
  | resolveThenable _ _ _ _ reject => exact (keeps_frames _).settles rfl rfl
  | reaction promise reaction argument =>
      simp only [startJob]
      split
      · exact (keeps_frames _).settles rfl rfl
      · split
        · exact settles_settleCapability _ _
        · exact settles_settleCapability _ _

theorem settles_resolveWithThen (callable : Value → Bool) (promise resolution : Value)
    (completion : Completion) :
    Settles p s (s.resolveWithThen callable promise resolution completion).1 := by
  cases completion with
  | error error => exact settles_reject _ _
  | ok method =>
      simp only [resolveWithThen]
      split
      · exact settles_enqueueResolveThenableJob _ _ _
      · exact settles_fulfill _ _

end Agent

section Steps

variable {callable : Value → Bool}

/-- What a step does to `p`, with what it keeps of the rest. -/
structure Account (callable : Value → Bool) (p : ObjId) (s : Agent) (action : Action) : Prop where
  keeps : Keeps s (step callable s action)
  changes : Changes (s.promises p) (attachedBy callable p s action) (enqueuedBy callable p s action)
    ((step callable s action).promises p)

/-- The account of a step that attaches nothing, from what its operation does
once the started job is gone. -/
theorem Settles.account {action : Action}
    (h : Settles p { s with jobs := keptJobs s action } (step callable s action))
    (ha : attachedBy callable p s action = []) : Account callable p s action := by
  obtain ⟨hk, jobs, hj, hc⟩ := h
  refine ⟨(Agent.keeps_jobs (keptJobs s action)).trans hk, ?_⟩
  rw [ha]
  unfold enqueuedBy
  rw [hj]
  simpa using hc

theorem account_newPromise (hs : Sound s) : Account callable p s .newPromise := by
  refine ⟨⟨fun h => ⟨fun id data hd => ?_, fun id resolver hr => ?_⟩, Nat.le_succ _, fun _ _ => rfl,
    fun _ _ h => h⟩, ?_⟩
  · by_cases hid : id = s.fresh
    · exact hid ▸ Nat.lt_succ_self _
    · exact Nat.lt_succ_of_lt (h.promises id data (by simpa [step, Agent.setPromise, hid] using hd))
  · have hold := h.resolvers id resolver hr
    exact ⟨Nat.lt_succ_of_lt hold.1, Nat.lt_succ_of_lt hold.2⟩
  · simp only [attachedBy, enqueuedBy, keptJobs, step, Agent.setPromise, List.drop_length,
      List.filterMap_nil]
    by_cases hp : p = s.fresh
    · have hnone : s.promises p = none :=
        Option.eq_none_iff_forall_not_mem.mpr fun data hd =>
          Nat.lt_irrefl _ (hp ▸ hs.promises p data hd)
      rw [hnone, hp, Function.update_self]
      exact .create
    · rw [Function.update_of_ne hp]
      exact .same

theorem account_attach (promise : Value) (onFulfilled onRejected : Option Value)
    (capability : Option Capability) :
    Account callable p s (.attach promise onFulfilled onRejected capability) := by
  cases hd : s.promiseData promise with
  | none =>
      refine Settles.account ?_ ?_
      · simp only [step, Agent.performPromiseThen, hd]
        exact .refl s
      · cases promise with
        | object id =>
            have hnone : s.promises id = none := by simpa [Agent.promiseData] using hd
            refine if_neg fun h => ?_
            rw [← h.1, hnone] at h
            exact absurd h.2 (by decide)
        | _ => rfl
  | some found =>
      obtain ⟨id, data⟩ := found
      obtain ⟨rfl, hid⟩ := Agent.promiseData_eq hd
      obtain ⟨state, handled⟩ := data
      have keeps : ∀ (jobs : List (Nat × Job)) (data' : PromiseData),
          Keeps s ({ s with jobs := jobs }.setPromise id data') := fun jobs _ =>
        (Agent.keeps_jobs jobs).trans (Agent.keeps_setPromise hid)
      by_cases hp : id = p
      · subst hp
        cases state with
        | pending fs rs =>
            refine ⟨by simpa only [step, Agent.performPromiseThen, hd] using keeps s.jobs _, ?_⟩
            simpa [attachedBy, enqueuedBy, keptJobs, step, Agent.performPromiseThen, hd, hid,
              Agent.setPromise] using Changes.wait
        | fulfilled value =>
            refine ⟨by simpa only [step, Agent.performPromiseThen, hd, Agent.enqueue] using keeps _ _, ?_⟩
            simpa [attachedBy, enqueuedBy, keptJobs, step, Agent.performPromiseThen, hd, hid,
              Agent.setPromise, Agent.enqueue, reactionFor] using Changes.fulfilled
        | rejected reason =>
            refine ⟨by simpa only [step, Agent.performPromiseThen, hd, Agent.enqueue] using keeps _ _, ?_⟩
            simpa [attachedBy, enqueuedBy, keptJobs, step, Agent.performPromiseThen, hd, hid,
              Agent.setPromise, Agent.enqueue, reactionFor] using Changes.rejected
      · cases state with
        | pending fs rs =>
            refine ⟨by simpa only [step, Agent.performPromiseThen, hd] using keeps s.jobs _, ?_⟩
            simpa [attachedBy, enqueuedBy, keptJobs, step, Agent.performPromiseThen, hd, hp,
              Ne.symm hp, Agent.setPromise] using Changes.same
        | fulfilled _ | rejected _ =>
            refine ⟨by simpa only [step, Agent.performPromiseThen, hd, Agent.enqueue] using keeps _ _, ?_⟩
            simpa [attachedBy, enqueuedBy, keptJobs, step, Agent.performPromiseThen, hd, hp,
              Ne.symm hp, Agent.setPromise, Agent.enqueue, reactionFor] using Changes.same

theorem account_step (hs : Sound s) (action : Action) : Account callable p s action := by
  cases action with
  | newPromise => exact account_newPromise hs
  | attach promise onFulfilled onRejected capability => exact account_attach _ _ _ _
  | createResolvingFunctions promise =>
      exact ((Agent.keeps_createResolvingFunctions promise).settles rfl rfl).account rfl
  | call function argument => exact (Agent.settles_call _ _).account rfl
  | resolve promise value => exact (Agent.settles_resolve _ _).account rfl
  | reject promise reason => exact (Agent.settles_reject _ _).account rfl
  | enter queue =>
      have hk : Keeps s { s with queue := queue } :=
        ⟨fun h => ⟨h.promises, h.resolvers⟩, le_rfl, fun _ _ => rfl, fun _ _ h => h⟩
      exact (hk.settles rfl rfl).account rfl
  | runJob queue =>
      refine Settles.account ?_ rfl
      simp only [step, keptJobs]
      split
      · rename_i hnone
        rw [List.eraseP_of_forall_not fun entry he => List.find?_eq_none.mp hnone entry he]
        exact .refl s
      · exact Agent.settles_startJob _
  | complete completion =>
      refine Settles.account (?_ : Settles p s _) rfl
      cases hf : s.frames with
      | nil =>
          simp only [step, hf]
          exact .refl s
      | cons frame frames =>
          have hk := Agent.keeps_frames (s := s) frames
          simp only [step, hf]
          cases frame with
          | getThen promise resolution =>
              exact hk.then_settles rfl rfl (Agent.settles_resolveWithThen _ _ _ _)
          | handler capability => exact hk.then_settles rfl rfl (Agent.settles_settleCapability _ _)
          | thenable reject =>
              cases completion with
              | ok value => exact hk.settles rfl rfl
              | error error => exact hk.then_settles rfl rfl (Agent.settles_call _ _)

end Steps

/-! Runs. -/

/-- The accounts of `p` so far: nothing is enqueued before it settles, then the
halves of what was attached, in order. -/
def Accounted (attached : List (Reaction × Reaction)) (enqueued : List (Reaction × Value)) :
    Option PromiseData → Prop
  | none => attached = [] ∧ enqueued = []
  | some ⟨.pending fulfillReactions rejectReactions, _⟩ =>
      fulfillReactions = attached.map Prod.fst ∧ rejectReactions = attached.map Prod.snd ∧
        enqueued = []
  | some ⟨.fulfilled value, _⟩ => enqueued = attached.map fun pair => (pair.1, value)
  | some ⟨.rejected reason, _⟩ => enqueued = attached.map fun pair => (pair.2, reason)

theorem Changes.accounted {data data' : Option PromiseData} {before new : List (Reaction × Reaction)}
    {jobs jobs' : List (Reaction × Value)} (h : Changes data new jobs' data')
    (ha : Accounted before jobs data) : Accounted (before ++ new) (jobs ++ jobs') data' := by
  cases h with
  | same => simpa using ha
  | create => simpa [Accounted] using ha
  | fulfill | reject =>
      obtain ⟨hf, hr, hj⟩ := ha
      simp [Accounted, hf, hr, hj, Function.comp_def]
  | wait =>
      obtain ⟨hf, hr, hj⟩ := ha
      simp [Accounted, hf, hr, hj]
  | fulfilled | rejected =>
      simp only [Accounted] at ha
      simp [Accounted, ha]

/-- Neither pending nor absent. -/
def PromiseState.Settled : PromiseState → Prop
  | .pending _ _ => False
  | _ => True

theorem Changes.settled {data' : Option PromiseData} {new : List (Reaction × Reaction)}
    {jobs : List (Reaction × Value)} (h : Changes (some data) new jobs data') (hs : data.state.Settled) :
    ∃ handled, data' = some ⟨data.state, handled⟩ := by
  cases h with
  | same => exact ⟨data.isHandled, rfl⟩
  | fulfill | reject | wait => exact hs.elim
  | fulfilled | rejected => exact ⟨true, rfl⟩

section Runs

variable (callable : Value → Bool)

theorem keeps_run (hs : Sound s) (actions : List Action) : Keeps s (run callable s actions) := by
  induction actions generalizing s with
  | nil => exact .refl s
  | cons action actions ih =>
      have hk : Keeps s (step callable s action) := (account_step (p := 0) hs action).keeps
      exact hk.trans (ih (hk.sound hs))

theorem accounted_run (hs : Sound s) (actions : List Action) {before : List (Reaction × Reaction)}
    {jobs : List (Reaction × Value)} (ha : Accounted before jobs (s.promises p)) :
    Accounted (before ++ attached callable p s actions) (jobs ++ enqueued callable p s actions)
      ((run callable s actions).promises p) := by
  induction actions generalizing s before jobs with
  | nil => simpa [attached, enqueued, run] using ha
  | cons action actions ih =>
      have h : Account callable p s action := account_step hs action
      have hrest := ih (h.keeps.sound hs) (h.changes.accounted ha)
      simpa only [attached, enqueued, run, List.foldl_cons, List.append_assoc] using hrest

theorem settled_run (hs : Sound s) (actions : List Action) {data : PromiseData}
    (hd : s.promises p = some data) (hsettled : data.state.Settled) :
    ∃ handled, (run callable s actions).promises p = some ⟨data.state, handled⟩ := by
  induction actions generalizing s data with
  | nil => exact ⟨data.isHandled, hd⟩
  | cons action actions ih =>
      have h : Account callable p s action := account_step hs action
      have hc := h.changes
      rw [hd] at hc
      obtain ⟨handled, hd'⟩ := hc.settled hsettled
      have hlater := @ih _ (h.keeps.sound hs) ⟨data.state, handled⟩ hd' hsettled
      exact hlater

theorem sound_start : Sound start :=
  ⟨fun _ _ h => absurd h (by simp [start]), fun _ _ h => absurd h (by simp [start])⟩

theorem sound_run (actions : List Action) : Sound (run callable start actions) :=
  (keeps_run callable sound_start actions).sound sound_start

end Runs

namespace Agent

/-- A call of a resolving function sets the flag of its pair. -/
theorem resolved_call {f : ObjId} {resolver : ResolverData} (hs : Sound s)
    (hf : s.resolvers f = some resolver) (value : Value) :
    (s.call (.function f) value).1.resolved resolver.cell = true := by
  have hcell := (hs.resolvers f resolver hf).2
  simp only [call, hf, dispatchResolver]
  split
  · assumption
  · have hset : ∀ u : Agent, Settles 0 { s with resolved := Function.update s.resolved resolver.cell true } u →
        u.resolved resolver.cell = true := fun u hu =>
      hu.resolved resolver.cell hcell (Function.update_self _ _ _)
    split
    · exact hset _ (settles_reject _ _)
    · exact hset _ (settles_resolve _ _)

/-- With its flag set a resolving function does nothing. -/
theorem call_resolved {f : ObjId} {resolver : ResolverData} (hf : s.resolvers f = some resolver)
    (h : s.resolved resolver.cell = true) (value : Value) :
    s.call (.function f) value = (s, .ok ()) := by
  simp only [call, hf, dispatchResolver, h, if_true]

end Agent

/-- The resolving functions `f` and `g` are of one pair. -/
def Pair (s : Agent) (f g : ObjId) : Prop :=
  ∃ resolver resolver', s.resolvers f = some resolver ∧ s.resolvers g = some resolver' ∧
    resolver.cell = resolver'.cell

/-- In every run: a settled promise keeps its state; after a call of one of a
pair, no call of either does anything; and each reaction attached to a promise
has one job, its half for the state, in the order of attachment, and none before
there is a state. -/
theorem settles_once (callable : Value → Bool) (actions : List Action) :
    let s := run callable start actions
    (∀ p data, s.promises p = some data → data.state.Settled → ∀ later, ∃ handled,
      (run callable s later).promises p = some ⟨data.state, handled⟩) ∧
    (∀ f g, Pair s f g → ∀ value later value',
      let t := run callable (s.call (.function f) value).1 later
      t.call (.function f) value' = (t, .ok ()) ∧ t.call (.function g) value' = (t, .ok ())) ∧
    ∀ p, Accounted (attached callable p start actions) (enqueued callable p start actions)
      (s.promises p) := by
  have hs := sound_run callable actions
  refine ⟨fun p data hd hsettled later => settled_run callable hs later hd hsettled,
    fun f g hpair value later value' => ?_, fun p => ?_⟩
  · obtain ⟨resolver, resolver', hf, hg, hcell⟩ := hpair
    have hcall := (Agent.settles_call (p := 0) (s := run callable start actions) (.function f) value).toKeeps
    have hlater := keeps_run callable (hcall.sound hs) later
    have hcells := hs.resolvers f resolver hf
    have hset := hlater.resolved _ (hcells.2.trans_le hcall.fresh) (Agent.resolved_call hs hf value)
    have kept : ∀ id resolver, (run callable start actions).resolvers id = some resolver →
        (run callable ((run callable start actions).call (.function f) value).1 later).resolvers id =
          some resolver := fun id resolver hr =>
      ((hcall.trans hlater).resolvers id (hs.resolvers id resolver hr).1).trans hr
    exact ⟨Agent.call_resolved (kept f resolver hf) hset value',
      Agent.call_resolved (kept g resolver' hg) (hcell ▸ hset) value'⟩
  · have hstart : Accounted [] [] (start.promises p) := ⟨rfl, rfl⟩
    simpa using accounted_run callable sound_start actions hstart

/-- A promise with one reaction, resolved through a pair whose other function is
then called: it stays fulfilled, and its job is the fulfill half. -/
theorem settles_once_resolved :
    let callable := fun _ => false
    let s := run callable start [.newPromise, .createResolvingFunctions (.object 0),
      .attach (.object 0) none none none, .call (.function 1) .null]
    (∀ later, ∃ handled, (run callable s later).promises 0 = some ⟨.fulfilled .null, handled⟩) ∧
    (∀ later, let t := run callable (s.call (.function 1) .null).1 later
      t.call (.function 2) .undefined = (t, .ok ())) ∧
    enqueued callable 0 start [.newPromise, .createResolvingFunctions (.object 0),
      .attach (.object 0) none none none, .call (.function 1) .null] =
        [(⟨none, .fulfill, none⟩, .null)] := by
  have h := settles_once (fun _ => false) [.newPromise, .createResolvingFunctions (.object 0),
    .attach (.object 0) none none none, .call (.function 1) .null]
  refine ⟨fun later => h.1 0 ⟨.fulfilled .null, true⟩ rfl trivial later, fun later => ?_, h.2.2 0⟩
  exact (h.2.1 1 2 ⟨_, _, rfl, rfl, rfl⟩ .null later .undefined).2

end Slag.Promise
