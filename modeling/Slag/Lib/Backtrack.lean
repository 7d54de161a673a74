import Mathlib.Data.List.Basic

/-!
Machines that search with a stack of tasks and a stack of choice points. A
task that fails makes the machine pop a choice; an empty task stack is a
success. `Emits` says which results the machine hands to the tasks below a
given stack, in order, if each of them is made to fail.
-/

namespace Slag.Backtrack

/-- The forward path, the choice points and the store they work on. -/
structure Config (τ κ σ : Type) where
  tasks : List τ
  choices : List κ
  store : σ

/-- `dispatch` runs a popped task and says whether it succeeded; `restore`
resumes a popped choice. -/
structure Backtracker (τ κ σ : Type) where
  dispatch : τ → Config τ κ σ → Bool × Config τ κ σ
  restore : κ → Config τ κ σ → Config τ κ σ

/-- The machine is about to pop a task, or has just failed. -/
inductive State (τ κ σ : Type) where
  | running (c : Config τ κ σ)
  | failing (c : Config τ κ σ)

variable {τ κ σ ω : Type}

namespace Backtracker

/-- One move; none when a running machine is out of tasks or a failing one out of choices. -/
def step (B : Backtracker τ κ σ) : State τ κ σ → Option (State τ κ σ)
  | .running c =>
      match c.tasks with
      | [] => none
      | task :: tasks =>
          match B.dispatch task { c with tasks := tasks } with
          | (true, next) => some (.running next)
          | (false, next) => some (.failing next)
  | .failing c =>
      match c.choices with
      | [] => none
      | choice :: choices => some (.running (B.restore choice { c with choices := choices }))

/-- The way a search ended, with the configuration it ended in. -/
inductive Answer (τ κ σ : Type) where
  | exhausted (c : Config τ κ σ)
  | failed (c : Config τ κ σ)
  | matched (c : Config τ κ σ)

/-- What a failed machine does: give up, or go on from the last choice. -/
def resume {α : Type*} (B : Backtracker τ κ σ) (stop go : Config τ κ σ → α)
    (c : Config τ κ σ) : α :=
  match c.choices with
  | [] => stop c
  | choice :: choices => go (B.restore choice { c with choices := choices })

/-- The driving loop, with a budget of tasks and of pending choices. -/
def run (B : Backtracker τ κ σ) (choiceLimit : Nat) : Nat → Config τ κ σ → Answer τ κ σ
  | 0, c => .exhausted c
  | budget + 1, c =>
      if choiceLimit < c.choices.length then .exhausted c
      else
        match c.tasks with
        | [] => .matched c
        | task :: tasks =>
            match B.dispatch task { c with tasks := tasks } with
            | (true, next) => run B choiceLimit budget next
            | (false, next) => B.resume .failed (run B choiceLimit budget) next

/-- The loop meets none of the `bad` configurations. -/
def avoids (B : Backtracker τ κ σ) (choiceLimit : Nat) (bad : Config τ κ σ → Bool) :
    Nat → Config τ κ σ → Bool
  | 0, _ => true
  | budget + 1, c =>
      decide (choiceLimit < c.choices.length) ||
        !bad c &&
          match c.tasks with
          | [] => true
          | task :: tasks =>
              match B.dispatch task { c with tasks := tasks } with
              | (true, next) => avoids B choiceLimit bad budget next
              | (false, next) => B.resume (fun _ => true) (avoids B choiceLimit bad budget) next

/-- Every result of a search, each success made to fail; none when the fuel is out. -/
def enumerate (B : Backtracker τ κ σ) (view : σ → ω) : Nat → State τ κ σ → Option (List ω)
  | 0, _ => none
  | fuel + 1, x =>
      match B.step x, x with
      | some y, _ => enumerate B view fuel y
      | none, .running c => (enumerate B view fuel (.failing c)).map fun results =>
          view c.store :: results
      | none, .failing _ => some []

end Backtracker

/-- How the results of a search are read: what a store stands for, which later
stores a choice point can still be restored from, and which configurations the
search is not followed beyond. -/
structure Reading (τ κ σ ω : Type) where
  stands : σ → ω → Prop
  extend : σ → σ → Prop
  bad : Config τ κ σ → Bool
  refl : ∀ s, extend s s
  trans : ∀ {a b c}, extend a b → extend b c → extend a c

/-- From a state the machine hands the results of a list to the tasks `T`, one
after the other as each is made to fail, and at last fails down to the choices
`C`; stores stay restorable from `base`. -/
inductive Emits (B : Backtracker τ κ σ) (R : Reading τ κ σ ω) (T : List τ) (C : List κ)
    (base : σ) : State τ κ σ → List ω → Prop
  | step {x y : State τ κ σ} {results : List ω} :
      B.step x = some y →
      Emits B R T C base y results → Emits B R T C base x results
  | bad {c : Config τ κ σ} {results : List ω} :
      R.bad c = true → Emits B R T C base (.running c) results
  | nil {c : Config τ κ σ} :
      c.choices = C → R.extend base c.store → Emits B R T C base (.failing c) []
  | cons {c : Config τ κ σ} {D : List κ} {result : ω} {results : List ω} :
      c.tasks = T → c.choices = D ++ C → R.extend base c.store → R.stands c.store result →
      (∀ d : Config τ κ σ, d.choices = D ++ C → R.extend c.store d.store →
        Emits B R T C base (.failing d) results) →
      Emits B R T C base (.running c) (result :: results)

variable {c : Config τ κ σ} {view : σ → ω}

namespace Emits

variable {B : Backtracker τ κ σ} {R : Reading τ κ σ ω} {T : List τ} {C D : List κ}
  {base mid : σ} {x : State τ κ σ} {results more : List ω} {task : τ}

/-- A task that succeeds. -/
theorem succeed {tasks : List τ} {choices : List κ} {s : σ} {next : Config τ κ σ}
    (hd : B.dispatch task ⟨tasks, choices, s⟩ = (true, next))
    (h : Emits B R T C base (.running next) results) :
    Emits B R T C base (.running ⟨task :: tasks, choices, s⟩) results := by
  refine .step ?_ h
  simp only [Backtracker.step, hd]

/-- A task that fails. -/
theorem fail {tasks : List τ} {choices : List κ} {s : σ} {next : Config τ κ σ}
    (hd : B.dispatch task ⟨tasks, choices, s⟩ = (false, next))
    (h : Emits B R T C base (.failing next) results) :
    Emits B R T C base (.running ⟨task :: tasks, choices, s⟩) results := by
  refine .step ?_ h
  simp only [Backtracker.step, hd]

theorem pop {choice : κ} {choices : List κ} (hc : c.choices = choice :: choices)
    (h : Emits B R T C base (.running (B.restore choice { c with choices := choices })) results) :
    Emits B R T C base (.failing c) results := by
  refine .step ?_ h
  simp only [Backtracker.step, hc]

/-- The tasks below are reached at once, with nothing left to try. -/
theorem done {s : σ} {result : ω} (hb : R.extend base s) (hr : R.stands s result) :
    Emits B R T C base (.running ⟨T, C, s⟩) [result] :=
  .cons rfl (List.nil_append C).symm hb hr fun _ hd he => .nil hd (R.trans hb he)

theorem weaken (h : Emits B R T C mid x results) (hb : R.extend base mid) :
    Emits B R T C base x results := by
  induction h with
  | step hs _ ih => exact .step hs ih
  | bad hbad => exact .bad hbad
  | nil hc he => exact .nil hc (R.trans hb he)
  | cons ht hc he hr _ ih => exact .cons ht hc (R.trans hb he) hr ih

/-- A reading that stops at more configurations. -/
theorem mono {R' : Reading τ κ σ ω} (hstands : ∀ s w, R.stands s w → R'.stands s w)
    (hextend : ∀ a b, R'.extend a b ↔ R.extend a b) (hbad : ∀ c, R.bad c = true → R'.bad c = true)
    (h : Emits B R T C base x results) : Emits B R' T C base x results := by
  induction h with
  | step hs _ ih => exact .step hs ih
  | bad hb => exact .bad (hbad _ hb)
  | nil hc he => exact .nil hc ((hextend _ _).mpr he)
  | cons ht hc he hr _ ih =>
      exact .cons ht hc ((hextend _ _).mpr he) (hstands _ _ hr) fun d hd hext =>
        ih d hd ((hextend _ _).mp hext)

/-- A search of which only the first result counts. -/
theorem commit {ω' : Type} {R' : Reading τ κ σ ω'} {T' : List τ} {C' : List κ} {base' : σ}
    {inner : List ω'} (h : Emits B R' T' C' base' x inner) (hbad : ∀ c, R'.bad c = true → R.bad c = true)
    (hnil : inner = [] → ∀ d : Config τ κ σ, d.choices = C' → R'.extend base' d.store →
      Emits B R T C base (.failing d) results)
    (hcons : ∀ first rest, inner = first :: rest → ∀ (s : σ) (E : List κ),
      R'.extend base' s → R'.stands s first →
      Emits B R T C base (.running ⟨T', E ++ C', s⟩) results) :
    Emits B R T C base x results := by
  induction h with
  | step hs _ ih => exact .step hs (ih hnil hcons)
  | bad hb => exact .bad (hbad _ hb)
  | nil hc he => exact hnil rfl _ hc he
  | @cons c E first rest ht hc he hr _ _ =>
      obtain ⟨tasks, choices, s⟩ := c
      subst ht hc
      exact hcons first rest rfl s E he hr

/-- A search that fails down to `D ++ C` goes on with what lies there. -/
theorem append (h : Emits B R T (D ++ C) mid x results) (hb : R.extend base mid)
    (hmore : ∀ d : Config τ κ σ, d.choices = D ++ C → R.extend mid d.store →
      Emits B R T C base (.failing d) more) :
    Emits B R T C base x (results ++ more) := by
  induction h with
  | step hs _ ih => exact .step hs ih
  | bad hbad => exact .bad hbad
  | nil hc he => exact hmore _ hc he
  | @cons c E result results ht hc he hr _ ih =>
      rw [← List.append_assoc] at hc
      refine .cons ht hc (R.trans hb he) hr fun d hd hext => ?_
      rw [List.append_assoc] at hd
      exact ih d hd hext

/-- The results that reach a task are handed on to it one by one. -/
theorem bind {f : ω → List ω} (h : Emits B R (task :: T) C base x results)
    (hf : ∀ (s : σ) (E : List κ), ∀ result ∈ results, R.extend base s → R.stands s result →
      Emits B R T (E ++ C) s (.running ⟨task :: T, E ++ C, s⟩) (f result)) :
    Emits B R T C base x (results.flatMap f) := by
  induction h with
  | step hs _ ih => exact .step hs (ih hf)
  | bad hbad => exact .bad hbad
  | nil hc he => exact .nil hc he
  | @cons c E result results ht hc he hr _ ih =>
      obtain ⟨tasks, choices, s⟩ := c
      subst ht hc
      rw [List.flatMap_cons]
      refine append (hf s E result List.mem_cons_self he hr) he fun d hd hext => ?_
      exact ih d hd hext fun s' E' r hmem => hf s' E' r (List.mem_cons_of_mem _ hmem)

/-- Choices that lie on top of `C` are taken one after the other. -/
theorem alternatives {f : κ → List ω} {choices : List κ}
    (hf : ∀ choice ∈ choices, ∀ (E : List κ) (d : Config τ κ σ), R.extend base d.store →
      Emits B R T (E ++ C) base (.running (B.restore choice { d with choices := E ++ C }))
        (f choice)) (d : Config τ κ σ) (hd : d.choices = choices ++ C)
    (he : R.extend base d.store) :
    Emits B R T C base (.failing d) (choices.flatMap f) := by
  induction choices generalizing d with
  | nil => exact .nil hd he
  | cons choice choices ih =>
      rw [List.flatMap_cons]
      refine pop hd ?_
      refine append (hf choice List.mem_cons_self choices d he) (R.refl base) ?_
      exact fun d' hd' he' => ih (fun k hk => hf k (List.mem_cons_of_mem _ hk)) d' hd' he'

end Emits

/-- What the answer of a search has to be, given the results it would emit. -/
def Answers (R : Reading τ κ σ ω) (results : List ω) : Backtracker.Answer τ κ σ → Prop
  | .exhausted _ => True
  | .failed _ => results = []
  | .matched c => ∃ result rest, results = result :: rest ∧ R.stands c.store result

variable {B : Backtracker τ κ σ} {R : Reading τ κ σ ω}

variable {x : State τ κ σ} {results : List ω}

/-- The first result a whole search emits is the answer of the driving loop. -/
theorem answers_of_emits {base : σ} {limit : Nat} (h : Emits B R [] [] base x results) (budget : Nat) :
    match x with
    | .running c => B.avoids limit R.bad budget c = true →
        Answers R results (B.run limit budget c)
    | .failing c => B.resume (fun _ => true) (B.avoids limit R.bad budget) c = true →
        Answers R results (B.resume .failed (B.run limit budget) c) := by
  induction h generalizing budget with
  | bad hbad =>
      intro ha
      cases budget with
      | zero => trivial
      | succ budget =>
          simp only [Backtracker.avoids, hbad, Bool.not_true, Bool.false_and, Bool.or_false,
            decide_eq_true_eq] at ha
          simp only [Backtracker.run, if_pos ha, Answers]
  | nil hc he =>
      intro _
      simp only [Backtracker.resume, hc, Answers]
  | cons ht hc he hr _ _ =>
      intro _
      cases budget with
      | zero => trivial
      | succ budget =>
          simp only [Backtracker.run, ht]
          split
          · trivial
          · exact ⟨_, _, rfl, hr⟩
  | @step x y results hs _ ih =>
      cases x with
      | failing c =>
          intro ha
          cases hc : c.choices with
          | nil => simp only [Backtracker.step, hc] at hs; cases hs
          | cons choice choices =>
              simp only [Backtracker.step, hc, Option.some.injEq] at hs
              subst hs
              simp only [Backtracker.resume, hc] at ha ⊢
              exact ih budget ha
      | running c =>
          intro ha
          cases budget with
          | zero => trivial
          | succ budget =>
              simp only [Backtracker.run]
              split
              · trivial
              · rename_i hlimit
                cases hc : c.tasks with
                | nil => simp only [Backtracker.step, hc] at hs; cases hs
                | cons task tasks =>
                    simp only [Backtracker.step, hc] at hs
                    simp only [Backtracker.avoids, decide_eq_false hlimit, Bool.false_or,
                      Bool.and_eq_true, hc] at ha
                    replace ha := ha.2
                    cases hd : B.dispatch task { c with tasks := tasks } with
                    | mk ok next =>
                        simp only [hd] at hs ha ⊢
                        cases ok <;> cases hs <;> exact ih budget ha

/-- A whole search enumerates what it emits. -/
theorem enumerate_of_emits {base : σ} (h : Emits B R [] [] base x results) (hbad : ∀ c, R.bad c = false)
    (hview : ∀ s w, R.stands s w → view s = w) :
    ∃ fuel, B.enumerate view fuel x = some results := by
  induction h with
  | bad hb => rw [hbad] at hb; cases hb
  | nil hc he =>
      refine ⟨1, ?_⟩
      simp only [Backtracker.enumerate, Backtracker.step, hc]
  | @cons c D result results ht hc he hr _ ih =>
      obtain ⟨fuel, hfuel⟩ := ih c hc (R.refl _)
      refine ⟨fuel + 1, ?_⟩
      simp only [Backtracker.enumerate, Backtracker.step, ht, hfuel, Option.map_some,
        hview _ _ hr]
  | step hs _ ih =>
      obtain ⟨fuel, hfuel⟩ := ih
      refine ⟨fuel + 1, ?_⟩
      simp only [Backtracker.enumerate, hs, hfuel]

theorem enumerate_succ {fuel : Nat} (h : B.enumerate view fuel x = some results) :
    B.enumerate view (fuel + 1) x = some results := by
  induction fuel generalizing x results with
  | zero => cases h
  | succ fuel ih =>
      cases hs : B.step x with
      | some y =>
          simp only [Backtracker.enumerate, hs] at h ⊢
          exact ih h
      | none =>
          cases x with
          | failing c =>
              simp only [Backtracker.enumerate, hs] at h ⊢
              exact h
          | running c =>
              simp only [Backtracker.enumerate, hs] at h
              obtain ⟨rest, hrest, rfl⟩ := Option.map_eq_some_iff.mp h
              have hnext := ih hrest
              rw [Backtracker.enumerate.eq_def]
              simp only [hs, hnext, Option.map_some]

theorem enumerate_le {fuel fuel' : Nat} (h : B.enumerate view fuel x = some results)
    (hle : fuel ≤ fuel') :
    B.enumerate view fuel' x = some results := by
  induction hle with
  | refl => exact h
  | step _ ih => exact enumerate_succ ih

/-- The results of a search do not depend on the fuel. -/
theorem enumerate_unique {fuel fuel' : Nat} {results results' : List ω}
    (h : B.enumerate view fuel x = some results) (h' : B.enumerate view fuel' x = some results') :
    results = results' := by
  have hmax := enumerate_le h (Nat.le_max_left fuel fuel')
  rw [enumerate_le h' (Nat.le_max_right fuel fuel')] at hmax
  exact (Option.some.inj hmax).symm

/-- The choice points that are left. -/
def State.choices : State τ κ σ → List κ
  | .running c | .failing c => c.choices

/-- The machine has yet to give up what it had beyond `n` choices. -/
def State.Above (n : Nat) : State τ κ σ → Prop
  | .running c => n ≤ c.choices.length
  | .failing c => n < c.choices.length

/-- A run that stays above `n` choices until it stops. -/
inductive Descends (B : Backtracker τ κ σ) (n : Nat) : State τ κ σ → State τ κ σ → Prop
  | refl (x : State τ κ σ) : Descends B n x x
  | step {x y z : State τ κ σ} (h : x.Above n) (hs : B.step x = some y)
      (hrest : Descends B n y z) : Descends B n x z

namespace Descends

variable {B : Backtracker τ κ σ} {n n' : Nat} {x y z : State τ κ σ}

theorem trans (h : Descends B n x y) (h' : Descends B n y z) : Descends B n x z := by
  induction h with
  | refl => exact h'
  | step habove hs _ ih => exact .step habove hs (ih h')

theorem snoc (h : Descends B n x y) (habove : y.Above n) (hs : B.step y = some z) :
    Descends B n x z :=
  h.trans (.step habove hs (.refl z))

theorem mono (h : Descends B n x y) (hle : n' ≤ n) : Descends B n' x y := by
  induction h with
  | refl => exact .refl _
  | @step x y z habove hs _ ih =>
      refine .step ?_ hs ih
      cases x with
      | running c => exact Nat.le_trans hle habove
      | failing c => exact Nat.lt_of_le_of_lt hle habove

theorem le_choices (h : Descends B n x y) (hy : n ≤ y.choices.length) : n ≤ x.choices.length := by
  cases h with
  | refl => exact hy
  | step habove hs hrest =>
      cases x with
      | running c => exact habove
      | failing c => exact Nat.le_of_lt habove

end Descends

def Backtracker.Answer.isExhausted : Backtracker.Answer τ κ σ → Bool
  | .exhausted _ => true
  | _ => false

/-- How a search ends when it has no budget to keep. -/
inductive Ends (B : Backtracker τ κ σ) : State τ κ σ → Backtracker.Answer τ κ σ → Prop
  | matched {c : Config τ κ σ} : c.tasks = [] → Ends B (.running c) (.matched c)
  | failed {c : Config τ κ σ} : c.choices = [] → Ends B (.failing c) (.failed c)
  | step {x y : State τ κ σ} {a : Backtracker.Answer τ κ σ} :
      B.step x = some y → Ends B y a → Ends B x a

namespace Ends

variable {B : Backtracker τ κ σ} {n : Nat} {x y : State τ κ σ} {a b : Backtracker.Answer τ κ σ}

theorem of_descends (hrun : Descends B n x y) (h : Ends B y a) : Ends B x a := by
  induction hrun with
  | refl => exact h
  | step _ hs _ ih => exact .step hs (ih h)

theorem unique (h : Ends B x a) (h' : Ends B x b) : a = b := by
  induction h with
  | matched hc =>
      cases h' with
      | matched => rfl
      | step hs _ =>
          simp only [Backtracker.step, hc] at hs
          cases hs
  | failed hc =>
      cases h' with
      | failed => rfl
      | step hs _ =>
          simp only [Backtracker.step, hc] at hs
          cases hs
  | step hs _ ih =>
      cases h' with
      | matched hc =>
          simp only [Backtracker.step, hc] at hs
          cases hs
      | failed hc =>
          simp only [Backtracker.step, hc] at hs
          cases hs
      | step hs' h' =>
          obtain rfl := Option.some.inj (hs.symm.trans hs')
          exact ih h'

/-- The driving loop, where it keeps its budget, ends like the search without one. -/
theorem of_run {limit : Nat} (budget : Nat) (hends : (B.run limit budget c).isExhausted = false) :
    Ends B (.running c) (B.run limit budget c) := by
  induction budget generalizing c with
  | zero => cases hends
  | succ budget ih =>
      rw [Backtracker.run] at hends ⊢
      split at hends
      · cases hends
      · rename_i hlimit
        rw [if_neg hlimit]
        cases hc : c.tasks with
        | nil => exact .matched hc
        | cons task tasks =>
            simp only [hc] at hends ⊢
            cases hd : B.dispatch task { c with tasks := tasks } with
            | mk ok next =>
                simp only [hd] at hends ⊢
                cases ok with
                | true =>
                    refine .step ?_ (ih hends)
                    simp only [Backtracker.step, hc, hd]
                | false =>
                    have hs : B.step (.running c) = some (.failing next) := by
                      simp only [Backtracker.step, hc, hd]
                    refine .step hs ?_
                    dsimp only [Backtracker.resume] at hends ⊢
                    cases hk : next.choices with
                    | nil => exact .failed hk
                    | cons k choices =>
                        simp only [hk] at hends ⊢
                        refine .step ?_ (ih hends)
                        simp only [Backtracker.step, hk]

end Ends

/-- A view of the configurations under which the machine moves in the same way,
as long as `inv` holds. -/
structure Projection (B : Backtracker τ κ σ) (inv : Config τ κ σ → Prop) where
  task : τ → τ
  choice : κ → κ
  store : σ → σ

namespace Projection

variable {B : Backtracker τ κ σ} {inv : Config τ κ σ → Prop}

def config (F : Projection B inv) (c : Config τ κ σ) : Config τ κ σ :=
  ⟨c.tasks.map F.task, c.choices.map F.choice, F.store c.store⟩

def answer (F : Projection B inv) : Backtracker.Answer τ κ σ → Backtracker.Answer τ κ σ
  | .exhausted c => .exhausted (F.config c)
  | .failed c => .failed (F.config c)
  | .matched c => .matched (F.config c)

structure Lawful (F : Projection B inv) : Prop where
  dispatch : ∀ task T C s, inv ⟨task :: T, C, s⟩ →
    B.dispatch (F.task task) (F.config ⟨T, C, s⟩) =
      ((B.dispatch task ⟨T, C, s⟩).1, F.config (B.dispatch task ⟨T, C, s⟩).2)
  restore : ∀ choice c, B.restore (F.choice choice) (F.config c) = F.config (B.restore choice c)
  kept : ∀ task T C s, inv ⟨task :: T, C, s⟩ → inv (B.dispatch task ⟨T, C, s⟩).2
  resumed : ∀ c choice C, inv c → c.choices = choice :: C → inv (B.restore choice { c with choices := C })

/-- The view of a run is the run of the view, budget included. -/
theorem Lawful.run {F : Projection B inv} (h : F.Lawful) (limit budget : Nat) (hc : inv c) :
    B.run limit budget (F.config c) = F.answer (B.run limit budget c) := by
  induction budget generalizing c with
  | zero => rfl
  | succ budget ih =>
      obtain ⟨T, C, s⟩ := c
      simp only [Backtracker.run, config, List.length_map]
      by_cases hlimit : limit < C.length
      · rw [if_pos hlimit, if_pos hlimit]
        rfl
      · rw [if_neg hlimit, if_neg hlimit]
        cases T with
        | nil => rfl
        | cons task T =>
            have hdispatch := h.dispatch task T C s hc
            have hkept := h.kept task T C s hc
            simp only [config] at hdispatch
            simp only [List.map_cons, hdispatch]
            generalize B.dispatch task ⟨T, C, s⟩ = r at hkept
            obtain ⟨ok, T', C', s'⟩ := r
            cases ok with
            | true => exact ih hkept
            | false =>
                cases C' with
                | nil => rfl
                | cons choice C' =>
                    have hrestore := h.restore choice ⟨T', C', s'⟩
                    simp only [config] at hrestore
                    simp only [Backtracker.resume, List.map_cons, hrestore]
                    exact ih (h.resumed _ choice C' hkept rfl)

end Projection

end Slag.Backtrack
