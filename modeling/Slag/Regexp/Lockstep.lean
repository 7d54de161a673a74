import Slag.Regexp.Agreement

/-!
Two runs of the matcher without memo, from configurations whose waiting tasks
agree, take the same course whatever the captures are: they stay in lockstep
until one of them leaves the tasks or the choices they began with.
-/

namespace Slag.Regexp

open Slag.Backtrack

namespace Ctx

variable {ctx : Ctx} {dir : Direction} {loop : Loop} {p q n n' : Nat}

theorem Moves.refl (ctx : Ctx) (dir : Direction) (p : Nat) : ctx.Moves dir p p :=
  .inl rfl

theorem Moves.remaining_le (h : ctx.Moves dir p q) : ctx.remaining dir q ≤ ctx.remaining dir p := by
  rcases h with rfl | h
  · exact Nat.le_refl _
  · exact Nat.le_of_lt h

theorem withinMax_mono (h : ctx.withinMax dir loop p n = true)
    (hle : n' + ctx.remaining dir q ≤ n + ctx.remaining dir p) :
    ctx.withinMax dir loop q n' = true := by
  simp only [withinMax, Bool.and_eq_true, decide_eq_true_eq, Option.all_eq_true] at h ⊢
  refine ⟨by omega, fun most hm => ?_⟩
  have := h.2 most hm
  omega

theorem countsAgree_mono (h : ctx.countsAgree dir loop p n n' = true) (hmove : ctx.Moves dir p q) :
    ctx.countsAgree dir loop q n n' = true := by
  have hle := hmove.remaining_le
  simp only [countsAgree, boundsAgree, Bool.or_eq_true, Bool.and_eq_true] at h ⊢
  rcases h with h | ⟨hmin, h | ⟨h, h'⟩⟩
  · exact .inl h
  · exact .inr ⟨hmin, .inl h⟩
  · exact .inr ⟨hmin, .inr ⟨withinMax_mono h (by omega), withinMax_mono h' (by omega)⟩⟩

theorem bothBehind_mono {strict strict' : Bool} {start start' : Nat}
    (h : ctx.bothBehind dir p strict start start' = true) (hmove : ctx.Moves dir p q)
    (hstrict : strict = true → strict' = true ∨ ctx.remaining dir q < ctx.remaining dir p) :
    ctx.bothBehind dir q strict' start start' = true := by
  have hle := hmove.remaining_le
  cases strict with
  | false =>
      simp only [bothBehind, Bool.false_eq_true, if_false, Bool.and_eq_true,
        decide_eq_true_eq] at h
      cases strict' with
      | false =>
          simp only [bothBehind, Bool.false_eq_true, if_false, Bool.and_eq_true,
            decide_eq_true_eq]
          omega
      | true =>
          simp only [bothBehind, if_true, Bool.and_eq_true, decide_eq_true_eq]
          exact ⟨.inr (by omega), .inr (by omega)⟩
  | true =>
      simp only [bothBehind, if_true, Bool.and_eq_true, decide_eq_true_eq] at h
      have hs := h.1.remaining_le
      have hs' := h.2.remaining_le
      cases strict' with
      | true =>
          simp only [bothBehind, if_true, Bool.and_eq_true, decide_eq_true_eq]
          exact ⟨h.1.trans hmove, h.2.trans hmove⟩
      | false =>
          have hlt := (hstrict rfl).resolve_left Bool.false_ne_true
          simp only [bothBehind, Bool.false_eq_true, if_false, Bool.and_eq_true,
            decide_eq_true_eq]
          omega

theorem iterationsAgree_mono {strict strict' : Bool} {start start' : Nat}
    (h : ctx.iterationsAgree dir p strict loop n start n' start' = true)
    (hmove : ctx.Moves dir p q)
    (hstrict : strict = true → strict' = true ∨ ctx.remaining dir q < ctx.remaining dir p) :
    ctx.iterationsAgree dir q strict' loop n start n' start' = true := by
  simp only [iterationsAgree, Bool.or_eq_true, Bool.and_eq_true, decide_eq_true_eq] at h ⊢
  rcases h with ⟨hb, hn⟩ | ⟨⟨hs, hm⟩, hn⟩
  · exact .inl ⟨bothBehind_mono hb hmove hstrict, hn⟩
  · exact .inr ⟨⟨hs, hm.trans hmove⟩, hn⟩

end Ctx

namespace Matcher

/-- What `taskAgrees` decides, one case for each task that can wait. -/
inductive TaskAgrees (m : Matcher) (free : Bool) (dir : Direction) (pos : Nat) (strict : Bool) :
    Task → Task → Prop
  | node (ref : NodeRef) (hfree : free = true → ref.node.isBackrefFree = true) :
      TaskAgrees m free dir pos strict (.node ref) (.node ref)
  | seqElem (addr : List Nat) (nodes : List Node) (index : Nat)
      (hfree : free = true → Node.isBackrefFreeSeq nodes = true) :
      TaskAgrees m free dir pos strict (.seqElem addr nodes index) (.seqElem addr nodes index)
  | captureClose (index start start' : Nat) :
      TaskAgrees m free dir pos strict (.captureClose index start) (.captureClose index start')
  | greedyRepeat (loop : Loop) (n n' : Nat)
      (hfree : free = true → loop.node.node.isBackrefFree = true)
      (hn : n = 0 ∧ n' = 0 ∨ m.atomOf loop = none ∧ m.ctx.countsAgree dir loop pos n n' = true) :
      TaskAgrees m free dir pos strict (.greedyRepeat loop n) (.greedyRepeat loop n')
  | lazyRepeat (loop : Loop) (n n' : Nat)
      (hfree : free = true → loop.node.node.isBackrefFree = true)
      (hn : m.ctx.countsAgree dir loop pos n n' = true) :
      TaskAgrees m free dir pos strict (.lazyRepeat loop n) (.lazyRepeat loop n')
  | repeatIterDone (loop : Loop) (greedy : Bool) (n start n' start' : Nat)
      (hfree : free = true → loop.node.node.isBackrefFree = true)
      (hatom : greedy = true → m.atomOf loop = none)
      (hn : m.ctx.iterationsAgree dir pos strict loop n start n' start' = true) :
      TaskAgrees m free dir pos strict (.repeatIterDone loop greedy n start)
        (.repeatIterDone loop greedy n' start')
  | repeatDone (min n min' n' : Nat) (h : min ≤ n ↔ min' ≤ n') :
      TaskAgrees m free dir pos strict (.repeatDone min n) (.repeatDone min' n')
  | lazyIterate (loop : Loop) (n n' : Nat)
      (hfree : free = true → loop.node.node.isBackrefFree = true)
      (hn : m.ctx.countsAgree dir loop pos n n' = true) :
      TaskAgrees m free dir pos strict (.lazyIterate loop n) (.lazyIterate loop n')

variable {m : Matcher} {free strict strict' : Bool} {dir : Direction} {pos q : Nat}
  {task task' : Task}

theorem taskAgrees_sound (h : m.taskAgrees free dir pos strict task task' = true) :
    TaskAgrees m free dir pos strict task task' := by
  have hfree : ∀ {b : Bool}, (!free || b) = true → free = true → b = true := by
    rintro b hb rfl
    simpa using hb
  cases task <;> cases task' <;> try cases h
  case node.node ref ref' =>
    simp only [taskAgrees, Bool.and_eq_true, decide_eq_true_eq] at h
    obtain ⟨rfl, hb⟩ := h
    exact .node ref (hfree hb)
  case seqElem.seqElem =>
    simp only [taskAgrees, Bool.and_eq_true, decide_eq_true_eq, beq_iff_eq] at h
    obtain ⟨⟨⟨rfl, rfl⟩, rfl⟩, hb⟩ := h
    exact .seqElem _ _ _ (hfree hb)
  case captureClose.captureClose =>
    simp only [taskAgrees, beq_iff_eq] at h
    subst h
    exact .captureClose _ _ _
  case greedyRepeat.greedyRepeat =>
    simp only [taskAgrees, Bool.and_eq_true, decide_eq_true_eq, Bool.or_eq_true, beq_iff_eq,
      Option.isNone_iff_eq_none] at h
    obtain ⟨⟨rfl, hb⟩, hn⟩ := h
    exact .greedyRepeat _ _ _ (hfree (by simpa using hb)) hn
  case lazyRepeat.lazyRepeat =>
    simp only [taskAgrees, Bool.and_eq_true, decide_eq_true_eq] at h
    obtain ⟨⟨rfl, hb⟩, hn⟩ := h
    exact .lazyRepeat _ _ _ (hfree hb) hn
  case repeatIterDone.repeatIterDone =>
    simp only [taskAgrees, Bool.and_eq_true, decide_eq_true_eq, beq_iff_eq] at h
    obtain ⟨⟨⟨⟨rfl, rfl⟩, hb⟩, hatom⟩, hn⟩ := h
    refine .repeatIterDone _ _ _ _ _ _ (hfree hb) (fun hg => ?_) hn
    subst hg
    simpa using hatom
  case repeatDone.repeatDone =>
    simp only [taskAgrees, beq_iff_eq, decide_eq_decide] at h
    exact .repeatDone _ _ _ _ h
  case lazyIterate.lazyIterate =>
    simp only [taskAgrees, Bool.and_eq_true, decide_eq_true_eq] at h
    obtain ⟨⟨rfl, hb⟩, hn⟩ := h
    exact .lazyIterate _ _ _ (hfree hb) hn

theorem TaskAgrees.mono (h : TaskAgrees m free dir pos strict task task')
    (hmove : m.ctx.Moves dir pos q)
    (hstrict : strict = true → strict' = true ∨ m.ctx.remaining dir q < m.ctx.remaining dir pos) :
    TaskAgrees m free dir q strict' task task' := by
  cases h with
  | node ref hfree => exact .node ref hfree
  | seqElem addr nodes index hfree => exact .seqElem addr nodes index hfree
  | captureClose index start start' => exact .captureClose index start start'
  | greedyRepeat loop n n' hfree hn =>
      refine .greedyRepeat loop n n' hfree ?_
      rcases hn with hn | ⟨hatom, hn⟩
      · exact .inl hn
      · exact .inr ⟨hatom, Ctx.countsAgree_mono hn hmove⟩
  | lazyRepeat loop n n' hfree hn =>
      exact .lazyRepeat loop n n' hfree (Ctx.countsAgree_mono hn hmove)
  | repeatIterDone loop greedy n start n' start' hfree hatom hn =>
      exact .repeatIterDone loop greedy n start n' start' hfree hatom
        (Ctx.iterationsAgree_mono hn hmove hstrict)
  | repeatDone min n min' n' hn => exact .repeatDone min n min' n' hn
  | lazyIterate loop n n' hfree hn =>
      exact .lazyIterate loop n n' hfree (Ctx.countsAgree_mono hn hmove)

/-- Two runs that are compared: what lies below the tasks and the choices they
began with, the direction they match in, and the captures of the second. -/
structure Comparison where
  matcher : Matcher
  free : Bool
  dir : Direction
  tasks : List Task
  tasks' : List Task
  choices : List Choice
  choices' : List Choice
  caps : Caps
  memo_off : matcher.options.memo = false
  /-- The first run cannot go on below its tasks and keep its choices. -/
  ground : tasks = [] ∨ ∃ negate start outer mark cut rest,
    tasks = .assertDone negate start outer mark cut :: rest ∧ cut < choices.length

variable {F : Comparison} {D D' : List Choice} {T T' : List Task}

/-- The waiting tasks agree down to where the runs began, or to the end of a
lookaround they entered; the choice recorded with that one keeps the rest. -/
inductive PendingAgree (F : Comparison) (D D' : List Choice) (dir : Direction) (pos : Nat) :
    Bool → List Task → List Task → Prop
  | base {strict : Bool} : PendingAgree F D D' dir pos strict F.tasks F.tasks'
  | task {strict : Bool} {task task' : Task} {T T' : List Task}
      (h : TaskAgrees F.matcher F.free dir pos strict task task')
      (hrest : PendingAgree F D D' dir pos (strict || task.mustMove dir) T T') :
      PendingAgree F D D' dir pos strict (task :: T) (task' :: T')
  | assertDone {strict : Bool} {negate : Bool} {start mark mark' cut cut' : Nat}
      {outer : Direction} {T T' : List Task} {E E' L L' : List Choice}
      (hD : D = E ++ ⟨start, mark, T, some (.assertFailed negate start outer)⟩ :: L)
      (hD' : D' = E' ++ ⟨start, mark', T', some (.assertFailed negate start outer)⟩ :: L')
      (hlen : L.length = L'.length) (hcut : cut = (L ++ F.choices).length)
      (hcut' : cut' = (L' ++ F.choices').length) :
      PendingAgree F D D' dir pos strict (.assertDone negate start outer mark cut :: T)
        (.assertDone negate start outer mark' cut' :: T')

/-- The tasks agree; a resumed choice may have put on top a task that never
waits. `mark` is where the second run's undo log stands. -/
inductive TasksAgree (F : Comparison) (D D' : List Choice) (dir : Direction) (pos mark : Nat) :
    List Task → List Task → Prop
  | pending {T T' : List Task} (h : PendingAgree F D D' dir pos false T T') :
      TasksAgree F D D' dir pos mark T T'
  | classAdvance {len : Nat} {T T' : List Task}
      (hmove : F.matcher.ctx.Moves dir pos (Ctx.advance pos dir len))
      (h : PendingAgree F D D' dir pos false T T') :
      TasksAgree F D D' dir pos mark (.classAdvance len :: T) (.classAdvance len :: T')
  | assertFailed {negate : Bool} {start : Nat} {outer : Direction} {T T' : List Task}
      (h : PendingAgree F D D' outer start false T T') :
      TasksAgree F D D' dir pos mark (.assertFailed negate start outer :: T)
        (.assertFailed negate start outer :: T')
  | fastShrink {atom : NodeRef} {consumed : List Nat} {entry oldMark level : Nat} {loop : Loop}
      {T T' : List Task} (h : PendingAgree F D D' dir entry (decide (0 < loop.min)) T T')
      (hlevels : ∀ i, 0 < i → i < level →
        F.matcher.ctx.remaining dir (consumed.getD i 0) < F.matcher.ctx.remaining dir entry) :
      TasksAgree F D D' dir pos mark (.fastShrink atom consumed entry loop oldMark T level :: T)
        (.fastShrink atom consumed entry loop mark T' level :: T')

/-- The direction the choices below were made in: a lookaround that failed has
yet to go back to the outer one. -/
def headDir : List Task → Direction → Direction
  | .assertFailed _ _ outer :: _, _ => outer
  | _, dir => dir

/-- The choices made since agree, and the second run can go back to each. -/
inductive ChoicesAgree (F : Comparison) : Direction → List Choice → List Choice → Prop
  | nil : ChoicesAgree F F.dir [] []
  | cons {dir : Direction} {k k' : Choice} {D D' : List Choice} (hpos : k.pos = k'.pos)
      (htasks : TasksAgree F D D' dir k.pos k'.mark (k.resume.toList ++ k.cont)
        (k'.resume.toList ++ k'.cont))
      (hmark : F.caps.mark ≤ k'.mark) (hbelow : ∀ j ∈ D', j.mark ≤ k'.mark)
      (hrest : ChoicesAgree F (headDir (k.resume.toList ++ k.cont) dir) D D') :
      ChoicesAgree F dir (k :: D) (k' :: D')

/-- The choices can be restored from these captures, and so can the base. -/
def Comparison.Keeps (F : Comparison) (D' : List Choice) (caps : Caps) : Prop :=
  (∀ j ∈ D', j.mark ≤ caps.mark) ∧ F.caps.Extends caps

/-- Two states in lockstep. -/
inductive Locked (F : Comparison) : State Task Choice Store → State Task Choice Store → Prop
  | running {T T' : List Task} {D D' : List Choice} {s s' : Store} (hpos : s.pos = s'.pos)
      (hdir : s.dir = s'.dir)
      (htasks : TasksAgree F D D' s.dir s.pos s'.caps.mark T T')
      (hchoices : ChoicesAgree F (headDir T s.dir) D D') (hkeeps : F.Keeps D' s'.caps) :
      Locked F (.running ⟨T, D ++ F.choices, s⟩) (.running ⟨T', D' ++ F.choices', s'⟩)
  | failing {T T' : List Task} {D D' : List Choice} {s s' : Store} (hdir : s.dir = s'.dir)
      (hchoices : ChoicesAgree F s.dir D D') (hkeeps : F.Keeps D' s'.caps) :
      Locked F (.failing ⟨T, D ++ F.choices, s⟩) (.failing ⟨T', D' ++ F.choices', s'⟩)

theorem PendingAgree.mono (h : PendingAgree F D D' dir pos strict T T')
    (hmove : F.matcher.ctx.Moves dir pos q)
    (hstrict : strict = true →
      strict' = true ∨ F.matcher.ctx.remaining dir q < F.matcher.ctx.remaining dir pos) :
    PendingAgree F D D' dir q strict' T T' := by
  induction h generalizing strict' with
  | base => exact .base
  | assertDone hD hD' hlen hcut hcut' => exact .assertDone hD hD' hlen hcut hcut'
  | @task strict task task' T T' h hrest ih =>
      refine .task (h.mono hmove hstrict) (ih ?_)
      intro hor
      cases hmust : task.mustMove dir with
      | true => exact .inl (Bool.or_true _)
      | false =>
          rw [hmust, Bool.or_false] at hor
          rw [Bool.or_false]
          exact hstrict hor

/-- More choices on top change nothing for the tasks. -/
theorem PendingAgree.push (h : PendingAgree F D D' dir pos strict T T') (K K' : List Choice) :
    PendingAgree F (K ++ D) (K' ++ D') dir pos strict T T' := by
  induction h with
  | base => exact .base
  | task h _ ih => exact .task h ih
  | assertDone hD hD' hlen hcut hcut' =>
      have hKD := (congrArg (K ++ ·) hD).trans (List.append_assoc ..).symm
      have hKD' := (congrArg (K' ++ ·) hD').trans (List.append_assoc ..).symm
      exact .assertDone hKD hKD' hlen hcut hcut'

theorem PendingAgree.reach (h : PendingAgree F D D' dir pos strict T T')
    (hmove : F.matcher.ctx.Moves dir pos q)
    (hstrict : strict = true →
      F.matcher.ctx.remaining dir q < F.matcher.ctx.remaining dir pos) :
    PendingAgree F D D' dir q false T T' :=
  h.mono hmove fun hs => .inr (hstrict hs)

theorem Comparison.Keeps.mono {a b : Caps} (h : F.Keeps D' a) (hext : a.Extends b) :
    F.Keeps D' b :=
  ⟨fun j hj => Nat.le_trans (h.1 j hj) hext.1, h.2.trans hext⟩

theorem ChoicesAgree.length_eq (h : ChoicesAgree F dir D D') : D.length = D'.length := by
  induction h with
  | nil => rfl
  | cons _ _ _ _ _ ih => simp only [List.length_cons, ih]

theorem ChoicesAgree.suffix {E E' : List Choice} (h : ChoicesAgree F dir (E ++ D) (E' ++ D'))
    (hlen : D.length = D'.length) : ∃ dir', ChoicesAgree F dir' D D' := by
  have htotal := h.length_eq
  induction E generalizing E' dir with
  | nil =>
      have hE' : E' = [] := by
        apply List.eq_nil_of_length_eq_zero
        simp only [List.nil_append, List.length_append] at htotal
        omega
      subst hE'
      exact ⟨dir, h⟩
  | cons k E ih =>
      cases E' with
      | nil =>
          simp only [List.cons_append, List.length_cons, List.length_append, List.nil_append] at htotal
          omega
      | cons k' E' =>
          cases h with
          | cons hpos htasks hmark hbelow hrest => exact ih hrest hrest.length_eq

theorem TasksAgree.push {mark : Nat} (h : TasksAgree F D D' dir pos mark T T')
    (K K' : List Choice) : TasksAgree F (K ++ D) (K' ++ D') dir pos mark T T' := by
  cases h with
  | pending h => exact .pending (h.push K K')
  | classAdvance hmove h => exact .classAdvance hmove (h.push K K')
  | assertFailed h => exact .assertFailed (h.push K K')
  | fastShrink h hlevels => exact .fastShrink (h.push K K') hlevels

/-- What is common to two running states apart from their tasks. -/
structure Aligned (F : Comparison) (D D' : List Choice) (s s' : Store) : Prop where
  pos : s.pos = s'.pos
  dir : s.dir = s'.dir
  choices : ChoicesAgree F s.dir D D'
  keeps : F.Keeps D' s'.caps

/-- Two outcomes of a task that keep the lockstep; on top is a task that can wait. -/
def Matched (F : Comparison) (r r' : Bool × Cfg) : Prop :=
  r.1 = r'.1 ∧ Locked F (if r.1 then .running r.2 else .failing r.2)
    (if r'.1 then .running r'.2 else .failing r'.2) ∧
  (r.1 = true → ∃ D D' dir pos, PendingAgree F D D' dir pos false r.2.tasks r'.2.tasks)

variable {s s' t t' : Store}

theorem PendingAgree.headDir (h : PendingAgree F D D' dir pos strict T T') (d : Direction) :
    headDir T d = d := by
  cases h with
  | base =>
      rcases F.ground with hnil | ⟨negate, start, outer, mark, cut, rest, hdone, -⟩
      · rw [hnil]
        rfl
      · rw [hdone]
        rfl
  | task h hrest => cases h <;> rfl
  | assertDone => rfl

theorem Aligned.go (h : Aligned F D D' s s')
    (htasks : PendingAgree F D D' s.dir s.pos false T T') :
    Matched F (true, ⟨T, D ++ F.choices, s⟩) (true, ⟨T', D' ++ F.choices', s'⟩) := by
  refine ⟨rfl, .running h.pos h.dir (.pending htasks) ?_ h.keeps, fun _ => ⟨_, _, _, _, htasks⟩⟩
  rw [htasks.headDir]
  exact h.choices

theorem Aligned.stop (h : Aligned F D D' s s') :
    Matched F (false, ⟨T, D ++ F.choices, s⟩) (false, ⟨T', D' ++ F.choices', s'⟩) :=
  ⟨rfl, .failing h.dir h.choices h.keeps, nofun⟩

theorem Aligned.test (h : Aligned F D D' s s') (hrest : PendingAgree F D D' s.dir s.pos strict T T')
    (hs : strict = false) (b : Bool) :
    Matched F (b, ⟨T, D ++ F.choices, s⟩) (b, ⟨T', D' ++ F.choices', s'⟩) := by
  cases b with
  | false => exact h.stop
  | true => exact h.go (hs ▸ hrest)

theorem Aligned.setPos (h : Aligned F D D' s s') (q : Nat) :
    Aligned F D D' { s with pos := q } { s' with pos := q } :=
  ⟨rfl, h.dir, h.choices, h.keeps⟩

theorem Aligned.setCaps (h : Aligned F D D' s s') (caps : Caps) {caps' : Caps}
    (hext : s'.caps.Extends caps') :
    Aligned F D D' { s with caps := caps } { s' with caps := caps' } :=
  ⟨h.pos, h.dir, h.choices, h.keeps.mono hext⟩

theorem Aligned.moveTo (h : Aligned F D D' s s')
    (hrest : PendingAgree F D D' s.dir s.pos strict T T') {stop : Option Nat}
    (hmove : ∀ q, stop = some q → F.matcher.ctx.Moves s.dir s.pos q)
    (hstrict : strict = true → ∀ q, stop = some q →
      F.matcher.ctx.remaining s.dir q < F.matcher.ctx.remaining s.dir s.pos) :
    Matched F (moveTo ⟨T, D ++ F.choices, s⟩ stop) (moveTo ⟨T', D' ++ F.choices', s'⟩ stop) := by
  cases stop with
  | none => exact h.stop
  | some q =>
      refine (h.setPos q).go ?_
      exact hrest.reach (hmove q rfl) fun hs => hstrict hs q rfl

/-- A choice that is made again, the first run's with the mark it had. -/
theorem Aligned.resumed (h : Aligned F D D' s s') {resume resume' : Task} (mark : Nat)
    (htasks : TasksAgree F D D' s.dir s.pos s'.caps.mark (resume :: T) (resume' :: T'))
    (hdir : Matcher.headDir (resume :: T) s.dir = s.dir) :
    Aligned F (⟨s.pos, mark, T, some resume⟩ :: D)
      (⟨s'.pos, s'.caps.mark, T', some resume'⟩ :: D') s s' := by
  refine ⟨h.pos, h.dir, ?_, ?_, h.keeps.2⟩
  · refine .cons h.pos htasks h.keeps.2.1 h.keeps.1 ?_
    rw [Option.toList_some, List.singleton_append, hdir]
    exact h.choices
  · intro j hj
    rcases List.mem_cons.mp hj with rfl | hj
    · exact Nat.le_refl _
    · exact h.keeps.1 j hj

/-- A choice made at two aligned stores. -/
theorem Aligned.push (h : Aligned F D D' s s') {resume resume' : Task}
    (htasks : TasksAgree F D D' s.dir s.pos s'.caps.mark (resume :: T) (resume' :: T'))
    (hdir : Matcher.headDir (resume :: T) s.dir = s.dir) :
    Aligned F (⟨s.pos, s.caps.mark, T, some resume⟩ :: D)
      (⟨s'.pos, s'.caps.mark, T', some resume'⟩ :: D') s s' :=
  h.resumed s.caps.mark htasks hdir

theorem Aligned.pushAll (h : Aligned F D D' s s') (resumes : List Task)
    (htasks : ∀ resume ∈ resumes,
      TasksAgree F D D' s.dir s.pos s'.caps.mark (resume :: T) (resume :: T'))
    (hdir : ∀ resume ∈ resumes, Matcher.headDir (resume :: T) s.dir = s.dir) :
    Aligned F (resumes.map (fun resume => ⟨s.pos, s.caps.mark, T, some resume⟩) ++ D)
      (resumes.map (fun resume => ⟨s'.pos, s'.caps.mark, T', some resume⟩) ++ D') s s' := by
  induction resumes with
  | nil => exact h
  | cons resume resumes ih =>
      have hrest := ih (fun r hr => htasks r (List.mem_cons_of_mem _ hr))
        fun r hr => hdir r (List.mem_cons_of_mem _ hr)
      exact hrest.push ((htasks resume List.mem_cons_self).push _ _)
        (hdir resume List.mem_cons_self)

theorem Aligned.charEnd (h : Aligned F D D' s s')
    (hrest : PendingAgree F D D' s.dir s.pos strict T T') (test : Nat → Bool) :
    Matched F (Matcher.moveTo ⟨T, D ++ F.choices, s⟩ (F.matcher.ctx.charEnd s.pos s.dir test))
      (Matcher.moveTo ⟨T', D' ++ F.choices', s'⟩ (F.matcher.ctx.charEnd s.pos s.dir test)) :=
  h.moveTo hrest (fun _ hq => Ctx.moves_charEnd hq)
    fun _ _ hq => Ctx.charStep_remaining (Ctx.charStep_of_charEnd hq)

theorem Aligned.classStrings (h : Aligned F D D' s s')
    (hrest : PendingAgree F D D' s.dir s.pos false T T') {len : Nat} {others : List Nat}
    (hmoves : ∀ n ∈ len :: others,
      F.matcher.ctx.Moves s.dir s.pos (Ctx.advance s.pos s.dir n)) :
    Matched F
      (true, (others.foldl (fun c len => Cfg.pushChoice c (.classAdvance len))
        ⟨T, D ++ F.choices, s⟩).setPos (Ctx.advance s.pos s.dir len))
      (true, (others.foldl (fun c len => Cfg.pushChoice c (.classAdvance len))
        ⟨T', D' ++ F.choices', s'⟩).setPos (Ctx.advance s.pos s.dir len)) := by
  have htasks : ∀ resume ∈ (others.map Task.classAdvance).reverse,
      TasksAgree F D D' s.dir s.pos s'.caps.mark (resume :: T) (resume :: T') := by
    intro resume hr
    simp only [List.mem_reverse, List.mem_map] at hr
    obtain ⟨n, hn, rfl⟩ := hr
    exact .classAdvance (hmoves n (List.mem_cons_of_mem _ hn)) hrest
  have hpush := h.pushAll (others.map Task.classAdvance).reverse htasks (by
    intro resume hr
    simp only [List.mem_reverse, List.mem_map] at hr
    obtain ⟨n, -, rfl⟩ := hr
    rfl)
  rw [← List.foldl_map (f := Task.classAdvance) (g := Cfg.pushChoice),
    ← List.foldl_map (f := Task.classAdvance) (g := Cfg.pushChoice), pushChoices, pushChoices]
  have hgo := (hpush.setPos (Ctx.advance s.pos s.dir len)).go
    ((hrest.push _ _).reach (hmoves len List.mem_cons_self)
      (absurd · Bool.false_ne_true))
  rw [List.append_assoc, List.append_assoc] at hgo
  exact hgo

theorem mustMoveSeq_append (nodes nodes' : List Node) :
    Node.mustMoveSeq (nodes ++ nodes') = (Node.mustMoveSeq nodes || Node.mustMoveSeq nodes') := by
  induction nodes with
  | nil => rfl
  | cons node nodes ih => simp only [List.cons_append, Node.mustMoveSeq, ih, Bool.or_assoc]

theorem seqElem_mustMove (addr : List Nat) (nodes : List Node) (dir : Direction) :
    (Task.seqElem addr nodes 0).mustMove dir = Node.mustMoveSeq nodes := by
  cases dir with
  | forward => rfl
  | backward =>
      simp only [Task.mustMove, List.drop_zero, Ctx.ordered]
      induction nodes with
      | nil => rfl
      | cons node nodes ih =>
          rw [List.reverse_cons, mustMoveSeq_append, ih, Node.mustMoveSeq, Bool.or_comm]
          simp [Node.mustMoveSeq]

theorem mustMoveSeq_of_alts {alts : List (List Node)} (h : Node.mustMoveAlts alts = true) :
    ∀ alt ∈ alts, Node.mustMoveSeq alt = true := by
  induction alts with
  | nil => nofun
  | cons alt alts ih =>
      rw [Node.mustMoveAlts, Bool.and_eq_true] at h
      exact List.forall_mem_cons.mpr ⟨h.1, ih h.2⟩

theorem isBackrefFreeSeq_of_alts {alts : List (List Node)}
    (h : Node.isBackrefFreeAlts alts = true) :
    ∀ alt ∈ alts, Node.isBackrefFreeSeq alt = true := by
  induction alts with
  | nil => nofun
  | cons alt alts ih =>
      rw [Node.isBackrefFreeAlts, Bool.and_eq_true] at h
      exact List.forall_mem_cons.mpr ⟨h.1, ih h.2⟩

theorem Aligned.alternate (h : Aligned F D D' s s') (addr : List Nat) (alts : List (List Node))
    (hfree : F.free = true → Node.isBackrefFreeAlts alts = true)
    (hrest : PendingAgree F D D' s.dir s.pos (Node.mustMove (.alternate alts)) T T') :
    Matched F (F.matcher.stepNode ⟨addr, .alternate alts⟩ ⟨T, D ++ F.choices, s⟩)
      (F.matcher.stepNode ⟨addr, .alternate alts⟩ ⟨T', D' ++ F.choices', s'⟩) := by
  have hseq : ∀ (addr : List Nat) (alt : List Node), alt ∈ alts ∨ alt = [] ∧ alts = [] →
      PendingAgree F D D' s.dir s.pos false (.seqElem addr alt 0 :: T)
        (.seqElem addr alt 0 :: T') := by
    intro addr alt halt
    refine .task (.seqElem addr alt 0 fun hf => ?_) ?_
    · rcases halt with halt | ⟨rfl, -⟩
      · exact isBackrefFreeSeq_of_alts (hfree hf) alt halt
      · rfl
    · rw [Bool.false_or, seqElem_mustMove]
      refine hrest.mono (.refl _ _ _) fun hmust => .inl ?_
      rw [Node.mustMove, Bool.and_eq_true] at hmust
      rcases halt with halt | ⟨-, rfl⟩
      · exact mustMoveSeq_of_alts hmust.2 alt halt
      · cases hmust.1
  have hresume : ∀ resume ∈ (alts.zipIdx.drop 1).map fun alt =>
      Task.seqElem (alt.2 :: addr) alt.1 0, ∃ addr alt, alt ∈ alts ∧
        resume = .seqElem addr alt 0 := by
    intro resume hr
    obtain ⟨alt, halt, rfl⟩ := List.mem_map.mp hr
    exact ⟨_, _, List.fst_mem_of_mem_zipIdx (List.mem_of_mem_drop halt), rfl⟩
  have htasks : ∀ resume ∈ (alts.zipIdx.drop 1).map fun alt =>
      Task.seqElem (alt.2 :: addr) alt.1 0,
      TasksAgree F D D' s.dir s.pos s'.caps.mark (resume :: T) (resume :: T') := by
    intro resume hr
    obtain ⟨addr, alt, halt, rfl⟩ := hresume resume hr
    exact .pending (hseq addr alt (.inl halt))
  have hpush := h.pushAll _ htasks (by
    intro resume hr
    obtain ⟨addr, alt, -, rfl⟩ := hresume resume hr
    rfl)
  have hhead : alts.headD [] ∈ alts ∨ alts.headD [] = [] ∧ alts = [] := by
    cases alts with
    | nil => exact .inr ⟨rfl, rfl⟩
    | cons alt alts => exact .inl List.mem_cons_self
  have hgo := hpush.go ((hseq (0 :: addr) (alts.headD []) hhead).push _ _)
  rw [List.append_assoc, List.append_assoc] at hgo
  have hfold : ∀ (T : List Task) (C : List Choice) (s : Store),
      (alts.zipIdx.drop 1).reverse.foldl
        (fun c alt => Cfg.pushChoice c (.seqElem (alt.2 :: addr) alt.1 0)) ⟨T, C, s⟩ =
      ⟨T, ((alts.zipIdx.drop 1).map fun alt => Task.seqElem (alt.2 :: addr) alt.1 0).map
        (fun resume => ⟨s.pos, s.caps.mark, T, some resume⟩) ++ C, s⟩ := by
    intro T C s
    rw [← List.foldl_map (f := fun alt : List Node × Nat => Task.seqElem (alt.2 :: addr) alt.1 0)
      (g := Cfg.pushChoice), pushChoices, ← List.map_reverse, List.reverse_reverse]
  simp only [stepNode, hfold, Cfg.pushTask]
  exact hgo

/-- Entering a lookaround. -/
theorem Aligned.assertStart (h : Aligned F D D' s s') (negate : Bool) (ref : NodeRef)
    (sub : Direction) (hfree : F.free = true → ref.node.isBackrefFree = true)
    (hrest : PendingAgree F D D' s.dir s.pos false T T') :
    Matched F (assertStart negate ref sub ⟨T, D ++ F.choices, s⟩)
      (assertStart negate ref sub ⟨T', D' ++ F.choices', s'⟩) := by
  obtain ⟨p, d, caps, memo⟩ := s
  obtain ⟨p', d', caps', memo'⟩ := s'
  obtain rfl : p = p' := h.pos
  obtain rfl : d = d' := h.dir
  have hin : Aligned F (⟨p, caps.mark, T, some (.assertFailed negate p d)⟩ :: D)
      (⟨p, caps'.mark, T', some (.assertFailed negate p d)⟩ :: D')
      ⟨p, sub, caps, memo⟩ ⟨p, sub, caps', memo'⟩ := by
    refine ⟨rfl, rfl, .cons rfl (.assertFailed hrest) h.keeps.2.1 h.keeps.1 h.choices, ?_,
      h.keeps.2⟩
    intro j hj
    rcases List.mem_cons.mp hj with rfl | hj
    · exact Nat.le_refl _
    · exact h.keeps.1 j hj
  exact hin.go (.task (.node ref hfree)
    (.assertDone (List.nil_append _).symm (List.nil_append _).symm h.choices.length_eq rfl rfl))

/-- One node keeps the lockstep. -/
theorem Aligned.node (h : Aligned F D D' s s') (ref : NodeRef)
    (hfree : F.free = true → ref.node.isBackrefFree = true)
    (hcaps : F.free = true ∨ s.caps.values = s'.caps.values)
    (hrest : PendingAgree F D D' s.dir s.pos ref.node.mustMove T T') :
    Matched F (F.matcher.stepNode ref ⟨T, D ++ F.choices, s⟩)
      (F.matcher.stepNode ref ⟨T', D' ++ F.choices', s'⟩) := by
  obtain ⟨addr, node⟩ := ref
  cases node with
  | alternate alts => exact h.alternate addr alts hfree hrest
  | lookahead negate node => exact h.assertStart negate ⟨0 :: addr, node⟩ .forward hfree hrest
  | lookbehind negate node => exact h.assertStart negate ⟨0 :: addr, node⟩ .backward hfree hrest
  | sequence nodes =>
      refine h.go (.task (.seqElem addr nodes 0 hfree) ?_)
      rw [Bool.false_or, seqElem_mustMove]
      exact hrest
  | repeated node min max greedy owned =>
      cases greedy with
      | true =>
          exact h.go (.task (.greedyRepeat _ 0 0 hfree (.inl ⟨rfl, rfl⟩)) hrest)
      | false =>
          exact h.go (.task (.lazyRepeat _ 0 0 hfree rfl) hrest)
  | empty => exact h.test hrest rfl true
  | capture index node =>
      simp only [stepNode, ← h.pos]
      refine (h.setCaps _ (Caps.extends_set s'.caps index _)).go ?_
      refine .task (.node _ hfree) (.task (.captureClose _ _ _) ?_)
      change PendingAgree F D D' s.dir s.pos (node.mustMove || false) T T'
      rw [Bool.or_false]
      exact hrest
  | start _ | finish _ | wordBoundary _ | notWordBoundary _ =>
      simp only [stepNode, ← h.pos]
      exact h.test hrest rfl _
  | char _ _ | any _ =>
      simp only [stepNode, ← h.pos, ← h.dir]
      exact h.charEnd hrest _
  | backref indices fold =>
      rcases hcaps with hf | hv
      · cases hfree hf
      · simp only [stepNode, ← h.pos, ← h.dir, ← hv]
        exact h.moveTo hrest (fun _ hq => Ctx.moves_backrefEnd hq) (absurd · Bool.false_ne_true)
  | charClass cls =>
      simp only [stepNode, ← h.pos, ← h.dir]
      cases hc : F.matcher.ctx.classStrings cls s.pos s.dir with
      | nil => exact h.charEnd hrest _
      | cons len others =>
          have hstring : ∀ n ∈ len :: others, ∃ string ∈ cls.strings,
              F.matcher.ctx.stringAtDir s.pos string s.dir = true ∧
                n = F.matcher.ctx.stringUnits string := by
            intro n hn
            rw [← hc, Ctx.classStrings] at hn
            split at hn
            · cases hn
            · obtain ⟨string, hs, rfl⟩ := List.mem_map.mp hn
              obtain ⟨hmem, hat⟩ := List.mem_filter.mp hs
              exact ⟨string, hmem, hat, rfl⟩
          have hmust : Node.mustMove (.charClass cls) = false := by
            obtain ⟨string, hmem, -⟩ := hstring len List.mem_cons_self
            rw [Node.mustMove, List.isEmpty_eq_false_iff]
            exact List.ne_nil_of_mem hmem
          simp only [hmust] at hrest
          refine h.classStrings hrest fun n hn => ?_
          obtain ⟨string, -, hat, rfl⟩ := hstring n hn
          exact Ctx.moves_string hat

end Matcher

end Slag.Regexp
