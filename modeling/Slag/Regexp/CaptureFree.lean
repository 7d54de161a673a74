import Slag.Regexp.Prefilter

/-!
The boolean matcher: a pattern without backreferences is run without captures
and without their log. It is the capturing matcher with its marks forgotten.
-/

namespace Slag.Regexp

open Slag.Backtrack

mutual

/-- The task of a matcher whose log stays empty. -/
def Task.unmarked : Task → Task
  | .assertDone negate start outerDir _ cut => .assertDone negate start outerDir 0 cut
  | .fastShrink atom consumed entryPos loop _ cont level =>
      .fastShrink atom consumed entryPos loop 0 (Task.unmarkedAll cont) level
  | .node ref => .node ref
  | .seqElem addr nodes index => .seqElem addr nodes index
  | .captureClose index start => .captureClose index start
  | .greedyRepeat loop count => .greedyRepeat loop count
  | .lazyRepeat loop count => .lazyRepeat loop count
  | .repeatIterDone loop greedy count iterStart => .repeatIterDone loop greedy count iterStart
  | .repeatDone min count => .repeatDone min count
  | .lazyIterate loop count => .lazyIterate loop count
  | .assertFailed negate start outerDir => .assertFailed negate start outerDir
  | .classAdvance len => .classAdvance len

def Task.unmarkedAll : List Task → List Task
  | [] => []
  | task :: tasks => task.unmarked :: Task.unmarkedAll tasks

end

mutual

/-- No backreference is left to match. -/
def Task.isBackrefFree : Task → Bool
  | .node ref => ref.node.isBackrefFree
  | .seqElem _ nodes _ => Node.isBackrefFreeSeq nodes
  | .greedyRepeat loop _ => loop.node.node.isBackrefFree
  | .lazyRepeat loop _ => loop.node.node.isBackrefFree
  | .repeatIterDone loop _ _ _ => loop.node.node.isBackrefFree
  | .lazyIterate loop _ => loop.node.node.isBackrefFree
  | .fastShrink _ _ _ _ _ cont _ => Task.areBackrefFree cont
  | .captureClose _ _ | .assertDone _ _ _ _ _ | .repeatDone _ _ | .assertFailed _ _ _
  | .classAdvance _ => true

def Task.areBackrefFree : List Task → Bool
  | [] => true
  | task :: tasks => task.isBackrefFree && Task.areBackrefFree tasks

end

def Choice.unmarked (choice : Choice) : Choice :=
  ⟨choice.pos, 0, choice.cont.map Task.unmarked, choice.resume.map Task.unmarked⟩

def Choice.isBackrefFree (choice : Choice) : Bool :=
  Task.areBackrefFree (choice.resume.toList ++ choice.cont)

def MemoEntry.unmarked (entry : MemoEntry) : MemoEntry :=
  { entry with pending := entry.pending.map fun tasks => tasks.map Task.unmarked }

def Store.captureFree (s : Store) : Store :=
  { s with caps := Caps.disabled, memo := s.memo.map MemoEntry.unmarked }

def Cfg.captureFree (c : Cfg) : Cfg :=
  ⟨c.tasks.map Task.unmarked, c.choices.map Choice.unmarked, c.store.captureFree⟩

/-- What is pending has no backreference. -/
def Cfg.isBackrefFree (c : Cfg) : Bool :=
  Task.areBackrefFree c.tasks && c.choices.all Choice.isBackrefFree

namespace Task

theorem unmarkedAll_eq (tasks : List Task) : unmarkedAll tasks = tasks.map unmarked := by
  induction tasks with
  | nil => rw [unmarkedAll, List.map_nil]
  | cons task tasks ih => rw [unmarkedAll, ih, List.map_cons]

end Task

namespace Caps

theorem disabled_clearOwned (owned : List Nat) : disabled.clearOwned owned = disabled := rfl

theorem disabled_setAll (owned : List Nat) (value : Span) :
    disabled.setAll owned value = disabled := by
  unfold setAll
  induction owned with
  | nil => rfl
  | cons index owned ih => exact ih

theorem disabled_resetAll (owned : List Nat) : disabled.resetAll owned = disabled := by
  unfold resetAll
  induction owned with
  | nil => rfl
  | cons index owned ih => exact ih

end Caps

namespace Matcher

variable {m : Matcher} {task : Task} {T : List Task} {C : List Choice} {s : Store}

theorem disabled_setFastCaptures (owned consumed : List Nat) (cur : Nat) :
    setFastCaptures owned consumed cur Caps.disabled = Caps.disabled := by
  unfold setFastCaptures
  split
  · rfl
  · split
    · exact Caps.disabled_setAll owned _
    · exact Caps.disabled_resetAll owned

theorem remembers_captureFree (c : Cfg) (atom : List Nat) :
    c.captureFree.remembers atom = c.remembers atom := by
  simp only [Cfg.remembers, Cfg.captureFree, Store.captureFree, List.any_map]
  rfl

theorem moveTo_captureFree (c : Cfg) (stop : Option Nat) :
    moveTo c.captureFree stop = ((moveTo c stop).1, (moveTo c stop).2.captureFree) := by
  cases stop <;> rfl

theorem pushChoices_captureFree {α : Type} (resume : α → Task)
    (hfree : ∀ a, (resume a).unmarked = resume a) (l : List α) (c : Cfg) :
    l.foldl (fun c a => c.pushChoice (resume a)) c.captureFree =
      (l.foldl (fun (c : Cfg) a => c.pushChoice (resume a)) c).captureFree := by
  induction l generalizing c with
  | nil => rfl
  | cons a l ih =>
      rw [List.foldl_cons, List.foldl_cons, ← ih]
      congr 1
      unfold Cfg.pushChoice Cfg.captureFree
      simp only [List.map_cons, Choice.unmarked, Option.map_some, hfree]
      rfl

theorem assertStart_captureFree (negate : Bool) (ref : NodeRef) (dir : Direction) (c : Cfg) :
    assertStart negate ref dir c.captureFree =
      ((assertStart negate ref dir c).1, (assertStart negate ref dir c).2.captureFree) := by
  simp only [assertStart, Cfg.captureFree, List.length_map]
  rfl

theorem stepNode_captureFree (ref : NodeRef) (hfree : ref.node.isBackrefFree = true) (c : Cfg) :
    m.stepNode ref c.captureFree = ((m.stepNode ref c).1, (m.stepNode ref c).2.captureFree) := by
  obtain ⟨addr, node⟩ := ref
  cases node with
  | empty => rfl
  | start multiline => rfl
  | finish multiline => rfl
  | wordBoundary extraFolded => rfl
  | notWordBoundary extraFolded => rfl
  | sequence nodes => rfl
  | capture index node => rfl
  | lookahead negate node => exact assertStart_captureFree negate ⟨0 :: addr, node⟩ .forward c
  | lookbehind negate node => exact assertStart_captureFree negate ⟨0 :: addr, node⟩ .backward c
  | char cp fold => exact moveTo_captureFree c _
  | any dotAll => exact moveTo_captureFree c _
  | charClass cls =>
      simp only [stepNode]
      have hstrings : m.ctx.classStrings cls c.captureFree.store.pos c.captureFree.store.dir =
        m.ctx.classStrings cls c.store.pos c.store.dir := rfl
      rw [hstrings]
      cases m.ctx.classStrings cls c.store.pos c.store.dir with
      | nil => exact moveTo_captureFree c _
      | cons len others =>
          simp only [pushChoices_captureFree Task.classAdvance (fun _ => rfl)]
          rfl
  | alternate alts =>
      simp only [stepNode]
      rw [pushChoices_captureFree (fun alt : List Node × Nat => .seqElem (alt.2 :: addr) alt.1 0) (fun _ => rfl)]
      rfl
  | repeated node min max greedy owned => cases greedy <;> rfl
  | backref indices fold => cases hfree

theorem greedySimple_captureFree (atom : NodeRef) (loop : Loop) (count : Nat) (c : Cfg) :
    m.greedySimple atom loop count c.captureFree =
      ((m.greedySimple atom loop count c).1,
        (m.greedySimple atom loop count c).2.captureFree) := by
  obtain ⟨T, C, s⟩ := c
  obtain ⟨⟨consumed, cur, cnt⟩, hr⟩ : ∃ r, m.ctx.consumeLoop atom.node s.dir loop.max
    (m.ctx.input.length + 1) s.pos count = r := ⟨_, rfl⟩
  rw [Cfg.captureFree, greedySimple_eq m atom loop count T C s hr,
    greedySimple_eq m atom loop count _ _ s.captureFree hr]
  split
  · rfl
  · simp only [Store.captureFree, Cfg.captureFree, Caps.disabled_clearOwned,
      disabled_setFastCaptures]
    split
    · simp only [List.map_append, List.map_cons, List.map_nil, Choice.unmarked, Option.map_some,
        Task.unmarked, Task.unmarkedAll_eq]
      rfl
    · rfl

theorem dispatch_captureFree (task : Task) (hfree : task.isBackrefFree = true) (c : Cfg) :
    m.dispatch task.unmarked c.captureFree =
      ((m.dispatch task c).1, (m.dispatch task c).2.captureFree) := by
  cases task with
  | node ref => exact stepNode_captureFree ref hfree c
  | seqElem addr nodes index => 
      simp only [Task.unmarked, dispatch]
      split <;> rfl
  | captureClose index start => rfl
  | greedyRepeat loop count =>
      simp only [Task.unmarked, dispatch, remembers_captureFree]
      split
      · rfl
      · split
        · split
          · rfl
          · exact greedySimple_captureFree _ loop count c
        · rfl
  | lazyRepeat loop count =>
      simp only [Task.unmarked, dispatch]
      split_ifs <;> rfl
  | repeatIterDone loop greedy count iterStart =>
      have hpos : c.captureFree.store.pos = c.store.pos := rfl
      simp only [Task.unmarked, dispatch, hpos]
      split
      · rfl
      · split
        · rfl
        · cases greedy <;> rfl
  | assertDone negate start outerDir mark cut =>
      have htruncate : ∀ d : Cfg, d.captureFree.truncate cut = (d.truncate cut).captureFree := by
        intro d
        simp only [Cfg.truncate, Cfg.captureFree, List.length_map, List.map_drop]
      cases negate with
      | false => exact congrArg (Prod.mk true) (htruncate ((c.setDir outerDir).setPos start))
      | true =>
          exact congrArg (Prod.mk false)
            (htruncate ((c.setDir outerDir).setCaps (c.store.caps.rollback mark)))
  | repeatDone min count => rfl
  | lazyIterate loop count =>
      simp only [Task.unmarked, dispatch]
      split_ifs <;> rfl
  | assertFailed negate start outerDir => rfl
  | classAdvance len => rfl
  | fastShrink atom consumed entryPos loop mark cont level =>
      simp only [Task.unmarked, dispatch]
      split
      · split
        · simp only [Cfg.remember, Cfg.captureFree, Store.captureFree, List.map_cons,
            MemoEntry.unmarked, Option.map_some, Task.unmarkedAll_eq]
        · rfl
      · by_cases hlevel : 0 < level - 1
        · simp only [if_pos hlevel, Cfg.setCaps, Cfg.setPos, Cfg.captureFree, Store.captureFree,
            Caps.disabled_setAll, List.map_cons, Choice.unmarked, Option.map_some, Task.unmarked,
            Task.unmarkedAll_eq]
        · simp only [if_neg hlevel, Cfg.setPos, Cfg.captureFree, Store.captureFree,
            List.map_cons, Choice.unmarked, Option.map_some, Task.unmarked, Task.unmarkedAll_eq]

section Free

variable {c : Cfg}

theorem free_pushTask (hc : c.isBackrefFree = true) {task : Task}
    (ht : task.isBackrefFree = true) :
    Cfg.isBackrefFree { c with tasks := task :: c.tasks } = true := by
  simp only [Cfg.isBackrefFree, Task.areBackrefFree, Bool.and_eq_true] at hc ⊢
  exact ⟨⟨ht, hc.1⟩, hc.2⟩

theorem free_choice (hc : c.isBackrefFree = true) {choice : Choice}
    (hk : choice.isBackrefFree = true) :
    Cfg.isBackrefFree { c with choices := choice :: c.choices } = true := by
  simp only [Cfg.isBackrefFree, List.all_cons, Bool.and_eq_true] at hc ⊢
  exact ⟨hc.1, hk, hc.2⟩

theorem free_pushChoice (hc : c.isBackrefFree = true) {resume : Task}
    (ht : resume.isBackrefFree = true) : (c.pushChoice resume).isBackrefFree = true := by
  apply free_choice hc
  simp only [Cfg.isBackrefFree, Bool.and_eq_true] at hc
  simp only [Choice.isBackrefFree, Option.toList_some, List.singleton_append, Task.areBackrefFree,
    ht, hc.1, Bool.and_self]

theorem free_pushChoices {α : Type} (resume : α → Task) {l : List α}
    (hl : ∀ a ∈ l, (resume a).isBackrefFree = true) (hc : c.isBackrefFree = true) :
    (l.foldl (fun (c : Cfg) a => c.pushChoice (resume a)) c).isBackrefFree = true := by
  induction l generalizing c with
  | nil => exact hc
  | cons a l ih =>
      apply ih fun b hb => hl b (List.mem_cons_of_mem a hb)
      exact free_pushChoice hc (hl a List.mem_cons_self)

theorem free_truncate (hc : c.isBackrefFree = true) (cut : Nat) :
    (c.truncate cut).isBackrefFree = true := by
  simp only [Cfg.isBackrefFree, Cfg.truncate, Bool.and_eq_true, List.all_eq_true] at hc ⊢
  exact ⟨hc.1, fun k hk => hc.2 k (List.mem_of_mem_drop hk)⟩

theorem free_moveTo (hc : c.isBackrefFree = true) (stop : Option Nat) :
    (moveTo c stop).2.isBackrefFree = true := by
  cases stop <;> exact hc

variable {loop : Loop}

theorem free_iterate (hc : c.isBackrefFree = true) (hloop : loop.node.node.isBackrefFree = true)
    (greedy : Bool) (count : Nat) :
    (iterate loop greedy count c).isBackrefFree = true := by
  have hdone : Task.isBackrefFree (.repeatIterDone loop greedy count c.store.pos) = true := hloop
  have hcleared : (c.setCaps (c.store.caps.clearOwned loop.owned)).isBackrefFree = true := hc
  have hnode : Task.isBackrefFree (.node loop.node) = true := hloop
  exact free_pushTask (free_pushTask hcleared hdone) hnode

variable {atom ref : NodeRef}

theorem free_assertStart (hc : c.isBackrefFree = true) (href : ref.node.isBackrefFree = true)
    (negate : Bool) (dir : Direction) :
    (assertStart negate ref dir c).2.isBackrefFree = true := by
  have hfailed : Task.isBackrefFree (.assertFailed negate c.store.pos c.store.dir) = true := rfl
  exact free_pushTask (free_pushTask (free_pushChoice hc hfailed) rfl) href

theorem free_stepNode (href : ref.node.isBackrefFree = true) (hc : c.isBackrefFree = true) :
    (m.stepNode ref c).2.isBackrefFree = true := by
  obtain ⟨addr, node⟩ := ref
  cases node with
  | empty | start _ | finish _ | wordBoundary _ | notWordBoundary _ => exact hc
  | char _ _ | any _ => exact free_moveTo hc _
  | charClass cls =>
      simp only [stepNode]
      split
      · exact free_pushChoices Task.classAdvance (fun _ _ => rfl) hc
      · exact free_moveTo hc _
  | sequence nodes => exact free_pushTask hc href
  | alternate alts =>
      have halts := isBackrefFreeSeq_of_alts href
      apply free_pushTask
      · apply free_pushChoices (fun alt : List Node × Nat => .seqElem (alt.2 :: addr) alt.1 0) _ hc
        intro alt halt
        apply halts
        have hmem := List.mem_of_mem_drop (List.mem_reverse.mp halt)
        exact List.fst_mem_of_mem_zipIdx hmem
      · cases alts with
        | nil => rfl
        | cons alt alts => exact halts alt List.mem_cons_self
  | repeated node min max greedy owned =>
      apply free_pushTask hc
      cases greedy <;> exact href
  | capture index node =>
      have hset : (c.setCaps (c.store.caps.set index (c.store.pos, c.store.pos))).isBackrefFree =
          true := hc
      exact free_pushTask (free_pushTask hset rfl) href
  | backref indices fold => cases href
  | lookahead negate node => exact free_assertStart hc href negate .forward
  | lookbehind negate node => exact free_assertStart hc href negate .backward

theorem free_greedySimple (hc : c.isBackrefFree = true) {count : Nat} :
    (m.greedySimple atom loop count c).2.isBackrefFree = true := by
  obtain ⟨T, C, s⟩ := c
  obtain ⟨⟨consumed, cur, cnt⟩, hr⟩ : ∃ r, m.ctx.consumeLoop atom.node s.dir loop.max
    (m.ctx.input.length + 1) s.pos count = r := ⟨_, rfl⟩
  rw [greedySimple_eq m atom loop count T C s hr]
  split
  · exact hc
  · split
    · apply free_choice (c := ⟨T, C, _⟩) hc
      simp only [Cfg.isBackrefFree, Bool.and_eq_true] at hc
      simp only [Choice.isBackrefFree, Option.toList_some, List.singleton_append,
        Task.areBackrefFree, Task.isBackrefFree, hc.1, Bool.and_self]
    · exact hc

/-- A choice to shrink further carries the tasks below the repeat. -/
theorem free_shrink {consumed : List Nat} {entryPos : Nat} {mark : Nat} {cont : List Task}
    {level level' pos : Nat}
    (h : (Task.fastShrink atom consumed entryPos loop mark cont level).isBackrefFree = true) :
    Choice.isBackrefFree
      ⟨pos, mark, cont, some (.fastShrink atom consumed entryPos loop mark cont level')⟩ = true := by
  rw [Task.isBackrefFree] at h
  simp only [Choice.isBackrefFree, Option.toList_some, List.singleton_append, Task.areBackrefFree,
    Task.isBackrefFree, h, Bool.and_self]

/-- What a task leaves pending is part of what it had. -/
theorem dispatch_backrefFree (task : Task) (T : List Task) (C : List Choice) (s : Store)
    (hfree : Cfg.isBackrefFree ⟨task :: T, C, s⟩ = true) :
    Cfg.isBackrefFree (m.dispatch task ⟨T, C, s⟩).2 = true := by
  have htask : task.isBackrefFree = true ∧ Cfg.isBackrefFree ⟨T, C, s⟩ = true := by
    simp only [Cfg.isBackrefFree, Task.areBackrefFree, Bool.and_eq_true] at hfree ⊢
    exact ⟨hfree.1.1, hfree.1.2, hfree.2⟩
  obtain ⟨ht, hc⟩ := htask
  cases task with
  | node ref => exact free_stepNode ht hc
  | seqElem addr nodes index =>
      simp only [dispatch]
      split
      · exact free_pushTask (free_pushTask hc ht) (isBackrefFreeSeq_getD ht _)
      · exact hc
  | captureClose index start => exact hc
  | greedyRepeat loop count =>
      simp only [dispatch]
      split
      · exact hc
      · split
        · split
          · exact hc
          · exact free_greedySimple hc
        · exact free_iterate (free_pushChoice hc rfl) ht true count
  | lazyRepeat loop count =>
      simp only [dispatch]
      split
      · exact free_pushChoice hc ht
      · split
        · exact hc
        · exact free_iterate hc ht false count
  | repeatIterDone loop greedy count iterStart =>
      simp only [dispatch]
      split
      · exact hc
      · split
        · exact hc
        · apply free_pushTask hc
          cases greedy <;> exact ht
  | assertDone negate start outerDir mark cut =>
      cases negate with
      | false => exact free_truncate (c := (Cfg.setDir ⟨T, C, s⟩ outerDir).setPos start) hc cut
      | true =>
          exact free_truncate
            (c := (Cfg.setDir ⟨T, C, s⟩ outerDir).setCaps (s.caps.rollback mark)) hc cut
  | repeatDone min count => exact hc
  | lazyIterate loop count =>
      simp only [dispatch]
      split
      · exact hc
      · exact free_iterate hc ht false count
  | assertFailed negate start outerDir => exact hc
  | classAdvance len => exact hc
  | fastShrink atom consumed entryPos loop mark cont level =>
      simp only [dispatch]
      split
      · split <;> exact hc
      · split
        · exact free_choice (c := ⟨T, C, _⟩) hc (free_shrink ht)
        · exact free_choice (c := ⟨T, C, _⟩) hc (free_shrink ht)

end Free

/-- The boolean matcher beside the capturing one. -/
def captureFree (m : Matcher) : Projection m.machine fun c : Cfg => c.isBackrefFree = true where
  task := Task.unmarked
  choice := Choice.unmarked
  store := Store.captureFree

theorem captureFree_lawful (m : Matcher) : m.captureFree.Lawful where
  dispatch task T C s hfree := by
    simp only [Cfg.isBackrefFree, Task.areBackrefFree, Bool.and_eq_true] at hfree
    exact dispatch_captureFree task hfree.1.1 ⟨T, C, s⟩
  restore choice c := by
    obtain ⟨pos, mark, cont, resume⟩ := choice
    cases resume <;> rfl
  kept := dispatch_backrefFree
  resumed c choice C hfree hc := by
    simp only [Cfg.isBackrefFree, hc, List.all_cons, Bool.and_eq_true] at hfree
    simp only [machine, backtrack, Cfg.isBackrefFree, Bool.and_eq_true]
    exact ⟨hfree.2.1, hfree.2.2⟩

/-- An attempt without captures is the attempt with them, seen without them. -/
theorem matchAt_captureFree (hfree : m.re.program.isBackrefFree = true) (start : Nat)
    (caps : Caps) (memo : List MemoEntry) :
    m.matchAt start Caps.disabled (memo.map MemoEntry.unmarked) =
      m.captureFree.answer (m.matchAt start caps memo) := by
  refine m.captureFree_lawful.run choiceLimit m.stepLimit (c := m.startAt start caps memo) ?_
  simp only [startAt, Cfg.isBackrefFree, Task.areBackrefFree, Task.isBackrefFree, hfree,
    Bool.and_self, List.all_nil]

theorem length_undo (mark : Nat) (trail : List (Nat × Option Span)) (values : List (Option Span)) :
    (Caps.undo mark trail values).values.length = values.length := by
  induction trail generalizing values with
  | nil => rfl
  | cons entry trail ih =>
      obtain ⟨index, old⟩ := entry
      rw [Caps.undo]
      split
      · rw [ih, List.length_set]
      · rfl

variable {caps : Caps} {memo : List MemoEntry}

/-- What can be rolled back to an attempt's start has as many captures. -/
theorem length_of_extends {caps caps' : Caps} (h : (caps.rollback 0).Extends caps') :
    caps'.values.length = caps.values.length := by
  rw [← length_undo 0 caps.trail caps.values,
    ← length_undo (caps.rollback 0).mark caps'.trail caps'.values]
  exact congrArg (fun caps => caps.values.length) h.2

variable {start : Nat} {captures : List (Option Span)}

theorem length_of_matched {c : Cfg} (h : m.matchAt start caps memo = .matched c) :
    c.store.caps.values.length = caps.values.length := by
  have hsane := (sane_startAt m start caps memo).run choiceLimit m.stepLimit
  change Answered _ (m.matchAt start caps memo) at hsane
  rw [h] at hsane
  exact length_of_extends hsane.inv.2.2.2

theorem length_of_failed {c : Cfg} (h : m.matchAt start caps memo = .failed c) :
    c.store.caps.values.length = caps.values.length := by
  have hsane := (sane_startAt m start caps memo).run choiceLimit m.stepLimit
  change Answered _ (m.matchAt start caps memo) at hsane
  rw [h] at hsane
  exact length_of_extends hsane.failing_inv.2.2

/-- The step or choice budget of an attempt is spent. -/
structure BudgetExceeded where

/-- The captures of the boolean matcher. -/
def booleanCaps (m : Matcher) : Caps :=
  if m.re.backrefFree then Caps.disabled else Caps.new m.re.capturingGroups

def execChecked (m : Matcher) (start : Nat) :
    Except BudgetExceeded (Option (List (Option Span))) :=
  match m.matchAt start (Caps.new m.re.capturingGroups) [] with
  | .exhausted _ => .error ⟨⟩
  | .failed _ => .ok none
  | .matched c => .ok (some (c.store.caps.values.set 0 (some (start, c.store.pos))))

def execEndChecked (m : Matcher) (start : Nat) : Except BudgetExceeded (Option Nat) :=
  match m.matchAt start m.booleanCaps [] with
  | .exhausted _ => .error ⟨⟩
  | .failed _ => .ok none
  | .matched c => .ok (some c.store.pos)

def searchChecked (m : Matcher) (start : Nat) :
    Except BudgetExceeded (Option (Nat × List (Option Span))) :=
  match m.search start (Caps.new m.re.capturingGroups) with
  | .exhausted => .error ⟨⟩
  | .nothing => .ok none
  | .found index stop captures => .ok (some (index, captures.set 0 (some (index, stop))))

def searchEndChecked (m : Matcher) (start : Nat) : Except BudgetExceeded (Option (Nat × Nat)) :=
  match m.search start m.booleanCaps with
  | .exhausted => .error ⟨⟩
  | .nothing => .ok none
  | .found index stop _ => .ok (some (index, stop))

/-- The span of the whole match. -/
def wholeMatch (captures : List (Option Span)) : Option Span :=
  (captures[0]?).join

/-- What a search with captures has found, without them. -/
def Found.captureFree : Found → Found
  | .exhausted => .exhausted
  | .nothing => .nothing
  | .found start stop _ => .found start stop []

/-- A search without captures finds what the search with them finds. -/
theorem searchLoop_captureFree (hfree : m.re.program.isBackrefFree = true) (fuel index : Nat)
    (caps : Caps) (memo : List MemoEntry) :
    m.searchLoop fuel index Caps.disabled (memo.map MemoEntry.unmarked) =
      (m.searchLoop fuel index caps memo).captureFree := by
  induction fuel generalizing index caps memo with
  | zero => rfl
  | succ fuel ih =>
      rw [searchLoop, searchLoop]
      by_cases hpast : m.ctx.input.length < index
      · rw [if_pos hpast, if_pos hpast]
        rfl
      · rw [if_neg hpast, if_neg hpast]
        by_cases hskip : m.prefiltered index = true
        · rw [if_pos hskip, if_pos hskip]
          exact ih _ caps memo
        · rw [if_neg hskip, if_neg hskip, matchAt_captureFree hfree index caps memo]
          cases m.matchAt index caps memo with
          | exhausted c => rfl
          | matched c => rfl
          | failed c =>
              by_cases hlast : m.ctx.input.length ≤ index
              · simp only [Projection.answer, if_pos hlast]
                rfl
              · simp only [Projection.answer, if_neg hlast]
                exact ih (m.advanceStringIndex index) c.store.caps c.store.memo

theorem length_of_found {fuel index start stop : Nat}
    (h : m.searchLoop fuel index caps memo = .found start stop captures) :
    captures.length = caps.values.length := by
  induction fuel generalizing index caps memo with
  | zero => cases h
  | succ fuel ih =>
      rw [searchLoop] at h
      split at h
      · cases h
      · split at h
        · exact ih h
        · cases hmatch : m.matchAt index caps memo with
          | exhausted c =>
              rw [hmatch] at h
              cases h
          | matched c =>
              rw [hmatch] at h
              cases h
              exact length_of_matched hmatch
          | failed c =>
              simp only [hmatch] at h
              split at h
              · cases h
              · rw [ih h, length_of_failed hmatch]

theorem wholeMatch_set (h : 0 < captures.length) (value : Span) :
    wholeMatch (captures.set 0 (some value)) = some value := by
  rw [wholeMatch, List.getElem?_set_self h]
  rfl

theorem length_new (groups : Nat) : (Caps.new groups).values.length = groups + 1 :=
  List.length_replicate

/-- The boolean entries answer the spans of the capturing ones. -/
structure BooleanAgrees (m : Matcher) (start : Nat) : Prop where
  exec : (m.execChecked start).map (Option.map wholeMatch) =
    (m.execEndChecked start).map (Option.map fun stop => some (start, stop))
  search : (m.searchChecked start).map (Option.map fun found => (found.1, wholeMatch found.2)) =
    (m.searchEndChecked start).map (Option.map fun ends => (ends.1, some ends))

theorem booleanCaps_cases (hfree : m.re.backrefFree = m.re.program.isBackrefFree) :
    m.booleanCaps = Caps.new m.re.capturingGroups ∨
      m.booleanCaps = Caps.disabled ∧ m.re.program.isBackrefFree = true := by
  unfold booleanCaps
  split
  · rename_i hbool
    exact .inr ⟨rfl, hfree.symm.trans hbool⟩
  · exact .inl rfl

theorem exec_agrees (hfree : m.re.backrefFree = m.re.program.isBackrefFree) (start : Nat) :
    (m.execChecked start).map (Option.map wholeMatch) =
      (m.execEndChecked start).map (Option.map fun stop => some (start, stop)) := by
  have hends : m.execEndChecked start =
      match m.matchAt start (Caps.new m.re.capturingGroups) [] with
      | .exhausted _ => .error ⟨⟩
      | .failed _ => .ok none
      | .matched c => .ok (some c.store.pos) := by
    unfold execEndChecked
    cases booleanCaps_cases hfree with
    | inl hcaps => rw [hcaps]
    | inr hcaps =>
        have hrun := matchAt_captureFree hcaps.2 start (Caps.new m.re.capturingGroups) []
        rw [List.map_nil] at hrun
        rw [hcaps.1, hrun]
        cases m.matchAt start (Caps.new m.re.capturingGroups) [] <;> rfl
  rw [hends, execChecked]
  cases hmatch : m.matchAt start (Caps.new m.re.capturingGroups) [] with
  | exhausted c => rfl
  | failed c => rfl
  | matched c =>
      have hlength := length_of_matched hmatch
      rw [length_new] at hlength
      simp only [Except.map, Option.map_some]
      rw [wholeMatch_set (by omega)]

theorem search_agrees (hfree : m.re.backrefFree = m.re.program.isBackrefFree) (start : Nat) :
    (m.searchChecked start).map (Option.map fun found => (found.1, wholeMatch found.2)) =
      (m.searchEndChecked start).map (Option.map fun ends => (ends.1, some ends)) := by
  have hends : m.searchEndChecked start =
      match m.search start (Caps.new m.re.capturingGroups) with
      | .exhausted => .error ⟨⟩
      | .nothing => .ok none
      | .found index stop _ => .ok (some (index, stop)) := by
    unfold searchEndChecked
    cases booleanCaps_cases hfree with
    | inl hcaps => rw [hcaps]
    | inr hcaps =>
        have hrun : m.search start Caps.disabled =
            (m.search start (Caps.new m.re.capturingGroups)).captureFree :=
          searchLoop_captureFree hcaps.2 _ start (Caps.new m.re.capturingGroups) []
        rw [hcaps.1, hrun]
        cases m.search start (Caps.new m.re.capturingGroups) <;> rfl
  rw [hends, searchChecked]
  cases hfound : m.search start (Caps.new m.re.capturingGroups) with
  | exhausted => rfl
  | nothing => rfl
  | found index stop captures =>
      have hlength := length_of_found hfound
      rw [length_new] at hlength
      simp only [Except.map, Option.map_some]
      rw [wholeMatch_set (by omega)]

/-- A boolean match agrees with the capturing match, of every compiled pattern. -/
theorem boolean_agrees (tables : UnicodeTables) (unicode : Bool) (program : Node) (groups : Nat)
    (input : List UInt16) (options : Options) (start : Nat) :
    BooleanAgrees (compiled tables unicode program groups input options) start :=
  ⟨exec_agrees rfl start, search_agrees rfl start⟩

end Matcher

end Slag.Regexp
