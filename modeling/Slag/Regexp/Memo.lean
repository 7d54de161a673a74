import Slag.Regexp.LockstepRun

/-!
What a task does to the choices and to the memo, and what an entry of the memo
stands for: the repeat it names was run without memo at its position and failed
for good.
-/

namespace Slag.Regexp

open Slag.Backtrack

def Cfg.withMemo (c : Cfg) (memo : List MemoEntry) : Cfg :=
  { c with store := { c.store with memo := memo } }

def Task.isShrink : Task → Bool
  | .fastShrink _ _ _ _ _ _ _ => true
  | _ => false

def Task.isAssertDone : Task → Bool
  | .assertDone _ _ _ _ _ => true
  | _ => false

namespace Matcher

variable {m : Matcher}

theorem stepNode_withMemo (m : Matcher) (ref : NodeRef) (c : Cfg) (memo : List MemoEntry) :
    m.stepNode ref (c.withMemo memo) =
      ((m.stepNode ref c).1, (m.stepNode ref c).2.withMemo memo) := by
  obtain ⟨T, C, s⟩ := c
  obtain ⟨addr, node⟩ := ref
  have hmove : ∀ stop : Option Nat, moveTo (Cfg.withMemo ⟨T, C, s⟩ memo) stop =
      ((moveTo ⟨T, C, s⟩ stop).1, (moveTo ⟨T, C, s⟩ stop).2.withMemo memo) := by
    intro stop
    cases stop <;> rfl
  cases node with
  | charClass cls =>
      simp only [stepNode, Cfg.withMemo]
      cases m.ctx.classStrings cls s.pos s.dir with
      | nil => exact hmove _
      | cons len others =>
          simp only [← List.foldl_map (f := Task.classAdvance) (g := Cfg.pushChoice), pushChoices]
          rfl
  | alternate alts =>
      simp only [stepNode, Cfg.withMemo,
        ← List.foldl_map (f := fun alt : List Node × Nat => Task.seqElem (alt.2 :: addr) alt.1 0)
          (g := Cfg.pushChoice), pushChoices]
      rfl
  | char _ _ | any _ | backref _ _ => exact hmove _
  | empty | start _ | finish _ | wordBoundary _ | notWordBoundary _ | sequence _ | capture _ _
  | lookahead _ _ | lookbehind _ _ | repeated _ _ _ _ _ => rfl

theorem greedySimple_withMemo (m : Matcher) (atom : NodeRef) (loop : Loop) (count : Nat) (c : Cfg)
    (memo : List MemoEntry) : ∃ memo', m.greedySimple atom loop count (c.withMemo memo) =
      ((m.greedySimple atom loop count c).1,
        (m.greedySimple atom loop count c).2.withMemo memo') := by
  obtain ⟨T, C, s⟩ := c
  obtain ⟨⟨consumed, cur, cnt⟩, hr⟩ : ∃ r, m.ctx.consumeLoop atom.node s.dir loop.max
    (m.ctx.input.length + 1) s.pos count = r := ⟨_, rfl⟩
  rw [Cfg.withMemo, greedySimple_eq m atom loop count T C s hr,
    greedySimple_eq m atom loop count T C { s with memo := memo } hr]
  split
  · exact ⟨_, rfl⟩
  · exact ⟨memo, rfl⟩

/-- A matcher that does not use its memo does not depend on it. -/
theorem dispatch_withMemo (hoff : m.options.memo = false) (task : Task) (c : Cfg)
    (memo : List MemoEntry) : ∃ memo', m.dispatch task (c.withMemo memo) =
      ((m.dispatch task c).1, (m.dispatch task c).2.withMemo memo') := by
  cases task with
  | node ref => exact ⟨memo, stepNode_withMemo m ref c memo⟩
  | greedyRepeat loop count =>
      simp only [dispatch, hoff, Bool.false_and, Bool.false_eq_true, if_false]
      split
      · exact ⟨memo, rfl⟩
      · split
        · exact greedySimple_withMemo m _ loop count c memo
        · exact ⟨memo, rfl⟩
  | repeatIterDone loop greedy count iterStart =>
      refine ⟨memo, ?_⟩
      by_cases hreject : (c.store.pos == iterStart && decide (loop.min ≤ count)) = true
      · simp only [dispatch, Cfg.withMemo, hreject, if_true]
      · by_cases hleave : (c.store.pos == iterStart && decide (loop.min ≤ count + 1)) = true
        · simp only [dispatch, Cfg.withMemo, hreject, hleave, if_true]
          rfl
        · simp only [dispatch, Cfg.withMemo, hreject, hleave, Cfg.pushTask]
          rfl
  | seqElem _ _ _ | lazyRepeat _ _ | lazyIterate _ _ | assertDone _ _ _ _ _ =>
      refine ⟨memo, ?_⟩
      simp only [dispatch, Cfg.withMemo]
      split_ifs <;> rfl
  | captureClose _ _ | repeatDone _ _ | assertFailed _ _ _ | classAdvance _ => exact ⟨memo, rfl⟩
  | fastShrink atom consumed entry loop mark cont level =>
      simp only [dispatch]
      split
      · split
        · exact ⟨_, rfl⟩
        · exact ⟨memo, rfl⟩
      · refine ⟨memo, ?_⟩
        split <;> rfl

/-- The memo stays as it is, and the choices that are added are not a simple repeat's. -/
def Quiet (c d : Cfg) : Prop :=
  d.store.memo = c.store.memo ∧ ∃ P C, d.choices = P ++ C ∧ C <:+ c.choices ∧
    ∀ k ∈ P, ∃ task, k.resume = some task ∧ task.isShrink = false

variable {c : Cfg}

theorem Quiet.same {c d : Cfg} (hmemo : d.store.memo = c.store.memo)
    (hchoices : d.choices = c.choices) : Quiet c d :=
  ⟨hmemo, [], c.choices, hchoices, List.suffix_refl _, nofun⟩

theorem Quiet.push {c d : Cfg} (hmemo : d.store.memo = c.store.memo) {k : Choice} {task : Task}
    (hchoices : d.choices = k :: c.choices) (hk : k.resume = some task)
    (htask : task.isShrink = false) : Quiet c d :=
  ⟨hmemo, [k], c.choices, hchoices, List.suffix_refl _,
    List.forall_mem_singleton.mpr ⟨task, hk, htask⟩⟩

theorem quiet_stepNode (m : Matcher) (ref : NodeRef) (c : Cfg) : Quiet c (m.stepNode ref c).2 := by
  obtain ⟨T, C, s⟩ := c
  obtain ⟨addr, node⟩ := ref
  have hmove : ∀ stop : Option Nat, Quiet ⟨T, C, s⟩ (moveTo ⟨T, C, s⟩ stop).2 := by
    intro stop
    cases stop <;> exact .same rfl rfl
  have hpush : ∀ (resumes : List Task) (d : Cfg), (∀ task ∈ resumes, task.isShrink = false) →
      d.store.memo = s.memo →
      d.choices = (resumes.foldl Cfg.pushChoice ⟨T, C, s⟩).choices → Quiet ⟨T, C, s⟩ d := by
    intro resumes d hresumes hmemo hd
    rw [pushChoices] at hd
    refine ⟨hmemo, _, C, hd, List.suffix_refl _, fun k hk => ?_⟩
    obtain ⟨task, htask, rfl⟩ := List.mem_map.mp hk
    exact ⟨task, rfl, hresumes task (List.mem_reverse.mp htask)⟩
  cases node with
  | charClass cls =>
      simp only [stepNode]
      cases m.ctx.classStrings cls s.pos s.dir with
      | nil => exact hmove _
      | cons len others =>
          refine hpush (others.map Task.classAdvance) _ ?_ ?_ ?_
          · simp only [List.mem_map, forall_exists_index, and_imp, forall_apply_eq_imp_iff₂,
              Task.isShrink, implies_true]
          · simp only [← List.foldl_map (f := Task.classAdvance) (g := Cfg.pushChoice),
              pushChoices, Cfg.setPos]
          · rw [List.foldl_map]
            rfl
  | alternate alts =>
      refine hpush ((alts.zipIdx.drop 1).reverse.map fun alt : List Node × Nat =>
        Task.seqElem (alt.2 :: addr) alt.1 0) _ ?_ ?_ ?_
      · simp only [List.mem_map, forall_exists_index, and_imp, forall_apply_eq_imp_iff₂,
          Task.isShrink, implies_true]
      · simp only [stepNode, ← List.foldl_map
          (f := fun alt : List Node × Nat => Task.seqElem (alt.2 :: addr) alt.1 0)
          (g := Cfg.pushChoice), pushChoices, Cfg.pushTask]
      · rw [List.foldl_map]
        rfl
  | lookahead _ _ | lookbehind _ _ => exact .push rfl rfl rfl rfl
  | char _ _ | any _ | backref _ _ => exact hmove _
  | empty | start _ | finish _ | wordBoundary _ | notWordBoundary _ | sequence _ | capture _ _
  | repeated _ _ _ _ _ => exact .same rfl rfl

/-- Only a simple repeat touches the memo or leaves a choice of its own. -/
theorem dispatch_cases (hoff : m.options.memo = false) (task : Task) (c : Cfg) :
    Quiet c (m.dispatch task c).2 ∨
    (∃ loop count atom, task = .greedyRepeat loop count ∧ m.atomOf loop = some atom ∧
      m.dispatch task c = m.greedySimple atom loop count c) ∨
    task.isShrink = true := by
  cases task with
  | node ref => exact .inl (quiet_stepNode m ref c)
  | greedyRepeat loop count =>
      simp only [dispatch, hoff, Bool.false_and, Bool.false_eq_true, if_false]
      split
      · exact .inl (.same rfl rfl)
      · split
        · exact .inr (.inl ⟨loop, count, _, rfl, by assumption, rfl⟩)
        · exact .inl (.push rfl rfl rfl rfl)
  | lazyRepeat _ _ =>
      left
      simp only [dispatch]
      split_ifs
      · exact .push rfl rfl rfl rfl
      · exact .same rfl rfl
      · exact .same rfl rfl
  | seqElem _ _ _ | repeatIterDone _ _ _ _ | lazyIterate _ _ =>
      left
      simp only [dispatch]
      split_ifs <;> exact .same rfl rfl
  | assertDone _ _ _ _ _ =>
      left
      simp only [dispatch]
      split_ifs <;> exact ⟨rfl, [], _, rfl, List.drop_suffix _ _, (List.forall_mem_nil _)⟩
  | captureClose _ _ | repeatDone _ _ | assertFailed _ _ _ | classAdvance _ =>
      exact .inl (.same rfl rfl)
  | fastShrink _ _ _ _ _ _ _ => exact .inr (.inr rfl)

/-- Where the memo has no say, the matcher does what it does without. -/
theorem dispatch_memoless (task : Task) (c : Cfg)
    (h : ∀ loop count atom, task = .greedyRepeat loop count → loop.atMax count = false →
      m.atomOf loop = some atom → (m.options.memo && c.remembers atom.addr) = false) :
    m.dispatch task c = m.memoless.dispatch task c := by
  cases task with
  | greedyRepeat loop count =>
      have hatomOf : (if m.options.fastPath then simpleAtom loop.node.addr loop.node.node else none) =
        m.atomOf loop := rfl
      have hatomOf' : (if m.memoless.options.fastPath then
        simpleAtom loop.node.addr loop.node.node else none) = m.atomOf loop := rfl
      simp only [dispatch, hatomOf, hatomOf']
      cases hmax : loop.atMax count with
      | true => rfl
      | false =>
          cases hatom : m.atomOf loop with
          | none => rfl
          | some atom =>
              simp only [h loop count atom rfl hmax hatom]
              rfl
  | _ => rfl

/-- The tasks from the end of the enclosing lookaround on. -/
def enclosing (tasks : List Task) : List Task :=
  tasks.dropWhile fun task => !task.isAssertDone

/-- The enclosing lookaround would give up some of the choices when it ends. -/
def Grounded (tasks : List Task) (C : List Choice) : Prop :=
  enclosing tasks = [] ∨ ∃ negate start outer mark cut rest,
    enclosing tasks = .assertDone negate start outer mark cut :: rest ∧ cut < C.length

/-- The repeat an entry names failed for good when it was run without memo. -/
def EntryHolds (m : Matcher) (entry : MemoEntry) : Prop :=
  match entry.pending with
  | none => ∃ atom, m.atomOf entry.loop = some atom ∧
      (m.ctx.consumeLoop atom.node entry.dir entry.loop.max (m.ctx.input.length + 1)
        entry.pos 0).2.2 < entry.loop.min
  | some cont => ∃ C s d, s.pos = entry.pos ∧ s.dir = entry.dir ∧ Grounded cont C ∧
      Descends m.memoless.machine C.length (.running ⟨.greedyRepeat entry.loop 0 :: cont, C, s⟩)
        (.failing d) ∧ d.choices = C

/-- An attempt compared with itself. -/
def Comparison.whole (m : Matcher) (caps : Caps) : Comparison where
  matcher := m.memoless
  free := false
  dir := .forward
  tasks := []
  tasks' := []
  choices := []
  choices' := []
  caps := caps
  memo_off := rfl
  ground := .inl rfl

/-- A state an attempt can be in. -/
def Sane (m : Matcher) (caps : Caps) (x : State Task Choice Store) : Prop :=
  Locked (.whole m caps) x x

/-- A simple repeat that is about to shrink was entered at a state from which
the run led here, above the choices `C`. -/
def Shrinks (m : Matcher) (caps : Caps) (C : List Choice) (tasks : List Task)
    (y : State Task Choice Store) : Prop :=
  ∀ atom consumed entry loop mark cont level T,
    tasks = .fastShrink atom consumed entry loop mark cont level :: T →
    ∃ s : Store, s.pos = entry ∧ Sane m caps (.running ⟨.greedyRepeat loop 0 :: cont, C, s⟩) ∧
      Descends m.memoless.machine C.length (.running ⟨.greedyRepeat loop 0 :: cont, C, s⟩) y

/-- Every simple repeat that can still shrink has its history. -/
structure History (m : Matcher) (caps : Caps) (y : State Task Choice Store) : Prop where
  choices : ∀ k C, (k :: C) <:+ y.choices → Shrinks m caps C (k.resume.toList ++ k.cont) y
  tasks : ∀ c, y = .running c → Shrinks m caps c.choices c.tasks y

section

variable {F : Comparison} {D D' E E' : List Choice} {T T' : List Task} {dir : Direction}
  {pos : Nat} {strict free : Bool} {task task' : Task}

theorem enclosing_cons (h : task.isAssertDone = false) : enclosing (task :: T) = enclosing T := by
  simp only [enclosing, List.dropWhile_cons, h, Bool.not_false, if_true]

theorem TaskAgrees.not_assertDone (h : TaskAgrees m free dir pos strict task task') :
    task.isAssertDone = false ∧ task'.isAssertDone = false := by
  cases h <;> exact ⟨rfl, rfl⟩

theorem PendingAgree.of_base (hT : F.tasks = T) (hT' : F.tasks' = T') :
    PendingAgree F D D' dir pos strict T T' := by
  subst hT hT'
  exact .base

theorem pendingAgree_sound (hfree : F.free = true) (hT : F.tasks = enclosing T)
    (hT' : F.tasks' = enclosing T') (h : F.matcher.pendingAgree dir pos strict T T' = true) :
    PendingAgree F D D' dir pos strict T T' := by
  fun_induction pendingAgree F.matcher dir pos strict T T' with
  | case1 strict => exact .of_base hT hT'
  | case2 strict => exact .of_base hT hT'
  | case3 strict task tasks task' tasks' _ ih =>
      rw [Bool.and_eq_true] at h
      have htask := taskAgrees_sound h.1
      obtain ⟨hdone, hdone'⟩ := htask.not_assertDone
      rw [enclosing_cons hdone] at hT
      rw [enclosing_cons hdone'] at hT'
      rw [← hfree] at htask
      exact .task htask (ih hT hT' h.2)
  | case4 => cases h

/-- Tasks that agree in a whole attempt agree down to the enclosing lookaround. -/
theorem PendingAgree.rebase {caps : Caps} (h : PendingAgree (.whole m caps) D D' dir pos strict T T')
    (hm : F.matcher = m.memoless) (hfree : F.free = false) (hT : F.tasks = enclosing T)
    (hT' : F.tasks' = enclosing T') : PendingAgree F E E' dir pos strict T T' := by
  induction h with
  | base => exact .of_base hT hT'
  | assertDone _ _ _ _ _ => exact .of_base hT hT'
  | task htask _ ih =>
      obtain ⟨hdone, hdone'⟩ := htask.not_assertDone
      rw [enclosing_cons hdone] at hT
      rw [enclosing_cons hdone'] at hT'
      refine .task ?_ (ih hT hT')
      rw [hm, hfree]
      exact htask

theorem PendingAgree.grounded {caps : Caps}
    (h : PendingAgree (.whole m caps) D D' dir pos strict T T') : Grounded T D := by
  induction h with
  | base => exact .inl rfl
  | task htask _ ih =>
      unfold Grounded
      rw [enclosing_cons htask.not_assertDone.1]
      exact ih
  | @assertDone _ negate start mark _ cut _ outer T _ E _ L _ hD _ _ hcut _ =>
      refine .inr ⟨negate, start, outer, mark, cut, T, rfl, ?_⟩
      rw [hcut, hD]
      simp only [Comparison.whole, List.append_nil, List.length_append, List.length_cons]
      omega

theorem Locked.running_inv {x' : State Task Choice Store} (h : Locked F (.running c) x') :
    ∃ D D' T' s', c.choices = D ++ F.choices ∧
      x' = .running ⟨T', D' ++ F.choices', s'⟩ ∧
      TasksAgree F D D' c.store.dir c.store.pos s'.caps.mark c.tasks T' ∧
      ChoicesAgree F (headDir c.tasks c.store.dir) D D' ∧ F.Keeps D' s'.caps := by
  cases h with
  | running hpos hdir htasks hchoices hkeeps =>
      exact ⟨_, _, _, _, rfl, rfl, htasks, hchoices, hkeeps⟩

theorem Locked.failing_inv {x' : State Task Choice Store} (h : Locked F (.failing c) x') :
    ∃ D D' T' s', c.choices = D ++ F.choices ∧
      x' = .failing ⟨T', D' ++ F.choices', s'⟩ ∧ c.store.dir = s'.dir ∧
      ChoicesAgree F c.store.dir D D' ∧ F.Keeps D' s'.caps := by
  cases h with
  | failing hdir hchoices hkeeps => exact ⟨_, _, _, _, rfl, rfl, hdir, hchoices, hkeeps⟩

variable {caps : Caps} {C : List Choice} {s : Store} {loop : Loop} {count : Nat} {atom : NodeRef}

theorem TasksAgree.greedyRepeat_inv {mark : Nat}
    (h : TasksAgree F D D' dir pos mark (.greedyRepeat loop count :: T) T') :
    ∃ count' T₁, T' = .greedyRepeat loop count' :: T₁ ∧
      (count = 0 ∧ count' = 0 ∨ F.matcher.atomOf loop = none) ∧
      PendingAgree F D D' dir pos ((Task.greedyRepeat loop count).mustMove dir) T T₁ := by
  generalize hall : Task.greedyRepeat loop count :: T = T₀ at h
  cases h with
  | pending h =>
      cases h with
      | base =>
          rcases F.ground with hnil | ⟨_, _, _, _, _, _, hdone, -⟩
          · rw [hnil] at hall
            cases hall
          · rw [hdone] at hall
            cases hall
      | task htask hrest =>
          obtain ⟨rfl, rfl⟩ := List.cons.inj hall
          cases htask with
          | greedyRepeat _ _ count' _ hn => exact ⟨count', _, rfl, hn.imp_right And.left, hrest⟩
      | assertDone => cases hall
  | classAdvance => cases hall
  | assertFailed => cases hall
  | fastShrink => cases hall

variable {cont : List Task}

theorem TasksAgree.fastShrink_inv {mark entry old level : Nat} {consumed : List Nat}
    (h : TasksAgree F D D' dir pos mark (.fastShrink atom consumed entry loop old cont level :: T)
      T') : ∃ T₁, cont = T ∧ PendingAgree F D D' dir entry (decide (0 < loop.min)) T T₁ := by
  cases h with
  | pending h => exact (h.ne_resumed nofun nofun).elim
  | fastShrink h hlevels => exact ⟨_, rfl, h⟩

/-- The parts of a state an attempt can be in. -/
theorem Sane.inv (h : Sane m caps (.running c)) :
    TasksAgree (.whole m caps) c.choices c.choices c.store.dir c.store.pos c.store.caps.mark
      c.tasks c.tasks ∧
    ChoicesAgree (.whole m caps) (headDir c.tasks c.store.dir) c.choices c.choices ∧
    (Comparison.whole m caps).Keeps c.choices c.store.caps := by
  obtain ⟨D, D', T', s', hC, hx, htasks, hchoices, hkeeps⟩ := h.running_inv
  injection hx with hx
  subst hx
  obtain rfl : D' ++ [] = D := hC.trans (List.append_nil D)
  simp only [Comparison.whole, List.append_nil] at *
  exact ⟨htasks, hchoices, hkeeps⟩

/-- A run from a repeat comes back to the choices it found in the direction it had. -/
theorem Sane.dir_eq (h : Sane m caps (.running ⟨.greedyRepeat loop 0 :: T, C, s⟩))
    (hrun : Descends m.memoless.machine C.length (.running ⟨.greedyRepeat loop 0 :: T, C, s⟩)
      (.running c)) (hc : c.choices = C) : headDir c.tasks c.store.dir = s.dir := by
  obtain ⟨_, T₁, hT, hn, hrest⟩ := h.inv.1.greedyRepeat_inv
  obtain ⟨-, rfl⟩ := List.cons.inj hT
  let F : Comparison := ⟨m.memoless, false, s.dir, enclosing T, enclosing T, C, C, s.caps, rfl,
    hrest.grounded⟩
  have hpending : PendingAgree F [] [] s.dir s.pos _ T T := hrest.rebase rfl rfl rfl rfl
  have hnext : PendingAgree F [] [] s.dir s.pos false (.greedyRepeat loop 0 :: T)
      (.greedyRepeat loop 0 :: T) :=
    .task (.greedyRepeat loop 0 0 nofun (.inl ⟨rfl, rfl⟩)) hpending
  have hlocked : Locked F (.running ⟨.greedyRepeat loop 0 :: T, [] ++ C, s⟩)
      (.running ⟨.greedyRepeat loop 0 :: T, [] ++ C, s⟩) :=
    .running rfl rfl (.pending hnext) .nil ⟨nofun, .refl _⟩
  obtain ⟨z', -, hz, -⟩ := hlocked.descends hrun (Nat.le_of_eq (congrArg _ hc.symm)) (.inr rfl)
  obtain ⟨D, D', T', s', hD, -, -, hchoices, -⟩ := hz.running_inv
  have hnil : D = [] := by
    rw [hc] at hD
    exact List.append_left_eq_self.mp hD.symm
  subst hnil
  generalize headDir c.tasks c.store.dir = d at hchoices
  cases hchoices
  rfl

/-- A simple repeat that can shrink no further has failed for good. -/
theorem Shrinks.entryHolds {consumed : List Nat} {entry old level : Nat} {d : Cfg} (hsane : Sane m caps
      (.running ⟨.fastShrink atom consumed entry loop old cont level :: T, C, s⟩))
    (h : Shrinks m caps C (.fastShrink atom consumed entry loop old cont level :: T)
      (.running ⟨.fastShrink atom consumed entry loop old cont level :: T, C, s⟩))
    (hs : m.memoless.machine.step
      (.running ⟨.fastShrink atom consumed entry loop old cont level :: T, C, s⟩) =
        some (.failing d)) (hd : d.choices = C) :
    EntryHolds m ⟨atom.addr, entry, s.dir, loop, some cont⟩ := by
  obtain ⟨_, rfl, hpending⟩ := hsane.inv.1.fastShrink_inv
  obtain ⟨s₀, hpos, hstart, hrun⟩ := h _ _ _ _ _ _ _ _ rfl
  exact ⟨C, s₀, d, hpos, (hstart.dir_eq hrun rfl).symm, hpending.grounded,
    hrun.snoc (Nat.le_refl _) hs, hd⟩

/-- Matchers that compare tasks alike compare the waiting tasks alike. -/
theorem pendingAgree_congr {m' : Matcher} (h : ∀ free dir pos strict task task',
      m'.taskAgrees free dir pos strict task task' = m.taskAgrees free dir pos strict task task') :
    m'.pendingAgree dir pos strict T T' = m.pendingAgree dir pos strict T T' := by
  fun_induction pendingAgree m dir pos strict T T' with
  | case1 | case2 => simp only [pendingAgree]
  | case3 strict task tasks task' tasks' hdone ih =>
      rw [pendingAgree, ih, h]
      exact hdone
  | case4 strict T T' hnil hdone hcons => rw [pendingAgree] <;> assumption

theorem pendingAgree_memoless :
    m.memoless.pendingAgree dir pos strict T T' = m.pendingAgree dir pos strict T T' := by
  refine pendingAgree_congr fun free dir pos strict task task' => ?_
  cases task <;> rfl

/-- A repeat that failed for good fails again under tasks that agree. -/
theorem EntryHolds.fails {addr : List Nat} (h : EntryHolds m ⟨addr, s.pos, s.dir, loop, some cont⟩)
    (hfree : loop.node.node.isBackrefFree = true)
    (hagree : m.pendingAgree s.dir s.pos ((Task.greedyRepeat loop 0).mustMove s.dir) cont T = true) :
    ∃ d, Descends m.memoless.machine C.length (.running ⟨.greedyRepeat loop 0 :: T, C, s⟩)
      (.failing d) ∧ d.choices = C ∧ d.store.dir = s.dir ∧ s.caps.Extends d.store.caps := by
  obtain ⟨C₀, s₀, d₀, hpos, hdir, hground, hrun, hd₀⟩ := h
  let F : Comparison := ⟨m.memoless, true, s.dir, enclosing cont, enclosing T, C₀, C, s.caps, rfl,
    hground⟩
  rw [← pendingAgree_memoless] at hagree
  have hpending : PendingAgree F [] [] s.dir s.pos _ cont T :=
    pendingAgree_sound rfl rfl rfl hagree
  have hnext : PendingAgree F [] [] s.dir s.pos false (.greedyRepeat loop 0 :: cont)
      (.greedyRepeat loop 0 :: T) :=
    .task (.greedyRepeat loop 0 0 (fun _ => hfree) (.inl ⟨rfl, rfl⟩)) hpending
  have hlocked : Locked F (.running ⟨.greedyRepeat loop 0 :: cont, [] ++ C₀, s₀⟩)
      (.running ⟨.greedyRepeat loop 0 :: T, [] ++ C, s⟩) := by
    refine .running hpos hdir (.pending ?_) ?_ ⟨nofun, .refl _⟩
    · rw [hpos, hdir]
      exact hnext
    · change ChoicesAgree F s₀.dir [] []
      rw [hdir]
      exact .nil
  obtain ⟨z', hrun', hz, -⟩ := hlocked.descends hrun (Nat.le_of_eq (congrArg _ hd₀.symm)) (.inl rfl)
  obtain ⟨D, D', T', s', hD, rfl, hsame, hchoices, hkeeps⟩ := hz.failing_inv
  have hnil : D = [] := by
    rw [hd₀] at hD
    exact List.append_left_eq_self.mp hD.symm
  subst hnil
  have hlen := hchoices.length_eq
  obtain rfl : D' = [] := List.eq_nil_of_length_eq_zero hlen.symm
  refine ⟨_, hrun', rfl, ?_, hkeeps.2⟩
  rw [hsame] at hchoices
  change s'.dir = s.dir
  generalize s'.dir = e at hchoices
  cases hchoices
  rfl

end

end Matcher

end Slag.Regexp
