import Slag.Regexp.FirstChar
import Slag.Regexp.MemoSound

/-!
A match can begin only with a character of the prefilter. While the character
at the start of an attempt is not one of them, the attempt stays where it
started, with a task ahead that cannot be passed there: it is `Held`.
-/

namespace Slag.Regexp

open Slag.Backtrack

/-- Every character of the first ranges is one of the second. -/
def Ranges.Within (a b : Ranges) : Prop :=
  ∀ c, Ctx.rangesContain a c = true → Ctx.rangesContain b c = true

theorem within_rangesUnion {a b S : Ranges} (h : (rangesUnion a b).Within S) :
    a.Within S ∧ b.Within S :=
  ⟨fun c hc => h c (rangesContain_rangesUnion (.inl hc)),
    fun c hc => h c (rangesContain_rangesUnion (.inr hc))⟩

variable {max : Option Nat} {owned : List Nat} {greedy : Bool} {index : Nat}

variable {min : Nat} {addr : List Nat}

namespace Ctx

variable (ctx : Ctx) (S : Ranges)

/-- The analysis bounds the first characters of a node by `S`. -/
def Bounded (node : Node) : Prop :=
  node.compiled = true ∧
    ∃ canEmpty s, firstCharAnalysis ctx.tables ctx.unicode node = (canEmpty, some s) ∧ s.Within S

/-- The analysis finds that a node must consume a character of `S`. -/
def Stuck (node : Node) : Prop :=
  node.compiled = true ∧
    ∃ s, firstCharAnalysis ctx.tables ctx.unicode node = (false, some s) ∧ s.Within S

/-- A node that, short of a character of `S`, stays where it is. -/
def Confined (node : Node) : Prop :=
  node.isTransparent = true ∨ ctx.Bounded S node

/-- A sequence with a stuck node after confined ones. -/
inductive StuckSeq : List Node → Prop
  | here {node : Node} {nodes : List Node} (h : ctx.Stuck S node) : StuckSeq (node :: nodes)
  | later {node : Node} {nodes : List Node} (h : ctx.Confined S node) (hrest : StuckSeq nodes) :
      StuckSeq (node :: nodes)

variable {ctx S} {canEmpty : Bool} {s acc : Ranges}

theorem Stuck.bounded {node : Node} (h : ctx.Stuck S node) : ctx.Bounded S node :=
  ⟨h.1, false, h.2⟩

variable {nodes : List Node} {alts : List (List Node)}

theorem stuckSeq_of_analysis (hcompiled : Node.compiledSeq nodes = true)
    (h : firstCharAnalysisSeq ctx.tables ctx.unicode acc nodes = (canEmpty, some s)) (hS : s.Within S) :
    acc.Within S ∧ ctx.StuckSeq S nodes := by
  induction nodes generalizing acc with
  | nil => cases h
  | cons node nodes ih =>
      rw [Node.compiledSeq, Bool.and_eq_true] at hcompiled
      rw [firstCharAnalysisSeq] at h
      split at h
      · rename_i htransparent
        obtain ⟨hacc, hrest⟩ := ih hcompiled.2 h
        exact ⟨hacc, .later (.inl htransparent) hrest⟩
      · split at h
        · rename_i set hnode
          obtain ⟨hacc, hrest⟩ := ih hcompiled.2 h
          obtain ⟨hacc, hset⟩ := within_rangesUnion hacc
          exact ⟨hacc, .later (.inr ⟨hcompiled.1, true, set, hnode, hset⟩) hrest⟩
        · rename_i set hnode
          cases h
          obtain ⟨hacc, hset⟩ := within_rangesUnion hS
          exact ⟨hacc, .here ⟨hcompiled.1, set, hnode, hset⟩⟩
        · cases h

theorem stuckSeq_of_analysisAlts {anyEmpty : Bool} (hcompiled : Node.compiledAlts alts = true)
    (h : firstCharAnalysisAlts ctx.tables ctx.unicode acc anyEmpty alts = (canEmpty, some s))
    (hS : s.Within S) : acc.Within S ∧ ∀ alt ∈ alts, ctx.StuckSeq S alt := by
  induction alts generalizing acc anyEmpty with
  | nil =>
      cases h
      exact ⟨hS, nofun⟩
  | cons alt alts ih =>
      rw [Node.compiledAlts, Bool.and_eq_true] at hcompiled
      rw [firstCharAnalysisAlts] at h
      split at h
      · rename_i altEmpty set halt
        obtain ⟨hacc, hrest⟩ := ih hcompiled.2 h
        obtain ⟨hacc, hset⟩ := within_rangesUnion hacc
        have hseq := (stuckSeq_of_analysis hcompiled.1 halt hset).2
        exact ⟨hacc, List.forall_mem_cons.mpr ⟨hseq, hrest⟩⟩
      · cases h

theorem Bounded.sequence (h : ctx.Bounded S (.sequence nodes)) :
    ctx.StuckSeq S nodes := by
  obtain ⟨hcompiled, canEmpty, s, hs, hS⟩ := h
  rw [firstCharAnalysis] at hs
  rw [Node.compiled] at hcompiled
  exact (stuckSeq_of_analysis hcompiled hs hS).2

theorem Bounded.alternate (h : ctx.Bounded S (.alternate alts)) :
    alts ≠ [] ∧ ∀ alt ∈ alts, ctx.StuckSeq S alt := by
  obtain ⟨hcompiled, canEmpty, s, hs, hS⟩ := h
  rw [firstCharAnalysis] at hs
  rw [Node.compiled, Bool.and_eq_true, Bool.not_eq_true', List.isEmpty_eq_false_iff] at hcompiled
  exact ⟨hcompiled.1, (stuckSeq_of_analysisAlts hcompiled.2 hs hS).2⟩

theorem Bounded.capture {node : Node} (h : ctx.Bounded S (.capture index node)) :
    ctx.Bounded S node := by
  unfold Bounded at h
  rw [firstCharAnalysis_capture, Node.compiled] at h
  exact h

theorem Stuck.capture {node : Node} (h : ctx.Stuck S (.capture index node)) :
    ctx.Stuck S node := by
  unfold Stuck at h
  rw [firstCharAnalysis_capture, Node.compiled] at h
  exact h

theorem Bounded.repeated {node : Node} (h : ctx.Bounded S (.repeated node min max greedy owned)) :
    ctx.Bounded S node := by
  obtain ⟨hcompiled, canEmpty, s, hs, hS⟩ := h
  rw [Node.compiled, Bool.and_eq_true] at hcompiled
  rw [firstCharAnalysis] at hs
  obtain ⟨-, hset⟩ := Prod.mk.inj hs
  exact ⟨hcompiled.2, _, s, Prod.ext rfl hset, hS⟩

theorem Stuck.repeated {node : Node} (h : ctx.Stuck S (.repeated node min max greedy owned)) :
    0 < min ∧ ctx.Stuck S node := by
  obtain ⟨hcompiled, s, hs, hS⟩ := h
  rw [Node.compiled, Bool.and_eq_true] at hcompiled
  rw [firstCharAnalysis] at hs
  obtain ⟨hempty, hset⟩ := Prod.mk.inj hs
  split at hempty
  · cases hempty
  · rename_i hmin
    exact ⟨Nat.pos_of_ne_zero hmin, hcompiled.2, s, Prod.ext hempty hset, hS⟩

/-- The character at `pos` is one of `S`. -/
def Starts (ctx : Ctx) (pos : Nat) (S : Ranges) : Prop :=
  ∃ c len, ctx.readChar pos = some (c, len) ∧ rangesContain S c = true

variable {pos : Nat}

theorem charEnd_eq_none {test : Nat → Bool} (hpos : ¬ ctx.Starts pos S)
    (htest : ∀ c, c < 0x110000 → test c = true → rangesContain S c = true) :
    ctx.charEnd pos .forward test = none := by
  unfold charEnd
  cases hread : ctx.readCharDir pos .forward with
  | none => rfl
  | some read =>
      obtain ⟨c, len⟩ := read
      obtain ⟨unit, -, hc, -⟩ := readChar_lead hread
      dsimp only
      rw [if_neg fun h => hpos ⟨c, len, hread, htest c hc h⟩]

theorem Bounded.char_none {cp : Nat} {fold : Bool} (h : ctx.Bounded S (.char cp fold))
    (hcanonical : ctx.Canonical) (hpos : ¬ ctx.Starts pos S) :
    ctx.charEnd pos .forward (ctx.charTest cp fold) = none := by
  obtain ⟨-, canEmpty, s, hs, hS⟩ := h
  rw [firstCharAnalysis] at hs
  obtain ⟨-, hset⟩ := Prod.mk.inj hs
  obtain rfl := Option.some.inj hset
  exact charEnd_eq_none hpos fun c hc htest => hS c (firstChar_charTest hcanonical htest hc)

theorem Bounded.class_none {cls : CharClass} (h : ctx.Bounded S (.charClass cls))
    (hcanonical : ctx.Canonical) (hpos : ¬ ctx.Starts pos S) :
    cls.strings = [] ∧
      ctx.charEnd pos .forward (fun c => ctx.classMatches cls pos c .forward) = none := by
  obtain ⟨-, canEmpty, s, hs, hS⟩ := h
  rw [firstCharAnalysis] at hs
  obtain ⟨-, hset⟩ := Prod.mk.inj hs
  refine ⟨?_, charEnd_eq_none hpos fun c hc htest =>
    hS c (firstChar_classMatches hcanonical hset htest hc)⟩
  unfold firstCharClass at hset
  split at hset
  · cases hset
  · rename_i hplain
    simp only [Bool.or_eq_true, Bool.not_eq_true', List.isEmpty_eq_false_iff, not_or, ne_eq,
      not_not] at hplain
    exact hplain.2

/-- The iterations of a simple atom do not even begin. -/
theorem simpleEnd_eq_none {node : Node} {atom : NodeRef} (hatom : simpleAtom addr node = some atom)
    (h : ctx.Bounded S node) (hcanonical : ctx.Canonical) (hpos : ¬ ctx.Starts pos S) :
    ctx.simpleEnd .forward atom.node pos = none := by
  have hlinear : ∀ node : Node, node.isLinearAtom = true → ctx.Confined S node →
      ctx.simpleEnd .forward node pos = none := by
    rintro node hn (htransparent | hnode)
    · cases node <;> first | exact absurd htransparent Bool.false_ne_true | exact absurd hn Bool.false_ne_true
    · cases node with
      | char cp fold => exact hnode.char_none hcanonical hpos
      | charClass cls => exact (hnode.class_none hcanonical hpos).2
      | any dotAll =>
          obtain ⟨-, canEmpty, s, hs, -⟩ := hnode
          rw [firstCharAnalysis] at hs
          cases hs
      | _ => cases hn
  fun_induction simpleAtom addr node with
  | case1 addr cp fold => cases hatom; exact hlinear _ rfl (.inr h)
  | case2 addr dotAll => cases hatom; exact hlinear _ rfl (.inr h)
  | case3 addr cls hc => cases hatom; exact hlinear _ hc (.inr h)
  | case4 addr cls hc => cases hatom
  | case5 addr index inner ih => exact ih hatom h.capture
  | case6 addr node ih =>
      refine ih hatom ?_
      cases h.sequence with
      | here h => exact h.bounded
      | later _ hrest => cases hrest
  | case7 addr nodes _ hc =>
      cases hatom
      rw [Bool.and_eq_true] at hc
      cases nodes with
      | nil => cases hc.1
      | cons node nodes =>
          have hn := hc.2
          rw [List.all_cons, Bool.and_eq_true] at hn
          have hnone : ctx.simpleEnd .forward node pos = none := by
            cases h.sequence with
            | here h => exact hlinear node hn.1 (.inr h.bounded)
            | later h _ => exact hlinear node hn.1 h
          simp only [simpleEnd, simpleEndSeq, hnone]
  | case8 addr nodes _ hc => cases hatom
  | case9 => cases hatom

end Ctx

namespace Matcher

variable {m : Matcher} {S : Ranges} {start : Nat} {T : List Task} {C : List Choice} {s : Store}
  {task : Task} {dir : Direction}

section

variable (m S)

/-- A task that, short of a character of `S`, stays where it is. -/
inductive TaskConfined : Task → Prop
  | node {ref : NodeRef} (h : m.ctx.Confined S ref.node) : TaskConfined (.node ref)
  | captureClose {index start : Nat} : TaskConfined (.captureClose index start)
  | greedyRepeat {loop : Loop} {count : Nat} (h : m.ctx.Bounded S loop.node.node) :
      TaskConfined (.greedyRepeat loop count)
  | lazyRepeat {loop : Loop} {count : Nat} (h : m.ctx.Bounded S loop.node.node) :
      TaskConfined (.lazyRepeat loop count)
  | repeatIterDone {loop : Loop} {greedy : Bool} {count iterStart : Nat}
      (h : m.ctx.Bounded S loop.node.node) : TaskConfined (.repeatIterDone loop greedy count iterStart)
  | repeatDone {min count : Nat} : TaskConfined (.repeatDone min count)
  | lazyIterate {loop : Loop} {count : Nat} (h : m.ctx.Bounded S loop.node.node) :
      TaskConfined (.lazyIterate loop count)

/-- A task that needs a character of `S`. -/
inductive TaskStuck : Task → Prop
  | node {ref : NodeRef} (h : m.ctx.Stuck S ref.node) : TaskStuck (.node ref)
  | seqElem {addr : List Nat} {nodes : List Node} {index : Nat}
      (h : m.ctx.StuckSeq S (nodes.drop index)) : TaskStuck (.seqElem addr nodes index)
  | greedyRepeat {loop : Loop} {count : Nat} (h : m.ctx.Stuck S loop.node.node)
      (hcount : count < loop.min) : TaskStuck (.greedyRepeat loop count)
  | lazyRepeat {loop : Loop} {count : Nat} (h : m.ctx.Stuck S loop.node.node)
      (hcount : count < loop.min) : TaskStuck (.lazyRepeat loop count)
  | repeatDone {min count : Nat} (hcount : count < min) : TaskStuck (.repeatDone min count)

/-- The tasks cannot all be passed at a position without a character of `S`. -/
inductive Blocked : List Task → Prop
  | stuck {task : Task} {T : List Task} (h : TaskStuck m S task) : Blocked (task :: T)
  | confined {task : Task} {T : List Task} (h : TaskConfined m S task) (hrest : Blocked T) :
      Blocked (task :: T)

/-- The tasks do not lead to a match of an attempt origin `start`: they are
blocked there, or they end inside a lookaround. -/
inductive Held (start : Nat) : List Task → Nat → Direction → Prop
  | top {T : List Task} (h : Blocked m S T) : Held start T start .forward
  | inside {T : List Task} {pos : Nat} {dir : Direction}
      (h : ∃ task ∈ T, task.isAssertDone = true) : Held start T pos dir
  | failed {T : List Task} {negate : Bool} {origin pos : Nat} {outer dir : Direction}
      (h : Held start T origin outer) : Held start (.assertFailed negate origin outer :: T) pos dir

/-- Every choice leads to tasks that are held. -/
inductive ChoicesHeld (start : Nat) : Direction → List Choice → Prop
  | nil {dir : Direction} : ChoicesHeld start dir []
  | cons {dir : Direction} {k : Choice} {C : List Choice}
      (h : Held m S start (k.resume.toList ++ k.cont) k.pos dir)
      (hrest : ChoicesHeld start (headDir (k.resume.toList ++ k.cont) dir) C) :
      ChoicesHeld start dir (k :: C)

/-- A task leaves what is held held. -/
def Onward (start : Nat) (r : Bool × Cfg) : Prop :=
  (r.1 = true → Held m S start r.2.tasks r.2.store.pos r.2.store.dir) ∧
    ChoicesHeld m S start r.2.store.dir r.2.choices

end

variable {outer : Direction} {negate : Bool} {ref : NodeRef} {c : Cfg} {loop : Loop} {count : Nat}
  {caps : Caps}

theorem Held.failed_inv {origin pos : Nat}
    (h : Held m S start (.assertFailed negate origin outer :: T) pos dir) :
    Held m S start T origin outer := by
  cases h with
  | top h => cases h with
    | stuck h => cases h
    | confined h _ => cases h
  | inside h =>
      obtain ⟨task, hmem, hdone⟩ := h
      rcases List.mem_cons.mp hmem with rfl | hmem
      · cases hdone
      · exact .inside ⟨task, hmem, hdone⟩
  | failed h => exact h

theorem ChoicesHeld.suffix {E : List Choice} (h : ChoicesHeld m S start dir (E ++ C)) :
    ∃ dir', ChoicesHeld m S start dir' C := by
  induction E generalizing dir with
  | nil => exact ⟨dir, h⟩
  | cons k E ih =>
      cases h with
      | cons _ hrest => exact ih hrest

/-- Choices pushed on one store, none of them the end of a lookaround. -/
theorem ChoicesHeld.pushAll (h : ChoicesHeld m S start dir C) (choices : List Choice)
    (hheld : ∀ k ∈ choices, Held m S start (k.resume.toList ++ k.cont) k.pos dir)
    (hdir : ∀ k ∈ choices, headDir (k.resume.toList ++ k.cont) dir = dir) :
    ChoicesHeld m S start dir (choices ++ C) := by
  induction choices with
  | nil => exact h
  | cons k choices ih =>
      have hrest := ih (fun k hk => hheld k (List.mem_cons_of_mem _ hk))
        fun k hk => hdir k (List.mem_cons_of_mem _ hk)
      refine .cons (hheld k List.mem_cons_self) ?_
      rw [hdir k List.mem_cons_self]
      exact hrest

/-- Tasks that are added inside a lookaround do not leave it. -/
theorem onward_inside (hin : ∃ task ∈ T, task.isAssertDone = true)
    (hC : ChoicesHeld m S start s.dir C) {r : Bool × Cfg} (added : List Task)
    (resumes : List (Nat × Nat × Task)) (htasks : r.2.tasks = added ++ T)
    (hchoices : r.2.choices =
      (resumes.map fun resume => ⟨resume.1, resume.2.1, T, some resume.2.2⟩) ++ C)
    (hresumes : ∀ resume ∈ resumes, ∀ d, headDir [resume.2.2] d = d)
    (hdir : r.2.store.dir = s.dir) : Onward m S start r := by
  have hsub : ∀ added : List Task, ∃ task ∈ added ++ T, task.isAssertDone = true := by
    obtain ⟨task, hmem, hdone⟩ := hin
    exact fun added => ⟨task, List.mem_append_right _ hmem, hdone⟩
  refine ⟨fun _ => ?_, ?_⟩
  · rw [htasks]
    exact .inside (hsub added)
  · rw [hdir, hchoices]
    refine hC.pushAll _ (fun k hk => ?_) fun k hk => ?_
    · obtain ⟨resume, -, rfl⟩ := List.mem_map.mp hk
      exact .inside (hsub [resume.2.2])
    · obtain ⟨⟨pos, mark, resume⟩, hmem, rfl⟩ := List.mem_map.mp hk
      have hd := hresumes _ hmem s.dir
      cases resume <;> first | rfl | exact hd

theorem onward_inside_node (hin : ∃ task ∈ T, task.isAssertDone = true)
    (hC : ChoicesHeld m S start s.dir C) (ref : NodeRef) :
    Onward m S start (m.stepNode ref ⟨T, C, s⟩) := by
  obtain ⟨addr, node⟩ := ref
  have hmove : ∀ stop : Option Nat, Onward m S start (moveTo ⟨T, C, s⟩ stop) := by
    intro stop
    cases stop <;> exact onward_inside hin hC [] [] rfl rfl nofun rfl
  have hassert : ∀ negate ref sub, Onward m S start (assertStart negate ref sub ⟨T, C, s⟩) := by
    intro negate ref sub
    refine ⟨fun _ => .inside ?_, .cons (.failed (.inside hin)) hC⟩
    obtain ⟨task, hmem, hdone⟩ := hin
    exact ⟨task, List.mem_cons_of_mem _ (List.mem_cons_of_mem _ hmem), hdone⟩
  cases node with
  | charClass cls =>
      simp only [stepNode]
      cases m.ctx.classStrings cls s.pos s.dir with
      | nil => exact hmove _
      | cons len others =>
          dsimp only
          rw [← List.foldl_map (f := Task.classAdvance) (g := Cfg.pushChoice), pushChoices]
          refine onward_inside hin hC [] ((others.map Task.classAdvance).reverse.map fun resume =>
            (s.pos, s.caps.mark, resume)) rfl ?_ ?_ rfl
          · rw [List.map_map]
            rfl
          · simp only [List.mem_map, List.mem_reverse]
            rintro _ ⟨_, ⟨len, -, rfl⟩, rfl⟩ d
            rfl
  | alternate alts =>
      simp only [stepNode]
      rw [← List.foldl_map (f := fun alt : List Node × Nat => Task.seqElem (alt.2 :: addr) alt.1 0)
        (g := Cfg.pushChoice), pushChoices]
      refine onward_inside hin hC [_] (((alts.zipIdx.drop 1).reverse.map
        fun alt => Task.seqElem (alt.2 :: addr) alt.1 0).reverse.map fun resume =>
          (s.pos, s.caps.mark, resume)) rfl ?_ ?_ rfl
      · rw [List.map_map]
        rfl
      · simp only [List.mem_map, List.mem_reverse]
        rintro _ ⟨_, ⟨alt, -, rfl⟩, rfl⟩ d
        rfl
  | char _ _ | any _ | backref _ _ => exact hmove _
  | empty | start _ | finish _ | wordBoundary _ | notWordBoundary _ =>
      exact onward_inside hin hC [] [] rfl rfl nofun rfl
  | sequence _ | repeated _ _ _ _ _ => exact onward_inside hin hC [_] [] rfl rfl nofun rfl
  | capture _ _ => exact onward_inside hin hC [_, _] [] rfl rfl nofun rfl
  | lookahead negate node => exact hassert negate ⟨0 :: addr, node⟩ .forward
  | lookbehind negate node => exact hassert negate ⟨0 :: addr, node⟩ .backward

theorem onward_inside_dispatch (hin : ∃ task ∈ T, task.isAssertDone = true)
    (hC : ChoicesHeld m S start s.dir C) (hdone : task.isAssertDone = false)
    (hfailed : ∀ negate origin outer, task ≠ .assertFailed negate origin outer)
    (hshrink : ∀ atom consumed entry loop mark cont level,
      task = .fastShrink atom consumed entry loop mark cont level → cont = T) :
    Onward m S start (m.dispatch task ⟨T, C, s⟩) := by
  have hsame : ∀ {r : Bool × Cfg}, r.2.tasks = T → r.2.choices = C → r.2.store.dir = s.dir →
      Onward m S start r := by
    intro r htasks hchoices hdir
    exact onward_inside hin hC [] [] htasks hchoices nofun hdir
  have hiterate : ∀ loop greedy count,
      Onward m S start (true, iterate loop greedy count ⟨T, C, s⟩) := by
    intro loop greedy count
    exact onward_inside hin hC [_, _] [] rfl rfl nofun rfl
  cases task with
  | node ref => exact onward_inside_node hin hC ref
  | seqElem addr nodes index =>
      simp only [dispatch]
      split
      · exact onward_inside hin hC [_, _] [] rfl rfl nofun rfl
      · exact hsame rfl rfl rfl
  | captureClose _ _ | repeatDone _ _ | classAdvance _ => exact hsame rfl rfl rfl
  | greedyRepeat loop count =>
      simp only [dispatch]
      split
      · exact hsame rfl rfl rfl
      · split
        · split
          · exact hsame rfl rfl rfl
          · rename_i atom _ _
            obtain ⟨⟨consumed, cur, cnt⟩, hr⟩ : ∃ r, m.ctx.consumeLoop atom.node s.dir loop.max
              (m.ctx.input.length + 1) s.pos count = r := ⟨_, rfl⟩
            rw [greedySimple_eq m atom loop count T C s hr]
            split
            · exact hsame rfl rfl rfl
            · split
              · exact onward_inside hin hC [] [(_, _, _)] rfl rfl
                  (List.forall_mem_singleton.mpr fun d => rfl) rfl
              · exact hsame rfl rfl rfl
        · exact onward_inside hin hC [_, _] [(_, _, _)] rfl rfl
            (List.forall_mem_singleton.mpr fun d => rfl) rfl
  | lazyRepeat loop count =>
      simp only [dispatch]
      split
      · exact onward_inside hin hC [] [(_, _, _)] rfl rfl
          (List.forall_mem_singleton.mpr fun d => rfl) rfl
      · split
        · exact hsame rfl rfl rfl
        · exact hiterate loop false count
  | repeatIterDone loop greedy count iterStart =>
      simp only [dispatch]
      split
      · exact hsame rfl rfl rfl
      · split
        · exact hsame rfl rfl rfl
        · exact onward_inside hin hC [_] [] rfl rfl nofun rfl
  | lazyIterate loop count =>
      simp only [dispatch]
      split
      · exact hsame rfl rfl rfl
      · exact hiterate loop false count
  | assertDone => cases hdone
  | assertFailed negate origin outer => exact (hfailed _ _ _ rfl).elim
  | fastShrink atom consumed entry loop mark cont level =>
      obtain rfl := hshrink _ _ _ _ _ _ _ rfl
      simp only [dispatch]
      split
      · split <;> exact hsame rfl rfl rfl
      · split <;> exact onward_inside hin hC [] [(_, _, _)] rfl rfl
          (List.forall_mem_singleton.mpr fun d => rfl) rfl

theorem Blocked.inv (h : Blocked m S (task :: T)) :
    TaskStuck m S task ∨ TaskConfined m S task ∧ Blocked m S T := by
  cases h with
  | stuck h => exact .inl h
  | confined h hrest => exact .inr ⟨h, hrest⟩

/-- A node that is not transparent and leads nowhere without a character of `S`. -/
theorem Blocked.node_bounded (h : Blocked m S (.node ref :: T)) (hnode : ref.node.isTransparent = false) :
    m.ctx.Bounded S ref.node := by
  rcases h.inv with ⟨⟨h⟩⟩ | ⟨⟨h⟩, -⟩
  · exact h.bounded
  · rcases h with h | h
    · exact absurd (hnode.symm.trans h) Bool.false_ne_true
    · exact h

theorem Blocked.node_transparent (h : Blocked m S (.node ref :: T))
    (hnode : firstCharAnalysis m.ctx.tables m.ctx.unicode ref.node = (true, none)) :
    Blocked m S T := by
  rcases h.inv with ⟨⟨-, s, hs, -⟩⟩ | ⟨-, h⟩
  · exact absurd (hnode.symm.trans hs) nofun
  · exact h

/-- A repeat entered where it is blocked. -/
theorem Blocked.repeated {node : Node}
    (h : Blocked m S (.node ⟨addr, .repeated node min max greedy owned⟩ :: T)) (addr' : List Nat) :
    Blocked m S ((if greedy then .greedyRepeat ⟨⟨addr', node⟩, owned, min, max⟩ 0
      else .lazyRepeat ⟨⟨addr', node⟩, owned, min, max⟩ 0) :: T) := by
  rcases h.inv with ⟨⟨h⟩⟩ | ⟨-, hrest⟩
  · obtain ⟨hmin, hnode⟩ := h.repeated
    cases greedy with
    | true => exact .stuck (.greedyRepeat hnode hmin)
    | false => exact .stuck (.lazyRepeat hnode hmin)
  · have hnode := (h.node_bounded rfl).repeated
    cases greedy with
    | true => exact .confined (.greedyRepeat hnode) hrest
    | false => exact .confined (.lazyRepeat hnode) hrest

/-- What is held at the start of an attempt, with the store the tasks see. -/
structure AtStart (m : Matcher) (S : Ranges) (start : Nat) (C : List Choice) (s : Store) :
    Prop where
  canonical : m.ctx.Canonical
  starts : ¬ m.ctx.Starts start S
  choices : ChoicesHeld m S start .forward C
  pos : s.pos = start
  dir : s.dir = .forward

theorem AtStart.stop (h : AtStart m S start C s) (hC : c.choices = C) (hdir : c.store.dir = s.dir) :
    Onward m S start (false, c) := by
  refine ⟨nofun, ?_⟩
  rw [hdir, h.dir, hC]
  exact h.choices

theorem AtStart.go (h : AtStart m S start C s) (resumes : List Task) (hT : Blocked m S c.tasks)
    (hC : c.choices = (resumes.map fun resume => ⟨s.pos, s.caps.mark, T, some resume⟩) ++ C)
    (hresumes : ∀ resume ∈ resumes, Blocked m S (resume :: T) ∧ ∀ d, headDir [resume] d = d)
    (hpos : c.store.pos = s.pos) (hdir : c.store.dir = s.dir) : Onward m S start (true, c) := by
  refine ⟨fun _ => ?_, ?_⟩
  · rw [hpos, hdir, h.pos, h.dir]
    exact .top hT
  · rw [hdir, h.dir, hC, h.pos]
    refine h.choices.pushAll _ (fun k hk => ?_) fun k hk => ?_
    · obtain ⟨resume, hmem, rfl⟩ := List.mem_map.mp hk
      exact .top (hresumes resume hmem).1
    · obtain ⟨resume, hmem, rfl⟩ := List.mem_map.mp hk
      have hd := (hresumes resume hmem).2 .forward
      cases resume <;> first | rfl | exact hd

theorem AtStart.test (h : AtStart m S start C s) (hT : Blocked m S T) (b : Bool) :
    Onward m S start (b, ⟨T, C, s⟩) := by
  cases b with
  | false => exact h.stop rfl rfl
  | true => exact h.go (T := T) [] hT rfl nofun rfl rfl

theorem AtStart.assertStart (h : AtStart m S start C s) (hT : Blocked m S T) (negate : Bool)
    (ref : NodeRef) (sub : Direction) :
    Onward m S start (assertStart negate ref sub ⟨T, C, s⟩) := by
  refine ⟨fun _ => .inside ⟨_, List.mem_cons_of_mem _ List.mem_cons_self, rfl⟩, ?_⟩
  refine .cons (.failed ?_) ?_
  · rw [h.pos, h.dir]
    exact .top hT
  · change ChoicesHeld m S start s.dir C
    rw [h.dir]
    exact h.choices

/-- One node at the start of an attempt. -/
theorem AtStart.node (h : AtStart m S start C s) (hT : Blocked m S (.node ref :: T)) :
    Onward m S start (m.stepNode ref ⟨T, C, s⟩) := by
  obtain ⟨addr, node⟩ := ref
  have hnever : firstCharAnalysis m.ctx.tables m.ctx.unicode node = (false, none) →
      node.isTransparent = false → Onward m S start (m.stepNode ⟨addr, node⟩ ⟨T, C, s⟩) := by
    intro hanalysis hnode
    obtain ⟨-, canEmpty, set, hset, -⟩ := hT.node_bounded hnode
    cases hanalysis.symm.trans hset
  cases node with
  | any dotAll =>
      refine hnever ?_ rfl
      rw [firstCharAnalysis]
  | backref indices fold =>
      refine hnever ?_ rfl
      rw [firstCharAnalysis]
  | empty | start _ | finish _ | wordBoundary _ | notWordBoundary _ =>
      refine h.test (hT.node_transparent ?_) _
      rw [firstCharAnalysis]
  | lookahead negate node =>
      refine h.assertStart (hT.node_transparent ?_) negate ⟨0 :: addr, node⟩ .forward
      rw [firstCharAnalysis]
  | lookbehind negate node =>
      refine h.assertStart (hT.node_transparent ?_) negate ⟨0 :: addr, node⟩ .backward
      rw [firstCharAnalysis]
  | char cp fold =>
      have hnone := (hT.node_bounded rfl).char_none h.canonical h.starts
      simp only [stepNode, h.pos, h.dir, hnone]
      exact h.stop rfl rfl
  | charClass cls =>
      obtain ⟨hstrings, hnone⟩ := (hT.node_bounded rfl).class_none h.canonical h.starts
      have hfound : m.ctx.classStrings cls start .forward = [] := by
        simp only [Ctx.classStrings, hstrings, List.filter_nil, List.map_nil, ite_self]
      simp only [stepNode, hfound, h.pos, h.dir, hnone]
      exact h.stop rfl rfl
  | sequence nodes =>
      exact h.go (T := T) [] (.stuck (.seqElem (hT.node_bounded rfl).sequence)) rfl (List.forall_mem_nil _) rfl rfl
  | alternate alts =>
      obtain ⟨hne, halts⟩ := (hT.node_bounded rfl).alternate
      simp only [stepNode]
      rw [← List.foldl_map (f := fun alt : List Node × Nat => Task.seqElem (alt.2 :: addr) alt.1 0)
        (g := Cfg.pushChoice), pushChoices]
      refine h.go _ (.stuck (.seqElem (halts _ ?_))) rfl ?_ rfl rfl
      · cases alts with
        | nil => exact absurd rfl hne
        | cons alt alts => exact List.mem_cons_self
      · simp only [List.mem_map, List.mem_reverse]
        rintro _ ⟨alt, hmem, rfl⟩
        have hseq := halts alt.1 (List.fst_mem_of_mem_zipIdx (List.mem_of_mem_drop hmem))
        exact ⟨.stuck (.seqElem hseq), fun d => rfl⟩
  | repeated node min max greedy owned =>
      exact h.go (T := T) [] (hT.repeated (0 :: addr)) rfl (List.forall_mem_nil _) rfl rfl
  | capture index node =>
      refine h.go (T := T) [] ?_ rfl (List.forall_mem_nil _) rfl rfl
      rcases hT.inv with ⟨⟨hnode⟩⟩ | ⟨-, hrest⟩
      · exact .stuck (.node hnode.capture)
      · exact .confined (.node (.inr (hT.node_bounded rfl).capture))
          (.confined .captureClose hrest)

/-- One more iteration of a repeat whose body is bounded. -/
theorem AtStart.iterate (h : AtStart m S start C s) (greedy : Bool) (resumes : List Task)
    (hresumes : ∀ resume ∈ resumes,
      Blocked m S (resume :: T) ∧ ∀ d, headDir [resume] d = d)
    (hT : m.ctx.Stuck S loop.node.node ∨ m.ctx.Bounded S loop.node.node ∧ Blocked m S T) :
    Onward m S start (true, iterate loop greedy count
      ⟨T, (resumes.map fun resume => ⟨s.pos, s.caps.mark, T, some resume⟩) ++ C, s⟩) := by
  refine h.go resumes ?_ rfl hresumes rfl rfl
  rcases hT with hnode | ⟨hnode, hT⟩
  · exact .stuck (.node hnode)
  · exact .confined (.node (.inr hnode)) (.confined (.repeatIterDone hnode) hT)

theorem AtStart.greedyRepeat (h : AtStart m S start C s)
    (hT : Blocked m S (.greedyRepeat loop count :: T))
    (hcount : ∀ atom, m.atomOf loop = some atom → count = 0) :
    Onward m S start (m.dispatch (.greedyRepeat loop count) ⟨T, C, s⟩) := by
  have hcases : m.ctx.Stuck S loop.node.node ∧ count < loop.min ∨
      m.ctx.Bounded S loop.node.node ∧ Blocked m S T := by
    rcases hT.inv with hstuck | ⟨hconfined, hrest⟩
    · cases hstuck with
      | greedyRepeat hnode hmin => exact .inl ⟨hnode, hmin⟩
    · cases hconfined with
      | greedyRepeat hnode => exact .inr ⟨hnode, hrest⟩
  have hdone : ∀ b : Bool, (b = true → loop.min ≤ count) →
      Onward m S start (b, ⟨T, C, s⟩) := by
    intro b hb
    rcases hcases with ⟨-, hmin⟩ | ⟨-, hrest⟩
    · cases b with
      | false => exact h.stop rfl rfl
      | true => exact absurd (hb rfl) (Nat.not_le_of_lt hmin)
    · exact h.test hrest b
  simp only [dispatch]
  split
  · exact hdone _ of_decide_eq_true
  · have hatomOf : (if m.options.fastPath then simpleAtom loop.node.addr loop.node.node else none) =
      m.atomOf loop := rfl
    rw [hatomOf]
    cases hatom : m.atomOf loop with
    | some atom =>
        obtain rfl := hcount atom hatom
        dsimp only
        split
        · exact h.stop rfl rfl
        · have hbounded : m.ctx.Bounded S loop.node.node := by
            rcases hcases with ⟨hnode, -⟩ | ⟨hnode, -⟩
            · exact hnode.bounded
            · exact hnode
          have hsimple : simpleAtom loop.node.addr loop.node.node = some atom := by
            unfold atomOf at hatom
            split at hatom
            · exact hatom
            · cases hatom
          have hnone := Ctx.simpleEnd_eq_none hsimple hbounded h.canonical h.starts
          rw [← h.pos, ← h.dir] at hnone
          rw [greedySimple_eq m atom loop 0 T C s (consumeLoop_stop (.inr hnone))]
          split
          · exact h.stop rfl rfl
          · rename_i hmin
            rw [if_neg (Nat.not_lt_zero _)]
            rcases hcases with ⟨-, hlt⟩ | ⟨-, hrest⟩
            · exact absurd hlt hmin
            · exact h.go (T := T) [] hrest rfl (List.forall_mem_nil _) rfl rfl
    | none =>
        refine h.iterate true [.repeatDone loop.min count] ?_ ?_
        · refine List.forall_mem_singleton.mpr ⟨?_, fun d => rfl⟩
          rcases hcases with ⟨-, hmin⟩ | ⟨-, hrest⟩
          · exact .stuck (.repeatDone hmin)
          · exact .confined .repeatDone hrest
        · exact hcases.imp And.left id

theorem AtStart.lazyRepeat (h : AtStart m S start C s) (hT : Blocked m S (.lazyRepeat loop count :: T)) :
    Onward m S start (m.dispatch (.lazyRepeat loop count) ⟨T, C, s⟩) := by
  simp only [dispatch]
  rcases hT.inv with hstuck | ⟨hconfined, hrest⟩
  · cases hstuck with
    | lazyRepeat hnode hmin =>
        rw [if_neg (Nat.not_le_of_lt hmin)]
        split
        · exact h.stop rfl rfl
        · exact h.iterate false [] (List.forall_mem_nil _) (.inl hnode)
  · cases hconfined with
    | lazyRepeat hnode =>
        split
        · refine h.go (T := T) [.lazyIterate loop count] hrest rfl ?_ rfl rfl
          exact List.forall_mem_singleton.mpr
            ⟨.confined (.lazyIterate hnode) hrest, fun d => rfl⟩
        · split
          · exact h.stop rfl rfl
          · exact h.iterate false [] (List.forall_mem_nil _) (.inr ⟨hnode, hrest⟩)

/-- One task at the start of an attempt. -/
theorem AtStart.dispatch (h : AtStart m S start C s) (hT : Blocked m S (task :: T))
    (hcount : ∀ loop count atom, task = .greedyRepeat loop count → m.atomOf loop = some atom →
      count = 0) : Onward m S start (m.dispatch task ⟨T, C, s⟩) := by
  cases task with
  | node ref => exact h.node hT
  | greedyRepeat loop count =>
      exact h.greedyRepeat hT fun atom hatom => hcount loop count atom rfl hatom
  | lazyRepeat loop count => exact h.lazyRepeat hT
  | seqElem addr nodes index =>
      cases hT with
      | confined hconfined _ => cases hconfined
      | stuck hstuck =>
          cases hstuck with
          | seqElem hseq =>
              have hindex : index < nodes.length := by
                by_contra hle
                rw [List.drop_eq_nil_of_le (Nat.le_of_not_lt hle)] at hseq
                cases hseq
              rw [List.drop_eq_getElem_cons hindex] at hseq
              simp only [Matcher.dispatch, if_pos hindex, h.dir, seqIndex,
                ← List.getElem_eq_getD (h := hindex) Node.empty]
              refine h.go (T := T) [] ?_ rfl (List.forall_mem_nil _) rfl rfl
              cases hseq with
              | here hnode => exact .stuck (.node hnode)
              | later hnode hrest => exact .confined (.node hnode) (.stuck (.seqElem hrest))
  | captureClose index origin =>
      cases hT with
      | stuck hstuck => cases hstuck
      | confined _ hrest => exact h.go (T := T) [] hrest rfl (List.forall_mem_nil _) rfl rfl
  | repeatDone min count =>
      cases hT with
      | stuck hstuck =>
          cases hstuck with
          | repeatDone hmin =>
              simp only [Matcher.dispatch, decide_eq_false (Nat.not_le_of_lt hmin)]
              exact h.stop rfl rfl
      | confined _ hrest => exact h.test hrest _
  | lazyIterate loop count =>
      cases hT with
      | stuck hstuck => cases hstuck
      | confined hconfined hrest =>
          cases hconfined with
          | lazyIterate hnode =>
              simp only [Matcher.dispatch]
              split
              · exact h.stop rfl rfl
              · exact h.iterate false [] (List.forall_mem_nil _) (.inr ⟨hnode, hrest⟩)
  | repeatIterDone loop greedy count iterStart =>
      cases hT with
      | stuck hstuck => cases hstuck
      | confined hconfined hrest =>
          cases hconfined with
          | repeatIterDone hnode =>
              simp only [Matcher.dispatch]
              split
              · exact h.stop rfl rfl
              · split
                · exact h.test hrest true
                · refine h.go (T := T) [] ?_ rfl (List.forall_mem_nil _) rfl rfl
                  cases greedy with
                  | true => exact .confined (.greedyRepeat hnode) hrest
                  | false => exact .confined (.lazyRepeat hnode) hrest
  | assertDone _ _ _ _ _ | assertFailed _ _ _ | classAdvance _ | fastShrink _ _ _ _ _ _ _ =>
      cases hT with
      | stuck hstuck => cases hstuck
      | confined hconfined _ => cases hconfined

/-- The choice recorded with a lookaround is still there when it ends. -/
theorem Sane.assertDone_inv {origin mark cut : Nat}
    (h : Sane m caps (.running ⟨.assertDone negate origin outer mark cut :: T, C, s⟩)) :
    ∃ E L, C = E ++ ⟨origin, mark, T, some (.assertFailed negate origin outer)⟩ :: L ∧
      cut = L.length := by
  have htasks := h.inv.1
  dsimp only at htasks
  generalize hall : Task.assertDone negate origin outer mark cut :: T = T₀ at htasks
  cases htasks with
  | classAdvance _ _ | assertFailed _ | fastShrink _ _ => cases hall
  | pending hpending =>
      cases hpending with
      | base => cases hall
      | task hagree _ =>
          obtain ⟨rfl, rfl⟩ := List.cons.inj hall
          cases hagree
      | assertDone hD _ _ hcut _ =>
          obtain ⟨hhead, rfl⟩ := List.cons.inj hall
          cases hhead
          rw [Comparison.whole, List.append_nil] at hcut
          exact ⟨_, _, hD, hcut⟩

/-- The end of a lookaround goes back to the choice recorded with it. -/
theorem onward_assertDone {origin mark cut : Nat}
    (hsane : Sane m caps (.running ⟨.assertDone negate origin outer mark cut :: T, C, s⟩))
    (hC : ChoicesHeld m S start s.dir C) :
    Onward m S start (m.dispatch (.assertDone negate origin outer mark cut) ⟨T, C, s⟩) := by
  obtain ⟨E, L, rfl, rfl⟩ := hsane.assertDone_inv
  obtain ⟨dir', hsuffix⟩ := hC.suffix
  cases hsuffix with
  | cons hheld hrest =>
      simp only [dispatch, Cfg.setDir, Cfg.setCaps, Cfg.setPos, truncate_append]
      cases negate with
      | true => exact ⟨(absurd · Bool.false_ne_true), hrest⟩
      | false => exact ⟨fun _ => hheld.failed_inv, hrest⟩

/-- An attempt that is held. -/
def HeldState (m : Matcher) (S : Ranges) (start : Nat) : State Task Choice Store → Prop
  | .running c => Held m S start c.tasks c.store.pos c.store.dir ∧
      ChoicesHeld m S start (headDir c.tasks c.store.dir) c.choices
  | .failing c => ChoicesHeld m S start c.store.dir c.choices

/-- A task either takes its course without memo or is cut off by it. -/
theorem dispatch_hit_or (m : Matcher) (task : Task) (c : Cfg) :
    (m.dispatch task c = (false, c) ∧ ∃ loop count, task = .greedyRepeat loop count) ∨
      m.dispatch task c = m.memoless.dispatch task c := by
  by_cases hhit : ∃ loop count atom, task = .greedyRepeat loop count ∧
      loop.atMax count = false ∧ m.atomOf loop = some atom ∧
      (m.options.memo && c.remembers atom.addr) = true
  · left
    obtain ⟨loop, count, atom, rfl, hmax, hatom, hmemo⟩ := hhit
    unfold atomOf at hatom
    refine ⟨?_, loop, count, rfl⟩
    simp only [dispatch, hmax, hatom, hmemo, Bool.false_eq_true, if_false, if_true]
  · right
    refine dispatch_memoless task c fun loop count atom htask hmax hatom => ?_
    refine Bool.eq_false_iff.mpr fun hmemo => hhit ?_
    exact ⟨loop, count, atom, htask, hmax, hatom, hmemo⟩

/-- A task with the memo keeps an attempt sane, with a task on top that can wait. -/
theorem Sane.dispatch (h : Sane m caps (.running ⟨task :: T, C, s⟩)) :
    Sane m caps (outcome (m.dispatch task ⟨T, C, s⟩)) ∧
      ((m.dispatch task ⟨T, C, s⟩).1 = true →
        ∀ d, headDir (m.dispatch task ⟨T, C, s⟩).2.tasks d = d) := by
  rcases dispatch_hit_or m task ⟨T, C, s⟩ with ⟨hd, loop, count, rfl⟩ | hd
  · rw [hd]
    obtain ⟨-, hchoices, hkeeps⟩ := h.inv
    exact ⟨.failing hchoices hkeeps, nofun⟩
  · rw [hd]
    refine ⟨h.step (step_running m.memoless task T C s), fun hok d => ?_⟩
    obtain ⟨task', T', C', s', -, -, -, hpending⟩ := Locked.dispatch h (.inr rfl) nofun
    obtain ⟨D, D', dir, pos, hagree⟩ := hpending hok
    exact hagree.headDir d

theorem HeldState.dispatch (hcanonical : m.ctx.Canonical) (hstart : ¬ m.ctx.Starts start S)
    (hsane : Sane m caps (.running ⟨task :: T, C, s⟩))
    (h : HeldState m S start (.running ⟨task :: T, C, s⟩)) :
    HeldState m S start (outcome (m.dispatch task ⟨T, C, s⟩)) := by
  have honward : Onward m S start (m.dispatch task ⟨T, C, s⟩) := by
    obtain ⟨htasks, hC⟩ := h
    dsimp only at htasks hC
    by_cases hfailed : ∃ negate origin outer, task = .assertFailed negate origin outer
    · obtain ⟨negate, origin, outer, rfl⟩ := hfailed
      exact ⟨fun _ => htasks.failed_inv, hC⟩
    · have hhead : headDir (task :: T) s.dir = s.dir := by
        cases task <;> first | rfl | exact absurd ⟨_, _, _, rfl⟩ hfailed
      rw [hhead] at hC
      cases hdone : task.isAssertDone with
      | true =>
          cases task with
          | assertDone negate origin outer mark cut => exact onward_assertDone hsane hC
          | _ => cases hdone
      | false =>
          generalize hpos : s.pos = pos at htasks
          generalize hdir : s.dir = dir at htasks
          cases htasks with
          | failed _ => exact absurd ⟨_, _, _, rfl⟩ hfailed
          | top hT =>
              rw [hdir] at hC
              refine AtStart.dispatch ⟨hcanonical, hstart, hC, hpos, hdir⟩ hT ?_
              rintro loop count atom rfl hatom
              exact hsane.count_eq_zero hatom
          | inside hin =>
              obtain ⟨task', hmem, hdone'⟩ := hin
              have hmem' : task' ∈ T := by
                rcases List.mem_cons.mp hmem with rfl | hmem
                · exact absurd (hdone.symm.trans hdone') Bool.false_ne_true
                · exact hmem
              refine onward_inside_dispatch ⟨task', hmem', hdone'⟩ hC hdone ?_ ?_
              · exact fun negate origin outer heq => hfailed ⟨_, _, _, heq⟩
              · rintro atom consumed entry loop mark cont level rfl
                obtain ⟨_, hcont, -⟩ := hsane.inv.1.fastShrink_inv
                exact hcont
  obtain ⟨-, hhead⟩ := hsane.dispatch
  generalize m.dispatch task ⟨T, C, s⟩ = r at honward hhead
  obtain ⟨b, c⟩ := r
  cases b with
  | false => exact honward.2
  | true =>
      refine ⟨honward.1 rfl, ?_⟩
      rw [hhead rfl]
      exact honward.2

/-- A held attempt does not match. -/
theorem HeldState.run_ne_matched (hcanonical : m.ctx.Canonical) (hstart : ¬ m.ctx.Starts start S)
    (limit budget : Nat) {c d : Cfg} (hsane : Sane m caps (.running c))
    (h : HeldState m S start (.running c)) :
    m.machine.run limit budget c ≠ .matched d := by
  induction budget generalizing c with
  | zero =>
      intro h
      cases h
  | succ budget ih =>
      obtain ⟨T, C, s⟩ := c
      rw [Backtracker.run]
      split
      · intro h
        cases h
      · cases T with
        | nil =>
            obtain ⟨hheld, -⟩ := h
            dsimp only at hheld
            generalize s.pos = pos at hheld
            generalize s.dir = dir at hheld
            cases hheld with
            | top hT => cases hT
            | inside hin =>
                obtain ⟨_, hmem, -⟩ := hin
                cases hmem
        | cons task T =>
            have hd : m.machine.dispatch = m.dispatch := rfl
            have hsane' := hsane.dispatch.1
            have h' := h.dispatch hcanonical hstart hsane
            simp only [hd]
            generalize m.dispatch task ⟨T, C, s⟩ = r at hsane' h'
            obtain ⟨b, c⟩ := r
            cases b with
            | true => exact ih hsane' h'
            | false =>
                obtain ⟨T', C', s'⟩ := c
                cases C' with
                | nil =>
                    intro h
                    cases h
                | cons k C' =>
                    cases h' with
                    | cons hheld hrest =>
                        exact ih (hsane'.step rfl) ⟨hheld, hrest⟩

/-- The start of an attempt. -/
theorem sane_startAt (m : Matcher) (start : Nat) (caps : Caps) (memo : List MemoEntry) :
    Sane m (caps.rollback 0) (.running (m.startAt start caps memo)) := by
  have htogether : Together m (caps.rollback 0) (.running (m.startAt start caps []))
      (.running (m.memoless.startAt start caps [])) := together_startAt m start [] rfl nofun
  cases htogether.paired with
  | running _ hsane => exact hsane.withMemo

variable {memo : List MemoEntry}

/-- What the prefilter of a compiled pattern guarantees of a match. -/
theorem starts_of_matched (hcompiled : m.re.program.compiled = true) (hcanonical : m.ctx.Canonical)
    (hS : firstCharAnalysis m.ctx.tables m.ctx.unicode m.re.program = (false, some S))
    (h : m.matchAt start caps memo = .matched c) :
    m.ctx.Starts start S := by
  by_contra hstart
  have hheld : HeldState m S start (.running (m.startAt start caps memo)) :=
    ⟨.top (.stuck (.node ⟨hcompiled, S, hS, fun _ => id⟩)), .nil⟩
  exact hheld.run_ne_matched hcanonical hstart _ _ (sane_startAt m start caps memo) h

/-- A match can begin only with a unit of the prefilter. -/
theorem prefilter_of_matched (hcompiled : m.re.program.compiled = true) (hcanonical : m.ctx.Canonical)
    (hpre : m.re.prefilter = searchPrefilter m.ctx.tables m.ctx.unicode m.re.program) {set : Ranges}
    (h : m.matchAt start caps memo = .matched c) (hset : m.re.prefilter = some set) :
    ∃ unit, m.ctx.unit start = some unit ∧ Ctx.rangesContain set unit = true := by
  rw [hpre] at hset
  unfold searchPrefilter at hset
  split at hset
  · cases hset
  · rename_i cps hcps
    obtain ⟨units, hunits, rfl⟩ := Option.map_eq_some_iff.mp hset
    obtain ⟨S, rfl, hlead⟩ := Option.bind_eq_some_iff.mp hunits
    obtain ⟨ch, len, hread, hin⟩ := starts_of_matched hcompiled hcanonical hcps h
    obtain ⟨unit, hunit, -, hfirst⟩ := Ctx.readChar_lead hread
    have hcontains := Ctx.leadUnits_contains hlead hin hfirst
    exact ⟨unit, hunit, rangesContain_rangesUnion (.inl hcontains)⟩

/-- The matcher that tries every position. -/
def unfiltered (m : Matcher) : Matcher :=
  { m with re := { m.re with prefilter := none } }

/-- The state an answer was given in, where the budget did not end the attempt. -/
def Answered (P : State Task Choice Store → Prop) :
    Backtracker.Answer Task Choice Store → Prop
  | .exhausted _ => True
  | .failed d => P (.failing d)
  | .matched d => P (.running d)

/-- An attempt is sane to its end. -/
theorem Sane.run (limit budget : Nat) (h : Sane m caps (.running c)) :
    Answered (Sane m caps) (m.machine.run limit budget c) := by
  induction budget generalizing c with
  | zero => trivial
  | succ budget ih =>
      obtain ⟨T, C, s⟩ := c
      rw [Backtracker.run]
      split
      · trivial
      · cases T with
        | nil => exact h
        | cons task T =>
            have hd : m.machine.dispatch = m.dispatch := rfl
            have h' := h.dispatch.1
            simp only [hd]
            generalize m.dispatch task ⟨T, C, s⟩ = r at h'
            obtain ⟨b, c⟩ := r
            cases b with
            | true => exact ih h'
            | false =>
                obtain ⟨T', C', s'⟩ := c
                cases C' with
                | nil => exact h'
                | cons k C' => exact ih (h'.step rfl)

/-- A failed attempt leaves captures from which the next one starts alike. -/
theorem rollback_of_failed {caps : Caps} {memo : List MemoEntry} {c : Cfg}
    (h : m.matchAt start caps memo = .failed c) : c.store.caps.rollback 0 = caps.rollback 0 := by
  have hsane := (sane_startAt m start caps memo).run choiceLimit m.stepLimit
  change Answered _ (m.matchAt start caps memo) at hsane
  rw [h] at hsane
  have hext : (caps.rollback 0).Extends c.store.caps := hsane.failing_inv.2.2
  rw [← Caps.rollback_rollback (Nat.zero_le (caps.rollback 0).mark), hext.2,
    Caps.rollback_rollback (Nat.le_refl 0)]

/-- Two attempts at one position, made with different memos, end alike. -/
def AttemptsAgree (m : Matcher) :
    Backtracker.Answer Task Choice Store → Backtracker.Answer Task Choice Store → Prop
  | .matched c, .matched d => c.store.pos = d.store.pos ∧ c.store.caps = d.store.caps
  | .failed c, .failed d => (∀ entry ∈ c.store.memo, EntryHolds m entry) ∧
      ∀ entry ∈ d.store.memo, EntryHolds m entry
  | _, _ => False

theorem attempts_agree {caps caps' : Caps} {memo memo' : List MemoEntry}
    (hcaps : caps.rollback 0 = caps'.rollback 0) (hentries : ∀ entry ∈ memo, EntryHolds m entry)
    (hentries' : ∀ entry ∈ memo', EntryHolds m entry)
    (hsound : m.machine.avoids choiceLimit m.unsoundHit m.stepLimit (m.startAt start caps memo) =
      true)
    (hsound' : m.machine.avoids choiceLimit m.unsoundHit m.stepLimit
      (m.startAt start caps' memo') = true)
    (hends : (m.matchAt start caps memo).isExhausted = false)
    (hends' : (m.matchAt start caps' memo').isExhausted = false) :
    AttemptsAgree m (m.matchAt start caps memo) (m.matchAt start caps' memo') := by
  obtain ⟨a, ha, hsame⟩ :=
    (together_startAt m start [] (rfl : caps.rollback 0 = _) hentries).ends m.stepLimit hsound hends
  obtain ⟨a', ha', hsame'⟩ :=
    (together_startAt m start [] hcaps.symm hentries').ends m.stepLimit hsound' hends'
  obtain rfl := ha.unique ha'
  change SameAnswer m (m.matchAt start caps memo) a at hsame
  change SameAnswer m (m.matchAt start caps' memo') a at hsame'
  generalize m.matchAt start caps memo = b at hsame
  generalize m.matchAt start caps' memo' = b' at hsame'
  cases b with
  | exhausted _ => exact hsame.elim
  | matched c =>
      cases a with
      | exhausted _ | failed _ => exact hsame.elim
      | matched e =>
          cases b' with
          | exhausted _ | failed _ => exact hsame'.elim
          | matched d => exact ⟨hsame.1.trans hsame'.1.symm, hsame.2.trans hsame'.2.symm⟩
  | failed c =>
      cases a with
      | exhausted _ | matched _ => exact hsame.elim
      | failed e =>
          cases b' with
          | exhausted _ | matched _ => exact hsame'.elim
          | failed d => exact ⟨hsame.2, hsame'.2⟩

theorem unsoundHit_unfiltered (m : Matcher) : m.unfiltered.unsoundHit = m.unsoundHit := by
  have hpending : ∀ dir pos strict T T',
      m.unfiltered.pendingAgree dir pos strict T T' = m.pendingAgree dir pos strict T T' := by
    intro dir pos strict T T'
    refine pendingAgree_congr fun free dir pos strict task task' => ?_
    cases task <;> rfl
  funext c
  simp only [unsoundHit, justifies, hpending]
  rfl

theorem prefiltered_skips (h : m.prefiltered index = true) :
    ∃ set unit, m.re.prefilter = some set ∧ m.ctx.unit index = some unit ∧
      Ctx.rangesContain set unit = false ∧ index < m.ctx.input.length := by
  unfold prefiltered at h
  split at h
  · rename_i set unit hset hunit
    refine ⟨set, unit.toNat, hset, ?_, by simpa using h, ?_⟩
    · rw [Ctx.unit, hunit, Option.map_some]
    · exact (List.getElem?_eq_some_iff.mp hunit).1
  · cases h

/-- The search goes on alike when skipped positions are tried. -/
theorem searchLoop_unfiltered (hcompiled : m.re.program.compiled = true)
    (hcanonical : m.ctx.Canonical)
    (hpre : m.re.prefilter = searchPrefilter m.ctx.tables m.ctx.unicode m.re.program)
    (fuel index : Nat) {caps caps' : Caps} {memo memo' : List MemoEntry}
    (hcaps : caps.rollback 0 = caps'.rollback 0) (hentries : ∀ entry ∈ memo, EntryHolds m entry)
    (hentries' : ∀ entry ∈ memo', EntryHolds m entry)
    (hsound : m.searchAvoids fuel index caps memo = true)
    (hsound' : m.unfiltered.searchAvoids fuel index caps' memo' = true)
    (hends : m.searchLoop fuel index caps memo ≠ .exhausted)
    (hends' : m.unfiltered.searchLoop fuel index caps' memo' ≠ .exhausted) :
    m.searchLoop fuel index caps memo = m.unfiltered.searchLoop fuel index caps' memo' := by
  have htry : m.unfiltered.matchAt = m.matchAt := rfl
  have hnext : m.unfiltered.advanceStringIndex = m.advanceStringIndex := rfl
  have hinput : m.unfiltered.ctx.input.length = m.ctx.input.length := rfl
  have hpass : ∀ index, m.unfiltered.prefiltered index = false := fun _ => rfl
  have havoid : ∀ index caps memo,
      m.unfiltered.machine.avoids choiceLimit m.unfiltered.unsoundHit m.unfiltered.stepLimit
        (m.unfiltered.startAt index caps memo) =
      m.machine.avoids choiceLimit m.unsoundHit m.stepLimit (m.startAt index caps memo) := by
    intro index caps memo
    rw [unsoundHit_unfiltered]
    rfl
  induction fuel generalizing index caps caps' memo memo' with
  | zero => rfl
  | succ fuel ih =>
      simp only [searchLoop, searchAvoids, htry, hnext, hinput, hpass, havoid, Bool.false_eq_true,
        if_false] at hsound hsound' hends hends' ⊢
      by_cases hpast : m.ctx.input.length < index
      · rw [if_pos hpast, if_pos hpast]
      · rw [if_neg hpast] at hsound hsound' hends hends' ⊢
        rw [if_neg hpast]
        rw [Bool.and_eq_true] at hsound'
        by_cases hskip : m.prefiltered index = true
        · -- The prefilter skips the position; the attempt there fails.
          rw [if_pos hskip] at hsound hends ⊢
          obtain ⟨set, unit, hset, hunit, hout, hlen⟩ := prefiltered_skips hskip
          have hlast : ¬ m.ctx.input.length ≤ index := Nat.not_le_of_lt hlen
          cases hattempt : m.matchAt index caps' memo' with
          | exhausted c =>
              rw [hattempt] at hends'
              exact absurd rfl hends'
          | matched c =>
              obtain ⟨unit', hunit', hin⟩ :=
                prefilter_of_matched hcompiled hcanonical hpre hattempt hset
              obtain rfl := Option.some.inj (hunit.symm.trans hunit')
              cases hin.symm.trans hout
          | failed c =>
              simp only [hattempt, if_neg hlast, decide_eq_false hlast, Bool.false_or] at hsound' hends' ⊢
              have hagree := attempts_agree (rfl : caps'.rollback 0 = _) hentries' hentries'
                hsound'.1 hsound'.1
              rw [hattempt] at hagree
              refine ih _ (hcaps.trans (rollback_of_failed hattempt).symm) hentries
                (hagree rfl rfl).2 hsound hsound'.2 hends hends'
        · rw [if_neg hskip] at hsound hends ⊢
          rw [Bool.and_eq_true] at hsound
          have hagree := attempts_agree hcaps hentries hentries' hsound.1 hsound'.1
          replace hsound := hsound.2
          replace hsound' := hsound'.2
          have hroll := @rollback_of_failed m index caps memo
          have hroll' := @rollback_of_failed m index caps' memo'
          generalize m.matchAt index caps memo = a at hagree hsound hends hroll ⊢
          generalize m.matchAt index caps' memo' = b at hagree hsound' hends' hroll' ⊢
          cases a with
          | exhausted _ => exact absurd rfl hends
          | matched c =>
              cases b with
              | exhausted _ => exact absurd rfl hends'
              | failed _ => exact (hagree rfl rfl).elim
              | matched d =>
                  obtain ⟨hpos, hvalues⟩ := hagree rfl rfl
                  simp only [hpos, hvalues]
          | failed c =>
              cases b with
              | exhausted _ => exact absurd rfl hends'
              | matched _ => exact (hagree rfl rfl).elim
              | failed d =>
                  obtain ⟨hrecorded, hrecorded'⟩ := hagree rfl rfl
                  dsimp only at hends hends' hsound hsound' ⊢
                  by_cases hlast : m.ctx.input.length ≤ index
                  · rw [if_pos hlast, if_pos hlast]
                  · rw [if_neg hlast] at hends hends' ⊢
                    rw [if_neg hlast]
                    rw [decide_eq_false hlast, Bool.false_or] at hsound hsound'
                    refine ih _ ?_ hrecorded hrecorded' hsound hsound' hends hends'
                    rw [hroll rfl, hroll' rfl, hcaps]

/-- A matcher for a compiled pattern. -/
def compiled (tables : UnicodeTables) (unicode : Bool) (program : Node) (groups : Nat)
    (input : List UInt16) (options : Options) : Matcher where
  re := Regex.compile tables unicode program groups
  ctx := ⟨tables, input, unicode⟩
  options := options

/-- The prefilter is none or holds the unit an attempt starts with. -/
def passesPrefilter (m : Matcher) (index : Nat) : Prop :=
  m.re.prefilter = none ∨
    ∃ set unit, m.re.prefilter = some set ∧ m.ctx.unit index = some unit ∧
      Ctx.rangesContain set unit = true

/-- The prefilter lets every match pass, and a search whose memo hits, and those
of the search without prefilter, all rest on entries recorded under tasks that
agree finds what the search without prefilter finds. -/
theorem prefilter_skips_no_match (tables : UnicodeTables) (unicode : Bool) (program : Node)
    (groups : Nat) (input : List UInt16) (options : Options)
    (hcompiled : program.compiled = true)
    (hcanonical : ∀ cp, tables.canonicalize unicode (tables.canonicalize unicode cp) =
      tables.canonicalize unicode cp) :
    (∀ index caps memo c,
      (compiled tables unicode program groups input options).matchAt index caps memo = .matched c →
        (compiled tables unicode program groups input options).passesPrefilter index) ∧
    ∀ start caps,
      (compiled tables unicode program groups input options).searchAvoids
        (input.length + 1 - start) start caps [] = true →
      (compiled tables unicode program groups input options).unfiltered.searchAvoids
        (input.length + 1 - start) start caps [] = true →
      (compiled tables unicode program groups input options).search start caps ≠ .exhausted →
      (compiled tables unicode program groups input options).unfiltered.search start caps ≠
        .exhausted →
      (compiled tables unicode program groups input options).search start caps =
        (compiled tables unicode program groups input options).unfiltered.search start caps := by
  have hforms : (compiled tables unicode program groups input options).ctx.Canonical := hcanonical
  refine ⟨fun index caps memo c h => ?_, fun start caps hsound hsound' hends hends' => ?_⟩
  · cases hset : (compiled tables unicode program groups input options).re.prefilter with
    | none => exact .inl hset
    | some set =>
        obtain ⟨unit, hunit, hin⟩ := prefilter_of_matched hcompiled hforms rfl h hset
        exact .inr ⟨set, unit, hset, hunit, hin⟩
  · exact searchLoop_unfiltered hcompiled hforms rfl _ start rfl nofun nofun hsound hsound'
      hends hends'

end Matcher

/-- `a*b` on `cab`: the first position is skipped. -/
theorem prefilter_skips_no_match_cab :
    let m := Matcher.compiled plainTables false
      (.sequence [greedyRepeat (literal 'a') 0 none, literal 'b']) 0 [99, 97, 98] {}
    m.prefiltered 0 = true ∧ m.search 0 (Caps.new 0) = m.unfiltered.search 0 (Caps.new 0) := by
  refine ⟨by decide +kernel, ?_⟩
  refine (Matcher.prefilter_skips_no_match plainTables false _ 0 [99, 97, 98] {} (by decide)
    fun _ => rfl).2 0 (Caps.new 0) ?_ ?_ ?_ ?_ <;> decide +kernel

/-- `(?=(?:x|a*z){0,2}w)a` on `xazxw`: without the prefilter the attempt at 0
records that `a*` fails at 1, which the attempt at 1 then takes for granted. -/
theorem prefiltered_search_ne_unfiltered :
    let m := Matcher.compiled plainTables false
      (.sequence [.lookahead false (.sequence [greedyRepeat (.alternate [[literal 'x'],
        [greedyRepeat (literal 'a') 0 none, literal 'z']]) 0 (some 2), literal 'w']),
        literal 'a']) 0 [120, 97, 122, 120, 119] {}
    m.re.program.compiled = true ∧ m.search 0 (Caps.new 0) = .found 1 2 [none] ∧
      m.unfiltered.search 0 (Caps.new 0) = .nothing := by
  decide +kernel

end Slag.Regexp
