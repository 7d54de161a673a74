import Slag.Regexp.Emission

/-!
Repeats through the general tasks. An iteration that matches empty below the
minimum ends the repeat or skips iterations, where RepeatMatcher goes on; the
engine agrees with the reference matcher on every run that does not come there.
-/

namespace Slag.Regexp

open Slag.Backtrack

namespace Node

mutual

/-- What the parser guarantees of a tree: a repeat owns the captures of its
body and its bounds are in order, and an alternation is not empty. -/
def compiled : Node → Bool
  | .sequence nodes => compiledSeq nodes
  | .alternate alts => !alts.isEmpty && compiledAlts alts
  | .repeated node min max _ owned =>
      (max.all fun n => decide (min ≤ n)) && owned == node.collectCaptures && node.compiled
  | .capture _ node => node.compiled
  | .lookahead _ node => node.compiled
  | .lookbehind _ node => node.compiled
  | _ => true

def compiledSeq : List Node → Bool
  | [] => true
  | node :: nodes => node.compiled && compiledSeq nodes

def compiledAlts : List (List Node) → Bool
  | [] => true
  | alt :: alts => compiledSeq alt && compiledAlts alts

end

end Node

variable {greedy : Bool} {count : Nat}

namespace Ctx

variable {ctx : Ctx} {dir : Direction} {x : MatchState} {s : Store} {loop : Loop}

/-- From a state the body of a repeat can match something. -/
def consumes (ctx : Ctx) (loop : Loop) (s : Store) : Bool :=
  (ctx.outcomes loop.node.node s.dir
    (MatchState.clear ⟨s.pos, s.caps.values⟩ loop.owned)).any fun y => y.endIndex != s.pos

/-- An iteration is about to end where RepeatMatcher would go on otherwise: an
empty one that reaches the minimum while a further one could still match, an
empty one with more than one to go, and one past the range of the counter. -/
def diverts (ctx : Ctx) (c : Cfg) : Bool :=
  match c.tasks with
  | .repeatIterDone loop _ count iterStart :: _ =>
      if c.store.pos = iterStart then
        decide (count + 2 < loop.min) ||
          (decide (count + 1 = loop.min) && decide (loop.max ≠ some loop.min) &&
            ctx.consumes loop c.store)
      else decide (u32Size ≤ count + 1)
  | _ => false

/-- The results of a repeat after `count` iterations. -/
def loopResults (ctx : Ctx) (dir : Direction) (loop : Loop) (greedy : Bool) (count : Nat)
    (x : MatchState) : List MatchState :=
  ctx.repeatResults dir (ctx.outcomes loop.node.node dir) loop.owned greedy (loop.min - count)
    (loop.max.map fun n => n - count) x

/-- The results of one more iteration after `count` of them. -/
def loopIteration (ctx : Ctx) (dir : Direction) (loop : Loop) (greedy : Bool) (count : Nat)
    (x : MatchState) : List MatchState :=
  ctx.iterationResults dir (ctx.outcomes loop.node.node dir) loop.owned greedy (loop.min - count)
    (loop.max.map fun n => n - count) x

theorem loopResults_eq (greedy : Bool) (count : Nat) (x : MatchState) :
    ctx.loopResults dir loop greedy count x =
      if loop.atMax count then [x]
      else if count < loop.min then ctx.loopIteration dir loop greedy count x
      else if greedy then ctx.loopIteration dir loop greedy count x ++ [x]
      else x :: ctx.loopIteration dir loop greedy count x := by
  have hmax : (loop.max.map fun n => n - count) = some 0 ↔ loop.atMax count = true := by
    unfold Loop.atMax
    cases loop.max with
    | none => simp
    | some n => simp; omega
  have hmin : loop.min - count ≠ 0 ↔ count < loop.min := by omega
  rw [loopResults, repeatResults_eq (fun x => moves_outcomes loop.node.node dir x)]
  simp only [hmax, hmin, loopIteration]

theorem loopIteration_eq (greedy : Bool) (count : Nat) (x : MatchState) :
    ctx.loopIteration dir loop greedy count x =
      (ctx.outcomes loop.node.node dir (x.clear loop.owned)).flatMap fun y =>
        if loop.min ≤ count ∧ y.endIndex = x.endIndex then []
        else ctx.loopResults dir loop greedy (count + 1) y := by
  have hmin : loop.min - count = 0 ↔ loop.min ≤ count := by omega
  have hsub : loop.min - count - 1 = loop.min - (count + 1) := by omega
  have hmax : (loop.max.map fun n => n - count).map (fun n => n - 1) =
      loop.max.map fun n => n - (count + 1) := by
    cases loop.max with
    | none => rfl
    | some n =>
        simp only [Option.map_some, Option.some.injEq]
        omega
  simp only [loopIteration, iterationResults, loopResults, hmin, hsub, hmax]

/-- A body that matches only empty adds nothing once the minimum is reached. -/
theorem loopIteration_of_not_consumes (h : s.Stands dir x) (hmin : loop.min ≤ count)
    (hc : ctx.consumes loop s = false) :
    ctx.loopIteration dir loop greedy count x = [] := by
  rw [loopIteration_eq, List.flatMap_eq_nil_iff]
  intro y hy
  have hx : MatchState.clear ⟨s.pos, s.caps.values⟩ loop.owned = x.clear loop.owned := by
    rw [h.1, h.2.1]
  rw [consumes, h.2.2, hx, List.any_eq_false] at hc
  have hend : y.endIndex = x.endIndex := by
    have := hc y hy
    rw [h.1] at this
    simpa using this
  rw [if_pos ⟨hmin, hend⟩]

end Ctx

namespace Matcher

open Ctx

variable {m : Matcher} {dir : Direction} {x : MatchState} {s : Store} {T : List Task}
  {C : List Choice} {loop : Loop}

/-- The task that goes on with a repeat. -/
def loopTask (loop : Loop) (greedy : Bool) (count : Nat) : Task :=
  if greedy then .greedyRepeat loop count else .lazyRepeat loop count

/-- The simple-atom path is off, or not for this atom. -/
def TakesSlowPath (m : Matcher) (loop : Loop) : Prop :=
  (if m.options.fastPath then simpleAtom loop.node.addr loop.node.node else none) = none

/-- Below a bound on what is left to do, a repeat emits the results of RepeatMatcher. -/
def LoopEmits (m : Matcher) (bad : Cfg → Bool) (loop : Loop) (greedy : Bool) (bound : Nat) :
    Prop :=
  ∀ (dir : Direction) (count : Nat) (x : MatchState) (T : List Task) (C : List Choice)
    (s : Store), s.Stands dir x → loop.min - count + m.ctx.remaining dir x.endIndex < bound →
    Emits m.machine (reading dir bad) T C s
      (.running ⟨loopTask loop greedy count :: T, C, s⟩) (m.ctx.loopResults dir loop greedy count x)

variable {bad : Cfg → Bool}

theorem emits_iterDone {bound count start : Nat} (hbad : ∀ c, m.ctx.diverts c = true → bad c = true)
    (hloop : LoopEmits m bad loop greedy bound) (h : s.Stands dir x)
    (hmove : m.ctx.Moves dir start x.endIndex)
    (hbound : loop.min - count + m.ctx.remaining dir start ≤ bound) :
    Emits m.machine (reading dir bad) T C s
      (.running ⟨.repeatIterDone loop greedy count start :: T, C, s⟩)
      (if loop.min ≤ count ∧ x.endIndex = start then []
        else m.ctx.loopResults dir loop greedy (count + 1) x) := by
  cases hdiv : m.ctx.diverts ⟨.repeatIterDone loop greedy count start :: T, C, s⟩ with
  | true => exact .bad (hbad _ hdiv)
  | false =>
      simp only [diverts] at hdiv
      by_cases hempty : x.endIndex = start
      · have hpos : s.pos = start := h.1.trans hempty
        simp only [hpos, if_true, Bool.or_eq_false_iff, decide_eq_false_iff_not] at hdiv
        by_cases hmin : loop.min ≤ count
        · rw [if_pos ⟨hmin, hempty⟩]
          have hd : m.machine.dispatch (.repeatIterDone loop greedy count start) ⟨T, C, s⟩ =
              (false, ⟨T, C, s⟩) := by
            simp [machine, dispatch, hpos, hmin]
          exact .fail hd (.nil rfl ((reading dir bad).refl s))
        · rw [if_neg fun hc => hmin hc.1]
          by_cases hlast : loop.min ≤ count + 1
          · have hd : m.machine.dispatch (.repeatIterDone loop greedy count start) ⟨T, C, s⟩ =
                (true, ⟨T, C, s⟩) := by
              simp [machine, dispatch, hpos, hmin, hlast]
            have hres : m.ctx.loopResults dir loop greedy (count + 1) x = [x] := by
              rw [loopResults_eq]
              split
              · rfl
              · rename_i hmax
                have hcons : m.ctx.consumes loop s = false := by
                  have hne : loop.max ≠ some loop.min := by
                    intro heq
                    apply hmax
                    simp [Loop.atMax, heq, hlast]
                  have heq : count + 1 = loop.min := by omega
                  simpa [heq, hne] using hdiv.2
                rw [if_neg (by omega), loopIteration_of_not_consumes h hlast hcons]
                cases greedy <;> rfl
            rw [hres]
            exact .succeed hd (.done ((reading dir bad).refl s) h)
          · have hnext : loop.min - 1 = count + 1 := by omega
            have hd : m.machine.dispatch (.repeatIterDone loop greedy count start) ⟨T, C, s⟩ =
                (true, ⟨loopTask loop greedy (count + 1) :: T, C, s⟩) := by
              simp [machine, dispatch, hpos, hmin, hlast, hnext, loopTask, Cfg.pushTask]
            refine .succeed hd (hloop dir (count + 1) x T C s h ?_)
            rw [hempty]
            omega
      · have hpos : s.pos ≠ start := fun he => hempty (h.1.symm.trans he)
        simp only [if_neg hpos, decide_eq_false_iff_not] at hdiv
        have hcount : (count + 1) % u32Size = count + 1 := Nat.mod_eq_of_lt (by omega)
        have hd : m.machine.dispatch (.repeatIterDone loop greedy count start) ⟨T, C, s⟩ =
            (true, ⟨loopTask loop greedy (count + 1) :: T, C, s⟩) := by
          simp [machine, dispatch, hpos, hcount, loopTask, Cfg.pushTask]
        rw [if_neg fun hc => hempty hc.2]
        refine .succeed hd (hloop dir (count + 1) x T C s h ?_)
        obtain hstay | hmoved := hmove
        · exact absurd hstay hempty
        · omega

/-- The end of an iteration goes on with the results of the next count. -/
def IterationEmits (m : Matcher) (bad : Cfg → Bool) (dir : Direction) (loop : Loop)
    (greedy : Bool) (count : Nat) (x : MatchState) : Prop :=
  ∀ y ∈ m.ctx.outcomes loop.node.node dir (x.clear loop.owned), ∀ (T : List Task) (C : List Choice)
    (s : Store), s.Stands dir y →
    Emits m.machine (reading dir bad) T C s
      (.running ⟨.repeatIterDone loop greedy count x.endIndex :: T, C, s⟩)
      (if loop.min ≤ count ∧ y.endIndex = x.endIndex then []
        else m.ctx.loopResults dir loop greedy (count + 1) y)

theorem emits_iterate {base : Store} (hbody : NodeEmits m bad loop.node.node)
    (hiter : IterationEmits m bad dir loop greedy count x) (h : s.Stands dir x) (hb : base.Restorable s) :
    Emits m.machine (reading dir bad) T C base
      (.running (iterate loop greedy count ⟨T, C, s⟩)) (m.ctx.loopIteration dir loop greedy count x) := by
  have hrun := hbody loop.node.addr dir _ (.repeatIterDone loop greedy count s.pos :: T) C _
    (h.clearOwned loop.owned)
  have hext : base.Restorable { s with caps := s.caps.clearOwned loop.owned } :=
    ⟨hb.1.trans (Caps.extends_clearOwned s.caps loop.owned), hb.2⟩
  rw [loopIteration_eq]
  refine Emits.bind (hrun.weaken hext) ?_
  intro t E y hy _ ht
  rw [h.1]
  exact hiter y hy T (E ++ C) t ht

/-- Under the maximum the body is tried, and the repeat stops last. -/
theorem emits_greedy (hslow : TakesSlowPath m loop) (hbody : NodeEmits m bad loop.node.node)
    (hmax : (loop.max.all fun n => decide (loop.min ≤ n)) = true)
    (hiter : IterationEmits m bad dir loop true count x) (h : s.Stands dir x) :
    Emits m.machine (reading dir bad) T C s (.running ⟨.greedyRepeat loop count :: T, C, s⟩)
      (m.ctx.loopResults dir loop true count x) := by
  rw [loopResults_eq]
  by_cases hat : loop.atMax count = true
  · have hmin : loop.min ≤ count := by
      unfold Loop.atMax at hat
      cases hm : loop.max with
      | none => simp [hm] at hat
      | some n =>
          simp only [hm, Option.any_some, Option.all_some, decide_eq_true_eq] at hat hmax
          omega
    have hd : m.machine.dispatch (.greedyRepeat loop count) ⟨T, C, s⟩ = (true, ⟨T, C, s⟩) := by
      simp [machine, dispatch, hat, hmin]
    rw [if_pos hat]
    exact .succeed hd (.done ((reading dir bad).refl s) h)
  · have hd : m.machine.dispatch (.greedyRepeat loop count) ⟨T, C, s⟩ =
        (true, iterate loop true count
          ⟨T, ⟨s.pos, s.caps.mark, T, some (.repeatDone loop.min count)⟩ :: C, s⟩) := by
      unfold TakesSlowPath at hslow
      simp [machine, dispatch, hat, hslow, Cfg.pushChoice]
    have hmore : m.ctx.loopResults dir loop true count x =
        m.ctx.loopIteration dir loop true count x ++ if loop.min ≤ count then [x] else [] := by
      rw [loopResults_eq, if_neg hat]
      by_cases hmin : loop.min ≤ count
      · rw [if_neg (by omega), if_pos hmin]
        rfl
      · rw [if_pos (by omega), if_neg hmin, List.append_nil]
    rw [← loopResults_eq, hmore]
    refine .succeed hd ?_
    refine Emits.append (D := [_]) (emits_iterate hbody hiter h ((reading dir bad).refl s))
      ((reading dir bad).refl s) ?_
    intro d hdc he
    refine emits_pop hdc he fun memo => ?_
    have hdone : m.machine.dispatch (.repeatDone loop.min count)
        ⟨T, C, { s with memo := memo }⟩ =
        (decide (loop.min ≤ count), ⟨T, C, { s with memo := memo }⟩) := rfl
    by_cases hmin : loop.min ≤ count
    · rw [decide_eq_true hmin] at hdone
      rw [if_pos hmin]
      exact .succeed hdone (.done (restorable_memo s _) (stands_memo h _))
    · rw [decide_eq_false hmin] at hdone
      rw [if_neg hmin]
      exact .fail hdone (.nil rfl (restorable_memo s _))

/-- The continuation comes first once the minimum is reached, then one more iteration. -/
theorem emits_lazy (hbody : NodeEmits m bad loop.node.node)
    (hmax : (loop.max.all fun n => decide (loop.min ≤ n)) = true)
    (hiter : IterationEmits m bad dir loop false count x) (h : s.Stands dir x) :
    Emits m.machine (reading dir bad) T C s (.running ⟨.lazyRepeat loop count :: T, C, s⟩)
      (m.ctx.loopResults dir loop false count x) := by
  rw [loopResults_eq]
  by_cases hmin : loop.min ≤ count
  · have hd : m.machine.dispatch (.lazyRepeat loop count) ⟨T, C, s⟩ =
        (true, ⟨T, ⟨s.pos, s.caps.mark, T, some (.lazyIterate loop count)⟩ :: C, s⟩) := by
      simp [machine, dispatch, hmin, Cfg.pushChoice]
    have hres : (if loop.atMax count then [x]
        else if count < loop.min then m.ctx.loopIteration dir loop false count x
        else if false then m.ctx.loopIteration dir loop false count x ++ [x]
        else x :: m.ctx.loopIteration dir loop false count x) =
        [x] ++ if loop.atMax count then [] else m.ctx.loopIteration dir loop false count x := by
      rw [if_neg (show ¬ count < loop.min by omega)]
      cases loop.atMax count <;> rfl
    rw [hres]
    refine .succeed hd ?_
    refine Emits.append (D := [_]) (.done ((reading dir bad).refl s) h)
      ((reading dir bad).refl s) ?_
    intro d hdc he
    refine emits_pop hdc he fun memo => ?_
    cases hat : loop.atMax count with
    | true =>
        have hstop : m.machine.dispatch (.lazyIterate loop count)
            ⟨T, C, { s with memo := memo }⟩ = (false, ⟨T, C, { s with memo := memo }⟩) := by
          simp only [machine, dispatch, hat, if_true]
        exact .fail hstop (.nil rfl (restorable_memo s memo))
    | false =>
        refine .succeed ?_
          (emits_iterate hbody hiter (stands_memo h memo) (restorable_memo s memo))
        simp only [machine, dispatch, hat]
        rfl
  · have hat : loop.atMax count = false := by
      unfold Loop.atMax
      cases hm : loop.max with
      | none => rfl
      | some n =>
          simp only [hm, Option.all_some, decide_eq_true_eq] at hmax
          simp only [Option.any_some, decide_eq_false_iff_not]
          omega
    have hd : m.machine.dispatch (.lazyRepeat loop count) ⟨T, C, s⟩ =
        (true, iterate loop false count ⟨T, C, s⟩) := by
      simp [machine, dispatch, hmin, hat]
    simp only [hat, Bool.false_eq_true, if_false]
    rw [if_pos (show count < loop.min by omega)]
    exact .succeed hd (emits_iterate hbody hiter h ((reading dir bad).refl s))

theorem loopEmits_step (hbad : ∀ c, m.ctx.diverts c = true → bad c = true)
    (hbody : NodeEmits m bad loop.node.node)
    (hmax : (loop.max.all fun n => decide (loop.min ≤ n)) = true)
    (hslow : greedy = true → TakesSlowPath m loop) {bound : Nat}
    (hloop : LoopEmits m bad loop greedy bound) : LoopEmits m bad loop greedy (bound + 1) := by
  intro dir count x T C s h hbound
  have hiter : IterationEmits m bad dir loop greedy count x := by
    intro y hy T C s hy'
    have hmove : m.ctx.Moves dir x.endIndex y.endIndex :=
      moves_outcomes loop.node.node dir (x.clear loop.owned) y hy
    exact emits_iterDone hbad hloop hy' hmove (by omega)
  cases greedy with
  | true => exact emits_greedy (hslow rfl) hbody hmax hiter h
  | false => exact emits_lazy hbody hmax hiter h

/-- A repeat through the general tasks. -/
theorem loopEmits (hbad : ∀ c, m.ctx.diverts c = true → bad c = true)
    (hbody : NodeEmits m bad loop.node.node)
    (hmax : (loop.max.all fun n => decide (loop.min ≤ n)) = true)
    (hslow : greedy = true → TakesSlowPath m loop) (bound : Nat) :
    LoopEmits m bad loop greedy bound := by
  induction bound with
  | zero => exact fun _ _ _ _ _ _ _ hbound => absurd hbound (Nat.not_lt_zero _)
  | succ bound ih => exact loopEmits_step hbad hbody hmax hslow ih

theorem nodeEmits_repeated {node : Node} (hbad : ∀ c, m.ctx.diverts c = true → bad c = true)
    (hbody : NodeEmits m bad node) {min : Nat} {max : Option Nat}
    (hmax : (max.all fun n => decide (min ≤ n)) = true)
    (hslow : greedy = true → m.options.fastPath = true → ∀ addr, simpleAtom addr node = none) :
    NodeEmits m bad (.repeated node min max greedy node.collectCaptures) := by
  intro addr dir x T C s h
  have hpath : greedy = true →
      TakesSlowPath m ⟨⟨0 :: addr, node⟩, node.collectCaptures, min, max⟩ := by
    intro hg
    unfold TakesSlowPath
    split
    · rename_i hfast
      exact hslow hg hfast _
    · rfl
  have hrun := loopEmits hbad (show NodeEmits m bad
    (Loop.mk ⟨0 :: addr, node⟩ node.collectCaptures min max).node.node from hbody) hmax hpath _
      dir 0 x T C s h (Nat.lt_succ_self _)
  have hres : m.ctx.loopResults dir ⟨⟨0 :: addr, node⟩, node.collectCaptures, min, max⟩ greedy 0 x =
      m.ctx.outcomes (.repeated node min max greedy node.collectCaptures) dir x := by
    simp [loopResults, repeatResults, outcomes]
  rw [← hres]
  refine .succeed ?_ hrun
  simp only [machine, dispatch, stepNode, Cfg.pushTask, loopTask]

/-- Repeats that take the simple-atom path emit their outcomes. -/
def FastEmits (m : Matcher) (bad : Cfg → Bool) : Prop :=
  ∀ (node : Node) (min : Nat) (max : Option Nat) (addr : List Nat) (atom : NodeRef),
    m.options.fastPath = true → simpleAtom addr node = some atom →
    (max.all fun n => decide (min ≤ n)) = true →
    NodeEmits m bad (.repeated node min max true node.collectCaptures)

mutual

/-- The engine emits the outcomes of every compiled node. -/
theorem nodeEmits_compiled {bad : Cfg → Bool}
    (hbad : ∀ c, m.ctx.diverts c = true → bad c = true) (hfast : FastEmits m bad) :
    ∀ node : Node, node.compiled = true → NodeEmits m bad node
  | .sequence nodes, hc => by
      simp only [Node.compiled] at hc
      exact nodeEmits_sequence (nodeEmits_seq hbad hfast nodes hc)
  | .alternate alts, hc => by
      simp only [Node.compiled, Bool.and_eq_true, Bool.not_eq_true', List.isEmpty_eq_false_iff] at hc
      exact nodeEmits_alternate hc.1 (nodeEmits_alts hbad hfast alts hc.2)
  | .repeated node min max greedy owned, hc => by
      simp only [Node.compiled, Bool.and_eq_true, beq_iff_eq] at hc
      obtain ⟨⟨hmax, rfl⟩, hnode⟩ := hc
      have hbody := nodeEmits_compiled hbad hfast node hnode
      by_cases htakes : greedy = true ∧ m.options.fastPath = true ∧ ∃ addr atom,
          simpleAtom addr node = some atom
      · obtain ⟨rfl, hon, addr, atom, hatom⟩ := htakes
        exact hfast node min max addr atom hon hatom hmax
      · refine nodeEmits_repeated hbad hbody hmax fun hg hon addr => ?_
        cases hatom : simpleAtom addr node with
        | none => rfl
        | some atom => exact absurd ⟨hg, hon, addr, atom, hatom⟩ htakes
  | .capture index node, hc => by
      simp only [Node.compiled] at hc
      exact nodeEmits_capture index (nodeEmits_compiled hbad hfast node hc)
  | .lookahead negate node, hc => by
      simp only [Node.compiled] at hc
      exact nodeEmits_lookahead negate (nodeEmits_compiled hbad hfast node hc)
  | .lookbehind negate node, hc => by
      simp only [Node.compiled] at hc
      exact nodeEmits_lookbehind negate (nodeEmits_compiled hbad hfast node hc)
  | .empty, _ | .char _ _, _ | .any _, _ | .start _, _ | .finish _, _ | .wordBoundary _, _
  | .notWordBoundary _, _ | .charClass _, _ | .backref _ _, _ => nodeEmits_leaf trivial

theorem nodeEmits_seq {bad : Cfg → Bool}
    (hbad : ∀ c, m.ctx.diverts c = true → bad c = true) (hfast : FastEmits m bad) :
    ∀ nodes : List Node, Node.compiledSeq nodes = true → ∀ node ∈ nodes, NodeEmits m bad node
  | [], _ => by simp
  | node :: nodes, hc => by
      simp only [Node.compiledSeq, Bool.and_eq_true] at hc
      exact List.forall_mem_cons.mpr
        ⟨nodeEmits_compiled hbad hfast node hc.1, nodeEmits_seq hbad hfast nodes hc.2⟩

theorem nodeEmits_alts {bad : Cfg → Bool}
    (hbad : ∀ c, m.ctx.diverts c = true → bad c = true) (hfast : FastEmits m bad) :
    ∀ alts : List (List Node), Node.compiledAlts alts = true →
      ∀ alt ∈ alts, ∀ node ∈ alt, NodeEmits m bad node
  | [], _ => by simp
  | alt :: alts, hc => by
      simp only [Node.compiledAlts, Bool.and_eq_true] at hc
      exact List.forall_mem_cons.mpr
        ⟨nodeEmits_seq hbad hfast alt hc.1, nodeEmits_alts hbad hfast alts hc.2⟩

end

/-- The answer of a match attempt within its budget is the reference matcher's. -/
def agreesWithReference (m : Matcher) (start : Nat) (caps : Caps)
    (memo : List MemoEntry) : Bool :=
  match m.matchAt start caps memo with
  | .exhausted _ => true
  | .failed _ =>
      m.ctx.reference m.re.program .forward ⟨start, (caps.rollback 0).values⟩ some == none
  | .matched c =>
      m.ctx.reference m.re.program .forward ⟨start, (caps.rollback 0).values⟩ some ==
        some ⟨c.store.pos, c.store.caps.values⟩

/-- Without the simple-atom path the engine answers as the reference matcher, if
no iteration of the run diverts. -/
theorem matchAt_agreesWithReference (hgen : m.options.fastPath = false)
    (hc : m.re.program.compiled = true) (start : Nat) (caps : Caps) (memo : List MemoEntry)
    (ha : m.machine.avoids choiceLimit m.ctx.diverts m.stepLimit (m.startAt start caps memo) = true) :
    m.agreesWithReference start caps memo = true := by
  have hfast : FastEmits m m.ctx.diverts := by
    intro node min max addr atom hon
    exact absurd (hgen.symm.trans hon) Bool.false_ne_true
  have hemits := nodeEmits_compiled (fun _ => id) hfast m.re.program hc [] .forward
    ⟨start, (caps.rollback 0).values⟩ [] [] ⟨start, .forward, caps.rollback 0, memo⟩ ⟨rfl, rfl, rfl⟩
  have hans : Answers (reading .forward m.ctx.diverts) _ (m.matchAt start caps memo) :=
    answers_of_emits hemits m.stepLimit ha
  unfold agreesWithReference
  rw [reference_eq]
  revert hans
  cases m.matchAt start caps memo with
  | exhausted c => exact fun _ => rfl
  | failed c =>
      intro hans
      simp only [Answers] at hans
      rw [hans]
      rfl
  | matched c =>
      intro hans
      obtain ⟨y, rest, hy, hst⟩ := hans
      rw [hy]
      obtain ⟨stop, captures⟩ := y
      obtain ⟨hpos, hvals, -⟩ := hst
      simp only [List.findSome?_cons, hpos, hvals, beq_self_eq_true]

end Matcher

/-- Tables without case mappings or properties, enough for plain characters. -/
def plainTables : UnicodeTables where
  simpleCaseFold := id
  nonUnicodeCanonicalize := id
  generalCategory _ := "Cn"
  script _ := none
  scriptExtensions _ := []
  binaryProperty _ _ := none

/-- A matcher of a program over ASCII input, as the compiler would set it up. -/
def plainMatcher (program : Node) (groups : Nat) (input : List UInt16) (options : Options) :
    Matcher where
  re := ⟨program, false, groups, program.isBackrefFree, memoSafeAtoms [] true program, none⟩
  ctx := ⟨plainTables, input, false⟩
  options := options

def literal (c : Char) : Node :=
  .char c.toNat false

/-- A greedy repeat as the parser builds it. -/
def greedyRepeat (node : Node) (min : Nat) (max : Option Nat) : Node :=
  .repeated node min max true node.collectCaptures

/-- `(?:a?){2}b` matches `ab` with an empty second iteration. -/
theorem matchAt_agreesWithReference_ab :
    (plainMatcher (.sequence [greedyRepeat (greedyRepeat (literal 'a') 0 (some 1)) 2 (some 2),
      literal 'b']) 0 [97, 98] ⟨false, false⟩).agreesWithReference 0 (Caps.new 0) [] = true :=
  Matcher.matchAt_agreesWithReference rfl (by decide) 0 (Caps.new 0) [] (by decide +kernel)

/-- `(?:|a)+` on `a`: the empty first iteration ends the repeat. -/
theorem emptyIteration_not_agreesWithReference :
    let m := plainMatcher (greedyRepeat (.alternate [[], [literal 'a']]) 1 none) 0 [97]
      ⟨false, false⟩
    m.re.program.compiled = true ∧ m.agreesWithReference 0 (Caps.new 0) [] = false := by
  decide +kernel

/-- `(?:^|a){3}$` on `aa`: the empty first iteration skips the second. -/
example : (plainMatcher (.sequence [greedyRepeat (.alternate [[.start false], [literal 'a']]) 3
    (some 3), .finish false]) 0 [97, 97] ⟨false, false⟩).agreesWithReference 0 (Caps.new 0) [] =
      false := by
  decide +kernel

end Slag.Regexp
