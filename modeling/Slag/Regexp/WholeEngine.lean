import Slag.Regexp.MemoSound

/-!
The engine as it runs, with the simple-atom path and the failure memo, against
the reference matcher: an attempt that keeps clear of the configurations where
either of them, or a repeat's bookkeeping, goes astray gives the reference's
answer.
-/

namespace Slag.Regexp

open Slag.Backtrack

/-- Whether an atom is simple does not depend on where it stands. -/
theorem simpleAtom_node (addr addr' : List Nat) (node : Node) :
    (simpleAtom addr node).map NodeRef.node = (simpleAtom addr' node).map NodeRef.node := by
  fun_induction simpleAtom addr node generalizing addr' with
  | case1 addr cp fold => rfl
  | case2 addr dotAll => rfl
  | case3 addr cls hc => rw [simpleAtom, if_pos hc]; rfl
  | case4 addr cls hc => rw [simpleAtom, if_neg hc]
  | case5 addr index inner ih =>
      rw [simpleAtom]
      exact ih (0 :: addr')
  | case6 addr node ih =>
      rw [simpleAtom]
      exact ih (0 :: addr')
  | case7 addr nodes hnot hc =>
      rw [simpleAtom, if_pos hc]
      · rfl
      · exact hnot
  | case8 addr nodes hnot hc =>
      rw [simpleAtom, if_neg hc]
      exact hnot
  | case9 addr node => rw [simpleAtom] <;> assumption

namespace Matcher

variable {m : Matcher} {dir : Direction} {x : MatchState} {s : Store} {T : List Task}
  {C : List Choice} {loop : Loop} {atom : NodeRef}

/-- The simple-atom path is about to consume other iterations than the general
tasks would, or to leave captures that were set before. -/
def shortcuts (m : Matcher) (c : Cfg) : Bool :=
  match c.tasks with
  | .greedyRepeat loop _ :: _ =>
      !loop.atMax 0 &&
        match m.atomOf loop with
        | some atom =>
            let fast := fastRuns m.ctx c.store.dir loop atom c.store.pos
            let general := generalRuns m.ctx c.store.dir loop atom c.store.pos
            !(decide (m.ctx.remaining c.store.dir c.store.pos ≤ m.ctx.input.length) &&
              decide (m.ctx.input.length < u32Size) &&
              (decide (fast < loop.min ∧ general < loop.min) || fast == general) &&
              (loop.min != 0 || unset loop.owned c.store.caps))
        | none => false
  | _ => false

/-- The engine is about to leave the course of the reference matcher. -/
def strays (m : Matcher) (c : Cfg) : Bool :=
  m.ctx.diverts c || m.shortcuts c

/-- A simple repeat that does not stray emits the results of RepeatMatcher. -/
theorem emits_fast (hmemo : m.options.memo = false) (hatom : m.atomOf loop = some atom)
    (howned : loop.owned = loop.node.node.collectCaptures)
    (hmax : (loop.max.all fun n => decide (loop.min ≤ n)) = true) (h : s.Stands dir x) :
    Emits m.machine (reading dir m.strays) T C s (.running ⟨.greedyRepeat loop 0 :: T, C, s⟩)
      (m.ctx.loopResults dir loop true 0 x) := by
  cases hstrays : m.strays ⟨.greedyRepeat loop 0 :: T, C, s⟩ with
  | true => exact .bad hstrays
  | false =>
      have hsimple : simpleAtom loop.node.addr loop.node.node = some atom := by
        unfold atomOf at hatom
        split at hatom
        · exact hatom
        · cases hatom
      cases hat : loop.atMax 0 with
      | true =>
          have hmin : loop.min ≤ 0 := by
            unfold Loop.atMax at hat
            cases hm : loop.max with
            | none => simp [hm] at hat
            | some n =>
                simp only [hm, Option.any_some, Option.all_some, decide_eq_true_eq] at hat hmax
                omega
          have hd : m.machine.dispatch (.greedyRepeat loop 0) ⟨T, C, s⟩ = (true, ⟨T, C, s⟩) := by
            simp [machine, dispatch, hat, hmin]
          rw [Ctx.loopResults_eq, if_pos hat]
          exact .succeed hd (.done ((reading dir m.strays).refl s) h)
      | false =>
          have hd : m.machine.dispatch (.greedyRepeat loop 0) ⟨T, C, s⟩ =
              m.greedySimple atom loop 0 ⟨T, C, s⟩ := by
            unfold atomOf at hatom
            simp only [machine, dispatch, hat, hatom, hmemo, Bool.false_and, Bool.false_eq_true,
              if_false]
          rw [strays, Bool.or_eq_false_iff] at hstrays
          simp only [shortcuts, hat, hatom, Bool.not_false, Bool.true_and, Bool.not_eq_false',
            Bool.and_eq_true, Bool.or_eq_true, decide_eq_true_eq, beq_iff_eq, bne_iff_ne,
            h.1, h.2.2] at hstrays
          obtain ⟨-, ⟨⟨hrem, hlen⟩, hruns⟩, hunset⟩ := hstrays
          have hn := simple_of_simpleAtom hsimple
          have hfast := emits_greedySimple (T := T) (C := C) hn h (by omega) hd
          rw [loopResults_simple hsimple howned hmax 0 x (Nat.lt_succ_of_le hrem), Nat.sub_zero]
          have hclear : loop.min = 0 → x.clear loop.owned = x := by
            intro hmin
            have hcaps := (clear_eq_self_iff loop.owned s.caps x.endIndex).mpr
              (hunset.resolve_left fun hne => hne hmin)
            rw [h.2.1] at hcaps
            exact hcaps
          rw [(drop_levels_iff (reaches_eq_of_length hn loop.max)).mpr ⟨hruns, hclear⟩] at hfast
          exact Emits.mono (R := reading dir fun _ => false) (fun _ _ => id) (fun _ _ => Iff.rfl)
            (fun _ hfalse => absurd hfalse Bool.false_ne_true) hfast

/-- Repeats of simple atoms emit their outcomes, unless they stray. -/
theorem fastEmits (hmemo : m.options.memo = false) : FastEmits m m.strays := by
  intro node min max addr atom hon hatom hmax addr' dir x T C s h
  obtain ⟨atom', hatom'⟩ : ∃ atom', simpleAtom (0 :: addr') node = some atom' := by
    have hnode := simpleAtom_node addr (0 :: addr') node
    rw [hatom] at hnode
    cases hfound : simpleAtom (0 :: addr') node with
    | none =>
        rw [hfound] at hnode
        cases hnode
    | some atom' => exact ⟨atom', rfl⟩
  have hloop : m.atomOf ⟨⟨0 :: addr', node⟩, node.collectCaptures, min, max⟩ = some atom' := by
    rw [atomOf, if_pos hon]
    exact hatom'
  have hrun := emits_fast (T := T) (C := C) hmemo hloop rfl hmax h
  have hres : m.ctx.loopResults dir ⟨⟨0 :: addr', node⟩, node.collectCaptures, min, max⟩ true 0 x =
      m.ctx.outcomes (.repeated node min max true node.collectCaptures) dir x := by
    simp [Ctx.loopResults, Ctx.repeatResults, Ctx.outcomes]
  rw [← hres]
  exact .succeed rfl hrun

/-- What an attempt found. -/
def result : Backtracker.Answer Task Choice Store → Option MatchState
  | .matched c => some ⟨c.store.pos, c.store.caps.values⟩
  | _ => none

/-- An attempt that ends, takes no unsound hit of the memo and, with the hits
undone, never strays. -/
structure Undisturbed (m : Matcher) (start : Nat) (caps : Caps) : Prop where
  ends : (m.matchAt start caps []).isExhausted = false
  sound : m.machine.avoids choiceLimit m.unsoundHit m.stepLimit (m.startAt start caps []) = true
  straight : ∃ limit budget,
    (m.memoless.machine.run limit budget (m.memoless.startAt start caps [])).isExhausted = false ∧
    m.memoless.machine.avoids limit m.memoless.strays budget
      (m.memoless.startAt start caps []) = true

/-- An undisturbed attempt gives the answer of the reference matcher. -/
theorem Undisturbed.result_eq {start : Nat} {caps : Caps} (h : m.Undisturbed start caps)
    (hc : m.re.program.compiled = true) :
    result (m.matchAt start caps []) =
      m.ctx.reference m.re.program .forward ⟨start, (caps.rollback 0).values⟩ some := by
  obtain ⟨limit, budget, hended, hstraight⟩ := h.straight
  have htogether : Together m (caps.rollback 0) (.running (m.startAt start caps []))
      (.running (m.memoless.startAt start caps [])) := together_startAt m start [] rfl nofun
  obtain ⟨a, ha, hsame⟩ := htogether.ends m.stepLimit h.sound h.ends
  obtain rfl := ha.unique (.of_run budget hended)
  have hemits := nodeEmits_compiled (m := m.memoless) (fun c hd => by rw [strays, hd]; rfl)
    (fastEmits rfl) m.re.program hc [] .forward ⟨start, (caps.rollback 0).values⟩ [] []
    ⟨start, .forward, caps.rollback 0, []⟩ ⟨rfl, rfl, rfl⟩
  have hanswers : Answers (reading .forward m.memoless.strays) _
      (m.memoless.machine.run limit budget (m.memoless.startAt start caps [])) :=
    answers_of_emits hemits budget hstraight
  rw [Ctx.reference_eq]
  change Answers _ (m.ctx.outcomes _ _ _) _ at hanswers
  change SameAnswer m (m.matchAt start caps []) _ at hsame
  generalize m.memoless.machine.run limit budget (m.memoless.startAt start caps []) = b at *
  have hends := h.ends
  generalize m.matchAt start caps [] = a at *
  cases a with
  | exhausted _ => cases hends
  | failed c =>
      cases b with
      | exhausted _ | matched _ => exact hsame.elim
      | failed d =>
          rw [show m.ctx.outcomes _ _ _ = [] from hanswers]
          rfl
  | matched c =>
      cases b with
      | exhausted _ | failed _ => exact hsame.elim
      | matched d =>
          obtain ⟨⟨stop, captures⟩, rest, hrest, hpos, hvalues, -⟩ := hanswers
          rw [hrest]
          simp only [result, List.findSome?_cons, hsame.1, hsame.2, hpos, hvalues]

end Matcher

end Slag.Regexp
