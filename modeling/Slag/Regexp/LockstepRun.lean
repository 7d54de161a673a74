import Slag.Regexp.Lockstep

/-!
Repeats, lookarounds and choices keep the lockstep, and so does every step the
runs take above where they began.
-/

namespace Slag.Regexp

open Slag.Backtrack

namespace Matcher

variable {F : Comparison} {D D' : List Choice} {T T' : List Task} {s s' : Store} {dir : Direction}
  {pos : Nat} {strict : Bool}

variable {loop : Loop} {ctx : Ctx} {atom : Node} {max : Option Nat}

variable {mark n n' : Nat} {greedy negate : Bool} {consumed : List Nat} {outer : Direction}

theorem atMax_of_withinMax (h : ctx.withinMax dir loop pos n = true) :
    loop.atMax n = false := by
  simp only [Ctx.withinMax, Bool.and_eq_true, Option.all_eq_true, decide_eq_true_eq] at h
  unfold Loop.atMax
  cases hm : loop.max with
  | none => rfl
  | some most =>
      have := h.2 most hm
      simp only [Option.any_some, decide_eq_false_iff_not]
      omega

theorem atMax_of_boundsAgree {p n p' n' : Nat} (h : ctx.boundsAgree dir loop p n p' n' = true) :
    loop.atMax n = false ∧ loop.atMax n' = false := by
  simp only [Ctx.boundsAgree, Bool.or_eq_true, Bool.and_eq_true, Option.isNone_iff_eq_none] at h
  rcases h with ⟨hmax, -⟩ | ⟨h, h'⟩
  · simp only [Loop.atMax, hmax, Option.any_none, and_self]
  · exact ⟨atMax_of_withinMax h, atMax_of_withinMax h'⟩

/-- Counts that agree pass the same tests. -/
theorem counts_tests (h : ctx.countsAgree dir loop pos n n' = true) :
    loop.atMax n = loop.atMax n' ∧ (loop.min ≤ n ↔ loop.min ≤ n') := by
  simp only [Ctx.countsAgree, Bool.or_eq_true, Bool.and_eq_true, decide_eq_true_eq,
    beq_iff_eq] at h
  rcases h with rfl | ⟨⟨hmin, hmin'⟩, hb⟩
  · exact ⟨rfl, Iff.rfl⟩
  · obtain ⟨hm, hm'⟩ := atMax_of_boundsAgree hb
    exact ⟨hm.trans hm'.symm, iff_of_true hmin hmin'⟩

theorem iterationsAgree_start (h : ctx.countsAgree dir loop pos n n' = true) (strict : Bool) :
    ctx.iterationsAgree dir pos strict loop n pos n' pos = true := by
  simp only [Ctx.countsAgree, Bool.or_eq_true] at h
  simp only [Ctx.iterationsAgree, Bool.or_eq_true, Bool.and_eq_true, decide_eq_true_eq,
    beq_iff_eq, true_and]
  refine .inr ⟨.refl _ _ _, ?_⟩
  simpa using h

/-- One more iteration of a repeat. -/
theorem Aligned.iterate (h : Aligned F D D' s s')
    (hfree : F.free = true → loop.node.node.isBackrefFree = true)
    (hatom : greedy = true → F.matcher.atomOf loop = none)
    (hn : F.matcher.ctx.countsAgree s.dir loop s.pos n n' = true)
    (hrest : PendingAgree F D D' s.dir s.pos strict T T')
    (hstrict : strict = true → loop.node.node.mustMove = true) :
    Matched F (true, iterate loop greedy n ⟨T, D ++ F.choices, s⟩)
      (true, iterate loop greedy n' ⟨T', D' ++ F.choices', s'⟩) := by
  have hn' : ∀ strict, F.matcher.ctx.iterationsAgree s.dir s.pos strict loop n s.pos n' s'.pos =
      true := by
    intro strict
    rw [← h.pos]
    exact iterationsAgree_start hn strict
  refine (h.setCaps _ (Caps.extends_clearOwned s'.caps loop.owned)).go ?_
  refine .task (.node _ hfree) (.task (.repeatIterDone _ _ _ _ _ _ hfree hatom (hn' _)) ?_)
  refine hrest.mono (.refl _ _ _) fun hs => .inl ?_
  change (loop.node.node.mustMove || false) = true
  rw [hstrict hs]
  rfl

theorem consumeLoop_succ {fuel cur cnt stop : Nat} (hmax : (max.all fun n => decide (cnt < n)) = true)
    (hend : ctx.simpleEnd dir atom cur = some stop) :
    ctx.consumeLoop atom dir max (fuel + 1) cur cnt =
      (cur :: (ctx.consumeLoop atom dir max fuel stop ((cnt + 1) % u32Size)).1,
        (ctx.consumeLoop atom dir max fuel stop ((cnt + 1) % u32Size)).2) := by
  rw [Ctx.consumeLoop, if_pos hmax, hend]

theorem consumeLoop_stop {fuel cur cnt : Nat}
    (h : (max.all fun n => decide (cnt < n)) = false ∨ ctx.simpleEnd dir atom cur = none) :
    ctx.consumeLoop atom dir max (fuel + 1) cur cnt = ([], cur, cnt) := by
  rw [Ctx.consumeLoop]
  rcases h with h | h
  · rw [h, if_neg Bool.false_ne_true]
  · rw [h]
    exact ite_self _

theorem consumeLoop_head {fuel cur cnt : Nat}
    (h : 0 < (ctx.consumeLoop atom dir max fuel cur cnt).1.length) :
    (ctx.consumeLoop atom dir max fuel cur cnt).1.getD 0 0 = cur := by
  cases fuel with
  | zero => cases h
  | succ fuel =>
      by_cases hstop : (max.all fun n => decide (cnt < n)) = false ∨
          ctx.simpleEnd dir atom cur = none
      · rw [consumeLoop_stop hstop] at h
        cases h
      · obtain ⟨hmax, hend⟩ := not_or.mp hstop
        obtain ⟨stop, hend⟩ := Option.ne_none_iff_exists'.mp hend
        rw [consumeLoop_succ (eq_true_of_ne_false hmax) hend]
        rfl

/-- What a simple repeat consumes from a position. -/
theorem consumeLoop_moves (hn : Simple atom) (max : Option Nat) (fuel cur cnt : Nat) :
    ctx.Moves dir cur (ctx.consumeLoop atom dir max fuel cur cnt).2.1 ∧
    ((ctx.consumeLoop atom dir max fuel cur cnt).1 ≠ [] →
      ctx.remaining dir (ctx.consumeLoop atom dir max fuel cur cnt).2.1 < ctx.remaining dir cur) ∧
    (∀ i, 0 < i → i < (ctx.consumeLoop atom dir max fuel cur cnt).1.length →
      ctx.remaining dir ((ctx.consumeLoop atom dir max fuel cur cnt).1.getD i 0) <
        ctx.remaining dir cur) ∧
    (ctx.consumeLoop atom dir max fuel cur cnt).2.2 ≤
      cnt + (ctx.consumeLoop atom dir max fuel cur cnt).1.length := by
  induction fuel generalizing cur cnt with
  | zero => exact ⟨.refl _ _ _, fun h => absurd rfl h, nofun, Nat.le_refl cnt⟩
  | succ fuel ih =>
      by_cases hstop : (max.all fun n => decide (cnt < n)) = false ∨
          ctx.simpleEnd dir atom cur = none
      · rw [consumeLoop_stop hstop]
        exact ⟨.refl _ _ _, fun h => absurd rfl h, nofun, Nat.le_refl cnt⟩
      · obtain ⟨hmax, hend⟩ := not_or.mp hstop
        obtain ⟨stop, hend⟩ := Option.ne_none_iff_exists'.mp hend
        have hlt := Ctx.end_remaining hn (.inl hend)
        have hhead := @consumeLoop_head dir ctx atom max fuel stop ((cnt + 1) % u32Size)
        obtain ⟨hmove, -, hstarts, hcnt⟩ := ih stop ((cnt + 1) % u32Size)
        rw [consumeLoop_succ (eq_true_of_ne_false hmax) hend]
        generalize ctx.consumeLoop atom dir max fuel stop ((cnt + 1) % u32Size) = r at *
        obtain ⟨starts, last, total⟩ := r
        dsimp only at hhead hmove hstarts hcnt ⊢
        have hle := hmove.remaining_le
        refine ⟨.inr (by omega), fun _ => by omega, ?_, ?_⟩
        · intro i hi hlen
          obtain ⟨i, rfl⟩ := Nat.exists_eq_succ_of_ne_zero (Nat.ne_of_gt hi)
          simp only [List.length_cons, Nat.succ_eq_add_one, Nat.add_lt_add_iff_right] at hlen
          simp only [Nat.succ_eq_add_one, List.getD_cons_succ]
          cases i with
          | zero =>
              rw [hhead hlen]
              exact hlt
          | succ i =>
              have := hstarts (i + 1) (Nat.succ_pos i) hlen
              omega
        · have := Nat.mod_le (cnt + 1) u32Size
          simp only [List.length_cons]
          omega

theorem extends_setFastCaptures (owned consumed : List Nat) (cur : Nat) (caps : Caps) :
    (caps.clearOwned owned).Extends
      (setFastCaptures owned consumed cur (caps.clearOwned owned)) := by
  unfold setFastCaptures
  split
  · exact .refl _
  · split
    · exact (values_setAll owned _ _).1
    · have hclear : owned.foldl (fun captures index => captures.set index none)
          (caps.clearOwned owned).values = (caps.clearOwned owned).values := by
        rw [Caps.values_clearOwned]
        exact clear_setAll owned none caps.values
      rw [resetAll_eq, hclear]
      exact .refl _

theorem simple_of_atomOf {m : Matcher} {atom : NodeRef} (h : m.atomOf loop = some atom) :
    Simple atom.node := by
  unfold atomOf at h
  split at h
  · exact simple_of_simpleAtom h
  · cases h

theorem greedySimple_eq (m : Matcher) (atom : NodeRef) (loop : Loop) (count : Nat) (T : List Task)
    (C : List Choice) (s : Store) {cur cnt : Nat}
    (hr : m.ctx.consumeLoop atom.node s.dir loop.max (m.ctx.input.length + 1) s.pos count =
      (consumed, cur, cnt)) :
    m.greedySimple atom loop count ⟨T, C, s⟩ =
      if cnt < loop.min then
        (false, Cfg.remember ⟨T, C, { s with pos := cur, caps := s.caps.clearOwned loop.owned }⟩
          atom.addr s.pos loop none)
      else
        (true, ⟨T, (if loop.min < cnt then
          [⟨cur, (s.caps.clearOwned loop.owned).mark, T, some (.fastShrink atom consumed s.pos loop
            (s.caps.clearOwned loop.owned).mark T cnt)⟩] else []) ++ C,
          { s with
            pos := cur
            caps := setFastCaptures loop.owned consumed cur (s.caps.clearOwned loop.owned) }⟩) := by
  simp only [Matcher.greedySimple, Cfg.setCaps, Cfg.setPos, hr]
  split
  · rfl
  · split <;> rfl

/-- The simple-atom path keeps the lockstep. -/
theorem Aligned.greedySimple (h : Aligned F D D' s s') {atom : NodeRef}
    (hatom : F.matcher.atomOf loop = some atom)
    (hrest : PendingAgree F D D' s.dir s.pos (decide (0 < loop.min)) T T') :
    Matched F (F.matcher.greedySimple atom loop 0 ⟨T, D ++ F.choices, s⟩)
      (F.matcher.greedySimple atom loop 0 ⟨T', D' ++ F.choices', s'⟩) := by
  have hmoves := @consumeLoop_moves s.dir F.matcher.ctx atom.node (simple_of_atomOf hatom) loop.max
    (F.matcher.ctx.input.length + 1) s.pos 0
  obtain ⟨⟨consumed, cur, cnt⟩, hr⟩ : ∃ r, F.matcher.ctx.consumeLoop atom.node s.dir loop.max
    (F.matcher.ctx.input.length + 1) s.pos 0 = r := ⟨_, rfl⟩
  rw [hr] at hmoves
  obtain ⟨hmove, hlast, hstarts, hcnt⟩ := hmoves
  dsimp only at hmove hlast hstarts hcnt
  rw [Nat.zero_add] at hcnt
  have hr' : F.matcher.ctx.consumeLoop atom.node s'.dir loop.max (F.matcher.ctx.input.length + 1)
      s'.pos 0 = (consumed, cur, cnt) := by
    rw [← h.pos, ← h.dir]
    exact hr
  rw [greedySimple_eq F.matcher atom loop 0 T _ s hr,
    greedySimple_eq F.matcher atom loop 0 T' _ s' hr']
  have hclear := Caps.extends_clearOwned s'.caps loop.owned
  have hset := extends_setFastCaptures loop.owned consumed cur s'.caps
  by_cases hmin : cnt < loop.min
  · rw [if_pos hmin, if_pos hmin]
    exact ⟨rfl, .failing h.dir h.choices (h.keeps.mono hclear), nofun⟩
  · rw [if_neg hmin, if_neg hmin]
    have hreach : PendingAgree F D D' s.dir cur false T T' := by
      refine hrest.reach hmove fun hs => hlast ?_
      rintro rfl
      have := of_decide_eq_true hs
      simp only [List.length_nil] at hcnt
      omega
    have hdone := ((h.setCaps (s.caps.clearOwned loop.owned) hclear).setPos cur)
    by_cases hlevels : loop.min < cnt
    · rw [if_pos hlevels, if_pos hlevels]
      have hshrink : TasksAgree F D D' s.dir cur (s'.caps.clearOwned loop.owned).mark
          (.fastShrink atom consumed s.pos loop (s.caps.clearOwned loop.owned).mark T cnt :: T)
          (.fastShrink atom consumed s.pos loop (s'.caps.clearOwned loop.owned).mark T' cnt :: T') :=
        .fastShrink hrest fun i hi hlt => hstarts i hi (Nat.lt_of_lt_of_le hlt hcnt)
      have hpush := hdone.push hshrink rfl
      have hgo := (hpush.setCaps (setFastCaptures loop.owned consumed cur
        (s.caps.clearOwned loop.owned)) hset).go (hreach.push [_] [_])
      rw [h.pos] at hgo ⊢
      exact hgo
    · rw [if_neg hlevels, if_neg hlevels]
      exact (hdone.setCaps _ hset).go hreach

theorem Aligned.decided (h : Aligned F D D' s s')
    (hrest : PendingAgree F D D' s.dir s.pos strict T T') {b b' : Bool} (hb : b = b')
    (hs : b = true → strict = false) :
    Matched F (b, ⟨T, D ++ F.choices, s⟩) (b', ⟨T', D' ++ F.choices', s'⟩) := by
  subst hb
  cases b with
  | false => exact h.stop
  | true => exact h.test hrest (hs rfl) true

theorem Aligned.greedyRepeat (h : Aligned F D D' s s')
    (hfree : F.free = true → loop.node.node.isBackrefFree = true) (hn : n = 0 ∧ n' = 0 ∨
      F.matcher.atomOf loop = none ∧ F.matcher.ctx.countsAgree s.dir loop s.pos n n' = true)
    (hrest : PendingAgree F D D' s.dir s.pos ((Task.greedyRepeat loop n).mustMove s.dir) T T') :
    Matched F (F.matcher.dispatch (.greedyRepeat loop n) ⟨T, D ++ F.choices, s⟩)
      (F.matcher.dispatch (.greedyRepeat loop n') ⟨T', D' ++ F.choices', s'⟩) := by
  have hcounts : F.matcher.ctx.countsAgree s.dir loop s.pos n n' = true := by
    rcases hn with ⟨rfl, rfl⟩ | ⟨-, hn⟩
    · rfl
    · exact hn
  obtain ⟨hmax, hmin⟩ := counts_tests hcounts
  have hmust : (Task.greedyRepeat loop n).mustMove s.dir = true →
      n < loop.min ∧ loop.node.node.mustMove = true := by
    intro hm
    rw [Task.mustMove, Bool.and_eq_true, decide_eq_true_eq] at hm
    exact hm
  have hatomOf : F.matcher.atomOf loop =
      if F.matcher.options.fastPath then simpleAtom loop.node.addr loop.node.node else none := rfl
  simp only [dispatch, ← hmax, F.memo_off, Bool.false_and, Bool.false_eq_true, if_false]
  split
  · refine h.decided hrest (decide_eq_decide.mpr hmin) fun hle => ?_
    rw [Task.mustMove, decide_eq_false (Nat.not_lt.mpr (of_decide_eq_true hle)), Bool.false_and]
  · rw [← hatomOf]
    cases hatom : F.matcher.atomOf loop with
    | some atom =>
        rcases hn with ⟨rfl, rfl⟩ | ⟨hnone, -⟩
        · refine h.greedySimple hatom (hrest.mono (.refl _ _ _) fun hm => .inl ?_)
          exact decide_eq_true (hmust hm).1
        · rw [hatom] at hnone
          cases hnone
    | none =>
        have hdone : TasksAgree F D D' s.dir s.pos s'.caps.mark (.repeatDone loop.min n :: T)
            (.repeatDone loop.min n' :: T') := by
          refine .pending (.task (.repeatDone _ _ _ _ hmin) ?_)
          refine hrest.mono (.refl _ _ _) fun hm => .inl ?_
          exact decide_eq_true (hmust hm).1
        exact (h.push hdone rfl).iterate hfree (fun _ => hatom) hcounts (hrest.push [_] [_])
          fun hm => (hmust hm).2

theorem Aligned.lazyRepeat (h : Aligned F D D' s s')
    (hfree : F.free = true → loop.node.node.isBackrefFree = true)
    (hn : F.matcher.ctx.countsAgree s.dir loop s.pos n n' = true)
    (hrest : PendingAgree F D D' s.dir s.pos ((Task.lazyRepeat loop n).mustMove s.dir) T T') :
    Matched F (F.matcher.dispatch (.lazyRepeat loop n) ⟨T, D ++ F.choices, s⟩)
      (F.matcher.dispatch (.lazyRepeat loop n') ⟨T', D' ++ F.choices', s'⟩) := by
  obtain ⟨hmax, hmin⟩ := counts_tests hn
  simp only [dispatch, ← hmax]
  by_cases hle : loop.min ≤ n
  · have hmust : (Task.lazyRepeat loop n).mustMove s.dir = false := by
      rw [Task.mustMove, decide_eq_false (Nat.not_lt.mpr hle), Bool.false_and]
    rw [hmust] at hrest
    rw [if_pos hle, if_pos (hmin.mp hle)]
    have hiterate : TasksAgree F D D' s.dir s.pos s'.caps.mark (.lazyIterate loop n :: T)
        (.lazyIterate loop n' :: T') :=
      .pending (.task (.lazyIterate _ _ _ hfree hn) hrest)
    exact (h.push hiterate rfl).go (hrest.push [_] [_])
  · rw [if_neg hle, if_neg fun hle' => hle (hmin.mpr hle')]
    split
    · exact h.stop
    · refine h.iterate hfree (absurd · Bool.false_ne_true) hn hrest fun hm => ?_
      rw [Task.mustMove, Bool.and_eq_true] at hm
      exact hm.2

/-- Two iterations that both moved are counted alike. -/
theorem countsAgree_next {n n' start start' : Nat}
    (hlt : ctx.remaining dir pos < ctx.remaining dir start)
    (hlt' : ctx.remaining dir pos < ctx.remaining dir start')
    (hn : n = n' ∨ loop.min ≤ n + 1 ∧ loop.min ≤ n' + 1 ∧
      ctx.boundsAgree dir loop start n start' n' = true) :
    ctx.countsAgree dir loop pos ((n + 1) % u32Size) ((n' + 1) % u32Size) = true := by
  rcases hn with rfl | ⟨hmin, hmin', hb⟩
  · simp only [Ctx.countsAgree, beq_self_eq_true, Bool.true_or]
  · simp only [Ctx.boundsAgree, Bool.or_eq_true, Bool.and_eq_true] at hb
    simp only [Ctx.countsAgree, Ctx.boundsAgree, Bool.or_eq_true, Bool.and_eq_true,
      decide_eq_true_eq]
    right
    rcases hb with ⟨hmax, hzero⟩ | ⟨hw, hw'⟩
    · have hzero' : loop.min = 0 := beq_iff_eq.mp hzero
      exact ⟨⟨by omega, by omega⟩, .inl ⟨hmax, hzero⟩⟩
    · have hsize : n + ctx.remaining dir start < u32Size := by
        simp only [Ctx.withinMax, Bool.and_eq_true, decide_eq_true_eq] at hw
        exact hw.1
      have hsize' : n' + ctx.remaining dir start' < u32Size := by
        simp only [Ctx.withinMax, Bool.and_eq_true, decide_eq_true_eq] at hw'
        exact hw'.1
      rw [Nat.mod_eq_of_lt (by omega), Nat.mod_eq_of_lt (by omega)]
      exact ⟨⟨hmin, hmin'⟩, .inr ⟨Ctx.withinMax_mono hw (by omega),
        Ctx.withinMax_mono hw' (by omega)⟩⟩

/-- Two iterations that agree are both empty or both not. -/
theorem iterationsAgree_cases {n n' start start' : Nat}
    (h : ctx.iterationsAgree dir pos false loop n start n' start' = true) :
    (start = pos ∧ start' = pos ∧ (n = n' ∨ loop.min ≤ n ∧ loop.min ≤ n')) ∨
    (start ≠ pos ∧ start' ≠ pos ∧
      ctx.countsAgree dir loop pos ((n + 1) % u32Size) ((n' + 1) % u32Size) = true) := by
  have hmoved : ∀ {start : Nat}, ctx.remaining dir pos < ctx.remaining dir start → start ≠ pos := by
    rintro start hlt rfl
    exact Nat.lt_irrefl _ hlt
  simp only [Ctx.iterationsAgree, Ctx.bothBehind, Bool.false_eq_true, if_false, Bool.or_eq_true,
    Bool.and_eq_true, decide_eq_true_eq, beq_iff_eq] at h
  rcases h with ⟨⟨hlt, hlt'⟩, hn⟩ | ⟨⟨rfl, hmove⟩, hn⟩
  · refine .inr ⟨hmoved hlt, hmoved hlt', countsAgree_next hlt hlt' ?_⟩
    rcases hn with hn | ⟨⟨hmin, hmin'⟩, hb⟩
    · exact .inl hn
    · exact .inr ⟨hmin, hmin', hb⟩
  · rcases hmove with rfl | hlt
    · refine .inl ⟨rfl, rfl, ?_⟩
      rcases hn with hn | ⟨hmin, -⟩
      · exact .inl hn
      · exact .inr hmin
    · refine .inr ⟨hmoved hlt, hmoved hlt, countsAgree_next hlt hlt ?_⟩
      rcases hn with hn | ⟨⟨hmin, hmin'⟩, hb⟩
      · exact .inl hn
      · exact .inr ⟨by omega, by omega, hb⟩

theorem Aligned.repeatIterDone (h : Aligned F D D' s s') {n start n' start' : Nat}
    (hfree : F.free = true → loop.node.node.isBackrefFree = true)
    (hatom : greedy = true → F.matcher.atomOf loop = none)
    (hn : F.matcher.ctx.iterationsAgree s.dir s.pos false loop n start n' start' = true)
    (hrest : PendingAgree F D D' s.dir s.pos false T T') :
    Matched F (F.matcher.dispatch (.repeatIterDone loop greedy n start) ⟨T, D ++ F.choices, s⟩)
      (F.matcher.dispatch (.repeatIterDone loop greedy n' start') ⟨T', D' ++ F.choices', s'⟩) := by
  have hagain : ∀ {next next' : Nat},
      F.matcher.ctx.countsAgree s.dir loop s.pos next next' = true →
      Matched F
        (true, Cfg.pushTask ⟨T, D ++ F.choices, s⟩
          (if greedy = true then .greedyRepeat loop next else .lazyRepeat loop next))
        (true, Cfg.pushTask ⟨T', D' ++ F.choices', s'⟩
          (if greedy = true then .greedyRepeat loop next' else .lazyRepeat loop next')) := by
    intro next next' hnext
    cases greedy with
    | true =>
        exact h.go (.task (.greedyRepeat loop next next' hfree (.inr ⟨hatom rfl, hnext⟩))
          (hrest.mono (.refl _ _ _) nofun))
    | false =>
        exact h.go (.task (.lazyRepeat loop next next' hfree hnext)
          (hrest.mono (.refl _ _ _) nofun))
  simp only [dispatch, ← h.pos]
  rcases iterationsAgree_cases hn with ⟨rfl, rfl, hcount⟩ | ⟨hne, hne', hnext⟩
  · simp only [beq_self_eq_true, Bool.true_and, decide_eq_true_eq, if_true]
    rcases hcount with rfl | ⟨hmin, hmin'⟩
    · split
      · exact h.stop
      · split
        · exact h.go hrest
        · exact hagain (by simp only [Ctx.countsAgree, beq_self_eq_true, Bool.true_or])
    · rw [if_pos hmin, if_pos hmin']
      exact h.stop
  · have hb := beq_eq_false_iff_ne.mpr (Ne.symm hne)
    have hb' := beq_eq_false_iff_ne.mpr (Ne.symm hne')
    simp only [hb, hb', Bool.false_and, Bool.false_eq_true, if_false]
    exact hagain hnext

theorem isBackrefFreeSeq_getD {nodes : List Node} (h : Node.isBackrefFreeSeq nodes = true)
    (index : Nat) : (nodes.getD index .empty).isBackrefFree = true := by
  induction nodes generalizing index with
  | nil => rfl
  | cons node nodes ih =>
      rw [Node.isBackrefFreeSeq, Bool.and_eq_true] at h
      cases index with
      | zero => exact h.1
      | succ index => exact ih h.2 index

/-- A task that waited keeps the lockstep. -/
theorem Aligned.task (h : Aligned F D D' s s') {task task' : Task}
    (hcaps : F.free = true ∨ s.caps.values = s'.caps.values)
    (htask : TaskAgrees F.matcher F.free s.dir s.pos false task task')
    (hrest : PendingAgree F D D' s.dir s.pos (task.mustMove s.dir) T T') :
    Matched F (F.matcher.dispatch task ⟨T, D ++ F.choices, s⟩)
      (F.matcher.dispatch task' ⟨T', D' ++ F.choices', s'⟩) := by
  cases htask with
  | node ref hfree => exact h.node ref hfree hcaps hrest
  | seqElem addr nodes index hfree =>
      simp only [dispatch, ← h.dir]
      by_cases hlt : index < nodes.length
      · rw [if_pos hlt, if_pos hlt]
        refine h.go (.task (.node _ fun hf => ?_) (.task (.seqElem _ _ _ hfree) ?_))
        · exact isBackrefFreeSeq_getD (hfree hf) _
        · refine hrest.mono (.refl _ _ _) fun hm => .inl ?_
          rw [Task.mustMove, ordered_drop hlt, Node.mustMoveSeq] at hm
          rw [Bool.false_or]
          exact hm
      · rw [if_neg hlt, if_neg hlt]
        have hmust : (Task.seqElem addr nodes index).mustMove s.dir = false := by
          rw [Task.mustMove, List.drop_eq_nil_of_le]
          · rfl
          · rw [Ctx.length_ordered]
            exact Nat.not_lt.mp hlt
        rw [hmust] at hrest
        exact h.go hrest
  | captureClose index start start' =>
      exact (h.setCaps _ (Caps.extends_set s'.caps index _)).go hrest
  | greedyRepeat loop n n' hfree hn => exact h.greedyRepeat hfree hn hrest
  | lazyRepeat loop n n' hfree hn => exact h.lazyRepeat hfree hn hrest
  | repeatIterDone loop greedy n start n' start' hfree hatom hn =>
      exact h.repeatIterDone hfree hatom hn hrest
  | repeatDone min n min' n' hn =>
      refine h.decided hrest (decide_eq_decide.mpr hn) fun hle => ?_
      rw [Task.mustMove, decide_eq_false (Nat.not_lt.mpr (of_decide_eq_true hle))]
  | lazyIterate loop n n' hfree hn =>
      simp only [dispatch, ← (counts_tests hn).1]
      split
      · exact h.stop
      · exact h.iterate hfree (absurd · Bool.false_ne_true) hn hrest (absurd · Bool.false_ne_true)

theorem undo_mark (trail : List (Nat × Option Span)) (values : List (Option Span))
    (h : mark ≤ trail.length) : (Caps.undo mark trail values).mark = mark := by
  induction trail generalizing values with
  | nil => exact (Nat.le_zero.mp h).symm
  | cons entry trail ih =>
      rw [Caps.undo]
      split
      · rename_i hlt
        exact ih _ (Nat.le_of_lt_succ hlt)
      · rename_i hle
        exact Nat.le_antisymm (Nat.not_lt.mp hle) h

theorem rollback_extends {a b : Caps} (h : a.Extends b) (hle : a.mark ≤ mark) (hmark : mark ≤ b.mark) :
    a.Extends (b.rollback mark) := by
  have hm : (b.rollback mark).mark = mark := undo_mark b.trail b.values hmark
  refine ⟨Nat.le_trans hle (Nat.le_of_eq hm.symm), ?_⟩
  rw [Caps.rollback_rollback hle]
  exact h.2

/-- Going back to a choice leaves the ones below it in place. -/
theorem Comparison.Keeps.rollback {caps : Caps} {k' : Choice}
    (h : F.Keeps (k' :: D') caps) (hmark : F.caps.mark ≤ k'.mark)
    (hbelow : ∀ j ∈ D', j.mark ≤ k'.mark) :
    F.Keeps D' (caps.rollback k'.mark) ∧ (caps.rollback k'.mark).mark = k'.mark := by
  have hk := h.1 k' List.mem_cons_self
  have hm : (caps.rollback k'.mark).mark = k'.mark := undo_mark caps.trail caps.values hk
  exact ⟨⟨fun j hj => Nat.le_trans (hbelow j hj) (Nat.le_of_eq hm.symm), rollback_extends h.2 hmark hk⟩, hm⟩

theorem PendingAgree.ne_resumed {task : Task} (h : PendingAgree F D D' dir pos strict (task :: T) T')
    (htask : ∀ task' strict, ¬ TaskAgrees F.matcher F.free dir pos strict task task')
    (hdone : ∀ negate start outer mark cut, task ≠ .assertDone negate start outer mark cut) :
    False := by
  generalize hall : task :: T = T₀ at h
  cases h with
  | base =>
      rcases F.ground with hnil | ⟨negate, start, outer, mark, cut, rest, hground, -⟩
      · rw [hnil] at hall
        cases hall
      · rw [hground] at hall
        exact hdone _ _ _ _ _ (List.cons.inj hall).1
  | task hagree _ =>
      obtain ⟨rfl, -⟩ := List.cons.inj hall
      exact htask _ _ hagree
  | assertDone => exact hdone _ _ _ _ _ (List.cons.inj hall).1

/-- The choice a lookaround recorded holds its continuation. -/
theorem TasksAgree.assertFailed_inv {mark start : Nat}
    (h : TasksAgree F D D' dir pos mark (.assertFailed negate start outer :: T)
      (.assertFailed negate start outer :: T')) : PendingAgree F D D' outer start false T T' := by
  cases h with
  | pending h => exact (h.ne_resumed nofun nofun).elim
  | assertFailed h => exact h

/-- The end of a lookaround. -/
theorem Aligned.assertDone (h : Aligned F D D' s s') {start mark mark' cut cut' : Nat}
    {E E' L L' : List Choice}
    (hD : D = E ++ ⟨start, mark, T, some (.assertFailed negate start outer)⟩ :: L)
    (hD' : D' = E' ++ ⟨start, mark', T', some (.assertFailed negate start outer)⟩ :: L')
    (hlen : L.length = L'.length) (hcut : cut = (L ++ F.choices).length)
    (hcut' : cut' = (L' ++ F.choices').length) :
    Matched F
      (F.matcher.dispatch (.assertDone negate start outer mark cut) ⟨T, D ++ F.choices, s⟩)
      (F.matcher.dispatch (.assertDone negate start outer mark' cut')
        ⟨T', D' ++ F.choices', s'⟩) := by
  subst hD hD' hcut hcut'
  obtain ⟨dir', hsuffix⟩ := h.choices.suffix (by simp only [List.length_cons, hlen])
  have hkeeps : F.Keeps (⟨start, mark', T', some (.assertFailed negate start outer)⟩ :: L')
      s'.caps :=
    ⟨fun j hj => h.keeps.1 j (List.mem_append_right _ hj), h.keeps.2⟩
  cases hsuffix with
  | cons _ htasks hmark hbelow hrest =>
      simp only [dispatch, List.append_assoc, List.cons_append, Cfg.setDir, Cfg.setCaps, Cfg.setPos,
        truncate_append]
      cases negate with
      | true => exact ⟨rfl, .failing rfl hrest (hkeeps.rollback hmark hbelow).1, (absurd · Bool.false_ne_true)⟩
      | false =>
          have hin : Aligned F L L' { s with dir := outer, pos := start }
              { s' with dir := outer, pos := start } :=
            ⟨rfl, rfl, hrest, fun j hj => hkeeps.1 j (List.mem_cons_of_mem _ hj), hkeeps.2⟩
          exact hin.go htasks.assertFailed_inv

/-- A simple repeat gives up one iteration, or fails for good. -/
theorem Aligned.fastShrink (h : Aligned F D D' s s') {atom : NodeRef} {entry mark level : Nat}
    (hrest : PendingAgree F D D' s.dir entry (decide (0 < loop.min)) T T')
    (hlevels : ∀ i, 0 < i → i < level →
      F.matcher.ctx.remaining s.dir (consumed.getD i 0) < F.matcher.ctx.remaining s.dir entry) :
    Matched F
      (F.matcher.dispatch (.fastShrink atom consumed entry loop mark T level)
        ⟨T, D ++ F.choices, s⟩)
      (F.matcher.dispatch (.fastShrink atom consumed entry loop s'.caps.mark T' level)
        ⟨T', D' ++ F.choices', s'⟩) := by
  simp only [dispatch]
  by_cases hdead : level ≤ loop.min
  · rw [if_pos hdead, if_pos hdead]
    split
    · exact ⟨rfl, .failing h.dir h.choices h.keeps, (absurd · Bool.false_ne_true)⟩
    · exact h.stop
  · rw [if_neg hdead, if_neg hdead]
    obtain ⟨level, rfl⟩ : ∃ l, level = l + 1 := ⟨level - 1, by omega⟩
    rw [Nat.add_sub_cancel]
    have hlower : ∀ i, 0 < i → i < level →
        F.matcher.ctx.remaining s.dir (consumed.getD i 0) < F.matcher.ctx.remaining s.dir entry :=
      fun i hi hlt => hlevels i hi (Nat.lt_succ_of_lt hlt)
    by_cases hzero : level = 0
    · have hmin : decide (0 < loop.min) = false := decide_eq_false (by omega)
      rw [hmin] at hrest
      rw [if_pos hzero, if_neg (by omega), if_neg (by omega)]
      have hshrink : TasksAgree F D D' s.dir entry s'.caps.mark
          (.fastShrink atom consumed entry loop mark T level :: T)
          (.fastShrink atom consumed entry loop s'.caps.mark T' level :: T') :=
        .fastShrink (hmin ▸ hrest) hlower
      have hpush := (h.setPos entry).resumed mark hshrink rfl
      exact hpush.go (hrest.push [_] [_])
    · have hlt := hlevels level (Nat.pos_of_ne_zero hzero) (Nat.lt_succ_self level)
      rw [if_neg hzero, if_pos (by omega), if_pos (by omega)]
      have hshrink : TasksAgree F D D' s.dir (consumed.getD level 0) s'.caps.mark
          (.fastShrink atom consumed entry loop mark T level :: T)
          (.fastShrink atom consumed entry loop s'.caps.mark T' level :: T') :=
        .fastShrink hrest hlower
      have hpush := (h.setPos (consumed.getD level 0)).resumed mark hshrink rfl
      refine (hpush.setCaps _ (values_setAll loop.owned _ _).1).go ?_
      exact (hrest.reach (.inr hlt) fun _ => hlt).push [_] [_]

/-- A task on top keeps the lockstep, unless the runs are back at their base. -/
theorem TasksAgree.dispatch {task : Task} (htasks : TasksAgree F D D' s.dir s.pos s'.caps.mark (task :: T) T')
    (hpos : s.pos = s'.pos) (hdir : s.dir = s'.dir)
    (hchoices : ChoicesAgree F (headDir (task :: T) s.dir) D D') (hkeeps : F.Keeps D' s'.caps)
    (hcaps : F.free = true ∨ s.caps.values = s'.caps.values) (hbase : task :: T ≠ F.tasks) :
    ∃ task' T₁, T' = task' :: T₁ ∧ Matched F (F.matcher.dispatch task ⟨T, D ++ F.choices, s⟩)
      (F.matcher.dispatch task' ⟨T₁, D' ++ F.choices', s'⟩) := by
  generalize hall : task :: T = T₀ at htasks hbase hchoices
  cases htasks with
  | pending h =>
      rw [h.headDir] at hchoices
      have hal : Aligned F D D' s s' := ⟨hpos, hdir, hchoices, hkeeps⟩
      cases h with
      | base => exact absurd rfl hbase
      | task htask hrest =>
          obtain ⟨rfl, rfl⟩ := List.cons.inj hall
          exact ⟨_, _, rfl, hal.task hcaps htask hrest⟩
      | assertDone hD hD' hlen hcut hcut' =>
          obtain ⟨rfl, rfl⟩ := List.cons.inj hall
          exact ⟨_, _, rfl, hal.assertDone hD hD' hlen hcut hcut'⟩
  | classAdvance hmove h =>
      obtain ⟨rfl, rfl⟩ := List.cons.inj hall
      have hal : Aligned F D D' s s' := ⟨hpos, hdir, hchoices, hkeeps⟩
      refine ⟨_, _, rfl, ?_⟩
      simp only [Matcher.dispatch, ← hpos, ← hdir]
      exact (hal.setPos _).go (h.reach hmove (absurd · Bool.false_ne_true))
  | @assertFailed negate start outer _ _ h =>
      obtain ⟨rfl, rfl⟩ := List.cons.inj hall
      refine ⟨_, _, rfl, ?_⟩
      have hal : Aligned F D D' { s with pos := start, dir := outer }
          { s' with pos := start, dir := outer } := ⟨rfl, rfl, hchoices, hkeeps⟩
      exact hal.test h rfl negate
  | fastShrink h hlevels =>
      obtain ⟨rfl, rfl⟩ := List.cons.inj hall
      have hal : Aligned F D D' s s' := ⟨hpos, hdir, hchoices, hkeeps⟩
      exact ⟨_, _, rfl, hal.fastShrink h hlevels⟩

/-- The run is back at the tasks or the choices the comparison began with. -/
def Comparison.AtBase (F : Comparison) : State Task Choice Store → Prop
  | .running c => c.tasks = F.tasks
  | .failing c => c.choices = F.choices

variable {x x' y : State Task Choice Store}

/-- A task above the base that succeeds leaves on top a task that can wait. -/
theorem Locked.dispatch {task : Task} {T : List Task} {C : List Choice} {s : Store}
    (h : Locked F (.running ⟨task :: T, C, s⟩) x')
    (hcaps : F.free = true ∨ .running ⟨task :: T, C, s⟩ = x') (hbase : task :: T ≠ F.tasks) :
    ∃ task' T' C' s', x' = .running ⟨task' :: T', C', s'⟩ ∧
      Matched F (F.matcher.dispatch task ⟨T, C, s⟩) (F.matcher.dispatch task' ⟨T', C', s'⟩) := by
  cases h with
  | @running _ _ D D' _ s' hpos hdir htasks hchoices hkeeps =>
      have hvalues : F.free = true ∨ s.caps.values = s'.caps.values := by
        rcases hcaps with hf | heq
        · exact .inl hf
        · injection heq with heq
          injection heq with _ _ heq
          exact .inr (congrArg (fun s => s.caps.values) heq)
      obtain ⟨task', T₁, rfl, hm⟩ := htasks.dispatch hpos hdir hchoices hkeeps hvalues hbase
      exact ⟨task', T₁, _, s', rfl, hm⟩

/-- Every step above the base keeps the lockstep. -/
theorem Locked.step (h : Locked F x x') (hcaps : F.free = true ∨ x = x') (hbase : ¬ F.AtBase x)
    (hs : F.matcher.machine.step x = some y) :
    ∃ y', F.matcher.machine.step x' = some y' ∧ Locked F y y' := by
  cases x with
  | running c =>
      obtain ⟨T, C, s⟩ := c
      cases T with
      | nil => cases hs
      | cons task T =>
          obtain ⟨task', T', C', s', rfl, hok, hlocked, -⟩ := h.dispatch hcaps hbase
          have hd : F.matcher.machine.dispatch = F.matcher.dispatch := rfl
          simp only [Backtracker.step, hd] at hs ⊢
          generalize F.matcher.dispatch task ⟨T, C, s⟩ = r at hs hok hlocked
          generalize F.matcher.dispatch task' ⟨T', C', s'⟩ = r' at hok hlocked
          obtain ⟨b, c⟩ := r
          obtain ⟨b', c'⟩ := r'
          dsimp only at hok
          subst hok
          cases b <;> cases hs <;> exact ⟨_, rfl, hlocked⟩
  | failing c =>
      cases h with
      | @failing T T' D D' s s' hdir hchoices hkeeps =>
          generalize hd : s.dir = d at hchoices
          cases hchoices with
          | nil => exact absurd rfl hbase
          | cons hpos htasks hmark hbelow hrest =>
              subst hd
              cases hs
              obtain ⟨hkeeps', hm⟩ := hkeeps.rollback hmark hbelow
              refine ⟨_, rfl, .running hpos hdir ?_ hrest hkeeps'⟩
              change TasksAgree F _ _ s.dir _ (s'.caps.rollback _).mark _ _
              rw [hm]
              exact htasks

theorem Locked.above (h : Locked F x x') (habove : x.Above F.choices.length) :
    x'.Above F.choices'.length := by
  cases h with
  | running _ _ _ hchoices _ =>
      simp only [State.Above, List.length_append]
      exact Nat.le_add_left _ _
  | failing _ hchoices _ =>
      have := hchoices.length_eq
      simp only [State.Above, List.length_append] at habove ⊢
      omega

/-- A run that stays above the choices it began with is not back at its base. -/
theorem not_atBase (hs : F.matcher.machine.step x = some y) (habove : x.Above F.choices.length)
    (hy : F.choices.length ≤ y.choices.length) : ¬ F.AtBase x := by
  intro hbase
  cases x with
  | failing c =>
      have hlen := congrArg List.length hbase
      exact Nat.lt_irrefl _ (hlen ▸ habove)
  | running c =>
      obtain ⟨T, C, s⟩ := c
      obtain rfl : T = F.tasks := hbase
      rcases F.ground with hnil | ⟨negate, start, outer, mark, cut, rest, hdone, hcut⟩
      · simp only [Backtracker.step, hnil] at hs
        cases hs
      · have hlen : y.choices.length ≤ cut := by
          have hd : F.matcher.machine.dispatch = F.matcher.dispatch := rfl
          simp only [Backtracker.step, hdone, hd, Matcher.dispatch] at hs
          cases negate <;> cases hs <;>
            simp only [State.choices, Cfg.truncate, Cfg.setDir, Cfg.setCaps, Cfg.setPos,
              List.length_drop] <;> omega
        omega

/-- A run above its base takes the other one with it. -/
theorem Locked.descends {z : State Task Choice Store} (h : Locked F x x')
    (hrun : Descends F.matcher.machine F.choices.length x z)
    (hz : F.choices.length ≤ z.choices.length) (hcaps : F.free = true ∨ x = x') :
    ∃ z', Descends F.matcher.machine F.choices'.length x' z' ∧ Locked F z z' ∧
      (x = x' → z = z') := by
  induction hrun generalizing x' with
  | refl => exact ⟨x', .refl _, h, id⟩
  | @step x y z habove hs hrest ih =>
      have hbase := not_atBase hs habove (hrest.le_choices hz)
      obtain ⟨y', hs', hy⟩ := h.step hcaps hbase hs
      have heq : x = x' → y = y' := by
        rintro rfl
        exact Option.some.inj (hs.symm.trans hs')
      obtain ⟨z', hrun', hlocked, hsame⟩ := ih hy hz (hcaps.imp_right heq)
      exact ⟨z', .step (h.above habove) hs' hrun', hlocked, fun hx => hsame (heq hx)⟩

end Matcher

end Slag.Regexp
