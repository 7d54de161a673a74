import Slag.Regexp.SimpleAtom

/-!
The simple-atom path against the general tasks. Both hand on the levels from the
last iteration down to the minimum; the iterations of the one are read in source
order, of the other in the order of the direction.
-/

namespace Slag.Regexp

open Slag.Backtrack

/-- The ends of the iterations from a position, within the maximum. -/
def reaches (f : Nat → Option Nat) (max : Option Nat) : Nat → Nat → Nat → List Nat
  | 0, _, _ => []
  | fuel + 1, count, pos =>
      if max.all fun n => decide (count < n) then
        match f pos with
        | some stop => stop :: reaches f max fuel (count + 1) stop
        | none => []
      else []

/-- The states after the iterations that end at given positions. -/
def spans (owned : List Nat) (captures : List (Option Span)) (pos : Nat) :
    List Nat → List MatchState
  | [] => []
  | stop :: stops =>
      { MatchState.setAll ⟨stop, captures⟩ owned (span pos stop) with endIndex := stop } ::
        spans owned captures stop stops

namespace Matcher

open Ctx

variable {m : Matcher} {dir : Direction} {x : MatchState} {s : Store} {T : List Task}
  {C : List Choice} {loop : Loop} {atom : NodeRef}

theorem length_spans (owned : List Nat) (captures : List (Option Span)) (pos : Nat)
    (stops : List Nat) : (spans owned captures pos stops).length = stops.length := by
  induction stops generalizing pos with
  | nil => rfl
  | cons stop stops ih => rw [spans, List.length_cons, ih, List.length_cons]

theorem clear_setAll (owned : List Nat) (value : Option Span) (captures : List (Option Span)) :
    owned.foldl (fun captures index => captures.set index none)
        (owned.foldl (fun captures index => captures.set index value) captures) =
      owned.foldl (fun captures index => captures.set index none) captures := by
  apply List.ext_getElem?
  intro i
  rw [getElem?_setAll, getElem?_setAll, getElem?_setAll, length_setAll]
  by_cases hi : i ∈ owned ∧ i < captures.length
  · rw [if_pos hi, if_pos hi]
  · rw [if_neg hi, if_neg hi, if_neg hi]

/-- The iteration of a loop over a simple atom. -/
theorem loopIteration_simple (hs : simpleAtom loop.node.addr loop.node.node = some atom)
    (howned : loop.owned = loop.node.node.collectCaptures) (count : Nat) (x : MatchState) :
    m.ctx.loopIteration dir loop true count x =
      match m.ctx.generalEnd dir atom.node x.endIndex with
      | some stop => m.ctx.loopResults dir loop true (count + 1)
          { (x.clear loop.owned).setAll loop.owned (span x.endIndex stop) with endIndex := stop }
      | none => [] := by
  rw [loopIteration_eq, outcomes_simple hs, howned]
  cases hend : m.ctx.generalEnd dir atom.node (x.clear loop.node.node.collectCaptures).endIndex with
  | none =>
      have hend' : m.ctx.generalEnd dir atom.node x.endIndex = none := hend
      rw [hend']
      rfl
  | some stop =>
      have hend' : m.ctx.generalEnd dir atom.node x.endIndex = some stop := hend
      have hmove := end_remaining (simple_of_simpleAtom hs) (.inr hend')
      have hne : stop ≠ x.endIndex := by
        intro heq
        rw [heq] at hmove
        exact Nat.lt_irrefl _ hmove
      rw [hend']
      simp only [Option.toList_some, List.map_cons, List.map_nil, List.flatMap_cons,
        List.flatMap_nil, List.append_nil, hne, and_false, if_false]
      rfl

variable {fuel : Nat} {consumed stops : List Nat} {cont : List Task}

/-- The general results: every level from the last down to the minimum. -/
theorem loopResults_simple (hs : simpleAtom loop.node.addr loop.node.node = some atom)
    (howned : loop.owned = loop.node.node.collectCaptures)
    (hmax : (loop.max.all fun n => decide (loop.min ≤ n)) = true) (count : Nat) (x : MatchState)
    (hfuel : m.ctx.remaining dir x.endIndex < fuel) :
    m.ctx.loopResults dir loop true count x =
      ((x :: spans loop.owned (x.clear loop.owned).captures x.endIndex
        (reaches (m.ctx.generalEnd dir atom.node) loop.max fuel count x.endIndex)).drop
          (loop.min - count)).reverse := by
  induction fuel generalizing count x with
  | zero => exact absurd hfuel (Nat.not_lt_zero _)
  | succ fuel ih =>
      have hall : (loop.max.all fun n => decide (count < n)) = !loop.atMax count := by
        unfold Loop.atMax
        cases loop.max with
        | none => rfl
        | some n =>
            simp only [Option.all_some, Option.any_some, ← decide_not, Nat.not_le]
      rw [loopResults_eq, reaches, hall]
      cases hat : loop.atMax count with
      | true =>
          have hmin : loop.min ≤ count := by
            unfold Loop.atMax at hat
            cases hm : loop.max with
            | none => simp [hm] at hat
            | some n =>
                simp only [hm, Option.any_some, Option.all_some, decide_eq_true_eq] at hat hmax
                omega
          have hz : loop.min - count = 0 := by omega
          simp [hz, spans]
      | false =>
          simp only [Bool.false_eq_true, if_false, Bool.not_false, if_true]
          rw [loopIteration_simple hs howned]
          cases hend : m.ctx.generalEnd dir atom.node x.endIndex with
          | none =>
              by_cases hmin : loop.min ≤ count
              · have hz : loop.min - count = 0 := by omega
                rw [if_neg (show ¬ count < loop.min by omega), hz]
                rfl
              · obtain ⟨k, hk⟩ : ∃ k, loop.min - count = k + 1 := ⟨_, (by omega : _ = loop.min - count - 1 + 1)⟩
                rw [if_pos (show count < loop.min by omega), hk]
                simp [spans]
          | some stop =>
              have hmove := end_remaining (simple_of_simpleAtom hs) (.inr hend)
              have hnext := ih (count + 1)
                { (x.clear loop.owned).setAll loop.owned (span x.endIndex stop) with
                  endIndex := stop } (show m.ctx.remaining dir stop < fuel by omega)
              have hclear : MatchState.captures (MatchState.clear
                  { (x.clear loop.owned).setAll loop.owned (span x.endIndex stop) with
                    endIndex := stop } loop.owned) = (x.clear loop.owned).captures := by
                simp only [MatchState.clear, MatchState.setAll, clear_setAll]
              rw [hclear] at hnext
              simp only [hnext]
              by_cases hmin : loop.min ≤ count
              · have hz : loop.min - count = 0 := by omega
                have hz' : loop.min - (count + 1) = 0 := by omega
                rw [if_neg (show ¬ count < loop.min by omega), hz, hz']
                rw [List.drop_zero, List.drop_zero, List.reverse_cons (a := x)]
                rfl
              · have hk : loop.min - count = loop.min - (count + 1) + 1 := by omega
                rw [if_pos (show count < loop.min by omega), hk, List.drop_succ_cons]
                rfl

/-- The general tasks emit the general results, while the counter is in range. -/
theorem emits_general (hgen : m.options.fastPath = false)
    (hs : simpleAtom loop.node.addr loop.node.node = some atom)
    (hmax : (loop.max.all fun n => decide (loop.min ≤ n)) = true) (count : Nat) (h : s.Stands dir x)
    (hfuel : m.ctx.remaining dir x.endIndex < fuel)
    (hrange : count + m.ctx.remaining dir x.endIndex < u32Size) :
    Emits m.machine (reading dir fun _ => false) T C s
      (.running ⟨.greedyRepeat loop count :: T, C, s⟩) (m.ctx.loopResults dir loop true count x) := by
  induction fuel generalizing count x s T C with
  | zero => exact absurd hfuel (Nat.not_lt_zero _)
  | succ fuel ih =>
      have hslow : TakesSlowPath m loop := by
        rw [TakesSlowPath, hgen, if_neg Bool.false_ne_true]
      refine emits_greedy hslow (nodeEmits_simple hs) hmax ?_ h
      intro y hy T C s hy'
      rw [outcomes_simple hs] at hy
      obtain ⟨stop, hstop, rfl⟩ := List.mem_map.mp hy
      have hend : m.ctx.generalEnd dir atom.node x.endIndex = some stop := Option.mem_toList.mp hstop
      have hmove := end_remaining (simple_of_simpleAtom hs) (.inr hend)
      have hne : stop ≠ x.endIndex := by
        intro heq
        rw [heq] at hmove
        exact Nat.lt_irrefl _ hmove
      have hpos : s.pos ≠ x.endIndex := by
        rw [hy'.1]
        exact hne
      have hcount : (count + 1) % u32Size = count + 1 := Nat.mod_eq_of_lt (by omega)
      have hd : m.machine.dispatch (.repeatIterDone loop true count x.endIndex) ⟨T, C, s⟩ =
          (true, ⟨.greedyRepeat loop (count + 1) :: T, C, s⟩) := by
        simp [machine, dispatch, hpos, hcount, Cfg.pushTask]
      rw [if_neg fun hc => hne hc.2]
      exact .succeed hd (ih (count + 1) hy' (by simp only; omega) (by simp only; omega))

theorem consumeLoop_eq (hn : Simple atom.node) (max : Option Nat) {fuel count : Nat} (pos : Nat)
    (hrange : count + m.ctx.remaining dir pos < u32Size) :
    m.ctx.consumeLoop atom.node dir max fuel pos count =
      ((pos :: reaches (m.ctx.simpleEnd dir atom.node) max fuel count pos).dropLast,
        (reaches (m.ctx.simpleEnd dir atom.node) max fuel count pos).getLastD pos,
        count + (reaches (m.ctx.simpleEnd dir atom.node) max fuel count pos).length) := by
  induction fuel generalizing count pos with
  | zero => rfl
  | succ fuel ih =>
      simp only [consumeLoop, reaches]
      split
      · cases hend : m.ctx.simpleEnd dir atom.node pos with
        | none => rfl
        | some stop =>
            have hmove := end_remaining hn (.inl hend)
            have hcount : (count + 1) % u32Size = count + 1 := Nat.mod_eq_of_lt (by omega)
            simp only [hcount, ih stop (show count + 1 + m.ctx.remaining dir stop < u32Size by omega),
              List.dropLast_cons_cons, List.getLastD_cons, List.length_cons]
            rw [Nat.add_assoc, Nat.add_comm 1]
      · rfl

theorem spans_getElem? (owned : List Nat) (captures : List (Option Span)) (pos : Nat)
    (stops : List Nat) (i : Nat) :
    (spans owned captures pos stops)[i]? =
      (stops[i]?).map fun stop =>
        { MatchState.setAll ⟨stop, captures⟩ owned (span ((pos :: stops).getD i 0) stop) with
          endIndex := stop } := by
  induction stops generalizing pos i with
  | nil => simp [spans]
  | cons stop stops ih =>
      cases i with
      | zero => simp [spans]
      | succ i => simpa [spans] using ih stop i

/-- The state at a level: the position and the span of the last iteration. -/
def levelState (owned : List Nat) (x : MatchState) (positions : List Nat) (level : Nat) :
    MatchState :=
  if level = 0 then x
  else { MatchState.setAll x owned (span (positions.getD (level - 1) 0) (positions.getD level 0)) with
    endIndex := positions.getD level 0 }

theorem endIndex_levelState (owned : List Nat) (x : MatchState) (stops : List Nat) :
    (levelState owned x (x.endIndex :: stops) stops.length).endIndex =
      stops.getLastD x.endIndex := by
  obtain rfl | ⟨init, last, rfl⟩ := List.eq_nil_or_concat' stops
  · rfl
  · simp [levelState]

theorem levels_getElem? (owned : List Nat) (x : MatchState) (stops : List Nat) (level : Nat)
    (h : level ≤ stops.length) :
    (x :: spans owned x.captures x.endIndex stops)[level]? =
      some (levelState owned x (x.endIndex :: stops) level) := by
  cases level with
  | zero => rfl
  | succ i =>
      have hlt : i < stops.length := by omega
      rw [List.getElem?_cons_succ, spans_getElem?, List.getElem?_eq_getElem hlt]
      simp [levelState, MatchState.setAll, List.getElem?_eq_getElem hlt]

/-- Taking one level more adds its state in front of the lower ones. -/
theorem take_drop_reverse {α : Type*} {l : List α} {level min : Nat} {a : α} (hmin : min ≤ level)
    (ha : l[level]? = some a) :
    ((l.take (level + 1)).drop min).reverse = a :: ((l.take level).drop min).reverse := by
  obtain ⟨hlt, -⟩ := List.getElem?_eq_some_iff.mp ha
  rw [List.take_add_one, ha, List.drop_append_of_le_length (by rw [List.length_take]; omega),
    List.reverse_append]
  rfl

theorem values_setAll (owned : List Nat) (value : Span) (caps : Caps) :
    caps.Extends (caps.setAll owned value) ∧ (caps.setAll owned value).values =
      owned.foldl (fun captures index => captures.set index (some value)) caps.values := by
  unfold Caps.setAll
  induction owned generalizing caps with
  | nil => exact ⟨.refl caps, rfl⟩
  | cons index owned ih =>
      obtain ⟨he, hv⟩ := ih (caps.set index value)
      refine ⟨(Caps.extends_set caps index value).trans he, ?_⟩
      rw [List.foldl_cons, hv, Caps.values_set]
      rfl

theorem resetAll_eq (owned : List Nat) (caps : Caps) :
    caps.resetAll owned =
      ⟨owned.foldl (fun captures index => captures.set index none) caps.values, caps.trail⟩ := by
  have hone : ∀ (caps : Caps) (index : Nat),
      caps.reset index = ⟨caps.values.set index none, caps.trail⟩ := by
    intro caps index
    unfold Caps.reset
    split
    · rename_i hempty
      obtain ⟨values, trail⟩ := caps
      rw [List.isEmpty_iff] at hempty
      subst hempty
      rfl
    · rfl
  unfold Caps.resetAll
  induction owned generalizing caps with
  | nil => rfl
  | cons index owned ih => rw [List.foldl_cons, hone, ih, List.foldl_cons]

/-- The captures after the last iteration are those of the top level. -/
theorem setFastCaptures_spec (owned : List Nat) (x : MatchState) (stops : List Nat) (caps : Caps)
    (hv : caps.values = (x.clear owned).captures) :
    caps.Extends (setFastCaptures owned (x.endIndex :: stops).dropLast
        (stops.getLastD x.endIndex) caps) ∧
      (setFastCaptures owned (x.endIndex :: stops).dropLast (stops.getLastD x.endIndex)
        caps).values =
        (levelState owned (x.clear owned) (x.endIndex :: stops) stops.length).captures := by
  unfold setFastCaptures
  split
  · rename_i hempty
    rw [List.isEmpty_iff] at hempty
    subst hempty
    refine ⟨.refl caps, ?_⟩
    rw [hv, levelState]
    split <;> rfl
  · obtain rfl | ⟨init, last, rfl⟩ := List.eq_nil_or_concat' stops
    · have hsame : caps.resetAll owned = caps := by
        have hclear : owned.foldl (fun captures index => captures.set index none) caps.values =
            caps.values := by
          rw [hv]
          exact clear_setAll owned none x.captures
        rw [resetAll_eq, hclear]
      simp only [List.dropLast_singleton, List.getLast?_nil, hsame]
      exact ⟨.refl caps, hv⟩
    · have hdrop : (x.endIndex :: (init ++ [last])).dropLast = x.endIndex :: init := by
        rw [← List.cons_append, List.dropLast_concat]
      have hlast : (x.endIndex :: init).getLast? = some ((x.endIndex :: init).getD init.length 0) := by
        rw [List.getLast?_eq_getElem?]
        simp
      have hstop : (init ++ [last]).getLastD x.endIndex = last := by simp
      rw [hdrop, hlast, hstop]
      obtain ⟨he, hvals⟩ := values_setAll owned (span ((x.endIndex :: init).getD init.length 0) last)
        caps
      refine ⟨he, ?_⟩
      have hprev : (x.endIndex :: (init ++ [last])).getD init.length 0 =
          (x.endIndex :: init).getD init.length 0 := by
        rw [← List.cons_append, List.getD_eq_getElem?_getD, List.getD_eq_getElem?_getD,
          List.getElem?_append_left (by simp)]
      have htop : (x.endIndex :: (init ++ [last])).getD (init.length + 1) 0 = last := by simp
      simp only [hvals, hv, levelState, List.length_append, List.length_singleton,
        Nat.add_one_ne_zero, if_false, Nat.add_sub_cancel, hprev, htop, MatchState.setAll]

theorem dropLast_getD (pos : Nat) (stops : List Nat) {i : Nat} (h : i < stops.length) :
    (pos :: stops).dropLast.getD i 0 = (pos :: stops).getD i 0 := by
  rw [List.getD_eq_getElem?_getD, List.getD_eq_getElem?_getD, List.getElem?_dropLast,
    if_pos (by simpa using h)]

/-- A shrink choice that has reached the minimum fails. -/
theorem emits_fastShrink_dead {base r : Store} {entry mark level : Nat} (h : level ≤ loop.min)
    (hr : base.Restorable r) :
    Emits m.machine (reading dir fun _ => false) T C base
      (.running ⟨.fastShrink atom consumed entry loop mark cont level :: T, C, r⟩) [] := by
  cases hm : m.re.backrefFree && m.re.memoSafe.contains atom.addr with
  | true =>
      have hd : m.machine.dispatch (.fastShrink atom consumed entry loop mark cont level)
          ⟨T, C, r⟩ = (false, ⟨T, C,
            { r with memo := ⟨atom.addr, entry, r.dir, loop, some cont⟩ :: r.memo }⟩) := by
        simp only [machine, dispatch, if_pos h, hm, if_true, Cfg.remember]
      exact .fail hd (.nil rfl hr)
  | false =>
      have hd : m.machine.dispatch (.fastShrink atom consumed entry loop mark cont level)
          ⟨T, C, r⟩ = (false, ⟨T, C, r⟩) := by
        simp only [machine, dispatch, if_pos h, hm]
        rfl
      exact .fail hd (.nil rfl hr)

/-- The captures a shrink to a level leaves. -/
def shrunkCaps (owned consumed : List Nat) (level : Nat) (caps : Caps) : Caps :=
  if 0 < level then
    caps.setAll owned (span (consumed.getD (level - 1) 0) (consumed.getD level 0))
  else caps

theorem dispatch_fastShrink {entry mark level : Nat} (h : loop.min ≤ level) (r : Store) :
    m.machine.dispatch (.fastShrink atom consumed entry loop mark cont (level + 1))
        ⟨T, C, r⟩ =
      (true, ⟨T, ⟨if level = 0 then entry else consumed.getD level 0, mark, cont,
        some (.fastShrink atom consumed entry loop mark cont level)⟩ :: C,
        { r with
          pos := if level = 0 then entry else consumed.getD level 0,
          caps := shrunkCaps loop.owned consumed level r.caps }⟩) := by
  simp only [machine, dispatch, if_neg (show ¬ level + 1 ≤ loop.min by omega), Nat.add_sub_cancel,
    Cfg.setPos, shrunkCaps]
  split <;> rfl

theorem stands_level {t : Store} {level : Nat} (ht : t.Stands dir (x.clear loop.owned))
    (hlevel : level < stops.length) (r : Store) (hdir : r.dir = t.dir) :
    t.Restorable { r with
      pos := if level = 0 then x.endIndex else (x.endIndex :: stops).dropLast.getD level 0,
      caps := shrunkCaps loop.owned (x.endIndex :: stops).dropLast level t.caps } ∧
    Store.Stands dir { r with
      pos := if level = 0 then x.endIndex else (x.endIndex :: stops).dropLast.getD level 0,
      caps := shrunkCaps loop.owned (x.endIndex :: stops).dropLast level t.caps }
      (levelState loop.owned (x.clear loop.owned) (x.endIndex :: stops) level) := by
  cases level with
  | zero => exact ⟨⟨.refl _, hdir⟩, rfl, ht.2.1, hdir.trans ht.2.2⟩
  | succ i =>
      obtain ⟨hext, hvals⟩ := values_setAll loop.owned
        (span ((x.endIndex :: stops).getD i 0) ((x.endIndex :: stops).getD (i + 1) 0)) t.caps
      simp only [shrunkCaps, levelState, Nat.succ_pos, if_true, Nat.add_sub_cancel,
        Nat.add_one_ne_zero, if_false, dropLast_getD x.endIndex stops hlevel,
        dropLast_getD x.endIndex stops (show i < stops.length by omega)]
      refine ⟨⟨hext, hdir⟩, rfl, ?_, hdir.trans ht.2.2⟩
      simp only [hvals, ht.2.1, MatchState.setAll]

/-- The shrink choice at a level hands on the levels under it, down to the minimum. -/
theorem emits_fastShrink {base t : Store} {level p : Nat} {d : Cfg} (hbase : base.Restorable t)
    (ht : t.Stands dir (x.clear loop.owned)) (hlevel : level ≤ stops.length)
    (hd : d.choices = ⟨p, t.caps.mark, T, some (.fastShrink atom (x.endIndex :: stops).dropLast
      x.endIndex loop t.caps.mark T level)⟩ :: C) (he : t.Restorable d.store) :
    Emits m.machine (reading dir fun _ => false) T C base (.failing d)
      (((x.clear loop.owned :: spans loop.owned (x.clear loop.owned).captures x.endIndex
        stops).take level).drop loop.min).reverse := by
  have hback : ∀ (level p : Nat) (d : Cfg), t.Restorable d.store →
      m.machine.restore ⟨p, t.caps.mark, T, some (.fastShrink atom (x.endIndex :: stops).dropLast
        x.endIndex loop t.caps.mark T level)⟩ { d with choices := C } =
      ⟨.fastShrink atom (x.endIndex :: stops).dropLast x.endIndex loop t.caps.mark T
        level :: T, C, ⟨p, d.store.dir, t.caps, d.store.memo⟩⟩ := by
    intro level p d he
    simp only [machine, backtrack, he.rollback, Option.toList_some, List.singleton_append]
  refine .pop hd ?_
  rw [hback level p d he]
  clear hd
  induction level generalizing d p with
  | zero =>
      have hr : base.Restorable ⟨p, d.store.dir, t.caps, d.store.memo⟩ :=
        ⟨hbase.1, he.2.trans hbase.2⟩
      rw [List.take_zero, List.drop_nil]
      exact emits_fastShrink_dead (Nat.zero_le _) hr
  | succ level ih =>
      by_cases hmin : loop.min ≤ level
      · have hstate : (x.clear loop.owned :: spans loop.owned (x.clear loop.owned).captures
            x.endIndex stops)[level]? = some (levelState loop.owned (x.clear loop.owned)
              (x.endIndex :: stops) level) :=
          levels_getElem? loop.owned (x.clear loop.owned) stops level (by omega)
        rw [take_drop_reverse hmin hstate]
        obtain ⟨hrest, hstand⟩ := stands_level ht (show level < stops.length by omega)
          ⟨p, d.store.dir, t.caps, d.store.memo⟩ he.2
        refine .succeed (dispatch_fastShrink hmin _) ?_
        refine .cons (D := [_]) rfl rfl ((reading dir fun _ => false).trans hbase hrest) hstand ?_
        intro d' hd' he'
        have hrest' : t.Restorable d'.store := (reading dir fun _ => false).trans hrest he'
        have hnext := ih (p := if level = 0 then x.endIndex
          else (x.endIndex :: stops).dropLast.getD level 0) (by omega) hrest'
        rw [← hback level _ d' hrest'] at hnext
        exact .pop hd' hnext
      · have hr : base.Restorable ⟨p, d.store.dir, t.caps, d.store.memo⟩ :=
          ⟨hbase.1, he.2.trans hbase.2⟩
        rw [List.drop_eq_nil_of_le (by rw [List.length_take]; omega)]
        exact emits_fastShrink_dead (by omega) hr

/-- The simple-atom path emits every level it reaches, down to the minimum, the
lowest with the owned captures cleared. -/
theorem emits_greedySimple (hn : Simple atom.node) (h : s.Stands dir x)
    (hrange : m.ctx.remaining dir x.endIndex < u32Size) {task : Task}
    (hd : m.machine.dispatch task ⟨T, C, s⟩ = m.greedySimple atom loop 0 ⟨T, C, s⟩) :
    Emits m.machine (reading dir fun _ => false) T C s (.running ⟨task :: T, C, s⟩)
      ((x.clear loop.owned :: spans loop.owned (x.clear loop.owned).captures x.endIndex
        (reaches (m.ctx.simpleEnd dir atom.node) loop.max (m.ctx.input.length + 1) 0
          x.endIndex)).drop loop.min).reverse := by
  have ht : Store.Stands dir { s with caps := s.caps.clearOwned loop.owned } (x.clear loop.owned) :=
    h.clearOwned loop.owned
  have hbase : s.Restorable { s with caps := s.caps.clearOwned loop.owned } :=
    ⟨Caps.extends_clearOwned s.caps loop.owned, rfl⟩
  have hloop : m.ctx.consumeLoop atom.node dir loop.max (m.ctx.input.length + 1) x.endIndex 0 = _ :=
    consumeLoop_eq hn loop.max x.endIndex (by omega)
  generalize hstops : reaches (m.ctx.simpleEnd dir atom.node) loop.max (m.ctx.input.length + 1) 0
    x.endIndex = stops at hloop ⊢
  obtain ⟨hext, hvals⟩ := setFastCaptures_spec loop.owned x stops (s.caps.clearOwned loop.owned)
    ht.2.1
  have hstate : (x.clear loop.owned :: spans loop.owned (x.clear loop.owned).captures
      x.endIndex stops)[stops.length]? = some (levelState loop.owned (x.clear loop.owned)
        (x.endIndex :: stops) stops.length) :=
    levels_getElem? loop.owned (x.clear loop.owned) stops stops.length (Nat.le_refl _)
  have hlength : (x.clear loop.owned :: spans loop.owned (x.clear loop.owned).captures
      x.endIndex stops).length = stops.length + 1 := by
    rw [List.length_cons, length_spans]
  have hpos : (levelState loop.owned (x.clear loop.owned) (x.endIndex :: stops)
      stops.length).endIndex = stops.getLastD x.endIndex :=
    endIndex_levelState loop.owned (x.clear loop.owned) stops
  simp only [greedySimple, Cfg.setCaps, Cfg.setPos, Cfg.remember, h.1, h.2.2, hloop,
    Nat.zero_add] at hd
  by_cases hless : stops.length < loop.min
  · rw [if_pos hless] at hd
    rw [List.drop_eq_nil_of_le (by rw [hlength]; omega)]
    exact .fail hd (.nil rfl ⟨Caps.extends_clearOwned s.caps loop.owned, h.2.2.symm⟩)
  · have hstand : Store.Stands dir ⟨stops.getLastD x.endIndex, dir, setFastCaptures loop.owned
        (x.endIndex :: stops).dropLast (stops.getLastD x.endIndex) (s.caps.clearOwned loop.owned),
        s.memo⟩ (levelState loop.owned (x.clear loop.owned) (x.endIndex :: stops) stops.length) :=
      ⟨hpos.symm, hvals, rfl⟩
    have hrest : Store.Restorable { s with caps := s.caps.clearOwned loop.owned }
        ⟨stops.getLastD x.endIndex, dir, setFastCaptures loop.owned (x.endIndex :: stops).dropLast
          (stops.getLastD x.endIndex) (s.caps.clearOwned loop.owned), s.memo⟩ :=
      ⟨hext, h.2.2.symm⟩
    have hreach := (reading dir fun _ => false).trans hbase hrest
    have hall := take_drop_reverse (show loop.min ≤ stops.length by omega) hstate
    rw [List.take_of_length_le (Nat.le_of_eq hlength)] at hall
    rw [if_neg hless] at hd
    rw [hall]
    by_cases hmore : loop.min < stops.length
    · rw [if_pos hmore] at hd
      refine .succeed hd (.cons (D := [_]) rfl rfl hreach hstand ?_)
      intro d hdc he
      exact emits_fastShrink hbase ht (Nat.le_refl _) hdc
        ((reading dir fun _ => false).trans hrest he)
    · rw [if_neg hmore] at hd
      rw [List.drop_eq_nil_of_le (by rw [List.length_take]; omega)]
      exact .succeed hd (.done hreach hstand)

/-- The iterations the simple-atom path makes from a position. -/
def fastRuns (ctx : Ctx) (dir : Direction) (loop : Loop) (atom : NodeRef) (pos : Nat) : Nat :=
  (reaches (ctx.simpleEnd dir atom.node) loop.max (ctx.input.length + 1) 0 pos).length

/-- The iterations the general tasks make from a position. -/
def generalRuns (ctx : Ctx) (dir : Direction) (loop : Loop) (atom : NodeRef) (pos : Nat) : Nat :=
  (reaches (ctx.generalEnd dir atom.node) loop.max (ctx.input.length + 1) 0 pos).length

/-- As many iterations read the same characters, in whichever order. -/
theorem reaches_eq_of_length {ctx : Ctx} (hn : Simple atom.node) (max : Option Nat)
    {fuel count pos : Nat}
    (h : (reaches (ctx.simpleEnd dir atom.node) max fuel count pos).length =
      (reaches (ctx.generalEnd dir atom.node) max fuel count pos).length) :
    reaches (ctx.simpleEnd dir atom.node) max fuel count pos =
      reaches (ctx.generalEnd dir atom.node) max fuel count pos := by
  induction fuel generalizing count pos with
  | zero => rfl
  | succ fuel ih =>
      simp only [reaches] at h ⊢
      split
      · rename_i hmax
        rw [if_pos hmax, if_pos hmax] at h
        cases hs : ctx.simpleEnd dir atom.node pos with
        | none =>
            cases hg : ctx.generalEnd dir atom.node pos with
            | none => rfl
            | some q => simp [hs, hg] at h
        | some p =>
            cases hg : ctx.generalEnd dir atom.node pos with
            | none => simp [hs, hg] at h
            | some q =>
                have hsame := charSteps_of_end hn (.inl hs)
                rw [charSteps_of_end hn (.inr hg), Option.some.injEq] at hsame
                subst hsame
                simp only [hs, hg, List.length_cons, Nat.add_right_cancel_iff] at h
                simp only [ih h]
      · rfl

/-- The captures a repeat owns are unset. -/
def unset (owned : List Nat) (caps : Caps) : Bool :=
  owned.all fun index => (caps.get index).isNone

theorem clear_eq_self_iff (owned : List Nat) (caps : Caps) (pos : Nat) :
    MatchState.clear ⟨pos, caps.values⟩ owned = ⟨pos, caps.values⟩ ↔ unset owned caps = true := by
  simp only [MatchState.clear, MatchState.mk.injEq, true_and, unset, List.all_eq_true, Caps.get]
  constructor
  · intro h index hi
    have hget := congrArg (fun values => values[index]?) h
    simp only [getElem?_setAll, hi, true_and] at hget
    split at hget
    · rw [← hget]
      rfl
    · rename_i hlt
      rw [List.getElem?_eq_none (by omega)]
      rfl
  · intro h
    apply List.ext_getElem?
    intro i
    rw [getElem?_setAll]
    split
    · rename_i hi
      have hnone := h i hi.1
      rw [List.getElem?_eq_getElem hi.2] at hnone ⊢
      simp only [Option.join_some, Option.isNone_iff_eq_none] at hnone
      rw [hnone]
    · rfl

/-- The continuations a greedy repeat is given, each made to fail. -/
def continuations (m : Matcher) (fuel : Nat) (loop : Loop) (s : Store) :
    Option (List MatchState) :=
  m.machine.enumerate (fun s => ⟨s.pos, s.caps.values⟩) fuel
    (.running ⟨[.greedyRepeat loop 0], [], s⟩)

/-- The simple-atom path and the general tasks give one sequence of continuations. -/
def SameContinuations (m : Matcher) (loop : Loop) (s : Store) : Prop :=
  ∃ results, (∃ fuel, continuations { m with options := ⟨true, false⟩ } fuel loop s = some results) ∧
    ∃ fuel, continuations { m with options := ⟨false, false⟩ } fuel loop s = some results

theorem continuations_of_emits {results : List MatchState}
    (h : Emits m.machine (reading dir fun _ => false) [] [] s
      (.running ⟨[.greedyRepeat loop 0], [], s⟩) results) :
    ∃ fuel, m.continuations fuel loop s = some results := by
  refine enumerate_of_emits h (fun _ => rfl) ?_
  intro s w hw
  rw [hw.1, hw.2.1]

/-- Lists of levels agree from the minimum on exactly when they are as long, or
both too short. -/
theorem drop_levels_iff {owned : List Nat} {x y : MatchState} {captures : List (Option Span)}
    {pos min : Nat} {stops stops' : List Nat}
    (hsame : stops.length = stops'.length → stops = stops') :
    ((x :: spans owned captures pos stops).drop min).reverse =
        ((y :: spans owned captures pos stops').drop min).reverse ↔
      ((stops.length < min ∧ stops'.length < min) ∨ stops.length = stops'.length) ∧
        (min = 0 → x = y) := by
  rw [List.reverse_inj]
  cases min with
  | zero =>
      simp only [List.drop_zero, List.cons.injEq, Nat.not_lt_zero, and_false, false_or,
        forall_const]
      constructor
      · rintro ⟨hxy, hspans⟩
        have := congrArg List.length hspans
        rw [length_spans, length_spans] at this
        exact ⟨this, hxy⟩
      · rintro ⟨hlen, hxy⟩
        exact ⟨hxy, by rw [hsame hlen]⟩
  | succ n =>
      simp only [List.drop_succ_cons, Nat.add_one_ne_zero, false_imp_iff, and_true]
      constructor
      · intro h
        have hlen := congrArg List.length h
        simp only [List.length_drop, length_spans] at hlen
        omega
      · rintro (⟨hs, hs'⟩ | hlen)
        · rw [List.drop_eq_nil_of_le (by rw [length_spans]; omega),
            List.drop_eq_nil_of_le (by rw [length_spans]; omega)]
        · rw [hsame hlen]

theorem sameContinuations_iff_eq {fast general : List MatchState}
    (hf : ∃ fuel, continuations { m with options := ⟨true, false⟩ } fuel loop s = some fast)
    (hg : ∃ fuel, continuations { m with options := ⟨false, false⟩ } fuel loop s = some general) :
    m.SameContinuations loop s ↔ fast = general := by
  constructor
  · rintro ⟨results, ⟨fuel, hfuel⟩, fuel', hfuel'⟩
    obtain ⟨fuel₁, hf⟩ := hf
    obtain ⟨fuel₂, hg⟩ := hg
    rw [← enumerate_unique hfuel hf, enumerate_unique hfuel' hg]
  · rintro rfl
    exact ⟨fast, hf, hg⟩

theorem remaining_le {ctx : Ctx} {pos : Nat} (h : pos ≤ ctx.input.length) (dir : Direction) :
    ctx.remaining dir pos ≤ ctx.input.length := by
  cases dir
  · exact Nat.sub_le _ _
  · exact h

/-- When the simple-atom path agrees with the general tasks. -/
theorem sameContinuations_iff (hs : simpleAtom loop.node.addr loop.node.node = some atom)
    (howned : loop.owned = loop.node.node.collectCaptures)
    (hmax : (loop.max.all fun n => decide (loop.min ≤ n)) = true)
    (hpos : s.pos ≤ m.ctx.input.length) (hlen : m.ctx.input.length < u32Size) :
    m.SameContinuations loop s ↔
      loop.max = some 0 ∨
        (((fastRuns m.ctx s.dir loop atom s.pos < loop.min ∧
            generalRuns m.ctx s.dir loop atom s.pos < loop.min) ∨
          fastRuns m.ctx s.dir loop atom s.pos = generalRuns m.ctx s.dir loop atom s.pos) ∧
        (loop.min = 0 → unset loop.owned s.caps = true)) := by
  have hx : s.Stands s.dir ⟨s.pos, s.caps.values⟩ := ⟨rfl, rfl, rfl⟩
  have hn : Simple atom.node := simple_of_simpleAtom hs
  have hrem := remaining_le hpos s.dir
  have hgeneral := continuations_of_emits (emits_general (m := { m with options := ⟨false, false⟩ })
    rfl hs hmax 0 hx (Nat.lt_succ_of_le hrem) (by simp only; omega))
  have hlevels := loopResults_simple (x := ⟨s.pos, s.caps.values⟩) hs howned hmax 0
    (Nat.lt_succ_of_le hrem)
  simp only [hlevels] at hgeneral
  by_cases hzero : loop.max = some 0
  · have hmin : loop.min = 0 := by
      rw [hzero] at hmax
      simpa using hmax
    have hd : (machine { m with options := ⟨true, false⟩ }).dispatch (.greedyRepeat loop 0)
        ⟨[], [], s⟩ = (true, ⟨[], [], s⟩) := by
      simp [machine, dispatch, Loop.atMax, hzero, hmin]
    have hfast := continuations_of_emits (m := { m with options := ⟨true, false⟩ })
      (.succeed hd (.done ((reading s.dir fun _ => false).refl s) hx))
    rw [sameContinuations_iff_eq hfast hgeneral]
    simp [hzero, hmin, reaches, spans]
  · have hat : loop.atMax 0 = false := by
      unfold Loop.atMax
      cases hm : loop.max with
      | none => rfl
      | some n =>
          have : n ≠ 0 := fun h0 => hzero (by rw [hm, h0])
          simp only [Option.any_some, decide_eq_false_iff_not]
          omega
    have hd : (machine { m with options := ⟨true, false⟩ }).dispatch (.greedyRepeat loop 0)
        ⟨[], [], s⟩ = greedySimple { m with options := ⟨true, false⟩ } atom loop 0 ⟨[], [], s⟩ := by
      simp [machine, dispatch, hat, hs]
    have hfast := continuations_of_emits (emits_greedySimple
      (m := { m with options := ⟨true, false⟩ }) hn hx
      (show m.ctx.remaining s.dir s.pos < u32Size by omega) hd)
    rw [sameContinuations_iff_eq hfast hgeneral, Nat.sub_zero,
      drop_levels_iff (reaches_eq_of_length hn loop.max), clear_eq_self_iff]
    simp only [hzero, false_or]
    rfl

end Matcher

/-- A greedy repeat as `stepNode` sets it up at the root. -/
def rootLoop (node : Node) (min : Nat) (max : Option Nat) : Loop :=
  ⟨⟨[0], node⟩, node.collectCaptures, min, max⟩

/-- `(?<=(?:aa)+)` at the end of `aaaa`. -/
theorem sameContinuations_backward_aa :
    let m := plainMatcher .empty 0 [97, 97, 97, 97] {}
    m.SameContinuations (rootLoop (.sequence [literal 'a', literal 'a']) 1 none)
      ⟨4, .backward, Caps.new 0, []⟩ :=
  (Matcher.sameContinuations_iff rfl rfl rfl (by decide) (by decide)).mpr
    (.inr ⟨.inr (by decide), fun h => by cases h⟩)

/-- `(?<=(?:ab)+)` at the end of `ab`: read in source order, the atom is not there. -/
theorem not_sameContinuations_backward_ab :
    let m := plainMatcher .empty 0 [97, 98] {}
    ¬ m.SameContinuations (rootLoop (.sequence [literal 'a', literal 'b']) 1 none)
      ⟨2, .backward, Caps.new 0, []⟩ := by
  intro m hsame
  have hf : ∃ fuel, Matcher.continuations { m with options := ⟨true, false⟩ } fuel
      (rootLoop (.sequence [literal 'a', literal 'b']) 1 none)
      ⟨2, .backward, Caps.new 0, []⟩ = some [] := ⟨20, by decide +kernel⟩
  have hg : ∃ fuel, Matcher.continuations { m with options := ⟨false, false⟩ } fuel
      (rootLoop (.sequence [literal 'a', literal 'b']) 1 none)
      ⟨2, .backward, Caps.new 0, []⟩ = some [⟨0, [none]⟩] := ⟨20, by decide +kernel⟩
  have heq := (Matcher.sameContinuations_iff_eq hf hg).mp hsame
  cases heq

end Slag.Regexp
