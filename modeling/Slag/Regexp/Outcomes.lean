import Slag.Regexp.Reference

/-!
The reference matcher tries its continuation on the outcomes in order. A match
moves only in its direction, which bounds the depth of RepeatMatcher.
-/

namespace Slag.Regexp

namespace Ctx

variable {ctx : Ctx}

theorem findSome_flatMap {α β γ : Type*} (l : List α) (f : α → List β) (g : β → Option γ) :
    (l.flatMap f).findSome? g = l.findSome? fun a => (f a).findSome? g := by
  induction l with
  | nil => rfl
  | cons a l ih =>
      rw [List.flatMap_cons, List.findSome?_append, ih, List.findSome?_cons]
      cases (f a).findSome? g <;> rfl

theorem repeatMatcher_eq {body : MatchState → Continuation → Option MatchState}
    {results : MatchState → List MatchState} (hbody : ∀ x c, body x c = (results x).findSome? c)
    (owned : List Nat) (greedy : Bool) (depth min : Nat) (max : Option Nat) (x : MatchState)
    (c : Continuation) :
    repeatMatcher body owned greedy depth min max x c =
      (repeatOutcomes results owned greedy depth min max x).findSome? c := by
  induction depth generalizing min max x with
  | zero => rfl
  | succ depth ih =>
      have hmore : body (x.clear owned) (fun y =>
          if min = 0 ∧ y.endIndex = x.endIndex then none
          else repeatMatcher body owned greedy depth (min - 1) (max.map fun n => n - 1) y c) =
          ((results (x.clear owned)).flatMap fun y =>
            if min = 0 ∧ y.endIndex = x.endIndex then []
            else repeatOutcomes results owned greedy depth (min - 1)
              (max.map fun n => n - 1) y).findSome? c := by
        rw [hbody, findSome_flatMap]
        congr 1
        funext y
        split
        · rfl
        · exact ih _ _ _
      simp only [repeatMatcher, repeatOutcomes]
      split
      · simp
      · split
        · exact hmore
        · split
          · rw [hmore, List.findSome?_append]
            simp
          · rw [hmore, List.findSome?_cons]
            cases c x <;> rfl

theorem assertMatcher_eq (negate : Bool) (results : List MatchState) (x : MatchState)
    (c : Continuation) :
    assertMatcher negate (results.findSome? some) x c =
      (assertOutcomes negate results x).findSome? c := by
  cases results with
  | nil => cases negate <;> simp [assertMatcher, assertOutcomes]
  | cons y ys => cases negate <;> simp [assertMatcher, assertOutcomes]

mutual

/-- The reference matcher is the first success of its continuation on the outcomes. -/
theorem reference_eq : ∀ (node : Node) (dir : Direction) (x : MatchState) (c : Continuation),
    ctx.reference node dir x c = (ctx.outcomes node dir x).findSome? c
  | .sequence nodes, dir, x, c => by
      simp only [reference, outcomes]
      exact referenceSeq_eq nodes dir x c
  | .alternate alts, dir, x, c => by
      simp only [reference, outcomes]
      exact referenceAlts_eq alts dir x c
  | .repeated node min max greedy _, dir, x, c => by
      simp only [reference, outcomes]
      exact repeatMatcher_eq (reference_eq node dir) _ _ _ _ _ _ _
  | .capture index node, dir, x, c => by
      simp only [reference, outcomes, reference_eq node, List.findSome?_map]
      rfl
  | .lookahead negate node, dir, x, c => by
      simp only [reference, outcomes, reference_eq node]
      exact assertMatcher_eq _ _ _ _
  | .lookbehind negate node, dir, x, c => by
      simp only [reference, outcomes, reference_eq node]
      exact assertMatcher_eq _ _ _ _
  | .empty, dir, x, c | .char _ _, dir, x, c | .any _, dir, x, c | .start _, dir, x, c
  | .finish _, dir, x, c | .wordBoundary _, dir, x, c | .notWordBoundary _, dir, x, c
  | .charClass _, dir, x, c | .backref _ _, dir, x, c => by
      simp only [reference, outcomes, List.findSome?_map]
      rfl

theorem referenceSeq_eq : ∀ (nodes : List Node) (dir : Direction) (x : MatchState)
    (c : Continuation),
    ctx.referenceSeq nodes dir x c = (ctx.outcomesSeq nodes dir x).findSome? c
  | [], dir, x, c => by simp [referenceSeq, outcomesSeq]
  | node :: nodes, .forward, x, c => by
      simp only [referenceSeq, outcomesSeq, findSome_flatMap, reference_eq node,
        referenceSeq_eq nodes]
  | node :: nodes, .backward, x, c => by
      simp only [referenceSeq, outcomesSeq, findSome_flatMap, reference_eq node,
        referenceSeq_eq nodes]

theorem referenceAlts_eq : ∀ (alts : List (List Node)) (dir : Direction) (x : MatchState)
    (c : Continuation),
    ctx.referenceAlts alts dir x c = (ctx.outcomesAlts alts dir x).findSome? c
  | [], dir, x, c => by simp [referenceAlts, outcomesAlts]
  | alt :: alts, dir, x, c => by
      simp only [referenceAlts, outcomesAlts, List.findSome?_append, referenceSeq_eq alt,
        referenceAlts_eq alts]

end

/-- The end index stays, or fewer units are left in the direction of the match. -/
def Moves (ctx : Ctx) (dir : Direction) (p q : Nat) : Prop :=
  q = p ∨ ctx.remaining dir q < ctx.remaining dir p

variable {dir : Direction}

theorem Moves.trans {p q r : Nat} (h : ctx.Moves dir p q) (h' : ctx.Moves dir q r) :
    ctx.Moves dir p r := by
  obtain rfl | h := h
  · exact h'
  · obtain rfl | h' := h'
    · exact .inr h
    · exact .inr (Nat.lt_trans h' h)

theorem readChar_bounds {ctx : Ctx} {pos c len : Nat} (h : ctx.readChar pos = some (c, len)) :
    pos < ctx.input.length ∧ 0 < len := by
  have hunit : ∀ u, ctx.unit pos = some u → pos < ctx.input.length := by
    intro u hu
    by_contra hge
    rw [Ctx.unit, List.getElem?_eq_none (by omega)] at hu
    cases hu
  unfold Ctx.readChar at h
  split at h
  · unfold Ctx.codePointAt at h
    split at h
    · cases h
    · rename_i hi hhi
      refine ⟨hunit _ hhi, ?_⟩
      repeat' split at h
      all_goals
        simp only [Option.some.injEq, Prod.mk.injEq] at h
        omega
  · cases hu : ctx.unit pos with
    | none => simp [hu] at h
    | some u =>
        simp only [hu, Option.map_some, Option.some.injEq, Prod.mk.injEq] at h
        exact ⟨hunit u hu, by omega⟩

theorem readCharBack_bounds {ctx : Ctx} {pos c len : Nat}
    (h : ctx.readCharBack pos = some (c, len)) : 0 < pos ∧ 0 < len := by
  unfold Ctx.readCharBack at h
  split at h
  · cases h
  · refine ⟨by omega, ?_⟩
    split at h
    · cases h
    · repeat' split at h
      all_goals
        simp only [Option.some.injEq, Prod.mk.injEq] at h
        omega

/-- A move by some units from a place where a character was read. -/
theorem moves_advance {pos c n : Nat} {len : Nat} (h : ctx.readCharDir pos dir = some (c, n)) :
    ctx.Moves dir pos (Ctx.advance pos dir len) := by
  by_cases hlen : len = 0
  · subst hlen
    cases dir <;> exact .inl rfl
  · cases dir with
    | forward =>
        have := readChar_bounds h
        refine .inr ?_
        simp only [remaining, Ctx.advance]
        omega
    | backward =>
        have := readCharBack_bounds h
        refine .inr ?_
        simp only [remaining, Ctx.advance]
        omega

theorem moves_charEnd {pos q : Nat} {test : Nat → Bool} (h : ctx.charEnd pos dir test = some q) :
    ctx.Moves dir pos q := by
  unfold charEnd at h
  split at h
  · rename_i c len hread
    split at h
    · cases h
      exact moves_advance hread
    · cases h
  · cases h

theorem moves_string {pos : Nat} {string : List Nat} (h : ctx.stringAtDir pos string dir = true) :
    ctx.Moves dir pos (Ctx.advance pos dir (ctx.stringUnits string)) := by
  cases dir with
  | forward =>
      cases string with
      | nil =>
          left
          simp [Ctx.stringUnits, Ctx.advance]
      | cons want rest =>
          simp only [Ctx.stringAtDir, Ctx.stringAt] at h
          split at h
          · rename_i c len hread
            have hdir : ctx.readCharDir pos .forward = some (c, len) := hread
            exact moves_advance hdir
          · cases h
  | backward =>
      cases hrev : string.reverse with
      | nil =>
          rw [List.reverse_eq_nil_iff] at hrev
          subst hrev
          left
          simp [Ctx.stringUnits, Ctx.advance]
      | cons want rest =>
          simp only [Ctx.stringAtDir, hrev, Ctx.stringAtBack] at h
          split at h
          · rename_i c len hread
            have hdir : ctx.readCharDir pos .backward = some (c, len) := hread
            exact moves_advance hdir
          · cases h

theorem moves_backrefEnd {indices : List Nat} {fold : Bool} {pos q : Nat} {values : List (Option Span)}
    (h : ctx.backrefEnd indices fold pos dir values = some q) :
    ctx.Moves dir pos q := by
  unfold backrefEnd at h
  split at h
  · cases h
  · exact .inl (Option.some.inj h).symm
  · rename_i s e _
    cases dir with
    | forward =>
        simp only [Ctx.advance] at h
        split at h
        · cases h
        · rename_i hfits
          split at h
          · rw [← Option.some.inj h]
            simp only [Moves, remaining]
            omega
          · cases h
    | backward =>
        simp only [Ctx.advance, true_and] at h
        split at h
        · cases h
        · rename_i hfits
          split at h
          · rw [← Option.some.inj h]
            simp only [Moves, remaining]
            omega
          · cases h

theorem moves_leafEnds {x : MatchState} {node : Node} {q : Nat} (h : q ∈ ctx.leafEnds dir x node) :
    ctx.Moves dir x.endIndex q := by
  have hstay : ∀ b : Bool, q ∈ (if b then [x.endIndex] else []) → q = x.endIndex := by
    intro b hb
    cases b
    · cases hb
    · exact List.mem_singleton.mp hb
  cases node with
  | empty => exact .inl (List.mem_singleton.mp h)
  | char _ _ | any _ => exact moves_charEnd (Option.mem_toList.mp h)
  | start _ | finish _ | wordBoundary _ | notWordBoundary _ => exact .inl (hstay _ h)
  | charClass cls =>
      simp only [leafEnds] at h
      have hmem : ∀ len ∈ ctx.classStrings cls x.endIndex dir,
          ctx.Moves dir x.endIndex (Ctx.advance x.endIndex dir len) := by
        intro len hlen
        unfold classStrings at hlen
        split at hlen
        · cases hlen
        · simp only [List.mem_map, List.mem_filter] at hlen
          obtain ⟨string, ⟨-, hs⟩, rfl⟩ := hlen
          exact moves_string hs
      split at h
      · rename_i len others hcls
        rw [List.mem_map] at h
        obtain ⟨len', hlen', rfl⟩ := h
        refine hmem len' ?_
        rw [hcls]
        simpa using hlen'
      · exact moves_charEnd (Option.mem_toList.mp h)
  | backref _ _ => exact moves_backrefEnd (Option.mem_toList.mp h)
  | sequence _ | alternate _ | repeated _ _ _ _ _ | capture _ _ | lookahead _ _
  | lookbehind _ _ => cases h

theorem moves_assertOutcomes (negate : Bool) (results : List MatchState) (dir : Direction)
    (x : MatchState) : ∀ y ∈ assertOutcomes negate results x, ctx.Moves dir x.endIndex y.endIndex := by
  intro y hy
  cases results <;> cases negate <;> simp only [assertOutcomes] at hy
  · cases hy
  · rw [List.mem_singleton.mp hy]
    exact .inl rfl
  · rw [List.mem_singleton.mp hy]
    exact .inl rfl
  · cases hy

section Repeat

variable {dir : Direction} {body : MatchState → List MatchState}

theorem moves_repeatOutcomes
    (hbody : ∀ x, ∀ y ∈ body x, ctx.Moves dir x.endIndex y.endIndex) (owned : List Nat)
    (greedy : Bool) (depth min : Nat) (max : Option Nat) (x : MatchState) :
    ∀ y ∈ repeatOutcomes body owned greedy depth min max x,
      ctx.Moves dir x.endIndex y.endIndex := by
  induction depth generalizing min max x with
  | zero => intro y hy; cases hy
  | succ depth ih =>
      intro y hy
      have hmore : y ∈ (body (x.clear owned)).flatMap (fun z =>
          if min = 0 ∧ z.endIndex = x.endIndex then []
          else repeatOutcomes body owned greedy depth (min - 1) (max.map fun n => n - 1) z) →
          ctx.Moves dir x.endIndex y.endIndex := by
        intro hy
        obtain ⟨z, hz, hyz⟩ := List.mem_flatMap.mp hy
        have hxz : ctx.Moves dir x.endIndex z.endIndex := hbody (x.clear owned) z hz
        split at hyz
        · cases hyz
        · exact hxz.trans (ih _ _ z y hyz)
      simp only [repeatOutcomes] at hy
      split at hy
      · rw [List.mem_singleton.mp hy]
        exact .inl rfl
      · split at hy
        · exact hmore hy
        · split at hy
          · obtain hy | hy := List.mem_append.mp hy
            · exact hmore hy
            · rw [List.mem_singleton.mp hy]
              exact .inl rfl
          · obtain rfl | hy := List.mem_cons.mp hy
            · exact .inl rfl
            · exact hmore hy

/-- Each iteration lowers the minimum or moves, so the depth is never reached. -/
theorem repeatOutcomes_depth
    (hbody : ∀ x, ∀ y ∈ body x, ctx.Moves dir x.endIndex y.endIndex) (owned : List Nat)
    (greedy : Bool) {depth depth' min : Nat} (max : Option Nat) (x : MatchState)
    (h : min + ctx.remaining dir x.endIndex < depth)
    (h' : min + ctx.remaining dir x.endIndex < depth') :
    repeatOutcomes body owned greedy depth min max x =
      repeatOutcomes body owned greedy depth' min max x := by
  induction depth generalizing depth' min max x with
  | zero => omega
  | succ depth ih =>
      cases depth' with
      | zero => omega
      | succ depth' =>
          have hmore : (body (x.clear owned)).flatMap (fun y =>
              if min = 0 ∧ y.endIndex = x.endIndex then []
              else repeatOutcomes body owned greedy depth (min - 1) (max.map fun n => n - 1) y) =
              (body (x.clear owned)).flatMap (fun y =>
              if min = 0 ∧ y.endIndex = x.endIndex then []
              else repeatOutcomes body owned greedy depth' (min - 1)
                (max.map fun n => n - 1) y) := by
            refine List.flatMap_congr fun y hy => ?_
            have hmove : ctx.Moves dir x.endIndex y.endIndex := hbody (x.clear owned) y hy
            split
            · rfl
            · rename_i hempty
              have hless : min - 1 + ctx.remaining dir y.endIndex <
                  min + ctx.remaining dir x.endIndex := by
                obtain hstay | hmoved := hmove
                · have : min ≠ 0 := fun h0 => hempty ⟨h0, hstay⟩
                  rw [hstay]
                  omega
                · omega
              exact ih _ y (by omega) (by omega)
          simp only [repeatOutcomes, hmore]

/-- The results of a repeat, without a depth. -/
def repeatResults (ctx : Ctx) (dir : Direction) (body : MatchState → List MatchState)
    (owned : List Nat) (greedy : Bool) (min : Nat) (max : Option Nat) (x : MatchState) :
    List MatchState :=
  repeatOutcomes body owned greedy (min + ctx.remaining dir x.endIndex + 1) min max x

/-- The states that follow one more iteration. -/
def iterationResults (ctx : Ctx) (dir : Direction) (body : MatchState → List MatchState)
    (owned : List Nat) (greedy : Bool) (min : Nat) (max : Option Nat) (x : MatchState) :
    List MatchState :=
  (body (x.clear owned)).flatMap fun y =>
    if min = 0 ∧ y.endIndex = x.endIndex then []
    else ctx.repeatResults dir body owned greedy (min - 1) (max.map fun n => n - 1) y

/-- The defining equation of RepeatMatcher. -/
theorem repeatResults_eq
    (hbody : ∀ x, ∀ y ∈ body x, ctx.Moves dir x.endIndex y.endIndex) (owned : List Nat)
    (greedy : Bool) (min : Nat) (max : Option Nat) (x : MatchState) :
    ctx.repeatResults dir body owned greedy min max x =
      if max = some 0 then [x]
      else if min ≠ 0 then ctx.iterationResults dir body owned greedy min max x
      else if greedy then ctx.iterationResults dir body owned greedy min max x ++ [x]
      else x :: ctx.iterationResults dir body owned greedy min max x := by
  have hmore : (body (x.clear owned)).flatMap (fun y =>
      if min = 0 ∧ y.endIndex = x.endIndex then []
      else repeatOutcomes body owned greedy (min + ctx.remaining dir x.endIndex) (min - 1)
        (max.map fun n => n - 1) y) = ctx.iterationResults dir body owned greedy min max x := by
    refine List.flatMap_congr fun y hy => ?_
    have hmove : ctx.Moves dir x.endIndex y.endIndex := hbody (x.clear owned) y hy
    split
    · rfl
    · rename_i hempty
      refine repeatOutcomes_depth hbody owned greedy _ y ?_ (by omega)
      obtain hstay | hmoved := hmove
      · have : min ≠ 0 := fun h0 => hempty ⟨h0, hstay⟩
        rw [hstay]
        omega
      · omega
  conv => lhs; simp only [repeatResults, repeatOutcomes, hmore]

end Repeat

mutual

/-- Every outcome of a node lies in the direction of the match. -/
theorem moves_outcomes : ∀ (node : Node) (dir : Direction) (x : MatchState),
    ∀ y ∈ ctx.outcomes node dir x, ctx.Moves dir x.endIndex y.endIndex
  | .sequence nodes, dir, x => moves_outcomesSeq nodes dir x
  | .alternate alts, dir, x => moves_outcomesAlts alts dir x
  | .repeated node min max greedy _, dir, x =>
      moves_repeatOutcomes (moves_outcomes node dir) _ _ _ _ _ x
  | .capture index node, dir, x => by
      intro y hy
      simp only [outcomes, List.mem_map] at hy
      obtain ⟨z, hz, rfl⟩ := hy
      exact moves_outcomes node dir (x.setCapture index (x.endIndex, x.endIndex)) z hz
  | .lookahead negate node, dir, x => moves_assertOutcomes negate _ dir x
  | .lookbehind negate node, dir, x => moves_assertOutcomes negate _ dir x
  | .empty, dir, x | .char _ _, dir, x | .any _, dir, x | .start _, dir, x
  | .finish _, dir, x | .wordBoundary _, dir, x | .notWordBoundary _, dir, x
  | .charClass _, dir, x | .backref _ _, dir, x => by
      intro y hy
      simp only [outcomes, List.mem_map] at hy
      obtain ⟨pos, hpos, rfl⟩ := hy
      exact moves_leafEnds hpos

theorem moves_outcomesSeq : ∀ (nodes : List Node) (dir : Direction) (x : MatchState),
    ∀ y ∈ ctx.outcomesSeq nodes dir x, ctx.Moves dir x.endIndex y.endIndex
  | [], dir, x => by
      intro y hy
      rw [List.mem_singleton.mp hy]
      exact .inl rfl
  | node :: nodes, .forward, x => by
      intro y hy
      simp only [outcomesSeq, List.mem_flatMap] at hy
      obtain ⟨z, hz, hy⟩ := hy
      exact (moves_outcomes node .forward x z hz).trans (moves_outcomesSeq nodes .forward z y hy)
  | node :: nodes, .backward, x => by
      intro y hy
      simp only [outcomesSeq, List.mem_flatMap] at hy
      obtain ⟨z, hz, hy⟩ := hy
      exact (moves_outcomesSeq nodes .backward x z hz).trans (moves_outcomes node .backward z y hy)

theorem moves_outcomesAlts : ∀ (alts : List (List Node)) (dir : Direction) (x : MatchState),
    ∀ y ∈ ctx.outcomesAlts alts dir x, ctx.Moves dir x.endIndex y.endIndex
  | [], _, _ => by
      intro y hy
      cases hy
  | alt :: alts, dir, x => by
      intro y hy
      simp only [outcomesAlts, List.mem_append] at hy
      obtain hy | hy := hy
      · exact moves_outcomesSeq alt dir x y hy
      · exact moves_outcomesAlts alts dir x y hy

end

/-- The outcomes of a list of nodes matched one after the other. -/
def chain (ctx : Ctx) (dir : Direction) : List Node → MatchState → List MatchState
  | [], x => [x]
  | node :: nodes, x => (ctx.outcomes node dir x).flatMap (chain ctx dir nodes)

/-- The nodes of a sequence in the order they are matched. -/
def ordered (nodes : List Node) : Direction → List Node
  | .forward => nodes
  | .backward => nodes.reverse

theorem chain_append (dir : Direction) (nodes nodes' : List Node) (x : MatchState) :
    ctx.chain dir (nodes ++ nodes') x = (ctx.chain dir nodes x).flatMap (ctx.chain dir nodes') := by
  induction nodes generalizing x with
  | nil => simp [chain]
  | cons node nodes ih =>
      simp only [List.cons_append, chain, List.flatMap_assoc]
      exact List.flatMap_congr fun y _ => ih y

theorem outcomesSeq_eq_chain (nodes : List Node) (dir : Direction) (x : MatchState) :
    ctx.outcomesSeq nodes dir x = ctx.chain dir (ordered nodes dir) x := by
  cases dir with
  | forward =>
      induction nodes generalizing x with
      | nil => rfl
      | cons node nodes ih =>
          simp only [outcomesSeq, ordered, chain]
          exact List.flatMap_congr fun y _ => ih y
  | backward =>
      induction nodes generalizing x with
      | nil => rfl
      | cons node nodes ih =>
          simp only [outcomesSeq, ordered, List.reverse_cons, chain_append]
          rw [ih x]
          refine List.flatMap_congr fun y _ => ?_
          simp [chain]

theorem length_ordered (nodes : List Node) (dir : Direction) :
    (ordered nodes dir).length = nodes.length := by
  cases dir
  · rfl
  · exact List.length_reverse

theorem outcomesAlts_eq (alts : List (List Node)) (dir : Direction) (x : MatchState) :
    ctx.outcomesAlts alts dir x = alts.flatMap fun alt => ctx.outcomesSeq alt dir x := by
  induction alts with
  | nil => rfl
  | cons alt alts ih => rw [outcomesAlts, ih, List.flatMap_cons]

end Ctx

end Slag.Regexp
