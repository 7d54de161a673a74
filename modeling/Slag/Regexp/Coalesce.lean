import Slag.Lib.Iteration
import Slag.Regexp.Prefilter
import Slag.Regexp.WholeEngine

/-!
`coalesceRepeats` merges adjacent greedy repeats of one capture-free atom. For
the reference matcher the merged repeat is as good as the two where the later
one has no minimum, the earlier one has a fixed count, or the atom matches in at
most one way; otherwise the order in which totals are tried changes.
-/

namespace Slag.Regexp

open Slag.Iteration

def u32Max : Nat := u32Size - 1

def saturatingAdd (a b : Nat) : Nat :=
  min (a + b) u32Max

/-- The maximum of a merged repeat, none when either has none. -/
def mergeMax : Option Nat → Option Nat → Option Nat
  | some x, some y => some (saturatingAdd x y)
  | _, _ => none

namespace Node

/-- The repeat that two adjacent nodes merge into, if they do. -/
def mergePair : Node → Node → Option Node
  | .repeated a min1 max1 true owned1, .repeated b min2 max2 true owned2 =>
      if owned1.isEmpty && owned2.isEmpty && decide (a = b) then
        some (.repeated a (saturatingAdd min1 min2) (mergeMax max1 max2) true [])
      else none
  | _, _ => none

/-- Merge a node with the nodes after it, as far as they go. -/
def mergeInto (node : Node) : List Node → List Node
  | [] => [node]
  | next :: rest =>
      match mergePair node next with
      | some merged => mergeInto merged rest
      | none => node :: mergeInto next rest

def mergeRun : List Node → List Node
  | [] => []
  | node :: rest => mergeInto node rest

mutual

def coalesceRepeats : Node → Node
  | .sequence nodes => .sequence (mergeRun (coalesceSeq nodes))
  | .alternate alts => .alternate (coalesceAlts alts)
  | .capture index node => .capture index (coalesceRepeats node)
  | .repeated node min max greedy owned => .repeated (coalesceRepeats node) min max greedy owned
  | .lookahead negate node => .lookahead negate (coalesceRepeats node)
  | .lookbehind negate node => .lookbehind negate (coalesceRepeats node)
  | node => node

def coalesceSeq : List Node → List Node
  | [] => []
  | node :: nodes => coalesceRepeats node :: coalesceSeq nodes

def coalesceAlts : List (List Node) → List (List Node)
  | [] => []
  | alt :: alts => mergeRun (coalesceSeq alt) :: coalesceAlts alts

end

/-- The shape of a merge. -/
theorem mergePair_eq_some {a b merged : Node} (h : mergePair a b = some merged) :
    ∃ node min1 max1 min2 max2, a = .repeated node min1 max1 true [] ∧
      b = .repeated node min2 max2 true [] ∧
      merged = .repeated node (saturatingAdd min1 min2) (mergeMax max1 max2) true [] := by
  unfold mergePair at h
  split at h
  · split at h
    · rename_i hcond
      simp only [Bool.and_eq_true, List.isEmpty_iff, decide_eq_true_eq] at hcond
      obtain ⟨⟨rfl, rfl⟩, rfl⟩ := hcond
      cases h
      exact ⟨_, _, _, _, _, rfl, rfl, rfl⟩
    · cases h
  · cases h

theorem compiled_merge {a b merged : Node} (h : mergePair a b = some merged)
    (ha : a.compiled = true) (hb : b.compiled = true) :
    merged.compiled = true ∧ merged.collectCaptures = a.collectCaptures ++ b.collectCaptures := by
  obtain ⟨node, min1, max1, min2, max2, rfl, rfl, rfl⟩ := mergePair_eq_some h
  simp only [compiled, Bool.and_eq_true, beq_iff_eq] at ha hb ⊢
  obtain ⟨⟨hmax1, hnil⟩, hnode⟩ := ha
  obtain ⟨⟨hmax2, -⟩, -⟩ := hb
  refine ⟨⟨⟨?_, hnil⟩, hnode⟩, ?_⟩
  · cases max1 with
    | none => rfl
    | some x =>
        cases max2 with
        | none => rfl
        | some y =>
            simp only [Option.all_some, decide_eq_true_eq] at hmax1 hmax2
            refine decide_eq_true (Nat.le_min.mpr ⟨?_, Nat.min_le_right _ _⟩)
            exact Nat.le_trans (Nat.min_le_left _ _) (Nat.add_le_add hmax1 hmax2)
  · simp only [collectCaptures, ← hnil, List.append_nil]

theorem compiled_mergeInto {a : Node} {rest : List Node} (ha : a.compiled = true)
    (hrest : compiledSeq rest = true) :
    compiledSeq (mergeInto a rest) = true ∧
      collectCapturesSeq (mergeInto a rest) = collectCapturesSeq (a :: rest) := by
  induction rest generalizing a with
  | nil =>
      simp only [mergeInto, compiledSeq, ha, Bool.and_true, and_self]
  | cons b rest ih =>
      rw [compiledSeq, Bool.and_eq_true] at hrest
      rw [mergeInto]
      cases hm : mergePair a b with
      | some merged =>
          obtain ⟨hmerged, hcaptures⟩ := compiled_merge hm ha hrest.1
          obtain ⟨hseq, hcaptures'⟩ := ih hmerged hrest.2
          refine ⟨hseq, ?_⟩
          simp only [hcaptures', collectCapturesSeq, hcaptures, List.append_assoc]
      | none =>
          obtain ⟨hseq, hcaptures⟩ := ih hrest.1 hrest.2
          simp only [compiledSeq, ha, hseq, Bool.and_self, collectCapturesSeq, hcaptures, and_self]

theorem compiled_mergeRun {nodes : List Node} (h : compiledSeq nodes = true) :
    compiledSeq (mergeRun nodes) = true ∧
      collectCapturesSeq (mergeRun nodes) = collectCapturesSeq nodes := by
  cases nodes with
  | nil => exact ⟨rfl, rfl⟩
  | cons a rest =>
      rw [compiledSeq, Bool.and_eq_true] at h
      exact compiled_mergeInto h.1 h.2

mutual

/-- Merging keeps a tree compiled, with the captures it had. -/
theorem compiled_coalesce : ∀ node : Node, node.compiled = true →
    node.coalesceRepeats.compiled = true ∧
      node.coalesceRepeats.collectCaptures = node.collectCaptures
  | .sequence nodes, h => by
      simp only [compiled] at h
      obtain ⟨hseq, hcaptures⟩ := compiled_coalesceSeq nodes h
      obtain ⟨hrun, hcaptures'⟩ := compiled_mergeRun hseq
      simp only [coalesceRepeats, compiled, collectCaptures, hrun, hcaptures', hcaptures, and_self]
  | .alternate alts, h => by
      simp only [compiled, Bool.and_eq_true, Bool.not_eq_true', List.isEmpty_eq_false_iff] at h
      obtain ⟨halts, hcaptures⟩ := compiled_coalesceAlts alts h.2
      have hne : (coalesceAlts alts).isEmpty = false := by
        cases alts with
        | nil => exact absurd rfl h.1
        | cons alt alts => rfl
      simp only [coalesceRepeats, compiled, collectCaptures, halts, hcaptures, hne, Bool.not_false,
        Bool.and_self, and_self]
  | .repeated node min max greedy owned, h => by
      simp only [compiled, Bool.and_eq_true, beq_iff_eq] at h
      obtain ⟨hnode, hcaptures⟩ := compiled_coalesce node h.2
      simp only [coalesceRepeats, compiled, collectCaptures, hcaptures, hnode, h.1.1, h.1.2,
        beq_self_eq_true, Bool.and_self, and_self]
  | .capture index node, h => by
      simp only [compiled] at h
      obtain ⟨hnode, hcaptures⟩ := compiled_coalesce node h
      simp only [coalesceRepeats, compiled, collectCaptures, hcaptures, hnode, and_self]
  | .lookahead negate node, h | .lookbehind negate node, h => by
      simp only [compiled] at h
      obtain ⟨hnode, hcaptures⟩ := compiled_coalesce node h
      simp only [coalesceRepeats, compiled, collectCaptures, hcaptures, hnode, and_self]
  | .empty, h | .char _ _, h | .any _, h | .start _, h | .finish _, h | .wordBoundary _, h
  | .notWordBoundary _, h | .charClass _, h | .backref _ _, h => ⟨h, rfl⟩

theorem compiled_coalesceSeq : ∀ nodes : List Node, compiledSeq nodes = true →
    compiledSeq (coalesceSeq nodes) = true ∧
      collectCapturesSeq (coalesceSeq nodes) = collectCapturesSeq nodes
  | [], _ => ⟨rfl, rfl⟩
  | node :: nodes, h => by
      rw [compiledSeq, Bool.and_eq_true] at h
      obtain ⟨hnode, hcaptures⟩ := compiled_coalesce node h.1
      obtain ⟨hnodes, hcaptures'⟩ := compiled_coalesceSeq nodes h.2
      simp only [coalesceSeq, compiledSeq, collectCapturesSeq, hnode, hnodes, hcaptures, hcaptures',
        Bool.and_self, and_self]

theorem compiled_coalesceAlts : ∀ alts : List (List Node), compiledAlts alts = true →
    compiledAlts (coalesceAlts alts) = true ∧
      collectCapturesAlts (coalesceAlts alts) = collectCapturesAlts alts
  | [], _ => ⟨rfl, rfl⟩
  | alt :: alts, h => by
      rw [compiledAlts, Bool.and_eq_true] at h
      obtain ⟨hseq, hcaptures⟩ := compiled_coalesceSeq alt h.1
      obtain ⟨hrun, hcaptures'⟩ := compiled_mergeRun hseq
      obtain ⟨halts, hcaptures''⟩ := compiled_coalesceAlts alts h.2
      simp only [coalesceAlts, compiledAlts, collectCapturesAlts, hrun, halts, hcaptures', hcaptures,
        hcaptures'', Bool.and_self, and_self]

end

end Node

namespace Ctx

variable (ctx : Ctx) (dir : Direction)

/-- The bounds of two repeats add up without saturating, and in the order in
which they are matched the second has no minimum or the first a fixed count, or
else the atom matches in at most one way. -/
def HarmlessPair : Node → Node → Prop
  | .repeated node min1 max1 _ _, .repeated _ min2 max2 _ _ =>
      min1 + min2 ≤ u32Max ∧
      (∀ x y, max1 = some x → max2 = some y → x + y ≤ u32Max) ∧
      ((match dir with
        | .forward => min2 = 0 ∨ max1 = some min1
        | .backward => min1 = 0 ∨ max2 = some min2) ∨
        ∀ x, (ctx.outcomes node dir x).length ≤ 1)
  | _, _ => True

/-- Every merge of a node with the nodes after it is harmless. -/
def HarmlessInto (node : Node) : List Node → Prop
  | [] => True
  | next :: rest =>
      match node.mergePair next with
      | some merged => ctx.HarmlessPair dir node next ∧ HarmlessInto merged rest
      | none => HarmlessInto next rest

def HarmlessRun : List Node → Prop
  | [] => True
  | node :: rest => ctx.HarmlessInto dir node rest

mutual

/-- Every merge in a tree is harmless in the direction the place is matched in. -/
def Harmless (dir : Direction) : Node → Prop
  | .sequence nodes => HarmlessSeq dir nodes ∧ ctx.HarmlessRun dir (Node.coalesceSeq nodes)
  | .alternate alts => HarmlessAlts dir alts
  | .capture _ node => Harmless dir node
  | .repeated node _ _ _ _ => Harmless dir node
  | .lookahead _ node => Harmless .forward node
  | .lookbehind _ node => Harmless .backward node
  | _ => True

def HarmlessSeq (dir : Direction) : List Node → Prop
  | [] => True
  | node :: nodes => Harmless dir node ∧ HarmlessSeq dir nodes

def HarmlessAlts (dir : Direction) : List (List Node) → Prop
  | [] => True
  | alt :: alts => HarmlessSeq dir alt ∧ ctx.HarmlessRun dir (Node.coalesceSeq alt) ∧
      HarmlessAlts dir alts

end

variable {ctx dir}

theorem captures_assertOutcomes {negate : Bool} {results : List MatchState} {x : MatchState}
    (h : ∀ y ∈ results, y.captures = x.captures) :
    ∀ y ∈ assertOutcomes negate results x, y.captures = x.captures := by
  unfold assertOutcomes
  split
  · rename_i first rest
    intro y hy
    rw [List.mem_singleton.mp hy]
    exact h first List.mem_cons_self
  · nofun
  · nofun
  · intro y hy
    rw [List.mem_singleton.mp hy]

mutual

/-- A node without captures leaves them alone. -/
theorem captures_outcomes : ∀ (node : Node) (dir : Direction), node.collectCaptures = [] →
    ∀ x, ∀ y ∈ ctx.outcomes node dir x, y.captures = x.captures
  | .sequence nodes, dir, h, x => by
      simp only [outcomes]
      exact captures_outcomesSeq nodes dir h x
  | .alternate alts, dir, h, x => by
      simp only [outcomes]
      exact captures_outcomesAlts alts dir h x
  | .repeated node min max greedy owned, dir, h, x => by
      have hnode : node.collectCaptures = [] := h
      simp only [outcomes, hnode]
      clear h
      generalize min + ctx.remaining dir x.endIndex + 1 = depth
      induction depth generalizing min max x with
      | zero => nofun
      | succ depth ih =>
          have hmore : ∀ y ∈ (ctx.outcomes node dir (x.clear [])).flatMap (fun y =>
              if min = 0 ∧ y.endIndex = x.endIndex then []
              else repeatOutcomes (ctx.outcomes node dir) [] greedy depth (min - 1)
                (max.map fun n => n - 1) y), y.captures = x.captures := by
            intro y hy
            obtain ⟨z, hz, hy⟩ := List.mem_flatMap.mp hy
            have hcaptures : z.captures = x.captures := captures_outcomes node dir hnode _ z hz
            split at hy
            · cases hy
            · rw [← hcaptures]
              exact ih _ _ z y hy
          simp only [repeatOutcomes]
          intro y hy
          split at hy
          · rw [List.mem_singleton.mp hy]
          · split at hy
            · exact hmore y hy
            · split at hy
              · rcases List.mem_append.mp hy with hy | hy
                · exact hmore y hy
                · rw [List.mem_singleton.mp hy]
              · rcases List.mem_cons.mp hy with rfl | hy
                · rfl
                · exact hmore y hy
  | .capture _ _, dir, h, x => nomatch h
  | .lookahead negate node, dir, h, x => by
      simp only [outcomes]
      exact captures_assertOutcomes (captures_outcomes node .forward h x)
  | .lookbehind negate node, dir, h, x => by
      simp only [outcomes]
      exact captures_assertOutcomes (captures_outcomes node .backward h x)
  | .empty, dir, _, x | .char _ _, dir, _, x | .any _, dir, _, x | .start _, dir, _, x
  | .finish _, dir, _, x | .wordBoundary _, dir, _, x | .notWordBoundary _, dir, _, x
  | .charClass _, dir, _, x | .backref _ _, dir, _, x => by
      intro y hy
      obtain ⟨pos, -, rfl⟩ := List.mem_map.mp hy
      rfl

theorem captures_outcomesSeq : ∀ (nodes : List Node) (dir : Direction),
    Node.collectCapturesSeq nodes = [] →
    ∀ x, ∀ y ∈ ctx.outcomesSeq nodes dir x, y.captures = x.captures
  | [], dir, _, x => by
      intro y hy
      rw [List.mem_singleton.mp hy]
  | node :: nodes, .forward, h, x => by
      obtain ⟨hnode, hnodes⟩ := List.append_eq_nil_iff.mp h
      intro y hy
      obtain ⟨z, hz, hy⟩ := List.mem_flatMap.mp hy
      exact (captures_outcomesSeq nodes .forward hnodes z y hy).trans
        (captures_outcomes node .forward hnode x z hz)
  | node :: nodes, .backward, h, x => by
      obtain ⟨hnode, hnodes⟩ := List.append_eq_nil_iff.mp h
      intro y hy
      obtain ⟨z, hz, hy⟩ := List.mem_flatMap.mp hy
      exact (captures_outcomes node .backward hnode z y hy).trans
        (captures_outcomesSeq nodes .backward hnodes x z hz)

theorem captures_outcomesAlts : ∀ (alts : List (List Node)) (dir : Direction),
    Node.collectCapturesAlts alts = [] →
    ∀ x, ∀ y ∈ ctx.outcomesAlts alts dir x, y.captures = x.captures
  | [], dir, _, x => nofun
  | alt :: alts, dir, h, x => by
      obtain ⟨halt, halts⟩ := List.append_eq_nil_iff.mp h
      intro y hy
      rcases List.mem_append.mp hy with hy | hy
      · exact captures_outcomesSeq alt dir halt x y hy
      · exact captures_outcomesAlts alts dir halts x y hy

end

/-- The repeats of one capture-free atom. -/
def greedyIteration (ctx : Ctx) (dir : Direction) (node : Node) : Greedy MatchState where
  body := ctx.outcomes node dir
  stays x y := decide (y.endIndex = x.endIndex)
  rank x := ctx.remaining dir x.endIndex
  moves x y hy := by
    rw [decide_eq_true_eq]
    exact moves_outcomes node dir x y hy
  results min max x := ctx.repeatResults dir (ctx.outcomes node dir) [] true min max x
  results_eq min max x := by
    rw [repeatResults_eq fun x => moves_outcomes node dir x]
    simp only [iterationResults, MatchState.clear, List.foldl_nil, decide_eq_true_eq, if_true]
    by_cases hmin : min = 0
    · simp only [hmin, ne_eq, not_true_eq_false, if_false, if_true]
      rfl
    · simp only [hmin, ne_eq, not_false_eq_true, if_false, if_true, List.append_nil]
      rfl

theorem outcomes_repeated {node : Node} (h : node.collectCaptures = []) (min : Nat)
    (max : Option Nat) (owned : List Nat) (x : MatchState) :
    ctx.outcomes (.repeated node min max true owned) dir x =
      (ctx.greedyIteration dir node).results min max x := by
  rw [outcomes, h]
  rfl

theorem atMost_of_all {min : Nat} {max : Option Nat}
    (h : (max.all fun n => decide (min ≤ n)) = true) : AtMost min max := by
  rintro most rfl
  exact of_decide_eq_true h

/-- Two repeats one after the other, in the order they are matched in. -/
theorem sameFirst_pair {node : Node} {a c : Nat} {b d : Option Nat}
    (hnode : node.collectCaptures = []) (hab : (b.all fun n => decide (a ≤ n)) = true)
    (hcd : (d.all fun n => decide (c ≤ n)) = true)
    (h : (c = 0 ∨ b = some a) ∨ ∀ x, (ctx.outcomes node dir x).length ≤ 1) (x : MatchState) :
    SameFirst
      ((ctx.outcomes (.repeated node a b true []) dir x).flatMap
        (ctx.outcomes (.repeated node c d true []) dir))
      (ctx.outcomes (.repeated node (a + c) (plus b d) true []) dir x) := by
  have hsecond : ctx.outcomes (.repeated node c d true []) dir =
      (ctx.greedyIteration dir node).results c d := by
    funext y
    exact outcomes_repeated hnode c d [] y
  rw [outcomes_repeated hnode, outcomes_repeated hnode, hsecond]
  rcases h with (rfl | rfl) | hsingle
  · exact (ctx.greedyIteration dir node).fuse_zero (atMost_of_all hab) x
  · exact (ctx.greedyIteration dir node).fuse_fixed a c x
  · refine (ctx.greedyIteration dir node).fuse_single hsingle (fun x y hy hstays => ?_)
      (atMost_of_all hab) (atMost_of_all hcd) x
    have hend : y.endIndex = x.endIndex := of_decide_eq_true hstays
    have hcaptures := captures_outcomes node dir hnode x y hy
    obtain ⟨stop, captures⟩ := y
    obtain ⟨start, before⟩ := x
    obtain rfl : stop = start := hend
    obtain rfl : captures = before := hcaptures
    rfl

/-- A merge is as good as the pair it replaces. -/
theorem referenceSeq_merge {a b merged : Node} (hm : a.mergePair b = some merged)
    (ha : a.compiled = true) (hb : b.compiled = true) (h : ctx.HarmlessPair dir a b)
    (rest : List Node) (x : MatchState) (c : Continuation) :
    ctx.referenceSeq (merged :: rest) dir x c = ctx.referenceSeq (a :: b :: rest) dir x c := by
  obtain ⟨node, min1, max1, min2, max2, rfl, rfl, rfl⟩ := Node.mergePair_eq_some hm
  simp only [Node.compiled, Bool.and_eq_true, beq_iff_eq] at ha hb
  obtain ⟨hmin, hmax, h⟩ := h
  have hmins : saturatingAdd min1 min2 = min1 + min2 := Nat.min_eq_left hmin
  have hmaxes : mergeMax max1 max2 = plus max1 max2 := by
    cases max1 with
    | none => rfl
    | some x =>
        cases max2 with
        | none => rfl
        | some y => exact congrArg some (Nat.min_eq_left (hmax x y rfl rfl))
  rw [hmins, hmaxes]
  cases dir with
  | forward =>
      have hpair := fun c : Continuation =>
        (sameFirst_pair ha.1.2.symm ha.1.1 hb.1.1 h x).findSome?_eq c
      simp only [referenceSeq, reference_eq, ← findSome_flatMap]
      exact (hpair _).symm
  | backward =>
      have hplus : plus max1 max2 = plus max2 max1 := by
        cases max1 <;> cases max2 <;> simp [plus, Nat.add_comm]
      rw [Nat.add_comm, hplus]
      simp only [referenceSeq]
      congr 1
      funext y
      simp only [reference_eq, ← findSome_flatMap]
      exact ((sameFirst_pair ha.1.2.symm hb.1.1 ha.1.1 h y).findSome?_eq c).symm

theorem referenceSeq_congr {node node' : Node} {rest rest' : List Node}
    (hnode : ∀ x c, ctx.reference node' dir x c = ctx.reference node dir x c)
    (hrest : ∀ x c, ctx.referenceSeq rest' dir x c = ctx.referenceSeq rest dir x c)
    (x : MatchState) (c : Continuation) :
    ctx.referenceSeq (node' :: rest') dir x c = ctx.referenceSeq (node :: rest) dir x c := by
  cases dir <;> simp only [referenceSeq, hnode, hrest]

theorem referenceSeq_mergeInto {a : Node} {rest : List Node} (ha : a.compiled = true)
    (hrest : Node.compiledSeq rest = true) (h : ctx.HarmlessInto dir a rest) (x : MatchState)
    (c : Continuation) :
    ctx.referenceSeq (a.mergeInto rest) dir x c = ctx.referenceSeq (a :: rest) dir x c := by
  induction rest generalizing a x c with
  | nil => rfl
  | cons b rest ih =>
      rw [Node.compiledSeq, Bool.and_eq_true] at hrest
      rw [HarmlessInto] at h
      rw [Node.mergeInto]
      cases hm : a.mergePair b with
      | some merged =>
          simp only [hm] at h ⊢
          have hmerged := (Node.compiled_merge hm ha hrest.1).1
          rw [ih hmerged hrest.2 h.2]
          exact referenceSeq_merge hm ha hrest.1 h.1 rest x c
      | none =>
          simp only [hm] at h ⊢
          exact referenceSeq_congr (fun _ _ => rfl) (ih hrest.1 hrest.2 h) x c

theorem referenceSeq_mergeRun {nodes : List Node} (hnodes : Node.compiledSeq nodes = true)
    (h : ctx.HarmlessRun dir nodes) (x : MatchState) (c : Continuation) :
    ctx.referenceSeq (Node.mergeRun nodes) dir x c = ctx.referenceSeq nodes dir x c := by
  cases nodes with
  | nil => rfl
  | cons a rest =>
      rw [Node.compiledSeq, Bool.and_eq_true] at hnodes
      exact referenceSeq_mergeInto hnodes.1 hnodes.2 h x c

mutual

/-- Harmless merges leave the reference matcher's answer. -/
theorem reference_coalesce : ∀ (node : Node) (dir : Direction), node.compiled = true →
    ctx.Harmless dir node → ∀ x c, ctx.reference node.coalesceRepeats dir x c =
      ctx.reference node dir x c
  | .sequence nodes, dir, hc, h, x, c => by
      simp only [Node.compiled] at hc
      simp only [Harmless] at h
      simp only [Node.coalesceRepeats, reference]
      rw [referenceSeq_mergeRun (Node.compiled_coalesceSeq nodes hc).1 h.2]
      exact referenceSeq_coalesce nodes dir hc h.1 x c
  | .alternate alts, dir, hc, h, x, c => by
      simp only [Node.compiled, Bool.and_eq_true] at hc
      simp only [Harmless] at h
      simp only [Node.coalesceRepeats, reference]
      exact referenceAlts_coalesce alts dir hc.2 h x c
  | .repeated node min max greedy owned, dir, hc, h, x, c => by
      simp only [Node.compiled, Bool.and_eq_true] at hc
      simp only [Harmless] at h
      have hbody : ctx.reference node.coalesceRepeats dir = ctx.reference node dir := by
        funext x c
        exact reference_coalesce node dir hc.2 h x c
      simp only [Node.coalesceRepeats, reference, hbody, (Node.compiled_coalesce node hc.2).2]
  | .capture index node, dir, hc, h, x, c => by
      simp only [Node.compiled] at hc
      simp only [Harmless] at h
      simp only [Node.coalesceRepeats, reference, reference_coalesce node dir hc h]
  | .lookahead negate node, dir, hc, h, x, c => by
      simp only [Node.compiled] at hc
      simp only [Harmless] at h
      simp only [Node.coalesceRepeats, reference, reference_coalesce node .forward hc h]
  | .lookbehind negate node, dir, hc, h, x, c => by
      simp only [Node.compiled] at hc
      simp only [Harmless] at h
      simp only [Node.coalesceRepeats, reference, reference_coalesce node .backward hc h]
  | .empty, _, _, _, _, _ | .char _ _, _, _, _, _, _ | .any _, _, _, _, _, _
  | .start _, _, _, _, _, _ | .finish _, _, _, _, _, _ | .wordBoundary _, _, _, _, _, _
  | .notWordBoundary _, _, _, _, _, _ | .charClass _, _, _, _, _, _
  | .backref _ _, _, _, _, _, _ => rfl

theorem referenceSeq_coalesce : ∀ (nodes : List Node) (dir : Direction),
    Node.compiledSeq nodes = true → ctx.HarmlessSeq dir nodes →
    ∀ x c, ctx.referenceSeq (Node.coalesceSeq nodes) dir x c = ctx.referenceSeq nodes dir x c
  | [], _, _, _, _, _ => rfl
  | node :: nodes, dir, hc, h, x, c => by
      rw [Node.compiledSeq, Bool.and_eq_true] at hc
      simp only [HarmlessSeq] at h
      exact referenceSeq_congr (reference_coalesce node dir hc.1 h.1)
        (referenceSeq_coalesce nodes dir hc.2 h.2) x c

theorem referenceAlts_coalesce : ∀ (alts : List (List Node)) (dir : Direction),
    Node.compiledAlts alts = true → ctx.HarmlessAlts dir alts →
    ∀ x c, ctx.referenceAlts (Node.coalesceAlts alts) dir x c = ctx.referenceAlts alts dir x c
  | [], _, _, _, _, _ => rfl
  | alt :: alts, dir, hc, h, x, c => by
      rw [Node.compiledAlts, Bool.and_eq_true] at hc
      simp only [HarmlessAlts] at h
      simp only [Node.coalesceAlts, referenceAlts]
      rw [referenceSeq_mergeRun (Node.compiled_coalesceSeq alt hc.1).1 h.2.1,
        referenceSeq_coalesce alt dir hc.1 h.1, referenceAlts_coalesce alts dir hc.2 h.2.2]

end

end Ctx

namespace Matcher

/-- The program matches the same after `coalesceRepeats` as before it if nothing
is merged, whatever else goes astray, or if every merge is harmless and neither
attempt is disturbed. -/
theorem matchAt_coalesceRepeats (tables : UnicodeTables) (unicode : Bool) (program : Node)
    (groups : Nat) (input : List UInt16) (options : Options) (start : Nat) (caps : Caps)
    (hc : program.compiled = true)
    (h : program.coalesceRepeats = program ∨
      (⟨tables, input, unicode⟩ : Ctx).Harmless .forward program ∧
        (compiled tables unicode program groups input options).Undisturbed start caps ∧
        (compiled tables unicode program.coalesceRepeats groups input options).Undisturbed
          start caps) :
    result ((compiled tables unicode program.coalesceRepeats groups input options).matchAt
        start caps []) =
      result ((compiled tables unicode program groups input options).matchAt start caps []) := by
  rcases h with hsame | ⟨hharmless, hbefore, hafter⟩
  · rw [hsame]
  · rw [hafter.result_eq (Node.compiled_coalesce program hc).1, hbefore.result_eq hc]
    exact Ctx.reference_coalesce program .forward hc hharmless _ some

end Matcher

/-- `a*a*b` on `aab`. -/
theorem matchAt_coalesceRepeats_aab :
    let program : Node := .sequence [greedyRepeat (literal 'a') 0 none,
      greedyRepeat (literal 'a') 0 none, literal 'b']
    let before := Matcher.compiled plainTables false program 0 [97, 97, 98] {}
    let after := Matcher.compiled plainTables false program.coalesceRepeats 0 [97, 97, 98] {}
    program.coalesceRepeats = .sequence [greedyRepeat (literal 'a') 0 none, literal 'b'] ∧
      Matcher.result (after.matchAt 0 (Caps.new 0) []) =
        Matcher.result (before.matchAt 0 (Caps.new 0) []) := by
  refine ⟨by decide +kernel, ?_⟩
  refine Matcher.matchAt_coalesceRepeats plainTables false _ 0 [97, 97, 98] {} 0 (Caps.new 0)
    (by decide) (.inr ⟨?_, ?_, ?_⟩)
  · exact ⟨⟨trivial, trivial, trivial, trivial⟩, ⟨Nat.zero_le _, nofun, .inl (.inl rfl)⟩, trivial⟩
  · exact ⟨by decide +kernel, by decide +kernel, 100, 100, by decide +kernel⟩
  · exact ⟨by decide +kernel, by decide +kernel, 100, 100, by decide +kernel⟩

/-- `(?:a|ab)?(?:a|ab){1}` on `abab`: after a first `a` the second repeat has to
match at `b` and cannot, so the first one takes `ab`; the merged repeat takes the
first `a` as its only iteration. -/
theorem matchAt_coalesceRepeats_ne :
    let atom : Node := .alternate [[literal 'a'], [literal 'a', literal 'b']]
    let program : Node := .sequence [greedyRepeat atom 0 (some 1), greedyRepeat atom 1 (some 1)]
    let before := Matcher.compiled plainTables false program 0 [97, 98, 97, 98] {}
    let after := Matcher.compiled plainTables false program.coalesceRepeats 0 [97, 98, 97, 98] {}
    program.compiled = true ∧
      Matcher.result (before.matchAt 0 (Caps.new 0) []) = some ⟨3, [none]⟩ ∧
      Matcher.result (after.matchAt 0 (Caps.new 0) []) = some ⟨1, [none]⟩ := by
  decide +kernel

end Slag.Regexp
