import Slag.Regexp.Quantifier

/-!
Simple atoms: one endpoint per position, strictly further on. A sequence of
them is matched right to left when matching backward, while `simpleEnd` always
takes its elements in source order.
-/

namespace Slag.Regexp

open Slag.Backtrack

namespace MatchState

/-- Set every owned capture to one span. -/
def setAll (x : MatchState) (owned : List Nat) (value : Span) : MatchState :=
  { x with captures := owned.foldl (fun captures index => captures.set index (some value)) x.captures }

end MatchState

/-- An atom of one character, or a non-empty sequence of such. -/
def Simple (node : Node) : Prop :=
  node.isLinearAtom = true ∨
    ∃ nodes, node = .sequence nodes ∧ nodes ≠ [] ∧ nodes.all Node.isLinearAtom = true

variable {node : Node} {addr : List Nat} {atom : NodeRef}

theorem simple_of_simpleAtom (h : simpleAtom addr node = some atom) : Simple atom.node := by
  fun_induction simpleAtom addr node with
  | case1 addr cp fold => cases h; exact .inl rfl
  | case2 addr dotAll => cases h; exact .inl rfl
  | case3 addr cls hc => cases h; exact .inl hc
  | case4 addr cls hc => cases h
  | case5 addr index inner ih => exact ih h
  | case6 addr node ih => exact ih h
  | case7 addr nodes _ hc =>
      cases h
      simp only [Bool.and_eq_true, Bool.not_eq_true', List.isEmpty_eq_false_iff] at hc
      exact .inr ⟨nodes, rfl, hc⟩
  | case8 addr nodes _ hc => cases h
  | case9 => cases h

namespace Ctx

variable {ctx : Ctx} {dir : Direction} {x : MatchState}

/-- The endpoint of a simple atom matched in the order of the direction. -/
def generalEnd (ctx : Ctx) (dir : Direction) : Node → Nat → Option Nat
  | .sequence nodes, pos => ctx.simpleEndSeq dir (ordered nodes dir) pos
  | atom, pos => ctx.simpleEnd dir atom pos

/-- One character further. -/
def charStep (ctx : Ctx) (dir : Direction) (pos : Nat) : Option Nat :=
  (ctx.readCharDir pos dir).map fun read => Ctx.advance pos dir read.2

/-- The position after a number of characters. -/
def charSteps (ctx : Ctx) (dir : Direction) : Nat → Nat → Option Nat
  | 0, pos => some pos
  | n + 1, pos => (ctx.charStep dir pos).bind (charSteps ctx dir n)

theorem charStep_remaining {pos q : Nat} (h : ctx.charStep dir pos = some q) :
    ctx.remaining dir q < ctx.remaining dir pos := by
  unfold charStep at h
  obtain ⟨⟨c, len⟩, hread, rfl⟩ := Option.map_eq_some_iff.mp h
  cases dir with
  | forward =>
      have := readChar_bounds hread
      simp only [remaining, Ctx.advance]
      omega
  | backward =>
      have := readCharBack_bounds hread
      simp only [remaining, Ctx.advance]
      omega

theorem charStep_of_charEnd {pos q : Nat} {test : Nat → Bool}
    (h : ctx.charEnd pos dir test = some q) : ctx.charStep dir pos = some q := by
  unfold charEnd at h
  split at h
  · rename_i c len hread
    split at h
    · cases h
      simp only [charStep, hread, Option.map_some]
    · cases h
  · cases h

theorem charStep_of_simpleEnd {pos q : Nat} (hn : node.isLinearAtom = true)
    (h : ctx.simpleEnd dir node pos = some q) : ctx.charStep dir pos = some q := by
  cases node with
  | char _ _ | any _ | charClass _ =>
      simp only [simpleEnd] at h
      exact charStep_of_charEnd h
  | empty | start _ | finish _ | wordBoundary _ | notWordBoundary _ | sequence _ | alternate _
  | repeated _ _ _ _ _ | capture _ _ | backref _ _ | lookahead _ _ | lookbehind _ _ => cases hn

variable {nodes : List Node}

theorem charSteps_of_simpleEndSeq {pos q : Nat} (hn : nodes.all Node.isLinearAtom = true)
    (h : ctx.simpleEndSeq dir nodes pos = some q) :
    ctx.charSteps dir nodes.length pos = some q := by
  induction nodes generalizing pos with
  | nil => exact h
  | cons node nodes ih =>
      simp only [List.all_cons, Bool.and_eq_true] at hn
      simp only [simpleEndSeq] at h
      split at h
      · rename_i p hp
        simp only [List.length_cons, charSteps, charStep_of_simpleEnd hn.1 hp, Option.bind_some]
        exact ih hn.2 h
      · cases h

theorem charSteps_remaining {n pos q : Nat} (h : ctx.charSteps dir n pos = some q) :
    ctx.remaining dir q ≤ ctx.remaining dir pos ∧ (0 < n → ctx.remaining dir q < ctx.remaining dir pos) := by
  induction n generalizing pos with
  | zero =>
      cases h
      exact ⟨Nat.le_refl _, fun h => absurd h (Nat.lt_irrefl 0)⟩
  | succ n ih =>
      rw [charSteps] at h
      obtain ⟨p, hp, hq⟩ := Option.bind_eq_some_iff.mp h
      have := charStep_remaining hp
      have := (ih hq).1
      exact ⟨by omega, fun _ => by omega⟩

/-- The number of characters a simple atom takes. -/
def atomLength : Node → Nat
  | .sequence nodes => nodes.length
  | _ => 1

theorem all_ordered (h : nodes.all Node.isLinearAtom = true) (dir : Direction) :
    (ordered nodes dir).all Node.isLinearAtom = true := by
  cases dir
  · exact h
  · simpa only [ordered, List.all_reverse] using h

theorem charSteps_one {pos q : Nat} (h : ctx.charStep dir pos = some q) :
    ctx.charSteps dir 1 pos = some q := by
  simp only [charSteps, h, Option.bind_some]

/-- Whichever order the elements are taken in, the same characters are read. -/
theorem charSteps_of_end {pos q : Nat} (hn : Simple node)
    (h : ctx.simpleEnd dir node pos = some q ∨ ctx.generalEnd dir node pos = some q) :
    ctx.charSteps dir (atomLength node) pos = some q := by
  obtain hlin | ⟨nodes, rfl, -, hall⟩ := hn
  · have hsame : ctx.generalEnd dir node pos = ctx.simpleEnd dir node pos ∧ atomLength node = 1 := by
      cases node <;> first | exact ⟨rfl, rfl⟩ | cases hlin
    rw [hsame.1, or_self] at h
    rw [hsame.2]
    exact charSteps_one (charStep_of_simpleEnd hlin h)
  · obtain h | h := h
    · simp only [simpleEnd] at h
      exact charSteps_of_simpleEndSeq hall h
    · have := charSteps_of_simpleEndSeq (all_ordered hall dir) h
      rwa [length_ordered] at this

theorem atomLength_pos (hn : Simple node) : 0 < atomLength node := by
  obtain hlin | ⟨nodes, rfl, hne, -⟩ := hn
  · cases node <;> first | exact Nat.one_pos | cases hlin
  · exact List.length_pos_iff.mpr hne

theorem end_remaining {pos q : Nat} (hn : Simple node)
    (h : ctx.simpleEnd dir node pos = some q ∨ ctx.generalEnd dir node pos = some q) :
    ctx.remaining dir q < ctx.remaining dir pos :=
  (charSteps_remaining (charSteps_of_end hn h)).2 (atomLength_pos hn)

theorem outcomes_linear (hn : node.isLinearAtom = true) (x : MatchState) :
    ctx.outcomes node dir x =
      (ctx.simpleEnd dir node x.endIndex).toList.map fun pos => { x with endIndex := pos } := by
  cases node with
  | char _ _ | any _ => simp only [outcomes, leafEnds, simpleEnd]
  | charClass cls =>
      have hstrings : ctx.classStrings cls x.endIndex dir = [] := by
        simp only [classStrings, List.isEmpty_iff.mp hn]
        split <;> rfl
      simp only [outcomes, leafEnds, hstrings, simpleEnd]
  | empty | start _ | finish _ | wordBoundary _ | notWordBoundary _ | sequence _ | alternate _
  | repeated _ _ _ _ _ | capture _ _ | backref _ _ | lookahead _ _ | lookbehind _ _ => cases hn

theorem chain_linear (hn : nodes.all Node.isLinearAtom = true) (x : MatchState) :
    ctx.chain dir nodes x =
      (ctx.simpleEndSeq dir nodes x.endIndex).toList.map fun pos => { x with endIndex := pos } := by
  induction nodes generalizing x with
  | nil => rfl
  | cons node nodes ih =>
      simp only [List.all_cons, Bool.and_eq_true] at hn
      simp only [chain, simpleEndSeq, outcomes_linear hn.1]
      cases ctx.simpleEnd dir node x.endIndex with
      | none => rfl
      | some p =>
          simp only [Option.toList_some, List.map_cons, List.map_nil, List.flatMap_cons,
            List.flatMap_nil, List.append_nil, ih hn.2]

theorem getElem?_setAll (owned : List Nat) (value : Option Span) (captures : List (Option Span))
    (i : Nat) :
    (owned.foldl (fun captures index => captures.set index value) captures)[i]? =
      if i ∈ owned ∧ i < captures.length then some value else captures[i]? := by
  induction owned generalizing captures with
  | nil => simp
  | cons index owned ih =>
      rw [List.foldl_cons, ih, List.length_set, List.getElem?_set]
      by_cases hi : index = i
      · subst hi
        by_cases hlt : index < captures.length <;> simp [hlt]
      · have hi' : i ≠ index := fun h => hi h.symm
        simp [hi, hi', List.mem_cons]

theorem length_setAll (owned : List Nat) (value : Option Span) (captures : List (Option Span)) :
    (owned.foldl (fun captures index => captures.set index value) captures).length =
      captures.length := by
  induction owned generalizing captures with
  | nil => rfl
  | cons index owned ih => rw [List.foldl_cons, ih, List.length_set]

/-- A group around an atom ends with the span of the atom. -/
theorem setAll_capture (x : MatchState) (index : Nat) (owned : List Nat) (first value : Span) :
    ((x.setCapture index first).setAll owned value).setCapture index value =
      x.setAll (index :: owned) value := by
  unfold MatchState.setAll MatchState.setCapture
  congr 1
  apply List.ext_getElem?
  intro i
  rw [List.getElem?_set, length_setAll, List.length_set, getElem?_setAll, getElem?_setAll,
    List.length_set, List.getElem?_set]
  by_cases hi : index = i
  · subst hi
    by_cases hlt : index < x.captures.length <;> simp [hlt]
  · have hi' : i ≠ index := fun h => hi h.symm
    simp [hi, hi']

/-- A node that peels to an atom ends where the atom does, its groups around it. -/
theorem outcomes_simple (h : simpleAtom addr node = some atom) (x : MatchState) :
    ctx.outcomes node dir x =
      (ctx.generalEnd dir atom.node x.endIndex).toList.map fun pos =>
        { x.setAll node.collectCaptures (span x.endIndex pos) with endIndex := pos } := by
  fun_induction simpleAtom addr node generalizing x with
  | case1 addr cp fold => cases h; exact outcomes_linear rfl x
  | case2 addr dotAll => cases h; exact outcomes_linear rfl x
  | case3 addr cls hc =>
      cases h
      have hlin : (Node.charClass cls).isLinearAtom = true := hc
      exact outcomes_linear hlin x
  | case4 addr cls hc => cases h
  | case5 addr index inner ih =>
      rw [outcomes, ih h, List.map_map]
      refine List.map_congr_left fun pos _ => ?_
      have hgroup := setAll_capture x index inner.collectCaptures (x.endIndex, x.endIndex)
        (span x.endIndex pos)
      simp only [Node.collectCaptures, ← hgroup]
      rfl
  | case6 addr node ih =>
      have hseq : ctx.outcomes (.sequence [node]) dir x = ctx.outcomes node dir x := by
        cases dir <;> simp [outcomes, outcomesSeq]
      rw [hseq, ih h]
      simp [Node.collectCaptures, Node.collectCapturesSeq]
  | case7 addr nodes _ hc =>
      cases h
      simp only [Bool.and_eq_true] at hc
      have hcaps : ∀ nodes : List Node, nodes.all Node.isLinearAtom = true →
          Node.collectCapturesSeq nodes = [] := by
        intro nodes hall
        induction nodes with
        | nil => rfl
        | cons n nodes ih =>
            simp only [List.all_cons, Bool.and_eq_true] at hall
            have hn : n.collectCaptures = [] := by
              cases n <;> first | rfl | cases hall.1
            rw [Node.collectCapturesSeq, hn, ih hall.2]
            rfl
      rw [outcomes, outcomesSeq_eq_chain, chain_linear (all_ordered hc.2 dir), generalEnd,
        Node.collectCaptures, hcaps nodes hc.2]
      rfl
  | case8 addr nodes _ hc => cases h
  | case9 => cases h

end Ctx

theorem Matcher.nodeEmits_simple {m : Matcher} {bad : Cfg → Bool} (h : simpleAtom addr node = some atom) :
    Matcher.NodeEmits m bad node := by
  fun_induction simpleAtom addr node with
  | case1 | case2 | case3 => exact nodeEmits_leaf trivial
  | case4 addr cls hc => cases h
  | case5 addr index inner ih => exact nodeEmits_capture index (ih h)
  | case6 addr node ih => exact nodeEmits_sequence (List.forall_mem_singleton.mpr (ih h))
  | case7 addr nodes _ hc =>
      simp only [Bool.and_eq_true, List.all_eq_true] at hc
      refine nodeEmits_sequence fun n hn => ?_
      have hlin := hc.2 n hn
      cases n <;> first | exact nodeEmits_leaf trivial | cases hlin
  | case8 addr nodes _ hc => cases h
  | case9 => cases h

end Slag.Regexp
