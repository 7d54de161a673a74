import Slag.Regexp.Engine

/-!
The matcher of the ECMAScript specification, in continuation-passing style,
over the endpoints the engine's atoms have. `repeatMatcher` is the
specification's RepeatMatcher. `outcomes` lists the states a node hands to its
continuation, in order.
-/

namespace Slag.Regexp

/-- The end index and the captures so far. -/
structure MatchState where
  endIndex : Nat
  captures : List (Option Span)
  deriving DecidableEq, Repr

namespace MatchState

def setCapture (x : MatchState) (index : Nat) (value : Span) : MatchState :=
  { x with captures := x.captures.set index (some value) }

/-- Clear the captures of an atom. -/
def clear (x : MatchState) (owned : List Nat) : MatchState :=
  { x with captures := owned.foldl (fun captures index => captures.set index none) x.captures }

end MatchState

namespace Ctx

variable (ctx : Ctx)

/-- Where a node without children can end, in the order the engine tries. -/
def leafEnds (dir : Direction) (x : MatchState) : Node → List Nat
  | .empty => [x.endIndex]
  | .char cp fold => (ctx.charEnd x.endIndex dir (ctx.charTest cp fold)).toList
  | .any dotAll => (ctx.charEnd x.endIndex dir (anyTest dotAll)).toList
  | .start multiline =>
      if x.endIndex == 0 || (multiline && ctx.isLineTerminatorAt (x.endIndex - 1)) then
        [x.endIndex] else []
  | .finish multiline =>
      if x.endIndex == ctx.input.length || (multiline &&
          decide (x.endIndex < ctx.input.length) && ctx.isLineTerminatorAt x.endIndex) then
        [x.endIndex] else []
  | .wordBoundary extraFolded =>
      if ctx.isBoundary x.endIndex extraFolded then [x.endIndex] else []
  | .notWordBoundary extraFolded =>
      if !ctx.isBoundary x.endIndex extraFolded then [x.endIndex] else []
  | .charClass cls =>
      match ctx.classStrings cls x.endIndex dir with
      | len :: others => (len :: others.reverse).map (Ctx.advance x.endIndex dir)
      | [] =>
          (ctx.charEnd x.endIndex dir fun ch => ctx.classMatches cls x.endIndex ch dir).toList
  | .backref indices fold => (ctx.backrefEnd indices fold x.endIndex dir x.captures).toList
  | _ => []

/-- The units left in the direction of the match. -/
def remaining (dir : Direction) (pos : Nat) : Nat :=
  match dir with
  | .forward => ctx.input.length - pos
  | .backward => pos

abbrev Continuation := MatchState → Option MatchState

/-- RepeatMatcher; the recursion is cut off at a depth it does not reach. -/
def repeatMatcher (body : MatchState → Continuation → Option MatchState) (owned : List Nat)
    (greedy : Bool) : Nat → Nat → Option Nat → MatchState → Continuation → Option MatchState
  | 0, _, _, _, _ => none
  | depth + 1, min, max, x, c =>
      if max = some 0 then c x
      else
        let d : Continuation := fun y =>
          if min = 0 ∧ y.endIndex = x.endIndex then none
          else repeatMatcher body owned greedy depth (min - 1) (max.map fun n => n - 1) y c
        let xr := x.clear owned
        if min ≠ 0 then body xr d
        else if greedy then (body xr d).or (c x)
        else (c x).or (body xr d)

/-- A lookaround commits to the first success of its body. -/
def assertMatcher (negate : Bool) (result : Option MatchState) (x : MatchState)
    (c : Continuation) : Option MatchState :=
  match result, negate with
  | some y, false => c { y with endIndex := x.endIndex }
  | some _, true => none
  | none, false => none
  | none, true => c x

mutual

def reference : Node → Direction → MatchState → Continuation → Option MatchState
  | .sequence nodes, dir, x, c => referenceSeq nodes dir x c
  | .alternate alts, dir, x, c => referenceAlts alts dir x c
  | .repeated node min max greedy _, dir, x, c =>
      repeatMatcher (reference node dir) node.collectCaptures greedy
        (min + ctx.remaining dir x.endIndex + 1) min max x c
  | .capture index node, dir, x, c =>
      reference node dir (x.setCapture index (x.endIndex, x.endIndex)) fun y =>
        c (y.setCapture index (span x.endIndex y.endIndex))
  | .lookahead negate node, _, x, c =>
      assertMatcher negate (reference node .forward x some) x c
  | .lookbehind negate node, _, x, c =>
      assertMatcher negate (reference node .backward x some) x c
  | node, dir, x, c => (ctx.leafEnds dir x node).findSome? fun pos => c { x with endIndex := pos }

/-- The terms of a sequence, right to left when matching backward. -/
def referenceSeq : List Node → Direction → MatchState → Continuation → Option MatchState
  | [], _, x, c => c x
  | node :: nodes, .forward, x, c =>
      reference node .forward x fun y => referenceSeq nodes .forward y c
  | node :: nodes, .backward, x, c =>
      referenceSeq nodes .backward x fun y => reference node .backward y c

def referenceAlts : List (List Node) → Direction → MatchState → Continuation → Option MatchState
  | [], _, _, _ => none
  | alt :: alts, dir, x, c => (referenceSeq alt dir x c).or (referenceAlts alts dir x c)

end

/-- The states RepeatMatcher hands to its continuation. -/
def repeatOutcomes (body : MatchState → List MatchState) (owned : List Nat) (greedy : Bool) :
    Nat → Nat → Option Nat → MatchState → List MatchState
  | 0, _, _, _ => []
  | depth + 1, min, max, x =>
      if max = some 0 then [x]
      else
        let more := (body (x.clear owned)).flatMap fun y =>
          if min = 0 ∧ y.endIndex = x.endIndex then []
          else repeatOutcomes body owned greedy depth (min - 1) (max.map fun n => n - 1) y
        if min ≠ 0 then more
        else if greedy then more ++ [x]
        else x :: more

def assertOutcomes (negate : Bool) (results : List MatchState) (x : MatchState) :
    List MatchState :=
  match results, negate with
  | y :: _, false => [{ y with endIndex := x.endIndex }]
  | _ :: _, true => []
  | [], false => []
  | [], true => [x]

mutual

def outcomes : Node → Direction → MatchState → List MatchState
  | .sequence nodes, dir, x => outcomesSeq nodes dir x
  | .alternate alts, dir, x => outcomesAlts alts dir x
  | .repeated node min max greedy _, dir, x =>
      repeatOutcomes (outcomes node dir) node.collectCaptures greedy
        (min + ctx.remaining dir x.endIndex + 1) min max x
  | .capture index node, dir, x =>
      (outcomes node dir (x.setCapture index (x.endIndex, x.endIndex))).map fun y =>
        y.setCapture index (span x.endIndex y.endIndex)
  | .lookahead negate node, _, x => assertOutcomes negate (outcomes node .forward x) x
  | .lookbehind negate node, _, x => assertOutcomes negate (outcomes node .backward x) x
  | node, dir, x => (ctx.leafEnds dir x node).map fun pos => { x with endIndex := pos }

def outcomesSeq : List Node → Direction → MatchState → List MatchState
  | [], _, x => [x]
  | node :: nodes, .forward, x =>
      (outcomes node .forward x).flatMap (outcomesSeq nodes .forward)
  | node :: nodes, .backward, x =>
      (outcomesSeq nodes .backward x).flatMap (outcomes node .backward)

def outcomesAlts : List (List Node) → Direction → MatchState → List MatchState
  | [], _, _ => []
  | alt :: alts, dir, x => outcomesSeq alt dir x ++ outcomesAlts alts dir x

end

end Ctx

end Slag.Regexp
