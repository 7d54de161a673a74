import Slag.Regexp.FastPath

/-!
The failure memo. An entry recorded under one continuation is used under
another one; `pendingAgree` says when the two continuations succeed and fail
alike, and `unsoundHit` is a hit no entry of which was recorded under such a
continuation. `searchLoop` is the search over start positions, which keeps the
memo from one attempt to the next.
-/

namespace Slag.Regexp

open Slag.Backtrack

namespace Node

mutual

def beq : Node → Node → Bool
  | .empty, .empty => true
  | .char cp fold, .char cp' fold' => cp == cp' && fold == fold'
  | .any dotAll, .any dotAll' => dotAll == dotAll'
  | .start multiline, .start multiline' => multiline == multiline'
  | .finish multiline, .finish multiline' => multiline == multiline'
  | .wordBoundary extra, .wordBoundary extra' => extra == extra'
  | .notWordBoundary extra, .notWordBoundary extra' => extra == extra'
  | .charClass cls, .charClass cls' => decide (cls = cls')
  | .sequence nodes, .sequence nodes' => beqSeq nodes nodes'
  | .alternate alts, .alternate alts' => beqAlts alts alts'
  | .repeated node min max greedy owned, .repeated node' min' max' greedy' owned' =>
      beq node node' && min == min' && max == max' && greedy == greedy' && owned == owned'
  | .capture index node, .capture index' node' => index == index' && beq node node'
  | .backref indices fold, .backref indices' fold' => indices == indices' && fold == fold'
  | .lookahead negate node, .lookahead negate' node' => negate == negate' && beq node node'
  | .lookbehind negate node, .lookbehind negate' node' => negate == negate' && beq node node'
  | _, _ => false

def beqSeq : List Node → List Node → Bool
  | [], [] => true
  | node :: nodes, node' :: nodes' => beq node node' && beqSeq nodes nodes'
  | _, _ => false

def beqAlts : List (List Node) → List (List Node) → Bool
  | [], [] => true
  | alt :: alts, alt' :: alts' => beqSeq alt alt' && beqAlts alts alts'
  | _, _ => false

end

mutual

theorem beq_iff : ∀ node node' : Node, beq node node' = true ↔ node = node'
  | .sequence nodes, node' => by cases node' <;> simp [beq, beqSeq_iff nodes]
  | .alternate alts, node' => by cases node' <;> simp [beq, beqAlts_iff alts]
  | .repeated node _ _ _ _, node' => by cases node' <;> simp [beq, beq_iff node, and_assoc]
  | .capture _ node, node' => by cases node' <;> simp [beq, beq_iff node]
  | .lookahead _ node, node' => by cases node' <;> simp [beq, beq_iff node]
  | .lookbehind _ node, node' => by cases node' <;> simp [beq, beq_iff node]
  | .empty, node' => by cases node' <;> simp [beq]
  | .char _ _, node' => by cases node' <;> simp [beq]
  | .any _, node' => by cases node' <;> simp [beq]
  | .start _, node' => by cases node' <;> simp [beq]
  | .finish _, node' => by cases node' <;> simp [beq]
  | .wordBoundary _, node' => by cases node' <;> simp [beq]
  | .notWordBoundary _, node' => by cases node' <;> simp [beq]
  | .charClass _, node' => by cases node' <;> simp [beq]
  | .backref _ _, node' => by cases node' <;> simp [beq]

theorem beqSeq_iff : ∀ nodes nodes' : List Node, beqSeq nodes nodes' = true ↔ nodes = nodes'
  | [], nodes' => by cases nodes' <;> simp [beqSeq]
  | node :: nodes, nodes' => by
      cases nodes' <;> simp [beqSeq, beq_iff node, beqSeq_iff nodes]

theorem beqAlts_iff : ∀ alts alts' : List (List Node), beqAlts alts alts' = true ↔ alts = alts'
  | [], alts' => by cases alts' <;> simp [beqAlts]
  | alt :: alts, alts' => by
      cases alts' <;> simp [beqAlts, beqSeq_iff alt, beqAlts_iff alts]

end

instance : DecidableEq Node := fun node node' => decidable_of_iff _ (beq_iff node node')

end Node

deriving instance DecidableEq for NodeRef, Loop

namespace Node

mutual

/-- Every match of the node consumes something. -/
def mustMove : Node → Bool
  | .char _ _ | .any _ => true
  | .charClass cls => cls.strings.isEmpty
  | .sequence nodes => mustMoveSeq nodes
  | .alternate alts => !alts.isEmpty && mustMoveAlts alts
  | .repeated node min _ _ _ => decide (0 < min) && node.mustMove
  | .capture _ node => node.mustMove
  | _ => false

def mustMoveSeq : List Node → Bool
  | [] => false
  | node :: nodes => node.mustMove || mustMoveSeq nodes

def mustMoveAlts : List (List Node) → Bool
  | [] => true
  | alt :: alts => mustMoveSeq alt && mustMoveAlts alts

end

end Node

/-- No way through the task leaves the position where it was. -/
def Task.mustMove (dir : Direction) : Task → Bool
  | .node ref => ref.node.mustMove
  | .seqElem _ nodes index => Node.mustMoveSeq ((Ctx.ordered nodes dir).drop index)
  | .greedyRepeat loop n | .lazyRepeat loop n => decide (n < loop.min) && loop.node.node.mustMove
  | .repeatDone min n => decide (n < min)
  | _ => false

namespace Ctx

variable (ctx : Ctx)

instance (dir : Direction) (p q : Nat) : Decidable (ctx.Moves dir p q) := by
  unfold Moves
  exact inferInstance

/-- A count of iterations that stays below the maximum and the range of the
counter, however the rest of the input is taken. -/
def withinMax (dir : Direction) (loop : Loop) (pos n : Nat) : Bool :=
  decide (n + ctx.remaining dir pos < u32Size) &&
    loop.max.all fun most => decide (n + ctx.remaining dir pos < most)

/-- Two counts that neither the maximum nor the counter tells apart. -/
def boundsAgree (dir : Direction) (loop : Loop) (p n p' n' : Nat) : Bool :=
  (loop.max.isNone && loop.min == 0) || (ctx.withinMax dir loop p n && ctx.withinMax dir loop p' n')

/-- Two counts of a repeat that go on alike. -/
def countsAgree (dir : Direction) (loop : Loop) (pos n n' : Nat) : Bool :=
  n == n' || (decide (loop.min ≤ n) && decide (loop.min ≤ n') &&
    ctx.boundsAgree dir loop pos n pos n')

/-- Both starts of an iteration lie strictly behind its end, which is past
`pos` if `strict`. -/
def bothBehind (dir : Direction) (pos : Nat) (strict : Bool) (start start' : Nat) : Bool :=
  if strict then decide (ctx.Moves dir start pos) && decide (ctx.Moves dir start' pos)
  else decide (ctx.remaining dir pos < ctx.remaining dir start) &&
    decide (ctx.remaining dir pos < ctx.remaining dir start')

/-- Two iterations of a repeat that end alike: the same one, or two that are
both not empty, and with counts that do not matter. -/
def iterationsAgree (dir : Direction) (pos : Nat) (strict : Bool) (loop : Loop)
    (n start n' start' : Nat) : Bool :=
  (ctx.bothBehind dir pos strict start start' &&
    (n == n' || (decide (loop.min ≤ n + 1) && decide (loop.min ≤ n' + 1) &&
      ctx.boundsAgree dir loop start n start' n'))) ||
  (start == start' && decide (ctx.Moves dir start pos) &&
    (n == n' || (decide (loop.min ≤ n) && decide (loop.min ≤ n') &&
      ctx.boundsAgree dir loop start n start' n')))

end Ctx

namespace Matcher

variable (m : Matcher)

/-- The atom of the simple-atom path, where a repeat takes it. -/
def atomOf (loop : Loop) : Option NodeRef :=
  if m.options.fastPath then simpleAtom loop.node.addr loop.node.node else none

/-- Two waiting tasks that succeed and fail alike when they are reached at
`pos` or beyond it, past it if `strict`. With `free` the nodes have no
backreference, so that captures do not matter. -/
def taskAgrees (free : Bool) (dir : Direction) (pos : Nat) (strict : Bool) : Task → Task → Bool
  | .node ref, .node ref' => decide (ref = ref') && (!free || ref.node.isBackrefFree)
  | .seqElem addr nodes index, .seqElem addr' nodes' index' =>
      addr == addr' && decide (nodes = nodes') && index == index' &&
        (!free || Node.isBackrefFreeSeq nodes)
  | .captureClose index _, .captureClose index' _ => index == index'
  | .greedyRepeat loop n, .greedyRepeat loop' n' =>
      decide (loop = loop') && (!free || loop.node.node.isBackrefFree) &&
        ((n == 0 && n' == 0) || ((m.atomOf loop).isNone && m.ctx.countsAgree dir loop pos n n'))
  | .lazyRepeat loop n, .lazyRepeat loop' n' =>
      decide (loop = loop') && (!free || loop.node.node.isBackrefFree) &&
        m.ctx.countsAgree dir loop pos n n'
  | .repeatIterDone loop greedy n start, .repeatIterDone loop' greedy' n' start' =>
      decide (loop = loop') && greedy == greedy' && (!free || loop.node.node.isBackrefFree) &&
        (!greedy || (m.atomOf loop).isNone) &&
        m.ctx.iterationsAgree dir pos strict loop n start n' start'
  | .repeatDone min n, .repeatDone min' n' => decide (min ≤ n) == decide (min' ≤ n')
  | .lazyIterate loop n, .lazyIterate loop' n' =>
      decide (loop = loop') && (!free || loop.node.node.isBackrefFree) &&
        m.ctx.countsAgree dir loop pos n n'
  | _, _ => false

/-- The tasks up to the end of the enclosing lookaround agree. -/
def pendingAgree (dir : Direction) (pos : Nat) : Bool → List Task → List Task → Bool
  | _, [], [] => true
  | _, .assertDone _ _ _ _ _ :: _, .assertDone _ _ _ _ _ :: _ => true
  | strict, task :: tasks, task' :: tasks' =>
      m.taskAgrees true dir pos strict task task' &&
        pendingAgree dir pos (strict || task.mustMove dir) tasks tasks'
  | _, _, _ => false

/-- The entry was recorded for this repeat in this direction, because its
minimum was out of reach or under tasks that agree with the present ones. -/
def justifies (loop : Loop) (c : Cfg) (entry : MemoEntry) : Bool :=
  decide (entry.dir = c.store.dir) && decide (entry.loop = loop) &&
    match entry.pending with
    | none => true
    | some cont =>
        loop.node.node.isBackrefFree && m.pendingAgree c.store.dir c.store.pos
          ((Task.greedyRepeat loop 0).mustMove c.store.dir) cont c.tasks

/-- The memo is about to cut off a repeat on the strength of entries that were
all recorded under other circumstances. -/
def unsoundHit (c : Cfg) : Bool :=
  match c.tasks with
  | .greedyRepeat loop count :: tasks =>
      !loop.atMax count &&
        match m.atomOf loop with
        | some atom => c.remembers atom.addr && !(c.store.memo.any fun entry =>
            entry.atom == atom.addr && entry.pos == c.store.pos &&
              m.justifies loop { c with tasks := tasks } entry)
        | none => false
  | _ => false

/-- The matcher with an always-empty memo. -/
def memoless : Matcher :=
  { m with options := { m.options with memo := false } }

/-- AdvanceStringIndex. -/
def advanceStringIndex (index : Nat) : Nat :=
  if m.ctx.input.length ≤ index then index + 1
  else if m.re.unicode then index + ((m.ctx.codePointAt index).map Prod.snd).getD 0
  else index + 1

/-- How a search ended. -/
inductive Found where
  | exhausted
  | nothing
  | found (start stop : Nat) (captures : List (Option Span))
  deriving DecidableEq, Repr

/-- The prefilter lets a match start at an index. -/
def prefiltered (index : Nat) : Bool :=
  match m.re.prefilter, m.ctx.input[index]? with
  | some set, some unit => !Ctx.rangesContain set unit.toNat
  | _, _ => false

/-- The leftmost search; every round advances, so the input bounds the rounds. -/
def searchLoop : Nat → Nat → Caps → List MemoEntry → Found
  | 0, _, _, _ => .nothing
  | fuel + 1, index, caps, memo =>
      if m.ctx.input.length < index then .nothing
      else if m.prefiltered index then searchLoop fuel (m.advanceStringIndex index) caps memo
      else
        match m.matchAt index caps memo with
        | .matched c => .found index c.store.pos c.store.caps.values
        | .exhausted _ => .exhausted
        | .failed c =>
            if m.ctx.input.length ≤ index then .nothing
            else searchLoop fuel (m.advanceStringIndex index) c.store.caps c.store.memo

def search (start : Nat) (caps : Caps) : Found :=
  m.searchLoop (m.ctx.input.length + 1 - start) start caps []

/-- No attempt of the search takes an unsound hit. -/
def searchAvoids : Nat → Nat → Caps → List MemoEntry → Bool
  | 0, _, _, _ => true
  | fuel + 1, index, caps, memo =>
      if m.ctx.input.length < index then true
      else if m.prefiltered index then searchAvoids fuel (m.advanceStringIndex index) caps memo
      else
        m.machine.avoids choiceLimit m.unsoundHit m.stepLimit (m.startAt index caps memo) &&
          match m.matchAt index caps memo with
          | .failed c =>
              decide (m.ctx.input.length ≤ index) ||
                searchAvoids fuel (m.advanceStringIndex index) c.store.caps c.store.memo
          | _ => true

end Matcher

end Slag.Regexp
