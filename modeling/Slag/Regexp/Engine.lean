import Slag.Lib.Backtrack
import Slag.Regexp.Node

/-!
The backtracking engine: a task stack for the forward path, a stack of choice
points, and captures with an undo log. `Options` switches the simple-atom path
and the failure memo off, so that each can be compared with the matcher
without it.
-/

namespace Slag.Regexp

open Slag.Backtrack

abbrev Span := Nat × Nat

/-- Capture buffer with an undo log, last entry first. -/
structure Caps where
  values : List (Option Span)
  trail : List (Nat × Option Span)
  deriving DecidableEq, Repr

namespace Caps

def new (groups : Nat) : Caps where
  values := List.replicate (groups + 1) none
  trail := []

/-- The store of a boolean match of a pattern without backreferences. -/
def disabled : Caps where
  values := []
  trail := []

def get (caps : Caps) (index : Nat) : Option Span :=
  (caps.values[index]?).join

def mark (caps : Caps) : Nat :=
  caps.trail.length

def undo (mark : Nat) : List (Nat × Option Span) → List (Option Span) → Caps
  | [], values => ⟨values, []⟩
  | (index, old) :: trail, values =>
      if mark < trail.length + 1 then undo mark trail (values.set index old)
      else ⟨values, (index, old) :: trail⟩

def rollback (caps : Caps) (mark : Nat) : Caps :=
  undo mark caps.trail caps.values

def set (caps : Caps) (index : Nat) (value : Span) : Caps :=
  if caps.values.isEmpty then caps
  else ⟨caps.values.set index (some value), (index, caps.get index) :: caps.trail⟩

def clearOne (caps : Caps) (index : Nat) : Caps :=
  match caps.get index with
  | some old => ⟨caps.values.set index none, (index, some old) :: caps.trail⟩
  | none => caps

/-- Clear the captures a repeated atom owns, with undo entries. -/
def clearOwned (caps : Caps) (owned : List Nat) : Caps :=
  if caps.values.isEmpty then caps else owned.foldl clearOne caps

/-- Clear a capture without an undo entry. -/
def reset (caps : Caps) (index : Nat) : Caps :=
  if caps.values.isEmpty then caps else { caps with values := caps.values.set index none }

def setAll (caps : Caps) (owned : List Nat) (value : Span) : Caps :=
  owned.foldl (fun caps index => caps.set index value) caps

def resetAll (caps : Caps) (owned : List Nat) : Caps :=
  owned.foldl reset caps

end Caps

/-- The span between two positions, whichever way it was matched. -/
def span (a b : Nat) : Span :=
  (Nat.min a b, Nat.max a b)

/-- A repeat as its tasks carry it. -/
structure Loop where
  node : NodeRef
  owned : List Nat
  min : Nat
  max : Option Nat

namespace Loop

/-- No further iteration is allowed after `count` of them. -/
def atMax (loop : Loop) (count : Nat) : Bool :=
  loop.max.any fun m => decide (m ≤ count)

end Loop

/-- The forward path. -/
inductive Task where
  | node (ref : NodeRef)
  | seqElem (addr : List Nat) (nodes : List Node) (index : Nat)
  | captureClose (index start : Nat)
  | greedyRepeat (loop : Loop) (count : Nat)
  | lazyRepeat (loop : Loop) (count : Nat)
  | repeatIterDone (loop : Loop) (greedy : Bool) (count iterStart : Nat)
  | assertDone (negate : Bool) (start : Nat) (outerDir : Direction) (mark cut : Nat)
  | repeatDone (min count : Nat)
  | lazyIterate (loop : Loop) (count : Nat)
  | assertFailed (negate : Bool) (start : Nat) (outerDir : Direction)
  | classAdvance (len : Nat)
  | fastShrink (atom : NodeRef) (consumed : List Nat) (entryPos : Nat) (loop : Loop)
      (baseMark : Nat) (cont : List Task) (level : Nat)

/-- A choice point: the forward path to resume from. -/
structure Choice where
  pos : Nat
  mark : Nat
  cont : List Task
  resume : Option Task

/-- A key of the failure memo: the repeat of an atom failed at a position. The
engine keeps only the key; how it came to be recorded is kept for the statements
about it: the direction, the repeat, and the tasks below it, none when it was
recorded because the minimum was out of reach. -/
structure MemoEntry where
  atom : List Nat
  pos : Nat
  dir : Direction
  loop : Loop
  pending : Option (List Task)

structure Store where
  pos : Nat
  dir : Direction
  caps : Caps
  memo : List MemoEntry

abbrev Cfg := Config Task Choice Store

structure Regex where
  program : Node
  unicode : Bool
  capturingGroups : Nat
  backrefFree : Bool
  memoSafe : List (List Nat)
  prefilter : Option (List (Nat × Nat))

structure Options where
  fastPath : Bool := true
  memo : Bool := true

/-- What a matcher works with besides its state. -/
structure Matcher where
  re : Regex
  ctx : Ctx
  options : Options := {}

def u32Size : Nat := 2 ^ 32

namespace Cfg

def pushTask (c : Cfg) (task : Task) : Cfg :=
  { c with tasks := task :: c.tasks }

/-- Record a choice point that runs `resume` on top of the current path. -/
def pushChoice (c : Cfg) (resume : Task) : Cfg :=
  { c with choices := ⟨c.store.pos, c.store.caps.mark, c.tasks, some resume⟩ :: c.choices }

def setPos (c : Cfg) (pos : Nat) : Cfg :=
  { c with store := { c.store with pos := pos } }

def setDir (c : Cfg) (dir : Direction) : Cfg :=
  { c with store := { c.store with dir := dir } }

def setCaps (c : Cfg) (caps : Caps) : Cfg :=
  { c with store := { c.store with caps := caps } }

def remember (c : Cfg) (atom : List Nat) (pos : Nat) (loop : Loop)
    (pending : Option (List Task)) : Cfg :=
  { c with store :=
    { c.store with memo := ⟨atom, pos, c.store.dir, loop, pending⟩ :: c.store.memo } }

/-- The memo holds the repeat of an atom at the current position. -/
def remembers (c : Cfg) (atom : List Nat) : Bool :=
  c.store.memo.any fun entry => entry.atom == atom && entry.pos == c.store.pos

/-- Keep the oldest `cut` choices. -/
def truncate (c : Cfg) (cut : Nat) : Cfg :=
  { c with choices := c.choices.drop (c.choices.length - cut) }

end Cfg

namespace Ctx

variable (ctx : Ctx)

/-- Where one character that passes a test leaves the position. -/
def charEnd (pos : Nat) (dir : Direction) (test : Nat → Bool) : Option Nat :=
  match ctx.readCharDir pos dir with
  | some (c, len) => if test c then some (advance pos dir len) else none
  | none => none

def charTest (cp : Nat) (fold : Bool) (c : Nat) : Bool :=
  (if fold then ctx.canonicalize ctx.unicode c else c) == cp

def anyTest (dotAll : Bool) (c : Nat) : Bool :=
  dotAll || !isLineTerminator c

mutual

/-- The endpoint a simple atom matches at `pos`. -/
def simpleEnd (dir : Direction) : Node → Nat → Option Nat
  | .char cp fold, pos => ctx.charEnd pos dir (ctx.charTest cp fold)
  | .any dotAll, pos => ctx.charEnd pos dir (anyTest dotAll)
  | .charClass cls, pos => ctx.charEnd pos dir fun c => ctx.classMatches cls pos c dir
  | .sequence nodes, pos => simpleEndSeq dir nodes pos
  | _, _ => none

/-- The elements are taken in source order, whatever the direction. -/
def simpleEndSeq (dir : Direction) : List Node → Nat → Option Nat
  | [], pos => some pos
  | node :: nodes, pos =>
      match simpleEnd dir node pos with
      | some p => simpleEndSeq dir nodes p
      | none => none

end

/-- The starts of the iterations a simple atom takes from `cur`, where the last
one ends, and the count. Each iteration moves, so the input bounds the loop. -/
def consumeLoop (atom : Node) (dir : Direction) (max : Option Nat) :
    Nat → Nat → Nat → List Nat × Nat × Nat
  | 0, cur, cnt => ([], cur, cnt)
  | fuel + 1, cur, cnt =>
      if max.all fun n => decide (cnt < n) then
        match ctx.simpleEnd dir atom cur with
        | some stop =>
            let (starts, last, total) := consumeLoop atom dir max fuel stop ((cnt + 1) % u32Size)
            (cur :: starts, last, total)
        | none => ([], cur, cnt)
      else ([], cur, cnt)

def isBoundary (pos : Nat) (extraFolded : Bool) : Bool :=
  let before := decide (0 < pos) && ctx.isWordCharAt (pos - 1) extraFolded
  let after := decide (pos < ctx.input.length) && ctx.isWordCharAt pos extraFolded
  before != after

/-- The first of some groups that took part. A number that has no slot is an index
out of range, where the source panics: there is no answer. -/
def firstSet (values : List (Option Span)) : List Nat → Option (Option Span)
  | [] => some none
  | i :: indices =>
      match values[i]? with
      | none => none
      | some none => firstSet values indices
      | some (some group) => some (some group)

/-- The group a backreference binds to: the last of its groups that took part. -/
def chosenGroup (values : List (Option Span)) (indices : List Nat) : Option (Option Span) :=
  firstSet values indices.reverse

/-- Where a backreference ends. The machine has no panics: a group without a slot
fails here, and what is said of backreferences excludes it. -/
def backrefEnd (indices : List Nat) (fold : Bool) (pos : Nat) (dir : Direction)
    (values : List (Option Span)) : Option Nat :=
  match chosenGroup values indices with
  | none => none
  | some none => some pos
  | some (some (s, e)) =>
      let len := e - s
      let windowStart := match dir with
        | .forward => pos
        | .backward => pos - len
      let windowEnd := match dir with
        | .forward => pos + len
        | .backward => pos
      -- A window below the start of the input wraps around and is refused.
      if ctx.input.length < windowEnd ∨ (dir = .backward ∧ pos < len) then none
      else
        let captured := (ctx.input.take e).drop s
        let window := (ctx.input.take windowEnd).drop windowStart
        if ctx.unitsEq captured window fold then some (advance pos dir len) else none

/-- The lengths of the class strings found at a position. -/
def classStrings (cls : CharClass) (pos : Nat) (dir : Direction) : List Nat :=
  if cls.negated then []
  else (cls.strings.filter fun string => ctx.stringAtDir pos string dir).map ctx.stringUnits

end Ctx

namespace Matcher

variable (m : Matcher)

/-- The captures the continuation of a simple repeat sees. -/
def setFastCaptures (owned consumed : List Nat) (cur : Nat) (caps : Caps) : Caps :=
  if owned.isEmpty then caps
  else
    match consumed.getLast? with
    | some start => caps.setAll owned (span start cur)
    | none => caps.resetAll owned

/-- The simple-atom repeat: consume iteratively, then one choice per shrink level. -/
def greedySimple (atom : NodeRef) (loop : Loop) (count : Nat) (c : Cfg) : Bool × Cfg :=
  let entryPos := c.store.pos
  let c := c.setCaps (c.store.caps.clearOwned loop.owned)
  let (consumed, cur, cnt) :=
    m.ctx.consumeLoop atom.node c.store.dir loop.max (m.ctx.input.length + 1) entryPos count
  let c := c.setPos cur
  if cnt < loop.min then (false, c.remember atom.addr entryPos loop none)
  else if loop.min < cnt then
    let baseMark := c.store.caps.mark
    let c := c.setCaps (setFastCaptures loop.owned consumed cur c.store.caps)
    (true, { c with choices := ⟨cur, baseMark, c.tasks,
      some (.fastShrink atom consumed entryPos loop baseMark c.tasks cnt)⟩ :: c.choices })
  else (true, c.setCaps (setFastCaptures loop.owned consumed cur c.store.caps))

/-- One more iteration of a repeat. -/
def iterate (loop : Loop) (greedy : Bool) (count : Nat) (c : Cfg) : Cfg :=
  ((c.setCaps (c.store.caps.clearOwned loop.owned)).pushTask
    (.repeatIterDone loop greedy count c.store.pos)).pushTask (.node loop.node)

/-- Begin a lookaround. -/
def assertStart (negate : Bool) (ref : NodeRef) (subDir : Direction) (c : Cfg) : Bool × Cfg :=
  let mark := c.store.caps.mark
  let cut := c.choices.length
  let start := c.store.pos
  let outerDir := c.store.dir
  let c := c.pushChoice (.assertFailed negate start outerDir)
  (true, ((c.pushTask (.assertDone negate start outerDir mark cut)).pushTask (.node ref)).setDir
    subDir)

/-- Move to an endpoint, or fail. -/
def moveTo (c : Cfg) : Option Nat → Bool × Cfg
  | some pos => (true, c.setPos pos)
  | none => (false, c)

/-- Execute one node. -/
def stepNode (ref : NodeRef) (c : Cfg) : Bool × Cfg :=
  let pos := c.store.pos
  let dir := c.store.dir
  match ref.node with
  | .empty => (true, c)
  | .char cp fold => moveTo c (m.ctx.charEnd pos dir (m.ctx.charTest cp fold))
  | .any dotAll => moveTo c (m.ctx.charEnd pos dir (Ctx.anyTest dotAll))
  | .start multiline =>
      (pos == 0 || (multiline && m.ctx.isLineTerminatorAt (pos - 1)), c)
  | .finish multiline =>
      (pos == m.ctx.input.length ||
        (multiline && decide (pos < m.ctx.input.length) && m.ctx.isLineTerminatorAt pos), c)
  | .wordBoundary extraFolded => (m.ctx.isBoundary pos extraFolded, c)
  | .notWordBoundary extraFolded => (!m.ctx.isBoundary pos extraFolded, c)
  | .charClass cls =>
      -- The first string found commits; each later one is pushed as a choice.
      match m.ctx.classStrings cls pos dir with
      | len :: others =>
          let c := others.foldl (fun c len => c.pushChoice (.classAdvance len)) c
          (true, c.setPos (Ctx.advance pos dir len))
      | [] => moveTo c (m.ctx.charEnd pos dir fun ch => m.ctx.classMatches cls pos ch dir)
  | .sequence nodes => (true, c.pushTask (.seqElem ref.addr nodes 0))
  | .alternate alts =>
      -- The choices are pushed last alternative first.
      let c' := (alts.zipIdx.drop 1).reverse.foldl
        (fun c alt => c.pushChoice (.seqElem (alt.2 :: ref.addr) alt.1 0)) c
      (true, c'.pushTask (.seqElem (0 :: ref.addr) (alts.headD []) 0))
  | .repeated node min max greedy owned =>
      let loop : Loop := ⟨⟨0 :: ref.addr, node⟩, owned, min, max⟩
      (true, c.pushTask (if greedy then .greedyRepeat loop 0 else .lazyRepeat loop 0))
  | .capture index node =>
      (true, ((c.setCaps (c.store.caps.set index (pos, pos))).pushTask
        (.captureClose index pos)).pushTask (.node ⟨0 :: ref.addr, node⟩))
  | .backref indices fold => moveTo c (m.ctx.backrefEnd indices fold pos dir c.store.caps.values)
  | .lookahead negate node => assertStart negate ⟨0 :: ref.addr, node⟩ .forward c
  | .lookbehind negate node => assertStart negate ⟨0 :: ref.addr, node⟩ .backward c

/-- In reverse direction the terms of a sequence match right-to-left. -/
def seqIndex (nodes : List Node) (index : Nat) : Direction → Nat
  | .forward => index
  | .backward => nodes.length - 1 - index

/-- Execute one task. -/
def dispatch (task : Task) (c : Cfg) : Bool × Cfg :=
  let pos := c.store.pos
  match task with
  | .node ref => m.stepNode ref c
  | .seqElem addr nodes index =>
      if index < nodes.length then
        let nodeIndex := seqIndex nodes index c.store.dir
        (true, (c.pushTask (.seqElem addr nodes (index + 1))).pushTask
          (.node ⟨nodeIndex :: addr, nodes.getD nodeIndex .empty⟩))
      else (true, c)
  | .captureClose index start => (true, c.setCaps (c.store.caps.set index (span start pos)))
  | .greedyRepeat loop count =>
      if loop.atMax count then (decide (loop.min ≤ count), c)
      else
        match if m.options.fastPath then simpleAtom loop.node.addr loop.node.node else none with
        | some atom =>
            if m.options.memo && c.remembers atom.addr then (false, c)
            else m.greedySimple atom loop count c
        | none => (true, iterate loop true count (c.pushChoice (.repeatDone loop.min count)))
  | .lazyRepeat loop count =>
      if loop.min ≤ count then (true, c.pushChoice (.lazyIterate loop count))
      else if loop.atMax count then (false, c)
      else (true, iterate loop false count c)
  | .repeatIterDone loop greedy count iterStart =>
      let isEmpty := pos == iterStart
      if isEmpty && decide (loop.min ≤ count) then (false, c)
      else if isEmpty && decide (loop.min ≤ count + 1) then (true, c)
      else
        let nextCount := if isEmpty then loop.min - 1 else (count + 1) % u32Size
        (true, c.pushTask (if greedy then .greedyRepeat loop nextCount
          else .lazyRepeat loop nextCount))
  | .assertDone negate start outerDir mark cut =>
      let c := c.setDir outerDir
      if negate then (false, (c.setCaps (c.store.caps.rollback mark)).truncate cut)
      else (true, (c.setPos start).truncate cut)
  | .repeatDone min count => (decide (min ≤ count), c)
  | .lazyIterate loop count =>
      if loop.atMax count then (false, c) else (true, iterate loop false count c)
  | .assertFailed negate start outerDir => (negate, (c.setPos start).setDir outerDir)
  | .classAdvance len => (true, c.setPos (Ctx.advance pos c.store.dir len))
  | .fastShrink atom consumed entryPos loop baseMark cont level =>
      if level ≤ loop.min then
        -- Every shrink level is dead.
        if m.re.backrefFree && m.re.memoSafe.contains atom.addr then
          (false, c.remember atom.addr entryPos loop (some cont))
        else (false, c)
      else
        let level := level - 1
        let pos := if level = 0 then entryPos else consumed.getD level 0
        let c := c.setPos pos
        let c := if 0 < level then
            c.setCaps (c.store.caps.setAll loop.owned
              (span (consumed.getD (level - 1) 0) (consumed.getD level 0)))
          else c
        (true, { c with choices := ⟨pos, baseMark, cont,
          some (.fastShrink atom consumed entryPos loop baseMark cont level)⟩ :: c.choices })

/-- Restore a choice point. -/
def backtrack (choice : Choice) (c : Cfg) : Cfg where
  tasks := choice.resume.toList ++ choice.cont
  choices := c.choices
  store := { c.store with pos := choice.pos, caps := c.store.caps.rollback choice.mark }

def machine : Backtracker Task Choice Store where
  dispatch := m.dispatch
  restore := backtrack

def choiceLimit : Nat := 2 ^ 22

def stepLimit : Nat := 5000000 + m.ctx.input.length * 64

/-- The configuration a match attempt starts from; the memo is kept. -/
def startAt (start : Nat) (caps : Caps) (memo : List MemoEntry) : Cfg where
  tasks := [.node ⟨[], m.re.program⟩]
  choices := []
  store := ⟨start, .forward, caps.rollback 0, memo⟩

def matchAt (start : Nat) (caps : Caps) (memo : List MemoEntry) :
    Backtracker.Answer Task Choice Store :=
  m.machine.run choiceLimit m.stepLimit (m.startAt start caps memo)

end Matcher

end Slag.Regexp
