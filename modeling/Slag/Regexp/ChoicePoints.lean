import Slag.Regexp.MemoSound
import Slag.Lib.Moments

/-!
What a choice brings back when it is popped: the position and the tasks it was
recorded at, and the captures, but for those of a simple repeat, which come
back cleared. The direction is not part of a choice.
-/

namespace Slag.Regexp

open Slag.Backtrack

/-- A task that neither belongs to a lookaround nor resumes a simple repeat. -/
def Task.isPlain : Task → Bool
  | .assertDone _ _ _ _ _ | .assertFailed _ _ _ | .fastShrink _ _ _ _ _ _ _ => false
  | _ => true

/-- The captures a choice brings back cleared. -/
def Choice.owned (k : Choice) : List Nat :=
  match k.resume with
  | some (.fastShrink _ _ _ loop _ _ _) => loop.owned
  | _ => []

/-- The direction that is in force once a choice is resumed: a lookaround that
failed goes back to the one around it. -/
def Choice.direction (k : Choice) (dir : Direction) : Direction :=
  match k.resume with
  | some (.assertFailed _ _ outer) => outer
  | _ => dir

def cleared (owned : List Nat) (values : List (Option Span)) : List (Option Span) :=
  owned.foldl (fun captures index => captures.set index none) values

namespace Matcher

variable {m : Matcher}

/-- How the matcher stands when a task records its choices: a simple repeat has
moved and set its captures by then. -/
def recording (m : Matcher) (task : Task) (c : Cfg) : Cfg :=
  match task with
  | .greedyRepeat loop _ => if (m.atomOf loop).isSome then (m.dispatch task c).2 else c
  | .fastShrink _ _ _ _ _ _ _ => (m.dispatch task c).2
  | _ => c

/-- A run with the moments its choices were recorded at. -/
def recordedRun (m : Matcher) (n start : Nat) (caps : Caps) (memo : List MemoEntry) :
    Recorded Task Choice Store :=
  m.machine.recorded m.recording n ⟨.running (m.startAt start caps memo), []⟩

/-- A popped choice `k`, recorded at `p`, has led to `c`. -/
structure Restored (k : Choice) (p c : Cfg) : Prop where
  pos : c.store.pos = p.store.pos
  tasks : c.tasks = k.resume.toList ++ p.tasks
  captures : c.store.caps.values = cleared k.owned p.store.caps.values
  direction : k.direction c.store.dir = p.store.dir

/-- What the choice points of a state amount to. -/
structure ChoicePoints (x : Recorded Task Choice Store) : Prop where
  restored : ∀ c k K, x.state = .failing c → c.choices = k :: K →
    ∃ p P, x.moments = p :: P ∧ Restored k p (backtrack k { c with choices := K })
  decreasing : (x.state.choices.map Choice.mark).Pairwise (· ≥ ·)
  bounded : ∀ c, (x.state = .running c ∨ x.state = .failing c) →
    ∀ k ∈ c.choices, k.mark ≤ c.store.caps.mark

/-- The end of a lookaround finds the choice recorded with it among the choices. -/
inductive Scoped : List Task → List Choice → Prop
  | nil {C : List Choice} : Scoped [] C
  | task {task : Task} {T : List Task} {C : List Choice} (hplain : task.isPlain = true)
      (hrest : Scoped T C) : Scoped (task :: T) C
  | assertDone {negate : Bool} {start mark pos : Nat} {outer : Direction} {T T' : List Task}
      {E L : List Choice} (hrest : Scoped T L) :
      Scoped (.assertDone negate start outer mark L.length :: T)
        (E ++ ⟨pos, mark, T', some (.assertFailed negate start outer)⟩ :: L)

/-- The tasks of a state, the first of which may have been resumed just now. -/
inductive Headed (caps : Caps) : List Task → List Choice → Prop
  | ready {T : List Task} {C : List Choice} (h : Scoped T C) : Headed caps T C
  | assertFailed {negate : Bool} {start : Nat} {outer : Direction} {T : List Task}
      {C : List Choice} (h : Scoped T C) : Headed caps (.assertFailed negate start outer :: T) C
  | fastShrink {atom : NodeRef} {consumed : List Nat} {entryPos : Nat} {loop : Loop}
      {level : Nat} {T : List Task} {C : List Choice} (h : Scoped T C)
      (hcleared : cleared loop.owned caps.values = caps.values) :
      Headed caps (.fastShrink atom consumed entryPos loop caps.mark T level :: T) C

/-- Each choice can be gone back to, in the direction of the choice above it. -/
inductive Stacked : Caps → Direction → List Choice → List Cfg → Prop
  | nil {caps : Caps} {dir : Direction} : Stacked caps dir [] []
  | cons {caps back : Caps} {dir : Direction} {k : Choice} {resume : Task} {p : Cfg}
      {C : List Choice} {P : List Cfg} (hback : back.Extends caps) (hmark : k.mark = back.mark)
      (hpos : k.pos = p.store.pos) (hcont : k.cont = p.tasks)
      (hvalues : back.values = cleared k.owned p.store.caps.values)
      (hdir : k.direction dir = p.store.dir)
      (hresume : k.resume = some resume) (hhead : Headed back (resume :: k.cont) C)
      (hrest : Stacked back (k.direction dir) C P) : Stacked caps dir (k :: C) (p :: P)

def Sound (x : Recorded Task Choice Store) : Prop :=
  match x.state with
  | .running c => Headed c.store.caps c.tasks c.choices ∧
      Stacked c.store.caps (headDir c.tasks c.store.dir) c.choices x.moments
  | .failing c => Stacked c.store.caps c.store.dir c.choices x.moments

section

variable {caps caps' : Caps} {dir : Direction} {T : List Task} {C E : List Choice} {P : List Cfg}
  {s : Store} {task : Task}

theorem Scoped.mono (h : Scoped T C) (E : List Choice) : Scoped T (E ++ C) := by
  induction h generalizing E with
  | nil => exact .nil
  | task hplain _ ih => exact .task hplain (ih E)
  | assertDone hrest _ =>
      rw [← List.append_assoc]
      exact .assertDone hrest

theorem Scoped.headDir (h : Scoped T C) (dir : Direction) : headDir T dir = dir := by
  cases h with
  | nil => rfl
  | task hplain hrest =>
      rename_i task _
      cases task <;> first | rfl | cases hplain
  | assertDone hrest => rfl

variable {k : Choice} {loop : Loop} {atom : NodeRef}

theorem headDir_resume (hresume : k.resume = some task) (T : List Task) (dir : Direction) :
    headDir (task :: T) dir = k.direction dir := by
  rw [Choice.direction, hresume]
  cases task <;> rfl

theorem Stacked.extends (h : Stacked caps dir C P) (hext : caps.Extends caps') :
    Stacked caps' dir C P := by
  cases h with
  | nil => exact .nil
  | cons hback hmark hpos hcont hvalues hdir hresume hhead hrest =>
      exact .cons (hback.trans hext) hmark hpos hcont hvalues hdir hresume hhead hrest

theorem Stacked.suffix (h : Stacked caps dir (E ++ C) P) :
    ∃ back dir', back.Extends caps ∧ Stacked back dir' C (P.drop E.length) := by
  induction E generalizing caps dir P with
  | nil => exact ⟨caps, dir, .refl caps, h⟩
  | cons k E ih =>
      cases h with
      | cons hback _ _ _ _ _ _ _ hrest =>
          obtain ⟨back, dir', hext, hsuffix⟩ := ih hrest
          exact ⟨back, dir', hext.trans hback, hsuffix⟩

theorem Stacked.marks (h : Stacked caps dir C P) :
    (C.map Choice.mark).Pairwise (· ≥ ·) ∧ ∀ k ∈ C, k.mark ≤ caps.mark := by
  induction h with
  | nil => exact ⟨.nil, nofun⟩
  | cons hback hmark _ _ _ _ _ _ _ ih =>
      refine ⟨List.pairwise_cons.mpr ⟨?_, ih.1⟩, List.forall_mem_cons.mpr ⟨?_, ?_⟩⟩
      · intro mark hmem
        obtain ⟨k, hk, rfl⟩ := List.mem_map.mp hmem
        rw [hmark]
        exact ih.2 k hk
      · rw [hmark]
        exact hback.1
      · exact fun k hk => Nat.le_trans (ih.2 k hk) hback.1

theorem direction_plain (hresume : k.resume = some task) (hplain : task.isPlain = true)
    (dir : Direction) : k.direction dir = dir := by
  rw [Choice.direction, hresume]
  cases task <;> first | rfl | cases hplain

theorem owned_plain (hresume : k.resume = some task) (hplain : task.isPlain = true) : k.owned = [] := by
  rw [Choice.owned, hresume]
  cases task <;> first | rfl | cases hplain

/-- A choice recorded at `s` with the tasks `T`. -/
theorem Stacked.record (h : Stacked s.caps s.dir C P) (hT : Scoped T C)
    (hplain : task.isPlain = true) (D : List Choice) :
    Stacked s.caps s.dir (⟨s.pos, s.caps.mark, T, some task⟩ :: C) (⟨T, D, s⟩ :: P) := by
  refine .cons (.refl s.caps) rfl rfl rfl ?_ ?_ rfl (.ready (.task hplain hT)) ?_
  · rw [owned_plain rfl hplain]
    rfl
  · exact direction_plain rfl hplain s.dir
  · rw [direction_plain rfl hplain]
    exact h

variable {resumes : List Task} {count entryPos : Nat} {greedy negate : Bool} {addr consumed : List Nat}

theorem Stacked.recordAll (h : Stacked s.caps s.dir C P) (hT : Scoped T C)
    (hplain : ∀ task ∈ resumes, task.isPlain = true) (D : List Choice) :
    Stacked s.caps s.dir
      ((resumes.map fun task => ⟨s.pos, s.caps.mark, T, some task⟩) ++ C)
      (List.replicate resumes.length ⟨T, D, s⟩ ++ P) := by
  induction resumes with
  | nil => exact h
  | cons task resumes ih =>
      obtain ⟨hhead, htail⟩ := List.forall_mem_cons.mp hplain
      exact (ih htail).record (hT.mono _) hhead D

/-- A lookaround records the choice that goes back to the direction around it. -/
theorem Stacked.recordAssert (h : Stacked s.caps s.dir C P) (hT : Scoped T C) (negate : Bool)
    (start : Nat) (dir : Direction) (D : List Choice) :
    Stacked s.caps dir (⟨s.pos, s.caps.mark, T, some (.assertFailed negate start s.dir)⟩ :: C)
      (⟨T, D, s⟩ :: P) :=
  .cons (.refl s.caps) rfl rfl rfl rfl rfl rfl (.assertFailed hT) h

theorem Scoped.iterate (hT : Scoped T C) {count pos : Nat} :
    Scoped (.node loop.node :: .repeatIterDone loop greedy count pos :: T) C :=
  .task rfl (.task rfl hT)

/-- What a task does to a sound state, with the moments `P` after it. -/
structure Leaves (r : Bool × Cfg) (P : List Cfg) : Prop where
  tasks : r.1 = true → Scoped r.2.tasks r.2.choices
  stacked : Stacked r.2.store.caps r.2.store.dir r.2.choices P

/-- The moments after a task that was run at `c`. -/
def momentsAfter (m : Matcher) (task : Task) (c : Cfg) (P : List Cfg) : List Cfg :=
  List.replicate ((m.dispatch task c).2.choices.length - c.choices.length)
      (m.recording task c) ++
    P.drop (c.choices.length - (m.dispatch task c).2.choices.length)

variable {s' : Store} {T' : List Task} {ok : Bool}

theorem momentsAfter_push {new : List Choice} {p : Cfg}
    (hd : m.dispatch task ⟨T, C, s⟩ = (ok, ⟨T', new ++ C, s'⟩))
    (hp : m.recording task ⟨T, C, s⟩ = p) :
    momentsAfter m task ⟨T, C, s⟩ P = List.replicate new.length p ++ P := by
  rw [momentsAfter, hd, hp]
  simp only [List.length_append, Nat.add_sub_cancel, Nat.sub_eq_zero_of_le (Nat.le_add_left _ _),
    List.drop_zero]

/-- A task that records no choice. -/
theorem Leaves.quiet (hd : m.dispatch task ⟨T, C, s⟩ = (ok, ⟨T', C, s'⟩))
    (hT : ok = true → Scoped T' C) (hext : s.caps.Extends s'.caps) (hdir : s'.dir = s.dir)
    (hC : Stacked s.caps s.dir C P) :
    Leaves (m.dispatch task ⟨T, C, s⟩) (momentsAfter m task ⟨T, C, s⟩ P) := by
  have hnone : m.dispatch task ⟨T, C, s⟩ = (ok, ⟨T', [] ++ C, s'⟩) := hd
  rw [momentsAfter_push hnone rfl, hd]
  refine ⟨hT, ?_⟩
  dsimp only
  rw [hdir]
  exact hC.extends hext

theorem Leaves.stop (hd : m.dispatch task ⟨T, C, s⟩ = (false, ⟨T, C, s⟩))
    (hC : Stacked s.caps s.dir C P) :
    Leaves (m.dispatch task ⟨T, C, s⟩) (momentsAfter m task ⟨T, C, s⟩ P) :=
  .quiet hd nofun (.refl _) rfl hC

/-- A task that tests something. -/
theorem Leaves.test (hd : m.dispatch task ⟨T, C, s⟩ = (ok, ⟨T, C, s⟩)) (hT : Scoped T C)
    (hC : Stacked s.caps s.dir C P) :
    Leaves (m.dispatch task ⟨T, C, s⟩) (momentsAfter m task ⟨T, C, s⟩ P) :=
  .quiet hd (fun _ => hT) (.refl _) rfl hC

/-- One more iteration of a repeat. -/
theorem Leaves.iterate
    (hd : m.dispatch task ⟨T, C, s⟩ = (true, Matcher.iterate loop greedy count ⟨T, C, s⟩))
    (hT : Scoped T C) (hC : Stacked s.caps s.dir C P) :
    Leaves (m.dispatch task ⟨T, C, s⟩) (momentsAfter m task ⟨T, C, s⟩ P) :=
  .quiet hd (fun _ => hT.iterate) (Caps.extends_clearOwned _ _) rfl hC

/-- A task that records choices where it begins. -/
theorem Leaves.records (hd : m.dispatch task ⟨T, C, s⟩ = (ok,
      ⟨T', (resumes.map fun task => ⟨s.pos, s.caps.mark, T, some task⟩) ++ C, s'⟩))
    (hp : m.recording task ⟨T, C, s⟩ = ⟨T, C, s⟩) (hT : Scoped T C)
    (hplain : ∀ task ∈ resumes, task.isPlain = true) (hT' : ∀ D, Scoped T D → Scoped T' D)
    (hext : s.caps.Extends s'.caps) (hdir : s'.dir = s.dir) (hC : Stacked s.caps s.dir C P) :
    Leaves (m.dispatch task ⟨T, C, s⟩) (momentsAfter m task ⟨T, C, s⟩ P) := by
  rw [momentsAfter_push hd hp, hd, List.length_map]
  refine ⟨fun _ => hT' _ (hT.mono _), ?_⟩
  dsimp only
  rw [hdir]
  exact (hC.recordAll hT hplain C).extends hext

theorem Leaves.moveTo (stop : Option Nat)
    (hd : m.dispatch task ⟨T, C, s⟩ = Matcher.moveTo ⟨T, C, s⟩ stop) (hT : Scoped T C)
    (hC : Stacked s.caps s.dir C P) :
    Leaves (m.dispatch task ⟨T, C, s⟩) (momentsAfter m task ⟨T, C, s⟩ P) := by
  cases stop with
  | none => exact .quiet hd nofun (.refl _) rfl hC
  | some pos => exact .quiet hd (fun _ => hT) (.refl _) rfl hC

theorem Leaves.assertStart {ref : NodeRef} {dir : Direction}
    (hd : m.dispatch task ⟨T, C, s⟩ = Matcher.assertStart negate ref dir ⟨T, C, s⟩)
    (hp : m.recording task ⟨T, C, s⟩ = ⟨T, C, s⟩) (hT : Scoped T C) (hC : Stacked s.caps s.dir C P) :
    Leaves (m.dispatch task ⟨T, C, s⟩) (momentsAfter m task ⟨T, C, s⟩ P) := by
  have hone : m.dispatch task ⟨T, C, s⟩ = (true,
      ⟨.node ref :: .assertDone negate s.pos s.dir s.caps.mark C.length :: T,
        [⟨s.pos, s.caps.mark, T, some (.assertFailed negate s.pos s.dir)⟩] ++ C,
        { s with dir := dir }⟩) := hd
  rw [momentsAfter_push hone hp, hone]
  refine ⟨fun _ => .task rfl ?_, hC.recordAssert hT negate s.pos dir C⟩
  exact .assertDone (E := []) hT

/-- The first string found is taken; the others are resumed last listed first. -/
theorem dispatch_classStrings {cls : CharClass} {len : Nat} {others : List Nat}
    (hstrings : m.ctx.classStrings cls s.pos s.dir = len :: others) :
    m.dispatch (.node ⟨addr, .charClass cls⟩) ⟨T, C, s⟩ = (true,
      ⟨T, ((others.map Task.classAdvance).reverse.map fun task =>
        ⟨s.pos, s.caps.mark, T, some task⟩) ++ C,
        { s with pos := Ctx.advance s.pos s.dir len }⟩) := by
  have hpush := pushChoices (T := T) (C := C) (s := s) (others.map Task.classAdvance)
  rw [List.foldl_map] at hpush
  simp only [dispatch, stepNode, hstrings, hpush]
  rfl

theorem dispatch_alternate {alts : List (List Node)} :
    m.dispatch (.node ⟨addr, .alternate alts⟩) ⟨T, C, s⟩ = (true,
      ⟨.seqElem (0 :: addr) (alts.headD []) 0 :: T,
        ((((alts.zipIdx.drop 1).reverse).map fun alt : List Node × Nat =>
          Task.seqElem (alt.2 :: addr) alt.1 0).reverse.map fun task =>
            ⟨s.pos, s.caps.mark, T, some task⟩) ++ C, s⟩) := by
  have hpush := pushChoices (T := T) (C := C) (s := s)
    ((alts.zipIdx.drop 1).reverse.map fun alt : List Node × Nat =>
      Task.seqElem (alt.2 :: addr) alt.1 0)
  rw [List.foldl_map] at hpush
  simp only [dispatch, stepNode, hpush, Cfg.pushTask]

theorem leaves_node (ref : NodeRef) (hT : Scoped T C) (hC : Stacked s.caps s.dir C P) :
    Leaves (m.dispatch (.node ref) ⟨T, C, s⟩) (momentsAfter m (.node ref) ⟨T, C, s⟩ P) := by
  obtain ⟨addr, node⟩ := ref
  cases node with
  | empty | start _ | finish _ | wordBoundary _ | notWordBoundary _ =>
      exact .quiet rfl (fun _ => hT) (.refl _) rfl hC
  | char _ _ | any _ | backref _ _ => exact .moveTo _ rfl hT hC
  | charClass cls =>
      cases hstrings : m.ctx.classStrings cls s.pos s.dir with
      | nil =>
          refine .moveTo (m.ctx.charEnd s.pos s.dir fun ch =>
            m.ctx.classMatches cls s.pos ch s.dir) ?_ hT hC
          simp only [dispatch, stepNode, hstrings]
      | cons len others =>
          refine .records (dispatch_classStrings hstrings) rfl hT ?_ (fun _ => id) (.refl _) rfl hC
          intro task htask
          obtain ⟨len, -, rfl⟩ := List.mem_map.mp (List.mem_reverse.mp htask)
          rfl
  | sequence nodes => exact .quiet rfl (fun _ => .task rfl hT) (.refl _) rfl hC
  | alternate alts =>
      refine .records dispatch_alternate rfl hT ?_ (fun _ hD => .task rfl hD) (.refl _) rfl hC
      intro task htask
      obtain ⟨alt, -, rfl⟩ := List.mem_map.mp (List.mem_reverse.mp htask)
      rfl
  | repeated node min max greedy owned =>
      refine .quiet rfl (fun _ => .task ?_ hT) (.refl _) rfl hC
      cases greedy <;> rfl
  | capture index node =>
      exact .quiet rfl (fun _ => .task rfl (.task rfl hT)) (Caps.extends_set _ _ _) rfl hC
  | lookahead negate node => exact .assertStart rfl rfl hT hC
  | lookbehind negate node => exact .assertStart rfl rfl hT hC

theorem cleared_idem (owned : List Nat) (values : List (Option Span)) :
    cleared owned (cleared owned values) = cleared owned values :=
  clear_setAll owned none values

/-- The captures a simple repeat sets can be cleared again. -/
theorem setFastCaptures_undone (owned consumed : List Nat) (cur : Nat) {caps : Caps}
    (h : cleared owned caps.values = caps.values) :
    caps.Extends (setFastCaptures owned consumed cur caps) ∧
      cleared owned (setFastCaptures owned consumed cur caps).values = caps.values := by
  unfold setFastCaptures
  split
  · exact ⟨.refl caps, h⟩
  · split
    · rename_i start _
      obtain ⟨hext, hvalues⟩ := values_setAll owned (span start cur) caps
      refine ⟨hext, ?_⟩
      rw [hvalues]
      exact (clear_setAll owned _ caps.values).trans h
    · have hsame : caps.resetAll owned = caps := by
        rw [resetAll_eq]
        change Caps.mk (cleared owned caps.values) caps.trail = caps
        rw [h]
      rw [hsame]
      exact ⟨.refl caps, h⟩

theorem leaves_greedySimple
    (hd : m.dispatch (.greedyRepeat loop count) ⟨T, C, s⟩ = m.greedySimple atom loop count ⟨T, C, s⟩)
    (hatom : m.atomOf loop = some atom) (hT : Scoped T C) (hC : Stacked s.caps s.dir C P) :
    Leaves (m.dispatch (.greedyRepeat loop count) ⟨T, C, s⟩)
      (momentsAfter m (.greedyRepeat loop count) ⟨T, C, s⟩ P) := by
  obtain ⟨⟨consumed, cur, cnt⟩, hr⟩ : ∃ r, m.ctx.consumeLoop atom.node s.dir loop.max
    (m.ctx.input.length + 1) s.pos count = r := ⟨_, rfl⟩
  rw [greedySimple_eq m atom loop count T C s hr] at hd
  have hclear := Caps.extends_clearOwned s.caps loop.owned
  have hcleared : cleared loop.owned (s.caps.clearOwned loop.owned).values =
      (s.caps.clearOwned loop.owned).values := by
    rw [Caps.values_clearOwned]
    exact cleared_idem loop.owned s.caps.values
  obtain ⟨hset, hback⟩ := setFastCaptures_undone loop.owned consumed cur hcleared
  by_cases hfew : cnt < loop.min
  · rw [if_pos hfew] at hd
    exact .quiet hd nofun hclear rfl hC
  · rw [if_neg hfew] at hd
    by_cases hmore : loop.min < cnt
    · rw [if_pos hmore] at hd
      have hp : m.recording (.greedyRepeat loop count) ⟨T, C, s⟩ =
          (m.dispatch (.greedyRepeat loop count) ⟨T, C, s⟩).2 := by
        rw [recording, hatom]
        rfl
      rw [momentsAfter_push hd hp, hd]
      refine ⟨fun _ => hT.mono [_], ?_⟩
      exact .cons hset rfl rfl rfl hback.symm rfl rfl (.fastShrink hT hcleared)
        (hC.extends hclear)
    · rw [if_neg hmore] at hd
      exact .quiet hd (fun _ => hT) (hclear.trans hset) rfl hC

theorem shrunkCaps_undone {owned : List Nat} (consumed : List Nat) (level : Nat) {caps : Caps}
    (h : cleared owned caps.values = caps.values) :
    caps.Extends (shrunkCaps owned consumed level caps) ∧
      cleared owned (shrunkCaps owned consumed level caps).values = caps.values := by
  unfold shrunkCaps
  split
  · obtain ⟨hext, hvalues⟩ := values_setAll owned
      (span (consumed.getD (level - 1) 0) (consumed.getD level 0)) caps
    refine ⟨hext, ?_⟩
    rw [hvalues]
    exact (clear_setAll owned _ caps.values).trans h
  · exact ⟨.refl caps, h⟩

theorem dispatch_shrink {mark : Nat} {cont : List Task} {level : Nat} (hmore : ¬ level ≤ loop.min) :
    m.dispatch (.fastShrink atom consumed entryPos loop mark cont level) ⟨T, C, s⟩ =
      (true, ⟨T, [⟨if level - 1 = 0 then entryPos else consumed.getD (level - 1) 0, mark, cont,
          some (.fastShrink atom consumed entryPos loop mark cont (level - 1))⟩] ++ C,
        { s with
          pos := if level - 1 = 0 then entryPos else consumed.getD (level - 1) 0
          caps := shrunkCaps loop.owned consumed (level - 1) s.caps }⟩) := by
  cases level with
  | zero => exact absurd (Nat.zero_le _) hmore
  | succ level => exact dispatch_fastShrink (by omega) s

theorem leaves_fastShrink {level : Nat} (hcleared : cleared loop.owned s.caps.values = s.caps.values)
    (hT : Scoped T C) (hC : Stacked s.caps s.dir C P) :
    Leaves (m.dispatch (.fastShrink atom consumed entryPos loop s.caps.mark T level) ⟨T, C, s⟩)
      (momentsAfter m (.fastShrink atom consumed entryPos loop s.caps.mark T level) ⟨T, C, s⟩
        P) := by
  by_cases hdead : level ≤ loop.min
  · by_cases hmemo : (m.re.backrefFree && m.re.memoSafe.contains atom.addr) = true
    · have hd : m.dispatch (.fastShrink atom consumed entryPos loop s.caps.mark T level) ⟨T, C, s⟩ =
          (false, ⟨T, C,
            { s with memo := ⟨atom.addr, entryPos, s.dir, loop, some T⟩ :: s.memo }⟩) := by
        simp only [dispatch, if_pos hdead, if_pos hmemo]
        rfl
      exact .quiet hd (absurd · Bool.false_ne_true) (.refl _) rfl hC
    · have hd : m.dispatch (.fastShrink atom consumed entryPos loop s.caps.mark T level) ⟨T, C, s⟩ =
          (false, ⟨T, C, s⟩) := by
        simp only [dispatch, if_pos hdead, if_neg hmemo]
      exact .quiet hd (absurd · Bool.false_ne_true) (.refl _) rfl hC
  · obtain ⟨hext, hback⟩ := shrunkCaps_undone consumed (level - 1) hcleared
    rw [momentsAfter_push (dispatch_shrink hdead) rfl]
    simp only [recording, dispatch_shrink hdead]
    refine ⟨fun _ => hT.mono [_], ?_⟩
    exact .cons hext rfl rfl rfl hback.symm rfl rfl (.fastShrink hT hcleared) hC

theorem leaves_assertDone {start mark cut : Nat} {outer : Direction}
    (hT : Scoped (.assertDone negate start outer mark cut :: T) C) (hC : Stacked s.caps s.dir C P) :
    Leaves (m.dispatch (.assertDone negate start outer mark cut) ⟨T, C, s⟩)
      (momentsAfter m (.assertDone negate start outer mark cut) ⟨T, C, s⟩ P) := by
  cases hT with
  | task hplain _ => cases hplain
  | @assertDone _ _ _ pos _ _ T' E L hrest =>
      obtain ⟨back, dir, hext, hsuffix⟩ := hC.suffix
      generalize hdrop : P.drop E.length = Q at hsuffix
      cases hsuffix with
      | @cons _ guard _ _ _ p _ Q hback hmark _ _ _ _ _ _ hbelow =>
          have hmoments : momentsAfter m (.assertDone negate start outer mark L.length)
              ⟨T, E ++ ⟨pos, mark, T', some (.assertFailed negate start outer)⟩ :: L, s⟩ P = Q := by
            have hlength : (E ++ ⟨pos, mark, T', some (.assertFailed negate start outer)⟩ ::
                L).length - L.length = E.length + 1 := by
              rw [List.length_append, List.length_cons]
              omega
            have hchoices : (m.dispatch (.assertDone negate start outer mark L.length) ⟨T, E ++
                ⟨pos, mark, T', some (.assertFailed negate start outer)⟩ :: L, s⟩).2.choices = L := by
              cases negate <;>
                simp only [dispatch, Cfg.setDir, Cfg.setCaps, Cfg.setPos, truncate_append,
                  if_true, Bool.false_eq_true, if_false]
            rw [momentsAfter, hchoices, hlength, ← List.drop_drop, hdrop, List.length_append,
              List.length_cons, Nat.sub_eq_zero_of_le (by omega)]
            rfl
          rw [hmoments]
          have hguard : guard.Extends s.caps := hback.trans hext
          cases negate with
          | false =>
              refine ⟨fun _ => ?_, ?_⟩
              · simp only [dispatch, Cfg.setDir, Cfg.setPos, truncate_append, Bool.false_eq_true,
                  if_false]
                exact hrest
              · simp only [dispatch, Cfg.setDir, Cfg.setPos, truncate_append, Bool.false_eq_true,
                  if_false]
                exact hbelow.extends hguard
          | true =>
              have hroll : s.caps.rollback mark = guard := by
                rw [show mark = guard.mark from hmark]
                exact hguard.2
              refine ⟨(absurd · Bool.false_ne_true), ?_⟩
              simp only [dispatch, Cfg.setDir, Cfg.setCaps, truncate_append, if_true, hroll]
              exact hbelow

theorem Headed.below (h : Headed caps (task :: T) C) (hdone : task.isAssertDone = false) :
    Scoped T C := by
  cases h with
  | ready h =>
      cases h with
      | task _ hrest => exact hrest
      | assertDone _ => cases hdone
  | assertFailed h => exact h
  | fastShrink h _ => exact h

theorem recording_greedy (hatom : m.atomOf loop = none) :
    m.recording (.greedyRepeat loop count) ⟨T, C, s⟩ = ⟨T, C, s⟩ := by
  rw [recording, hatom]
  rfl

/-- A loop over no single atom goes on, and stopping is the other choice. -/
theorem dispatch_greedy (hmax : ¬ loop.atMax count = true) (hatom : m.atomOf loop = none) :
    m.dispatch (.greedyRepeat loop count) ⟨T, C, s⟩ = (true,
      ⟨.node loop.node :: .repeatIterDone loop true count s.pos :: T,
        ([.repeatDone loop.min count].map fun task => ⟨s.pos, s.caps.mark, T, some task⟩) ++ C,
        { s with caps := s.caps.clearOwned loop.owned }⟩) := by
  unfold atomOf at hatom
  simp only [dispatch, if_neg hmax, hatom]
  rfl

theorem dispatch_lazy (hmin : loop.min ≤ count) :
    m.dispatch (.lazyRepeat loop count) ⟨T, C, s⟩ = (true, ⟨T,
      ([.lazyIterate loop count].map fun task => ⟨s.pos, s.caps.mark, T, some task⟩) ++ C, s⟩) := by
  simp only [dispatch, if_pos hmin]
  rfl

theorem dispatch_leaves (hT : Headed s.caps (task :: T) C)
    (hC : Stacked s.caps (Matcher.headDir (task :: T) s.dir) C P) :
    Leaves (m.dispatch task ⟨T, C, s⟩) (momentsAfter m task ⟨T, C, s⟩ P) := by
  cases task with
  | node ref => exact leaves_node ref (hT.below rfl) hC
  | seqElem addr nodes index =>
      have hbelow := hT.below rfl
      by_cases hmore : index < nodes.length
      · exact .quiet (by simp only [dispatch, if_pos hmore]; rfl)
          (fun _ => .task rfl (.task rfl hbelow)) (.refl _) rfl hC
      · exact .quiet (by simp only [dispatch, if_neg hmore]; rfl) (fun _ => hbelow) (.refl _) rfl hC
  | captureClose index start =>
      exact .quiet rfl (fun _ => hT.below rfl) (Caps.extends_set _ _ _) rfl hC
  | greedyRepeat loop count =>
      have hbelow := hT.below rfl
      by_cases hmax : loop.atMax count = true
      · exact .test (by simp only [dispatch, if_pos hmax]; rfl) hbelow hC
      · cases hatom : m.atomOf loop with
        | some atom =>
            by_cases hhit : (m.options.memo && Cfg.remembers ⟨T, C, s⟩ atom.addr) = true
            · refine .stop ?_ hC
              unfold atomOf at hatom
              simp only [dispatch, if_neg hmax, hatom, if_pos hhit]
            · refine leaves_greedySimple ?_ hatom hbelow hC
              unfold atomOf at hatom
              simp only [dispatch, if_neg hmax, hatom, if_neg hhit]
        | none =>
            exact .records (dispatch_greedy hmax hatom) (recording_greedy hatom) hbelow
              (List.forall_mem_singleton.mpr rfl) (fun _ hD => hD.iterate) (Caps.extends_clearOwned _ _) rfl hC
  | lazyRepeat loop count =>
      have hbelow := hT.below rfl
      by_cases hmin : loop.min ≤ count
      · exact .records (dispatch_lazy hmin) rfl hbelow (List.forall_mem_singleton.mpr rfl)
          (fun _ => id) (.refl _) rfl hC
      · by_cases hmax : loop.atMax count = true
        · exact .stop (by simp only [dispatch, if_neg hmin, if_pos hmax]) hC
        · exact .iterate (by simp only [dispatch, if_neg hmin, if_neg hmax]; rfl) hbelow hC
  | repeatIterDone loop greedy count iterStart =>
      have hbelow := hT.below rfl
      by_cases hreject : (s.pos == iterStart && decide (loop.min ≤ count)) = true
      · exact .stop (by simp only [dispatch, hreject, if_true]) hC
      · by_cases hleave : (s.pos == iterStart && decide (loop.min ≤ count + 1)) = true
        · exact .test (by simp only [dispatch, hreject, hleave, if_true]; rfl) hbelow hC
        · refine .quiet (by simp only [dispatch, hreject, hleave]; rfl)
            (fun _ => .task ?_ hbelow) (.refl _) rfl hC
          cases greedy <;> rfl
  | assertDone negate start outer mark cut =>
      cases hT with
      | ready h => exact leaves_assertDone h hC
  | repeatDone min count => exact .quiet rfl (fun _ => hT.below rfl) (.refl _) rfl hC
  | lazyIterate loop count =>
      have hbelow := hT.below rfl
      by_cases hmax : loop.atMax count = true
      · exact .stop (by simp only [dispatch, if_pos hmax]) hC
      · exact .iterate (by simp only [dispatch, if_neg hmax]; rfl) hbelow hC
  | assertFailed negate start outer =>
      have hd : m.dispatch (.assertFailed negate start outer) ⟨T, C, s⟩ =
          (negate, ⟨T, [] ++ C, { s with pos := start, dir := outer }⟩) := rfl
      rw [momentsAfter_push hd rfl, hd]
      exact ⟨fun _ => hT.below rfl, hC⟩
  | classAdvance len => exact .quiet rfl (fun _ => hT.below rfl) (.refl _) rfl hC
  | fastShrink atom consumed entryPos loop mark cont level =>
      cases hT with
      | ready h =>
          cases h with
          | task hplain _ => cases hplain
      | fastShrink h hcleared => exact leaves_fastShrink hcleared h hC

/-- A popped choice brings back the moment it was recorded at. -/
theorem Stacked.pop {p : Cfg} (h : Stacked s.caps s.dir (k :: C) (p :: P)) :
    Restored k p (backtrack k ⟨T, C, s⟩) ∧
      Sound ⟨.running (backtrack k ⟨T, C, s⟩), P⟩ := by
  cases h with
  | @cons _ back _ _ resume _ _ _ hback hmark hpos hcont hvalues hdir hresume hhead hrest =>
      have hroll : s.caps.rollback k.mark = back := by
        rw [hmark]
        exact hback.2
      refine ⟨⟨hpos, ?_, ?_, hdir⟩, ?_, ?_⟩
      · rw [← hcont]
        rfl
      · simp only [backtrack, hroll]
        exact hvalues
      · simp only [backtrack, hroll, hresume, Option.toList_some, List.singleton_append]
        exact hhead
      · simp only [backtrack, hroll, hresume, Option.toList_some, List.singleton_append,
          headDir_resume hresume]
        exact hrest

theorem Sound.step {x y : Recorded Task Choice Store} (h : Sound x)
    (hy : m.machine.recordStep m.recording x = some y) : Sound y := by
  obtain ⟨state, P⟩ := x
  cases state with
  | running c =>
      obtain ⟨T, C, s⟩ := c
      cases T with
      | nil => cases hy
      | cons task T =>
          obtain ⟨htasks, hstacked⟩ := h
          have hleaves := dispatch_leaves (m := m) htasks hstacked
          have hy' : y = ⟨outcome (m.dispatch task ⟨T, C, s⟩), momentsAfter m task ⟨T, C, s⟩ P⟩ :=
            (Option.some.inj hy).symm
          rw [hy']
          generalize momentsAfter m task ⟨T, C, s⟩ P = Q at hleaves
          generalize m.dispatch task ⟨T, C, s⟩ = r at hleaves
          obtain ⟨ok, next⟩ := r
          cases ok with
          | false => exact hleaves.stacked
          | true =>
              have hscoped := hleaves.tasks rfl
              refine ⟨.ready hscoped, ?_⟩
              dsimp only
              rw [hscoped.headDir]
              exact hleaves.stacked
  | failing c =>
      obtain ⟨T, C, s⟩ := c
      cases C with
      | nil => cases hy
      | cons k C =>
          cases P with
          | nil => cases h
          | cons p P =>
              obtain rfl := Option.some.inj hy
              exact (Stacked.pop h).2

theorem Sound.choicePoints {x : Recorded Task Choice Store} (h : Sound x) : ChoicePoints x := by
  obtain ⟨state, P⟩ := x
  cases state with
  | running c =>
      obtain ⟨hdecreasing, hbounded⟩ := Stacked.marks h.2
      refine ⟨nofun, hdecreasing, ?_⟩
      rintro _ (⟨⟨⟩⟩ | ⟨⟨⟩⟩)
      exact hbounded
  | failing c =>
      obtain ⟨hdecreasing, hbounded⟩ := Stacked.marks h
      refine ⟨?_, hdecreasing, ?_⟩
      · rintro _ k K ⟨⟩ hchoices
        obtain ⟨T, C, s⟩ := c
        dsimp only at hchoices
        subst hchoices
        cases P with
        | nil => cases h
        | cons p P => exact ⟨p, P, rfl, (Stacked.pop h).1⟩
      · rintro _ (⟨⟨⟩⟩ | ⟨⟨⟩⟩)
        exact hbounded

end

/-- In every run, whatever it starts from. -/
theorem choice_points (m : Matcher) (n start : Nat) (caps : Caps) (memo : List MemoEntry) :
    ChoicePoints (m.recordedRun n start caps memo) := by
  have hstart : Sound ⟨.running (m.startAt start caps memo), []⟩ :=
    ⟨.ready (.task rfl .nil), .nil⟩
  exact (Backtracker.recorded_invariant (fun _ _ => Sound.step) hstart n).choicePoints

end Matcher

/-- `(a)*b` on `a`: the repeat records its choice once it has set the group, which
the choice brings back cleared. -/
theorem shrink_choice_clears_group :
    ∃ c k K p P,
      (plainMatcher (.sequence [greedyRepeat (.capture 1 (literal 'a')) 0 none, literal 'b']) 1 [97]
        {}).recordedRun 6 0 (Caps.new 1) [] = ⟨.failing c, p :: P⟩ ∧
      c.choices = k :: K ∧
      (Matcher.backtrack k { c with choices := K }).store.caps.values ≠ p.store.caps.values := by
  refine ⟨_, _, _, _, _, rfl, rfl, ?_⟩
  decide

end Slag.Regexp
