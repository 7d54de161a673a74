import Slag.Regexp.ChoicePoints
import Slag.Regexp.ClassStrings

/-!
Positions and captures stay inside the input: at every state of a run, and at
every moment a choice can go back to.
-/

namespace Slag.Regexp

open Slag.Backtrack

/-- A span of the input. -/
def Ctx.Inside (ctx : Ctx) (span : Span) : Prop :=
  span.1 ≤ span.2 ∧ span.2 ≤ ctx.input.length

def Ctx.CapturesInside (ctx : Ctx) (values : List (Option Span)) : Prop :=
  ∀ span, some span ∈ values → ctx.Inside span

variable {caps : Caps}

namespace Ctx

variable {ctx : Ctx} {pos c len : Nat} {dir : Direction}

theorem unit_inside {u : Nat} (h : ctx.unit pos = some u) : pos < ctx.input.length := by
  unfold unit at h
  obtain ⟨_, hget, -⟩ := Option.map_eq_some_iff.mp h
  exact (List.getElem?_eq_some_iff.mp hget).1

theorem readChar_inside (h : ctx.readChar pos = some (c, len)) :
    pos + len ≤ ctx.input.length := by
  unfold readChar at h
  split at h
  · unfold codePointAt at h
    split at h
    · cases h
    · rename_i hi hhi
      have hpos := unit_inside hhi
      split at h
      · split at h
        · rename_i lo hlo
          have hnext := unit_inside hlo
          split at h <;>
          · simp only [Option.some.injEq, Prod.mk.injEq] at h
            omega
        · simp only [Option.some.injEq, Prod.mk.injEq] at h
          omega
      · simp only [Option.some.injEq, Prod.mk.injEq] at h
        omega
  · obtain ⟨u, hu, heq⟩ := Option.map_eq_some_iff.mp h
    have hpos := unit_inside hu
    simp only [Prod.mk.injEq] at heq
    omega

theorem advance_inside (h : ctx.readCharDir pos dir = some (c, len))
    (hpos : pos ≤ ctx.input.length) : advance pos dir len ≤ ctx.input.length := by
  cases dir with
  | forward => exact readChar_inside h
  | backward => exact Nat.le_trans (Nat.sub_le pos len) hpos

theorem charEnd_inside {test : Nat → Bool} {stop : Nat}
    (h : ctx.charEnd pos dir test = some stop) (hpos : pos ≤ ctx.input.length) :
    stop ≤ ctx.input.length := by
  unfold charEnd at h
  split at h
  · rename_i c len hread
    split at h
    · cases h
      exact advance_inside hread hpos
    · cases h
  · cases h

theorem stringAt_inside {string : List Nat} (h : ctx.stringAt string pos = true)
    (hpos : pos ≤ ctx.input.length) : pos + ctx.stringUnits string ≤ ctx.input.length := by
  induction string generalizing pos with
  | nil =>
      have hnil : ctx.stringUnits [] = 0 := by unfold stringUnits; split <;> rfl
      rw [hnil]
      exact hpos
  | cons want rest ih =>
      unfold stringAt at h
      cases hread : ctx.readChar pos with
      | none =>
          rw [hread] at h
          cases h
      | some char =>
          obtain ⟨c, len⟩ := char
          simp only [hread, Bool.and_eq_true, beq_iff_eq] at h
          obtain ⟨rfl, h⟩ := h
          have hrest := ih h (readChar_inside hread)
          rw [stringUnits_cons, ← readChar_units hread]
          omega

theorem classStrings_inside {cls : CharClass} (h : len ∈ ctx.classStrings cls pos dir)
    (hpos : pos ≤ ctx.input.length) : advance pos dir len ≤ ctx.input.length := by
  unfold classStrings at h
  split at h
  · cases h
  · obtain ⟨string, hmem, rfl⟩ := List.mem_map.mp h
    cases dir with
    | forward => exact stringAt_inside (List.mem_filter.mp hmem).2 hpos
    | backward => exact Nat.le_trans (Nat.sub_le _ _) hpos

theorem backrefEnd_inside {indices : List Nat} {fold : Bool} {values : List (Option Span)}
    {stop : Nat} (h : ctx.backrefEnd indices fold pos dir values = some stop)
    (hpos : pos ≤ ctx.input.length) : stop ≤ ctx.input.length := by
  rcases hgroup : chosenGroup values indices with _ | _ | group
  · simp only [backrefEnd, hgroup, reduceCtorEq] at h
  · simp only [backrefEnd, hgroup, Option.some.injEq] at h
    exact h ▸ hpos
  · obtain ⟨a, b⟩ := group
    cases dir with
    | forward =>
        simp only [backrefEnd, hgroup, reduceCtorEq, false_and, or_false] at h
        split at h
        · cases h
        · split at h
          · cases h
            simp only [advance]
            omega
          · cases h
    | backward =>
        simp only [backrefEnd, hgroup, true_and] at h
        split at h
        · cases h
        · split at h
          · cases h
            exact Nat.le_trans (Nat.sub_le _ _) hpos
          · cases h

mutual

theorem simpleEnd_inside : ∀ (node : Node) {pos stop : Nat},
    ctx.simpleEnd dir node pos = some stop → pos ≤ ctx.input.length → stop ≤ ctx.input.length
  | .char _ _, _, _, h, hpos => by
      unfold simpleEnd at h
      exact charEnd_inside h hpos
  | .any _, _, _, h, hpos => by
      unfold simpleEnd at h
      exact charEnd_inside h hpos
  | .charClass _, _, _, h, hpos => by
      unfold simpleEnd at h
      exact charEnd_inside h hpos
  | .sequence nodes, _, _, h, hpos => by
      unfold simpleEnd at h
      exact simpleEndSeq_inside nodes h hpos
  | .empty, _, _, h, _ | .start _, _, _, h, _ | .finish _, _, _, h, _
  | .wordBoundary _, _, _, h, _ | .notWordBoundary _, _, _, h, _ | .alternate _, _, _, h, _
  | .repeated _ _ _ _ _, _, _, h, _ | .capture _ _, _, _, h, _ | .backref _ _, _, _, h, _
  | .lookahead _ _, _, _, h, _ | .lookbehind _ _, _, _, h, _ => by
      simp only [simpleEnd] at h
      cases h

theorem simpleEndSeq_inside : ∀ (nodes : List Node) {pos stop : Nat},
    ctx.simpleEndSeq dir nodes pos = some stop → pos ≤ ctx.input.length → stop ≤ ctx.input.length
  | [], _, _, h, hpos => by
      simp only [simpleEndSeq, Option.some.injEq] at h
      exact h ▸ hpos
  | node :: nodes, _, _, h, hpos => by
      simp only [simpleEndSeq] at h
      split at h
      · rename_i p hp
        exact simpleEndSeq_inside nodes h (simpleEnd_inside node hp hpos)
      · cases h

end

/-- The iterations of a simple repeat begin and end inside the input. -/
theorem consumeLoop_inside {atom : Node} {max : Option Nat} {fuel cur cnt : Nat}
    {starts : List Nat} {last total : Nat}
    (h : ctx.consumeLoop atom dir max fuel cur cnt = (starts, last, total))
    (hcur : cur ≤ ctx.input.length) :
    (∀ p ∈ starts, p ≤ ctx.input.length) ∧ last ≤ ctx.input.length := by
  induction fuel generalizing cur cnt starts last total with
  | zero =>
      cases h
      exact ⟨nofun, hcur⟩
  | succ fuel ih =>
      rw [consumeLoop] at h
      split at h
      · split at h
        · rename_i stop hstop
          have hnext := simpleEnd_inside atom hstop hcur
          have hrest := ih (rfl : ctx.consumeLoop atom dir max fuel stop ((cnt + 1) % u32Size) = _)
            hnext
          cases h
          exact ⟨List.forall_mem_cons.mpr ⟨hcur, hrest.1⟩, hrest.2⟩
        · cases h
          exact ⟨nofun, hcur⟩
      · cases h
        exact ⟨nofun, hcur⟩

theorem inside_span {a b : Nat} (ha : a ≤ ctx.input.length) (hb : b ≤ ctx.input.length) :
    ctx.Inside (span a b) :=
  ⟨Nat.le_trans (Nat.min_le_left a b) (Nat.le_max_left a b), Nat.max_le.mpr ⟨ha, hb⟩⟩

namespace CapturesInside

variable {values : List (Option Span)}

variable {value : Option Span}

theorem set (h : ctx.CapturesInside values) (index : Nat)
    (hvalue : ∀ span, value = some span → ctx.Inside span) :
    ctx.CapturesInside (values.set index value) := by
  intro span hmem
  cases List.mem_or_eq_of_mem_set hmem with
  | inl hold => exact h span hold
  | inr hnew => exact hvalue span hnew.symm

theorem foldl_set (h : ctx.CapturesInside values) (owned : List Nat)
    (hvalue : ∀ span, value = some span → ctx.Inside span) :
    ctx.CapturesInside (owned.foldl (fun captures index => captures.set index value) values) := by
  induction owned generalizing values with
  | nil => exact h
  | cons index owned ih => exact ih (h.set index hvalue)

theorem cleared (h : ctx.CapturesInside values) (owned : List Nat) :
    ctx.CapturesInside (cleared owned values) :=
  h.foldl_set owned nofun

theorem clearOwned (h : ctx.CapturesInside caps.values) (owned : List Nat) :
    ctx.CapturesInside (caps.clearOwned owned).values := by
  rw [Caps.values_clearOwned]
  exact h.cleared owned

theorem setCapture (h : ctx.CapturesInside caps.values) (index : Nat) {a b : Nat}
    (ha : a ≤ ctx.input.length) (hb : b ≤ ctx.input.length) :
    ctx.CapturesInside (caps.set index (span a b)).values := by
  rw [Caps.values_set]
  apply h.set index
  rintro _ ⟨⟩
  exact inside_span ha hb

theorem setAll (h : ctx.CapturesInside caps.values) (owned : List Nat) {a b : Nat}
    (ha : a ≤ ctx.input.length) (hb : b ≤ ctx.input.length) :
    ctx.CapturesInside (caps.setAll owned (span a b)).values := by
  rw [(Matcher.values_setAll owned (span a b) caps).2]
  apply h.foldl_set owned
  rintro _ ⟨⟩
  exact inside_span ha hb

theorem setFastCaptures (h : ctx.CapturesInside caps.values) (owned consumed : List Nat) {cur : Nat}
    (hconsumed : ∀ p ∈ consumed, p ≤ ctx.input.length) (hcur : cur ≤ ctx.input.length) :
    ctx.CapturesInside (Matcher.setFastCaptures owned consumed cur caps).values := by
  unfold Matcher.setFastCaptures
  split
  · exact h
  · split
    · rename_i start hlast
      exact h.setAll owned (hconsumed start (List.mem_of_getLast? hlast)) hcur
    · rw [Matcher.resetAll_eq]
      exact h.cleared owned

end CapturesInside

end Ctx

namespace Matcher

section

variable (ctx : Ctx)

/-- The positions a pending task keeps. -/
def TaskInside : Task → Prop
  | .captureClose _ start | .assertDone _ start _ _ _ => start ≤ ctx.input.length
  | .classAdvance _ | .assertFailed _ _ _ | .fastShrink _ _ _ _ _ _ _ => False
  | _ => True

/-- The same of a task that is run next. -/
def ResumeInside (pos : Nat) (dir : Direction) : Task → Prop
  | .classAdvance len => Ctx.advance pos dir len ≤ ctx.input.length
  | .assertFailed _ start _ => start ≤ ctx.input.length
  | .fastShrink _ consumed entryPos _ _ _ _ =>
      entryPos ≤ ctx.input.length ∧ ∀ p ∈ consumed, p ≤ ctx.input.length
  | task => TaskInside ctx task

structure CfgInside (c : Cfg) : Prop where
  pos : c.store.pos ≤ ctx.input.length
  captures : ctx.CapturesInside c.store.caps.values
  tasks : ∀ task ∈ c.tasks, TaskInside ctx task

/-- The moments of the choices, and what their tasks keep. -/
def ChoicesInside (C : List Choice) (P : List Cfg) : Prop :=
  List.Forall₂ (fun k p => CfgInside ctx p ∧
    ∀ resume ∈ k.resume, ResumeInside ctx p.store.pos p.store.dir resume) C P

def RunningInside (c : Cfg) : Prop :=
  match c.tasks with
  | [] => CfgInside ctx c
  | task :: T => ResumeInside ctx c.store.pos c.store.dir task ∧ CfgInside ctx { c with tasks := T }

def StateInside (x : Recorded Task Choice Store) : Prop :=
  match x.state with
  | .running c => RunningInside ctx c ∧ ChoicesInside ctx c.choices x.moments
  | .failing c => ChoicesInside ctx c.choices x.moments

/-- What a task leaves inside, with the moments `P` after it. -/
structure Stays (r : Bool × Cfg) (P : List Cfg) : Prop where
  running : r.1 = true → CfgInside ctx r.2
  choices : ChoicesInside ctx r.2.choices P

end

variable {m : Matcher} {T T' : List Task} {C C' E : List Choice} {P : List Cfg} {s s' : Store}
  {task : Task} {ok : Bool} {c : Cfg}

variable {ctx : Ctx} {loop : Loop}

theorem TaskInside.resume (h : TaskInside ctx task) (pos : Nat) (dir : Direction) :
    ResumeInside ctx pos dir task := by
  cases task with
  | classAdvance _ | assertFailed _ _ _ | fastShrink _ _ _ _ _ _ _ => exact h.elim
  | node _ | seqElem _ _ _ | captureClose _ _ | greedyRepeat _ _ | lazyRepeat _ _
  | repeatIterDone _ _ _ _ | assertDone _ _ _ _ _ | repeatDone _ _ | lazyIterate _ _ => exact h

theorem CfgInside.running (h : CfgInside ctx c) : RunningInside ctx c := by
  unfold RunningInside
  split
  · exact h
  · rename_i task T htasks
    have htask := List.forall_mem_cons.mp (htasks ▸ h.tasks)
    exact ⟨htask.1.resume _ _, h.pos, h.captures, htask.2⟩

theorem CfgInside.push (h : CfgInside ctx ⟨T, C, s⟩) (htask : TaskInside ctx task) :
    CfgInside ctx ⟨task :: T, C, s⟩ :=
  ⟨h.pos, h.captures, List.forall_mem_cons.mpr ⟨htask, h.tasks⟩⟩

theorem CfgInside.choices (h : CfgInside ctx ⟨T, C, s⟩) (C' : List Choice) :
    CfgInside ctx ⟨T, C', s⟩ :=
  ⟨h.pos, h.captures, h.tasks⟩

theorem CfgInside.move (h : CfgInside ctx ⟨T, C, s⟩) {pos : Nat} (hpos : pos ≤ ctx.input.length) :
    CfgInside ctx ⟨T, C, { s with pos := pos }⟩ :=
  ⟨hpos, h.captures, h.tasks⟩

theorem CfgInside.clear (h : CfgInside ctx ⟨T, C, s⟩) (owned : List Nat) :
    CfgInside ctx ⟨T, C, { s with caps := s.caps.clearOwned owned }⟩ :=
  ⟨h.pos, h.captures.clearOwned owned, h.tasks⟩

/-- A task that records no choice. -/
theorem Stays.quiet (hd : m.dispatch task ⟨T, C, s⟩ = (ok, ⟨T', C, s'⟩))
    (hc : ok = true → CfgInside m.ctx ⟨T', C, s'⟩) (hC : ChoicesInside m.ctx C P) :
    Stays m.ctx (m.dispatch task ⟨T, C, s⟩) (momentsAfter m task ⟨T, C, s⟩ P) := by
  have hnone : m.dispatch task ⟨T, C, s⟩ = (ok, ⟨T', [] ++ C, s'⟩) := hd
  rw [momentsAfter_push hnone rfl, hd]
  exact ⟨hc, hC⟩

theorem Stays.stop (hd : m.dispatch task ⟨T, C, s⟩ = (false, ⟨T, C, s⟩))
    (hC : ChoicesInside m.ctx C P) :
    Stays m.ctx (m.dispatch task ⟨T, C, s⟩) (momentsAfter m task ⟨T, C, s⟩ P) :=
  .quiet hd nofun hC

/-- A task that records choices where it begins. -/
theorem Stays.records {resumes : List Task}
    (hd : m.dispatch task ⟨T, C, s⟩ = (ok,
      ⟨T', (resumes.map fun task => ⟨s.pos, s.caps.mark, T, some task⟩) ++ C, s'⟩))
    (hp : m.recording task ⟨T, C, s⟩ = ⟨T, C, s⟩) (hc : CfgInside m.ctx ⟨T, C, s⟩)
    (hresumes : ∀ task ∈ resumes, ResumeInside m.ctx s.pos s.dir task)
    (hc' : CfgInside m.ctx ⟨T', C, s'⟩) (hC : ChoicesInside m.ctx C P) :
    Stays m.ctx (m.dispatch task ⟨T, C, s⟩) (momentsAfter m task ⟨T, C, s⟩ P) := by
  rw [momentsAfter_push hd hp, hd, List.length_map]
  refine ⟨fun _ => hc'.choices _, ?_⟩
  clear hd
  induction resumes with
  | nil => exact hC
  | cons resume resumes ih =>
      obtain ⟨hhead, htail⟩ := List.forall_mem_cons.mp hresumes
      refine .cons ⟨hc, ?_⟩ (ih htail)
      rintro _ ⟨⟩
      exact hhead

theorem Stays.moveTo (stop : Option Nat)
    (hd : m.dispatch task ⟨T, C, s⟩ = Matcher.moveTo ⟨T, C, s⟩ stop)
    (hstop : ∀ pos, stop = some pos → pos ≤ m.ctx.input.length)
    (hc : CfgInside m.ctx ⟨T, C, s⟩) (hC : ChoicesInside m.ctx C P) :
    Stays m.ctx (m.dispatch task ⟨T, C, s⟩) (momentsAfter m task ⟨T, C, s⟩ P) := by
  cases stop with
  | none => exact .quiet hd nofun hC
  | some pos => exact .quiet hd (fun _ => hc.move (hstop pos rfl)) hC

variable {negate : Bool} {atom : NodeRef} {consumed : List Nat}

theorem Stays.assertStart {ref : NodeRef} {dir : Direction}
    (hd : m.dispatch task ⟨T, C, s⟩ = Matcher.assertStart negate ref dir ⟨T, C, s⟩)
    (hp : m.recording task ⟨T, C, s⟩ = ⟨T, C, s⟩) (hc : CfgInside m.ctx ⟨T, C, s⟩)
    (hC : ChoicesInside m.ctx C P) :
    Stays m.ctx (m.dispatch task ⟨T, C, s⟩) (momentsAfter m task ⟨T, C, s⟩ P) := by
  have hone : m.dispatch task ⟨T, C, s⟩ = (true,
      ⟨.node ref :: .assertDone negate s.pos s.dir s.caps.mark C.length :: T,
        ([.assertFailed negate s.pos s.dir].map fun task =>
          ⟨s.pos, s.caps.mark, T, some task⟩) ++ C,
        { s with dir := dir }⟩) := hd
  refine .records hone hp hc (List.forall_mem_singleton.mpr hc.pos) ?_ hC
  exact ⟨hc.pos, hc.captures,
    List.forall_mem_cons.mpr ⟨trivial, List.forall_mem_cons.mpr ⟨hc.pos, hc.tasks⟩⟩⟩

theorem Stays.iterate {greedy : Bool} {count : Nat}
    (hd : m.dispatch task ⟨T, C, s⟩ = (true, Matcher.iterate loop greedy count ⟨T, C, s⟩))
    (hc : CfgInside m.ctx ⟨T, C, s⟩) (hC : ChoicesInside m.ctx C P) :
    Stays m.ctx (m.dispatch task ⟨T, C, s⟩) (momentsAfter m task ⟨T, C, s⟩ P) := by
  have hdone : CfgInside m.ctx ⟨.repeatIterDone loop greedy count s.pos :: T, C,
      { s with caps := s.caps.clearOwned loop.owned }⟩ :=
    (hc.clear loop.owned).push trivial
  exact .quiet hd (fun _ => hdone.push trivial) hC

theorem stays_node (ref : NodeRef) (hc : CfgInside m.ctx ⟨T, C, s⟩)
    (hC : ChoicesInside m.ctx C P) :
    Stays m.ctx (m.dispatch (.node ref) ⟨T, C, s⟩) (momentsAfter m (.node ref) ⟨T, C, s⟩ P) := by
  obtain ⟨addr, node⟩ := ref
  cases node with
  | empty | start _ | finish _ | wordBoundary _ | notWordBoundary _ =>
      exact .quiet rfl (fun _ => hc) hC
  | char _ _ | any _ => exact .moveTo _ rfl (fun _ h => Ctx.charEnd_inside h hc.pos) hc hC
  | backref _ _ => exact .moveTo _ rfl (fun _ h => Ctx.backrefEnd_inside h hc.pos) hc hC
  | charClass cls =>
      cases hstrings : m.ctx.classStrings cls s.pos s.dir with
      | nil =>
          refine .moveTo (m.ctx.charEnd s.pos s.dir fun ch =>
            m.ctx.classMatches cls s.pos ch s.dir) ?_ (fun _ h => Ctx.charEnd_inside h hc.pos) hc hC
          simp only [dispatch, stepNode, hstrings]
      | cons len others =>
          have hinside : ∀ len' ∈ len :: others, Ctx.advance s.pos s.dir len' ≤ m.ctx.input.length :=
            fun len' hlen => Ctx.classStrings_inside (hstrings ▸ hlen) hc.pos
          have hmoved := hc.move (hinside len List.mem_cons_self)
          refine .records (dispatch_classStrings hstrings) rfl hc ?_ hmoved hC
          intro task htask
          obtain ⟨len', hlen, rfl⟩ := List.mem_map.mp (List.mem_reverse.mp htask)
          exact hinside len' (List.mem_cons_of_mem len hlen)
  | sequence nodes => exact .quiet rfl (fun _ => hc.push trivial) hC
  | alternate alts =>
      refine .records dispatch_alternate rfl hc ?_ (hc.push trivial) hC
      intro task htask
      obtain ⟨alt, -, rfl⟩ := List.mem_map.mp (List.mem_reverse.mp htask)
      trivial
  | repeated node min max greedy owned =>
      refine .quiet rfl (fun _ => hc.push ?_) hC
      cases greedy <;> trivial
  | capture index node =>
      refine .quiet rfl (fun _ => ?_) hC
      have hset : CfgInside m.ctx
          ⟨T, C, { s with caps := s.caps.set index (s.pos, s.pos) }⟩ := by
        refine ⟨hc.pos, ?_, hc.tasks⟩
        have hspan : span s.pos s.pos = (s.pos, s.pos) := by
          simp only [span, Nat.min_self, Nat.max_self]
        rw [← hspan]
        exact hc.captures.setCapture index hc.pos hc.pos
      have hclose : CfgInside m.ctx ⟨.captureClose index s.pos :: T, C,
          { s with caps := s.caps.set index (s.pos, s.pos) }⟩ :=
        hset.push hc.pos
      exact hclose.push trivial
  | lookahead negate node => exact .assertStart rfl rfl hc hC
  | lookbehind negate node => exact .assertStart rfl rfl hc hC

theorem stays_greedySimple {count : Nat}
    (hd : m.dispatch (.greedyRepeat loop count) ⟨T, C, s⟩ = m.greedySimple atom loop count ⟨T, C, s⟩)
    (hatom : m.atomOf loop = some atom) (hc : CfgInside m.ctx ⟨T, C, s⟩) (hC : ChoicesInside m.ctx C P) :
    Stays m.ctx (m.dispatch (.greedyRepeat loop count) ⟨T, C, s⟩)
      (momentsAfter m (.greedyRepeat loop count) ⟨T, C, s⟩ P) := by
  obtain ⟨⟨consumed, cur, cnt⟩, hr⟩ : ∃ r, m.ctx.consumeLoop atom.node s.dir loop.max
    (m.ctx.input.length + 1) s.pos count = r := ⟨_, rfl⟩
  obtain ⟨hconsumed, hcur⟩ := Ctx.consumeLoop_inside hr hc.pos
  rw [greedySimple_eq m atom loop count T C s hr] at hd
  have hc' : CfgInside m.ctx ⟨T, C, { s with
      pos := cur
      caps := setFastCaptures loop.owned consumed cur (s.caps.clearOwned loop.owned) }⟩ :=
    ⟨hcur, (hc.captures.clearOwned loop.owned).setFastCaptures loop.owned consumed hconsumed hcur,
      hc.tasks⟩
  by_cases hfew : cnt < loop.min
  · rw [if_pos hfew] at hd
    exact .quiet hd nofun hC
  · rw [if_neg hfew] at hd
    by_cases hmore : loop.min < cnt
    · rw [if_pos hmore] at hd
      have hp : m.recording (.greedyRepeat loop count) ⟨T, C, s⟩ =
          (m.dispatch (.greedyRepeat loop count) ⟨T, C, s⟩).2 := by
        rw [recording, hatom]
        rfl
      rw [momentsAfter_push hd hp, hd]
      refine ⟨fun _ => hc'.choices _, .cons ⟨hc'.choices _, ?_⟩ hC⟩
      rintro _ ⟨⟩
      exact ⟨hc.pos, hconsumed⟩
    · rw [if_neg hmore] at hd
      exact .quiet hd (fun _ => hc') hC

theorem getD_inside (h : ∀ p ∈ consumed, p ≤ ctx.input.length) (level : Nat) :
    consumed.getD level 0 ≤ ctx.input.length := by
  rw [List.getD_eq_getElem?_getD]
  cases hget : consumed[level]? with
  | none => exact Nat.zero_le _
  | some p => exact h p (List.mem_of_getElem? hget)

theorem stays_fastShrink {entryPos : Nat} {mark level : Nat} {cont : List Task}
    (hentry : entryPos ≤ m.ctx.input.length) (hconsumed : ∀ p ∈ consumed, p ≤ m.ctx.input.length)
    (hc : CfgInside m.ctx ⟨T, C, s⟩) (hC : ChoicesInside m.ctx C P) :
    Stays m.ctx (m.dispatch (.fastShrink atom consumed entryPos loop mark cont level) ⟨T, C, s⟩)
      (momentsAfter m (.fastShrink atom consumed entryPos loop mark cont level) ⟨T, C, s⟩ P) := by
  by_cases hdead : level ≤ loop.min
  · obtain ⟨memo, hd⟩ : ∃ memo,
        m.dispatch (.fastShrink atom consumed entryPos loop mark cont level) ⟨T, C, s⟩ =
          (false, ⟨T, C, { s with memo := memo }⟩) := by
      simp only [dispatch, if_pos hdead]
      split <;> exact ⟨_, rfl⟩
    exact .quiet hd (absurd · Bool.false_ne_true) hC
  · have hc' : CfgInside m.ctx ⟨T, C, { s with
        pos := if level - 1 = 0 then entryPos else consumed.getD (level - 1) 0
        caps := shrunkCaps loop.owned consumed (level - 1) s.caps }⟩ := by
      refine ⟨?_, ?_, hc.tasks⟩
      · dsimp only
        split
        · exact hentry
        · exact getD_inside hconsumed _
      · simp only [shrunkCaps]
        split
        · exact hc.captures.setAll loop.owned (getD_inside hconsumed _) (getD_inside hconsumed _)
        · exact hc.captures
    rw [momentsAfter_push (dispatch_shrink hdead) rfl]
    simp only [recording, dispatch_shrink hdead]
    refine ⟨fun _ => hc'.choices _, .cons ⟨hc'.choices _, ?_⟩ hC⟩
    rintro _ ⟨⟩
    exact ⟨hentry, hconsumed⟩

theorem stays_assertDone {start mark cut : Nat} {outer : Direction}
    (hstart : start ≤ m.ctx.input.length) (hc : CfgInside m.ctx ⟨T, C, s⟩)
    (hC : ChoicesInside m.ctx C P) :
    Stays m.ctx (m.dispatch (.assertDone negate start outer mark cut) ⟨T, C, s⟩)
      (momentsAfter m (.assertDone negate start outer mark cut) ⟨T, C, s⟩ P) := by
  have hdrop : ∃ ok s', m.dispatch (.assertDone negate start outer mark cut) ⟨T, C, s⟩ =
      (ok, ⟨T, C.drop (C.length - cut), s'⟩) ∧
      (ok = true → CfgInside m.ctx ⟨T, C.drop (C.length - cut), s'⟩) := by
    cases negate with
    | false => exact ⟨true, _, rfl, fun _ => ⟨hstart, hc.captures, hc.tasks⟩⟩
    | true => exact ⟨false, _, rfl, nofun⟩
  obtain ⟨ok, s', hd, hrunning⟩ := hdrop
  have hmoments : momentsAfter m (.assertDone negate start outer mark cut) ⟨T, C, s⟩ P =
      P.drop (C.length - cut) := by
    rw [momentsAfter, hd]
    have hpush : (C.drop (C.length - cut)).length - C.length = 0 := by
      rw [List.length_drop]
      omega
    have hlength : C.length - (C.drop (C.length - cut)).length = C.length - cut := by
      rw [List.length_drop]
      omega
    simp only [hpush, hlength, List.replicate_zero, List.nil_append]
  rw [hmoments, hd]
  exact ⟨hrunning, List.forall₂_drop _ hC⟩

theorem dispatch_stays (ht : ResumeInside m.ctx s.pos s.dir task)
    (hc : CfgInside m.ctx ⟨T, C, s⟩) (hC : ChoicesInside m.ctx C P) :
    Stays m.ctx (m.dispatch task ⟨T, C, s⟩) (momentsAfter m task ⟨T, C, s⟩ P) := by
  cases task with
  | node ref => exact stays_node ref hc hC
  | seqElem addr nodes index =>
      by_cases hmore : index < nodes.length
      · refine .quiet (by simp only [dispatch, if_pos hmore]; rfl) (fun _ => ?_) hC
        have hrest : CfgInside m.ctx ⟨.seqElem addr nodes (index + 1) :: T, C, s⟩ := hc.push trivial
        exact hrest.push trivial
      · exact .quiet (by simp only [dispatch, if_neg hmore]; rfl) (fun _ => hc) hC
  | captureClose index start =>
      exact .quiet rfl (fun _ => ⟨hc.pos, hc.captures.setCapture index ht hc.pos, hc.tasks⟩) hC
  | greedyRepeat loop count =>
      by_cases hmax : loop.atMax count = true
      · exact .quiet (by simp only [dispatch, if_pos hmax]; rfl) (fun _ => hc) hC
      · cases hatom : m.atomOf loop with
        | some atom =>
            by_cases hhit : (m.options.memo && Cfg.remembers ⟨T, C, s⟩ atom.addr) = true
            · refine .stop ?_ hC
              unfold atomOf at hatom
              simp only [dispatch, if_neg hmax, hatom, if_pos hhit]
            · refine stays_greedySimple ?_ hatom hc hC
              unfold atomOf at hatom
              simp only [dispatch, if_neg hmax, hatom, if_neg hhit]
        | none =>
            have hdone : CfgInside m.ctx ⟨.repeatIterDone loop true count s.pos :: T, C,
                { s with caps := s.caps.clearOwned loop.owned }⟩ :=
              (hc.clear loop.owned).push trivial
            exact .records (dispatch_greedy hmax hatom) (recording_greedy hatom) hc
              (List.forall_mem_singleton.mpr trivial) (hdone.push trivial) hC
  | lazyRepeat loop count =>
      by_cases hmin : loop.min ≤ count
      · exact .records (dispatch_lazy hmin) rfl hc (List.forall_mem_singleton.mpr trivial) hc hC
      · by_cases hmax : loop.atMax count = true
        · exact .quiet (by simp only [dispatch, if_neg hmin, if_pos hmax]; rfl) (fun _ => hc) hC
        · exact .iterate (by simp only [dispatch, if_neg hmin, if_neg hmax]; rfl) hc hC
  | repeatIterDone loop greedy count iterStart =>
      by_cases hreject : (s.pos == iterStart && decide (loop.min ≤ count)) = true
      · exact .quiet (by simp only [dispatch, hreject, if_true]; rfl) (fun _ => hc) hC
      · by_cases hleave : (s.pos == iterStart && decide (loop.min ≤ count + 1)) = true
        · exact .quiet (by simp only [dispatch, hreject, hleave, if_true]; rfl) (fun _ => hc) hC
        · refine .quiet (by simp only [dispatch, hreject, hleave]; rfl) (fun _ => hc.push ?_) hC
          cases greedy <;> trivial
  | assertDone negate start outer mark cut => exact stays_assertDone ht hc hC
  | repeatDone min count => exact .quiet rfl (fun _ => hc) hC
  | lazyIterate loop count =>
      by_cases hmax : loop.atMax count = true
      · exact .quiet (by simp only [dispatch, if_pos hmax]; rfl) (fun _ => hc) hC
      · exact .iterate (by simp only [dispatch, if_neg hmax]; rfl) hc hC
  | assertFailed negate start outer => exact .quiet rfl (fun _ => ⟨ht, hc.captures, hc.tasks⟩) hC
  | classAdvance len => exact .quiet rfl (fun _ => hc.move ht) hC
  | fastShrink atom consumed entryPos loop mark cont level =>
      exact stays_fastShrink ht.1 ht.2 hc hC

/-- A popped choice is back inside the input. -/
theorem Restored.inside {k : Choice} {p c : Cfg} (h : Restored k p c) (hp : CfgInside ctx p)
    (hresume : ∀ task ∈ k.resume, ResumeInside ctx p.store.pos p.store.dir task) :
    RunningInside ctx c := by
  have hbelow : CfgInside ctx { c with tasks := p.tasks } := by
    refine ⟨?_, ?_, hp.tasks⟩
    · dsimp only
      rw [h.pos]
      exact hp.pos
    · dsimp only
      rw [h.captures]
      exact hp.captures.cleared k.owned
  cases htask : k.resume with
  | none =>
      have hc : c = { c with tasks := p.tasks } := by
        have htasks := h.tasks
        rw [htask] at htasks
        rw [show p.tasks = c.tasks from htasks.symm]
      rw [hc]
      exact hbelow.running
  | some task =>
      have htasks : c.tasks = task :: p.tasks := by
        rw [h.tasks, htask]
        rfl
      have hinside := hresume task htask
      have hdir := h.direction
      rw [Choice.direction, htask] at hdir
      unfold RunningInside
      rw [htasks]
      refine ⟨?_, hbelow⟩
      rw [h.pos]
      cases task with
      | classAdvance _ =>
          dsimp only at hdir
          rw [hdir]
          exact hinside
      | node _ | seqElem _ _ _ | captureClose _ _ | greedyRepeat _ _ | lazyRepeat _ _
      | repeatIterDone _ _ _ _ | assertDone _ _ _ _ _ | repeatDone _ _ | lazyIterate _ _
      | assertFailed _ _ _ | fastShrink _ _ _ _ _ _ _ => exact hinside

theorem StateInside.step {x y : Recorded Task Choice Store} (hsound : Sound x)
    (h : StateInside m.ctx x) (hy : m.machine.recordStep m.recording x = some y) :
    StateInside m.ctx y := by
  obtain ⟨state, P⟩ := x
  cases state with
  | running c =>
      obtain ⟨T, C, s⟩ := c
      cases T with
      | nil => cases hy
      | cons task T =>
          obtain ⟨⟨htask, hc⟩, hC⟩ := h
          have hstays := dispatch_stays (m := m) htask hc hC
          have hy' : y = ⟨outcome (m.dispatch task ⟨T, C, s⟩), momentsAfter m task ⟨T, C, s⟩ P⟩ :=
            (Option.some.inj hy).symm
          rw [hy']
          generalize momentsAfter m task ⟨T, C, s⟩ P = Q at hstays
          generalize m.dispatch task ⟨T, C, s⟩ = r at hstays
          obtain ⟨ok, next⟩ := r
          cases ok with
          | false => exact hstays.choices
          | true => exact ⟨(hstays.running rfl).running, hstays.choices⟩
  | failing c =>
      obtain ⟨T, C, s⟩ := c
      cases C with
      | nil => cases hy
      | cons k C =>
          cases h with
          | @cons _ p _ P hp hC =>
              obtain rfl := Option.some.inj hy
              exact ⟨(Stacked.pop hsound).1.inside hp.1 hp.2, hC⟩

/-- In every run that starts inside the input, with the captures it starts from
inside it. -/
theorem recorded_inside (n : Nat) {start : Nat} (memo : List MemoEntry)
    (hstart : start ≤ m.ctx.input.length) (hcaps : m.ctx.CapturesInside (caps.rollback 0).values) :
    StateInside m.ctx (m.recordedRun n start caps memo) := by
  have hsound : Sound ⟨.running (m.startAt start caps memo), []⟩ :=
    ⟨.ready (.task rfl .nil), .nil⟩
  have hinside : StateInside m.ctx ⟨.running (m.startAt start caps memo), []⟩ :=
    ⟨⟨trivial, hstart, hcaps, nofun⟩, .nil⟩
  have hinv : ∀ x y, Sound x ∧ StateInside m.ctx x →
      m.machine.recordStep m.recording x = some y → Sound y ∧ StateInside m.ctx y :=
    fun _ _ h hy => ⟨h.1.step hy, h.2.step h.1 hy⟩
  exact (Backtracker.recorded_invariant hinv ⟨hsound, hinside⟩ n).2

end Matcher

end Slag.Regexp
