import Slag.Regexp.Memo

/-!
A search with the failure memo finds what a search without it finds, as long as
every hit rests on an entry that was recorded under tasks that agree.
-/

namespace Slag.Regexp

open Slag.Backtrack

namespace Matcher

variable {m : Matcher} {caps : Caps} {C : List Choice} {T : List Task} {s : Store} {task : Task}
  {x y z : State Task Choice Store}

variable {c : Cfg} {atom : NodeRef} {loop : Loop} {memo : List MemoEntry}

theorem Sane.running (htasks : TasksAgree (.whole m caps) c.choices c.choices c.store.dir c.store.pos
      c.store.caps.mark c.tasks c.tasks)
    (hchoices : ChoicesAgree (.whole m caps) (headDir c.tasks c.store.dir) c.choices c.choices)
    (hkeeps : (Comparison.whole m caps).Keeps c.choices c.store.caps) :
    Sane m caps (.running c) := by
  have h := Locked.running rfl rfl htasks hchoices hkeeps
  rw [Comparison.whole, List.append_nil] at h
  exact h

theorem Sane.failing (hchoices : ChoicesAgree (.whole m caps) c.store.dir c.choices c.choices)
    (hkeeps : (Comparison.whole m caps).Keeps c.choices c.store.caps) :
    Sane m caps (.failing c) := by
  have h : Locked (.whole m caps) (.failing ⟨c.tasks, c.choices ++ [], c.store⟩)
      (.failing ⟨c.tasks, c.choices ++ [], c.store⟩) := .failing rfl hchoices hkeeps
  rw [List.append_nil] at h
  exact h

/-- The outcome of a task. -/
def outcome (r : Bool × Cfg) : State Task Choice Store :=
  if r.1 then .running r.2 else .failing r.2

theorem step_running (m : Matcher) (task : Task) (T : List Task) (C : List Choice) (s : Store) :
    m.machine.step (.running ⟨task :: T, C, s⟩) = some (outcome (m.dispatch task ⟨T, C, s⟩)) := by
  have hd : m.machine.dispatch = m.dispatch := rfl
  simp only [Backtracker.step, hd, outcome]
  obtain ⟨b, c⟩ := m.dispatch task ⟨T, C, s⟩
  cases b <;> rfl

theorem Sane.step (h : Sane m caps x) (hs : m.memoless.machine.step x = some y) :
    Sane m caps y := by
  have hbase : ¬ (Comparison.whole m caps).AtBase x := by
    intro hbase
    cases x with
    | running c =>
        have hc : c.tasks = [] := hbase
        simp only [Backtracker.step, hc] at hs
        cases hs
    | failing c =>
        have hc : c.choices = [] := hbase
        simp only [Backtracker.step, hc] at hs
        cases hs
  obtain ⟨y', hs', hy⟩ := Locked.step h (.inr rfl) hbase hs
  obtain rfl : y = y' := Option.some.inj (hs.symm.trans hs')
  exact hy

theorem Shrinks.next (h : Shrinks m caps C T y) (habove : y.Above C.length)
    (hs : m.memoless.machine.step y = some z) : Shrinks m caps C T z := by
  intro atom consumed entry loop mark cont level T' hT
  obtain ⟨s, hpos, hsane, hrun⟩ := h atom consumed entry loop mark cont level T' hT
  exact ⟨s, hpos, hsane, hrun.snoc habove hs⟩

theorem Shrinks.vacuous (h : ∀ task ∈ T.head?, task.isShrink = false) : Shrinks m caps C T y := by
  rintro atom consumed entry loop mark cont level T' rfl
  cases h _ rfl

theorem suffix_append_cases {k : Choice} {P C' : List Choice} (h : (k :: C) <:+ P ++ C') :
    (∃ P', (k :: P') <:+ P ∧ C = P' ++ C') ∨ (k :: C) <:+ C' := by
  induction P with
  | nil => exact .inr h
  | cons p P ih =>
      rcases List.suffix_cons_iff.mp h with heq | h
      · obtain ⟨rfl, rfl⟩ := List.cons.inj heq
        exact .inl ⟨P, List.suffix_refl _, rfl⟩
      · refine (ih h).imp_left ?_
        rintro ⟨P', hP', hC⟩
        exact ⟨P', hP'.trans (List.suffix_cons p P), hC⟩

/-- Histories go on when a step leaves the choices, but for those it adds. -/
theorem History.next {P C' : List Choice} (h : History m caps y)
    (hs : m.memoless.machine.step y = some z) (hz : z.choices = P ++ C') (hC' : C' <:+ y.choices)
    (hP : ∀ k P', (k :: P') <:+ P → Shrinks m caps (P' ++ C') (k.resume.toList ++ k.cont) z)
    (htasks : ∀ c, z = .running c → Shrinks m caps c.choices c.tasks z) : History m caps z := by
  refine ⟨fun k C hk => ?_, htasks⟩
  rcases suffix_append_cases (hz ▸ hk) with ⟨P', hP', rfl⟩ | hold
  · exact hP k P' hP'
  · have hy := hold.trans hC'
    refine (h.choices k C hy).next ?_ hs
    have hlen := hy.length_le
    cases y with
    | running c => exact Nat.le_of_lt hlen
    | failing c => exact hlen

/-- After a task there is no repeat on top that is about to shrink. -/
theorem Sane.dispatch_tasks (h : Sane m caps (.running ⟨task :: T, C, s⟩))
    (hc : outcome (m.memoless.dispatch task ⟨T, C, s⟩) = .running c) :
    Shrinks m caps c.choices c.tasks (.running c) := by
  obtain ⟨task', T', C', s', hx, -, -, hpending⟩ := Locked.dispatch h (.inr rfl) nofun
  change (m.memoless.dispatch task ⟨T, C, s⟩).1 = true → ∃ D D' dir pos,
    PendingAgree _ D D' dir pos false (m.memoless.dispatch task ⟨T, C, s⟩).2.tasks _ at hpending
  generalize m.memoless.dispatch task ⟨T, C, s⟩ = r at hc hpending
  obtain ⟨b, d⟩ := r
  cases b with
  | false => cases hc
  | true =>
      cases hc
      obtain ⟨D, D', dir, pos, hagree⟩ := hpending rfl
      rintro atom consumed entry loop mark cont level T₁ hT
      rw [hT] at hagree
      exact (hagree.ne_resumed nofun nofun).elim

theorem shrink_cases (m : Matcher) (atom : NodeRef) (consumed : List Nat) (entry : Nat)
    (loop : Loop) (mark : Nat) (cont : List Task) (level : Nat) (c : Cfg) :
    (∃ d, m.dispatch (.fastShrink atom consumed entry loop mark cont level) c = (false, d) ∧
      d.choices = c.choices ∧ (d.store.memo = c.store.memo ∨
        d.store.memo = ⟨atom.addr, entry, c.store.dir, loop, some cont⟩ :: c.store.memo)) ∨
    (∃ d pos level', m.dispatch (.fastShrink atom consumed entry loop mark cont level) c =
        (true, d) ∧ d.store.memo = c.store.memo ∧
      d.choices = ⟨pos, mark, cont,
        some (.fastShrink atom consumed entry loop mark cont level')⟩ :: c.choices) := by
  simp only [dispatch]
  split
  · left
    split
    · exact ⟨_, rfl, rfl, .inr rfl⟩
    · exact ⟨_, rfl, rfl, .inl rfl⟩
  · right
    split <;> exact ⟨_, _, _, rfl, rfl, rfl⟩

/-- A simple repeat waits only with no iteration counted. -/
theorem Sane.count_eq_zero {count : Nat}
    (h : Sane m caps (.running ⟨.greedyRepeat loop count :: T, C, s⟩))
    (hatom : m.atomOf loop = some atom) : count = 0 := by
  obtain ⟨_, _, hT, hn, -⟩ := h.inv.1.greedyRepeat_inv
  rcases hn with hn | hnone
  · exact hn.1
  · exact absurd (hatom.symm.trans hnone) nofun

/-- A task keeps the histories. -/
theorem History.dispatch (hsane : Sane m caps (.running ⟨task :: T, C, s⟩))
    (h : History m caps (.running ⟨task :: T, C, s⟩)) :
    History m caps (outcome (m.memoless.dispatch task ⟨T, C, s⟩)) := by
  have hs := step_running m.memoless task T C s
  have htasks : ∀ c, outcome (m.memoless.dispatch task ⟨T, C, s⟩) = .running c →
      Shrinks m caps c.choices c.tasks (outcome (m.memoless.dispatch task ⟨T, C, s⟩)) := by
    intro c hc
    rw [hc]
    exact hsane.dispatch_tasks hc
  have hchoices : ∀ r, (outcome r).choices = r.2.choices := by
    rintro ⟨b, c⟩
    cases b <;> rfl
  have hsingle : ∀ {k k' : Choice} {P : List Choice}, (k :: P) <:+ [k'] → k = k' ∧ P = [] := by
    intro k k' P hk
    rcases List.suffix_cons_iff.mp hk with heq | hnil
    · exact List.cons.inj heq
    · exact absurd hnil.length_le (Nat.not_succ_le_zero _)
  rcases @dispatch_cases m.memoless rfl task ⟨T, C, s⟩ with
    ⟨-, P, C', hP, hC', hquiet⟩ | ⟨loop, count, atom, rfl, hatom, heq⟩ | hshrink
  · refine h.next hs ((hchoices _).trans hP) hC' (fun k P' hk => .vacuous ?_) htasks
    obtain ⟨resume, hresume, hno⟩ := hquiet k (hk.subset List.mem_cons_self)
    rw [hresume]
    rintro _ ⟨⟩
    exact hno
  · obtain rfl := hsane.count_eq_zero hatom
    obtain ⟨⟨consumed, cur, cnt⟩, hr⟩ : ∃ r, m.memoless.ctx.consumeLoop atom.node s.dir loop.max
      (m.memoless.ctx.input.length + 1) s.pos 0 = r := ⟨_, rfl⟩
    rw [greedySimple_eq m.memoless atom loop 0 T C s hr] at heq
    by_cases hmin : cnt < loop.min
    · rw [if_pos hmin] at heq
      have hC : (outcome (m.memoless.dispatch (.greedyRepeat loop 0) ⟨T, C, s⟩)).choices =
          [] ++ C := by
        rw [hchoices, heq]
        rfl
      exact h.next hs hC (List.suffix_refl _) (fun k P' hk => absurd hk.length_le (Nat.not_succ_le_zero _)) htasks
    · rw [if_neg hmin] at heq
      have hC := hchoices (m.memoless.dispatch (.greedyRepeat loop 0) ⟨T, C, s⟩)
      conv at hC => rhs; rw [heq]
      refine h.next hs hC (List.suffix_refl _) (fun k P' hk => ?_) htasks
      split at hk
      · obtain ⟨rfl, rfl⟩ := hsingle hk
        rintro _ _ _ _ _ _ _ _ ⟨⟩
        exact ⟨s, rfl, hsane, .step (Nat.le_refl _) hs (.refl _)⟩
      · exact absurd hk.length_le (Nat.not_succ_le_zero _)
  · cases task with
    | fastShrink atom consumed entry loop mark cont level =>
        rcases shrink_cases m.memoless atom consumed entry loop mark cont level ⟨T, C, s⟩ with
          ⟨d, hd, hC, -⟩ | ⟨d, pos, level', hd, -, hC⟩
        · have hC' := (hchoices _).trans ((congrArg (fun r => r.2.choices) hd).trans hC)
          exact h.next hs (hC'.trans (List.nil_append _).symm) (List.suffix_refl _)
            (fun k P' hk => absurd hk.length_le (Nat.not_succ_le_zero _)) htasks
        · have hC' := (hchoices _).trans ((congrArg (fun r => r.2.choices) hd).trans hC)
          refine h.next hs (hC'.trans (List.singleton_append).symm) (List.suffix_refl _)
            (fun k P' hk => ?_) htasks
          obtain ⟨rfl, rfl⟩ := hsingle hk
          rintro _ _ _ _ _ _ _ _ ⟨⟩
          exact (h.tasks _ rfl).next (Nat.le_refl _) hs _ _ _ _ _ _ _ _ rfl
    | _ => cases hshrink

/-- What a task records holds. -/
theorem entries_dispatch (hsane : Sane m caps (.running ⟨task :: T, C, { s with memo := memo }⟩))
    (hist : History m caps (.running ⟨task :: T, C, { s with memo := memo }⟩))
    (hmemo : ∀ entry ∈ s.memo, EntryHolds m entry) :
    ∀ entry ∈ (m.memoless.dispatch task ⟨T, C, s⟩).2.store.memo, EntryHolds m entry := by
  rcases @dispatch_cases m.memoless rfl task ⟨T, C, s⟩ with
    ⟨hquiet, -⟩ | ⟨loop, count, atom, rfl, hatom, heq⟩ | hshrink
  · rw [hquiet]
    exact hmemo
  · obtain rfl := hsane.count_eq_zero hatom
    obtain ⟨⟨consumed, cur, cnt⟩, hr⟩ : ∃ r, m.memoless.ctx.consumeLoop atom.node s.dir loop.max
      (m.memoless.ctx.input.length + 1) s.pos 0 = r := ⟨_, rfl⟩
    rw [heq, greedySimple_eq m.memoless atom loop 0 T C s hr]
    split
    · rename_i hmin
      refine List.forall_mem_cons.mpr ⟨⟨atom, hatom, ?_⟩, hmemo⟩
      change (m.memoless.ctx.consumeLoop atom.node s.dir loop.max
        (m.memoless.ctx.input.length + 1) s.pos 0).2.2 < loop.min
      rw [hr]
      exact hmin
    · exact hmemo
  · cases task with
    | fastShrink atom consumed entry loop mark cont level =>
        rcases shrink_cases m.memoless atom consumed entry loop mark cont level ⟨T, C, s⟩ with
          ⟨d, hd, hC, hold | hnew⟩ | ⟨d, pos, level', hd, hold, -⟩
        · rw [hd, hold]
          exact hmemo
        · rw [hd, hnew]
          refine List.forall_mem_cons.mpr ⟨?_, hmemo⟩
          obtain ⟨memo', hwith⟩ := @dispatch_withMemo m.memoless rfl
            (.fastShrink atom consumed entry loop mark cont level) ⟨T, C, s⟩ memo
          have hs := step_running m.memoless (.fastShrink atom consumed entry loop mark cont level)
            T C { s with memo := memo }
          rw [hd] at hwith
          have hfail := hs.trans (congrArg (fun r => some (outcome r)) hwith)
          have hholds := (hist.tasks _ rfl).entryHolds hsane hfail
          exact hholds hC
        · rw [hd, hold]
          exact hmemo
    | _ => cases hshrink

/-- The matcher and the matcher without memo at the same point. -/
inductive Paired (m : Matcher) (caps : Caps) :
    State Task Choice Store → State Task Choice Store → Prop
  | running {T : List Task} {C : List Choice} {s : Store} (memo : List MemoEntry)
      (hsane : Sane m caps (.running ⟨T, C, s⟩)) :
      Paired m caps (.running ⟨T, C, s⟩) (.running ⟨T, C, { s with memo := memo }⟩)
  | failing {T T' : List Task} {C : List Choice} {s s' : Store}
      (hsane : Sane m caps (.failing ⟨T, C, s⟩)) (hdir : s.dir = s'.dir)
      (hext : s.caps.Extends s'.caps) :
      Paired m caps (.failing ⟨T, C, s⟩) (.failing ⟨T', C, s'⟩)

def memoOf : State Task Choice Store → List MemoEntry
  | .running c | .failing c => c.store.memo

/-- The pair, with all that is needed to go on. -/
structure Together (m : Matcher) (caps : Caps) (x y : State Task Choice Store) : Prop where
  paired : Paired m caps x y
  history : History m caps y
  entries : ∀ entry ∈ memoOf x, EntryHolds m entry

theorem Sane.withMemo (h : Sane m caps (.running ⟨T, C, s⟩)) :
    Sane m caps (.running ⟨T, C, { s with memo := memo }⟩) := by
  obtain ⟨htasks, hchoices, hkeeps⟩ := h.inv
  exact .running htasks hchoices hkeeps

theorem Sane.failing_inv (h : Sane m caps (.failing c)) :
    ChoicesAgree (.whole m caps) c.store.dir c.choices c.choices ∧
    (Comparison.whole m caps).Keeps c.choices c.store.caps := by
  obtain ⟨D, D', T', s', hC, hx, -, hchoices, hkeeps⟩ := Locked.failing_inv h
  injection hx with hx
  subst hx
  obtain rfl : D' ++ [] = D := hC.trans (List.append_nil D)
  simp only [Comparison.whole, List.append_nil] at *
  exact ⟨hchoices, hkeeps⟩

/-- Going back to a choice brings the two to the same point. -/
theorem Together.restore (h : Together m caps (.failing c) y)
    (hs : m.machine.step (.failing c) = some x) :
    ∃ z, Descends m.memoless.machine 0 y z ∧ Together m caps x z := by
  obtain ⟨hpair, hist, hentries⟩ := h
  cases hpair with
  | @failing T T' C s s' hsane hdir hext =>
      cases C with
      | nil => cases hs
      | cons k C =>
          have hsane' := hsane.step hs
          cases hs
          have hmark : k.mark ≤ s.caps.mark := hsane.failing_inv.2.1 k List.mem_cons_self
          have hcaps : s'.caps.rollback k.mark = s.caps.rollback k.mark := by
            rw [← Caps.rollback_rollback hmark s'.caps, hext.2]
          have hstep : m.memoless.machine.step (.failing ⟨T', k :: C, s'⟩) = some (.running
              ⟨k.resume.toList ++ k.cont, C,
                ⟨k.pos, s.dir, s.caps.rollback k.mark, s'.memo⟩⟩) := by
            rw [← hcaps, hdir]
            rfl
          refine ⟨_, .step (Nat.succ_pos _) hstep (.refl _), .running s'.memo hsane', ?_, hentries⟩
          refine hist.next hstep (List.nil_append _).symm (List.suffix_cons k C)
            (fun k P' hk => absurd hk.length_le (Nat.not_succ_le_zero _)) ?_
          rintro _ ⟨⟩
          exact (hist.choices k C (List.suffix_refl _)).next (Nat.lt_succ_self _) hstep

/-- A task that the memo does not decide. -/
theorem Together.dispatch (h : Together m caps (.running ⟨task :: T, C, s⟩)
      (.running ⟨task :: T, C, { s with memo := memo }⟩))
    (hsane : Sane m caps (.running ⟨task :: T, C, s⟩)) :
    ∃ z, Descends m.memoless.machine 0 (.running ⟨task :: T, C, { s with memo := memo }⟩) z ∧
      Together m caps (outcome (m.memoless.dispatch task ⟨T, C, s⟩)) z := by
  have hnext := hsane.step (step_running m.memoless task T C s)
  have hentries := entries_dispatch hsane.withMemo h.history h.entries
  have hist := h.history.dispatch hsane.withMemo
  obtain ⟨memo', hwith⟩ := @dispatch_withMemo m.memoless rfl task ⟨T, C, s⟩ memo
  have hs := step_running m.memoless task T C { s with memo := memo }
  rw [show m.memoless.dispatch task ⟨T, C, { s with memo := memo }⟩ = _ from hwith] at hs hist
  refine ⟨_, .step (Nat.zero_le _) hs (.refl _), ?_, hist, ?_⟩
  · generalize m.memoless.dispatch task ⟨T, C, s⟩ = r at hnext
    obtain ⟨b, c⟩ := r
    cases b with
    | true => exact .running memo' hnext
    | false => exact .failing hnext rfl (.refl _)
  · generalize m.memoless.dispatch task ⟨T, C, s⟩ = r at hentries
    obtain ⟨b, c⟩ := r
    cases b <;> exact hentries

/-- An entry that justifies a hit: without memo the repeat fails as well. -/
theorem EntryHolds.justified {entry : MemoEntry} (h : EntryHolds m entry) (memo : List MemoEntry)
    (hpos : entry.pos = s.pos) (hmax : loop.atMax 0 = false) (hatom : m.atomOf loop = some atom)
    (hj : m.justifies loop ⟨T, C, s⟩ entry = true) :
    ∃ d, Descends m.memoless.machine C.length
        (.running ⟨.greedyRepeat loop 0 :: T, C, { s with memo := memo }⟩) (.failing d) ∧
      d.choices = C ∧ d.store.dir = s.dir ∧ s.caps.Extends d.store.caps := by
  obtain ⟨addr, pos, dir, loop', pending⟩ := entry
  obtain rfl : pos = s.pos := hpos
  simp only [justifies, Bool.and_eq_true, decide_eq_true_eq] at hj
  obtain ⟨⟨rfl, rfl⟩, hj⟩ := hj
  cases pending with
  | none =>
      obtain ⟨atom', hatom', hmin⟩ := h
      obtain rfl : atom' = atom := Option.some.inj (hatom'.symm.trans hatom)
      obtain ⟨⟨consumed, cur, cnt⟩, hr⟩ : ∃ r, m.memoless.ctx.consumeLoop atom'.node s.dir
        loop'.max (m.memoless.ctx.input.length + 1) s.pos 0 = r := ⟨_, rfl⟩
      have hlt : cnt < loop'.min := by
        change (m.memoless.ctx.consumeLoop atom'.node s.dir loop'.max
          (m.memoless.ctx.input.length + 1) s.pos 0).2.2 < loop'.min at hmin
        rw [hr] at hmin
        exact hmin
      have hd : m.memoless.dispatch (.greedyRepeat loop' 0) ⟨T, C, { s with memo := memo }⟩ =
          m.memoless.greedySimple atom' loop' 0 ⟨T, C, { s with memo := memo }⟩ := by
        have hatom₁ : m.memoless.atomOf loop' = some atom' := hatom
        unfold atomOf at hatom₁
        simp only [dispatch, hmax, hatom₁, Bool.false_eq_true, if_false]
        rfl
      rw [greedySimple_eq m.memoless atom' loop' 0 T C { s with memo := memo } hr, if_pos hlt] at hd
      have hs := step_running m.memoless (.greedyRepeat loop' 0) T C { s with memo := memo }
      rw [hd] at hs
      exact ⟨_, .step (Nat.le_refl _) hs (.refl _), rfl, rfl,
        Caps.extends_clearOwned s.caps loop'.owned⟩
  | some cont =>
      rw [Bool.and_eq_true] at hj
      have hfails := @EntryHolds.fails m T C { s with memo := memo } loop' cont addr h hj.1 hj.2
      exact hfails

/-- A hit of the memo. -/
theorem Together.hit {count : Nat} (h : Together m caps (.running ⟨.greedyRepeat loop count :: T, C, s⟩)
      (.running ⟨.greedyRepeat loop count :: T, C, { s with memo := memo }⟩))
    (hsane : Sane m caps (.running ⟨.greedyRepeat loop count :: T, C, s⟩))
    (hmax : loop.atMax count = false) (hatom : m.atomOf loop = some atom)
    (hhit : Cfg.remembers ⟨T, C, s⟩ atom.addr = true)
    (hsound : m.unsoundHit ⟨.greedyRepeat loop count :: T, C, s⟩ = false) :
    ∃ z, Descends m.memoless.machine 0
        (.running ⟨.greedyRepeat loop count :: T, C, { s with memo := memo }⟩) z ∧
      Together m caps (.failing ⟨T, C, s⟩) z := by
  obtain rfl := hsane.count_eq_zero hatom
  have hhit' : Cfg.remembers ⟨.greedyRepeat loop 0 :: T, C, s⟩ atom.addr = true := hhit
  simp only [unsoundHit, hmax, hatom, hhit', Bool.not_false, Bool.true_and,
    Bool.not_eq_false', List.any_eq_true, Bool.and_eq_true, beq_iff_eq] at hsound
  obtain ⟨entry, hmem, ⟨-, hpos⟩, hj⟩ := hsound
  obtain ⟨d, hrun, hd, hdir, hext⟩ :=
    (h.entries entry hmem).justified memo hpos hmax hatom hj
  obtain ⟨-, hchoices, hkeeps⟩ := hsane.inv
  obtain ⟨T', C', s'⟩ := d
  obtain rfl : C' = C := hd
  refine ⟨_, hrun.mono (Nat.zero_le _), .failing (.failing hchoices hkeeps) hdir.symm hext, ?_,
    h.entries⟩
  refine ⟨fun k C₁ hk => ?_, by rintro _ ⟨⟩⟩
  intro _ _ _ _ _ _ _ _ htasks
  obtain ⟨s₀, hpos₀, hsane₀, hrun₀⟩ := h.history.choices k C₁ hk _ _ _ _ _ _ _ _ htasks
  have hle : C₁.length ≤ C'.length := Nat.le_of_lt hk.length_le
  exact ⟨s₀, hpos₀, hsane₀, hrun₀.trans (hrun.mono hle)⟩

/-- One step of the matcher; the matcher without memo catches up. -/
theorem Together.step (h : Together m caps x y) (hs : m.machine.step x = some z)
    (hsound : ∀ c, x = .running c → m.unsoundHit c = false) :
    ∃ w, Descends m.memoless.machine 0 y w ∧ Together m caps z w := by
  cases x with
  | failing c => exact h.restore hs
  | running c =>
      obtain ⟨hpair, hist, hentries⟩ := h
      cases hpair with
      | @running T C s memo hsane =>
          cases T with
          | nil => cases hs
          | cons task T =>
              rw [step_running] at hs
              cases hs
              by_cases hhit : ∃ loop count atom, task = .greedyRepeat loop count ∧
                  loop.atMax count = false ∧ m.atomOf loop = some atom ∧
                  (m.options.memo && Cfg.remembers ⟨T, C, s⟩ atom.addr) = true
              · obtain ⟨loop, count, atom, rfl, hmax, hatom, hmemo⟩ := hhit
                have hd : m.dispatch (.greedyRepeat loop count) ⟨T, C, s⟩ = (false, ⟨T, C, s⟩) := by
                  have hatom' := hatom
                  unfold atomOf at hatom'
                  simp only [Matcher.dispatch, hmax, hatom', hmemo, Bool.false_eq_true, if_false, if_true]
                rw [hd]
                rw [Bool.and_eq_true] at hmemo
                exact Together.hit ⟨.running memo hsane, hist, hentries⟩ hsane hmax hatom hmemo.2
                  (hsound _ rfl)
              · rw [dispatch_memoless task ⟨T, C, s⟩]
                · exact Together.dispatch ⟨.running memo hsane, hist, hentries⟩ hsane
                · intro loop count atom htask hmax hatom
                  refine Bool.eq_false_iff.mpr fun hmemo => hhit ?_
                  exact ⟨loop, count, atom, htask, hmax, hatom, hmemo⟩

/-- Two attempts end alike; what the next attempt starts from is the same too. -/
def SameAnswer (m : Matcher) :
    Backtracker.Answer Task Choice Store → Backtracker.Answer Task Choice Store → Prop
  | .matched c, .matched d => c.store.pos = d.store.pos ∧ c.store.caps = d.store.caps
  | .failed c, .failed d => c.store.caps.Extends d.store.caps ∧
      ∀ entry ∈ c.store.memo, EntryHolds m entry
  | _, _ => False

variable {limit : Nat}

theorem Together.gives_up (h : Together m caps (.failing c) y) (hc : c.choices = []) :
    ∃ a, Ends m.memoless.machine y a ∧ SameAnswer m (.failed c) a := by
  obtain ⟨hpair, -, hentries⟩ := h
  cases hpair with
  | failing hsane hdir hext =>
      obtain rfl : _ = [] := hc
      exact ⟨_, .failed rfl, hext, hentries⟩

theorem Together.matches (h : Together m caps (.running c) y) (hc : c.tasks = []) :
    ∃ a, Ends m.memoless.machine y a ∧ SameAnswer m (.matched c) a := by
  obtain ⟨hpair, -, -⟩ := h
  cases hpair with
  | running memo hsane =>
      obtain rfl : _ = [] := hc
      exact ⟨_, .matched rfl, rfl, rfl⟩

/-- An attempt with the memo ends as the one without it, which may take longer. -/
theorem Together.ends (budget : Nat) (h : Together m caps (.running c) y)
    (hsound : m.machine.avoids limit m.unsoundHit budget c = true)
    (hends : (m.machine.run limit budget c).isExhausted = false) :
    ∃ a, Ends m.memoless.machine y a ∧ SameAnswer m (m.machine.run limit budget c) a := by
  induction budget generalizing c y with
  | zero => cases hends
  | succ budget ih =>
      obtain ⟨T, C, s⟩ := c
      simp only [Backtracker.run] at hends ⊢
      by_cases hlimit : limit < C.length
      · rw [if_pos hlimit] at hends
        cases hends
      · rw [if_neg hlimit] at hends ⊢
        simp only [Backtracker.avoids, hlimit, decide_false, Bool.false_or, Bool.and_eq_true,
          Bool.not_eq_true'] at hsound
        cases T with
        | nil => exact h.matches rfl
        | cons task T =>
            have hd : m.machine.dispatch = m.dispatch := rfl
            have hs := step_running m task T C s
            obtain ⟨hnow, hlater⟩ := hsound
            obtain ⟨w, hrun, hw⟩ := h.step hs (by
              rintro _ ⟨⟩
              exact hnow)
            simp only [hd] at hends hlater ⊢
            generalize m.dispatch task ⟨T, C, s⟩ = r at hw hends hlater
            obtain ⟨b, d⟩ := r
            cases b with
            | true =>
                obtain ⟨a, ha, hsame⟩ := ih hw hlater hends
                exact ⟨a, Ends.of_descends hrun ha, hsame⟩
            | false =>
                obtain ⟨T', C', s'⟩ := d
                cases C' with
                | nil =>
                    obtain ⟨a, ha, hsame⟩ := hw.gives_up rfl
                    exact ⟨a, Ends.of_descends hrun ha, hsame⟩
                | cons k C' =>
                    obtain ⟨w', hrun', hw'⟩ := hw.restore rfl
                    obtain ⟨a, ha, hsame⟩ := ih hw' hlater hends
                    exact ⟨a, Ends.of_descends hrun (Ends.of_descends hrun' ha), hsame⟩

/-- An attempt starts with the two at the same point. -/
theorem together_startAt (m : Matcher) (start : Nat) {caps' : Caps} (memo' : List MemoEntry)
    (hcaps : caps.rollback 0 = caps'.rollback 0) (hentries : ∀ entry ∈ memo, EntryHolds m entry) :
    Together m (caps.rollback 0) (.running (m.startAt start caps memo))
      (.running (m.memoless.startAt start caps' memo')) := by
  have hnode : TasksAgree (.whole m (caps.rollback 0)) [] [] .forward start
      (caps.rollback 0).mark [.node ⟨[], m.re.program⟩] [.node ⟨[], m.re.program⟩] :=
    .pending (.task (.node _ nofun) .base)
  have hsane : Sane m (caps.rollback 0) (.running (m.startAt start caps memo)) :=
    .running hnode .nil ⟨nofun, .refl _⟩
  refine ⟨?_, ⟨fun k C hk => ?_, ?_⟩, hentries⟩
  · have hpair := Paired.running memo' hsane
    unfold startAt
    rw [← hcaps]
    exact hpair
  · exact absurd hk.length_le (Nat.not_succ_le_zero _)
  · rintro _ ⟨⟩
    refine .vacuous ?_
    rintro _ ⟨⟩
    rfl

/-- The search goes on alike from start to start. -/
theorem searchLoop_memoless (fuel index : Nat) {caps' : Caps} {memo memo' : List MemoEntry}
    (hcaps : caps.rollback 0 = caps'.rollback 0) (hentries : ∀ entry ∈ memo, EntryHolds m entry)
    (hsound : m.searchAvoids fuel index caps memo = true)
    (hends : m.searchLoop fuel index caps memo ≠ .exhausted)
    (hends' : m.memoless.searchLoop fuel index caps' memo' ≠ .exhausted) :
    m.searchLoop fuel index caps memo = m.memoless.searchLoop fuel index caps' memo' := by
  induction fuel generalizing index caps caps' memo memo' with
  | zero => rfl
  | succ fuel ih =>
      have hpre : m.memoless.prefiltered index = m.prefiltered index := rfl
      have hlen : m.memoless.ctx.input.length = m.ctx.input.length := rfl
      have hnext : m.memoless.advanceStringIndex index = m.advanceStringIndex index := rfl
      simp only [searchLoop, searchAvoids, hpre, hlen, hnext] at hsound hends hends' ⊢
      by_cases hpast : m.ctx.input.length < index
      · rw [if_pos hpast, if_pos hpast]
      · rw [if_neg hpast] at hsound hends hends' ⊢
        rw [if_neg hpast]
        by_cases hskip : m.prefiltered index = true
        · rw [if_pos hskip] at hsound hends hends' ⊢
          rw [if_pos hskip]
          exact ih (m.advanceStringIndex index) hcaps hentries hsound hends hends'
        · rw [if_neg hskip] at hsound hends hends' ⊢
          rw [if_neg hskip]
          rw [Bool.and_eq_true] at hsound
          have hsame : (m.matchAt index caps memo).isExhausted = false →
              (m.memoless.matchAt index caps' memo').isExhausted = false →
              SameAnswer m (m.matchAt index caps memo) (m.memoless.matchAt index caps' memo') := by
            intro hended hended'
            obtain ⟨a, ha, hsame⟩ :=
              (together_startAt m index memo' hcaps hentries).ends m.stepLimit hsound.1 hended
            obtain rfl := ha.unique (.of_run _ hended')
            exact hsame
          replace hsound := hsound.2
          generalize m.matchAt index caps memo = a at hsame hsound hends ⊢
          generalize m.memoless.matchAt index caps' memo' = b at hsame hends' ⊢
          cases a with
          | exhausted _ => exact absurd rfl hends
          | matched c =>
              cases b with
              | exhausted _ => exact absurd rfl hends'
              | failed _ => exact (hsame rfl rfl).elim
              | matched d =>
                  obtain ⟨hpos, hvalues⟩ := hsame rfl rfl
                  simp only [hpos, hvalues]
          | failed c =>
              cases b with
              | exhausted _ => exact absurd rfl hends'
              | matched _ => exact (hsame rfl rfl).elim
              | failed d =>
                  obtain ⟨hext, hrecorded⟩ := hsame rfl rfl
                  dsimp only at hends hends' hsound ⊢
                  by_cases hlast : m.ctx.input.length ≤ index
                  · rw [if_pos hlast, if_pos hlast]
                  · rw [if_neg hlast] at hends hends' ⊢
                    rw [if_neg hlast]
                    rw [decide_eq_false hlast, Bool.false_or] at hsound
                    refine ih (m.advanceStringIndex index) ?_ hrecorded hsound hends hends'
                    rw [← Caps.rollback_rollback (Nat.zero_le c.store.caps.mark) d.store.caps,
                      hext.2]

/-- A search whose memo hits all rest on entries recorded under tasks that agree
finds what the matcher with an always-empty memo finds. -/
theorem search_eq_memoless (m : Matcher) (start : Nat) (caps : Caps)
    (hsound : m.searchAvoids (m.ctx.input.length + 1 - start) start caps [] = true)
    (hends : m.search start caps ≠ .exhausted)
    (hends' : m.memoless.search start caps ≠ .exhausted) :
    m.search start caps = m.memoless.search start caps :=
  searchLoop_memoless _ start rfl nofun hsound hends hends'

end Matcher

/-- `.*a*b` on `aa`: the second repeat fails once at each position. -/
theorem search_eq_memoless_aa :
    let m := plainMatcher (.sequence [greedyRepeat (.any false) 0 none,
      greedyRepeat (literal 'a') 0 none, literal 'b']) 0 [97, 97] {}
    m.re.program.compiled = true ∧ m.search 0 (Caps.new 0) = m.memoless.search 0 (Caps.new 0) :=
  ⟨by decide +kernel, Matcher.search_eq_memoless _ 0 (Caps.new 0) (by decide +kernel)
    (by decide +kernel) (by decide +kernel)⟩

/-- `^(?:x|x?a*z){0,2}$` on `xazx`: `a*` fails at 1 under a second iteration,
after which nothing may follow, and is not tried again under the first. -/
theorem bounded_search_ne_memoless :
    let m := plainMatcher (.sequence [.start false, greedyRepeat (.alternate [[literal 'x'],
      [greedyRepeat (literal 'x') 0 (some 1), greedyRepeat (literal 'a') 0 none, literal 'z']]) 0
        (some 2), .finish false]) 0 [120, 97, 122, 120] {}
    m.re.program.compiled = true ∧ m.search 0 (Caps.new 0) = .nothing ∧
      m.memoless.search 0 (Caps.new 0) = .found 0 4 [none] := by
  decide +kernel

/-- `^.*(?=(?:b?a*)*ac)b` on `bac`: an entry from one lookahead is used in another. -/
example :
    let m := plainMatcher (.sequence [.start false, greedyRepeat (.any false) 0 none,
      .lookahead false (.sequence [greedyRepeat (.sequence [greedyRepeat (literal 'b') 0 (some 1),
        greedyRepeat (literal 'a') 0 none]) 0 none, literal 'a', literal 'c']), literal 'b']) 0
      [98, 97, 99] {}
    m.search 0 (Caps.new 0) ≠ m.memoless.search 0 (Caps.new 0) := by
  decide +kernel

end Slag.Regexp
