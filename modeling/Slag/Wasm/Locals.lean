import Slag.Wasm.Runs

/-!
Locals without a default. Along every run, the locals that the checks have noted
at the place of a frame are parameters, have a default, or were written by the
frame.
-/

namespace Slag.Wasm

open Slag.Wasm.Machine (sets?)
open Slag.Answer (forall₂_getElem?)

/-! ## What the checks have noted at a place -/

section Init

variable {m : Module} {s : Spaces} {defined : Nat} {body : FuncBody} {signature : FuncType}

def initAt (s : Spaces) (body : FuncBody) (signature : FuncType) (pc : Nat) : List Bool :=
  match Checked.before s body signature pc with
  | .ok machine => machine.init
  | .error _ => []

theorem initAt_of_before {pc : Nat} {machine : Machine} (h : Checked.before s body signature pc = .ok machine) :
    initAt s body signature pc = machine.init := by
  rw [initAt, h]

variable (hchecked : Checked m s defined body signature) {pc o : Nat} {instr : Instr}

include hchecked

theorem init_straight (hinstr : body.body[pc]? = some instr) (hstraight : Straight instr) :
    initAt s body signature (pc + 1) = initAt s body signature pc ∧ sets? instr = none ∨
      ∃ index, sets? instr = some index ∧
        initAt s body signature (pc + 1) = (initAt s body signature pc).set index true := by
  obtain ⟨machine, machine', hbefore, hstep, hafter⟩ := hchecked.before_step hinstr
  rw [initAt_of_before hbefore, initAt_of_before hafter]
  cases hsets : sets? instr with
  | none =>
      have hkeeps := Machine.keeps_step hstraight.opens hstraight.else_ hstraight.end_ hsets _ hstep
      exact .inl ⟨hkeeps.init, rfl⟩
  | some index =>
      obtain ⟨mid, -, rfl⟩ := Machine.check_sets hsets _ hstep
      exact .inr ⟨index, rfl, rfl⟩

theorem init_opens {bt : BlockType} (hinstr : body.body[pc]? = some instr) (hopens : instr.opens? = some bt) :
    initAt s body signature (pc + 1) = initAt s body signature pc := by
  obtain ⟨machine, machine', hbefore, hstep, hafter⟩ := hchecked.before_step hinstr
  rw [initAt_of_before hbefore, initAt_of_before hafter]
  obtain ⟨params, results, mid, -, htakes, rfl⟩ := Machine.check_opens hopens _ hstep
  exact htakes.init

variable (hdecoded : Decoded body.body)

include hdecoded

variable {opens : List Nat}

/-- The innermost frame at a place inside a construct. -/
theorem frame_of_open (hpc : pc ≤ body.body.length) (hopen : (scanAt body.body pc).opens = o :: opens) :
    ∃ machine f rest, Checked.before s body signature pc = .ok machine ∧ machine.frames = f :: rest ∧
      Opened s body signature o f ∧ f.savedInit = initAt s body signature o := by
  obtain ⟨machine, inner, func, hbefore, hnested⟩ := hchecked.nested hdecoded hpc
  have hopened := hnested.opened
  rw [hopen] at hopened
  cases hopened with
  | @cons _ f _ inner hf _ =>
      refine ⟨machine, f, inner ++ [func], hbefore, hnested.frames, hf, ?_⟩
      obtain ⟨instr, bt, machine', mid, hf⟩ := hf
      rw [hf.init, initAt_of_before hf.before]

theorem init_else (hinstr : body.body[pc]? = some .else_)
    (hopen : (scanAt body.body pc).opens = o :: opens) :
    initAt s body signature (pc + 1) = initAt s body signature o := by
  have hlt := (List.getElem?_eq_some_iff.mp hinstr).1
  obtain ⟨machine, f, rest, hbefore, hframes, -, hsaved⟩ :=
    frame_of_open hchecked hdecoded (Nat.le_of_lt hlt) hopen
  obtain ⟨machine₀, machine', hbefore₀, hstep, hafter⟩ := hchecked.before_step hinstr
  cases hbefore₀.symm.trans hbefore
  obtain ⟨f', rest', hframes', -, -, hinit, -⟩ := Machine.check_else _ hstep
  cases hframes.symm.trans hframes'
  rw [initAt_of_before hafter, hinit, hsaved]

theorem init_end (hinstr : body.body[pc]? = some .end_)
    (hopen : (scanAt body.body pc).opens = o :: opens) :
    initAt s body signature (pc + 1) = initAt s body signature o := by
  have hlt := (List.getElem?_eq_some_iff.mp hinstr).1
  obtain ⟨machine, f, rest, hbefore, hframes, hopened, hsaved⟩ :=
    frame_of_open hchecked hdecoded (Nat.le_of_lt hlt) hopen
  obtain ⟨machine₀, machine', hbefore₀, hstep, hafter⟩ := hchecked.before_step hinstr
  cases hbefore₀.symm.trans hbefore
  obtain ⟨f', rest', hframes', hclose, -⟩ := Machine.check_end _ hstep
  cases hframes.symm.trans hframes'
  obtain ⟨-, hinit, -⟩ := hclose hopened.ctrl_ne
  rw [initAt_of_before hafter, hinit, hsaved]

/-- Where a branch goes on, what was noted at the construct it leaves is noted,
and no construct is open that was not before. -/
theorem init_branch {labels : List Label} {l : Nat} {target : Label} (hpc : pc ≤ body.body.length)
    (hlabels : Labelled body.body pc labels) (htarget : labels[l]? = some target)
    (hlast : l + 1 ≠ labels.length) :
    target.opened ∈ (scanAt body.body pc).opens ∧
      initAt s body signature (target.continues (precompute body.body)) =
        initAt s body signature target.opened ∧
      ∀ o ∈ (scanAt body.body (target.continues (precompute body.body))).opens,
        o ∈ (scanAt body.body pc).opens := by
  obtain ⟨hopen, -⟩ := hlabels.opened htarget hlast
  have hopener := opener_of_open hpc hopen
  have hbracketed := hchecked.bracketed hdecoded
  refine ⟨List.mem_of_getElem? hopen, ?_⟩
  unfold Label.continues
  cases target.isLoop with
  | true =>
      obtain ⟨instr, bt, hinstr, hopens⟩ := hopener.instr
      simp only [if_true]
      refine ⟨init_opens hchecked hinstr hopens, fun o ho => ?_⟩
      rw [opens_enter hinstr hopens, hopener.outer, ← drop_of_getElem? hopen] at ho
      exact List.mem_of_mem_drop ho
  | false =>
      obtain ⟨e, hend, -, hclose, hinside, hafter⟩ := endOf_open hbracketed.balanced hpc hopen
      simp only [Bool.false_eq_true, if_false, hend]
      rw [drop_of_getElem? hopen] at hinside
      refine ⟨init_end hchecked hdecoded hclose hinside, fun o ho => ?_⟩
      rw [hafter] at ho
      exact List.mem_of_mem_drop ho

/-- Control moves to where nothing is noted that was not noted before, the write
of the instruction apart. -/
theorem init_shift {labels labels' : List Label} {pc' : Nat} (hinstr : body.body[pc]? = some instr)
    (hlabels : Labelled body.body pc labels) (hshift : Shift body.body pc labels pc' labels') :
    (∀ i, (initAt s body signature pc')[i]? = some true → sets? instr = some i ∨
      ∃ place ∈ pc :: (scanAt body.body pc).opens, (initAt s body signature place)[i]? = some true) ∧
    ∀ o ∈ (scanAt body.body pc').opens, o ∈ pc :: (scanAt body.body pc).opens := by
  have hlt := (List.getElem?_eq_some_iff.mp hinstr).1
  have hbracketed := hchecked.bracketed hdecoded
  have hsame : ∀ {place : Nat}, place ∈ pc :: (scanAt body.body pc).opens →
      initAt s body signature pc' = initAt s body signature place →
      ∀ i, (initAt s body signature pc')[i]? = some true → sets? instr = some i ∨
        ∃ place ∈ pc :: (scanAt body.body pc).opens, (initAt s body signature place)[i]? = some true := by
    intro place hplace hinit i hi
    rw [hinit] at hi
    exact .inr ⟨place, hplace, hi⟩
  cases hshift with
  | next hinstr' hopens helse hend =>
      cases hinstr.symm.trans hinstr'
      refine ⟨?_, fun o ho => ?_⟩
      · rcases init_straight hchecked hinstr ⟨hopens, helse, hend⟩ with ⟨hinit, -⟩ | ⟨index, hsets, hinit⟩
        · exact hsame List.mem_cons_self hinit
        · intro i hi
          by_cases hindex : index = i
          · exact .inl (hindex ▸ hsets)
          · rw [hinit, List.getElem?_set_ne hindex] at hi
            exact .inr ⟨pc, List.mem_cons_self, hi⟩
      · rw [scanAt_next hinstr hopens helse hend] at ho
        exact List.mem_cons_of_mem _ ho
  | close hinstr' =>
      cases hinstr.symm.trans hinstr'
      obtain ⟨o, opens, hopen⟩ := List.exists_cons_of_ne_nil (hbracketed.close pc hinstr)
      refine ⟨hsame ?_ (init_end hchecked hdecoded hinstr hopen), fun o' ho' => ?_⟩
      · rw [hopen]
        exact List.mem_cons_of_mem _ List.mem_cons_self
      · rw [scanAt_succ hinstr, Scan.step_end hopen] at ho'
        rw [hopen]
        exact List.mem_cons_of_mem _ (List.mem_cons_of_mem _ ho')
  | enter hinstr' hopens =>
      refine ⟨hsame List.mem_cons_self (init_opens hchecked hinstr' hopens), fun o ho => ?_⟩
      rwa [opens_enter hinstr' hopens] at ho
  | toElse _ helse =>
      obtain ⟨hinstr', hinside, hafter⟩ := opens_else helse
      refine ⟨hsame List.mem_cons_self (init_else hchecked hdecoded hinstr' hinside), fun o ho => ?_⟩
      rwa [hafter] at ho
  | skip hinstr' hopens =>
      obtain ⟨e, hend, hclose, hinside, hafter⟩ := opens_skip hbracketed hinstr' hopens
      rw [hend] at hsame ⊢
      refine ⟨hsame List.mem_cons_self (init_end hchecked hdecoded hclose hinside), fun o ho => ?_⟩
      rw [hafter] at ho
      exact List.mem_cons_of_mem _ ho
  | @exit label rest hinstr' hlist =>
      obtain ⟨e, hend, hclose, hinside, hopen, hafter⟩ := hlabels.exit hbracketed (Nat.le_of_lt hlt)
        (hbracketed.middle pc hinstr') hlist
      rw [hend] at hsame ⊢
      refine ⟨hsame ?_ (init_end hchecked hdecoded hclose hinside), fun o ho => ?_⟩
      · rw [hopen]
        exact List.mem_cons_of_mem _ List.mem_cons_self
      · rw [hafter] at ho
        exact List.mem_cons_of_mem _ (List.mem_of_mem_tail ho)
  | branch htarget hlast =>
      obtain ⟨hopen, hinit, hinner⟩ :=
        init_branch hchecked hdecoded (Nat.le_of_lt hlt) hlabels htarget hlast
      exact ⟨hsame (List.mem_cons_of_mem _ hopen) hinit, fun o ho => List.mem_cons_of_mem _ (hinner o ho)⟩

end Init

/-! ## Writes along a run -/

/-- What one frame has written, the last write first. -/
abbrev History := List (Nat × Value)

/-- The write of an instruction. -/
def noted (instr : Option Instr) (stack : List Value) (history : History) : History :=
  match instr.bind sets?, stack with
  | some index, v :: _ => (index, v) :: history
  | _, _ => history

def noteTop (instr : Option Instr) (stack : List Value) : List History → List History
  | [] => []
  | top :: rest => noted instr stack top :: rest

/-- The histories after an iteration: of a called function it is empty, also
where the frame is replaced, and frames that are left take theirs along. -/
def writesAfter (w : World) (stack : List Value) (frames frames' : List Frame) (histories : List History) :
    List History :=
  match frames with
  | [] => histories
  | f :: _ =>
      let instr := (bodyOf w f)[f.pc]?
      let histories := noteTop instr stack histories
      if frames.length < frames'.length then [] :: histories
      else if frames'.length = frames.length ∧ instr.any isTail then [] :: histories.tail
      else histories.drop (frames.length - frames'.length)

section WritesAfter

variable {w : World} {stack : List Value} {f : Frame} {cs frames : List Frame} {histories : List History}

theorem writesAfter_call (h : (f :: cs).length < frames.length) :
    writesAfter w stack (f :: cs) frames histories =
      [] :: noteTop (bodyOf w f)[f.pc]? stack histories := by
  simp only [writesAfter, h, if_true]

theorem writesAfter_tail (h : frames.length = (f :: cs).length)
    (htail : (bodyOf w f)[f.pc]?.any isTail = true) :
    writesAfter w stack (f :: cs) frames histories =
      [] :: (noteTop (bodyOf w f)[f.pc]? stack histories).tail := by
  simp only [writesAfter, h, Nat.lt_irrefl, if_false, htail, and_self, if_true]

theorem writesAfter_drop (h : frames.length ≤ (f :: cs).length)
    (htail : frames.length = (f :: cs).length → (bodyOf w f)[f.pc]?.any isTail = false) :
    writesAfter w stack (f :: cs) frames histories =
      (noteTop (bodyOf w f)[f.pc]? stack histories).drop ((f :: cs).length - frames.length) := by
  have hnot : ¬ (frames.length = (f :: cs).length ∧ (bodyOf w f)[f.pc]?.any isTail = true) := by
    rintro ⟨hlen, htrue⟩
    cases (htail hlen).symm.trans htrue
  simp only [writesAfter, Nat.not_lt.mpr h, if_false, hnot]

end WritesAfter

/-- The writes of the frames, the top frame's first. -/
def writes (σ : Type) : Observer σ (List History) where
  start _ := [[]]
  step w e e' histories := writesAfter w e.stack e.frames e'.frames histories
  unwind e e' histories := histories.drop (e.frames.length - e'.frames.length)

/-- The local is a parameter, has a default, or was written. -/
def Available (body : FuncBody) (signature : FuncType) (history : History) (i : Nat) : Prop :=
  i < signature.params.length ∨
    ((signature.params ++ body.locals)[i]?.map isDefaultable).getD false = true ∨
    (history.lookup i).isSome

/-- What is noted at the place of a frame, and around it, is available; and the
locals hold what was written last. -/
structure Noted (w : World) (f : Frame) (history : History) (s : Spaces) (body : FuncBody)
    (signature : FuncType) : Prop where
  code : Code w f s body signature
  pc : f.pc ≤ body.body.length
  labels : Labelled body.body f.pc f.labels
  init : ∀ place ∈ f.pc :: (scanAt body.body f.pc).opens, ∀ i,
    (initAt s body signature place)[i]? = some true → Available body signature history i
  values : ∀ i v, history.lookup i = some v → ∀ u, f.locals[i]? = some u → u = v

def Kept (w : World) (f : Frame) (history : History) : Prop :=
  ∃ s body signature, Noted w f history s body signature

section Kept

variable {w : World} {f : Frame} {history : History} {stack : List Value} {instr : Instr}

theorem noted_none (hsets : sets? instr = none) : noted (some instr) stack history = history := by
  simp only [noted, Option.bind_some, hsets]

theorem available_noted {body : FuncBody} {signature : FuncType} {i : Nat}
    (h : Available body signature history i) : Available body signature (noted (some instr) stack history) i := by
  unfold noted
  split
  · refine h.imp_right (Or.imp_right fun h => ?_)
    rw [List.lookup_cons]
    split
    · rfl
    · exact h
  · exact h

theorem Kept.grows {w' : World} (h : Kept w f history) (hgrows : w.Grows w') : Kept w' f history := by
  obtain ⟨s, body, signature, h⟩ := h
  exact ⟨s, body, signature, h.code.grows hgrows, h.pc, h.labels, h.init, h.values⟩

/-- A new frame has written nothing. -/
theorem kept_frameOf (hvalid : w.Valid) {inst defined base : Nat} {args : List Value} {callee : Frame}
    (h : Engine.frameOf w inst defined base args = .ok callee) : Kept w callee [] := by
  obtain ⟨owner, body, hinst, hbody, hpc, hlabels⟩ := frameOf_spec h
  obtain ⟨s, signature, hcode⟩ := code_of_bodies hvalid hinst hbody
  refine ⟨s, body, signature, hcode, by rw [hpc]; exact Nat.zero_le _, ?_, ?_, nofun⟩
  · rw [hpc, hlabels]
    exact ⟨[], _, rfl, rfl, rfl, .nil⟩
  · intro place hplace i hi
    rw [hpc] at hplace
    cases List.mem_singleton.mp hplace
    have hentry : initAt s body signature 0 =
        (Machine.entry signature (signature.params ++ body.locals)).init := rfl
    rw [hentry] at hi
    obtain ⟨hlt, htrue⟩ := List.getElem?_eq_some_iff.mp hi
    simp only [Machine.entry, Machine.pushFrame, Machine.pushVals, List.getElem_map, List.getElem_range,
      Bool.or_eq_true, decide_eq_true_eq] at htrue
    exact htrue.imp_right .inl

/-- Control that moves inside a frame keeps what is noted. -/
theorem Kept.shift (h : Kept w f history) {pc : Nat} {labels : List Label}
    (hinstr : (bodyOf w f)[f.pc]? = some instr) (hstack : ∀ index, sets? instr = some index → stack ≠ [])
    (hshift : Shift (bodyOf w f) f.pc f.labels pc labels) :
    Kept w { f with pc := pc, labels := labels, locals := localsAfter instr stack f.locals }
      (noted (some instr) stack history) := by
  obtain ⟨s, body, signature, h⟩ := h
  rw [h.code.code] at hinstr hshift
  obtain ⟨hpc, hlabels⟩ := h.labels.shift h.code.bracketed h.pc hshift
  obtain ⟨hinit, hopens⟩ := init_shift h.code.checked h.code.decoded hinstr h.labels hshift
  refine ⟨s, body, signature, h.code.moved _ _ _, hpc, hlabels, fun place hplace i hi => ?_, ?_⟩
  · rcases List.mem_cons.mp hplace with rfl | hplace
    · rcases hinit i hi with hsets | ⟨place, hplace, hi⟩
      · cases stack with
        | nil => exact absurd rfl (hstack i hsets)
        | cons v rest =>
            refine .inr (.inr ?_)
            simp only [noted, Option.bind_some, hsets, List.lookup_cons_self, Option.isSome_some]
      · exact available_noted (h.init place hplace i hi)
    · exact available_noted (h.init place (hopens place hplace) i hi)
  · intro i v hlookup u hu
    cases hsets : sets? instr with
    | none =>
        rw [noted_none hsets] at hlookup
        rw [localsAfter_none hsets] at hu
        exact h.values i v hlookup u hu
    | some index =>
        cases stack with
        | nil => exact absurd rfl (hstack index hsets)
        | cons top rest =>
            simp only [noted, Option.bind_some, hsets, List.lookup_cons] at hlookup
            simp only [localsAfter, hsets] at hu
            by_cases hindex : index = i
            · subst hindex
              simp only [beq_self_eq_true] at hlookup
              cases hlookup
              have hlt := (List.getElem?_eq_some_iff.mp hu).1
              rw [List.length_set] at hlt
              rw [List.getElem?_set_self hlt] at hu
              exact (Option.some.inj hu).symm
            · have hne : (i == index) = false := beq_eq_false_iff_ne.mpr fun h => hindex h.symm
              simp only [hne] at hlookup
              rw [List.getElem?_set_ne hindex] at hu
              exact h.values i v hlookup u hu

/-- An exception that is caught in a frame keeps what is noted. -/
theorem Kept.branch (h : Kept w f history) {l : Nat} {target : Label} (htarget : f.labels[l]? = some target)
    (hlast : l + 1 ≠ f.labels.length) :
    Kept w { f with pc := target.continues (mapFor w f), labels := labelsAfter f.labels l target } history := by
  obtain ⟨s, body, signature, h⟩ := h
  have hmap : mapFor w f = precompute body.body := by rw [mapFor, h.code.code]
  rw [hmap]
  obtain ⟨hpc, hlabels⟩ := h.labels.branch h.code.bracketed h.pc htarget hlast
  obtain ⟨hopen, hinit, hopens⟩ := init_branch h.code.checked h.code.decoded h.pc h.labels htarget hlast
  refine ⟨s, body, signature, h.code.moved _ _ _, hpc, hlabels, fun place hplace i hi => ?_, h.values⟩
  rcases List.mem_cons.mp hplace with rfl | hplace
  · rw [hinit] at hi
    exact h.init _ (List.mem_cons_of_mem _ hopen) i hi
  · exact h.init place (List.mem_cons_of_mem _ (hopens place hplace)) i hi

theorem Falls.length_le {frames frames' : List Frame} (h : Falls w frames frames') :
    frames'.length ≤ frames.length := by
  induction h with
  | here => exact Nat.le_refl _
  | back => exact Nat.le_succ _
  | drop _ ih => exact Nat.le_succ_of_le ih

variable {histories : List History}

theorem Falls.kept {frames frames' : List Frame} (h : Falls w frames frames')
    (hkept : List.Forall₂ (Kept w) frames histories) :
    List.Forall₂ (Kept w) frames' (histories.drop (frames.length - frames'.length)) := by
  induction h generalizing histories with
  | here htarget hlast =>
      cases hkept with
      | cons hf hcs =>
          simp only [List.length_cons, Nat.sub_self, List.drop_zero]
          exact .cons (hf.branch htarget hlast) hcs
  | @back f cs =>
      cases hkept with
      | cons hf hcs =>
          simp only [List.length_cons, Nat.add_sub_cancel_left, List.drop_one, List.tail_cons]
          exact hcs
  | @drop f cs frames hfalls ih =>
      cases hkept with
      | cons hf hcs =>
          have hle := hfalls.length_le
          have hlen : (f :: cs).length - frames.length = (cs.length - frames.length) + 1 := by
            rw [List.length_cons]
            omega
          rw [hlen, List.drop_succ_cons]
          exact ih hcs

/-- The histories of the frames after an iteration. -/
theorem Goes.kept (hvalid : w.Valid) {frames frames' : List Frame} (h : Goes w stack frames frames')
    (hkept : List.Forall₂ (Kept w) frames histories) :
    List.Forall₂ (Kept w) frames' (writesAfter w stack frames frames' histories) := by
  cases h with
  | @shift f cs instr pc labels hinstr htail hstack hshift =>
      cases hkept with
      | cons hf hcs =>
          rw [writesAfter_drop, hinstr]
          · simp only [noteTop, List.length_cons, Nat.sub_self, List.drop_zero]
            exact .cons (hf.shift hinstr hstack hshift) hcs
          · exact Nat.le_refl _
          · intro _
            rw [hinstr]
            exact htail
  | @call f callee cs instr inst defined base args hinstr hstraight hsets hframe =>
      cases hkept with
      | cons hf hcs =>
          rw [writesAfter_call (Nat.lt_succ_self _), hinstr]
          refine .cons (kept_frameOf hvalid hframe) (.cons ?_ hcs)
          have hnext := @Kept.shift _ _ _ stack _ hf _ _ hinstr (fun index h => nomatch hsets.symm.trans h)
            (.next hinstr hstraight.opens hstraight.else_ hstraight.end_)
          rwa [localsAfter_none hsets] at hnext
  | tail hinstr htail hframe =>
      cases hkept with
      | cons hf hcs =>
          rw [writesAfter_tail, hinstr]
          · exact .cons (kept_frameOf hvalid hframe) hcs
          · rfl
          · rw [hinstr]
            exact htail
  | back =>
      cases hkept with
      | cons hf hcs =>
          rw [writesAfter_drop (Nat.le_succ _) fun h => absurd h (Nat.ne_of_lt (Nat.lt_succ_self _))]
          simp only [noteTop, List.length_cons, Nat.add_sub_cancel_left, List.drop_one, List.tail_cons]
          exact hcs
  | falls hinstr htail hsets hfalls =>
      rw [writesAfter_drop hfalls.length_le fun _ => by rw [hinstr]; exact htail, hinstr]
      refine hfalls.kept ?_
      cases hkept with
      | cons hf hcs =>
          rw [noteTop, noted_none hsets]
          exact .cons hf hcs

/-- Along a run the histories are those of the frames. -/
theorem Runs.kept {σ : Type} {fx : Effects σ} {e : Engine σ} (h : Runs fx (writes σ) w e histories) :
    List.Forall₂ (Kept w) e.frames histories := by
  induction h with
  | start hvalid hstart =>
      obtain ⟨frame, args, hframe, rfl⟩ := start_spec hstart
      exact .cons (kept_frameOf hvalid hframe) .nil
  | tick hruns htick ih => exact (goes_of_moves (moves_of_tick htick)).kept hruns.valid ih
  | resume hruns htick hgrows _ _ ih =>
      obtain ⟨ty, hsuspends⟩ := suspends_of_tick htick
      refine ((goes_of_suspends hsuspends).kept hruns.valid ih).imp fun f history hkept => ?_
      exact hkept.grows hgrows
  | resumeException hruns htick hgrows hvalid hraise ih =>
      obtain ⟨ty, hsuspends⟩ := suspends_of_tick htick
      obtain ⟨tag, args, hunwinds⟩ := unwinds_of_raise hraise
      refine (falls_of_unwinds hunwinds).kept ?_
      refine ((goes_of_suspends hsuspends).kept hruns.valid ih).imp fun f history hkept => ?_
      exact hkept.grows hgrows

end Kept

/-! ## Reads -/

/-- A local that a function declares, of a type without a default. -/
def Frame.NoDefault (w : World) (f : Frame) (i : Nat) : Prop :=
  ∃ signature body ty, w.targetType (.owned f.inst f.bodyIndex) = some signature ∧
    (moduleOf w f).bodies[f.bodyIndex]? = some body ∧ signature.params.length ≤ i ∧
    body.locals[i - signature.params.length]? = some ty ∧ isDefaultable ty = false

/-- A local without a default is read where the checks have noted it. -/
theorem noted_of_localGet {s : Spaces} {signature : FuncType} {locals : List ValType}
    {machine machine' : Machine} {i : Nat}
    (hstep : machine.step s signature locals (.localGet i) = .ok machine')
    (hdefault : ∀ ty, locals[i]? = some ty → isDefaultable ty = false) : machine.init[i]? = some true := by
  obtain ⟨ty, hlookup, hcheck⟩ := bind_eq_ok.mp hstep
  have hty : locals[i]? = some ty := by
    unfold Spaces.lookup at hlookup
    split at hlookup
    · rename_i entry hentry
      cases hlookup
      exact hentry
    · cases hlookup
  simp only [hdefault ty hty, Bool.not_false, Bool.true_and] at hcheck
  cases hinit : machine.init[i]? with
  | none => simp [hinit] at hcheck; cases hcheck
  | some b =>
      cases b with
      | true => rfl
      | false => simp [hinit] at hcheck; cases hcheck

/-- A local without a default is read only after the frame has written it, and
what is read is what was written last. -/
theorem reads_written {σ : Type} (fx : Effects σ) (w : World) (e : Engine σ) (histories : List History)
    (hruns : Runs fx (writes σ) w e histories) (f : Frame) (callers : List Frame)
    (hframes : e.frames = f :: callers) (i : Nat) (hinstr : (bodyOf w f)[f.pc]? = some (.localGet i))
    (hlocal : f.NoDefault w i) :
    ∃ history rest v, histories = history :: rest ∧ history.lookup i = some v ∧
      ∀ u, f.locals[i]? = some u → u = v := by
  have hkept := hruns.kept
  rw [hframes] at hkept
  cases hkept with
  | @cons _ history _ rest hf _ =>
      obtain ⟨s, body, signature, hf⟩ := hf
      obtain ⟨signature', body', ty, htype, hbody, hle, hty, hdefault⟩ := hlocal
      cases htype.symm.trans hf.code.type
      cases hbody.symm.trans hf.code.checked.has
      rw [hf.code.code] at hinstr
      obtain ⟨machine, machine', hbefore, hstep, -⟩ := hf.code.checked.before_step hinstr
      have hnoted : machine.init[i]? = some true := noted_of_localGet hstep ?_
      · rw [← initAt_of_before hbefore] at hnoted
        rcases hf.init f.pc List.mem_cons_self i hnoted with hparam | hdefaultable | hwritten
        · omega
        · rw [List.getElem?_append_right hle, hty, Option.map_some, Option.getD_some, hdefault] at hdefaultable
          cases hdefaultable
        · obtain ⟨v, hv⟩ := Option.isSome_iff_exists.mp hwritten
          exact ⟨history, rest, v, rfl, hv, hf.values i v hv⟩
      · intro ty' hty'
        rw [List.getElem?_append_right hle, hty] at hty'
        cases hty'
        exact hdefault

/-- A function that keeps a reference to itself in a local and reads it. -/
def keeper : Module where
  types := [⟨true, [], .func ⟨[], []⟩⟩]
  functions := [0]
  declared := [0]
  bodies := [⟨[.ref ⟨false, .type 0⟩], [.refFunc 0, .localSet 0, .localGet 0, .drop]⟩]

def keeperWorld : World :=
  ⟨[⟨keeper, [.owned 0 0], [], 16⟩], [], []⟩

theorem keeperWorld_valid : keeperWorld.Valid := by
  intro inst hinst
  cases List.mem_singleton.mp hinst
  refine ⟨rfl, fun body hbody => ?_⟩
  cases List.mem_singleton.mp hbody
  exact ⟨[.refFunc 0, .localSet 0, .localGet 0, .drop, .end_], [], rfl⟩

/-- The frame of the function before it reads the local. -/
def keeperFrame : Frame :=
  ⟨0, 2, [.ref (.func ⟨0, 0⟩)], 0, 0, 0, [⟨0, 0, false, 0⟩]⟩

theorem keeper_reads : ∃ history rest v, [[(0, Value.ref (.func ⟨0, 0⟩))]] = history :: rest ∧
    history.lookup 0 = some v ∧ ∀ u, keeperFrame.locals[0]? = some u → u = v := by
  have hstart : Runs Effects.idle (writes Unit) keeperWorld
      ⟨[], [{ keeperFrame with pc := 0, locals := [.ref .null] }], ⟨[], ()⟩⟩ [[]] :=
    @Runs.start _ _ _ _ _ 0 0 [] _ _ keeperWorld_valid rfl
  have hruns : Runs Effects.idle (writes Unit) keeperWorld ⟨[], [keeperFrame], ⟨[], ()⟩⟩
      [[(0, .ref (.func ⟨0, 0⟩))]] :=
    @Runs.tick _ _ _ _ _ _ _ _ (@Runs.tick _ _ _ _ _ _ _ _ hstart rfl) rfl
  exact reads_written .idle keeperWorld _ _ hruns keeperFrame [] rfl 0 rfl
    ⟨⟨[], []⟩, _, _, rfl, rfl, Nat.le_refl _, rfl, rfl⟩

end Slag.Wasm
