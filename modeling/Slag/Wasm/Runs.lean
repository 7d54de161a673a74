import Slag.Wasm.Moves
import Slag.Wasm.Nesting

/-!
Runs of the interpreter, stops at host functions included. In the instances of
valid modules the labels of every frame are those of the constructs that are
open at its place, and the function's.
-/

namespace Slag.Wasm

open Slag.Wasm.Machine (sets?)
open Slag.Answer (forall₂_getElem? getElem?_of_isPrefix)

/-! ## Runs -/

/-- Every module is valid, and its bodies are as the decoder makes them. -/
def World.Valid (w : World) : Prop :=
  ∀ inst ∈ w.instances, validate inst.module = .ok () ∧ ∀ body ∈ inst.module.bodies, Decoded body.body

/-- Instances, host functions and tags are only added. -/
structure World.Grows (w w' : World) : Prop where
  instances : w.instances <+: w'.instances
  hostFuncs : w.hostFuncs <+: w'.hostFuncs
  tags : w.tags <+: w'.tags

/-- A host function returns as many values as its type says. -/
def World.Replies (w : World) (token : Nat) (results : List Value) : Prop :=
  ∀ host ∈ w.hostFuncs, host.token = some token → results.length = host.ty.results.length

/-- Effects without numbers, memories and tables. -/
def Effects.idle : Effects Unit where
  plain _ _ _ _ := .error .terminated
  element _ _ _ _ := .error .terminated
  refMatches _ _ _ _ := .error .terminated
  terminationRequested _ := false

/-- Something that is noted along a run: at its start, in every iteration, and
when an exception of a host is unwound. -/
structure Observer (σ τ : Type) where
  start : Engine σ → τ
  step : World → Engine σ → Engine σ → τ → τ
  unwind : Engine σ → Engine σ → τ → τ

/-- The engines a call of a function goes through. While it is stopped at a host
function, anything may happen to the store, and instances may be added. -/
inductive Runs {σ τ : Type} (fx : Effects σ) (obs : Observer σ τ) : World → Engine σ → τ → Prop where
  | start {w : World} {inst defined : Nat} {args : List Value} {store : Store σ} {e : Engine σ} :
      w.Valid → Engine.start w inst defined args store = .ok e → Runs fx obs w e (obs.start e)
  | tick {w : World} {e e' : Engine σ} {t : τ} :
      Runs fx obs w e t → e.tick w fx = .running e' → Runs fx obs w e' (obs.step w e e' t)
  | resume {w w' : World} {e e' : Engine σ} {t : τ} {token : Nat} {args results : List Value}
      {store : Store σ} :
      Runs fx obs w e t → e.tick w fx = .host token args e' → w.Grows w' → w'.Valid →
      w.Replies token results →
      Runs fx obs w' { e' with stack := results.reverse ++ e'.stack, store := store } (obs.step w e e' t)
  | resumeException {w w' : World} {e e' e'' : Engine σ} {t : τ} {token exn : Nat} {args : List Value}
      {store : Store σ} :
      Runs fx obs w e t → e.tick w fx = .host token args e' → w.Grows w' → w'.Valid →
      Engine.raise w' { e' with store := store } exn = .running e'' →
      Runs fx obs w' e'' (obs.unwind e' e'' (obs.step w e e' t))

variable {w : World} {ty : FuncType} {inst : Instance} {stack : List Value}

theorem Runs.valid {σ τ : Type} {fx : Effects σ} {obs : Observer σ τ} {e : Engine σ} {t : τ}
    (h : Runs fx obs w e t) : w.Valid := by
  induction h with
  | start hvalid => exact hvalid
  | tick _ _ ih => exact ih
  | resume _ _ _ hvalid => exact hvalid
  | resumeException _ _ _ hvalid => exact hvalid

/-! ## Code of frames -/

/-- The checked function that a frame runs. -/
structure Code (w : World) (f : Frame) (s : Spaces) (body : FuncBody) (signature : FuncType) : Prop where
  code : bodyOf w f = body.body
  type : w.targetType (.owned f.inst f.bodyIndex) = some signature
  checked : Checked (moduleOf w f) s f.bodyIndex body signature
  decoded : Decoded body.body

theorem funcAt_of_typeAt {m : Module} {index : Nat} (h : typeAt m index = .ok ty) :
    m.funcAt index = some ty := by
  unfold typeAt at h
  unfold Module.funcAt
  cases hty : m.types[index]? with
  | none => simp [hty] at h
  | some st =>
      obtain ⟨isFinal, supertypes, composite⟩ := st
      simp only [hty] at h ⊢
      cases composite with
      | func ty' =>
          cases h
          rfl
      | struct fields => cases h
      | array field => cases h

variable {body : FuncBody} {signature : FuncType} {s : Spaces} {args : List Value}

/-- A defined function of a valid world. -/
theorem code_of_bodies (hvalid : w.Valid) {f : Frame} (hinst : w.instances[f.inst]? = some inst)
    (hbody : inst.module.bodies[f.bodyIndex]? = some body) :
    ∃ s signature, Code w f s body signature := by
  obtain ⟨hmodule, hdecoded⟩ := hvalid inst (List.mem_of_getElem? hinst)
  obtain ⟨s, signature, hchecked⟩ := checked_of_validate hmodule hbody
  have hm : moduleOf w f = inst.module := by rw [moduleOf, hinst, Option.map_some, Option.getD_some]
  refine ⟨s, signature, ?_, ?_, hm ▸ hchecked, hdecoded body (List.mem_of_getElem? hbody)⟩
  · rw [bodyOf, hm, hbody, Option.map_some, Option.getD_some]
  · obtain ⟨index, hindex, htype⟩ := hchecked.type
    simp only [World.targetType, hinst, hindex, Option.bind_eq_bind, Option.bind_some]
    exact funcAt_of_typeAt htype

theorem Code.bracketed {f : Frame} (h : Code w f s body signature) : Bracketed body.body :=
  h.checked.bracketed h.decoded

/-! ## Labels -/

/-- The label of the construct that an instruction opens. -/
def LabelOf (body : List Instr) (o : Nat) (label : Label) : Prop :=
  label.opened = o ∧ ∀ instr, body[o]? = some instr → label.isLoop = isLoop instr

/-- The labels of the constructs open at a place, and the function's. -/
def Labelled (body : List Instr) (pc : Nat) (labels : List Label) : Prop :=
  ∃ inner func, labels = inner ++ [func] ∧ func.opened = 0 ∧ func.isLoop = false ∧
    List.Forall₂ (LabelOf body) (scanAt body pc).opens inner

section Labelled

variable {body : List Instr} {pc l : Nat} {labels : List Label} {instr : Instr} {target : Label}

variable {pc' : Nat}

theorem Labelled.same (h : Labelled body pc labels)
    (hopens : (scanAt body pc').opens = (scanAt body pc).opens) : Labelled body pc' labels := by
  unfold Labelled
  rw [hopens]
  exact h

variable {label : Label} {bt : BlockType}

theorem Labelled.enter (h : Labelled body pc labels) (hlabel : LabelOf body pc label)
    (hopens : (scanAt body pc').opens = pc :: (scanAt body pc).opens) :
    Labelled body pc' (label :: labels) := by
  obtain ⟨inner, func, rfl, hopened, hloop, hinner⟩ := h
  refine ⟨label :: inner, func, rfl, hopened, hloop, ?_⟩
  rw [hopens]
  exact .cons hlabel hinner

/-- The labels beyond one of them are those of the constructs further out. -/
theorem Labelled.drop {k pc' : Nat} (h : Labelled body pc labels) (hk : k < labels.length)
    (hopens : (scanAt body pc').opens = (scanAt body pc).opens.drop k) :
    Labelled body pc' (labels.drop k) := by
  obtain ⟨inner, func, rfl, hopened, hloop, hinner⟩ := h
  rw [List.length_append, List.length_singleton] at hk
  refine ⟨inner.drop k, func, ?_, hopened, hloop, ?_⟩
  · exact List.drop_append_of_le_length (by omega)
  · rw [hopens]
    exact List.forall₂_drop k hinner

/-- A label that is not the function's belongs to an open construct. -/
theorem Labelled.opened (h : Labelled body pc labels) (htarget : labels[l]? = some target)
    (hlast : l + 1 ≠ labels.length) :
    (scanAt body pc).opens[l]? = some target.opened ∧ LabelOf body target.opened target := by
  obtain ⟨inner, func, rfl, -, -, hinner⟩ := h
  have hlt := (List.getElem?_eq_some_iff.mp htarget).1
  rw [List.length_append, List.length_singleton] at hlt hlast
  rw [List.getElem?_append_left (by omega)] at htarget
  obtain ⟨o, ho, hlabel⟩ := forall₂_getElem? hinner.flip htarget
  have hopened := hlabel.1
  subst hopened
  exact ⟨ho, hlabel⟩

/-- Inside a construct there is a label beside the function's. -/
theorem Labelled.one_lt (h : Labelled body pc labels) (hopen : (scanAt body pc).opens ≠ []) :
    1 < labels.length := by
  obtain ⟨inner, func, rfl, -, -, hinner⟩ := h
  have hpos := List.length_pos_of_ne_nil hopen
  rw [hinner.length_eq] at hpos
  rw [List.length_append, List.length_singleton]
  omega

/-- The innermost construct, where its first arm ends. -/
theorem Labelled.exit (hbracketed : Bracketed body) (hpc : pc ≤ body.length)
    (h : Labelled body pc labels) {rest : List Label} (hopen : (scanAt body pc).opens ≠ [])
    (hlabels : labels = label :: rest) :
    ∃ e, (precompute body).endOf label.opened = e ∧ body[e]? = some .end_ ∧
      (scanAt body e).opens = label.opened :: (scanAt body pc).opens.tail ∧
      (scanAt body pc).opens = label.opened :: (scanAt body pc).opens.tail ∧
      (scanAt body (e + 1)).opens = (scanAt body pc).opens.tail := by
  have hlt := h.one_lt hopen
  have hhead : labels[0]? = some label := by rw [hlabels]; rfl
  obtain ⟨hopened, -⟩ := h.opened hhead (by omega)
  obtain ⟨e, hend, -, hclose, hinside, hafter⟩ := endOf_open hbracketed.balanced hpc hopened
  have hcons := drop_of_getElem? hopened
  rw [List.drop_zero, Nat.zero_add, List.drop_one] at hcons
  rw [List.drop_zero] at hinside
  rw [Nat.zero_add, List.drop_one] at hafter
  exact ⟨e, hend, hclose, hinside.trans hcons, hcons, hafter⟩

/-- How control moves inside a body. -/
inductive Shift (body : List Instr) (pc : Nat) (labels : List Label) : Nat → List Label → Prop where
  | next {instr : Instr} : body[pc]? = some instr → instr.opens? = none → instr ≠ .else_ → instr ≠ .end_ →
      Shift body pc labels (pc + 1) labels
  | close : body[pc]? = some .end_ → Shift body pc labels (pc + 1) labels.tail
  | enter {instr : Instr} {bt : BlockType} {label : Label} : body[pc]? = some instr →
      instr.opens? = some bt → LabelOf body pc label → Shift body pc labels (pc + 1) (label :: labels)
  | toElse {label : Label} {q : Nat} : LabelOf body pc label →
      (precompute body).elses[pc]? = some (some q) → Shift body pc labels (q + 1) (label :: labels)
  | skip {instr : Instr} {bt : BlockType} : body[pc]? = some instr → instr.opens? = some bt →
      Shift body pc labels ((precompute body).endOf pc + 1) labels
  | exit {label : Label} {rest : List Label} : body[pc]? = some .else_ → labels = label :: rest →
      Shift body pc labels ((precompute body).endOf label.opened + 1) rest
  | branch {l : Nat} {target : Label} : labels[l]? = some target → l + 1 ≠ labels.length →
      Shift body pc labels (target.continues (precompute body)) (labelsAfter labels l target)

/-- Where a branch to a label goes on, the constructs further out are open. -/
theorem Labelled.branch (hbracketed : Bracketed body) (hpc : pc ≤ body.length) (h : Labelled body pc labels)
    (htarget : labels[l]? = some target) (hlast : l + 1 ≠ labels.length) :
    target.continues (precompute body) ≤ body.length ∧
      Labelled body (target.continues (precompute body)) (labelsAfter labels l target) := by
  obtain ⟨hopen, hlabel⟩ := h.opened htarget hlast
  have hlt := (List.getElem?_eq_some_iff.mp htarget).1
  have hopener := opener_of_open hpc hopen
  unfold Label.continues labelsAfter
  cases hloop : target.isLoop with
  | true =>
      obtain ⟨instr, bt, hinstr, hopens⟩ := hopener.instr
      simp only [if_true]
      refine ⟨Nat.lt_of_lt_of_le hopener.lt hpc, h.drop hlt ?_⟩
      rw [scanAt_succ hinstr, Scan.opens_open hopens, hopener.outer]
      exact (drop_of_getElem? hopen).symm
  | false =>
      obtain ⟨e, hend, -, hinstr, -, hopens⟩ := endOf_open hbracketed.balanced hpc hopen
      simp only [Bool.false_eq_true, if_false, hend]
      exact ⟨(List.getElem?_eq_some_iff.mp hinstr).1, h.drop (by omega) hopens⟩

theorem opens_enter (hinstr : body[pc]? = some instr) (hopens : instr.opens? = some bt) :
    (scanAt body (pc + 1)).opens = pc :: (scanAt body pc).opens := by
  rw [scanAt_succ hinstr, Scan.opens_open hopens]

/-- What is open behind the end of the construct that an instruction opens. -/
theorem opens_skip (hbracketed : Bracketed body) (hinstr : body[pc]? = some instr)
    (hopens : instr.opens? = some bt) :
    ∃ e, (precompute body).endOf pc = e ∧ body[e]? = some .end_ ∧
      (scanAt body e).opens = pc :: (scanAt body pc).opens ∧
      (scanAt body (e + 1)).opens = (scanAt body pc).opens := by
  have hopen := opens_enter hinstr hopens
  have hlt := (List.getElem?_eq_some_iff.mp hinstr).1
  have hhead : (scanAt body (pc + 1)).opens[0]? = some pc := by rw [hopen]; rfl
  obtain ⟨e, hend, -, hclose, hinside, hafter⟩ := endOf_open hbracketed.balanced hlt hhead
  rw [hopen] at hinside hafter
  exact ⟨e, hend, hclose, hinside, hafter⟩

/-- Where an `if` goes on when its condition fails. -/
theorem opens_else {q : Nat} (h : (precompute body).elses[pc]? = some (some q)) :
    body[q]? = some .else_ ∧ (scanAt body q).opens = pc :: (scanAt body pc).opens ∧
      (scanAt body (q + 1)).opens = pc :: (scanAt body pc).opens := by
  rw [precompute_eq] at h
  obtain ⟨hlt, helse, hhead⟩ := else_inside (Nat.le_refl _) h
  have hopen : (scanAt body q).opens[0]? = some pc := by rwa [← List.head?_eq_getElem?]
  have hopener := opener_of_open (Nat.le_of_lt hlt) hopen
  have hopens : (scanAt body q).opens = pc :: (scanAt body pc).opens := by
    rw [hopener.outer]
    exact drop_of_getElem? hopen
  refine ⟨helse, hopens, ?_⟩
  rw [scanAt_succ helse, Scan.opens_else, hopens]

/-- Control stays where the labels are those of the open constructs. -/
theorem Labelled.shift (hbracketed : Bracketed body) (hpc : pc ≤ body.length)
    (h : Labelled body pc labels) {labels' : List Label} (hshift : Shift body pc labels pc' labels') :
    pc' ≤ body.length ∧ Labelled body pc' labels' := by
  cases hshift with
  | next hinstr hopens helse hend =>
      exact ⟨(List.getElem?_eq_some_iff.mp hinstr).1, h.same (scanAt_next hinstr hopens helse hend)⟩
  | close hinstr =>
      refine ⟨(List.getElem?_eq_some_iff.mp hinstr).1, ?_⟩
      obtain ⟨o, opens, hopen⟩ := List.exists_cons_of_ne_nil (hbracketed.close pc hinstr)
      have hlt := h.one_lt (hbracketed.close pc hinstr)
      rw [← List.drop_one]
      refine h.drop hlt ?_
      rw [scanAt_succ hinstr, Scan.step_end hopen, hopen]
      rfl
  | enter hinstr hopens hlabel =>
      exact ⟨(List.getElem?_eq_some_iff.mp hinstr).1, h.enter hlabel (opens_enter hinstr hopens)⟩
  | toElse hlabel helse =>
      obtain ⟨hinstr, -, hopens⟩ := opens_else helse
      exact ⟨(List.getElem?_eq_some_iff.mp hinstr).1, h.enter hlabel hopens⟩
  | skip hinstr hopens =>
      obtain ⟨e, hend, hclose, -, hafter⟩ := opens_skip hbracketed hinstr hopens
      rw [hend]
      exact ⟨(List.getElem?_eq_some_iff.mp hclose).1, h.same hafter⟩
  | @exit label rest hinstr hlabels =>
      obtain ⟨e, hend, hclose, -, -, hafter⟩ := h.exit hbracketed hpc (hbracketed.middle pc hinstr) hlabels
      rw [hend]
      refine ⟨(List.getElem?_eq_some_iff.mp hclose).1, ?_⟩
      rw [← List.drop_one] at hafter
      have hdrop := h.drop (h.one_lt (hbracketed.middle pc hinstr)) hafter
      rwa [hlabels, List.drop_one] at hdrop
  | branch htarget hlast => exact h.branch hbracketed hpc htarget hlast

end Labelled

/-! ## Frames -/

/-- The instructions that replace the frame. -/
def isTail : Instr → Bool
  | .returnCall _ | .returnCallIndirect _ _ | .returnCallRef _ => true
  | _ => false

/-- An instruction without structure. -/
structure Straight (instr : Instr) : Prop where
  opens : instr.opens? = none
  else_ : instr ≠ .else_
  end_ : instr ≠ .end_

/-- The locals after an instruction, which writes the top operand if any. -/
def localsAfter (instr : Instr) (stack locals : List Value) : List Value :=
  match sets? instr, stack with
  | some index, v :: _ => locals.set index v
  | _, _ => locals

theorem localsAfter_none {instr : Instr} (h : sets? instr = none) (stack locals : List Value) :
    localsAfter instr stack locals = locals := by
  simp only [localsAfter, h]

/-- An exception drops frames, and goes on in the next one or returns from it. -/
inductive Falls (w : World) : List Frame → List Frame → Prop where
  | here {f : Frame} {cs : List Frame} {l : Nat} {target : Label} :
      f.labels[l]? = some target → l + 1 ≠ f.labels.length →
      Falls w (f :: cs) ({ f with
        pc := target.continues (mapFor w f)
        labels := labelsAfter f.labels l target } :: cs)
  | back {f : Frame} {cs : List Frame} : Falls w (f :: cs) cs
  | drop {f : Frame} {cs frames : List Frame} : Falls w cs frames → Falls w (f :: cs) frames

/-- What an iteration does to the frames. -/
inductive Goes (w : World) (stack : List Value) : List Frame → List Frame → Prop where
  | shift {f : Frame} {cs : List Frame} {instr : Instr} {pc : Nat} {labels : List Label} :
      (bodyOf w f)[f.pc]? = some instr → isTail instr = false →
      (∀ index, sets? instr = some index → stack ≠ []) → Shift (bodyOf w f) f.pc f.labels pc labels →
      Goes w stack (f :: cs)
        ({ f with pc := pc, labels := labels, locals := localsAfter instr stack f.locals } :: cs)
  | call {f callee : Frame} {cs : List Frame} {instr : Instr} {inst defined base : Nat} {args : List Value} :
      (bodyOf w f)[f.pc]? = some instr → Straight instr → sets? instr = none →
      Engine.frameOf w inst defined base args = .ok callee →
      Goes w stack (f :: cs) (callee :: { f with pc := f.pc + 1 } :: cs)
  | tail {f callee : Frame} {cs : List Frame} {instr : Instr} {inst defined base : Nat} {args : List Value} :
      (bodyOf w f)[f.pc]? = some instr → isTail instr = true →
      Engine.frameOf w inst defined base args = .ok callee → Goes w stack (f :: cs) (callee :: cs)
  | back {f : Frame} {cs : List Frame} : Goes w stack (f :: cs) cs
  | falls {f : Frame} {cs frames : List Frame} {instr : Instr} :
      (bodyOf w f)[f.pc]? = some instr → isTail instr = false → sets? instr = none →
      Falls w (f :: cs) frames → Goes w stack (f :: cs) frames

variable {labels : List Label}

section Goes

variable {σ : Type} {w : World} {fx : Effects σ} {state : σ} {f : Frame} {cs : List Frame} {instr : Instr}

theorem straight_of_plain {m : Module} {arity : Nat × Nat} (h : plainArity m instr = some arity) :
    Straight instr ∧ isTail instr = false ∧ sets? instr = none := by
  cases instr
  case else_ | end_ => cases h
  all_goals first
    | (cases h; done)
    | exact ⟨⟨rfl, nofun, nofun⟩, rfl, rfl⟩

theorem straight_of_branch {decision : Except ExecFail (Option Nat × List Value)}
    (h : Engine.branchOf fx f state stack instr = some decision) :
    Straight instr ∧ isTail instr = false ∧ sets? instr = none := by
  cases instr
  case else_ | end_ => cases h
  all_goals first
    | (cases h; done)
    | exact ⟨⟨rfl, nofun, nofun⟩, rfl, rfl⟩

theorem straight_of_callee {tail : Bool} {stack rest : List Value} {target : FuncTarget}
    (h : Callee w fx state f tail instr stack target rest) :
    Straight instr ∧ isTail instr = tail ∧ sets? instr = none := by
  cases h <;> cases tail <;> exact ⟨⟨rfl, nofun, nofun⟩, rfl, rfl⟩

variable {stack : List Value}

/-- An instruction that writes no local moves on to another place. -/
theorem Goes.moved {pc : Nat} (hinstr : (bodyOf w f)[f.pc]? = some instr) (htail : isTail instr = false)
    (hsets : sets? instr = none) (hshift : Shift (bodyOf w f) f.pc f.labels pc labels) :
    Goes w stack (f :: cs) ({ f with pc := pc, labels := labels } :: cs) := by
  have hgoes := @Goes.shift w stack f cs instr pc labels hinstr htail
    (fun index h => nomatch hsets.symm.trans h) hshift
  rwa [localsAfter_none hsets] at hgoes

theorem Goes.next (hinstr : (bodyOf w f)[f.pc]? = some instr)
    (h : Straight instr ∧ isTail instr = false ∧ sets? instr = none) :
    Goes w stack (f :: cs) ({ f with pc := f.pc + 1 } :: cs) :=
  .moved hinstr h.2.1 h.2.2 (.next hinstr h.1.opens h.1.else_ h.1.end_)

/-- The label of the clause is counted from the labels around the `try_table`. -/
theorem findCatch_drop {tag exn l : Nat} {args payload : List Value} {labels outer : List Label}
    (h : Engine.findCatch w f tag args exn labels = some (outer, l, payload)) :
    ∃ k, outer = labels.drop (k + 1) := by
  induction labels with
  | nil => cases h
  | cons label labels ih =>
      unfold Engine.findCatch at h
      have hrest : Engine.findCatch w f tag args exn labels = some (outer, l, payload) →
          ∃ k, outer = (label :: labels).drop (k + 1) := by
        intro h
        obtain ⟨k, hk⟩ := ih h
        exact ⟨k + 1, hk⟩
      split at h
      · split at h
        · cases h
          exact ⟨0, rfl⟩
        · exact hrest h
      · exact hrest h

variable {stack' : List Value}

theorem falls_of_unwinds {tag exn : Nat} {args stack stack' : List Value} {frames frames' : List Frame}
    (h : Unwinds w tag args exn stack frames stack' frames') : Falls w frames frames' := by
  induction h with
  | @caught f cs stack payload labels l target hfind htarget hlast =>
      obtain ⟨k, rfl⟩ := findCatch_drop hfind
      rw [List.getElem?_drop] at htarget
      have hlt := (List.getElem?_eq_some_iff.mp htarget).1
      rw [List.length_drop] at hlast
      have hhere := @Falls.here w f cs _ _ htarget (by omega)
      have hlabels : labelsAfter (f.labels.drop (k + 1)) l target = labelsAfter f.labels (k + 1 + l) target := by
        unfold labelsAfter
        split
        · rw [List.drop_drop]
        · rw [List.drop_drop]
          rfl
      rw [hlabels]
      exact hhere
  | returns => exact .back
  | drops _ _ ih => exact .drop ih

/-- Every move goes one of these ways. -/
theorem goes_of_moves {frames frames' : List Frame} (h : Moves w fx state stack frames stack' frames') :
    Goes w stack frames frames' := by
  cases h with
  | plain hinstr harity => exact .next hinstr (straight_of_plain harity)
  | nop hinstr => exact .next hinstr ⟨⟨rfl, nofun, nofun⟩, rfl, rfl⟩
  | get hinstr => exact .next hinstr ⟨⟨rfl, nofun, nofun⟩, rfl, rfl⟩
  | set hinstr => exact .shift hinstr rfl nofun (.next hinstr rfl nofun nofun)
  | tee hinstr => exact .shift hinstr rfl nofun (.next hinstr rfl nofun nofun)
  | close hinstr => exact .moved hinstr rfl rfl (.close hinstr)
  | @enter f cs stack instr bt params arity hinstr hopens =>
      have hkind : isTail instr = false ∧ sets? instr = none := by
        cases instr <;> first | exact ⟨rfl, rfl⟩ | cases hopens
      refine .moved hinstr hkind.1 hkind.2 (.enter hinstr hopens ⟨rfl, fun instr' h' => ?_⟩)
      cases hinstr.symm.trans h'
      rfl
  | enterIf hinstr _ hplace =>
      have hlabel : ∀ {arity height : Nat}, LabelOf (bodyOf w _) _ ⟨arity, height, false, _⟩ :=
        ⟨rfl, fun instr' h' => by cases hinstr.symm.trans h'; rfl⟩
      rcases hplace with rfl | helse
      · exact .moved hinstr rfl rfl (.enter hinstr rfl hlabel)
      · exact .moved hinstr rfl rfl (.toElse hlabel helse)
  | skip hinstr => exact .moved hinstr rfl rfl (.skip hinstr rfl)
  | exit hinstr hlabels => exact .moved hinstr rfl rfl (.exit hinstr hlabels)
  | pass hinstr hbranch => exact .next hinstr (straight_of_branch hbranch)
  | branch hinstr hbranch htarget hlast =>
      have hkind := straight_of_branch hbranch
      exact .moved hinstr hkind.2.1 hkind.2.2 (.branch htarget hlast)
  | leave => exact .back
  | ret => exact .back
  | call hinstr hcallee _ _ hframe =>
      have hkind := straight_of_callee hcallee
      exact .call hinstr hkind.1 hkind.2.2 hframe
  | host hinstr hcallee => exact .next hinstr (straight_of_callee hcallee)
  | tail hinstr hcallee _ _ hframe => exact .tail hinstr (straight_of_callee hcallee).2.1 hframe
  | tailHost => exact .back
  | @raise f cs frames stack rest stack' instr tag exn args hinstr hthrow _ hunwinds =>
      have hkind : isTail instr = false ∧ sets? instr = none := by
        rcases hthrow with ⟨index, rfl⟩ | rfl <;> exact ⟨rfl, rfl⟩
      exact .falls hinstr hkind.1 hkind.2 (falls_of_unwinds hunwinds)

theorem goes_of_suspends {frames frames' : List Frame}
    (h : Suspends w fx state stack frames ty stack' frames') : Goes w stack frames frames' := by
  cases h with
  | call hinstr hcallee => exact .next hinstr (straight_of_callee hcallee)
  | tail => exact .back

end Goes

/-! ## The invariant -/

/-- A frame is at a place of its code, with the labels of that place. -/
def Frame.Fits (w : World) (f : Frame) : Prop :=
  ∃ s body signature, Code w f s body signature ∧ f.pc ≤ body.body.length ∧
    Labelled body.body f.pc f.labels

section Fits

variable {w : World} {f : Frame}

variable {w' : World}

theorem moduleOf_grows (h : w.Grows w') (hinst : w.instances[f.inst]? = some inst) :
    moduleOf w' f = moduleOf w f := by
  rw [moduleOf, moduleOf, hinst, getElem?_of_isPrefix h.instances hinst]

/-- The instance of a frame that has code. -/
theorem Code.instance (h : Code w f s body signature) :
    ∃ inst, w.instances[f.inst]? = some inst := by
  cases hinst : w.instances[f.inst]? with
  | some inst => exact ⟨inst, rfl⟩
  | none =>
      have htype := h.type
      simp only [World.targetType, hinst, Option.bind_eq_bind, Option.bind_none, reduceCtorEq] at htype

theorem Code.grows (h : Code w f s body signature) (hgrows : w.Grows w') :
    Code w' f s body signature := by
  obtain ⟨inst, hinst⟩ := h.instance
  have hmodule := moduleOf_grows hgrows hinst
  refine ⟨?_, ?_, hmodule ▸ h.checked, h.decoded⟩
  · rw [bodyOf, hmodule]
    exact h.code
  · have htype := h.type
    simp only [World.targetType, hinst, getElem?_of_isPrefix hgrows.instances hinst] at htype ⊢
    exact htype

theorem Frame.Fits.grows (h : f.Fits w) (hgrows : w.Grows w') : f.Fits w' := by
  obtain ⟨s, body, signature, hcode, hpc, hlabels⟩ := h
  exact ⟨s, body, signature, hcode.grows hgrows, hpc, hlabels⟩

/-- The place does not matter for the code. -/
theorem Code.moved (h : Code w f s body signature) (pc : Nat) (labels : List Label)
    (locals : List Value) :
    Code w { f with pc := pc, labels := labels, locals := locals } s body signature :=
  ⟨h.code, h.type, h.checked, h.decoded⟩

variable {callee : Frame}

/-- A new frame is at the start of its code, with the function's label. -/
theorem frameOf_spec {inst defined base : Nat}
    (h : Engine.frameOf w inst defined base args = .ok callee) :
    ∃ owner body, w.instances[callee.inst]? = some owner ∧
      owner.module.bodies[callee.bodyIndex]? = some body ∧ callee.pc = 0 ∧
      callee.labels = [⟨callee.results, callee.base, false, 0⟩] := by
  unfold Engine.frameOf at h
  cases hinst : w.instances[inst]? with
  | none => simp [hinst] at h
  | some owner =>
      simp only [hinst] at h
      split at h
      · rename_i ty body hty hbody
        cases h
        exact ⟨owner, body, hinst, hbody, rfl, rfl⟩
      · cases h

theorem fits_frameOf (hvalid : w.Valid) {inst defined base : Nat}
    (h : Engine.frameOf w inst defined base args = .ok callee) : callee.Fits w := by
  obtain ⟨owner, body, hinst, hbody, hpc, hlabels⟩ := frameOf_spec h
  obtain ⟨s, signature, hcode⟩ := code_of_bodies hvalid hinst hbody
  refine ⟨s, body, signature, hcode, by rw [hpc]; exact Nat.zero_le _, ?_⟩
  rw [hpc, hlabels]
  exact ⟨[], _, rfl, rfl, rfl, .nil⟩

theorem Frame.Fits.shift (h : f.Fits w) {pc : Nat} (locals : List Value)
    (hshift : Shift (bodyOf w f) f.pc f.labels pc labels) :
    Frame.Fits w { f with pc := pc, labels := labels, locals := locals } := by
  obtain ⟨s, body, signature, hcode, hpc, hlabels⟩ := h
  rw [hcode.code] at hshift
  obtain ⟨hpc', hlabels'⟩ := hlabels.shift hcode.bracketed hpc hshift
  exact ⟨s, body, signature, hcode.moved _ _ _, hpc', hlabels'⟩

theorem Falls.fits {frames frames' : List Frame} (h : Falls w frames frames')
    (hfits : ∀ f ∈ frames, f.Fits w) : ∀ f ∈ frames', f.Fits w := by
  induction h with
  | @here f cs l target htarget hlast =>
      obtain ⟨hf, hcs⟩ := List.forall_mem_cons.mp hfits
      exact List.forall_mem_cons.mpr ⟨hf.shift f.locals (.branch htarget hlast), hcs⟩
  | back => exact (List.forall_mem_cons.mp hfits).2
  | drop _ ih => exact ih (List.forall_mem_cons.mp hfits).2

theorem Goes.fits (hvalid : w.Valid) {frames frames' : List Frame} (h : Goes w stack frames frames')
    (hfits : ∀ f ∈ frames, f.Fits w) : ∀ f ∈ frames', f.Fits w := by
  cases h with
  | shift hinstr _ _ hshift =>
      obtain ⟨hf, hcs⟩ := List.forall_mem_cons.mp hfits
      exact List.forall_mem_cons.mpr ⟨hf.shift _ hshift, hcs⟩
  | @call f callee cs instr inst defined base args hinstr hstraight _ hframe =>
      obtain ⟨hf, hcs⟩ := List.forall_mem_cons.mp hfits
      refine List.forall_mem_cons.mpr ⟨fits_frameOf hvalid hframe, List.forall_mem_cons.mpr ⟨?_, hcs⟩⟩
      exact hf.shift f.locals (.next hinstr hstraight.opens hstraight.else_ hstraight.end_)
  | tail _ _ hframe =>
      obtain ⟨-, hcs⟩ := List.forall_mem_cons.mp hfits
      exact List.forall_mem_cons.mpr ⟨fits_frameOf hvalid hframe, hcs⟩
  | back => exact (List.forall_mem_cons.mp hfits).2
  | falls _ _ _ hfalls => exact hfalls.fits hfits

theorem start_spec {σ : Type} {inst defined : Nat} {store : Store σ} {e : Engine σ}
    (h : Engine.start w inst defined args store = .ok e) :
    ∃ frame args, Engine.frameOf w inst defined 0 args = .ok frame ∧ e = ⟨[], [frame], store⟩ := by
  unfold Engine.start at h
  cases hty : w.targetType (.owned inst defined) with
  | none => simp [hty] at h
  | some ty =>
      simp only [hty] at h
      split at h
      · cases h
      · obtain ⟨frame, hframe, h⟩ := bind_eq_ok.mp h
        cases h
        exact ⟨frame, _, hframe, rfl⟩

/-- In every run the labels of every frame are those of its place. -/
theorem Runs.fits {σ τ : Type} {fx : Effects σ} {obs : Observer σ τ} {e : Engine σ} {t : τ}
    (h : Runs fx obs w e t) : ∀ f ∈ e.frames, f.Fits w := by
  induction h with
  | start hvalid hstart =>
      obtain ⟨frame, args, hframe, rfl⟩ := start_spec hstart
      exact List.forall_mem_singleton.mpr (fits_frameOf hvalid hframe)
  | tick hruns htick ih => exact (goes_of_moves (moves_of_tick htick)).fits hruns.valid ih
  | resume hruns htick hgrows _ _ ih =>
      obtain ⟨ty, hsuspends⟩ := suspends_of_tick htick
      intro f hf
      exact ((goes_of_suspends hsuspends).fits hruns.valid ih f hf).grows hgrows
  | resumeException hruns htick hgrows hvalid hraise ih =>
      obtain ⟨ty, hsuspends⟩ := suspends_of_tick htick
      obtain ⟨tag, args, hunwinds⟩ := unwinds_of_raise hraise
      refine (falls_of_unwinds hunwinds).fits fun f hf => ?_
      exact ((goes_of_suspends hsuspends).fits hruns.valid ih f hf).grows hgrows

end Fits

end Slag.Wasm
