import Slag.Wasm.Bodies
import Slag.Wasm.Engine
import Slag.Wasm.Levels

/-!
The nesting of a checked body. Where the decoder's bracketing and the validator
both accept a body, every opening instruction has its `end`, the body map finds
it, and the checks at the places a branch goes to fit those at the opening.
-/

namespace Slag.Wasm

/-- What `decode_expr` keeps of a stream of instructions: all up to the `end`
that closes the expression, which is consumed. -/
def decodeExpr : Nat → List Instr → Option (List Instr × List Instr)
  | _, [] => none
  | 0, .end_ :: stream => some ([], stream)
  | depth + 1, .end_ :: stream =>
      (decodeExpr depth stream).map fun r => (.end_ :: r.1, r.2)
  | depth, instr :: stream =>
      (decodeExpr (if instr.opens?.isSome then depth + 1 else depth) stream).map fun r =>
        (instr :: r.1, r.2)

/-- A body as the decoder produces it. -/
def Decoded (body : List Instr) : Prop :=
  ∃ stream rest, decodeExpr 0 stream = some (body, rest)

variable {o : Nat} {bt : BlockType}

namespace Scan

variable {scan : Scan} {pc : Nat} {instr : Instr}

theorem over_append (scan : Scan) (first second : List Instr) (pc : Nat) :
    scan.over (first ++ second) pc = (scan.over first pc).over second (pc + first.length) := by
  induction first generalizing scan pc with
  | nil => rfl
  | cons instr first ih =>
      simp only [List.cons_append, Scan.over, ih, List.length_cons]
      congr 1
      omega

theorem opens_open (h : instr.opens? = some bt) :
    scan.step pc instr = { scan with opens := pc :: scan.opens } := by
  cases instr
  case block | loop | if_ | tryTable => rfl
  all_goals cases h

theorem step_other (hopens : instr.opens? = none) (helse : instr ≠ .else_) (hend : instr ≠ .end_) :
    scan.step pc instr = scan := by
  cases instr
  case block | loop | if_ | tryTable => cases hopens
  case else_ => exact absurd rfl helse
  case end_ => exact absurd rfl hend
  all_goals rfl

theorem opens_else : (scan.step pc .else_).opens = scan.opens := by
  cases h : scan.opens with
  | nil => simp only [step, h]
  | cons o opens => simp only [step, h]

/-- An opener that is closed stays as it is in the map. -/
theorem frozen (body : List Instr) (ho : o < pc) (hclosed : o ∉ scan.opens) :
    (scan.over body pc).map.ends[o]? = scan.map.ends[o]? ∧
      (scan.over body pc).map.elses[o]? = scan.map.elses[o]? := by
  induction body generalizing scan pc with
  | nil => exact ⟨rfl, rfl⟩
  | cons instr body ih =>
      have hstep : o ∉ (scan.step pc instr).opens ∧
          (scan.step pc instr).map.ends[o]? = scan.map.ends[o]? ∧
          (scan.step pc instr).map.elses[o]? = scan.map.elses[o]? := by
        cases hopens : instr.opens? with
        | some bt =>
            rw [opens_open hopens]
            refine ⟨fun hin => ?_, rfl, rfl⟩
            rcases List.mem_cons.mp hin with rfl | hin
            · omega
            · exact hclosed hin
        | none =>
            by_cases helse : instr = .else_
            · subst helse
              cases hlist : scan.opens with
              | nil => simp only [step, hlist, List.not_mem_nil, not_false_eq_true, and_self]
              | cons top opens =>
                  have hne : top ≠ o := by
                    rintro rfl
                    exact hclosed (hlist ▸ List.mem_cons_self)
                  rw [step_else hlist]
                  exact ⟨hclosed, rfl, List.getElem?_set_ne hne⟩
            · by_cases hend : instr = .end_
              · subst hend
                cases hlist : scan.opens with
                | nil => simp only [step, hlist, List.not_mem_nil, not_false_eq_true, and_self]
                | cons top opens =>
                    rw [hlist] at hclosed
                    have hne : top ≠ o := by
                      rintro rfl
                      exact hclosed List.mem_cons_self
                    rw [step_end hlist]
                    exact ⟨fun hin => hclosed (List.mem_cons_of_mem _ hin),
                      List.getElem?_set_ne hne, rfl⟩
              · rw [step_other hopens helse hend]
                exact ⟨hclosed, rfl, rfl⟩
      obtain ⟨hopen, hends, helses⟩ := hstep
      obtain ⟨hends', helses'⟩ := ih (Nat.lt_succ_of_lt ho) hopen
      exact ⟨hends'.trans hends, helses'.trans helses⟩

theorem length_map (scan : Scan) (body : List Instr) (pc : Nat) :
    (scan.over body pc).map.ends.length = scan.map.ends.length ∧
      (scan.over body pc).map.elses.length = scan.map.elses.length := by
  induction body generalizing scan pc with
  | nil => exact ⟨rfl, rfl⟩
  | cons instr body ih =>
      have hstep : (scan.step pc instr).map.ends.length = scan.map.ends.length ∧
          (scan.step pc instr).map.elses.length = scan.map.elses.length := by
        unfold step
        split
        · exact ⟨rfl, rfl⟩
        · exact ⟨rfl, rfl⟩
        · exact ⟨rfl, rfl⟩
        · exact ⟨rfl, rfl⟩
        · split <;> simp only [List.length_set, and_self]
        · split <;> simp only [List.length_set, and_self]
        · exact ⟨rfl, rfl⟩
      obtain ⟨hends, helses⟩ := ih (scan.step pc instr) (pc + 1)
      exact ⟨hends.trans hstep.1, helses.trans hstep.2⟩

end Scan

/-- In a decoded body no `end` stands outside all constructs. -/
theorem opens_of_decodeExpr {depth : Nat} {stream body rest : List Instr} {scan : Scan} {pc i : Nat}
    (h : decodeExpr depth stream = some (body, rest)) (hdepth : scan.opens.length = depth)
    (hi : body[i]? = some .end_) : (scan.over (body.take i) pc).opens ≠ [] := by
  induction stream generalizing depth body scan pc i with
  | nil => cases h
  | cons instr stream ih =>
      by_cases hend : instr = .end_
      · subst hend
        cases depth with
        | zero =>
            cases h
            cases hi
        | succ depth =>
            simp only [decodeExpr, Option.map_eq_some_iff] at h
            obtain ⟨⟨body', rest'⟩, h, heq⟩ := h
            cases heq
            obtain ⟨o, opens, hopens⟩ := List.exists_cons_of_length_eq_add_one hdepth
            cases i with
            | zero =>
                intro hnil
                cases hopens.symm.trans hnil
            | succ i =>
                rw [List.take_succ_cons, Scan.over, Scan.step_end hopens]
                refine ih h ?_ hi
                rw [hopens] at hdepth
                exact Nat.succ.inj hdepth
      · have hother : decodeExpr depth (instr :: stream) =
            (decodeExpr (if instr.opens?.isSome then depth + 1 else depth) stream).map fun r =>
              (instr :: r.1, r.2) := by
          cases depth <;> cases instr <;> first | rfl | exact absurd rfl hend
        rw [hother, Option.map_eq_some_iff] at h
        obtain ⟨⟨body', rest'⟩, h, heq⟩ := h
        cases heq
        cases i with
        | zero =>
            cases hi
            exact absurd rfl hend
        | succ i =>
            rw [List.take_succ_cons, Scan.over]
            refine ih h ?_ hi
            cases hopens : instr.opens? with
            | some bt =>
                rw [Scan.opens_open hopens]
                simp only [List.length_cons, hdepth, Option.isSome_some, if_true]
            | none =>
                simp only [Option.isSome_none, Bool.false_eq_true, if_false]
                by_cases helse : instr = .else_
                · subst helse
                  rw [Scan.opens_else]
                  exact hdepth
                · rw [Scan.step_other hopens helse hend]
                  exact hdepth

/-! ## Open constructs -/

/-- The scan of a body before one of its instructions. -/
def scanAt (body : List Instr) (pc : Nat) : Scan :=
  (Scan.start body).over (body.take pc) 0

section Opens

variable {body : List Instr} {pc o k : Nat} {instr : Instr}

theorem scanAt_succ (h : body[pc]? = some instr) :
    scanAt body (pc + 1) = (scanAt body pc).step pc instr := by
  have hlt := (List.getElem?_eq_some_iff.mp h).1
  have htake : body.take (pc + 1) = body.take pc ++ [instr] := by
    rw [List.take_add_one, h]
    rfl
  rw [scanAt, scanAt, htake, Scan.over_append, List.length_take, Nat.min_eq_left (Nat.le_of_lt hlt),
    Nat.zero_add]
  rfl

/-- The instructions that open a construct, open from before this place on. -/
structure Opener (body : List Instr) (pc : Nat) (opens : List Nat) (k o : Nat) : Prop where
  lt : o < pc
  instr : ∃ instr bt, body[o]? = some instr ∧ instr.opens? = some bt
  outer : (scanAt body o).opens = opens.drop (k + 1)

theorem Opener.mono {opens opens' : List Nat} {pc' k' : Nat} (h : Opener body pc opens k o)
    (hpc : pc ≤ pc') (hdrop : opens'.drop (k' + 1) = opens.drop (k + 1)) :
    Opener body pc' opens' k' o :=
  ⟨Nat.lt_of_lt_of_le h.lt hpc, h.instr, h.outer.trans hdrop.symm⟩

theorem opener_of_open (hpc : pc ≤ body.length) (hk : (scanAt body pc).opens[k]? = some o) :
    Opener body pc (scanAt body pc).opens k o := by
  induction pc generalizing k with
  | zero => cases hk
  | succ pc ih =>
      have hinstr : body[pc]? = some body[pc] := List.getElem?_eq_getElem hpc
      have hle : pc ≤ body.length := Nat.le_of_lt hpc
      rw [scanAt_succ hinstr] at hk ⊢
      cases hopens : body[pc].opens? with
      | some bt =>
          rw [Scan.opens_open hopens] at hk ⊢
          cases k with
          | zero =>
              cases hk
              exact ⟨Nat.lt_succ_self _, ⟨_, bt, hinstr, hopens⟩, rfl⟩
          | succ k => exact (ih hle hk).mono (Nat.le_succ _) rfl
      | none =>
          by_cases helse : body[pc] = .else_
          · rw [helse, Scan.opens_else] at hk ⊢
            exact (ih hle hk).mono (Nat.le_succ _) rfl
          · by_cases hend : body[pc] = .end_
            · rw [hend] at hk ⊢
              cases hlist : (scanAt body pc).opens with
              | nil =>
                  simp only [Scan.step, hlist] at hk
                  cases hk
              | cons top opens =>
                  rw [Scan.step_end hlist] at hk ⊢
                  have hk' : (scanAt body pc).opens[k + 1]? = some o := by rwa [hlist]
                  refine (ih hle hk').mono (Nat.le_succ _) ?_
                  rw [hlist]
                  rfl
            · rw [Scan.step_other hopens helse hend] at hk ⊢
              exact (ih hle hk).mono (Nat.le_succ _) rfl

/-- A construct that is open now and closed at the end is closed at some `end`
on the way. -/
theorem Scan.closes {scan : Scan} {suffix : List Instr} {inner rest : List Nat}
    (hopens : scan.opens = inner ++ o :: rest) (hend : (scan.over suffix pc).opens = []) :
    ∃ i, suffix[i]? = some .end_ ∧ (scan.over (suffix.take i) pc).opens = o :: rest := by
  induction suffix generalizing scan pc inner with
  | nil =>
      rw [Scan.over, hopens] at hend
      cases inner <;> cases hend
  | cons instr suffix ih =>
      -- One step further with what is open inside the construct then.
      have hnext : ∀ inner' : List Nat, (scan.step pc instr).opens = inner' ++ o :: rest →
          ∃ i, (instr :: suffix)[i]? = some .end_ ∧
            (scan.over ((instr :: suffix).take i) pc).opens = o :: rest := by
        intro inner' hstep
        obtain ⟨i, hi, hclosed⟩ := ih hstep hend
        exact ⟨i + 1, hi, hclosed⟩
      cases hinstr : instr.opens? with
      | some bt =>
          refine hnext (pc :: inner) ?_
          rw [Scan.opens_open hinstr, hopens]
          rfl
      | none =>
          by_cases helse : instr = .else_
          · refine hnext inner ?_
            rw [helse, Scan.opens_else, hopens]
          · by_cases hfinal : instr = .end_
            · cases inner with
              | nil => exact ⟨0, by rw [hfinal]; rfl, hopens⟩
              | cons top inner =>
                  refine hnext inner ?_
                  rw [hfinal, Scan.step_end hopens]
                  rfl
            · refine hnext inner ?_
              rw [Scan.step_other hinstr helse hfinal, hopens]

theorem drop_of_getElem? {α : Type} {l : List α} {a : α} (h : l[k]? = some a) :
    l.drop k = a :: l.drop (k + 1) := by
  obtain ⟨hlt, rfl⟩ := List.getElem?_eq_some_iff.mp h
  exact List.drop_eq_getElem_cons hlt

/-- What is open further out was opened before. -/
theorem not_mem_outer (hpc : pc ≤ body.length) (hk : (scanAt body pc).opens[k]? = some o) :
    o ∉ (scanAt body pc).opens.drop (k + 1) := by
  have hopener := opener_of_open hpc hk
  rw [← hopener.outer]
  intro hmem
  obtain ⟨j, hj⟩ := List.getElem?_of_mem hmem
  have hle : o ≤ body.length := Nat.le_trans (Nat.le_of_lt hopener.lt) hpc
  exact Nat.lt_irrefl _ (opener_of_open hle hj).lt

theorem scanAt_add (hpc : pc ≤ body.length) (i : Nat) :
    scanAt body (pc + i) = (scanAt body pc).over ((body.drop pc).take i) pc := by
  rw [scanAt, scanAt, List.take_add, Scan.over_append, List.length_take, Nat.min_eq_left hpc,
    Nat.zero_add]

theorem scanAt_length (hpc : pc ≤ body.length) :
    scanAt body body.length = (scanAt body pc).over (body.drop pc) pc := by
  have hlen : body.length = pc + (body.drop pc).length := by
    rw [List.length_drop, Nat.add_sub_cancel' hpc]
  rw [hlen, scanAt_add hpc, List.take_length]

theorem precompute_eq (body : List Instr) : precompute body = (scanAt body body.length).map := by
  rw [precompute, scanAt, List.take_length]

/-- The body map knows where an open construct ends, and what is open there. -/
theorem endOf_open (hbalanced : (scanAt body body.length).opens = []) (hpc : pc ≤ body.length)
    (hk : (scanAt body pc).opens[k]? = some o) :
    ∃ e, (precompute body).endOf o = e ∧ pc ≤ e ∧ body[e]? = some .end_ ∧
      (scanAt body e).opens = (scanAt body pc).opens.drop k ∧
      (scanAt body (e + 1)).opens = (scanAt body pc).opens.drop (k + 1) := by
  have hdrop := drop_of_getElem? hk
  have hsplit : (scanAt body pc).opens =
      (scanAt body pc).opens.take k ++ o :: (scanAt body pc).opens.drop (k + 1) := by
    rw [← hdrop, List.take_append_drop]
  have hfinal : ((scanAt body pc).over (body.drop pc) pc).opens = [] := by
    rw [← scanAt_length hpc]
    exact hbalanced
  obtain ⟨i, hi, hclosed⟩ := Scan.closes hsplit hfinal
  rw [List.getElem?_drop] at hi
  rw [← scanAt_add hpc] at hclosed
  have hafter := (scanAt_succ hi).trans (Scan.step_end hclosed)
  refine ⟨pc + i, ?_, Nat.le_add_right _ _, hi, hclosed.trans hdrop.symm, by rw [hafter]⟩
  have hopener := opener_of_open hpc hk
  have hnext : pc + i + 1 ≤ body.length := (List.getElem?_eq_some_iff.mp hi).1
  have hends : (scanAt body (pc + i + 1)).map.ends[o]? = some (pc + i) := by
    rw [hafter]
    refine List.getElem?_set_self ?_
    have hlen := (Scan.length_map (Scan.start body) (body.take (pc + i)) 0).1
    change (scanAt body (pc + i)).map.ends.length = _ at hlen
    rw [hlen, Scan.start, List.length_replicate]
    exact Nat.lt_of_lt_of_le hopener.lt hpc
  have hkept : (scanAt body body.length).map.ends[o]? = some (pc + i) := by
    rw [scanAt_length hnext, ← hends]
    refine (Scan.frozen (body.drop (pc + i + 1)) ?_ ?_).1
    · exact Nat.lt_of_lt_of_le hopener.lt (by omega)
    · rw [hafter]
      exact not_mem_outer hpc hk
  rw [precompute_eq, BodyMap.endOf, hkept, Option.getD_some]

/-- The `else` that the body map has for an opener stands directly in its
construct. -/
theorem else_inside {q : Nat} (hpc : pc ≤ body.length)
    (h : (scanAt body pc).map.elses[o]? = some (some q)) :
    q < pc ∧ body[q]? = some .else_ ∧ (scanAt body q).opens.head? = some o := by
  induction pc with
  | zero =>
      obtain ⟨hlt, hnone⟩ := List.getElem?_eq_some_iff.mp h
      cases (List.getElem_replicate hlt).symm.trans hnone
  | succ pc ih =>
      have hinstr : body[pc]? = some body[pc] := List.getElem?_eq_getElem hpc
      have hle : pc ≤ body.length := Nat.le_of_lt hpc
      have hold : (scanAt body pc).map.elses[o]? = some (some q) →
          q < pc + 1 ∧ body[q]? = some .else_ ∧ (scanAt body q).opens.head? = some o := by
        intro h
        obtain ⟨hlt, hrest⟩ := ih hle h
        exact ⟨Nat.lt_succ_of_lt hlt, hrest⟩
      rw [scanAt_succ hinstr] at h
      cases hopens : body[pc].opens? with
      | some bt =>
          rw [Scan.opens_open hopens] at h
          exact hold h
      | none =>
          by_cases helse : body[pc] = .else_
          · rw [helse] at h
            cases hlist : (scanAt body pc).opens with
            | nil =>
                simp only [Scan.step, hlist] at h
                exact hold h
            | cons top opens =>
                rw [Scan.step_else hlist] at h
                by_cases htop : top = o
                · subst htop
                  have hlt : top < (scanAt body pc).map.elses.length := by
                    have hlt := (List.getElem?_eq_some_iff.mp h).1
                    rwa [List.length_set] at hlt
                  rw [List.getElem?_set_self hlt] at h
                  cases h
                  exact ⟨Nat.lt_succ_self _, hinstr.trans (congrArg some helse), by rw [hlist]; rfl⟩
                · rw [List.getElem?_set_ne htop] at h
                  exact hold h
          · by_cases hend : body[pc] = .end_
            · rw [hend] at h
              cases hlist : (scanAt body pc).opens with
              | nil =>
                  simp only [Scan.step, hlist] at h
                  exact hold h
              | cons top opens =>
                  rw [Scan.step_end hlist] at h
                  exact hold h
            · rw [Scan.step_other hopens helse hend] at h
              exact hold h

end Opens

/-! ## Frames and open constructs -/

open Slag.Wasm.Machine (Takes opensExtra opensCtrl sets?)

/-- Each frame lies at the operands or at the next frame, or below. -/
def Tower : List CtrlFrame → Nat → Prop
  | [], _ => True
  | f :: rest, n => f.height ≤ n ∧ Tower rest f.height

section Nested

variable {m : Module} {s : Spaces} {defined : Nat} {body : FuncBody} {signature : FuncType}

/-- The frame of the construct that an instruction opens, with the checks there. -/
structure FrameOf (s : Spaces) (body : FuncBody) (signature : FuncType) (o : Nat) (f : CtrlFrame)
    (instr : Instr) (bt : BlockType) (machine mid : Machine) : Prop where
  here : body.body[o]? = some instr
  opens : instr.opens? = some bt
  before : Checked.before s body signature o = .ok machine
  takes : Takes machine mid (opensExtra instr + f.startTypes.length)
  types : s.resolveBlockType bt = .ok (f.startTypes, f.endTypes)
  height : f.height = mid.vals.length
  init : f.savedInit = machine.init
  ctrl : f.ctrl = opensCtrl instr ∨ (∃ bt, instr = .if_ bt) ∧ f.ctrl = .else_

def Opened (s : Spaces) (body : FuncBody) (signature : FuncType) (o : Nat) (f : CtrlFrame) : Prop :=
  ∃ instr bt machine mid, FrameOf s body signature o f instr bt machine mid

variable {f : CtrlFrame} {instr : Instr}

theorem Opened.dead (h : Opened s body signature o f) (dead : Bool) :
    Opened s body signature o { f with unreachable := dead } := by
  obtain ⟨instr, bt, machine, mid, h⟩ := h
  exact ⟨instr, bt, machine, mid, h.here, h.opens, h.before, h.takes, h.types, h.height, h.init, h.ctrl⟩

theorem Opened.ctrl_ne (h : Opened s body signature o f) : f.ctrl ≠ .func := by
  obtain ⟨instr, bt, machine, mid, h⟩ := h
  rcases h.ctrl with hctrl | ⟨-, hctrl⟩
  · rw [hctrl]
    unfold opensCtrl
    split <;> nofun
  · rw [hctrl]
    nofun

/-- The frames of the checks at a place of a body are those of the constructs
that are open there and, outermost, the function's. -/
structure Nested (s : Spaces) (body : FuncBody) (signature : FuncType) (pc : Nat) (machine : Machine)
    (inner : List CtrlFrame) (func : CtrlFrame) : Prop where
  frames : machine.frames = inner ++ [func]
  ctrl : func.ctrl = .func
  results : func.endTypes = signature.results
  height : func.height = 0
  opened : List.Forall₂ (Opened s body signature) (scanAt body.body pc).opens inner
  tower : Tower machine.frames machine.vals.length

theorem nested_entry : ∃ inner func, Nested s body signature 0
    (Machine.entry signature (signature.params ++ body.locals)) inner func :=
  ⟨[], _, rfl, rfl, rfl, rfl, .nil, Nat.le_refl 0, trivial⟩

theorem Tower.mono {frames : List CtrlFrame} {n n' : Nat} (h : Tower frames n) (hn : n ≤ n') :
    Tower frames n' := by
  cases frames with
  | nil => trivial
  | cons f rest => exact ⟨Nat.le_trans h.1 hn, h.2⟩

variable {pc : Nat} {machine machine' : Machine} {inner : List CtrlFrame} {func : CtrlFrame}

/-- An instruction without structure leaves the frames. -/
theorem Nested.keeps (h : Nested s body signature pc machine inner func)
    (hkeeps : Machine.Keeps machine machine')
    (hopens : (scanAt body.body (pc + 1)).opens = (scanAt body.body pc).opens) :
    ∃ inner func, Nested s body signature (pc + 1) machine' inner func := by
  obtain ⟨hframes, hctrl, hresults, hheight, hopened, htower⟩ := h
  rw [hframes] at htower
  cases inner with
  | nil =>
      obtain ⟨dead, hframes', hlow⟩ := hkeeps.frames func [] hframes htower.1
      refine ⟨[], { func with unreachable := dead }, hframes', hctrl, hresults, hheight, hopens ▸ hopened, ?_⟩
      rw [hframes']
      exact ⟨hlow, trivial⟩
  | cons f inner =>
      obtain ⟨dead, hframes', hlow⟩ := hkeeps.frames f (inner ++ [func]) hframes htower.1
      refine ⟨{ f with unreachable := dead } :: inner, func, hframes', hctrl, hresults, hheight, ?_, ?_⟩
      · rw [hopens]
        generalize (scanAt body.body pc).opens = opens at hopened
        cases hopened with
        | cons hf hrest => exact .cons (hf.dead dead) hrest
      · rw [hframes']
        exact ⟨hlow, htower.2⟩

theorem Nested.opens (h : Nested s body signature pc machine inner func)
    (hbefore : Checked.before s body signature pc = .ok machine) (hinstr : body.body[pc]? = some instr)
    (hopens : instr.opens? = some bt)
    (hstep : machine.step s signature (signature.params ++ body.locals) instr = .ok machine') :
    ∃ inner func, Nested s body signature (pc + 1) machine' inner func := by
  obtain ⟨hframes, hctrl, hresults, hheight, hopened, htower⟩ := h
  obtain ⟨params, results, mid, htypes, htakes, rfl⟩ := Machine.check_opens hopens _ hstep
  have hscan : (scanAt body.body (pc + 1)).opens = pc :: (scanAt body.body pc).opens := by
    rw [scanAt_succ hinstr, Scan.opens_open hopens]
  refine ⟨⟨opensCtrl instr, params, results, mid.vals.length, false, mid.init⟩ :: inner, func, ?_, hctrl,
    hresults, hheight, ?_, ?_⟩
  · simp only [Machine.pushFrame, htakes.frames, hframes, List.cons_append]
  · rw [hscan]
    refine .cons ⟨instr, bt, machine, mid, hinstr, hopens, hbefore, htakes, htypes, rfl, htakes.init, .inl rfl⟩
      hopened
  · refine ⟨?_, ?_⟩
    · simp only [Machine.pushFrame, Machine.pushVals, List.length_append]
      omega
    · rw [htakes.frames]
      cases hlist : machine.frames with
      | nil => trivial
      | cons f rest =>
          rw [hlist] at htower
          exact ⟨(htakes.height f rest hlist htower.1).1, htower.2⟩

theorem Nested.else_ (h : Nested s body signature pc machine inner func)
    (hinstr : body.body[pc]? = some .else_)
    (hstep : machine.step s signature (signature.params ++ body.locals) .else_ = .ok machine') :
    ∃ inner func, Nested s body signature (pc + 1) machine' inner func := by
  obtain ⟨hframes, hctrl, hresults, hheight, hopened, htower⟩ := h
  obtain ⟨f, rest, hlist, hif, hframes', hinit, hvals⟩ := Machine.check_else _ hstep
  have hscan : (scanAt body.body (pc + 1)).opens = (scanAt body.body pc).opens := by
    rw [scanAt_succ hinstr, Scan.opens_else]
  cases inner with
  | nil =>
      cases hframes.symm.trans hlist
      cases hctrl.symm.trans hif
  | cons f' inner =>
      cases hframes.symm.trans hlist
      refine ⟨⟨.else_, f.startTypes, f.endTypes, f.height, false, f.savedInit⟩ :: inner, func, hframes', hctrl,
        hresults, hheight, ?_, ?_⟩
      · rw [hscan]
        generalize (scanAt body.body pc).opens = opens at hopened
        cases hopened with
        | cons hf hrest =>
            refine .cons ?_ hrest
            obtain ⟨instr, bt, machine, mid, hf⟩ := hf
            refine ⟨instr, bt, machine, mid, hf.here, hf.opens, hf.before, hf.takes, hf.types, hf.height,
              hf.init, .inr ⟨?_, rfl⟩⟩
            rcases hf.ctrl with hctrl | ⟨hinstr, -⟩
            · rw [hif] at hctrl
              cases instr
              case if_ bt => exact ⟨bt, rfl⟩
              all_goals cases hctrl
            · exact hinstr
      · rw [hframes', hvals]
        rw [hframes] at htower
        exact ⟨Nat.le_add_right _ _, htower.2⟩

theorem Nested.end_ (h : Nested s body signature pc machine inner func)
    (hinstr : body.body[pc]? = some .end_) (hopen : (scanAt body.body pc).opens ≠ [])
    (hstep : machine.step s signature (signature.params ++ body.locals) .end_ = .ok machine') :
    ∃ inner func, Nested s body signature (pc + 1) machine' inner func := by
  obtain ⟨hframes, hctrl, hresults, hheight, hopened, htower⟩ := h
  obtain ⟨f, rest, hlist, hclose, -⟩ := Machine.check_end _ hstep
  obtain ⟨o, opens, hopens⟩ := List.exists_cons_of_ne_nil hopen
  have hscan : (scanAt body.body (pc + 1)).opens = opens := by
    rw [scanAt_succ hinstr, Scan.step_end hopens]
  rw [hopens] at hopened
  cases hopened with
  | cons hf hrest =>
      cases hframes.symm.trans hlist
      obtain ⟨hframes', hinit, hvals, -⟩ := hclose hf.ctrl_ne
      refine ⟨_, func, hframes', hctrl, hresults, hheight, hscan ▸ hrest, ?_⟩
      rw [hframes']
      rw [hframes] at htower
      exact htower.2.mono (by omega)

theorem scanAt_next {body : List Instr} (hinstr : body[pc]? = some instr) (hopens : instr.opens? = none)
    (helse : instr ≠ .else_) (hend : instr ≠ .end_) :
    (scanAt body (pc + 1)).opens = (scanAt body pc).opens := by
  rw [scanAt_succ hinstr, Scan.step_other hopens helse hend]

theorem Nested.step (h : Nested s body signature pc machine inner func)
    (hbefore : Checked.before s body signature pc = .ok machine) (hinstr : body.body[pc]? = some instr)
    (hopen : instr = .end_ → (scanAt body.body pc).opens ≠ [])
    (hstep : machine.step s signature (signature.params ++ body.locals) instr = .ok machine') :
    ∃ inner func, Nested s body signature (pc + 1) machine' inner func := by
  cases hopens : instr.opens? with
  | some bt => exact h.opens hbefore hinstr hopens hstep
  | none =>
      by_cases helse : instr = .else_
      · subst helse
        exact h.else_ hinstr hstep
      · by_cases hend : instr = .end_
        · subst hend
          exact h.end_ hinstr (hopen rfl) hstep
        · have hscan := scanAt_next hinstr hopens helse hend
          cases hsets : sets? instr with
          | none => exact h.keeps (Machine.keeps_step hopens helse hend hsets _ hstep) hscan
          | some index =>
              obtain ⟨mid, hmid, rfl⟩ := Machine.check_sets hsets _ hstep
              obtain ⟨inner', func', h'⟩ := h.keeps hmid hscan
              exact ⟨inner', func', h'.frames, h'.ctrl, h'.results, h'.height, h'.opened, h'.tower⟩

/-- In a body as it is decoded, each `end` closes a construct. -/
theorem Decoded.open_at_end {body : List Instr} (h : Decoded body) (hend : body[pc]? = some .end_) :
    (scanAt body pc).opens ≠ [] := by
  obtain ⟨stream, rest, h⟩ := h
  exact opens_of_decodeExpr h rfl hend

theorem Checked.nested (h : Checked m s defined body signature) (hdecoded : Decoded body.body)
    (hpc : pc ≤ body.body.length) :
    ∃ machine inner func, Checked.before s body signature pc = .ok machine ∧
      Nested s body signature pc machine inner func := by
  induction pc with
  | zero =>
      obtain ⟨inner, func, hentry⟩ := @nested_entry s body signature
      exact ⟨_, inner, func, rfl, hentry⟩
  | succ pc ih =>
      obtain ⟨machine, inner, func, hbefore, hnested⟩ := ih (Nat.le_of_succ_le hpc)
      have hinstr : body.body[pc]? = some body.body[pc] := List.getElem?_eq_getElem hpc
      obtain ⟨machine₀, machine', hbefore₀, hstep, hafter⟩ := h.before_step hinstr
      cases hbefore₀.symm.trans hbefore
      obtain ⟨inner', func', hnested'⟩ := hnested.step hbefore hinstr
        (fun hend => hdecoded.open_at_end (hinstr.trans (congrArg some hend))) hstep
      exact ⟨machine', inner', func', hafter, hnested'⟩

/-- The brackets of a body match. -/
structure Bracketed (body : List Instr) : Prop where
  balanced : (scanAt body body.length).opens = []
  close : ∀ pc, body[pc]? = some .end_ → (scanAt body pc).opens ≠ []
  middle : ∀ pc, body[pc]? = some .else_ → (scanAt body pc).opens ≠ []

theorem Checked.bracketed (h : Checked m s defined body signature) (hdecoded : Decoded body.body) :
    Bracketed body.body := by
  refine ⟨?_, fun pc hend => hdecoded.open_at_end hend, fun pc helse => ?_⟩
  · obtain ⟨machine, inner, func, hbefore, hnested⟩ := h.nested hdecoded (Nat.le_refl _)
    obtain ⟨last, hrun, hlast⟩ := bind_eq_ok.mp h.valid
    rw [Checked.before, List.take_length] at hbefore
    cases hrun.symm.trans hbefore
    -- After the body only the function's frame is left.
    obtain ⟨⟨frame, machine'⟩, hpop, hcheck⟩ := bind_eq_ok.mp hlast
    obtain ⟨rest, hframes, hrest, -⟩ := Machine.check_popFrame _ hpop
    have hnone : machine'.frames = [] := by
      by_contra hne
      simp only [ne_eq, hne, not_false_eq_true, true_or, or_true, if_true] at hcheck
      cases hcheck
    have hopened := hnested.opened
    have hinner : inner = [] := by
      have hsame := hnested.frames.symm.trans hframes
      rw [← hrest, hnone] at hsame
      cases inner with
      | nil => rfl
      | cons f inner => cases inner <;> cases hsame
    rw [hinner] at hopened
    generalize (scanAt body.body body.body.length).opens = opens at hopened
    cases hopened
    rfl
  · have hlt := (List.getElem?_eq_some_iff.mp helse).1
    obtain ⟨machine, inner, func, hbefore, hnested⟩ := h.nested hdecoded (Nat.le_of_lt hlt)
    obtain ⟨machine₀, machine', hbefore₀, hstep, -⟩ := h.before_step helse
    cases hbefore₀.symm.trans hbefore
    obtain ⟨f, rest, hframes, hif, -⟩ := Machine.check_else _ hstep
    have hopened := hnested.opened
    intro hnil
    rw [hnil] at hopened
    cases hopened
    cases hnested.frames.symm.trans hframes
    cases hnested.ctrl.symm.trans hif

end Nested

end Slag.Wasm
