import Slag.Wasm.Nesting

/-!
The constructs of a body, read off its brackets alone: which are open at a
place, and where each one ends. The scan of the engine finds the same.
-/

namespace Slag.Wasm

/-- The constructs that are open behind some instructions, innermost first, each
by the place of its opener. -/
def nest (opens : List Nat) (pc : Nat) : List Instr → List Nat
  | [] => opens
  | .block _ :: body | .loop _ :: body | .if_ _ :: body | .tryTable _ _ :: body =>
      nest (pc :: opens) (pc + 1) body
  | .end_ :: body => nest opens.tail (pc + 1) body
  | _ :: body => nest opens (pc + 1) body

/-- The constructs a place is inside of. -/
def openAt (body : List Instr) (pc : Nat) : List Nat :=
  nest [] 0 (body.take pc)

def isEnd : Option Instr → Bool
  | some .end_ => true
  | _ => false

/-- An `end` closes the construct that is the innermost there. -/
def Ends (body : List Instr) (o e : Nat) : Prop :=
  isEnd body[e]? = true ∧ (openAt body e).head? = some o

instance (body : List Instr) (o e : Nat) : Decidable (Ends body o e) :=
  inferInstanceAs (Decidable (_ ∧ _))

/-- The end of a construct. -/
def endFor (body : List Instr) (o : Nat) : Option Nat :=
  (List.range body.length).find? fun e => decide (Ends body o e)

section Constructs

variable {body : List Instr} {pc o e k : Nat}

theorem isEnd_iff {instr : Option Instr} : isEnd instr = true ↔ instr = some .end_ := by
  constructor
  · intro h
    cases instr with
    | none => cases h
    | some instr =>
        cases instr
        case end_ => rfl
        all_goals cases h
  · rintro rfl
    rfl

theorem opens_over (scan : Scan) (body : List Instr) (pc : Nat) :
    (scan.over body pc).opens = nest scan.opens pc body := by
  induction body generalizing scan pc with
  | nil => rfl
  | cons instr body ih =>
      rw [Scan.over, ih]
      cases instr
      case else_ => rw [Scan.opens_else]; rfl
      case end_ =>
          cases hopens : scan.opens with
          | nil => simp only [Scan.step, hopens]; rfl
          | cons top opens => rw [Scan.step_end hopens]; rfl
      all_goals rfl

theorem opens_scanAt (body : List Instr) (pc : Nat) : (scanAt body pc).opens = openAt body pc :=
  opens_over (Scan.start body) (body.take pc) 0

/-- A construct that is closed is not opened again. -/
theorem not_mem_nest {opens : List Nat} (body : List Instr) (ho : o < pc) (hclosed : o ∉ opens) :
    o ∉ nest opens pc body := by
  induction body generalizing opens pc with
  | nil => exact hclosed
  | cons instr body ih =>
      have hpush : o ∉ pc :: opens := by
        intro hmem
        rcases List.mem_cons.mp hmem with rfl | hmem
        · exact Nat.lt_irrefl _ ho
        · exact hclosed hmem
      have hpop : o ∉ opens.tail := fun hmem => hclosed (List.mem_of_mem_tail hmem)
      have hnext := Nat.lt_succ_of_lt ho
      cases instr
      case block | loop | if_ | tryTable => exact ih hnext hpush
      case end_ => exact ih hnext hpop
      all_goals exact ih hnext hclosed

theorem not_mem_openAt {pc' : Nat} (hle : pc ≤ pc') (hpc : pc ≤ body.length) (ho : o < pc)
    (hclosed : o ∉ openAt body pc) : o ∉ openAt body pc' := by
  obtain ⟨i, rfl⟩ := Nat.exists_eq_add_of_le hle
  rw [← opens_scanAt, scanAt_add hpc, opens_over, opens_scanAt]
  exact not_mem_nest _ ho hclosed

/-- Behind its end a construct is closed. -/
theorem Ends.closed (h : Ends body o e) : o < e + 1 ∧ o ∉ openAt body (e + 1) := by
  obtain ⟨hinstr, hhead⟩ := h
  have hend := isEnd_iff.mp hinstr
  have hle : e ≤ body.length := Nat.le_of_lt (List.getElem?_eq_some_iff.mp hend).1
  rw [← opens_scanAt, List.head?_eq_getElem?] at hhead
  have hcons := drop_of_getElem? hhead
  rw [List.drop_zero] at hcons
  refine ⟨Nat.lt_succ_of_lt (opener_of_open hle hhead).lt, ?_⟩
  rw [← opens_scanAt, scanAt_succ hend, Scan.step_end hcons]
  exact not_mem_outer hle hhead

theorem Ends.le {e' : Nat} (h : Ends body o e) (h' : Ends body o e') : e' ≤ e := by
  by_contra hlt
  have hle : e + 1 ≤ body.length := (List.getElem?_eq_some_iff.mp (isEnd_iff.mp h.1)).1
  exact not_mem_openAt (Nat.lt_of_not_le hlt) hle h.closed.1 h.closed.2
    (List.mem_of_head? h'.2)

end Constructs

end Slag.Wasm
