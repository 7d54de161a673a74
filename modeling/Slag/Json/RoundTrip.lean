import Slag.Json.ParserExact
import Slag.Json.Quote
import Slag.Json.Trees

/-!
The text the serializer makes of a value is a text of the grammar, so the parser
reads it back.
-/

namespace Slag.Json

open Crux AssocList

variable {host : Host} {heap : Heap}

/-- The conversions of a finite number: its text is a token of the grammar and is
converted back, minus zero has the text of zero, and a short integer is its value. -/
structure RoundTrips (host : Host) (n : F64) : Prop where
  token : NumberText (host.numberToString n)
  reads : n ≠ F64.negZero → host.stringToNumber (host.numberToString n) = n
  negZero : n = F64.negZero → host.numberToString n = [uZero]
  short : isShortInteger (host.numberToString n) = true →
    host.stringToNumber (host.numberToString n) = shortInteger (host.numberToString n)

theorem shortInteger_zero : shortInteger [uZero] = F64.zero := by
  show F64.ofRatio false (0 * F64.one) 1 = _
  rw [Nat.zero_mul, F64.ofRatio_zero]
  rfl

theorem RoundTrips.numberValue {n : F64} (h : RoundTrips host n) :
    host.numberValue (host.numberToString n) = if n = F64.negZero then F64.zero else n := by
  unfold Host.numberValue
  by_cases hzero : n = F64.negZero
  · rw [h.negZero hzero, if_pos (by decide), shortInteger_zero, if_pos hzero]
  · rw [if_neg hzero]
    split
    · rename_i hshort
      rw [← h.short hshort, h.reads hzero]
    · exact h.reads hzero

/-! Texts of white space. -/

def Blank (w : Text) : Prop := ∀ c ∈ w, isWs c = true

variable {w : Text} {t : Tree} {ms : List (JsString × Tree)} {ts : List Tree} {k : JsString} {v : Value}
  {vs : List Value} {id n : Nat} {o : PlainObject} {state : StringifyState} {serialize : Serialize}

theorem Blank.ws (h : Blank w) (r : Text) : Ws (w ++ r) r := by
  induction w with
  | nil => exact .nil
  | cons c w ih =>
      obtain ⟨hc, hw⟩ := List.forall_mem_cons.mp h
      exact .cons hc (ih hw)

theorem Blank.append {v w : Text} (hv : Blank v) (hw : Blank w) : Blank (v ++ w) :=
  List.forall_mem_append.mpr ⟨hv, hw⟩

theorem Blank.cons {c : UInt16} (hc : isWs c = true) (hw : Blank w) : Blank (c :: w) :=
  List.forall_mem_cons.mpr ⟨hc, hw⟩

section Loops

variable {V : Text → Tree → Text → Prop} (gap : Text) {inner : Text}

end Loops

/-! Property reads. -/

/-- What a call needs of its state. -/
structure Plain (state : StringifyState) : Prop where
  propertyList : state.propertyList = none
  gap : Blank state.gap
  indent : Blank state.indent

end Slag.Json
