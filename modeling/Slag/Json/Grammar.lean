import Slag.Json.Parser

/-!
The JSON grammar of ECMA-404 over code units, with the tree a text denotes. A
derivation relates a text to what is left after it; a number denotes what a given
conversion makes of its token.
-/

namespace Slag.Json

open Crux

inductive Tree where
  | null
  | boolean (b : Bool)
  | number (n : F64)
  | string (s : JsString)
  | array (elements : List Tree)
  | object (members : List (JsString × Tree))

namespace Tree

/-! How many arrays and objects are around a value at most. -/

mutual

def nesting : Tree → Nat
  | .array ts => nestingAll ts + 1
  | .object ms => nestingMembers ms + 1
  | _ => 0

def nestingAll : List Tree → Nat
  | [] => 0
  | t :: ts => max t.nesting (nestingAll ts)

def nestingMembers : List (JsString × Tree) → Nat
  | [] => 0
  | m :: ms => max m.2.nesting (nestingMembers ms)

end

/-- Every array has a length an array can have. -/
inductive ArraysFit : Tree → Prop
  | null : ArraysFit .null
  | boolean {b : Bool} : ArraysFit (.boolean b)
  | number {n : F64} : ArraysFit (.number n)
  | string {s : JsString} : ArraysFit (.string s)
  | array {ts : List Tree} : ts.length ≤ maxArrayLength → (∀ t ∈ ts, ArraysFit t) →
      ArraysFit (.array ts)
  | object {ms : List (JsString × Tree)} : (∀ m ∈ ms, ArraysFit m.2) → ArraysFit (.object ms)

end Tree

inductive Ws : Text → Text → Prop
  | nil {l : Text} : Ws l l
  | cons {c : UInt16} {l r : Text} : isWs c = true → Ws l r → Ws (c :: l) r

def IsHex (c : UInt16) (digit : Nat) : Prop := hexValue c = some digit

/-- The units up to the closing quote, with the string they denote. -/
inductive Chars : Text → JsString → Text → Prop
  | done {r : Text} : Chars (uQuote :: r) [] r
  | unit {c : UInt16} {l r : Text} {s : JsString} : c ≠ uQuote → c ≠ uBslash → 0x1F < c →
      Chars l s r → Chars (c :: l) (c :: s) r
  | escape {c v : UInt16} {l r : Text} {s : JsString} : unescape c = some v → Chars l s r →
      Chars (uBslash :: c :: l) (v :: s) r
  | hex {a b c d : UInt16} {i j k m : Nat} {l r : Text} {s : JsString} : IsHex a i → IsHex b j →
      IsHex c k → IsHex d m → Chars l s r →
      Chars (uBslash :: uU :: a :: b :: c :: d :: l)
        (UInt16.ofNat (((i * 16 + j) * 16 + k) * 16 + m) :: s) r

inductive JString : Text → JsString → Text → Prop
  | mk {l r : Text} {s : JsString} : Chars l s r → JString (uQuote :: l) s r

def Digits (w : Text) : Prop := w ≠ [] ∧ ∀ c ∈ w, isDigit c = true

/-- Zero, or digits that do not start with a zero. -/
inductive IntText : Text → Prop
  | zero : IntText [uZero]
  | digits {c : UInt16} {w : Text} : c ≠ uZero → Digits (c :: w) → IntText (c :: w)

inductive FracText : Text → Prop
  | none : FracText []
  | some {w : Text} : Digits w → FracText (uDot :: w)

inductive ExpText : Text → Prop
  | none : ExpText []
  | plain {e : UInt16} {w : Text} : e = uE ∨ e = uEcap → Digits w → ExpText (e :: w)
  | signed {e c : UInt16} {w : Text} : e = uE ∨ e = uEcap → c = uPlus ∨ c = uMinus → Digits w →
      ExpText (e :: c :: w)

inductive NumberText : Text → Prop
  | mk {i f e : Text} (negative : Bool) : IntText i → FracText f → ExpText e →
      NumberText ((if negative then [uMinus] else []) ++ (i ++ (f ++ e)))

section

variable {τ : Type} (value : Text → τ → Text → Prop)

/-- Values with white space around them and commas between them, up to the
closing bracket. -/
inductive Elements : Text → List τ → Text → Prop
  | last {l l₁ l₂ r : Text} {t : τ} : Ws l l₁ → value l₁ t l₂ → Ws l₂ (uRbrack :: r) →
      Elements l [t] r
  | more {l l₁ l₂ l₃ r : Text} {t : τ} {ts : List τ} : Ws l l₁ → value l₁ t l₂ →
      Ws l₂ (uComma :: l₃) → Elements l₃ ts r → Elements l (t :: ts) r

inductive Member : JsString × τ → Text → Text → Prop
  | mk {l l₁ l₂ l₃ l₄ r : Text} {k : JsString} {t : τ} : Ws l l₁ → JString l₁ k l₂ →
      Ws l₂ (uColon :: l₃) → Ws l₃ l₄ → value l₄ t r → Member (k, t) l r

/-- Members with commas between them, up to the closing brace. -/
inductive Members : Text → List (JsString × τ) → Text → Prop
  | last {l l₁ r : Text} {m : JsString × τ} : Member value m l l₁ → Ws l₁ (uRbrace :: r) →
      Members l [m] r
  | more {l l₁ l₂ r : Text} {m : JsString × τ} {ms : List (JsString × τ)} :
      Member value m l l₁ → Ws l₁ (uComma :: l₂) → Members l₂ ms r → Members l (m :: ms) r

end

inductive JValue (number : Text → F64) : Text → Tree → Text → Prop
  | null {r : Text} : JValue number (nullWord ++ r) .null r
  | trueValue {r : Text} : JValue number (trueWord ++ r) (.boolean true) r
  | falseValue {r : Text} : JValue number (falseWord ++ r) (.boolean false) r
  | string {l r : Text} {s : JsString} : JString l s r → JValue number l (.string s) r
  | number {w r : Text} : NumberText w → JValue number (w ++ r) (.number (number w)) r
  | emptyArray {l r : Text} : Ws l (uRbrack :: r) → JValue number (uLbrack :: l) (.array []) r
  | array {l r : Text} {ts : List Tree} : Elements (JValue number) l ts r →
      JValue number (uLbrack :: l) (.array ts) r
  | emptyObject {l r : Text} : Ws l (uRbrace :: r) → JValue number (uLbrace :: l) (.object []) r
  | object {l r : Text} {ms : List (JsString × Tree)} : Members (JValue number) l ms r →
      JValue number (uLbrace :: l) (.object ms) r

/-- A JSON text: a value with white space around it. -/
inductive JsonText (number : Text → F64) : Text → Tree → Prop
  | mk {l l₁ l₂ : Text} {t : Tree} : Ws l l₁ → JValue number l₁ t l₂ → Ws l₂ [] →
      JsonText number l t

end Slag.Json
