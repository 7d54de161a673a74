import Mathlib.Data.Nat.Digits.Defs
import Mathlib.Data.Nat.Digits.Lemmas
import Slag.Lib.Float64

/-!
Language values and property keys (`value.rs`, `property.rs`, `ops.rs`). A
string key is its text: the interner maps texts to atoms one to one. The two
reserved words of the value encoding, the array hole and the unset field, are
not language values; the cells that may hold them are `Option Value`.
-/

namespace Slag.Crux

abbrev JsString := List UInt16

abbrev ObjId := Nat

inductive PropertyKey
  | string (text : JsString)
  | symbol (id : Nat)
deriving DecidableEq, Repr

/-- A function is named by its object part, which shares its identity. -/
inductive Value
  | undefined
  | null
  | boolean (b : Bool)
  | number (n : F64)
  | string (s : JsString)
  | symbol (id : Nat)
  | bigint (n : Int)
  | object (id : ObjId)
  | function (id : ObjId)
deriving DecidableEq, Repr

namespace Value

def isUndefined : Value → Bool
  | .undefined => true
  | _ => false

def isObject : Value → Bool
  | .object _ => true
  | _ => false

def isFunction : Value → Bool
  | .function _ => true
  | _ => false

def asNumber : Value → Option F64
  | .number n => some n
  | _ => none

end Value

/-- `same_value`. The one NaN and the two zeros are distinct `F64` terms, so
numbers compare structurally; an object and a function are the same when they
are one allocation. -/
def sameValue : Value → Value → Bool
  | .object a, .function b | .function a, .object b => a = b
  | x, y => x = y

theorem sameValue_refl (x : Value) : sameValue x x = true := by
  cases x <;> simp [sameValue]

theorem sameValue_symm {x y : Value} (h : sameValue x y = true) : sameValue y x = true := by
  cases x <;> cases y <;> simp_all [sameValue]

theorem sameValue_cases {x y : Value} (h : sameValue x y = true) :
    x = y ∨ ∃ a, (x = .object a ∧ y = .function a) ∨ (x = .function a ∧ y = .object a) := by
  unfold sameValue at h
  split at h
  · exact .inr ⟨_, .inl ⟨rfl, congrArg _ (of_decide_eq_true h).symm⟩⟩
  · exact .inr ⟨_, .inr ⟨rfl, congrArg _ (of_decide_eq_true h).symm⟩⟩
  · exact .inl (of_decide_eq_true h)

theorem sameValue_trans {x y z : Value} (hxy : sameValue x y = true)
    (hyz : sameValue y z = true) : sameValue x z = true := by
  rcases sameValue_cases hxy with rfl | ⟨a, ⟨rfl, rfl⟩ | ⟨rfl, rfl⟩⟩
  · exact hyz
  all_goals
    rcases sameValue_cases hyz with rfl | ⟨b, ⟨hb, rfl⟩ | ⟨hb, rfl⟩⟩
    · exact hxy
    all_goals
      cases hb
      try exact sameValue_refl _

/-- `string::index_atom`: the canonical decimal text of an index. -/
def indexText (index : Nat) : JsString :=
  if index = 0 then [0x30]
  else (Nat.digits 10 index).reverse.map fun d => UInt16.ofNat (0x30 + d)

namespace PropertyKey

def fromIndex (index : Nat) : PropertyKey := .string (indexText index)

def isString : PropertyKey → Bool
  | .string _ => true
  | .symbol _ => false

end PropertyKey

/-- `"length"`. -/
def lengthText : JsString := [0x6c, 0x65, 0x6e, 0x67, 0x74, 0x68]

def lengthKey : PropertyKey := .string lengthText

def isLengthKey (key : PropertyKey) : Bool := key = lengthKey

/-- One digit of `parse_canonical_u64`, with its two overflow checks. -/
def parseDigit (value : Nat) (unit : UInt16) : Option Nat :=
  if 0x30 ≤ unit ∧ unit ≤ 0x39 then
    if value * 10 < 2 ^ 64 ∧ value * 10 + (unit.toNat - 0x30) < 2 ^ 64 then
      some (value * 10 + (unit.toNat - 0x30))
    else none
  else none

/-- Parse a canonical non-negative decimal integer (no leading zeros). -/
def parseCanonicalU64 (text : JsString) : Option Nat :=
  match text with
  | [] => none
  | first :: rest =>
      if first = 0x30 ∧ rest ≠ [] then none else (first :: rest).foldlM parseDigit 0

/-- The largest array index, `2 ^ 32 - 2`. -/
def maxArrayIndex : Nat := 0xFFFF_FFFE

def arrayIndexOf : PropertyKey → Option Nat
  | .symbol _ => none
  | .string text =>
      match parseCanonicalU64 text with
      | some value => if value ≤ maxArrayIndex then some value else none
      | none => none

private theorem le_foldl_digits (ds : List Nat) (acc : Nat) :
    acc ≤ ds.foldl (fun a d => a * 10 + d) acc := by
  induction ds generalizing acc with
  | nil => exact Nat.le_refl _
  | cons d ds ih => exact Nat.le_trans (by omega) (ih (acc * 10 + d))

end Slag.Crux
