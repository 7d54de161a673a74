import Slag.Json.Parser

/-!
The JSON serializer of `builtins/json.rs` without a replacer function. The indent,
the stack and the depth are as they were after each call that returns a text, so
they are handed down.
-/

namespace Slag.Json

open Crux AssocList

structure StringifyState where
  stack : List Value
  propertyList : Option (List JsString)
  gap : Text
  indent : Text

/-! The `space` argument. -/

def hexDigit (value : Nat) : UInt16 :=
  if value ≤ 9 then UInt16.ofNat (0x30 + value) else UInt16.ofNat (0x61 + value - 10)

def hexEscape (unit : UInt16) : Text :=
  let n := unit.toNat
  [uBslash, uU, hexDigit (n / 4096), hexDigit (n / 256 % 16), hexDigit (n / 16 % 16),
    hexDigit (n % 16)]

def isCallable : Value → Bool
  | .function _ => true
  | _ => false

end Slag.Json
