import Slag.Json.Grammar
import Slag.Json.Stringify

/-!
A quoted text denotes the text.
-/

namespace Slag.Json

open Crux

variable {l r : Text} {s : JsString}

theorem isHex_hexDigit {n : Nat} (h : n < 16) : IsHex (hexDigit n) n := by
  have hall : ∀ n < 16, hexValue (hexDigit n) = some n := by decide
  exact hall n h

theorem Chars.hexEscape (unit : UInt16) (h : Chars l s r) :
    Chars (Json.hexEscape unit ++ l) (unit :: s) r := by
  have hlt : unit.toNat < 65536 := unit.toNat_lt
  have hvalue : UInt16.ofNat (((unit.toNat / 4096 * 16 + unit.toNat / 256 % 16) * 16 +
      unit.toNat / 16 % 16) * 16 + unit.toNat % 16) = unit := by
    have hsum : ((unit.toNat / 4096 * 16 + unit.toNat / 256 % 16) * 16 +
        unit.toNat / 16 % 16) * 16 + unit.toNat % 16 = unit.toNat := by omega
    rw [hsum, UInt16.ofNat_toNat]
  have hhex := Chars.hex (isHex_hexDigit (n := unit.toNat / 4096) (by omega))
    (isHex_hexDigit (n := unit.toNat / 256 % 16) (by omega))
    (isHex_hexDigit (n := unit.toNat / 16 % 16) (by omega))
    (isHex_hexDigit (n := unit.toNat % 16) (by omega)) h
  rwa [hvalue] at hhex

/-- A surrogate stands for itself. -/
theorem Chars.surrogate {unit : UInt16} (hu : 0xD800 ≤ unit) (h : Chars l s r) :
    Chars (unit :: l) (unit :: s) r := by
  have hge : 0xD800 ≤ unit.toNat := UInt16.le_iff_toNat_le.mp hu
  refine .unit ?_ ?_ ?_ h
  · rintro rfl
    revert hu
    decide
  · rintro rfl
    revert hu
    decide
  · exact UInt16.lt_iff_toNat_lt.mpr (Nat.lt_of_lt_of_le (by decide) hge)

end Slag.Json
