import Mathlib.Data.Nat.Digits.Defs
import Mathlib.Tactic.Ring

/-!
Numbers as little-endian bytes.
-/

namespace Slag.LittleEndian

/-- The lowest bytes of a number. -/
def put : Nat → Nat → List UInt8
  | 0, _ => []
  | width + 1, n => UInt8.ofNat n :: put width (n / 256)

def get : List UInt8 → Nat
  | [] => 0
  | b :: bytes => b.toNat + 256 * get bytes

@[simp] theorem length_put (width n : Nat) : (put width n).length = width := by
  induction width generalizing n with
  | zero => rfl
  | succ width ih => rw [put, List.length_cons, ih]

theorem get_put {width n : Nat} (h : n < 256 ^ width) : get (put width n) = n := by
  induction width generalizing n with
  | zero => exact (Nat.lt_one_iff.mp h).symm
  | succ width ih =>
      have hdiv : n / 256 < 256 ^ width := by
        rw [Nat.div_lt_iff_lt_mul (by decide)]
        rwa [Nat.pow_succ] at h
      have hbyte : (UInt8.ofNat n).toNat = n % 256 := UInt8.toNat_ofNat'
      rw [put, get, ih hdiv, hbyte]
      exact Nat.mod_add_div n 256

end Slag.LittleEndian
