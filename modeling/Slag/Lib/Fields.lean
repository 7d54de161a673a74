import Mathlib.Data.Nat.Bitwise

/-!
Words made of fields: flags, masks, and what an or of fields that do not overlap is
worth.
-/

namespace Slag.Fields

variable {w : Nat}

/-- Fields that do not overlap are added. -/
theorem toNat_or {x y : BitVec w} {k a : Nat} (hx : x.toNat = a * 2 ^ k) (hy : y.toNat < 2 ^ k) :
    (x ||| y).toNat = a * 2 ^ k + y.toNat := by
  rw [BitVec.toNat_or, hx, Nat.mul_comm a, Nat.two_pow_add_eq_or_of_lt hy]

/-- A flag is the parity of what is left above it. -/
theorem and_flag_ne_zero (x : BitVec w) {k : Nat} (hk : k < w) :
    x &&& 1#w <<< k ≠ 0#w ↔ x.toNat / 2 ^ k % 2 = 1 := by
  have hflag : x &&& 1#w <<< k = if x.getLsbD k then BitVec.twoPow w k else 0#w :=
    BitVec.and_twoPow x k
  have hbit : x.getLsbD k = decide (x.toNat / 2 ^ k % 2 = 1) := Nat.testBit_eq_decide_div_mod_eq
  rw [hflag, hbit]
  by_cases h : x.toNat / 2 ^ k % 2 = 1
  · have hne : BitVec.twoPow w k ≠ 0#w := by
      intro hzero
      have hvalue := congrArg BitVec.toNat hzero
      rw [BitVec.toNat_twoPow_of_lt hk, BitVec.toNat_ofNat, Nat.zero_mod] at hvalue
      exact absurd hvalue (Nat.pow_pos Nat.two_pos).ne'
    simp [h, hne]
  · simp [h]

theorem toNat_and_low (x : BitVec w) {mask : BitVec w} {k : Nat} (hmask : mask.toNat = 2 ^ k - 1) :
    (x &&& mask).toNat = x.toNat % 2 ^ k := by
  rw [BitVec.toNat_and, hmask, Nat.and_two_pow_sub_one_eq_mod]

theorem and_not_low {x mask : BitVec w} {k : Nat} (hmask : mask.toNat = 2 ^ k - 1) (hx : x.toNat < 2 ^ k) :
    x &&& ~~~mask = 0#w := by
  have hself : x &&& mask = x := by
    apply BitVec.eq_of_toNat_eq
    rw [toNat_and_low x hmask, Nat.mod_eq_of_lt hx]
  rw [← hself, BitVec.and_assoc, BitVec.and_not_self]
  exact BitVec.and_zero

end Slag.Fields
