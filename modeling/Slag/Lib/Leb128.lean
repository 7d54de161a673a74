import Mathlib.Data.Nat.Bitwise
import Mathlib.Tactic.Positivity
import Mathlib.Tactic.Ring

/-!
LEB128 as a grammar of the integers of a width, and the same read off the seven
bits each byte carries.
-/

namespace Slag.Leb128

/-- The encodings of the unsigned integers below `2 ^ N`. -/
inductive Unsigned : Nat → List UInt8 → Nat → Prop where
  | last {N : Nat} {b : UInt8} (hb : b.toNat < 2 ^ 7) (hN : b.toNat < 2 ^ N) :
      Unsigned N [b] b.toNat
  | more {N m : Nat} {b : UInt8} {enc : List UInt8} (hb : 2 ^ 7 ≤ b.toNat) (hN : 7 < N)
      (h : Unsigned (N - 7) enc m) : Unsigned N (b :: enc) (2 ^ 7 * m + (b.toNat - 2 ^ 7))

/-- The encodings of the signed integers of `N` bits. -/
inductive Signed : Nat → List UInt8 → Int → Prop where
  | positive {N : Nat} {b : UInt8} (hb : b.toNat < 2 ^ 6) (hN : (b.toNat : Int) < 2 ^ (N - 1)) :
      Signed N [b] b.toNat
  | negative {N : Nat} {b : UInt8} (hlow : 2 ^ 6 ≤ b.toNat) (hb : b.toNat < 2 ^ 7)
      (hN : (2 : Int) ^ 7 - 2 ^ (N - 1) ≤ b.toNat) : Signed N [b] (b.toNat - 2 ^ 7)
  | more {N : Nat} {m : Int} {b : UInt8} {enc : List UInt8} (hb : 2 ^ 7 ≤ b.toNat) (hN : 7 < N)
      (h : Signed (N - 7) enc m) : Signed N (b :: enc) (2 ^ 7 * m + (b.toNat - 2 ^ 7))

/-- Bytes of which exactly the last has its top bit clear. -/
inductive Shape : List UInt8 → Prop where
  | last {b : UInt8} (hb : b.toNat < 2 ^ 7) : Shape [b]
  | more {b : UInt8} {enc : List UInt8} (hb : 2 ^ 7 ≤ b.toNat) (h : Shape enc) : Shape (b :: enc)

/-- The number of the seven-bit groups, lowest first. -/
def magnitude : List UInt8 → Nat
  | [] => 0
  | b :: enc => b.toNat % 2 ^ 7 + 2 ^ 7 * magnitude enc

/-- The same as a two's complement number. -/
def signedValue (enc : List UInt8) : Int :=
  if magnitude enc < 2 ^ (7 * enc.length - 1) then magnitude enc
  else (magnitude enc : Int) - 2 ^ (7 * enc.length)

variable {enc : List UInt8} {b : UInt8} {N : Nat}

theorem Shape.length_pos (h : Shape enc) : 0 < enc.length := by
  cases h <;> exact Nat.succ_pos _

theorem Shape.split (h : Shape enc) :
    ∃ pre b, enc = pre ++ [b] ∧ (∀ x ∈ pre, 2 ^ 7 ≤ x.toNat) ∧ b.toNat < 2 ^ 7 := by
  induction h with
  | @last b hb => exact ⟨[], b, rfl, nofun, hb⟩
  | @more b enc hb _ ih =>
      obtain ⟨pre, last, rfl, hpre, hlast⟩ := ih
      exact ⟨b :: pre, last, rfl, List.forall_mem_cons.mpr ⟨hb, hpre⟩, hlast⟩

theorem shape_append {pre : List UInt8} (hpre : ∀ x ∈ pre, 2 ^ 7 ≤ x.toNat) (hb : b.toNat < 2 ^ 7) :
    Shape (pre ++ [b]) := by
  induction pre with
  | nil => exact .last hb
  | cons c pre ih =>
      obtain ⟨hc, hrest⟩ := List.forall_mem_cons.mp hpre
      exact .more hc (ih hrest)

theorem magnitude_lt (enc : List UInt8) : magnitude enc < 2 ^ (7 * enc.length) := by
  induction enc with
  | nil => exact Nat.one_pos
  | cons b enc ih =>
      have hb : b.toNat % 2 ^ 7 < 2 ^ 7 := Nat.mod_lt _ (by decide)
      rw [magnitude, List.length_cons, Nat.mul_add, Nat.mul_one, Nat.pow_add]
      omega

theorem magnitude_append (first second : List UInt8) :
    magnitude (first ++ second) = magnitude first + 2 ^ (7 * first.length) * magnitude second := by
  induction first with
  | nil => simp [magnitude]
  | cons b first ih =>
      simp only [List.cons_append, magnitude, ih, List.length_cons]
      ring

/-- The seven bits of a byte with the top bit set. -/
theorem mod_of_more (hb : 2 ^ 7 ≤ b.toNat) : b.toNat % 2 ^ 7 = b.toNat - 2 ^ 7 := by
  have := b.toNat_lt
  omega

theorem two_pow_seven_add (h : 7 < N) : 2 ^ N = 2 ^ 7 * 2 ^ (N - 7) := by
  rw [← Nat.pow_add]
  congr 1
  omega

theorem Unsigned.spec {N v : Nat} (h : Unsigned N enc v) (hN : 0 < N) :
    Shape enc ∧ v = magnitude enc ∧ 7 * (enc.length - 1) < N ∧ v < 2 ^ N := by
  induction h with
  | @last N b hb hlt =>
      refine ⟨.last hb, ?_, hN, hlt⟩
      rw [magnitude, magnitude, Nat.mod_eq_of_lt hb, Nat.mul_zero, Nat.add_zero]
  | @more N m b enc hb hmore _ ih =>
      obtain ⟨hshape, rfl, hlen, hlt⟩ := ih (by omega)
      have hpos := hshape.length_pos
      have hbyte := b.toNat_lt
      refine ⟨.more hb hshape, ?_, ?_, ?_⟩
      · rw [magnitude, mod_of_more hb, Nat.add_comm]
      · simp only [List.length_cons]
        omega
      · rw [two_pow_seven_add hmore]
        omega

theorem unsigned_of_shape (h : Shape enc) (hlen : 7 * (enc.length - 1) < N)
    (hlt : magnitude enc < 2 ^ N) :
    Unsigned N enc (magnitude enc) := by
  induction h generalizing N with
  | @last b hb =>
      have hmag : magnitude [b] = b.toNat := by
        rw [magnitude, magnitude, Nat.mod_eq_of_lt hb, Nat.mul_zero, Nat.add_zero]
      rw [hmag] at hlt ⊢
      exact .last hb hlt
  | @more b enc hb hshape ih =>
      have hpos := hshape.length_pos
      simp only [List.length_cons] at hlen
      have hmore : 7 < N := by omega
      rw [magnitude, mod_of_more hb, two_pow_seven_add hmore] at hlt
      rw [magnitude, mod_of_more hb, Nat.add_comm]
      exact .more hb hmore (ih (by omega) (by omega))

theorem signedValue_last (hb : b.toNat < 2 ^ 7) :
    signedValue [b] = if b.toNat < 2 ^ 6 then (b.toNat : Int) else b.toNat - 2 ^ 7 := by
  simp only [signedValue, magnitude, Nat.mod_eq_of_lt hb, Nat.mul_zero, Nat.add_zero,
    List.length_singleton, Nat.mul_one]

theorem signedValue_more (hb : 2 ^ 7 ≤ b.toNat) (h : Shape enc) :
    signedValue (b :: enc) = 2 ^ 7 * signedValue enc + (b.toNat - 2 ^ 7) := by
  have hpos := h.length_pos
  have hbyte := b.toNat_lt
  have hhalf : 2 ^ (7 * (enc.length + 1) - 1) = 2 ^ 7 * 2 ^ (7 * enc.length - 1) := by
    rw [← Nat.pow_add]
    congr 1
    omega
  have hfull : (2 : Int) ^ (7 * (enc.length + 1)) = 2 ^ 7 * 2 ^ (7 * enc.length) := by
    rw [← pow_add]
    congr 1
    omega
  simp only [signedValue, magnitude, mod_of_more hb, List.length_cons, hhalf, hfull]
  split <;> split <;> omega

theorem int_two_pow_seven_add (h : 7 < N) :
    (2 : Int) ^ (N - 1) = 2 ^ 7 * 2 ^ (N - 7 - 1) := by
  rw [← pow_add]
  congr 1
  omega

theorem Signed.spec {v : Int} (h : Signed N enc v) (hN : 0 < N) :
    Shape enc ∧ v = signedValue enc ∧ 7 * (enc.length - 1) < N ∧
      -2 ^ (N - 1) ≤ v ∧ v < 2 ^ (N - 1) := by
  induction h with
  | @positive N b hb hlt =>
      have hb' : b.toNat < 2 ^ 7 := by omega
      have hpow : (0 : Int) < 2 ^ (N - 1) := by positivity
      refine ⟨.last hb', ?_, hN, by omega, hlt⟩
      rw [signedValue_last hb', if_pos hb]
  | @negative N b hlow hb hlt =>
      have hpow : (0 : Int) < 2 ^ (N - 1) := by positivity
      refine ⟨.last hb, ?_, hN, by omega, by omega⟩
      rw [signedValue_last hb, if_neg (by omega)]
  | @more N m b enc hb hmore _ ih =>
      obtain ⟨hshape, rfl, hlen, hlow, hhigh⟩ := ih (by omega)
      have hpos := hshape.length_pos
      have hbyte := b.toNat_lt
      refine ⟨.more hb hshape, (signedValue_more hb hshape).symm, ?_, ?_, ?_⟩
      · simp only [List.length_cons]
        omega
      · rw [int_two_pow_seven_add hmore]
        omega
      · rw [int_two_pow_seven_add hmore]
        omega

theorem signed_of_shape (h : Shape enc) (hlen : 7 * (enc.length - 1) < N)
    (hlow : -2 ^ (N - 1) ≤ signedValue enc) (hhigh : signedValue enc < 2 ^ (N - 1)) :
    Signed N enc (signedValue enc) := by
  induction h generalizing N with
  | @last b hb =>
      rw [signedValue_last hb] at hlow hhigh ⊢
      split at hlow
      · rename_i hsmall
        rw [if_pos hsmall] at hhigh ⊢
        exact .positive hsmall hhigh
      · rename_i hlarge
        rw [if_neg hlarge] at hhigh ⊢
        exact .negative (by omega) hb (by omega)
  | @more b enc hb hshape ih =>
      have hpos := hshape.length_pos
      have hbyte := b.toNat_lt
      simp only [List.length_cons] at hlen
      have hmore : 7 < N := by omega
      rw [signedValue_more hb hshape] at hlow hhigh ⊢
      rw [int_two_pow_seven_add hmore] at hlow hhigh
      exact .more hb hmore (ih (by omega) (by omega) (by omega))

end Slag.Leb128
