import Slag.Lib.BinaryFormat

/-!
The floor of a rounded quotient of integers is the floor of the quotient, as long as
the divisor is small against the spacing of the numbers there.
-/

namespace Slag.F64

/-- The saturating cast to a signed 64-bit integer. -/
def asI64 : F64 → Int
  | .nan => 0
  | .infinity neg => if neg then -2 ^ 63 else 2 ^ 63 - 1
  | x@(.finite ..) => max (-2 ^ 63) (min (truncate x) (2 ^ 63 - 1))

/-- `x.floor() as i64`. -/
def floorAsI64 : F64 → Int
  | .nan => 0
  | .infinity neg => if neg then -2 ^ 63 else 2 ^ 63 - 1
  | x@(.finite ..) => max (-2 ^ 63) (min (toUnits x / one) (2 ^ 63 - 1))

theorem asI64_int {x : F64} {i : Int} (h : HasInt x i) (hlo : -2 ^ 63 ≤ i) (hhi : i < 2 ^ 63) :
    x.asI64 = i := by
  have htrunc := truncate_int h
  cases x with
  | nan | infinity => cases h.1
  | finite s e m =>
      rw [asI64, htrunc]
      omega

theorem assemble_units (neg : Bool) {m s : Nat} (hlo : 2 ^ 52 ≤ m) (hhi : m < 2 ^ 53)
    (hs : s + 1 < 2047) :
    ∃ e f, assemble neg m s = .finite neg e f ∧ units e f = m * 2 ^ s := by
  have hmod : (m - 2 ^ 52) % 2 ^ 52 = m - 2 ^ 52 := Nat.mod_eq_of_lt (by omega)
  refine ⟨⟨s + 1, hs⟩, ⟨(m - 2 ^ 52) % 2 ^ 52, Nat.mod_lt _ (Nat.two_pow_pos 52)⟩, ?_, ?_⟩
  · rw [assemble, dif_neg (Nat.not_lt.2 hlo), dif_pos hs]
  · simp only [units, hmod]
    rw [if_neg (Nat.succ_ne_zero s), Nat.add_sub_cancel' hlo, Nat.add_sub_cancel]

/-- A normal quotient is its rounded significand. -/
theorem ofRatio_units (neg : Bool) {num den limit : Nat} (hlo : 2 ^ 52 ≤ num / den)
    (hhi : num / den < 2 ^ limit) (hlimit : limit ≤ 2000) :
    ∃ e f s, ofRatio neg num den = .finite neg e f ∧ 2 ^ (52 + s) ≤ num / den ∧
      units e f = roundHalfEven num (den * 2 ^ s) * 2 ^ s := by
  have hden : 0 < den := by
    apply Nat.pos_of_ne_zero
    rintro rfl
    rw [Nat.div_zero] at hlo
    omega
  have hq : num / den ≠ 0 := by omega
  obtain ⟨hlog, hlog'⟩ := (Nat.log2_eq_iff hq).1 rfl
  have hL : 52 ≤ Nat.log2 (num / den) := (Nat.le_log2 hq).2 hlo
  have hL' : Nat.log2 (num / den) < limit := (Nat.log2_lt hq).2 hhi
  obtain ⟨s, hs⟩ := Nat.exists_eq_add_of_le hL
  have hscaled : 0 < den * 2 ^ s := Nat.mul_pos hden (Nat.two_pow_pos s)
  rw [hs] at hlog hlog'
  have hlow : 2 ^ 52 ≤ roundHalfEven num (den * 2 ^ s) := by
    apply le_roundHalfEven hscaled
    calc 2 ^ 52 * (den * 2 ^ s) = 2 ^ (52 + s) * den := by ring
      _ ≤ num := (Nat.le_div_iff_mul_le hden).1 hlog
  have hhigh : roundHalfEven num (den * 2 ^ s) ≤ 2 ^ 53 := by
    apply roundHalfEven_le hscaled
    calc num ≤ 2 ^ (52 + s + 1) * den := ((Nat.div_lt_iff_lt_mul hden).1 hlog').le
      _ = 2 ^ 53 * (den * 2 ^ s) := by ring
  simp only [ofRatio, hs, Nat.add_sub_cancel_left]
  rcases Nat.lt_or_eq_of_le hhigh with hlt | heq
  · obtain ⟨e, f, hresult, hunits⟩ := assemble_units neg hlow hlt (show s + 1 < 2047 by omega)
    rw [if_neg hlt.ne]
    exact ⟨e, f, s, hresult, hlog, hunits⟩
  · obtain ⟨e, f, hresult, hunits⟩ := assemble_units neg (Nat.le_refl (2 ^ 52))
      (show 2 ^ 52 < 2 ^ 53 by decide) (show s + 1 + 1 < 2047 by omega)
    rw [if_pos heq]
    refine ⟨e, f, s, hresult, hlog, ?_⟩
    rw [hunits, heq, pow_succ 2 s]
    ring

variable {a d t : Nat}

/-- Rounding crosses no integer. -/
theorem ofRatio_between (neg : Bool) (hd : 0 < d) (ha : 0 < a) (hat : a < 2 ^ t * d)
    (hdt : d * 2 ^ t < 2 ^ 54) :
    ∃ e f, ofRatio neg (a * one) d = .finite neg e f ∧
      ∀ k, (units e f ≤ k * one ↔ a ≤ k * d) ∧ (k * one ≤ units e f ↔ k * d ≤ a) := by
  obtain ⟨c, hc, hone⟩ := one_eq
  have ht : t < 54 := by
    rw [← Nat.pow_lt_pow_iff_right (show 1 < 2 by decide)]
    exact Nat.lt_of_le_of_lt (Nat.le_mul_of_pos_left _ hd) hdt
  have hd54 : d ≤ 2 ^ 54 := by
    exact (Nat.le_mul_of_pos_right d (Nat.two_pow_pos t)).trans hdt.le
  have hquot : a * one / d < 2 ^ (t + c) := by
    rw [Nat.div_lt_iff_lt_mul hd, hone, pow_add, Nat.mul_right_comm]
    exact Nat.mul_lt_mul_of_pos_right hat (Nat.two_pow_pos c)
  have hnormal : 2 ^ 52 ≤ a * one / d := by
    rw [Nat.le_div_iff_mul_le hd, hone]
    calc 2 ^ 52 * d ≤ 2 ^ 52 * 2 ^ 54 := Nat.mul_le_mul_left _ hd54
      _ = 2 ^ 106 := by norm_num
      _ ≤ 2 ^ c := Nat.pow_le_pow_right (by decide) (by omega)
      _ ≤ a * 2 ^ c := Nat.le_mul_of_pos_left _ ha
  obtain ⟨e, f, s, hresult, hs, hunits⟩ := ofRatio_units neg hnormal hquot (by omega)
  refine ⟨e, f, hresult, ?_⟩
  have hst : 52 + s < t + c := (Nat.pow_lt_pow_iff_right (by decide)).1 (hs.trans_lt hquot)
  have hsc : s ≤ c := by omega
  -- Half the spacing is less than the least distance of the quotient from an integer.
  have hspacing : d * 2 ^ s < 2 * one := by
    rw [hone, ← Nat.mul_lt_mul_right (Nat.two_pow_pos 53)]
    calc d * 2 ^ s * 2 ^ 53 = d * 2 ^ (s + 53) := by rw [pow_add, Nat.mul_assoc]
      _ ≤ d * 2 ^ (t + c) := Nat.mul_le_mul_left _ (Nat.pow_le_pow_right (by decide) (by omega))
      _ = d * 2 ^ t * 2 ^ c := by rw [pow_add, Nat.mul_assoc]
      _ < 2 ^ 54 * 2 ^ c := Nat.mul_lt_mul_of_pos_right hdt (Nat.two_pow_pos c)
      _ = 2 * 2 ^ c * 2 ^ 53 := by ring
  have hden : 0 < d * 2 ^ s := Nat.mul_pos hd (Nat.two_pow_pos s)
  have hbelow := (two_mul_roundHalfEven_le (a * one) hden).1
  have habove := (le_two_mul_roundHalfEven (a * one) hden).1
  have hscale : ∀ k, k * 2 ^ (c - s) * (d * 2 ^ s) = k * d * one := by
    intro k
    rw [hone, show 2 ^ c = 2 ^ (c - s) * 2 ^ s by rw [← pow_add, Nat.sub_add_cancel hsc]]
    ring
  have hscale' : ∀ k, k * 2 ^ (c - s) * 2 ^ s = k * one := by
    intro k
    rw [hone, Nat.mul_assoc, ← pow_add, Nat.sub_add_cancel hsc]
  have hlow : ∀ k, k * (d * 2 ^ s) ≤ a * one → k ≤ roundHalfEven (a * one) (d * 2 ^ s) :=
    fun k => le_roundHalfEven hden
  have hhigh : ∀ k, a * one ≤ k * (d * 2 ^ s) → roundHalfEven (a * one) (d * 2 ^ s) ≤ k :=
    fun k => roundHalfEven_le hden
  rw [hunits]
  generalize roundHalfEven (a * one) (d * 2 ^ s) = r at *
  intro k
  constructor
  · constructor
    · intro hle
      by_contra hlt
      have hstep := Nat.mul_le_mul_right one (show k * d + 1 ≤ a by omega)
      have hcross := Nat.mul_le_mul_right d hle
      linarith
    · intro hle
      rw [← hscale']
      apply Nat.mul_le_mul_right
      apply hhigh
      rw [hscale]
      exact Nat.mul_le_mul_right one hle
  · constructor
    · intro hle
      by_contra hlt
      have hstep := Nat.mul_le_mul_right one (show a + 1 ≤ k * d by omega)
      have hcross := Nat.mul_le_mul_right d hle
      linarith
    · intro hle
      rw [← hscale']
      apply Nat.mul_le_mul_right
      apply hlow
      rw [hscale]
      exact Nat.mul_le_mul_right one hle

theorem ofRatio_none (neg : Bool) {den : Nat} : ofRatio neg 0 den = .finite neg 0 0 := by
  simp [ofRatio, roundHalfEven, assemble, Nat.log2_def]

/-- The floor of a rounded quotient is the floor of the quotient. -/
theorem floor_div_int {x y : F64} {i : Int} (hx : HasInt x i) (hy : HasInt y d) (hd : 0 < d)
    (hat : i.natAbs < 2 ^ t * d) (hdt : d * 2 ^ t < 2 ^ 54) : (div x y).floorAsI64 = i / d := by
  have hone : (0 : Int) < one := by exact_mod_cast one_pos
  have hdi : (0 : Int) < d := by exact_mod_cast hd
  obtain ⟨hxf, hxu⟩ := hx
  obtain ⟨hyf, hyu⟩ := hy
  cases x <;> simp only [isFinite, Bool.false_eq_true] at hxf
  cases y <;> simp only [isFinite, Bool.false_eq_true] at hyf
  rename_i s e m u f n
  obtain ⟨hxm, hxs⟩ := units_of_int hxu
  obtain ⟨hym, hys⟩ := units_of_int hyu
  have hsign : u = false := by
    have := hys hdi.ne'
    cases u with
    | false => rfl
    | true => exact absurd (this.1 rfl) (by omega)
  subst hsign
  have hratio : div (.finite s e m) (.finite false f n) =
      ofRatio s (i.natAbs * one) d := by
    have hdivisor : d * one ≠ 0 := (Nat.mul_pos hd one_pos).ne'
    simp only [div, hxm, hym, Int.natAbs_natCast, if_neg hdivisor, Bool.bne_false]
    exact ofRatio_cancel s _ d one_pos
  have hdiv : (i / d).natAbs ≤ i.natAbs := Int.natAbs_ediv_le_natAbs i d
  have hbound : i.natAbs < 2 ^ 54 := by
    rw [Nat.mul_comm] at hat
    exact hat.trans hdt
  rw [hratio]
  rcases Nat.eq_zero_or_pos i.natAbs with hzero | hpos
  · obtain rfl : i = 0 := Int.natAbs_eq_zero.1 hzero
    rw [Int.natAbs_zero, Nat.zero_mul, ofRatio_none]
    cases s <;> simp [floorAsI64, toUnits, units]
  · obtain ⟨e', f', hresult, hbetween⟩ := ofRatio_between s hd hpos hat hdt
    have hfloor : toUnits (.finite s e' f') / one = i / d := by
      have hlo := Int.ediv_mul_le i hdi.ne'
      have hhi := Int.lt_ediv_add_one_mul_self i hdi
      have hi : i ≠ 0 := by
        rintro rfl
        exact absurd hpos (by decide)
      suffices hfloor : i / d * one ≤ toUnits (.finite s e' f') ∧
          toUnits (.finite s e' f') < (i / d + 1) * one by
        apply le_antisymm
        · exact Int.lt_add_one_iff.1 ((Int.ediv_lt_iff_lt_mul hone).2 hfloor.2)
        · exact (Int.le_ediv_iff_mul_le hone).2 hfloor.1
      cases s with
      | false =>
          have hnonneg : 0 ≤ i := by
            have := hxs hi
            simpa using this
          obtain ⟨a, rfl⟩ := Int.eq_ofNat_of_zero_le hnonneg
          rw [← Int.natCast_ediv] at hlo hhi ⊢
          generalize a / d = k at hlo hhi ⊢
          have hle := (hbetween k).2
          have hlt := (hbetween (k + 1)).2
          rw [Int.natAbs_natCast] at hle hlt
          simp only [toUnits, Bool.false_eq_true, if_false]
          constructor
          · exact_mod_cast hle.2 (by exact_mod_cast hlo)
          · have hmiss : ¬(k + 1) * d ≤ a := by
              exact Nat.not_le.2 (by exact_mod_cast hhi)
            exact_mod_cast Nat.not_le.1 fun h => hmiss (hlt.1 h)
      | true =>
          have hneg : i < 0 := (hxs hi).1 rfl
          obtain ⟨a, ha⟩ := Int.eq_ofNat_of_zero_le (show 0 ≤ -i by omega)
          obtain rfl : i = -a := by omega
          have hq : -(a : Int) / d < 0 := Int.ediv_neg_of_neg_of_pos hneg hdi
          generalize -(a : Int) / d = q at hlo hhi hq ⊢
          obtain ⟨k, hk⟩ := Int.eq_ofNat_of_zero_le (show 0 ≤ -q - 1 by omega)
          obtain rfl : q = -(k + 1) := by omega
          have hle := (hbetween (k + 1)).1
          have hlt := (hbetween k).1
          rw [Int.natAbs_neg, Int.natAbs_natCast] at hle hlt
          simp only [toUnits, if_true]
          constructor
          · have hbelow : units e' f' ≤ (k + 1) * one := by
              apply hle.2
              have : (a : Int) ≤ (k + 1) * d := by linarith
              exact_mod_cast this
            have : (units e' f' : Int) ≤ (k + 1) * one := by exact_mod_cast hbelow
            linarith
          · have hmiss : ¬a ≤ k * d := by
              have : (k : Int) * d < a := by linarith
              exact Nat.not_le.2 (by exact_mod_cast this)
            have habove : k * one < units e' f' := Nat.not_le.1 fun h => hmiss (hlt.1 h)
            have : (k : Int) * one < units e' f' := by exact_mod_cast habove
            linarith
    rw [hresult, floorAsI64, hfloor]
    omega

end Slag.F64
