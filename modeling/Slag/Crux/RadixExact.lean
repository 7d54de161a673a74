import Slag.Crux.RadixText

/-!
The even bases other than ten: the text denotes the number exactly, where the last
group of binary digits is a whole one.
-/

namespace Slag.Crux

open Numeral (digitChar Denotes)

theorem map_rdropWhile (ds : List UInt64) :
    (ds.rdropWhile (· == 0)).map UInt64.toNat = (ds.map UInt64.toNat).rdropWhile (· = 0) := by
  induction ds using List.reverseRecOn with
  | nil => rfl
  | append_singleton ds d ih =>
      rw [List.map_append, List.map_singleton]
      by_cases hd : d = 0
      · rw [List.rdropWhile_concat_pos (fun d => d == 0) _ _ (by simp [hd]),
          List.rdropWhile_concat_pos (fun d => decide (d = 0)) _ _ (by simp [hd]), ih]
      · have hne : d.toNat ≠ 0 := fun hzero => hd (UInt64.toNat_inj.mp hzero)
        rw [List.rdropWhile_concat_neg (fun d => d == 0) _ _ (by simp [hd]),
          List.rdropWhile_concat_neg (fun d => decide (d = 0)) _ _ (by simp [hne]), List.map_append,
          List.map_singleton]

/-- Digits with the zeros at their end dropped, after a point that is dropped with all of them. -/
theorem denotes_digits (radix : Radix) {v : ℚ} {int : Nat} {ds : List UInt64}
    (hds : ∀ d ∈ ds, d.toNat < radix.value)
    (hv : v = int + Numeral.value radix.value (ds.map UInt64.toNat) / radix.value ^ ds.length) :
    Denotes radix.value v
      (if ds.rdropWhile (· == 0) = [] then Numeral.text radix.value int
        else Numeral.text radix.value int ++
          '.' :: (ds.rdropWhile (· == 0)).map fun d => digitChar d.toNat) := by
  have htrim := Numeral.value_rdropWhile radix.pos (ds.map UInt64.toNat)
  rw [List.length_map, ← map_rdropWhile, List.length_map] at htrim
  rw [hv, htrim]
  split
  · rename_i hnil
    rw [hnil, List.map_nil, Numeral.value_nil, Nat.cast_zero, zero_div, add_zero]
    exact Numeral.denotes_int radix.two_le radix.le_max int
  · rename_i hne
    have hchars : (ds.rdropWhile (· == 0)).map (fun d => digitChar d.toNat) =
        ((ds.rdropWhile (· == 0)).map UInt64.toNat).map digitChar := by
      rw [List.map_map]
      rfl
    have hlt : ∀ d ∈ (ds.rdropWhile (· == 0)).map UInt64.toNat, d < radix.value := by
      intro d hd
      obtain ⟨e, he, rfl⟩ := List.mem_map.mp hd
      exact hds e ((List.rdropWhile_prefix _ _).subset he)
    have hlast : ((ds.rdropWhile (· == 0)).map UInt64.toNat).getLast? ≠ some 0 := by
      have hnil : (ds.map UInt64.toNat).rdropWhile (· = 0) ≠ [] := by
        rw [← map_rdropWhile]
        simpa using hne
      have hnot := List.rdropWhile_last_not _ _ hnil
      rw [map_rdropWhile, List.getLast?_eq_some_getLast hnil]
      intro hzero
      exact hnot (decide_eq_true (Option.some.inj hzero))
    have hmap : (ds.rdropWhile (· == 0)).map UInt64.toNat ≠ [] := by simpa using hne
    have hdenotes := Numeral.denotes_point radix.two_le radix.le_max int hlt hmap hlast
    rw [List.length_map] at hdenotes
    rw [hchars]
    exact hdenotes

/-- The whole part, and the part that some digits hold. -/
theorem fraction_split (radix : Radix) {n p len V : Nat}
    (h : n % 2 ^ p * radix.value ^ len = V * 2 ^ p) :
    (n : ℚ) / 2 ^ p = (n / 2 ^ p : Nat) + V / radix.value ^ len := by
  have hradix : (radix.value : ℚ) ≠ 0 := by exact_mod_cast radix.pos.ne'
  have hcast : ((n % 2 ^ p : Nat) : ℚ) * radix.value ^ len = V * 2 ^ p := by exact_mod_cast h
  have hsplit : (n : ℚ) = 2 ^ p * (n / 2 ^ p : Nat) + (n % 2 ^ p : Nat) := by
    exact_mod_cast (Nat.div_add_mod n (2 ^ p)).symm
  rw [div_eq_iff (by positivity), add_mul, div_mul_eq_mul_div, ← hcast,
    mul_div_cancel_right₀ _ (pow_ne_zero _ hradix), mul_comm]
  exact hsplit

variable {radix : Radix} {x : F64}

theorem radixExact_denotes (h : x.isFinite) (heven : 2 ∣ radix.value) :
    Denotes radix.value (exactValue x) (radixExact x radix) := by
  obtain ⟨hvalue, hp⟩ := exactFraction_spec h
  unfold radixExact
  rw [← hvalue]
  generalize exactFraction x = np at *
  obtain ⟨n, p⟩ := np
  dsimp only at hp ⊢
  have hmask : (n.mask p).value < 2 ^ p := by
    rw [BigU.value_mask]
    exact Nat.mod_lt _ (Nat.two_pow_pos _)
  obtain ⟨hfraction, hdigits⟩ := fractionDigits_spec radix p 4000 hmask
  have hends := fractionDigits_rest radix p heven (k := 0) hmask (Nat.one_dvd _)
    (show p ≤ 0 + 4000 by omega)
  rw [BigU.isZero_iff] at hends
  rw [hends, Nat.add_zero, BigU.value_mask] at hfraction
  rw [BigU.toBase_eq, BigU.value_shr]
  apply denotes_digits radix hdigits
  exact fraction_split radix hfraction

theorem isPowerOfTwo_spec (h : isPowerOfTwo radix.value) :
    2 ^ trailingZeros radix.value = radix.value ∧ 0 < trailingZeros radix.value ∧
      trailingZeros radix.value < 6 := by
  have hall : ∀ r ≤ 36, 2 ≤ r → isPowerOfTwo r →
      2 ^ trailingZeros r = r ∧ 0 < trailingZeros r ∧ trailingZeros r < 6 := by decide +kernel
  exact hall radix.value radix.le_max radix.two_le h

/-- The groups are the digits where the last one is whole. -/
theorem binaryGroups_spec {p : Nat} (hpos : 0 < p) (hlt : p < 64) {fuel position : Nat}
    {remaining : BigU} (hfuel : position ≤ fuel) (hremaining : remaining.value < 2 ^ position)
    (hdvd : 2 ^ (position % p) ∣ remaining.value) :
    remaining.value * (2 ^ p) ^ (binaryGroups p fuel position remaining).length =
        Numeral.value (2 ^ p) ((binaryGroups p fuel position remaining).map UInt64.toNat) *
          2 ^ position ∧
      ∀ d ∈ binaryGroups p fuel position remaining, d.toNat < 2 ^ p := by
  induction fuel generalizing position remaining with
  | zero =>
      obtain rfl : position = 0 := by omega
      have hzero : remaining.value = 0 := by simpa using hremaining
      simp [binaryGroups, hzero]
  | succ fuel ih =>
      rw [binaryGroups]
      split
      · rename_i hends
        have hzero : remaining.value = 0 := by
          rcases hends with rfl | hzero
          · simpa using hremaining
          · exact (BigU.isZero_iff _).mp hzero
        simp [hzero]
      · rename_i hmore
        have hne : remaining.value ≠ 0 := fun hzero =>
          hmore (Or.inr ((BigU.isZero_iff _).mpr hzero))
        -- A last group that is not whole has nothing in it.
        have hle : p ≤ position := by
          by_contra hshort
          rw [Nat.mod_eq_of_lt (by omega)] at hdvd
          exact hne (Nat.eq_zero_of_dvd_of_lt hdvd hremaining)
        obtain ⟨start, rfl⟩ := Nat.exists_eq_add_of_le hle
        have hmask : (remaining.mask start).value = remaining.value % 2 ^ start := BigU.value_mask _ _
        have hdigit : remaining.value / 2 ^ start < 2 ^ p := by
          rw [Nat.div_lt_iff_lt_mul (Nat.two_pow_pos _), ← pow_add]
          exact hremaining
        have hpow : 2 ^ p < 2 ^ 64 := Nat.pow_lt_pow_right (by decide) hlt
        have htoNat : (((remaining.mask (p + start)).shr start).getLimb 0 &&&
            UInt64.ofNat (2 ^ p - 1)).toNat = remaining.value / 2 ^ start := by
          rw [UInt64.toNat_and, BigU.toNat_getLimb, BigU.value_shr, BigU.value_mask, Nat.mul_zero,
            pow_zero, Nat.div_one, Nat.mod_eq_of_lt hremaining, Nat.mod_eq_of_lt (by omega),
            UInt64.toNat_ofNat', Nat.mod_eq_of_lt (by omega), Nat.and_two_pow_sub_one_eq_mod,
            Nat.mod_eq_of_lt hdigit]
        have hdvdMask : 2 ^ (start % p) ∣ remaining.value % 2 ^ start := by
          rw [Nat.add_mod_left] at hdvd
          exact (Nat.dvd_mod_iff (Nat.pow_dvd_pow 2 (Nat.mod_le _ _))).mpr hdvd
        rw [← hmask] at hdvdMask
        have hmaskLt : (remaining.mask start).value < 2 ^ start := by
          rw [hmask]
          exact Nat.mod_lt _ (Nat.two_pow_pos _)
        obtain ⟨hvalue, hdigits⟩ := ih (by omega) hmaskLt hdvdMask
        have hsplit := Nat.div_add_mod remaining.value (2 ^ start)
        rw [Nat.add_sub_cancel_left]
        dsimp only
        constructor
        · rw [List.length_cons, List.map_cons, Numeral.value_cons, htoNat, List.length_map, pow_add]
          nth_rewrite 1 [← hsplit]
          rw [← hmask, pow_succ, Nat.add_mul, ← Nat.mul_assoc ((remaining.mask start).value), hvalue]
          ring
        · intro d hd
          rcases List.mem_cons.mp hd with rfl | hd
          · rw [htoNat]
            exact hdigit
          · exact hdigits d hd

def charOf (d : UInt64) : Char := if d = 0x2E then '.' else digitChar d.toNat

theorem charOf_digit {d : UInt64} (h : d.toNat < radix.value) :
    charOf d = digitChar d.toNat := by
  have hne : d ≠ 0x2E := by
    rintro rfl
    have := radix.le_max
    have hpoint : (0x2E : UInt64).toNat = 46 := rfl
    omega
  rw [charOf, if_neg hne]

theorem map_charOf {ds : List UInt64} (h : ∀ d ∈ ds, d.toNat < radix.value) :
    ds.map charOf = ds.map fun d => digitChar d.toNat :=
  List.map_congr_left fun d hd => charOf_digit (h d hd)

theorem intDigits_text (radix : Radix) (u : BigU) :
    (if u.isZero then [0] else (BigU.lowDigits radix u).reverse).map charOf =
      Numeral.text radix.value u.value := by
  have hlt : ∀ d ∈ (BigU.lowDigits radix u).reverse, d.toNat < radix.value := by
    intro d hd
    apply Nat.digits_lt_base radix.two_le (m := u.value)
    rw [← BigU.lowDigits_eq]
    exact List.mem_map_of_mem (List.mem_reverse.mp hd)
  rw [← BigU.toBase_eq, BigU.toBase]
  split
  · rfl
  · rw [map_charOf hlt, List.map_reverse]

/-- The digits below the point fill whole groups. -/
def WholeGroups (x : F64) (radix : Radix) : Prop :=
  0 ≤ (decompose x).2 ∨
    2 ^ ((decompose x).2.natAbs % trailingZeros radix.value) ∣ (decompose x).1

theorem radixPowerOfTwo_denotes (h : x.isFinite) (hradix : isPowerOfTwo radix.value)
    (hwhole : WholeGroups x radix) :
    Denotes radix.value (exactValue x) (radixPowerOfTwo x radix) := by
  obtain ⟨hpow, hpos, hlt⟩ := isPowerOfTwo_spec hradix
  obtain ⟨_, hlow, _, hunits⟩ := decompose_spec h
  have hmantissa := toNat_mantissa h
  unfold radixPowerOfTwo exactValue WholeGroups at *
  rw [← hunits]
  generalize decompose x = d at *
  obtain ⟨m, exp⟩ := d
  dsimp only at *
  generalize trailingZeros radix.value = p at *
  rw [show (fun d : UInt64 => if d = 0x2E then '.' else digitChar d.toNat) = charOf from rfl]
  rcases lt_or_ge exp 0 with hneg | hnonneg
  · have hnot : ¬ 0 ≤ exp := by omega
    have hshift : (exp + 1074).toNat + exp.natAbs = 1074 := by omega
    have hvalue : ((m * 2 ^ (exp + 1074).toNat : Nat) : ℚ) / 2 ^ 1074 = m / 2 ^ exp.natAbs := by
      rw [div_eq_div_iff (by positivity) (by positivity), ← hshift, pow_add]
      push_cast
      ring
    have hfraction : ((BigU.fromU64 (UInt64.ofNat m)).mask exp.natAbs).value = m % 2 ^ exp.natAbs := by
      rw [BigU.value_mask, BigU.value_fromU64, hmantissa]
    have hfractionLt : ((BigU.fromU64 (UInt64.ofNat m)).mask exp.natAbs).value < 2 ^ exp.natAbs := by
      rw [hfraction]
      exact Nat.mod_lt _ (Nat.two_pow_pos _)
    have hdvd : 2 ^ (exp.natAbs % p) ∣ ((BigU.fromU64 (UInt64.ofNat m)).mask exp.natAbs).value := by
      rw [hfraction]
      exact (Nat.dvd_mod_iff (Nat.pow_dvd_pow 2 (Nat.mod_le _ _))).mpr (hwhole.resolve_left hnot)
    obtain ⟨hgroups, hdigits⟩ := binaryGroups_spec hpos (by omega) (Nat.le_refl _) hfractionLt hdvd
    rw [hpow, hfraction] at hgroups
    rw [hpow] at hdigits
    simp only [if_neg hnot, if_pos hneg]
    generalize binaryGroups p exp.natAbs exp.natAbs _ = ds at *
    have hinteger : (((BigU.fromU64 (UInt64.ofNat m)).shl 0).shr exp.natAbs).value =
        m / 2 ^ exp.natAbs := by
      rw [BigU.value_shr, BigU.value_shl, BigU.value_fromU64, hmantissa, pow_zero, Nat.mul_one]
    have htext := intDigits_text radix (((BigU.fromU64 (UInt64.ofNat m)).shl 0).shr exp.natAbs)
    rw [hinteger] at htext
    have hdenotes := denotes_digits radix hdigits (fraction_split radix hgroups)
    rw [hvalue]
    have htrim : ∀ d ∈ ds.rdropWhile (· == 0), d.toNat < radix.value := fun d hd =>
      hdigits d ((List.rdropWhile_prefix _ _).subset hd)
    split
    · rename_i hnil
      rw [if_pos hnil] at hdenotes
      rw [htext]
      exact hdenotes
    · rename_i hne
      rw [if_neg hne] at hdenotes
      rw [List.map_append, htext, List.map_cons, map_charOf htrim]
      exact hdenotes
  · have hshift : (exp + 1074).toNat = exp.natAbs + 1074 := by omega
    have hvalue : ((m * 2 ^ (exp + 1074).toNat : Nat) : ℚ) / 2 ^ 1074 =
        ((m * 2 ^ exp.natAbs : Nat) : ℚ) := by
      rw [hshift, pow_add, div_eq_iff (by positivity)]
      push_cast
      ring
    have hinteger : (((BigU.fromU64 (UInt64.ofNat m)).shl exp.natAbs).shr 0).value =
        m * 2 ^ exp.natAbs := by
      rw [BigU.value_shr, BigU.value_shl, BigU.value_fromU64, hmantissa, pow_zero, Nat.div_one]
    simp only [if_pos hnonneg, if_neg (show ¬ exp < 0 by omega)]
    rw [intDigits_text, hinteger, hvalue]
    exact Numeral.denotes_int radix.two_le radix.le_max _

theorem ofNat_limit :
    F64.ofNat (2 ^ 53) = .finite false 1076 0 ∧ (F64.ofNat (2 ^ 53)).toUnits = 2 ^ 53 * F64.one := by
  decide +kernel

/-- What is taken for a small integer is one. -/
theorem exists_integer (h : x.isFinite) (hintegral : x.isIntegral = true)
    (hlt : F64.lt (F64.abs x) (F64.ofNat (2 ^ 53)) = true) :
    ∃ k : Nat, k < 2 ^ 53 ∧ exactValue x = k := by
  obtain ⟨hlimit, hunits⟩ := ofNat_limit
  cases x with
  | nan => cases h
  | infinity neg => cases h
  | finite neg e m =>
      have hmagnitude : (F64.finite neg e m).toUnits.natAbs = F64.units e m := by
        cases neg <;> simp [F64.toUnits]
      have hmod : F64.units e m % F64.one = 0 := of_decide_eq_true hintegral
      have hless : F64.units e m < 2 ^ 53 * F64.one := by
        rw [hlimit] at hlt hunits
        simp only [F64.abs, F64.lt, hunits, decide_eq_true_eq] at hlt
        simp only [F64.toUnits, Bool.false_eq_true, if_false] at hlt
        zify
        exact hlt
      have hone : (F64.one : ℚ) = 2 ^ 1074 := by
        -- The exponent stays abstract: as a literal the power would be evaluated.
        obtain ⟨k, hk, hone⟩ : ∃ k, k = 1074 ∧ F64.one = 2 ^ k := ⟨1074, rfl, by unfold F64.one; rfl⟩
        rw [hone, ← hk, Nat.cast_pow, Nat.cast_ofNat]
      have hne : (F64.one : ℚ) ≠ 0 := by exact_mod_cast F64.one_pos.ne'
      have hdiv := Nat.div_add_mod (F64.units e m) F64.one
      refine ⟨F64.units e m / F64.one, ?_, ?_⟩
      · rw [Nat.div_lt_iff_lt_mul F64.one_pos]
        exact hless
      · rw [exactValue, hmagnitude, ← hone, div_eq_iff hne]
        rw [hmod, Nat.add_zero] at hdiv
        nth_rewrite 1 [← hdiv]
        push_cast
        ring

theorem toStringRadix_positive (toString : F64 → List Char) (ln : F64 → F64) (fuel : Nat)
    (h : x.isFinite) (hpos : 0 < x.toUnits) (hint : ∀ k : Nat, k < 2 ^ 53 → exactValue x ≠ k)
    (hten : radix.value ≠ 10) :
    toStringRadix toString ln fuel x radix =
      if isPowerOfTwo radix.value then some (radixPowerOfTwo x radix)
      else if radix.value % 2 = 0 then some (radixExact x radix)
      else radixRoundTrip ln fuel x radix := by
  have hnan : x.isNaN = false := by
    cases x <;> first | rfl | cases h
  have hinfinity : x ≠ .infinity false := by
    rintro rfl
    cases h
  have hzero : F64.eq x F64.zero = false := by
    cases x with
    | nan => cases h
    | infinity neg => cases h
    | finite neg e m => exact decide_eq_false hpos.ne'
  have hneg : F64.lt x F64.zero = false := by
    cases x with
    | nan => cases h
    | infinity neg => cases h
    | finite neg e m => exact decide_eq_false hpos.le.not_gt
  have hsmall : ¬ (x.isIntegral = true ∧ F64.lt (F64.abs x) (F64.ofNat (2 ^ 53)) = true) := by
    rintro ⟨hintegral, hlt⟩
    obtain ⟨k, hk, heq⟩ := exists_integer h hintegral hlt
    exact hint k hk heq
  unfold toStringRadix
  dsimp only
  rw [hnan, hzero, hneg, if_neg Bool.false_ne_true, if_neg Bool.false_ne_true,
    if_neg Bool.false_ne_true, if_neg hinfinity, if_neg hten, if_neg hsmall]

theorem toStringRadix_denotes (toString : F64 → List Char) (ln : F64 → F64) (fuel : Nat) {x : F64}
    (h : x.isFinite) (hpos : 0 < x.toUnits) (hint : ∀ k : Nat, k < 2 ^ 53 → exactValue x ≠ k)
    {radix : Radix} (heven : 2 ∣ radix.value) (hten : radix.value ≠ 10)
    (hwhole : isPowerOfTwo radix.value → WholeGroups x radix) :
    ∃ text, toStringRadix toString ln fuel x radix = some text ∧
      Denotes radix.value (exactValue x) text := by
  rw [toStringRadix_positive toString ln fuel h hpos hint hten]
  split
  · rename_i hradix
    exact ⟨_, rfl, radixPowerOfTwo_denotes h hradix (hwhole hradix)⟩
  · rw [if_pos (Nat.mod_eq_zero_of_dvd heven)]
    exact ⟨_, rfl, radixExact_denotes h heven⟩

/-- The number next to `0.1`. -/
def tenth : F64 := .finite false 1019 2702159776422298

theorem exactValue_tenth : exactValue tenth = 3602879701896397 / 36028797018963968 := by
  have hfraction : (exactFraction tenth).1.value = 7205759403792794 ∧ (exactFraction tenth).2 = 56 := by
    decide +kernel
  rw [← (exactFraction_spec (x := tenth) rfl).1, hfraction.1, hfraction.2]
  norm_num

theorem tenth_not_integer (k : Nat) : exactValue tenth ≠ k := by
  rw [exactValue_tenth]
  intro heq
  rw [div_eq_iff (by norm_num)] at heq
  have hcast : 3602879701896397 = k * 36028797018963968 := by exact_mod_cast heq
  omega

theorem toStringRadix_sixth :
    ∃ text, toStringRadix (fun _ => []) (fun x => x) 0 tenth ⟨6, by decide, by decide⟩ = some text ∧
      Denotes 6 (exactValue tenth) text :=
  toStringRadix_denotes (fun _ => []) (fun x => x) 0 (x := tenth) rfl (by decide +kernel)
    (fun k _ => tenth_not_integer k) (by decide) (by decide) (fun h => absurd h (by decide))

/-- The shortest decimal is another number, and so is a last group that is cut off. -/
theorem toStringRadix_inexact :
    tenth.isFinite ∧ 0 < tenth.toUnits ∧ (∀ k : Nat, exactValue tenth ≠ k) ∧
      (∃ text, toStringRadix (fun _ => "0.1".toList) (fun x => x) 0 tenth
        ⟨10, by decide, by decide⟩ = some text ∧ ¬ Denotes 10 (exactValue tenth) text) ∧
      ∃ text, toStringRadix (fun _ => "0.1".toList) (fun x => x) 0 tenth
        ⟨8, by decide, by decide⟩ = some text ∧ ¬ Denotes 8 (exactValue tenth) text := by
  refine ⟨rfl, by decide +kernel, tenth_not_integer, ⟨"0.1".toList, by decide +kernel, ?_⟩,
    ⟨"0.0631463146314631462".toList, by decide +kernel, ?_⟩⟩
  · intro h
    have hparse : Numeral.parsePoint 10 "0.1".toList = some (1 / 10) := by decide +kernel
    have heq := Option.some.inj (hparse.symm.trans h.value)
    rw [exactValue_tenth] at heq
    norm_num at heq
  · intro h
    have hparse : Numeral.parsePoint 8 "0.0631463146314631462".toList =
        some (14411518807585586 / 144115188075855872) := by decide +kernel
    have heq := Option.some.inj (hparse.symm.trans h.value)
    rw [exactValue_tenth] at heq
    norm_num at heq

end Slag.Crux
