import Mathlib.Algebra.Order.Floor.Semifield
import Mathlib.Data.Int.Log
import Mathlib.Data.Rat.Floor
import Slag.Crux.Dyadic

/-!
Exact decimal rounding (`number.rs`): `toFixed`'s integer, and the significant digits
of `toPrecision` and `toExponential`.
-/

namespace Slag.Crux

open Numeral (digitChar digitChar_eq_zero digits_lt parse_digits value value_append value_cons
  value_eq_ofDigits value_lt value_replicate_zero)

def ten : Radix := ⟨10, by decide, by decide⟩

def roundScale10 (n : BigU) (p k : Nat) : BigU :=
  let scaled := (fun u : BigU => u.mulSmall 10)^[k] n
  let quotient := scaled.shr p
  let remainder := scaled.mask p
  -- The top bit of the remainder.
  let half : Bool := if p = 0 then false else p - 1 < remainder.bitLen
  if half then quotient.addSmall 1 else quotient

def toFixedScale (x : F64) (f : Nat) : BigU :=
  let (n, p) := exactFraction x
  roundScale10 n p f

/-- The digits without trailing zeros, and the number of them before the point. -/
def exactDecimal (x : F64) : List Char × Nat :=
  let (n, p) := exactFraction x
  let integer := n.shr p
  let intDigits := if integer.isZero then [] else integer.toBase ten
  let fracDigits := (fractionDigits ten p 2000 (n.mask p)).1.map fun d => Char.ofNat (0x30 + d.toNat)
  ((intDigits ++ fracDigits).rdropWhile (· = '0'), intDigits.length)

/-- One more in the last place, from the last digit. -/
def carryUp : List Char → List Char
  | [] => ['1']
  | c :: cs => if c = '9' then '0' :: carryUp cs else Char.ofNat (c.toNat + 1) :: cs

def roundDigits (digits : List Char) (len : Nat) : List Char :=
  if digits.length ≤ len then digits ++ List.replicate (len - digits.length) '0'
  else
    let cut := digits.take len
    let next := (digits.getD len '0').toNat - 0x30
    if 5 ≤ next then (carryUp cut.reverse).reverse else cut

def roundSignificant (x : F64) (len : Nat) : Int × List Char :=
  let (digits, point) := exactDecimal x
  let lead := (digits.findIdx? (· ≠ '0')).getD 0
  let exponent : Int := point - 1 - lead
  let stripped := digits.drop lead
  let significand := roundDigits stripped len
  if len < significand.length then (exponent + 1, significand.take len)
  else (exponent, significand)

theorem value_mulSmall_iterate (n : BigU) (k : Nat) :
    ((fun u : BigU => u.mulSmall 10)^[k] n).value = n.value * 10 ^ k := by
  induction k with
  | zero => simp
  | succ k ih =>
      rw [Function.iterate_succ_apply', BigU.value_mulSmall, ih, pow_succ, Nat.mul_assoc]
      rfl

theorem floor_add_half (num den : Nat) (hden : 0 < den) :
    ⌊(num : ℚ) / den + 1 / 2⌋₊ = (2 * num + den) / (2 * den) := by
  rw [← Nat.floor_div_eq_div (K := ℚ)]
  congr 1
  push_cast
  have : (den : ℚ) ≠ 0 := by positivity
  field_simp

theorem value_roundScale10 (n : BigU) (p k : Nat) :
    (roundScale10 n p k).value = (2 * (n.value * 10 ^ k) + 2 ^ p) / (2 * 2 ^ p) := by
  have hpos := Nat.two_pow_pos p
  have hsplit := Nat.div_add_mod (n.value * 10 ^ k) (2 ^ p)
  have hmod := Nat.mod_lt (n.value * 10 ^ k) hpos
  have hquotient : (2 * (n.value * 10 ^ k) + 2 ^ p) / (2 * 2 ^ p) =
      (2 * (n.value * 10 ^ k % 2 ^ p) + 2 ^ p) / (2 * 2 ^ p) + n.value * 10 ^ k / 2 ^ p := by
    rw [← Nat.add_mul_div_left _ _ (Nat.mul_pos two_pos hpos)]
    congr 1
    rw [Nat.mul_assoc]
    omega
  unfold roundScale10
  dsimp only
  rw [hquotient]
  have hhalf : (if p = 0 then false else
      decide (p - 1 < (((fun u : BigU => u.mulSmall 10)^[k] n).mask p).bitLen)) =
      decide (2 ^ p ≤ 2 * (n.value * 10 ^ k % 2 ^ p)) := by
    split
    · rename_i hzero
      subst hzero
      simp [Nat.mod_one]
    · rename_i hne
      obtain ⟨q, rfl⟩ := Nat.exists_eq_succ_of_ne_zero hne
      rw [BigU.bitLen_eq, BigU.value_mask, value_mulSmall_iterate]
      congr 1
      rw [Nat.succ_sub_one, Nat.lt_size, pow_succ]
      apply propext
      omega
  rw [hhalf]
  split
  · rename_i hle
    have hle := of_decide_eq_true hle
    have hone : (2 * (n.value * 10 ^ k % 2 ^ p) + 2 ^ p) / (2 * 2 ^ p) = 1 := by
      rw [Nat.div_eq_iff (Nat.mul_pos two_pos hpos)]
      omega
    rw [BigU.value_addSmall, BigU.value_shr, value_mulSmall_iterate, hone, Nat.add_comm]
    rfl
  · rename_i hlt
    have hlt := of_decide_eq_false (Bool.eq_false_of_not_eq_true hlt)
    have hzero : (2 * (n.value * 10 ^ k % 2 ^ p) + 2 ^ p) / (2 * 2 ^ p) = 0 := by
      apply Nat.div_eq_of_lt
      omega
    rw [BigU.value_shr, value_mulSmall_iterate, hzero, Nat.zero_add]

theorem value_toFixedScale {x : F64} (h : x.isFinite) (f : Nat) :
    (toFixedScale x f).value = ⌊exactValue x * 10 ^ f + 1 / 2⌋₊ := by
  have hvalue := (exactFraction_spec h).1
  have hcast : exactValue x * 10 ^ f =
      (((exactFraction x).1.value * 10 ^ f : Nat) : ℚ) / (2 ^ (exactFraction x).2 : Nat) := by
    rw [← hvalue]
    push_cast
    ring
  rw [hcast, floor_add_half _ _ (Nat.two_pow_pos _)]
  exact value_roundScale10 _ _ _

section digits

theorem toNat_digitChar {d : Nat} (h : d < 10) : (digitChar d).toNat = 0x30 + d := by
  decide +revert

theorem digitChar_eq_nine {d : Nat} (h : d < 10) : digitChar d = '9' ↔ d = 9 := by
  decide +revert

theorem ofNat_digit {d : Nat} (h : d < 10) : Char.ofNat (0x30 + d) = digitChar d := by
  rw [digitChar, if_pos h]

variable {ds : List Nat}

/-- The carry of a digit string, its last digit first. -/
theorem carryUp_spec (hds : ∀ d ∈ ds, d < 10) :
    ∃ out, carryUp (ds.map digitChar) = out.map digitChar ∧ (∀ d ∈ out, d < 10) ∧
      Nat.ofDigits 10 out = Nat.ofDigits 10 ds + 1 ∧
      (out.length = ds.length ∨
        out.length = ds.length + 1 ∧ Nat.ofDigits 10 out = 10 ^ ds.length) := by
  induction ds with
  | nil => exact ⟨[1], by decide, by decide, by decide, Or.inr ⟨rfl, by decide⟩⟩
  | cons d ds ih =>
      have hd := hds d List.mem_cons_self
      rw [List.map_cons, carryUp]
      by_cases hnine : d = 9
      · obtain ⟨out, hout, hlt, hvalue, hlength⟩ :=
          ih fun e he => hds e (List.mem_cons_of_mem d he)
        refine ⟨0 :: out, ?_, ?_, ?_, ?_⟩
        · rw [if_pos ((digitChar_eq_nine hd).mpr hnine), hout]
          rfl
        · intro e he
          rcases List.mem_cons.mp he with rfl | he
          · decide
          · exact hlt e he
        · rw [Nat.ofDigits_cons, Nat.ofDigits_cons, hvalue, hnine]
          ring
        · rcases hlength with hsame | ⟨hmore, hten⟩
          · exact Or.inl (congrArg (· + 1) hsame)
          · refine Or.inr ⟨congrArg (· + 1) hmore, ?_⟩
            rw [Nat.ofDigits_cons, hten, List.length_cons, pow_succ',
              Nat.zero_add]
      · have hchar : digitChar d ≠ '9' := fun h => hnine ((digitChar_eq_nine hd).mp h)
        refine ⟨(d + 1) :: ds, ?_, ?_, ?_, Or.inl rfl⟩
        · rw [if_neg hchar, toNat_digitChar hd, Nat.add_assoc, ofNat_digit (by omega)]
          rfl
        · intro e he
          rcases List.mem_cons.mp he with rfl | he
          · omega
          · exact hds e (List.mem_cons_of_mem d he)
        · rw [Nat.ofDigits_cons, Nat.ofDigits_cons]
          ring

/-- Rounded half up at a place, and one digit longer only for a power of ten. -/
theorem roundDigits_spec (hds : ∀ d ∈ ds, d < 10) (len : Nat) :
    ∃ out, roundDigits (ds.map digitChar) len = out.map digitChar ∧ (∀ d ∈ out, d < 10) ∧
      value 10 out =
        (2 * (value 10 ds * 10 ^ len) + 10 ^ ds.length) / (2 * 10 ^ ds.length) ∧
      (out.length = len ∨ out.length = len + 1 ∧ value 10 out = 10 ^ len) := by
  unfold roundDigits
  rw [List.length_map]
  split
  · rename_i hle
    obtain ⟨k, rfl⟩ := Nat.exists_eq_add_of_le hle
    refine ⟨ds ++ List.replicate k 0, ?_, ?_, ?_, ?_⟩
    · rw [List.map_append, List.map_replicate, Nat.add_sub_cancel_left]
      rfl
    · intro d hd
      rcases List.mem_append.mp hd with hd | hd
      · exact hds d hd
      · rw [List.eq_of_mem_replicate hd]
        decide
    · have hpos : 0 < 10 ^ ds.length := Nat.pow_pos (by decide)
      have hnum : 2 * (value 10 ds * 10 ^ (ds.length + k)) + 10 ^ ds.length =
          10 ^ ds.length + 2 * 10 ^ ds.length * (value 10 ds * 10 ^ k) := by
        rw [pow_add]
        ring
      rw [value_append, value_replicate_zero, List.length_replicate, hnum,
        Nat.add_mul_div_left _ _ (Nat.mul_pos two_pos hpos), Nat.div_eq_of_lt (by omega),
        Nat.add_zero, Nat.zero_add]
    · left
      simp
  · rename_i hlt
    have hlt := Nat.lt_of_not_le hlt
    have hnext := List.drop_eq_getElem_cons hlt
    have hsplit : ds = ds.take len ++ ds[len] :: ds.drop (len + 1) := by
      rw [← hnext, List.take_append_drop]
    have hcut : (ds.take len).length = len := by
      rw [List.length_take, Nat.min_eq_left hlt.le]
    have hdigit := hds ds[len] (List.getElem_mem hlt)
    have hgetD : (ds.map digitChar).getD len '0' = digitChar ds[len] := by
      simp [List.getD_eq_getElem?_getD, hlt]
    have hrest : ∀ d ∈ ds.drop (len + 1), d < 10 := fun d hd => hds d (List.mem_of_mem_drop hd)
    have htake : ∀ d ∈ ds.take len, d < 10 := fun d hd => hds d (List.mem_of_mem_take hd)
    have hrestLt := value_lt hrest
    have hvalue : value 10 ds = value 10 (ds.take len) *
        10 ^ (ds.drop (len + 1)).length * 10 +
          (ds[len] * 10 ^ (ds.drop (len + 1)).length + value 10 (ds.drop (len + 1))) := by
      nth_rewrite 1 [hsplit]
      rw [value_append, value_cons, List.length_cons, pow_succ, Nat.mul_assoc]
    have hlength : ds.length = len + ((ds.drop (len + 1)).length + 1) := by
      rw [List.length_drop]
      omega
    have hquotient : (2 * (value 10 ds * 10 ^ len) + 10 ^ ds.length) / (2 * 10 ^ ds.length) =
        value 10 (ds.take len) + if 5 ≤ ds[len] then 1 else 0 := by
      rw [hlength, hvalue, pow_add, pow_succ]
      generalize value 10 (ds.take len) = c
      generalize value 10 (ds.drop (len + 1)) = t at *
      generalize 10 ^ (ds.drop (len + 1)).length = w at *
      generalize ds[len] = d at *
      have hpos : 0 < 10 ^ len := Nat.pow_pos (by decide)
      have hw : 0 < w := Nat.zero_lt_of_lt hrestLt
      have hnum : 2 * ((c * w * 10 + (d * w + t)) * 10 ^ len) + 10 ^ len * (w * 10) =
          10 ^ len * (2 * (d * w + t) + 10 * w + 20 * w * c) := by ring
      have hden : 2 * (10 ^ len * (w * 10)) = 10 ^ len * (20 * w) := by ring
      rw [hnum, hden, Nat.mul_div_mul_left _ _ hpos, Nat.add_mul_div_left _ _ (by omega), Nat.add_comm]
      congr 1
      split
      · rename_i hfive
        have hle := Nat.mul_le_mul_right w hfive
        have hge := Nat.mul_le_mul_right w (show d ≤ 9 by omega)
        rw [Nat.div_eq_iff (by omega)]
        omega
      · rename_i hfour
        have hle := Nat.mul_le_mul_right w (show d ≤ 4 by omega)
        apply Nat.div_eq_of_lt
        omega
    dsimp only
    rw [hquotient, hgetD, toNat_digitChar hdigit, ← List.map_take, Nat.add_sub_cancel_left]
    split
    · have hreverse : ∀ d ∈ (ds.take len).reverse, d < 10 := fun d hd =>
        htake d (List.mem_reverse.mp hd)
      obtain ⟨out, hout, hlt, hup, hlen⟩ := carryUp_spec hreverse
      rw [← value_eq_ofDigits] at hup
      rw [List.length_reverse, hcut] at hlen
      refine ⟨out.reverse, ?_, fun d hd => hlt d (List.mem_reverse.mp hd), ?_, ?_⟩
      · rw [← List.map_reverse, hout, List.map_reverse]
      · rw [value_eq_ofDigits, List.reverse_reverse, hup]
      · rw [List.length_reverse, value_eq_ofDigits, List.reverse_reverse]
        exact hlen
    · exact ⟨ds.take len, rfl, htake, rfl, Or.inl hcut⟩

theorem trim_spec (hds : ∀ d ∈ ds, d < 10) :
    ∃ out k, (ds.map digitChar).rdropWhile (· = '0') = out.map digitChar ∧
      ds = out ++ List.replicate k 0 := by
  induction ds using List.reverseRecOn with
  | nil => exact ⟨[], 0, rfl, rfl⟩
  | append_singleton ds d ih =>
      have hd := hds d (List.mem_append_right _ List.mem_cons_self)
      rw [List.map_append, List.map_singleton]
      by_cases hzero : d = 0
      · obtain ⟨out, k, hout, heq⟩ := ih fun e he => hds e (List.mem_append_left _ he)
        refine ⟨out, k + 1, ?_, ?_⟩
        · have hchar : decide (digitChar d = '0') = true :=
            decide_eq_true ((digitChar_eq_zero (by omega)).mpr hzero)
          rw [List.rdropWhile_concat_pos (fun c => decide (c = '0')) _ _ hchar, hout]
        · rw [hzero, List.replicate_succ', ← List.append_assoc, ← heq]
      · have hchar : ¬ decide (digitChar d = '0') = true := by
          rw [decide_eq_true_iff, digitChar_eq_zero (by omega)]
          exact hzero
        refine ⟨ds ++ [d], 0, ?_, ?_⟩
        · rw [List.rdropWhile_concat_neg (fun c => decide (c = '0')) _ _ hchar, List.map_append,
            List.map_singleton]
        · rw [List.replicate_zero, List.append_nil]

/-- Up to the first significant digit there are zeros. -/
theorem lead_spec (hds : ∀ d ∈ ds, d < 10) (hne : value 10 ds ≠ 0) :
    ∃ d rest, d ≠ 0 ∧ ds = List.replicate (((ds.map digitChar).findIdx? (· ≠ '0')).getD 0) 0 ++
      d :: rest := by
  induction ds with
  | nil => exact absurd rfl hne
  | cons d ds ih =>
      have hd := hds d List.mem_cons_self
      rw [List.map_cons, List.findIdx?_cons]
      by_cases hzero : d = 0
      · have hchar : decide (digitChar d ≠ '0') = false := by
          rw [decide_eq_false_iff_not, not_not, digitChar_eq_zero (by omega)]
          exact hzero
        have hne : value 10 ds ≠ 0 := by
          rw [value_cons, hzero, Nat.zero_mul, Nat.zero_add] at hne
          exact hne
        obtain ⟨e, rest, he, heq⟩ := ih (fun e he => hds e (List.mem_cons_of_mem d he)) hne
        refine ⟨e, rest, he, ?_⟩
        rw [hchar]
        cases hfind : (ds.map digitChar).findIdx? (· ≠ '0') with
        | some i =>
            rw [hfind] at heq
            simp only [Option.getD_some] at heq
            simp only [Bool.false_eq_true, if_false, Option.map_some, Option.getD_some]
            rw [List.replicate_succ, List.cons_append, ← heq, hzero]
        | none =>
            have hall := List.findIdx?_eq_none_iff.mp hfind
            have hmem : digitChar e ∈ ds.map digitChar := by
              apply List.mem_map_of_mem
              rw [heq]
              exact List.mem_append_right _ List.mem_cons_self
            have hfalse := hall _ hmem
            have hlt : e < 10 := by
              apply hds
              rw [heq]
              exact List.mem_cons_of_mem _ (List.mem_append_right _ List.mem_cons_self)
            rw [decide_eq_false_iff_not, not_not, digitChar_eq_zero (by omega)] at hfalse
            exact absurd hfalse he
      · have hchar : decide (digitChar d ≠ '0') = true := by
          rw [decide_eq_true_iff, ne_eq, digitChar_eq_zero (by omega)]
          exact hzero
        refine ⟨d, ds, hzero, ?_⟩
        rw [hchar]
        rfl

end digits

/-- The digits below the point come to an end before the bound on their number. -/
theorem fraction_ends {x : F64} (h : x.isFinite) :
    (fractionDigits ten (exactFraction x).2 2000
      ((exactFraction x).1.mask (exactFraction x).2)).2.isZero := by
  have hp := (exactFraction_spec h).2
  apply fractionDigits_rest ten _ (by decide) (k := 0)
  · rw [BigU.value_mask]
    exact Nat.mod_lt _ (Nat.two_pow_pos _)
  · exact Nat.one_dvd _
  · omega

theorem exactDecimal_spec {x : F64} (h : x.isFinite) :
    ∃ ds, (exactDecimal x).1 = ds.map digitChar ∧ (∀ d ∈ ds, d < 10) ∧
      exactValue x * 10 ^ ds.length = value 10 ds * 10 ^ (exactDecimal x).2 := by
  have hends := fraction_ends h
  have hvalue := (exactFraction_spec h).1
  unfold exactDecimal
  rw [← hvalue]
  generalize exactFraction x = np at *
  obtain ⟨n, p⟩ := np
  dsimp only at hends ⊢
  have hmask : (n.mask p).value < 2 ^ p := by
    rw [BigU.value_mask]
    exact Nat.mod_lt _ (Nat.two_pow_pos _)
  obtain ⟨hfraction, hdigits⟩ := fractionDigits_spec ten p 2000 hmask
  rw [BigU.isZero_iff] at hends
  rw [hends, Nat.add_zero, BigU.value_mask] at hfraction
  generalize (fractionDigits ten p 2000 (n.mask p)).1 = fs at *
  have hint : (if (n.shr p).isZero then [] else (n.shr p).toBase ten) =
      (Numeral.digits 10 (n.value / 2 ^ p)).map digitChar := by
    rw [BigU.toBase_eq, BigU.value_shr, Numeral.text]
    split
    · rename_i hzero
      rw [BigU.isZero_iff, BigU.value_shr] at hzero
      rw [hzero, Numeral.digits_zero]
      rfl
    · rename_i hzero
      rw [BigU.isZero_iff, BigU.value_shr] at hzero
      rw [if_neg hzero]
      rfl
  have hfrac : (fs.map fun d => Char.ofNat (0x30 + d.toNat)) = (fs.map UInt64.toNat).map digitChar := by
    rw [List.map_map]
    apply List.map_congr_left
    intro d hd
    exact ofNat_digit (hdigits d hd)
  rw [hint, hfrac, ← List.map_append, List.length_map]
  have hall : ∀ d ∈ Numeral.digits 10 (n.value / 2 ^ p) ++ fs.map UInt64.toNat, d < 10 := by
    intro d hd
    rcases List.mem_append.mp hd with hd | hd
    · exact digits_lt (by decide) hd
    · obtain ⟨e, he, rfl⟩ := List.mem_map.mp hd
      exact hdigits e he
  obtain ⟨out, k, hout, heq⟩ := trim_spec hall
  refine ⟨out, hout, fun d hd => hall d (by rw [heq]; exact List.mem_append_left _ hd), ?_⟩
  have hlength := congrArg List.length heq
  have hnumber := congrArg (value 10) heq
  rw [value_append, value_append, Numeral.value_digits, value_replicate_zero,
    List.length_replicate, List.length_map, Nat.add_zero] at hnumber
  rw [List.length_append, List.length_append, List.length_replicate, List.length_map] at hlength
  have hsplit := Nat.div_add_mod n.value (2 ^ p)
  have hscaled : n.value * 10 ^ fs.length = value 10 out * 10 ^ k * 2 ^ p := by
    have hfraction : n.value % 2 ^ p * 10 ^ fs.length = _ := hfraction
    rw [← hnumber, Nat.add_mul]
    nth_rewrite 1 [← hsplit]
    rw [Nat.add_mul, hfraction]
    congr 1
    ring
  have hcast : (n.value : ℚ) * 10 ^ fs.length = value 10 out * 10 ^ k * 2 ^ p := by
    exact_mod_cast hscaled
  apply mul_right_cancel₀ (pow_ne_zero k (show (10 : ℚ) ≠ 0 by norm_num))
  rw [mul_assoc, ← pow_add, ← hlength, pow_add, div_mul_eq_mul_div, mul_left_comm, hcast,
    div_eq_iff (by positivity)]
  ring

/-- `v` in units of the last of `len` digits, ties rounded up. -/
def roundedAt (v : ℚ) (len : Nat) (e : Int) : Nat := ⌊v / 10 ^ (e - len + 1) + 1 / 2⌋₊

structure Significant (v : ℚ) (len : Nat) (e : Int) (digits : List Char) : Prop where
  length : digits.length = len
  /-- One more where the rounding carries out of the leading digit. -/
  exponent : e = Int.log 10 v + if 10 ^ len ≤ roundedAt v len (Int.log 10 v) then 1 else 0
  lower : 10 ^ (len - 1) ≤ roundedAt v len e
  upper : roundedAt v len e < 10 ^ len
  value : Numeral.parse 10 digits = some (roundedAt v len e)

theorem log_eq {D L : Nat} {e : Int} (hlow : 10 ^ L ≤ D) (hhigh : D < 10 ^ (L + 1)) :
    Int.log 10 ((D : ℚ) * 10 ^ (e - L)) = e := by
  have hten : (0 : ℚ) < 10 ^ (e - L) := zpow_pos (by norm_num) _
  have hpos : (0 : ℚ) < D * 10 ^ (e - L) := by
    have hD : 0 < D := Nat.lt_of_lt_of_le (Nat.pow_pos (by decide)) hlow
    positivity
  have hsplit : ∀ k : Nat, ((10 : Nat) : ℚ) ^ (e - L + k) = (10 ^ k : Nat) * 10 ^ (e - L) := by
    intro k
    rw [zpow_add₀ (by norm_num), zpow_natCast, mul_comm]
    push_cast
    rfl
  apply le_antisymm
  · have hlt : (D : ℚ) * 10 ^ (e - L) < ((10 : Nat) : ℚ) ^ (e + 1) := by
      rw [show e + 1 = e - L + (L + 1 : Nat) by push_cast; ring, hsplit]
      exact mul_lt_mul_of_pos_right (by exact_mod_cast hhigh) hten
    have := (Int.lt_zpow_iff_log_lt (by decide) hpos).mp hlt
    omega
  · rw [← Int.zpow_le_iff_le_log (by decide) hpos, show e = e - L + L by ring, hsplit]
    rw [show e - L + L - L = e - L by ring]
    exact mul_le_mul_of_nonneg_right (by exact_mod_cast hlow) hten.le

theorem roundedAt_eq (D L len : Nat) (e : Int) :
    roundedAt ((D : ℚ) * 10 ^ (e - L)) len e =
      (2 * (D * 10 ^ len) + 10 ^ (L + 1)) / (2 * 10 ^ (L + 1)) := by
  have hcast : (D : ℚ) * 10 ^ (e - L) / 10 ^ (e - len + 1) =
      ((D * 10 ^ len : Nat) : ℚ) / (10 ^ (L + 1) : Nat) := by
    rw [mul_div_assoc, ← zpow_sub₀ (by norm_num), show e - L - (e - len + 1) = len - (L + 1 : Nat) by
      push_cast; ring, zpow_sub₀ (by norm_num), zpow_natCast, zpow_natCast, ← mul_div_assoc]
    push_cast
    rfl
  rw [roundedAt, hcast, floor_add_half _ _ (Nat.pow_pos (by decide))]

/-- After a carry the digits are those of a power of ten. -/
theorem roundedAt_carry {D L len : Nat} {e : Int} (hhigh : D < 10 ^ (L + 1)) (hlen : 1 ≤ len)
    (h : 10 ^ len ≤ roundedAt ((D : ℚ) * 10 ^ (e - L)) len e) :
    roundedAt ((D : ℚ) * 10 ^ (e - L)) len (e + 1) = 10 ^ (len - 1) := by
  obtain ⟨l, rfl⟩ := Nat.exists_eq_add_of_le' hlen
  have hshift : e - L = e + 1 - (L + 1 : Nat) := by
    push_cast
    ring
  have hpos : 0 < 10 ^ (L + 1) := Nat.pow_pos (by decide)
  rw [roundedAt_eq, Nat.le_div_iff_mul_le (Nat.mul_pos two_pos hpos)] at h
  have hmul := Nat.mul_lt_mul_of_pos_right hhigh (show 0 < 10 ^ (l + 1) from Nat.pow_pos (by decide))
  rw [hshift, roundedAt_eq, Nat.add_sub_cancel, pow_succ 10 (L + 1),
    Nat.div_eq_iff (Nat.mul_pos two_pos (Nat.mul_pos hpos (by decide)))]
  rw [pow_succ 10 l] at h hmul ⊢
  generalize 10 ^ (L + 1) = t at *
  generalize 10 ^ l = q at *
  have hten : q * (2 * (t * 10)) = 20 * (q * t) := by ring
  have hsame : D * (q * 10) = 10 * (D * q) := by ring
  have htop : t * (q * 10) = 10 * (q * t) := by ring
  have hunder : q * 10 * (2 * t) = 20 * (q * t) := by ring
  omega

theorem roundSignificant_spec {x : F64} (h : x.isFinite) (hne : x.toUnits ≠ 0) {len : Nat}
    (hlen : 1 ≤ len) :
    Significant (exactValue x) len (roundSignificant x len).1 (roundSignificant x len).2 := by
  obtain ⟨ds, hchars, hds, hvalue⟩ := exactDecimal_spec h
  have hpos := exactValue_pos hne
  have hnumber : value 10 ds ≠ 0 := by
    intro hzero
    rw [hzero, Nat.cast_zero, zero_mul] at hvalue
    have : (0 : ℚ) < exactValue x * 10 ^ ds.length := by positivity
    exact this.ne' hvalue
  obtain ⟨d, rest, hd, heq⟩ := lead_spec hds hnumber
  unfold roundSignificant
  generalize exactDecimal x = decimal at *
  obtain ⟨chars, point⟩ := decimal
  dsimp only at hchars hvalue ⊢
  subst hchars
  generalize ((ds.map digitChar).findIdx? (· ≠ '0')).getD 0 = lead at *
  have hdrop : (ds.map digitChar).drop lead = (d :: rest).map digitChar := by
    rw [heq, List.map_append, List.drop_left' (by simp)]
  have hdigits : ∀ e ∈ d :: rest, e < 10 := fun e he => hds e (by
    rw [heq]
    exact List.mem_append_right _ he)
  -- The number is its significant digits, scaled.
  have hD : value 10 ds = value 10 (d :: rest) := by
    rw [heq, value_append, value_replicate_zero, Nat.zero_mul, Nat.zero_add]
  have hL : ds.length = lead + (rest.length + 1) := by
    rw [heq, List.length_append, List.length_replicate, List.length_cons]
  have hlow : 10 ^ rest.length ≤ value 10 (d :: rest) := by
    rw [value_cons]
    have := Nat.le_mul_of_pos_left (10 ^ rest.length) (Nat.pos_of_ne_zero hd)
    omega
  have hhigh : value 10 (d :: rest) < 10 ^ (rest.length + 1) := value_lt hdigits
  obtain ⟨out, hout, hlt, hround, hlength⟩ := roundDigits_spec hdigits len
  rw [List.length_cons] at hround
  rw [hD, hL] at hvalue
  generalize value 10 (d :: rest) = D at *
  have hx : exactValue x = D * 10 ^ ((point : Int) - 1 - lead - rest.length) := by
    have hten : (10 : ℚ) ≠ 0 := by norm_num
    apply mul_right_cancel₀ (pow_ne_zero (lead + (rest.length + 1)) hten)
    rw [hvalue, mul_assoc, ← zpow_natCast, ← zpow_natCast, ← zpow_add₀ hten]
    congr 2
    push_cast
    ring
  rw [← roundedAt_eq D rest.length len ((point : Int) - 1 - lead), ← hx] at hround
  have hlog := log_eq (e := (point : Int) - 1 - lead) hlow hhigh
  rw [← hx] at hlog
  have hunder : 10 ^ (len - 1) ≤ roundedAt (exactValue x) len (point - 1 - lead) := by
    have hle := Nat.mul_le_mul_right (10 ^ len) hlow
    have hsplit : 10 ^ len = 10 ^ (len - 1) * 10 := by
      rw [← pow_succ, Nat.sub_add_cancel hlen]
    rw [hx, roundedAt_eq, Nat.le_div_iff_mul_le (Nat.mul_pos two_pos (Nat.pow_pos (by decide)))]
    rw [hsplit] at hle ⊢
    calc 10 ^ (len - 1) * (2 * 10 ^ (rest.length + 1)) =
          2 * (10 ^ rest.length * (10 ^ (len - 1) * 10)) := by ring
      _ ≤ 2 * (D * (10 ^ (len - 1) * 10)) := Nat.mul_le_mul_left 2 hle
      _ ≤ _ := Nat.le_add_right _ _
  have hne : out ≠ [] := by
    rintro rfl
    rcases hlength with hsame | ⟨hmore, _⟩
    · simp only [List.length_nil] at hsame
      omega
    · simp at hmore
  rw [hdrop, hout, List.length_map]
  rcases hlength with hsame | ⟨hmore, hten⟩
  · have hover := value_lt hlt
    rw [hsame, hround] at hover
    rw [if_neg (by omega)]
    refine ⟨?_, ?_, hunder, hover, ?_⟩
    · rw [List.length_map, hsame]
    · rw [hlog, if_neg (by omega), add_zero]
    · rw [parse_digits hlt (by decide) hne, hround]
  · rw [hround] at hten
    obtain ⟨l, rfl⟩ := Nat.exists_eq_add_of_le' hlen
    have hcarry : roundedAt (exactValue x) (l + 1) (point - 1 - lead + 1) = 10 ^ l := by
      rw [hx] at hten ⊢
      exact roundedAt_carry hhigh hlen hten.ge
    have htake : ∀ e ∈ out.take (l + 1), e < 10 := fun e he => hlt e (List.mem_of_mem_take he)
    have hvalue : value 10 (out.take (l + 1)) = 10 ^ l := by
      have hsplit := congrArg (value 10) (List.take_append_drop (l + 1) out)
      have hlast : (out.drop (l + 1)).length = 1 := by
        rw [List.length_drop, hmore]
        omega
      have hdrop : ∀ e ∈ out.drop (l + 1), e < 10 := fun e he => hlt e (List.mem_of_mem_drop he)
      have hsmall := value_lt hdrop
      rw [value_append, hlast, hround, hten, pow_succ] at hsplit
      rw [hlast] at hsmall
      omega
    have hnil : out.take (l + 1) ≠ [] := by
      simpa using hne
    rw [if_pos (by omega)]
    refine ⟨?_, ?_, ?_, ?_, ?_⟩
    · rw [List.length_take, List.length_map, hmore]
      omega
    · rw [hlog, if_pos hten.ge]
    · rw [hcarry, Nat.add_sub_cancel]
    · rw [hcarry, pow_succ]
      have : 0 < 10 ^ l := Nat.pow_pos (by decide)
      omega
    · rw [← List.map_take, parse_digits htake (by decide) hnil, hvalue, hcarry]

theorem decimalRounding_exact {x : F64} (h : x.isFinite) (hne : x.toUnits ≠ 0) :
    (∀ f, (toFixedScale x f).value = ⌊exactValue x * 10 ^ f + 1 / 2⌋₊) ∧
      (∀ len, 1 ≤ len →
        Significant (exactValue x) len (roundSignificant x len).1 (roundSignificant x len).2) ∧
      (fractionDigits ten (exactFraction x).2 2000
        ((exactFraction x).1.mask (exactFraction x).2)).2.isZero :=
  ⟨value_toFixedScale h, fun _ => roundSignificant_spec h hne, fraction_ends h⟩

theorem decimalRounding_half :
    (∀ f, (toFixedScale (.finite false 1022 0) f).value =
        ⌊exactValue (.finite false 1022 0) * 10 ^ f + 1 / 2⌋₊) ∧
      (∀ len, 1 ≤ len → Significant (exactValue (.finite false 1022 0)) len
        (roundSignificant (.finite false 1022 0) len).1
        (roundSignificant (.finite false 1022 0) len).2) ∧
      (fractionDigits ten (exactFraction (.finite false 1022 0)).2 2000
        ((exactFraction (.finite false 1022 0)).1.mask
          (exactFraction (.finite false 1022 0)).2)).2.isZero :=
  decimalRounding_exact (x := .finite false 1022 0) rfl (by decide +kernel)

end Slag.Crux
