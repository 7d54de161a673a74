import Slag.Crux.IntegerLiteral
import Slag.Lib.Float64

/-!
`parseInt`: the sign, the prefix that chooses the radix, and the digits, read as a
Number.
-/

namespace Slag.Global

open Crux (JsString DigitUnit Mark applySign markRadix signOf)
open Numeral (value)

def isWhitespace (unit : UInt16) : Bool :=
  unit == 0x0009 || unit == 0x000A || unit == 0x000B || unit == 0x000C || unit == 0x000D ||
    unit == 0x0020 || unit == 0x00A0 || unit == 0x1680 || (0x2000 ≤ unit && unit ≤ 0x200A) ||
    unit == 0x2028 || unit == 0x2029 || unit == 0x202F || unit == 0x205F || unit == 0x3000 ||
    unit == 0xFEFF

def digitValue (unit : UInt16) : Option Nat :=
  if 0x30 ≤ unit ∧ unit ≤ 0x39 then some (unit.toNat - 0x30)
  else if 0x61 ≤ unit ∧ unit ≤ 0x7A then some (unit.toNat - 0x61 + 10)
  else if 0x41 ≤ unit ∧ unit ≤ 0x5A then some (unit.toNat - 0x41 + 10)
  else none

/-- The digits of a radix from the front, and whether there was one. -/
def readDigits (effective : Nat) : F64 → Bool → JsString → F64 × Bool
  | v, sawDigit, [] => (v, sawDigit)
  | v, sawDigit, unit :: rest =>
      match digitValue unit with
      | none => (v, sawDigit)
      | some digit =>
          if effective ≤ digit then (v, sawDigit)
          else readDigits effective ((v.mul (.ofNat effective)).add (.ofNat digit)) true rest

/-- The radix of the digits, and the string without its prefix. -/
def effectiveRadix (r : Int) (rest : JsString) : Nat × JsString :=
  let effective := if r = 0 then 10 else r.toNat
  if r = 0 ∨ r = 16 then
    match rest with
    | hi :: lo :: tail =>
        if hi = 0x30 then
          match markRadix lo with
          | some radix => (radix, tail)
          | none => (effective, rest)
        else (effective, rest)
    | _ => (effective, rest)
  else (effective, rest)

def parseInt (units : JsString) (radixValue : F64) : F64 :=
  let body := units.dropWhile isWhitespace
  if body = [] then .nan
  else
    let (negative, rest) := signOf body
    let r := radixValue.toInt32
    if r ≠ 0 ∧ ¬ (2 ≤ r ∧ r ≤ 36) then .nan
    else
      let (effective, rest) := effectiveRadix r rest
      if rest = [] then .nan
      else
        let (v, sawDigit) := readDigits effective .zero false rest
        if sawDigit then (if negative then .ofInt (-1) else .ofInt 1 : F64).mul v else .nan

/-! ## The numeral that is read -/

section

-- The letters that follow a zero in a prefix, with their radix.
variable (marks : UInt16 → Nat → Prop)

/-- A prefix counts with radix 0 or 16; ten is the radix without one. -/
inductive Prefixed (r : Int) : JsString → Nat → JsString → Prop where
  | marked {mark : UInt16} {radix : Nat} {rest : JsString} (hr : r = 0 ∨ r = 16)
      (hmark : marks mark radix) : Prefixed r (0x30 :: mark :: rest) radix rest
  | plain {rest : JsString} (hnone : r = 0 ∨ r = 16 → ∀ mark radix tail, rest = 0x30 :: mark :: tail →
      ¬ marks mark radix) : Prefixed r rest (if r = 0 then 10 else r.toNat) rest

/-- What a string reads as with a radix argument that is `r` as a 32-bit integer. -/
structure ReadsNumeral (units : JsString) (r : Int) (result : F64) : Prop where
  range : r ≠ 0 → ¬ (2 ≤ r ∧ r ≤ 36) → result = .nan
  longest : r = 0 ∨ 2 ≤ r ∧ r ≤ 36 → ∀ negative body radix rest,
    signOf (units.dropWhile isWhitespace) = (negative, body) → Prefixed marks r body radix rest →
      ∃ digits ds tail, rest = digits ++ tail ∧ List.Forall₂ (DigitUnit radix) digits ds ∧
        (∀ unit d, tail.head? = some unit → ¬ DigitUnit radix unit d) ∧
        (digits = [] → result = .nan) ∧
        (digits ≠ [] → value radix ds < 2 ^ 53 → F64.HasInt result (applySign negative (value radix ds)))

end

/-- The letter of a hexadecimal prefix. -/
inductive HexMark : UInt16 → Nat → Prop where
  | x : HexMark 0x78 16
  | X : HexMark 0x58 16

theorem digitValue_eq (unit : UInt16) : digitValue unit = Crux.unitDigit unit := rfl

/-- The digits are read up to the first unit that is none of the radix; the value is exact
while it stays below `2 ^ 53`. -/
theorem readDigits_spec {radix : Nat} (hradix : radix ≤ 36) (rest : JsString) (v : F64) (saw : Bool) :
    ∃ digits ds tail, rest = digits ++ tail ∧ List.Forall₂ (DigitUnit radix) digits ds ∧
      (∀ unit d, tail.head? = some unit → ¬ DigitUnit radix unit d) ∧
      (readDigits radix v saw rest).2 = (saw || !digits.isEmpty) ∧
      ∀ acc : Nat, F64.HasInt v acc → acc * radix ^ ds.length + value radix ds < 2 ^ 53 →
        F64.HasInt (readDigits radix v saw rest).1 (acc * radix ^ ds.length + value radix ds : Nat) := by
  induction rest generalizing v saw with
  | nil =>
      refine ⟨[], [], [], rfl, .nil, nofun, ?_, fun acc hacc _ => ?_⟩
      · rw [readDigits, List.isEmpty_nil, Bool.not_true, Bool.or_false]
      · rw [readDigits]
        simpa using hacc
  | cons unit rest ih =>
      by_cases hdigit : ∃ d, DigitUnit radix unit d
      · obtain ⟨d, hd⟩ := hdigit
        have hstep : readDigits radix v saw (unit :: rest) =
            readDigits radix ((v.mul (.ofNat radix)).add (.ofNat d)) true rest := by
          rw [readDigits, digitValue_eq, hd.unitDigit]
          exact if_neg (Nat.not_le.mpr hd.lt)
        obtain ⟨digits, ds, tail, rfl, hds, htail, hsaw, hvalue⟩ :=
          ih ((v.mul (.ofNat radix)).add (.ofNat d)) true
        refine ⟨unit :: digits, d :: ds, tail, rfl, .cons hd hds, htail, ?_, fun acc hacc hlt => ?_⟩
        · rw [hstep, hsaw]
          simp
        · have hsum : acc * radix ^ (d :: ds).length + value radix (d :: ds) =
              (acc * radix + d) * radix ^ ds.length + value radix ds := by
            rw [Numeral.value_cons, List.length_cons]
            ring
          rw [hsum] at hlt ⊢
          rw [hstep]
          refine hvalue (acc * radix + d) ?_ hlt
          -- The value read so far is no more than the whole.
          have hpos : 0 < radix ^ ds.length := Nat.pow_pos (Nat.lt_of_le_of_lt (Nat.zero_le d) hd.lt)
          have hbound : acc * radix + d < 2 ^ 53 := by
            have := Nat.le_mul_of_pos_right (acc * radix + d) hpos
            omega
          have hradix' : F64.HasInt (.ofNat radix) radix := F64.hasInt_ofNat (by omega)
          have hd' : F64.HasInt (.ofNat d) d := F64.hasInt_ofNat (by have := hd.lt; omega)
          have hproduct := F64.hasInt_mul hacc hradix' (by
            rw [← Nat.cast_mul, Int.natAbs_natCast]
            omega)
          have hadded := F64.hasInt_add hproduct hd' (by
            rw [← Nat.cast_mul, ← Nat.cast_add, Int.natAbs_natCast]
            exact hbound)
          exact_mod_cast hadded
      · refine ⟨[], [], unit :: rest, rfl, .nil, fun u d hu hd => hdigit ⟨d, ?_⟩, ?_, fun acc hacc _ => ?_⟩
        · cases hu
          exact hd
        all_goals
          have hstop : readDigits radix v saw (unit :: rest) = (v, saw) := by
            rw [readDigits, digitValue_eq]
            cases hunit : Crux.unitDigit unit with
            | none => rfl
            | some d =>
                refine if_pos (Nat.le_of_not_lt fun hlt => hdigit ⟨d, ?_⟩)
                exact DigitUnit.of_unitDigit hunit hlt
          rw [hstop]
        · rw [List.isEmpty_nil, Bool.not_true, Bool.or_false]
        · simpa using hacc

theorem effectiveRadix_eq {r : Int} {body rest : JsString} {radix : Nat}
    (h : Prefixed Mark r body radix rest) : effectiveRadix r body = (radix, rest) := by
  unfold effectiveRadix
  cases h with
  | marked hr hmark =>
      dsimp only
      rw [if_pos hr, if_pos rfl, hmark.markRadix]
  | plain hnone =>
      generalize (if r = 0 then 10 else r.toNat) = effective
      dsimp only
      split
      · rename_i hr
        split
        · rename_i hi lo tail
          split
          · rename_i hhi
            subst hhi
            cases hlo : markRadix lo with
            | none => rfl
            | some radix => exact absurd (Crux.mark_of_markRadix hlo) (hnone hr lo radix tail rfl)
          · rfl
        · rfl
      · rfl

theorem parseInt_eq {units body rest : JsString} {radixValue : F64} {negative : Bool} {radix : Nat}
    (hr : radixValue.toInt32 = 0 ∨ 2 ≤ radixValue.toInt32 ∧ radixValue.toInt32 ≤ 36)
    (hsign : signOf (units.dropWhile isWhitespace) = (negative, body))
    (hstart : Prefixed Mark radixValue.toInt32 body radix rest) :
    parseInt units radixValue =
      if units.dropWhile isWhitespace = [] then .nan
      else if rest = [] then .nan
      else if (readDigits radix .zero false rest).2 then
        (if negative then .ofInt (-1) else .ofInt 1 : F64).mul (readDigits radix .zero false rest).1
      else .nan := by
  have hnot : ¬ (radixValue.toInt32 ≠ 0 ∧ ¬ (2 ≤ radixValue.toInt32 ∧ radixValue.toInt32 ≤ 36)) := by
    omega
  unfold parseInt
  dsimp only
  rw [hsign]
  dsimp only
  rw [if_neg hnot, effectiveRadix_eq hstart]

/-- The sign is a factor. -/
theorem hasInt_signed (negative : Bool) {v : F64} {n : Nat} (h : F64.HasInt v n) (hn : n < 2 ^ 53) :
    F64.HasInt ((if negative then .ofInt (-1) else .ofInt 1 : F64).mul v) (applySign negative n) := by
  have hfactor : F64.HasInt (if negative then .ofInt (-1) else .ofInt 1 : F64)
      (applySign negative 1) := by
    cases negative with
    | true => exact F64.hasInt_ofInt (by decide)
    | false => exact F64.hasInt_ofInt (by decide)
  have hone : (applySign negative 1).natAbs = 1 := by
    cases negative <;> rfl
  have hproduct : applySign negative 1 * (n : Int) = applySign negative n := by
    cases negative with
    | true => exact Int.neg_one_mul _
    | false => exact Int.one_mul _
  have hsigned := F64.hasInt_mul hfactor h (by
    rw [Int.natAbs_mul, Int.natAbs_natCast, hone, Nat.one_mul]
    exact hn)
  rwa [hproduct] at hsigned

/-- `parseInt` reads the longest numeral of the radix, with the prefixes of all three
radixes. -/
theorem parseInt_reads (units : JsString) (radixValue : F64) :
    ReadsNumeral Mark units radixValue.toInt32 (parseInt units radixValue) := by
  refine ⟨fun hne hrange => ?_, fun hr negative body radix rest hsign hstart => ?_⟩
  · unfold parseInt
    dsimp only
    split
    · rfl
    · rw [if_pos ⟨hne, hrange⟩]
  · have hradix : radix ≤ 36 := by
      cases hstart with
      | marked _ hmark => cases hmark <;> decide
      | plain _ => split <;> omega
    obtain ⟨digits, ds, tail, hrest, hds, htail, hsaw, hvalue⟩ := readDigits_spec hradix rest .zero false
    refine ⟨digits, ds, tail, hrest, hds, htail, ?_⟩
    rw [Bool.false_or] at hsaw
    have hparse := parseInt_eq hr hsign hstart
    constructor
    · rintro rfl
      rw [hsaw] at hparse
      rw [hparse]
      split
      · rfl
      · split <;> rfl
    · intro hne hlt
      have hrest' : rest ≠ [] := by
        rw [hrest]
        exact List.append_ne_nil_of_left_ne_nil hne tail
      have hbody : units.dropWhile isWhitespace ≠ [] := by
        intro hempty
        rw [hempty] at hsign
        cases hsign
        cases hstart
        exact hrest' rfl
      have hsome : (readDigits radix .zero false rest).2 = true := by
        rw [hsaw]
        cases digits with
        | nil => exact absurd rfl hne
        | cons _ _ => rfl
      rw [hparse, if_neg hbody, if_neg hrest', if_pos hsome]
      have hread := hvalue 0 F64.hasInt_zero (by rwa [Nat.zero_mul, Nat.zero_add])
      rw [Nat.zero_mul, Nat.zero_add] at hread
      exact hasInt_signed negative hread hlt

/-- A string of digits is read whole. -/
theorem longest_of_digits {radix : Nat} {units digits tail : JsString} {all ds : List Nat}
    (hall : List.Forall₂ (DigitUnit radix) units all) (hunits : units = digits ++ tail)
    (hds : List.Forall₂ (DigitUnit radix) digits ds)
    (htail : ∀ unit d, tail.head? = some unit → ¬ DigitUnit radix unit d) : digits = units ∧ ds = all := by
  induction hall generalizing digits ds with
  | nil =>
      obtain ⟨rfl, rfl⟩ := List.append_eq_nil_iff.mp hunits.symm
      cases hds
      exact ⟨rfl, rfl⟩
  | @cons unit d units all hd hall ih =>
      cases hds with
      | nil =>
          rw [List.nil_append] at hunits
          subst hunits
          exact absurd hd (htail unit d rfl)
      | cons hd' hds =>
          obtain ⟨rfl, hrest⟩ := List.cons.inj hunits
          obtain ⟨rfl, rfl⟩ := ih hrest hds
          have hsame := hd.unitDigit.symm.trans hd'.unitDigit
          cases hsame
          exact ⟨rfl, rfl⟩

/-- With radix 16 the letter of a binary prefix is a digit, and is taken for a prefix. -/
theorem parseInt_binary : ¬ ReadsNumeral HexMark [0x30, 0x62, 0x31] (F64.toInt32 (.ofNat 16))
    (parseInt [0x30, 0x62, 0x31] (.ofNat 16)) := by
  intro h
  have hr : F64.toInt32 (.ofNat 16) = 16 :=
    (F64.toInt32_int (F64.hasInt_ofNat (by decide))).trans (by decide)
  have hsign : signOf (([0x30, 0x62, 0x31] : JsString).dropWhile isWhitespace) =
      (false, [0x30, 0x62, 0x31]) := rfl
  have hone : F64.HasInt (parseInt [0x30, 0x62, 0x31] (.ofNat 16)) 1 := by
    obtain ⟨digits, ds, tail, hrest, hds, htail, hsaw, hvalue⟩ :=
      readDigits_spec (by decide : 2 ≤ 36) [0x31] .zero false
    have hall : List.Forall₂ (DigitUnit 2) [0x31] [1] := .cons (.decimal 1 (by decide) (by decide)) .nil
    obtain ⟨rfl, rfl⟩ := longest_of_digits hall hrest hds htail
    have hparse := parseInt_eq (.inr (by rw [hr]; decide)) hsign (.marked (.inr hr) .b)
    have hsome : (readDigits 2 .zero false [0x31]).2 = true := hsaw
    rw [hparse, if_neg (by decide), if_neg (by decide), if_pos hsome]
    exact hasInt_signed false (hvalue 0 F64.hasInt_zero (by decide)) (by decide)
  have hplain : Prefixed HexMark (F64.toInt32 (.ofNat 16)) [0x30, 0x62, 0x31] 16 [0x30, 0x62, 0x31] := by
    have hnone : Prefixed HexMark 16 [0x30, 0x62, 0x31] (if (16 : Int) = 0 then 10 else (16 : Int).toNat)
        [0x30, 0x62, 0x31] := by
      refine .plain fun _ mark radix tail heq hmark => ?_
      cases heq
      cases hmark
    rwa [hr]
  obtain ⟨digits, ds, tail, hrest, hds, htail, -, hvalue⟩ :=
    h.longest (.inr (by rw [hr]; decide)) false _ 16 _ hsign hplain
  have hall : List.Forall₂ (DigitUnit 16) [0x30, 0x62, 0x31] [0, 11, 1] :=
    .cons (.decimal 0 (by decide) (by decide)) (.cons (.lower 1 (by decide) (by decide))
      (.cons (.decimal 1 (by decide) (by decide)) .nil))
  obtain ⟨rfl, rfl⟩ := longest_of_digits hall hrest hds htail
  have hsame := hone.unique (hvalue (by decide) (by decide))
  cases hsame

end Slag.Global
