import Slag.Crux.Convert

/-!
The grammar of integer literals in strings, and what the two readings of a string
accept of it.
-/

namespace Slag.Crux

open Numeral (value)

/-- A code unit that spells a digit of some base. -/
inductive DigitUnit (radix : Nat) : UInt16 → Nat → Prop
  | decimal (d : Nat) : d < radix → d < 10 → DigitUnit radix (UInt16.ofNat (0x30 + d)) d
  | lower (d : Nat) : d + 10 < radix → d < 26 → DigitUnit radix (UInt16.ofNat (0x61 + d)) (d + 10)
  | upper (d : Nat) : d + 10 < radix → d < 26 → DigitUnit radix (UInt16.ofNat (0x41 + d)) (d + 10)

inductive Sign : JsString → Bool → Prop
  | none : Sign [] false
  | plus : Sign [0x2B] false
  | minus : Sign [0x2D] true

/-- The letter of a prefix. -/
inductive Mark : UInt16 → Nat → Prop
  | x : Mark 0x78 16
  | X : Mark 0x58 16
  | o : Mark 0x6F 8
  | O : Mark 0x4F 8
  | b : Mark 0x62 2
  | B : Mark 0x42 2

/-- A string without the white space around it, and the integer it denotes. -/
inductive IntegerLiteral : JsString → Int → Prop
  | empty : IntegerLiteral [] 0
  | decimal {sign digits : JsString} {negative : Bool} {ds : List Nat} (hsign : Sign sign negative)
      (hne : digits ≠ []) (hdigits : List.Forall₂ (DigitUnit 10) digits ds) :
      IntegerLiteral (sign ++ digits) (applySign negative (value 10 ds))
  | nonDecimal {mark : UInt16} {radix : Nat} {digits : JsString} {ds : List Nat}
      (hmark : Mark mark radix) (hne : digits ≠ [])
      (hdigits : List.Forall₂ (DigitUnit radix) digits ds) :
      IntegerLiteral (0x30 :: mark :: digits) (value radix ds)

/-- A decimal literal whose digits begin with a zero only when there is no other. -/
inductive StrictLiteral : JsString → Int → Prop
  | decimal {sign digits : JsString} {negative : Bool} {ds : List Nat} (hsign : Sign sign negative)
      (hne : digits ≠ []) (hdigits : List.Forall₂ (DigitUnit 10) digits ds)
      (hzero : digits.head? = some 0x30 → digits.length = 1) :
      StrictLiteral (sign ++ digits) (applySign negative (value 10 ds))

/-- White space may stand around a literal. -/
def Spaced (literal : JsString → Int → Prop) (text : JsString) (n : Int) : Prop :=
  ∃ before body after, text = before ++ body ++ after ∧
    (∀ u ∈ before, isStrWhiteSpace u = true) ∧ (∀ u ∈ after, isStrWhiteSpace u = true) ∧
    literal body n

variable {n : Int} {digits text : JsString} {ds : List Nat} {mark : UInt16}

theorem StrictLiteral.integerLiteral {body : JsString} (h : StrictLiteral body n) :
    IntegerLiteral body n := by
  cases h with
  | decimal hsign hne hdigits => exact .decimal hsign hne hdigits

theorem Spaced.mono {literal literal' : JsString → Int → Prop}
    (h : ∀ body, literal body n → literal' body n) (hs : Spaced literal text n) :
    Spaced literal' text n := by
  obtain ⟨before, body, after, htext, hbefore, hafter, hbody⟩ := hs
  exact ⟨before, body, after, htext, hbefore, hafter, h body hbody⟩

namespace DigitUnit

variable {radix : Nat} {unit : UInt16} {d : Nat}

theorem lt (h : DigitUnit radix unit d) : d < radix := by
  cases h <;> assumption

theorem unitDigit (h : DigitUnit radix unit d) : unitDigit unit = some d := by
  cases h with
  | decimal d hlt hd => exact (by decide : ∀ d < 10, Crux.unitDigit (UInt16.ofNat (0x30 + d)) = some d) d hd
  | lower d hlt hd =>
      exact (by decide : ∀ d < 26, Crux.unitDigit (UInt16.ofNat (0x61 + d)) = some (d + 10)) d hd
  | upper d hlt hd =>
      exact (by decide : ∀ d < 26, Crux.unitDigit (UInt16.ofNat (0x41 + d)) = some (d + 10)) d hd

theorem not_space (h : DigitUnit radix unit d) : isStrWhiteSpace unit = false := by
  cases h with
  | decimal d hlt hd =>
      exact (by decide : ∀ d < 10, isStrWhiteSpace (UInt16.ofNat (0x30 + d)) = false) d hd
  | lower d hlt hd =>
      exact (by decide : ∀ d < 26, isStrWhiteSpace (UInt16.ofNat (0x61 + d)) = false) d hd
  | upper d hlt hd =>
      exact (by decide : ∀ d < 26, isStrWhiteSpace (UInt16.ofNat (0x41 + d)) = false) d hd

theorem of_unitDigit (h : Crux.unitDigit unit = some d) (hd : d < radix) :
    DigitUnit radix unit d := by
  unfold Crux.unitDigit at h
  simp only [UInt16.le_iff_toNat_le, UInt16.reduceToNat] at h
  split_ifs at h with hdecimal hlower hupper
  · obtain rfl := Option.some.inj h
    have hunit : unit = UInt16.ofNat (0x30 + (unit.toNat - 0x30)) := by
      rw [Nat.add_sub_cancel' hdecimal.1, UInt16.ofNat_toNat]
    have hdigit := DigitUnit.decimal (unit.toNat - 0x30) hd (by omega)
    rwa [← hunit] at hdigit
  · obtain rfl := Option.some.inj h
    have hunit : unit = UInt16.ofNat (0x61 + (unit.toNat - 0x61)) := by
      rw [Nat.add_sub_cancel' hlower.1, UInt16.ofNat_toNat]
    have hdigit := DigitUnit.lower (unit.toNat - 0x61) hd (by omega)
    rwa [← hunit] at hdigit
  · obtain rfl := Option.some.inj h
    have hunit : unit = UInt16.ofNat (0x41 + (unit.toNat - 0x41)) := by
      rw [Nat.add_sub_cancel' hupper.1, UInt16.ofNat_toNat]
    have hdigit := DigitUnit.upper (unit.toNat - 0x41) hd (by omega)
    rwa [← hunit] at hdigit

theorem iff_unitDigit : DigitUnit radix unit d ↔ Crux.unitDigit unit = some d ∧ d < radix :=
  ⟨fun h => ⟨h.unitDigit, h.lt⟩, fun h => of_unitDigit h.1 h.2⟩

end DigitUnit

variable {radix : Nat} {unit : UInt16}

theorem takeDigit_eq_some {acc n : Int} :
    takeDigit radix acc unit = some n ↔ ∃ d, DigitUnit radix unit d ∧ n = acc * radix + d := by
  simp only [takeDigit, Option.bind_eq_some_iff, DigitUnit.iff_unitDigit]
  constructor
  · rintro ⟨d, hd, h⟩
    split_ifs at h with hlt
    exact ⟨d, ⟨hd, Nat.lt_of_not_le hlt⟩, (Option.some.inj h).symm⟩
  · rintro ⟨d, ⟨hd, hlt⟩, rfl⟩
    exact ⟨d, hd, by rw [if_neg (Nat.not_le.mpr hlt)]⟩

theorem foldlM_takeDigit {acc n : Int} :
    digits.foldlM (takeDigit radix) acc = some n ↔ ∃ ds, List.Forall₂ (DigitUnit radix) digits ds ∧
      n = acc * radix ^ digits.length + value radix ds := by
  induction digits generalizing acc with
  | nil =>
      simp only [List.foldlM_nil, List.forall₂_nil_left_iff]
      constructor
      · intro h
        exact ⟨[], rfl, by simpa using (Option.some.inj h).symm⟩
      · rintro ⟨ds, rfl, rfl⟩
        simp
  | cons unit digits ih =>
      simp only [List.foldlM_cons, Option.bind_eq_bind, Option.bind_eq_some_iff, takeDigit_eq_some,
        ih]
      constructor
      · rintro ⟨_, ⟨d, hd, rfl⟩, ds, hds, rfl⟩
        refine ⟨d :: ds, .cons hd hds, ?_⟩
        rw [Numeral.value_cons, hds.length_eq, List.length_cons, hds.length_eq]
        push_cast
        ring
      · rintro ⟨ds, hds, rfl⟩
        cases hds with
        | cons hd hds =>
            rename_i d ds
            refine ⟨_, ⟨d, hd, rfl⟩, ds, hds, ?_⟩
            rw [Numeral.value_cons, hds.length_eq, List.length_cons, hds.length_eq]
            push_cast
            ring

theorem digits_ne_sign {rest : JsString} (h : List.Forall₂ (DigitUnit radix) digits ds)
    (hdigits : digits = unit :: rest) (hunit : unitDigit unit = none) : False := by
  subst hdigits
  cases h with
  | cons hd _ =>
      rw [hd.unitDigit] at hunit
      cases hunit

theorem signOf_digits (h : List.Forall₂ (DigitUnit radix) digits ds) :
    signOf digits = (false, digits) := by
  unfold signOf
  split
  · exact (digits_ne_sign h rfl (by decide)).elim
  · exact (digits_ne_sign h rfl (by decide)).elim
  · rfl

theorem signOf_append {sign digits : JsString} {negative : Bool} (hsign : Sign sign negative)
    (h : List.Forall₂ (DigitUnit radix) digits ds) :
    signOf (sign ++ digits) = (negative, digits) := by
  cases hsign with
  | none => exact signOf_digits h
  | plus | minus => rfl

theorem sign_signOf (body : JsString) :
    ∃ sign, Sign sign (signOf body).1 ∧ body = sign ++ (signOf body).2 := by
  unfold signOf
  split
  · exact ⟨_, .minus, rfl⟩
  · exact ⟨_, .plus, rfl⟩
  · exact ⟨[], .none, rfl⟩

/-- A literal that shows no sign has none. -/
theorem sign_eq_nil {sign rest : JsString} (h : rest.length = (sign ++ rest).length) :
    sign = [] := by
  rw [List.length_append] at h
  exact List.eq_nil_of_length_eq_zero (by omega)

theorem Mark.markRadix (h : Mark mark radix) :
    markRadix mark = some radix := by
  cases h <;> rfl

theorem mark_of_markRadix (h : markRadix mark = some radix) :
    Mark mark radix := by
  unfold markRadix at h
  split_ifs at h with hx ho hb
  · obtain rfl := Option.some.inj h
    rcases hx with rfl | rfl
    · exact .x
    · exact .X
  · obtain rfl := Option.some.inj h
    rcases ho with rfl | rfl
    · exact .o
    · exact .O
  · obtain rfl := Option.some.inj h
    rcases hb with rfl | rfl
    · exact .b
    · exact .B

theorem Mark.not_decimal {radix d : Nat} (h : Mark mark radix) :
    ¬ DigitUnit 10 mark d := by
  intro hd
  rw [DigitUnit.iff_unitDigit] at hd
  obtain ⟨hunit, hlt⟩ := hd
  have hletter : unitDigit mark ≠ none ∧ ∀ d ∈ unitDigit mark, 10 ≤ d := by
    cases h <;> decide
  have := hletter.2 d hunit
  omega

theorem radixOf_mark (digits : JsString) (h : Mark mark radix) :
    radixOf (0x30 :: mark :: digits) = (some radix, digits) := by
  simp only [radixOf, if_true, h.markRadix]

theorem radixOf_decimal (h : List.Forall₂ (DigitUnit 10) digits ds) :
    radixOf digits = (none, digits) := by
  unfold radixOf
  split
  · rename_i hi lo tail
    split
    · split
      · rename_i radix hradix
        cases h with
        | cons _ hrest =>
            cases hrest with
            | cons hlo _ => exact ((mark_of_markRadix hradix).not_decimal hlo).elim
      · rfl
    · rfl
  · rfl

/-- A base other than ten comes with its prefix. -/
theorem radixOf_eq {rest digits : JsString} {mark : Option Nat} (h : radixOf rest = (mark, digits)) :
    (mark = none ∧ digits = rest) ∨
      ∃ letter radix, mark = some radix ∧ Mark letter radix ∧ rest = 0x30 :: letter :: digits := by
  unfold radixOf at h
  split at h
  · rename_i hi lo tail
    split at h
    · rename_i hzero
      split at h
      · rename_i radix hradix
        cases h
        exact Or.inr ⟨lo, radix, rfl, mark_of_markRadix hradix, by rw [hzero]⟩
      · cases h
        exact Or.inl ⟨rfl, rfl⟩
    · cases h
      exact Or.inl ⟨rfl, rfl⟩
  · cases h
    exact Or.inl ⟨rfl, rfl⟩

theorem stringToBigint_eq_some :
    stringToBigint text = some n ↔ IntegerLiteral (trimmed text) n := by
  unfold stringToBigint
  generalize trimmed text = body
  by_cases hbody : body = []
  · subst hbody
    rw [if_pos rfl]
    constructor
    · intro h
      cases h
      exact .empty
    · intro h
      generalize hnil : ([] : JsString) = body at h
      cases h with
      | empty => rfl
      | decimal hsign hne _ => exact absurd (List.append_eq_nil_iff.mp hnil.symm).2 hne
      | nonDecimal => cases hnil
  · simp only [if_neg hbody]
    constructor
    · intro h
      obtain ⟨sign, hsign, hsplit⟩ := sign_signOf body
      obtain ⟨mark, digits, hradix⟩ : ∃ mark digits, radixOf (signOf body).2 = (mark, digits) :=
        ⟨_, _, rfl⟩
      simp only [hradix] at h
      split_ifs at h with hsigned hempty
      obtain ⟨m, hfold, rfl⟩ := Option.map_eq_some_iff.mp h
      obtain ⟨ds, hds, rfl⟩ := foldlM_takeDigit.mp hfold
      rw [Int.zero_mul, Int.zero_add]
      rcases radixOf_eq hradix with ⟨rfl, rfl⟩ | ⟨letter, radix, rfl, hmark, hrest⟩
      · have hliteral := IntegerLiteral.decimal hsign hempty hds
        rwa [← hsplit] at hliteral
      · -- A prefix has been found, so there is no sign before it.
        have hlength : (signOf body).2.length = body.length := by
          by_contra hne
          exact hsigned ⟨hne, rfl⟩
        have hnil : sign = [] := by
          have hcount : (signOf body).2.length = (sign ++ (signOf body).2).length := by
            rw [← hsplit, hlength]
          exact sign_eq_nil hcount
        rw [hnil, List.nil_append] at hsplit
        have hnegative : (signOf body).1 = false := by
          rw [hnil] at hsign
          generalize (signOf body).1 = negative at hsign
          cases hsign
          rfl
        rw [hnegative, hsplit, hrest]
        exact .nonDecimal hmark hempty hds
    · intro h
      cases h with
      | empty => exact absurd rfl hbody
      | decimal hsign hne hdigits =>
          rename_i sign digits negative ds
          have hfold : digits.foldlM (takeDigit 10) 0 = some (value 10 ds : Int) :=
            foldlM_takeDigit.mpr ⟨ds, hdigits, by ring⟩
          simp [signOf_append hsign hdigits, radixOf_decimal hdigits, hne, hfold]
      | nonDecimal hmark hne hdigits =>
          rename_i mark radix digits ds
          have hfold : digits.foldlM (takeDigit radix) 0 = some (value radix ds : Int) :=
            foldlM_takeDigit.mpr ⟨ds, hdigits, by ring⟩
          have hsign : signOf (0x30 :: mark :: digits) = (false, 0x30 :: mark :: digits) := rfl
          simp [hsign, radixOf_mark digits hmark, hne, hfold, applySign]

theorem takeDecimal_eq_some {count index : Nat} {acc n : Int} :
    takeDecimal count index acc unit = some n ↔
      ∃ d, DigitUnit 10 unit d ∧ ¬ (index = 0 ∧ d = 0 ∧ 1 < count) ∧ n = acc * 10 + d := by
  have hdigit : ∀ d, DigitUnit 10 unit d ↔ (0x30 ≤ unit ∧ unit ≤ 0x39) ∧ d = unit.toNat - 0x30 := by
    intro d
    rw [DigitUnit.iff_unitDigit]
    unfold unitDigit
    by_cases hrange : 0x30 ≤ unit ∧ unit ≤ 0x39
    · rw [if_pos hrange, Option.some.injEq]
      simp only [UInt16.le_iff_toNat_le, UInt16.reduceToNat] at hrange ⊢
      omega
    · -- The letters stand for ten and more.
      rw [if_neg hrange]
      constructor
      · rintro ⟨h, hd⟩
        split_ifs at h
        · have := Option.some.inj h
          omega
        · have := Option.some.inj h
          omega
      · exact fun h => absurd h.1 hrange
  simp only [takeDecimal, hdigit]
  constructor
  · intro h
    split_ifs at h with hrange hzero
    exact ⟨_, ⟨hrange, rfl⟩, hzero, (Option.some.inj h).symm⟩
  · rintro ⟨d, ⟨hrange, rfl⟩, hzero, rfl⟩
    rw [if_pos hrange, if_neg hzero]

theorem foldlM_takeDecimal {count index : Nat} {acc n : Int} :
    (digits.zipIdx index).foldlM (fun value entry => takeDecimal count entry.2 value entry.1) acc =
        some n ↔
      ∃ ds, List.Forall₂ (DigitUnit 10) digits ds ∧
        ¬ (index = 0 ∧ ds.head? = some 0 ∧ 1 < count) ∧
        n = acc * 10 ^ digits.length + value 10 ds := by
  induction digits generalizing acc index with
  | nil =>
      simp only [List.zipIdx_nil, List.foldlM_nil, List.forall₂_nil_left_iff]
      constructor
      · intro h
        exact ⟨[], rfl, by simp, by simpa using (Option.some.inj h).symm⟩
      · rintro ⟨ds, rfl, -, rfl⟩
        simp
  | cons unit digits ih =>
      simp only [List.zipIdx_cons, List.foldlM_cons, Option.bind_eq_bind, Option.bind_eq_some_iff,
        takeDecimal_eq_some, ih]
      constructor
      · rintro ⟨_, ⟨d, hd, hzero, rfl⟩, ds, hds, -, rfl⟩
        refine ⟨d :: ds, .cons hd hds, by simpa using hzero, ?_⟩
        rw [Numeral.value_cons, hds.length_eq, List.length_cons, hds.length_eq]
        push_cast
        ring
      · rintro ⟨ds, hds, hzero, rfl⟩
        cases hds with
        | cons hd hds =>
            rename_i d ds
            refine ⟨_, ⟨d, hd, by simpa using hzero, rfl⟩, ds, hds, by simp, ?_⟩
            rw [Numeral.value_cons, hds.length_eq, List.length_cons, hds.length_eq]
            push_cast
            ring

theorem DigitUnit.zero_iff {d : Nat} (h : DigitUnit 10 unit d) :
    d = 0 ↔ unit = 0x30 := by
  have hunit := h.unitDigit
  constructor
  · rintro rfl
    cases h
    rfl
  · rintro rfl
    exact (Option.some.inj hunit).symm

theorem head_zero_iff (h : List.Forall₂ (DigitUnit 10) digits ds) :
    ds.head? = some 0 ↔ digits.head? = some 0x30 := by
  cases h with
  | nil => simp
  | cons hd _ => simp [hd.zero_iff]

theorem stringToBigInt_eq_some :
    stringToBigInt text = some n ↔ StrictLiteral (trimmed text) n := by
  unfold stringToBigInt
  generalize trimmed text = body
  by_cases hbody : body = []
  · rw [if_pos hbody]
    constructor
    · intro h
      cases h
    · intro h
      cases h with
      | decimal hsign hne _ => exact absurd (List.append_eq_nil_iff.mp hbody).2 hne
  · simp only [if_neg hbody]
    constructor
    · intro h
      obtain ⟨sign, hsign, hsplit⟩ := sign_signOf body
      generalize (signOf body).2 = digits at h hsplit
      split_ifs at h with hempty
      obtain ⟨m, hfold, rfl⟩ := Option.map_eq_some_iff.mp h
      obtain ⟨ds, hds, hzero, rfl⟩ := foldlM_takeDecimal.mp hfold
      rw [Int.zero_mul, Int.zero_add]
      have hliteral := StrictLiteral.decimal hsign hempty hds (by
        intro hhead
        have hpos := List.length_pos_iff.mpr hempty
        have hshort : ¬ 1 < digits.length :=
          fun hlong => hzero ⟨rfl, (head_zero_iff hds).mpr hhead, hlong⟩
        omega)
      rwa [← hsplit] at hliteral
    · intro h
      cases h with
      | decimal hsign hne hdigits hzero =>
          rename_i sign digits negative ds
          have hfold : (digits.zipIdx 0).foldlM
              (fun value entry => takeDecimal digits.length entry.2 value entry.1) 0 =
                some (value 10 ds : Int) := by
            apply foldlM_takeDecimal.mpr
            refine ⟨ds, hdigits, ?_, by ring⟩
            rintro ⟨-, hhead, hlong⟩
            have := hzero ((head_zero_iff hdigits).mp hhead)
            omega
          simp [signOf_append hsign hdigits, hne, hfold]

theorem not_space_of_forall₂ (h : List.Forall₂ (DigitUnit radix) digits ds) :
    ∀ u ∈ digits, isStrWhiteSpace u = false := by
  induction h with
  | nil => simp
  | cons hd _ ih =>
      intro u hu
      rcases List.mem_cons.mp hu with rfl | hu
      · exact hd.not_space
      · exact ih u hu

theorem IntegerLiteral.not_space {body : JsString} (h : IntegerLiteral body n) :
    ∀ u ∈ body, isStrWhiteSpace u = false := by
  cases h with
  | empty => simp
  | decimal hsign hne hdigits =>
      intro u hu
      rcases List.mem_append.mp hu with hu | hu
      · cases hsign with
        | none => cases hu
        | plus | minus =>
            obtain rfl := List.mem_singleton.mp hu
            decide
      · exact not_space_of_forall₂ hdigits u hu
  | nonDecimal hmark hne hdigits =>
      intro u hu
      rcases List.mem_cons.mp hu with rfl | hu
      · decide
      · rcases List.mem_cons.mp hu with rfl | hu
        · cases hmark <;> decide
        · exact not_space_of_forall₂ hdigits u hu

/-- The white space around a text that has none inside is all that goes. -/
theorem trimmed_append {before body after : JsString}
    (hbefore : ∀ u ∈ before, isStrWhiteSpace u = true)
    (hafter : ∀ u ∈ after, isStrWhiteSpace u = true)
    (hbody : ∀ u ∈ body, isStrWhiteSpace u = false) : trimmed (before ++ body ++ after) = body := by
  unfold trimmed
  rw [List.append_assoc, List.dropWhile_append_of_pos hbefore]
  cases body with
  | nil =>
      have hnil : (after.dropWhile isStrWhiteSpace) = [] := List.dropWhile_eq_nil_iff.mpr hafter
      rw [List.nil_append, hnil]
      rfl
  | cons first rest =>
      have hfirst : ¬ isStrWhiteSpace first = true := by simp [hbody first List.mem_cons_self]
      rw [List.cons_append, List.dropWhile_cons_of_neg hfirst, ← List.cons_append]
      clear hfirst
      induction after using List.reverseRecOn with
      | nil =>
          rw [List.append_nil, List.rdropWhile_eq_self_iff]
          intro hne
          simp [hbody _ (List.getLast_mem hne)]
      | append_singleton after last ih =>
          rw [← List.append_assoc, List.rdropWhile_concat_pos _ _ _ (hafter last (by simp))]
          exact ih fun u hu => hafter u (List.mem_append_left _ hu)

theorem exists_trimmed (text : JsString) : ∃ before after, text = before ++ trimmed text ++ after ∧
    (∀ u ∈ before, isStrWhiteSpace u = true) ∧ (∀ u ∈ after, isStrWhiteSpace u = true) := by
  refine ⟨text.takeWhile isStrWhiteSpace,
    (text.dropWhile isStrWhiteSpace).rtakeWhile isStrWhiteSpace, ?_, ?_, ?_⟩
  · rw [trimmed, List.append_assoc, List.rdropWhile_append_rtakeWhile,
      List.takeWhile_append_dropWhile]
  · exact fun u => List.mem_takeWhile_imp
  · exact fun u hu => List.mem_rtakeWhile_imp hu

/-- A literal between white space is the trimmed text. -/
theorem spaced_iff {literal : JsString → Int → Prop}
    (h : ∀ body, literal body n → IntegerLiteral body n) :
    Spaced literal text n ↔ literal (trimmed text) n := by
  constructor
  · rintro ⟨before, body, after, rfl, hbefore, hafter, hbody⟩
    rwa [trimmed_append hbefore hafter (h body hbody).not_space]
  · intro hbody
    obtain ⟨before, after, htext, hbefore, hafter⟩ := exists_trimmed text
    exact ⟨before, _, after, htext, hbefore, hafter, hbody⟩

/-- A string of white space. -/
def Blank (text : JsString) : Prop := ∀ u ∈ text, isStrWhiteSpace u = true

theorem blank_iff : Blank text ↔ trimmed text = [] := by
  constructor
  · intro h
    have hsplit : trimmed (text ++ [] ++ []) = [] := trimmed_append h (by simp) (by simp)
    rwa [List.append_nil, List.append_nil] at hsplit
  · intro h
    obtain ⟨before, after, htext, hbefore, hafter⟩ := exists_trimmed text
    rw [h, List.append_nil] at htext
    intro u hu
    rw [htext] at hu
    rcases List.mem_append.mp hu with hu | hu
    · exact hbefore u hu
    · exact hafter u hu

theorem stringToBigint_iff :
    stringToBigint text = some n ↔ Spaced IntegerLiteral text n := by
  rw [stringToBigint_eq_some, spaced_iff fun _ => id]

theorem stringToBigInt_iff :
    stringToBigInt text = some n ↔ Spaced StrictLiteral text n := by
  rw [stringToBigInt_eq_some, spaced_iff fun _ => StrictLiteral.integerLiteral]

namespace Coercions

variable (c : Coercions)

theorem toBigInt_string :
    c.toBigInt (.string text) = .ok n ↔ Blank text ∧ n = 0 ∨ Spaced StrictLiteral text n := by
  have hstrict : ¬ StrictLiteral [] n := by
    generalize hnil : ([] : JsString) = body
    intro h
    cases h with
    | decimal _ hne _ => exact hne (List.append_eq_nil_iff.mp hnil.symm).2
  rw [spaced_iff fun _ => StrictLiteral.integerLiteral, blank_iff]
  by_cases hblank : trimmed text = []
  · have hzero : c.toBigInt (.string text) = .ok 0 := if_pos hblank
    simp [hzero, hblank, hstrict, eq_comm]
  · rw [← stringToBigInt_eq_some]
    cases hread : stringToBigInt text with
    | some m =>
        have hvalue : c.toBigInt (.string text) = .ok m := by
          refine (if_neg hblank).trans ?_
          rw [hread]
        simp [hvalue, hblank]
    | none =>
        have hvalue : c.toBigInt (.string text) =
            .error ⟨.syntaxError, "Cannot convert the string to a BigInt", none⟩ := by
          refine (if_neg hblank).trans ?_
          rw [hread]
        simp [hvalue, hblank]

theorem isLooselyEqual_bigint_string (x : Int) (text : JsString) :
    c.isLooselyEqual (.bigint x) (.string text) = .ok (decide (stringToBigInt text = some x)) := by
  have hcases : c.isLooselyEqual (.bigint x) (.string text) =
      c.primitivesLooselyEqual (.bigint x) (.string text) := by
    simp only [isLooselyEqual, isNullish, Bool.and_false, Bool.or_self, Bool.false_eq_true,
      if_false, isReference, Value.isObject, Value.isFunction, Bool.and_self]
    rfl
  rw [hcases]
  simp only [primitivesLooselyEqual]
  cases stringToBigInt text with
  | none => simp
  | some n =>
      by_cases hn : x = n
      · simp [hn]
      · simp [hn, Ne.symm hn]

/-- One reading takes every integer literal. The other takes the strict ones, and so do
the conversion of a string, apart from white space, and equality. -/
theorem bigintReadings (text : JsString) (n : Int) :
    (stringToBigint text = some n ↔ Spaced IntegerLiteral text n) ∧
    (c.toBigInt (.string text) = .ok n ↔ Blank text ∧ n = 0 ∨ Spaced StrictLiteral text n) ∧
    (¬ Blank text → (stringToBigInt text = some n ↔ Spaced StrictLiteral text n)) ∧
    (¬ Blank text → (c.isLooselyEqual (.bigint n) (.string text) = .ok true ↔
      Spaced StrictLiteral text n)) ∧
    (Spaced StrictLiteral text n → Spaced IntegerLiteral text n) := by
  refine ⟨stringToBigint_iff, c.toBigInt_string, fun _ => stringToBigInt_iff, fun _ => ?_,
    Spaced.mono fun _ => StrictLiteral.integerLiteral⟩
  rw [isLooselyEqual_bigint_string, ← stringToBigInt_iff]
  simp

end Coercions

/-- A realm without objects. -/
def Coercions.plain : Coercions := ⟨fun _ => false, .ok, fun _ => .ok .nan⟩

/-- `"0x10"` and `"07"`. -/
theorem bigintReadings_differ :
    stringToBigint [0x30, 0x78, 0x31, 0x30] = some 16 ∧
      stringToBigInt [0x30, 0x78, 0x31, 0x30] = none ∧
    stringToBigint [0x30, 0x37] = some 7 ∧ stringToBigInt [0x30, 0x37] = none ∧
    Coercions.plain.toBigInt (.string [0x30, 0x37]) =
      .error { kind := .syntaxError, message := "Cannot convert the string to a BigInt" } ∧
    Coercions.plain.isLooselyEqual (.bigint 7) (.string [0x30, 0x37]) = .ok false :=
  ⟨by decide, by decide, by decide, by decide, rfl, rfl⟩

end Slag.Crux
