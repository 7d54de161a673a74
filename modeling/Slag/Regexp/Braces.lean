import Mathlib.Data.List.TakeWhile
import Slag.Regexp.Pattern

/-!
Braces in legacy mode: where they are quantifiers, and where they are not.
-/

namespace Slag.Regexp

/-- The value of some digits, after those read before. -/
def digitsValue (value : Nat) (digits : List Nat) : Nat :=
  digits.foldl (fun value d => value * 10 + (d - 0x30)) value

def IsDigits (digits : List Nat) : Prop :=
  digits ≠ [] ∧ ∀ d ∈ digits, isDigit d = true

/-- A text that begins with `{n}`, `{n,}` or `{n,m}`, with what follows. -/
inductive BracedQuantifier : List Nat → Nat → Option Nat → List Nat → Prop
  | exactly {D rest : List Nat} (hD : IsDigits D) :
      BracedQuantifier (0x7B :: (D ++ 0x7D :: rest)) (digitsValue 0 D) (some (digitsValue 0 D))
        rest
  | atLeast {D rest : List Nat} (hD : IsDigits D) :
      BracedQuantifier (0x7B :: (D ++ 0x2C :: 0x7D :: rest)) (digitsValue 0 D) none rest
  | between {D E rest : List Nat} (hD : IsDigits D) (hE : IsDigits E) :
      BracedQuantifier (0x7B :: (D ++ 0x2C :: (E ++ 0x7D :: rest))) (digitsValue 0 D)
        (some (digitsValue 0 E)) rest

/-- The greatest number a quantifier takes. -/
def maxRepeat : Nat := 2 ^ 53 - 1

/-- What becomes of a complete quantifier: its bounds are clamped, and compared
after that. -/
def bracedOutcome (p : Parser) (low : Nat) (high : Option Nat) (rest : List Nat) :
    Except Failure (Option (Nat × Option Nat) × Parser) :=
  if maxRepeat < low then .error (.rejected "Quantifier number too large")
  else
    match high with
    | none => .ok (some (min low u32Max, none), { p with rest := rest })
    | some high =>
        if maxRepeat < high then .error (.rejected "Quantifier number too large")
        else if min high u32Max < min low u32Max then
          .error (.rejected "numbers out of order in \x7b\x7d quantifier")
        else .ok (some (min low u32Max, some (min high u32Max)), { p with rest := rest })

/-- A quantifier's bounds with what a `?` after it says. -/
def greediness (bounds : Nat × Option Nat) (q : Parser) :
    Option (Nat × Option Nat × Bool) × Parser :=
  if q.peek = some 0x3F then (some (bounds.1, bounds.2, false), q.skip 1)
  else (some (bounds.1, bounds.2, true), q)

/-- How the parser takes a brace at its cursor. -/
structure ReadsBraces (env : Surroundings) (p : Parser) : Prop where
  quantifier : ∀ low high rest, BracedQuantifier p.rest low high rest → low ≤ maxRepeat →
    (∀ h, high = some h → low ≤ h ∧ h ≤ maxRepeat) →
      parseQuantifier p =
        .ok (greediness (min low u32Max, high.map (min · u32Max)) { p with rest := rest })
  outOfOrder : ∀ low high rest, BracedQuantifier p.rest low (some high) rest → low ≤ maxRepeat →
    high < low → high < u32Max →
      parseQuantifier p = .error (.rejected "numbers out of order in \x7b\x7d quantifier")
  tooLarge : ∀ low high rest, BracedQuantifier p.rest low high rest →
    (maxRepeat < low ∨ ∃ h, high = some h ∧ maxRepeat < h) →
      parseQuantifier p = .error (.rejected "Quantifier number too large")
  complete : ∀ bounds q, parseQuantifier p = .ok (some bounds, q) →
    ∃ low high rest, BracedQuantifier p.rest low high rest
  literal : (p.peekAt 1).any isDigit = false → parseQuantifier p = .ok (none, p) ∧
    ∀ fuel, termNode env (fuel + 1) p = .ok (charNode env.tables p 0x7B, p.skip 1)
  refused : ∀ low high rest, BracedQuantifier p.rest low high rest →
    ∀ fuel, termNode env (fuel + 1) p = .error (.rejected "Nothing to repeat")

section

variable {p q : Parser} {D E rest text : List Nat} {value low : Nat} {high : Option Nat}

theorem le_digitsValue (value : Nat) (D : List Nat) : value ≤ digitsValue value D := by
  induction D generalizing value with
  | nil => exact Nat.le_refl value
  | cons d D ih =>
      have hstep : value ≤ value * 10 + (d - 0x30) := by omega
      exact Nat.le_trans hstep (ih _)

theorem decimalDigits_append (hD : ∀ d ∈ D, isDigit d = true)
    (hrest : rest.head?.any isDigit = false) (hvalue : value ≤ maxRepeat) :
    decimalDigits value (D ++ rest) =
      if maxRepeat < digitsValue value D then .error (.rejected "Quantifier number too large")
      else .ok (digitsValue value D, rest) := by
  induction D generalizing value with
  | nil =>
      have hle : ¬ maxRepeat < digitsValue value [] := Nat.not_lt.mpr hvalue
      rw [if_neg hle]
      cases rest with
      | nil => rfl
      | cons a rest =>
          have ha : isDigit a = false := hrest
          rw [List.nil_append, decimalDigits, ha]
          rfl
  | cons d D ih =>
      obtain ⟨hd, hD⟩ := List.forall_mem_cons.mp hD
      rw [List.cons_append, decimalDigits, hd]
      by_cases hbig : maxRepeat < value * 10 + (d - 0x30)
      · have hlast : maxRepeat < digitsValue value (d :: D) :=
          Nat.lt_of_lt_of_le hbig (le_digitsValue _ D)
        rw [if_pos hlast]
        exact if_pos hbig
      · have hnext := ih hD (Nat.not_lt.mp hbig)
        exact (if_neg hbig).trans hnext

theorem peek_digits (hp : p.rest = D ++ rest) (hD : IsDigits D) : p.peek.any isDigit = true := by
  obtain ⟨hne, hall⟩ := hD
  cases D with
  | nil => exact absurd rfl hne
  | cons d D =>
      rw [Parser.peek, hp]
      exact hall d List.mem_cons_self

theorem parseDecimalDigits_eq (hp : p.rest = D ++ rest) (hD : IsDigits D)
    (hrest : rest.head?.any isDigit = false) :
    parseDecimalDigits p =
      if maxRepeat < digitsValue 0 D then .error (.rejected "Quantifier number too large")
      else .ok (min (digitsValue 0 D) u32Max, { p with rest := rest }) := by
  rw [parseDecimalDigits, if_pos (peek_digits hp hD), hp, decimalDigits_append hD.2 hrest (Nat.zero_le _)]
  split <;> rfl

theorem tryParseBracedQuantifier_eq (h : BracedQuantifier p.rest low high rest) :
    tryParseBracedQuantifier p = bracedOutcome p low high rest := by
  generalize htext : p.rest = text at h
  have hinner : (p.skip 1).rest = text.drop 1 := by rw [← htext]; rfl
  cases h with
  | @exactly D _ hD =>
      have hdigits := parseDecimalDigits_eq (p := p.skip 1) hinner hD rfl
      rw [tryParseBracedQuantifier, if_pos (peek_digits hinner hD), hdigits, bracedOutcome]
      by_cases hbig : maxRepeat < digitsValue 0 D
      · rw [if_pos hbig, if_pos hbig]
        rfl
      · rw [if_neg hbig, if_neg hbig, if_neg hbig, if_neg (Nat.lt_irrefl _)]
        rfl
  | @atLeast D _ hD =>
      have hdigits := parseDecimalDigits_eq (p := p.skip 1) hinner hD rfl
      rw [tryParseBracedQuantifier, if_pos (peek_digits hinner hD), hdigits, bracedOutcome]
      by_cases hbig : maxRepeat < digitsValue 0 D
      · rw [if_pos hbig, if_pos hbig]
        rfl
      · rw [if_neg hbig, if_neg hbig]
        rfl
  | @between D E _ hD hE =>
      have hdigits := parseDecimalDigits_eq (p := p.skip 1) hinner hD rfl
      rw [tryParseBracedQuantifier, if_pos (peek_digits hinner hD), hdigits, bracedOutcome]
      by_cases hbig : maxRepeat < digitsValue 0 D
      · rw [if_pos hbig, if_pos hbig]
        rfl
      · rw [if_neg hbig, if_neg hbig]
        generalize hq : ({ p.skip 1 with rest := 0x2C :: (E ++ 0x7D :: rest) } : Parser) = q
        have hrest : (q.skip 1).rest = E ++ 0x7D :: rest := by rw [← hq]; rfl
        have hcomma : q.peek = some 0x2C := by rw [← hq]; rfl
        have hdigit := peek_digits hrest hE
        have hclose : (q.skip 1).peek ≠ some 0x7D := by
          intro hpeek
          rw [hpeek] at hdigit
          cases hdigit
        have hdigits' := parseDecimalDigits_eq hrest hE rfl
        simp only [ok_bind, hcomma, if_neg hclose, hdigit, hdigits', if_true]
        by_cases hbig' : maxRepeat < digitsValue 0 E
        · rw [if_pos hbig', if_pos hbig']
          rfl
        · rw [if_neg hbig', if_neg hbig']
          simp only [ok_bind]
          by_cases horder : min (digitsValue 0 E) u32Max < min (digitsValue 0 D) u32Max
          · rw [if_pos horder, if_pos horder]
            rfl
          · rw [if_neg horder, if_neg horder, ← hq]
            rfl

/-- Without a digit after it a brace is no quantifier. -/
theorem tryParseBracedQuantifier_literal (h : (p.skip 1).peek.any isDigit = false) :
    tryParseBracedQuantifier p = .ok (none, p) := by
  have hnot : ¬ (p.skip 1).peek.any isDigit = true := Bool.not_eq_true _ ▸ h
  rw [tryParseBracedQuantifier, if_neg hnot]

theorem exists_digits (h : p.peek.any isDigit = true) :
    ∃ D rest, p.rest = D ++ rest ∧ IsDigits D ∧ rest.head?.any isDigit = false := by
  refine ⟨p.rest.takeWhile isDigit, p.rest.dropWhile isDigit, List.takeWhile_append_dropWhile.symm,
    ⟨?_, fun d hd => List.mem_takeWhile_imp hd⟩, ?_⟩
  · unfold Parser.peek at h
    cases hrest : p.rest with
    | nil =>
        rw [hrest] at h
        cases h
    | cons d rest =>
        rw [hrest] at h
        have hd : isDigit d = true := h
        rw [List.takeWhile_cons_of_pos hd]
        exact List.cons_ne_nil _ _
  · cases hdrop : p.rest.dropWhile isDigit with
    | nil => rfl
    | cons d rest =>
        have hne : p.rest.dropWhile isDigit ≠ [] := by
          rw [hdrop]
          exact List.cons_ne_nil _ _
        have hhead := List.head_dropWhile_not isDigit hne
        simp only [hdrop, List.head_cons] at hhead
        exact hhead

/-- Only complete text is a quantifier. -/
theorem bracedQuantifier_of_ok (hbrace : p.peek = some 0x7B) {bounds : Nat × Option Nat}
    (h : tryParseBracedQuantifier p = .ok (some bounds, q)) :
    ∃ low high rest, BracedQuantifier p.rest low high rest := by
  obtain ⟨text, htext⟩ : ∃ text, p.rest = 0x7B :: text := by
    unfold Parser.peek at hbrace
    exact (List.head?_eq_some_iff.mp hbrace).imp fun _ => id
  have hinner : (p.skip 1).rest = text := by
    rw [Parser.skip, htext]
    rfl
  cases hdigit : (p.skip 1).peek.any isDigit with
  | false =>
      rw [tryParseBracedQuantifier_literal hdigit] at h
      cases h
  | true =>
      obtain ⟨D, rest, hrest, hD, hstop⟩ := exists_digits hdigit
      rw [tryParseBracedQuantifier, if_pos hdigit, parseDecimalDigits_eq hrest hD hstop] at h
      rw [htext, ← hinner, hrest]
      by_cases hbig : maxRepeat < digitsValue 0 D
      · rw [if_pos hbig] at h
        cases h
      · rw [if_neg hbig, ok_bind] at h
        dsimp only at h
        split at h
        · rename_i hclose
          have hclose : rest.head? = some 0x7D := hclose
          obtain ⟨rest, rfl⟩ := List.head?_eq_some_iff.mp hclose
          exact ⟨_, _, rest, .exactly hD⟩
        · split at h
          · rename_i hcomma
            have hcomma : rest.head? = some 0x2C := hcomma
            obtain ⟨rest, rfl⟩ := List.head?_eq_some_iff.mp hcomma
            split at h
            · rename_i hclose
              have hclose : rest.head? = some 0x7D := hclose
              obtain ⟨rest, rfl⟩ := List.head?_eq_some_iff.mp hclose
              exact ⟨_, _, rest, .atLeast hD⟩
            · split at h
              · rename_i hdigit'
                obtain ⟨E, last, hlast, hE, hstop'⟩ := exists_digits hdigit'
                have hrest' : rest = E ++ last := hlast
                rw [parseDecimalDigits_eq hlast hE hstop'] at h
                by_cases hbig' : maxRepeat < digitsValue 0 E
                · rw [if_pos hbig'] at h
                  cases h
                · rw [if_neg hbig', ok_bind] at h
                  dsimp only at h
                  split at h
                  · cases h
                  · obtain ⟨q', hclose, -⟩ := bind_eq_ok.mp h
                    have hclose : last.head? = some 0x7D := (Parser.expect_eq_ok hclose).1
                    obtain ⟨last, rfl⟩ := List.head?_eq_some_iff.mp hclose
                    rw [hrest']
                    exact ⟨_, _, last, .between hD hE⟩
              · cases h
          · cases h

theorem parseQuantifier_brace (hlegacy : p.unicode = false) (hbrace : p.peek = some 0x7B) :
    parseQuantifier p = (do
      let (bounds, q) ← tryParseBracedQuantifier p
      match bounds with
      | none => .ok (none, q)
      | some bounds => .ok (greediness bounds q)) := by
  rw [parseQuantifier, hbrace, hlegacy]
  cases tryParseBracedQuantifier p with
  | error e => rfl
  | ok r =>
      obtain ⟨bounds, q⟩ := r
      cases bounds with
      | none => rfl
      | some bounds =>
          obtain ⟨low, high⟩ := bounds
          by_cases hlazy : q.peek = some 0x3F
          · have hfound : greediness (low, high) q = (some (low, high, false), q.skip 1) :=
              if_pos hlazy
            exact (if_pos hlazy).trans (congrArg Except.ok hfound.symm)
          · have hfound : greediness (low, high) q = (some (low, high, true), q) := if_neg hlazy
            exact (if_neg hlazy).trans (congrArg Except.ok hfound.symm)

theorem peek_of_bracedQuantifier (h : BracedQuantifier p.rest low high rest) :
    p.peek = some 0x7B ∧ (p.peekAt 1).any isDigit = true := by
  have hdigit : ∀ {D tail : List Nat}, IsDigits D →
      ((0x7B :: (D ++ tail))[1]?).any isDigit = true := by
    intro D tail hD
    cases D with
    | nil => exact absurd rfl hD.1
    | cons d D => exact hD.2 d List.mem_cons_self
  rw [Parser.peek, Parser.peekAt]
  generalize p.rest = text at h
  cases h with
  | exactly hD => exact ⟨rfl, hdigit hD⟩
  | atLeast hD => exact ⟨rfl, hdigit hD⟩
  | between hD hE => exact ⟨rfl, hdigit hD⟩

theorem termNode_brace (env : Surroundings) (hbrace : p.peek = some 0x7B) (fuel : Nat) :
    termNode env (fuel + 1) p =
      if (p.peekAt 1).any isDigit then .error (.rejected "Nothing to repeat")
      else if p.unicode then .error (.rejected "Invalid pattern character")
      else .ok (charNode env.tables p 0x7B, p.skip 1) := by
  rw [termNode, hbrace]
  cases (p.peekAt 1).any isDigit with
  | false => cases p.unicode <;> rfl
  | true => rfl

/-- Legacy braces: complete text is a quantifier, its bounds clamped; too large a
number is refused; without a digit a brace is a literal. -/
theorem readsBraces (env : Surroundings) (p : Parser) (hlegacy : p.unicode = false)
    (hbrace : p.peek = some 0x7B) : ReadsBraces env p := by
  have hread := parseQuantifier_brace hlegacy hbrace
  refine ⟨?_, ?_, ?_, ?_, ?_, ?_⟩
  · intro low high rest h hlow hhigh
    rw [hread, tryParseBracedQuantifier_eq h, bracedOutcome.eq_def, if_neg (Nat.not_lt.mpr hlow)]
    cases high with
    | none => rfl
    | some high =>
        obtain ⟨horder, hmax⟩ := hhigh high rfl
        have hclamped : ¬ min high u32Max < min low u32Max := by omega
        simp only [if_neg (Nat.not_lt.mpr hmax), if_neg hclamped]
        rfl
  · intro low high rest h hlow horder hclamp
    have hclamped : min high u32Max < min low u32Max := by omega
    have hmax : ¬ maxRepeat < high := by omega
    rw [hread, tryParseBracedQuantifier_eq h, bracedOutcome, if_neg (Nat.not_lt.mpr hlow)]
    simp only [if_neg hmax, if_pos hclamped]
    rfl
  · intro low high rest h hbig
    rw [hread, tryParseBracedQuantifier_eq h, bracedOutcome.eq_def]
    by_cases hlow : maxRepeat < low
    · rw [if_pos hlow]
      rfl
    · obtain ⟨high, rfl, hhigh⟩ := hbig.resolve_left hlow
      simp only [if_neg hlow, if_pos hhigh]
      rfl
  · intro bounds q h
    rw [hread] at h
    obtain ⟨⟨found, q'⟩, htry, hfound⟩ := bind_eq_ok.mp h
    cases found with
    | none => cases hfound
    | some found => exact bracedQuantifier_of_ok hbrace htry
  · intro hdigit
    have hliteral : (p.skip 1).peek.any isDigit = false := by
      rw [Parser.peek, Parser.skip, List.head?_drop]
      exact hdigit
    constructor
    · rw [hread, tryParseBracedQuantifier_literal hliteral]
      rfl
    · intro fuel
      rw [termNode_brace env hbrace, hdigit, hlegacy]
      rfl
  · intro low high rest h fuel
    rw [termNode_brace env hbrace, (peek_of_bracedQuantifier h).2]
    rfl

end

/-- At the brace of `{2,3}b`. -/
theorem readsBraces_ab :
    ReadsBraces plainSurroundings (.init [0x7B, 0x32, 0x2C, 0x33, 0x7D, 0x62] {}) :=
  readsBraces plainSurroundings _ rfl rfl

theorem BracedQuantifier.closed {text rest : List Nat} {low : Nat} {high : Option Nat}
    (h : BracedQuantifier text low high rest) : 0x7D ∈ text := by
  cases h with
  | exactly _ | atLeast _ | between _ _ =>
      simp only [List.mem_cons, List.mem_append, true_or, or_true]

/-- The complete quantifier of `a{9007199254740992}` is refused for its size, and
the brace of `a{1`, which begins none, where the next term is expected. -/
theorem braces_refused :
    (∃ low high, BracedQuantifier ("\x7b9007199254740992\x7d".toList.map Char.toNat) low high []) ∧
    parseAndValidate plainSurroundings
      ("a\x7b9007199254740992\x7d".toList.map fun c => c.toNat.toUInt16) {} =
        .error (.rejected "Quantifier number too large") ∧
    (¬ ∃ low high rest, BracedQuantifier [0x7B, 0x31] low high rest) ∧
    parseAndValidate plainSurroundings [0x61, 0x7B, 0x31] {} =
      .error (.rejected "Nothing to repeat") := by
  have hD : IsDigits ("9007199254740992".toList.map Char.toNat) := ⟨by decide, by decide⟩
  refine ⟨⟨_, _, .exactly hD⟩, rfl, ?_, rfl⟩
  rintro ⟨low, high, rest, h⟩
  exact absurd h.closed (by decide)

end Slag.Regexp
