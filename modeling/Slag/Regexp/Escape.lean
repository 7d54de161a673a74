import Slag.Regexp.Pattern

/-!
`RegExp.escape`, and what the parser reads of its output: one character for each
code point of the text, or for each code unit outside unicode mode.
-/

namespace Slag.Regexp

open Slag.Utf16

namespace Escape

def isSyntaxCharacter (cp : Nat) : Bool :=
  [0x5E, 0x24, 0x5C, 0x2E, 0x2A, 0x2B, 0x3F, 0x28, 0x29, 0x5B, 0x5D, 0x7B, 0x7D, 0x7C].contains cp

/-- The letter of a control character's escape. -/
def controlEscape (cp : Nat) : Option Nat :=
  if cp = 0x09 then some 0x74
  else if cp = 0x0A then some 0x6E
  else if cp = 0x0B then some 0x76
  else if cp = 0x0C then some 0x66
  else if cp = 0x0D then some 0x72
  else none

def isOtherPunctuator (cp : Nat) : Bool :=
  [0x2C, 0x2D, 0x3D, 0x3C, 0x3E, 0x23, 0x26, 0x21, 0x25, 0x3A, 0x3B, 0x40, 0x7E, 0x27, 0x60,
    0x22].contains cp

/-- A digit of a number in lower-case hexadecimal. -/
def hexDigit (n : Nat) : Nat :=
  if n < 10 then 0x30 + n else 0x61 + (n - 10)

/-- `\xHH`. -/
def hexEscape (n : Nat) : List Nat :=
  [0x5C, 0x78, hexDigit (n / 0x10), hexDigit (n % 0x10)]

/-- `\xHH` or `\uHHHH`. -/
def unicodeEscape (unit : Nat) : List Nat :=
  if unit ≤ 0xFF then hexEscape unit
  else [0x5C, 0x75, hexDigit (unit / 0x1000), hexDigit (unit / 0x100 % 0x10),
    hexDigit (unit / 0x10 % 0x10), hexDigit (unit % 0x10)]

/-- A code point as a `char`, the replacement character for a surrogate. -/
def charOf (cp : Nat) : Nat :=
  if cp < 0xD800 ∨ 0xDFFF < cp ∧ cp ≤ 0x10FFFF then cp else 0xFFFD

def needsHex (cp : Nat) : Bool :=
  isOtherPunctuator cp || isWhiteSpace cp || isLineTerminator cp || (0xD800 ≤ cp && cp ≤ 0xDFFF)

def encodeForRegexpEscape (cp : Nat) : List Nat :=
  if isSyntaxCharacter cp || cp == 0x2F then [0x5C, charOf cp]
  else
    match controlEscape cp with
    | some letter => [0x5C, letter]
    | none =>
        if needsHex cp then
          if cp ≤ 0xFF then hexEscape cp
          else
            let units := if cp ≤ 0xFFFF then [cp]
              else [0xD800 + (cp - 0x10000) / 0x400, 0xDC00 + (cp - 0x10000) % 0x400]
            units.flatMap unicodeEscape
        else [charOf cp]

/-- A letter or digit, which is escaped where it comes first. -/
def isAlphanumeric (cp : Nat) : Bool :=
  isDigit cp || isControlLetter cp

def escapeChar (first : Bool) (cp : Nat) : List Nat :=
  if first && isAlphanumeric cp then hexEscape cp else encodeForRegexpEscape cp

def escapeFrom (first : Bool) : List Nat → List Nat
  | [] => []
  | cp :: rest => escapeChar first cp ++ escapeFrom false rest

/-- The characters of the escaped text. -/
def escape (input : List UInt16) : List Nat :=
  escapeFrom true (decode input)

/-- The atoms the parser sees of some characters. -/
def atomsOf (unicode : Bool) (chars : List Nat) : List Nat :=
  if unicode then chars else (encode chars).map UInt16.toNat

end Escape

section

open Escape

variable {env : Surroundings} {p : Parser} {rest : List Nat} {a n : Nat}

theorem hexValue_hexDigit (h : n < 0x10) : hexValue (hexDigit n) = some n := by
  revert n
  decide

theorem hexDigit_ne_brace (h : n < 0x10) : hexDigit n ≠ 0x7B := by
  unfold hexDigit
  split <;> omega

theorem byteAt_hex (hn : n ≤ 0xFF)
    (hp : p.rest = hexDigit (n / 0x10) :: hexDigit (n % 0x10) :: rest) : byteAt p = some n := by
  have hhigh := hexValue_hexDigit (n := n / 0x10) (by omega)
  have hlow := hexValue_hexDigit (n := n % 0x10) (by omega)
  simp only [byteAt, Parser.hexAt, Parser.peekAt, hp, List.getElem?_cons_zero, List.getElem?_cons_succ,
    Option.bind_some, hhigh, hlow]
  congr 1
  omega

theorem codeUnitAt_hex (hn : n ≤ 0xFFFF)
    (hp : p.rest = hexDigit (n / 0x1000) :: hexDigit (n / 0x100 % 0x10) ::
      hexDigit (n / 0x10 % 0x10) :: hexDigit (n % 0x10) :: rest) :
    codeUnitAt p 0 = some n := by
  have hfirst := hexValue_hexDigit (n := n / 0x1000) (by omega)
  have hsecond := hexValue_hexDigit (n := n / 0x100 % 0x10) (by omega)
  have hthird := hexValue_hexDigit (n := n / 0x10 % 0x10) (by omega)
  have hfourth := hexValue_hexDigit (n := n % 0x10) (by omega)
  simp only [codeUnitAt, Parser.hexAt, Parser.peekAt, hp, Nat.zero_add, List.getElem?_cons_zero,
    List.getElem?_cons_succ, Option.bind_some, hfirst, hsecond, hthird, hfourth]
  congr 1
  omega

theorem charNode_plain (hcase : p.ignoreCase = false) (tables : UnicodeTables) (c : Nat) :
    charNode tables p c = .char c false := by
  simp only [charNode, hcase, Bool.false_eq_true, if_false]

/-- The term at the cursor is one character. -/
def ReadsChar (env : Surroundings) (p : Parser) (c : Nat) (rest : List Nat) : Prop :=
  ∀ fuel, termNode env (fuel + 1) p = .ok (.char c false, { p with rest := rest })

/-- No letter of an escape that is not one of a single character. -/
def SimpleEscape (a : Nat) : Prop :=
  escapePredicate a = none ∧ a ≠ 0x70 ∧ a ≠ 0x50 ∧ a ≠ 0x62 ∧ a ≠ 0x42

instance (a : Nat) : Decidable (SimpleEscape a) :=
  inferInstanceAs (Decidable (_ ∧ _))

theorem termNode_backslash (hp : p.rest = 0x5C :: a :: rest) (ha : SimpleEscape a) (fuel : Nat) :
    termNode env (fuel + 1) p = parseAtomEscape env { p with rest := rest } a := by
  obtain ⟨hclass, hlower, hupper, hword, hnotWord⟩ := ha
  have hpeek : p.peek = some 0x5C := by
    rw [Parser.peek, hp]
    rfl
  have hatom : p.peekAt 1 = some a := by
    rw [Parser.peekAt, hp]
    rfl
  have hskip : p.skip 2 = { p with rest := rest } := by
    rw [Parser.skip, hp]
    rfl
  have hterm : termNode env (fuel + 1) p = parseBackslash env p := by
    rw [termNode, hpeek]
    rfl
  rw [hterm, parseBackslash, hatom, hskip]
  simp only [hclass]
  rw [if_neg fun h => h.elim hlower hupper, if_neg hword, if_neg hnotWord]

/-- A syntax character or a slash. -/
theorem readsChar_identity (hcase : p.ignoreCase = false)
    (ha : (isSyntaxCharacter a || a == 0x2F) = true) (hp : p.rest = 0x5C :: a :: rest) :
    ReadsChar env p a rest := by
  intro fuel
  have hatom : ∀ a ∈ [0x5E, 0x24, 0x5C, 0x2E, 0x2A, 0x2B, 0x3F, 0x28, 0x29, 0x5B, 0x5D, 0x7B, 0x7D,
      0x7C, 0x2F], SimpleEscape a ∧ isDigit a = false ∧ a ≠ 0x30 ∧ a ≠ 0x78 ∧ a ≠ 0x75 ∧
        a ≠ 0x63 ∧ a ≠ 0x6B ∧ Regexp.controlEscape a = none ∧ isIdentityEscapeAllowed a = true := by
    decide
  have hmem : a ∈ [0x5E, 0x24, 0x5C, 0x2E, 0x2A, 0x2B, 0x3F, 0x28, 0x29, 0x5B, 0x5D, 0x7B, 0x7D,
      0x7C, 0x2F] := by
    simp only [isSyntaxCharacter, Bool.or_eq_true, List.contains_iff_mem, beq_iff_eq, List.mem_cons,
      List.not_mem_nil, or_false, or_assoc] at ha ⊢
    exact ha
  obtain ⟨hsimple, hdigit, hzero, hx, hu, hc, hk, hcontrol, hallowed⟩ := hatom a hmem
  have hlegal : ¬ ({ p with rest := rest }.unicode = true ∧ (!isIdentityEscapeAllowed a) = true) := by
    rw [hallowed]
    exact fun h => absurd h.2 Bool.false_ne_true
  have hnot : ¬ isDigit a = true := Bool.not_eq_true _ ▸ hdigit
  rw [termNode_backslash hp hsimple, parseAtomEscape, if_neg hzero, if_neg hnot, if_neg hx,
    if_neg hu, if_neg hc, if_neg hk, hcontrol]
  simp only [if_neg hlegal]
  exact congrArg (fun node => Except.ok (node, _)) (charNode_plain hcase _ _)

theorem lt_of_isSyntaxCharacter (h : (isSyntaxCharacter a || a == 0x2F) = true) : a < 0x80 := by
  simp only [isSyntaxCharacter, Bool.or_eq_true, List.contains_iff_mem, List.mem_cons,
    List.not_mem_nil, or_false, beq_iff_eq] at h
  omega

variable {c : Nat} {chars cs : List Nat} {first : Bool}

/-- The letters of the control escapes, which both sides know. -/
theorem controlEscape_letter (h : Escape.controlEscape c = some a) :
    c ≤ 0x0D ∧ a ∈ [0x74, 0x6E, 0x76, 0x66, 0x72] ∧ Regexp.controlEscape a = some c := by
  have hc : c ∈ [0x09, 0x0A, 0x0B, 0x0C, 0x0D] := by
    unfold Escape.controlEscape at h
    simp only [List.mem_cons, List.not_mem_nil, or_false]
    grind
  have hall : ∀ c ∈ [0x09, 0x0A, 0x0B, 0x0C, 0x0D], ∀ a ∈ Escape.controlEscape c,
      c ≤ 0x0D ∧ a ∈ [0x74, 0x6E, 0x76, 0x66, 0x72] ∧ Regexp.controlEscape a = some c := by
    decide
  exact hall c hc a h

theorem readsChar_control (hcase : p.ignoreCase = false) (hc : Escape.controlEscape c = some a)
    (hp : p.rest = 0x5C :: a :: rest) :
    ReadsChar env p c rest := by
  intro fuel
  have hatom : ∀ a ∈ [0x74, 0x6E, 0x76, 0x66, 0x72], SimpleEscape a ∧ isDigit a = false ∧
      a ≠ 0x30 ∧ a ≠ 0x78 ∧ a ≠ 0x75 ∧ a ≠ 0x63 ∧ a ≠ 0x6B := by
    decide
  obtain ⟨-, hletter, hvalue⟩ := controlEscape_letter hc
  obtain ⟨hsimple, hdigit, hzero, hx, hu, hcontrol, hk⟩ := hatom a hletter
  have hnot : ¬ isDigit a = true := Bool.not_eq_true _ ▸ hdigit
  rw [termNode_backslash hp hsimple, parseAtomEscape, if_neg hzero, if_neg hnot, if_neg hx,
    if_neg hu, if_neg hcontrol, if_neg hk, hvalue]
  exact congrArg (fun node => Except.ok (node, _)) (charNode_plain hcase _ _)

theorem readsChar_hex (hcase : p.ignoreCase = false) (hn : n ≤ 0xFF)
    (hp : p.rest = hexEscape n ++ rest) : ReadsChar env p n rest := by
  intro fuel
  have hslash : p.rest = 0x5C :: 0x78 :: hexDigit (n / 0x10) :: hexDigit (n % 0x10) :: rest := hp
  have hbyte : byteAt { p with rest := hexDigit (n / 0x10) :: hexDigit (n % 0x10) :: rest } =
      some n := byteAt_hex hn rfl
  rw [termNode_backslash hslash (by decide), parseAtomEscape, if_neg (by decide),
    if_neg (by decide), if_pos rfl, hbyte]
  exact congrArg (fun node => Except.ok (node, _)) (charNode_plain hcase _ _)

/-- A `\uHHHH` escape, up to what becomes of its unit. -/
theorem termNode_unit (hn : n ≤ 0xFFFF) (hlarge : ¬ n ≤ 0xFF)
    (hp : p.rest = unicodeEscape n ++ rest) (fuel : Nat) :
    termNode env (fuel + 1) p = charFromCodeUnit env.tables { p with rest := rest } n := by
  have hslash : p.rest = 0x5C :: 0x75 :: hexDigit (n / 0x1000) :: hexDigit (n / 0x100 % 0x10) ::
      hexDigit (n / 0x10 % 0x10) :: hexDigit (n % 0x10) :: rest := by
    rw [hp, unicodeEscape, if_neg hlarge]
    rfl
  rw [termNode_backslash hslash (by decide), parseAtomEscape, if_neg (by decide),
    if_neg (by decide), if_neg (by decide), if_pos rfl, codeUnitAt_hex hn rfl]
  have hbrace : ∀ tail, ¬ ({ p with rest := hexDigit (n / 0x1000) :: tail }.unicode = true ∧
      { p with rest := hexDigit (n / 0x1000) :: tail }.peek = some 0x7B) := by
    intro tail h
    exact hexDigit_ne_brace (by omega) (Option.some.inj h.2)
  rw [if_neg (hbrace _)]
  rfl

/-- What a code point is escaped as. -/
inductive Escaped (c : Nat) : List Nat → Prop
  | identity (h : (isSyntaxCharacter c || c == 0x2F) = true) : Escaped c [0x5C, c]
  | control {letter : Nat} (h : Escape.controlEscape c = some letter) : Escaped c [0x5C, letter]
  | hex (h : c ≤ 0xFF) : Escaped c (hexEscape c)
  | unit (hlow : ¬ c ≤ 0xFF) (hhigh : c ≤ 0xFFFF) : Escaped c (unicodeEscape c)
  | raw (hscalar : Scalar c) (hplain : isSyntaxCharacter c = false) : Escaped c [c]

theorem charOf_scalar (h : Scalar c) : charOf c = c := by
  unfold Scalar at h
  unfold charOf
  rw [if_pos (by omega)]

theorem le_of_needsHex (h : needsHex c = true) : c ≤ 0xFFFF := by
  simp only [needsHex, isOtherPunctuator, isWhiteSpace, isLineTerminator, Bool.or_eq_true,
    Bool.and_eq_true, List.contains_iff_mem, List.mem_cons, List.not_mem_nil, or_false,
    beq_iff_eq, decide_eq_true_eq] at h
  omega

theorem scalar_of_not_needsHex (hc : c < 0x110000) (h : ¬ needsHex c = true) :
    Scalar c := by
  simp only [needsHex, Bool.or_eq_true, Bool.and_eq_true, decide_eq_true_eq, not_or] at h
  unfold Scalar
  omega

theorem escaped_escapeChar (first : Bool) (hc : c < 0x110000) :
    Escaped c (escapeChar first c) := by
  unfold escapeChar
  split
  · rename_i halpha
    refine .hex ?_
    simp only [isAlphanumeric, isDigit, isControlLetter, Bool.and_eq_true, Bool.or_eq_true,
      decide_eq_true_eq] at halpha
    omega
  · unfold encodeForRegexpEscape
    split
    · rename_i hsymbol
      have hscalar : Scalar c :=
        .inl (Nat.lt_trans (lt_of_isSyntaxCharacter hsymbol) (by decide))
      rw [charOf_scalar hscalar]
      exact .identity hsymbol
    · rename_i hsymbol
      split
      · rename_i hcontrol
        exact .control hcontrol
      · split
        · rename_i hhex
          have hle := le_of_needsHex hhex
          split
          · rename_i hsmall
            exact .hex hsmall
          · rename_i hlarge
            change Escaped c ([c].flatMap unicodeEscape)
            rw [List.flatMap_singleton]
            exact .unit hlarge hle
        · rename_i hhex
          have hscalar := scalar_of_not_needsHex hc hhex
          rw [charOf_scalar hscalar]
          refine .raw hscalar ?_
          rw [Bool.or_eq_true, not_or] at hsymbol
          exact Bool.not_eq_true _ ▸ hsymbol.1

theorem hexDigit_lt (h : n < 0x10) : hexDigit n < 0x80 := by
  unfold hexDigit
  split <;> omega

/-- An escaped code point is written in ASCII or stands for itself. -/
theorem Escaped.atom (h : Escaped c chars) :
    ∀ a ∈ chars, a < 0x80 ∨ a = c ∧ Scalar c := by
  intro a ha
  cases h with
  | identity h =>
      have hc := lt_of_isSyntaxCharacter h
      simp only [List.mem_cons, List.not_mem_nil, or_false] at ha
      omega
  | control h =>
      refine .inl ?_
      have hletter := (controlEscape_letter h).2.1
      simp only [List.mem_cons, List.not_mem_nil, or_false] at ha hletter
      omega
  | hex h =>
      refine .inl ?_
      have hhigh := hexDigit_lt (n := c / 0x10) (by omega)
      have hlow := hexDigit_lt (n := c % 0x10) (by omega)
      simp only [hexEscape, List.mem_cons, List.not_mem_nil, or_false] at ha
      omega
  | unit hlow hhigh =>
      refine .inl ?_
      have hfirst := hexDigit_lt (n := c / 0x1000) (by omega)
      have hsecond := hexDigit_lt (n := c / 0x100 % 0x10) (by omega)
      have hthird := hexDigit_lt (n := c / 0x10 % 0x10) (by omega)
      have hfourth := hexDigit_lt (n := c % 0x10) (by omega)
      rw [unicodeEscape, if_neg hlow] at ha
      simp only [List.mem_cons, List.not_mem_nil, or_false] at ha
      omega
  | raw hscalar hplain => exact .inr ⟨List.mem_singleton.mp ha, hscalar⟩

theorem scalar_escapeFrom (hlt : ∀ c ∈ cs, c < 0x110000) :
    ∀ a ∈ escapeFrom first cs, Scalar a := by
  induction cs generalizing first with
  | nil => nofun
  | cons c cs ih =>
      intro a ha
      rw [escapeFrom, List.mem_append] at ha
      cases ha with
      | inl ha =>
          cases (escaped_escapeChar first (hlt c List.mem_cons_self)).atom a ha with
          | inl hlow =>
              unfold Scalar
              omega
          | inr hsame => exact hsame.1 ▸ hsame.2
      | inr ha => exact ih (fun d hd => hlt d (List.mem_cons_of_mem c hd)) a ha

theorem atomsOf_append (unicode : Bool) (front back : List Nat) :
    atomsOf unicode (front ++ back) = atomsOf unicode front ++ atomsOf unicode back := by
  cases unicode with
  | true => rfl
  | false => exact (congrArg _ (encode_append front back)).trans List.map_append

theorem atomsOf_basic (unicode : Bool) (h : ∀ a ∈ chars, a < 0x10000) :
    atomsOf unicode chars = chars := by
  cases unicode with
  | true => rfl
  | false =>
      induction chars with
      | nil => rfl
      | cons a chars ih =>
          have ha := h a List.mem_cons_self
          have hrest := ih fun b hb => h b (List.mem_cons_of_mem a hb)
          have hhead : atomsOf false [a] = [a] := by
            change ([a].flatMap encodeChar).map UInt16.toNat = [a]
            rw [List.flatMap_singleton, encodeChar, if_pos ha, List.map_singleton,
              UInt16.toNat_ofNat_of_lt' ha]
          rw [← List.singleton_append, atomsOf_append, hhead, hrest]

/-- The parser sees the characters of an escaped text. -/
theorem patternAtoms_escape (s : List UInt16) (flags : Flags) :
    patternAtoms (encode (escape s)) flags = atomsOf flags.hasUnicode (escape s) := by
  have hscalar : ∀ a ∈ escape s, Scalar a := scalar_escapeFrom fun _ hc => decode_lt hc
  rw [patternAtoms, atomsOf, decode_encode hscalar]

/-- No text that begins so continues a term, ends an alternative or closes a group. -/
def Fresh (atoms : List Nat) : Prop :=
  ∀ a, atoms.head? = some a → a = 0x5C ∨ isSyntaxCharacter a = false

theorem plain_of_le (h : 0x80 ≤ a) : isSyntaxCharacter a = false := by
  rw [← Bool.not_eq_true]
  simp only [isSyntaxCharacter, List.contains_iff_mem, List.mem_cons, List.not_mem_nil, or_false]
  omega

/-- What is not beyond the basic plane is its own atom. -/
theorem Escaped.atomsOf_eq (h : Escaped c chars) {unicode : Bool} (hc : unicode = true ∨ c ≤ 0xFFFF) :
    atomsOf unicode chars = chars := by
  cases hc with
  | inl hunicode => rw [hunicode, atomsOf, if_pos rfl]
  | inr hc =>
      apply atomsOf_basic
      intro a ha
      cases h.atom a ha with
      | inl hlow => omega
      | inr hsame => omega

theorem exists_units (hlow : ¬ c ≤ 0xFFFF) (hhigh : c < 0x110000) :
    ∃ hi lo, atomsOf false [c] = [hi, lo] ∧ 0xD800 ≤ hi ∧ 0xD800 ≤ lo := by
  obtain ⟨hi, lo, hchar, hhi, hlo, -⟩ := exists_pair (by omega) hhigh
  refine ⟨hi.toNat, lo.toNat, ?_, (isHigh_iff.mp hhi).1, ?_⟩
  · change ([c].flatMap encodeChar).map UInt16.toNat = _
    rw [List.flatMap_singleton, hchar]
    rfl
  · have hle := (isLow_iff.mp hlo).1
    omega

/-- Only a code point that stands for itself is beyond the basic plane. -/
theorem Escaped.supplementary (h : Escaped c chars) (hc : ¬ c ≤ 0xFFFF) : chars = [c] := by
  cases h with
  | identity h =>
      have hlow := lt_of_isSyntaxCharacter h
      omega
  | control h =>
      have hlow := (controlEscape_letter h).1
      omega
  | hex h => omega
  | unit hlow hhigh => exact absurd hhigh hc
  | raw hscalar hplain => rfl

theorem Escaped.fresh (h : Escaped c chars) (unicode : Bool) (hlt : c < 0x110000) (rest : List Nat) :
    Fresh (atomsOf unicode chars ++ rest) := by
  by_cases hc : unicode = true ∨ c ≤ 0xFFFF
  · rw [h.atomsOf_eq hc]
    intro a ha
    cases h with
    | identity _ | control _ | hex _ => exact .inl (Option.some.inj ha).symm
    | unit hlow hhigh =>
        rw [unicodeEscape, if_neg hlow] at ha
        exact .inl (Option.some.inj ha).symm
    | raw hscalar hplain => exact .inr (Option.some.inj ha ▸ hplain)
  · obtain ⟨hlegacy, hlarge⟩ := not_or.mp hc
    obtain ⟨hi, lo, hunits, hhi, -⟩ := exists_units hlarge hlt
    rw [h.supplementary hlarge, Bool.eq_false_of_not_eq_true hlegacy, hunits]
    intro a ha
    refine .inr (plain_of_le ?_)
    have heq : hi = a := Option.some.inj ha
    omega

theorem Escaped.nonempty (h : Escaped c chars) {unicode : Bool} (hlt : c < 0x110000) :
    atomsOf unicode chars ++ rest ≠ [] := by
  refine List.append_ne_nil_of_left_ne_nil ?_ rest
  by_cases hc : unicode = true ∨ c ≤ 0xFFFF
  · rw [h.atomsOf_eq hc]
    cases h with
    | identity _ | control _ | hex _ | raw _ _ => exact nofun
    | unit hlow hhigh =>
        rw [unicodeEscape, if_neg hlow]
        exact nofun
  · obtain ⟨hlegacy, hlarge⟩ := not_or.mp hc
    obtain ⟨hi, lo, hunits, -, -⟩ := exists_units hlarge hlt
    rw [h.supplementary hlarge, Bool.eq_false_of_not_eq_true hlegacy, hunits]
    exact nofun

theorem fresh_escapeFrom (unicode : Bool) (hlt : ∀ c ∈ cs, c < 0x110000) :
    Fresh (atomsOf unicode (escapeFrom first cs)) := by
  cases cs with
  | nil =>
      cases unicode <;> exact nofun
  | cons c cs =>
      rw [escapeFrom, atomsOf_append]
      exact (escaped_escapeChar first (hlt c List.mem_cons_self)).fresh unicode
        (hlt c List.mem_cons_self) _

/-- A character that stands for itself. -/
theorem readsChar_plain (hcase : p.ignoreCase = false) (ha : isSyntaxCharacter a = false)
    (hp : p.rest = a :: rest) : ReadsChar env p a rest := by
  intro fuel
  have hpeek : p.peek = some a := by
    rw [Parser.peek, hp]
    rfl
  have hskip : p.skip 1 = { p with rest := rest } := by
    rw [Parser.skip, hp]
    rfl
  rw [← Bool.not_eq_true] at ha
  simp only [isSyntaxCharacter, List.contains_iff_mem, List.mem_cons, List.not_mem_nil, or_false,
    not_or] at ha
  rw [termNode, hpeek, hskip]
  simp only
  rw [if_neg (by omega), if_neg (by omega), if_neg (by omega), if_neg (by omega),
    if_neg (by omega), if_neg (by omega), if_neg (by omega), if_neg (by omega)]
  exact congrArg (fun node => Except.ok (node, _)) (charNode_plain hcase _ _)

/-- A lead surrogate, of a list of code points one that is alone. -/
def isLead (c : Nat) : Bool :=
  0xD800 ≤ c && c ≤ 0xDBFF

theorem readsChar_escaped (hcase : p.ignoreCase = false) (h : Escaped c chars)
    (hc : p.unicode = true ∨ c ≤ 0xFFFF) (hlead : ¬ (p.unicode = true ∧ isLead c = true))
    (hp : p.rest = atomsOf p.unicode chars ++ rest) :
    ReadsChar env p c rest := by
  rw [h.atomsOf_eq hc] at hp
  cases h with
  | identity h => exact readsChar_identity hcase h hp
  | control h => exact readsChar_control hcase h hp
  | hex h => exact readsChar_hex hcase h hp
  | unit hlow hhigh =>
      intro fuel
      have hnot : ¬ ({ p with rest := rest }.unicode = true ∧ 0xD800 ≤ c ∧ c ≤ 0xDBFF) := by
        simp only [isLead, Bool.and_eq_true, decide_eq_true_eq] at hlead
        exact hlead
      rw [termNode_unit hhigh hlow hp, charFromCodeUnit, if_neg hnot]
      exact congrArg (fun node => Except.ok (node, _)) (charNode_plain hcase _ _)
  | raw hscalar hplain => exact readsChar_plain hcase hplain hp

theorem parseQuantifier_fresh (h : Fresh p.rest) : parseQuantifier p = .ok (none, p) := by
  have hnot : ∀ a, a ∈ [0x2A, 0x2B, 0x3F, 0x7B] → p.peek ≠ some a := by
    intro a ha hpeek
    cases h a hpeek with
    | inl hslash =>
        rw [hslash] at ha
        revert ha
        decide
    | inr hplain =>
        have hsymbol : ∀ a ∈ [0x2A, 0x2B, 0x3F, 0x7B], isSyntaxCharacter a = true := by decide
        rw [hsymbol a ha] at hplain
        cases hplain
  rw [parseQuantifier, if_neg (hnot _ (by decide)), if_neg (hnot _ (by decide)),
    if_neg (hnot _ (by decide)), if_neg (hnot _ (by decide))]
  rfl

theorem parseAlternative_end (hp : p.rest = []) (fuel : Nat) :
    parseAlternative env (fuel + 1) p = .ok ([], p) := by
  have hpeek : p.peek = none := by
    rw [Parser.peek, hp]
    rfl
  rw [parseAlternative, if_pos (.inl hpeek)]

theorem parseAlternative_more (hne : p.rest ≠ []) (hp : Fresh p.rest) (fuel : Nat) :
    parseAlternative env (fuel + 1) p = (do
      let (node, q) ← parseTerm env fuel p
      let (nodes, q) ← parseAlternative env fuel q
      .ok (node :: nodes, q)) := by
  have hnot : ¬ (p.peek = none ∨ p.peek = some 0x29 ∨ p.peek = some 0x7C) := by
    rintro (hnone | hclose | hbar)
    · exact hne (List.head?_eq_none_iff.mp hnone)
    · cases hp _ hclose with
      | inl h => cases h
      | inr h => cases h
    · cases hp _ hbar with
      | inl h => cases h
      | inr h => cases h
  rw [parseAlternative, if_neg hnot]

/-- One character of an alternative. -/
theorem parseAlternative_char (h : ReadsChar env p c rest) (hne : p.rest ≠ []) (hp : Fresh p.rest)
    (hrest : Fresh rest) (fuel : Nat) :
    parseAlternative env (fuel + 3) p = (do
      let (nodes, q) ← parseAlternative env (fuel + 2) { p with rest := rest }
      .ok (.char c false :: nodes, q)) := by
  have hterm : parseTerm env (fuel + 2) p = .ok (.char c false, { p with rest := rest }) := by
    rw [parseTerm, h, ok_bind]
    have hquantifier : parseQuantifier { p with rest := rest } =
        .ok (none, { p with rest := rest }) := parseQuantifier_fresh hrest
    simp only [hquantifier, ok_bind]
    rfl
  rw [parseAlternative_more hne hp, hterm]
  rfl

/-- What an escaped code point begins with that is no trail surrogate. -/
theorem combineSurrogatePair_none {d : Nat} (h : Escaped d chars) (htrail : ¬ (0xDC00 ≤ d ∧ d ≤ 0xDFFF))
    (hp : p.rest = chars ++ rest) (lead : Nat) :
    combineSurrogatePair p lead = none := by
  have hsecond : ∀ {a b tail}, p.rest = a :: b :: tail → b ≠ 0x75 →
      combineSurrogatePair p lead = none := by
    intro a b tail htail hb
    have hpeek : p.peekAt 1 = some b := by
      rw [Parser.peekAt, htail]
      rfl
    rw [combineSurrogatePair, hpeek, if_neg fun h => hb (Option.some.inj h.2)]
  cases h with
  | identity h =>
      refine hsecond hp ?_
      rintro rfl
      cases h
  | @control letter h =>
      refine hsecond hp ?_
      rintro rfl
      exact absurd (controlEscape_letter h).2.1 (by decide)
  | hex _ => exact hsecond hp (by decide)
  | unit hlow hhigh =>
      rw [unicodeEscape, if_neg hlow] at hp
      have hunit : codeUnitAt p 2 = some d := by
        have hdrop : codeUnitAt p 2 = codeUnitAt (p.skip 2) 0 := by
          simp only [codeUnitAt, Parser.hexAt, Parser.peekAt, Parser.skip, List.getElem?_drop,
            Nat.zero_add, Nat.add_zero]
        rw [hdrop]
        have hskip : (p.skip 2).rest = hexDigit (d / 0x1000) :: hexDigit (d / 0x100 % 0x10) ::
            hexDigit (d / 0x10 % 0x10) :: hexDigit (d % 0x10) :: rest := by
          rw [Parser.skip, hp]
          rfl
        exact codeUnitAt_hex hhigh hskip
      simp only [combineSurrogatePair, hunit, if_neg htrail, ite_self]
  | raw hscalar hplain =>
      have hpeek : p.peek = some d := by
        rw [Parser.peek, hp]
        rfl
      have hslash : ¬ (p.peek = some 0x5C ∧ p.peekAt 1 = some 0x75) := by
        rw [hpeek]
        intro h
        cases Option.some.inj h.1
        cases hplain
      rw [combineSurrogatePair, if_neg hslash]

/-- A lone lead surrogate is refused in unicode mode. -/
theorem parseAlternative_lead (hlead : isLead c = true) (hunicode : p.unicode = true)
    (hlt : ∀ d ∈ cs, d < 0x110000) (hnext : ∀ d, cs.head? = some d → ¬ (0xDC00 ≤ d ∧ d ≤ 0xDFFF))
    (hp : p.rest = unicodeEscape c ++ escapeFrom false cs) (fuel : Nat) :
    parseAlternative env (fuel + 3) p = .error (.rejected "Invalid unicode escape") := by
  simp only [isLead, Bool.and_eq_true, decide_eq_true_eq] at hlead
  have hlow : ¬ c ≤ 0xFF := by omega
  have hescaped : Escaped c (unicodeEscape c) := .unit hlow (by omega)
  have hfresh : Fresh p.rest := by
    intro a ha
    rw [hp, unicodeEscape, if_neg hlow] at ha
    exact .inl (Option.some.inj ha).symm
  have hne : p.rest ≠ [] := by
    rw [hp, unicodeEscape, if_neg hlow]
    exact nofun
  have hcombine : combineSurrogatePair { p with rest := escapeFrom false cs } c = none := by
    cases cs with
    | nil => rfl
    | cons d cs =>
        exact combineSurrogatePair_none (escaped_escapeChar false (hlt d List.mem_cons_self))
          (hnext d rfl) rfl c
  have hterm : ∀ fuel, termNode env (fuel + 1) p =
      .error (.rejected "Invalid unicode escape") := by
    intro fuel
    have hpair : { p with rest := escapeFrom false cs }.unicode = true ∧ 0xD800 ≤ c ∧
        c ≤ 0xDBFF := ⟨hunicode, hlead⟩
    rw [termNode_unit (by omega) hlow hp, charFromCodeUnit, if_pos hpair, hcombine]
  rw [parseAlternative_more hne hfresh, parseTerm, hterm]
  rfl

theorem Escaped.lead (h : Escaped c chars) (hlead : isLead c = true) :
    chars = unicodeEscape c := by
  simp only [isLead, Bool.and_eq_true, decide_eq_true_eq] at hlead
  cases h with
  | identity h =>
      have hlow := lt_of_isSyntaxCharacter h
      omega
  | control h =>
      have hlow := (controlEscape_letter h).1
      omega
  | hex h => omega
  | unit hlow hhigh => rfl
  | raw hscalar hplain =>
      unfold Scalar at hscalar
      omega

/-- An escaped text parses as its characters, unless it has a lone lead surrogate in
unicode mode. -/
theorem parseAlternative_escape (hlt : ∀ c ∈ cs, c < 0x110000)
    (hlone : cs.IsChain fun c d => isLead c = true → ¬ (0xDC00 ≤ d ∧ d ≤ 0xDFFF))
    (hcase : p.ignoreCase = false) (hp : p.rest = atomsOf p.unicode (escapeFrom first cs)) {fuel : Nat}
    (hfuel : (atomsOf p.unicode cs).length + 3 ≤ fuel) :
    parseAlternative env fuel p =
      if p.unicode = true ∧ cs.any isLead = true then .error (.rejected "Invalid unicode escape")
      else .ok ((atomsOf p.unicode cs).map fun c => .char c false, { p with rest := [] }) := by
  induction cs generalizing p first fuel with
  | nil =>
      have hnil : atomsOf p.unicode [] = [] := by cases p.unicode <;> rfl
      obtain ⟨more, rfl⟩ := Nat.exists_eq_add_of_le' hfuel
      have hrest : p.rest = [] := hp.trans hnil
      have hsame : { p with rest := [] } = p := by rw [← hrest]
      rw [hsame, hnil, if_neg fun h => nomatch h.2]
      exact parseAlternative_end hrest _
  | cons c cs ih =>
      have hc := hlt c List.mem_cons_self
      have hrest := fun d hd => hlt d (List.mem_cons_of_mem c hd)
      have hescaped := escaped_escapeChar first hc
      obtain ⟨hnext, hchain⟩ := List.isChain_cons.mp hlone
      have hcut : p.rest =
          atomsOf p.unicode (escapeChar first c) ++ atomsOf p.unicode (escapeFrom false cs) :=
        hp.trans (atomsOf_append _ _ _)
      have hfront : atomsOf p.unicode (c :: cs) = atomsOf p.unicode [c] ++ atomsOf p.unicode cs :=
        atomsOf_append p.unicode [c] cs
      rw [hfront, List.length_append] at hfuel
      by_cases hlead : p.unicode = true ∧ isLead c = true
      · have hany : (c :: cs).any isLead = true := by
          rw [List.any_cons, hlead.2, Bool.true_or]
        rw [if_pos ⟨hlead.1, hany⟩]
        obtain ⟨more, rfl⟩ := Nat.exists_eq_add_of_le' (Nat.le_trans (Nat.le_add_left 3 _) hfuel)
        refine parseAlternative_lead hlead.2 hlead.1 hrest ?_ ?_ more
        · intro d hd
          exact hnext d hd hlead.2
        · rw [hlead.1] at hcut
          rw [hcut, ← hescaped.lead hlead.2]
          rfl
      · have hany : (p.unicode = true ∧ (c :: cs).any isLead = true) ↔
            p.unicode = true ∧ cs.any isLead = true := by
          rw [List.any_cons, Bool.or_eq_true]
          tauto
        have hne : p.rest ≠ [] := by
          rw [hcut]
          exact hescaped.nonempty hc
        have hfresh : Fresh p.rest := by
          rw [hcut]
          exact hescaped.fresh _ hc _
        have hmore : Fresh (atomsOf p.unicode (escapeFrom false cs)) :=
          fresh_escapeFrom p.unicode hrest
        have htail : ∀ fuel, (atomsOf p.unicode cs).length + 3 ≤ fuel →
            parseAlternative env fuel
                { p with rest := atomsOf p.unicode (escapeFrom false cs) } =
              if p.unicode = true ∧ cs.any isLead = true then
                .error (.rejected "Invalid unicode escape")
              else
                .ok ((atomsOf p.unicode cs).map fun c => .char c false, { p with rest := [] }) :=
          fun fuel hfuel =>
            ih (p := { p with rest := atomsOf p.unicode (escapeFrom false cs) }) hrest hchain hcase
              rfl hfuel
        simp only [hany]
        rw [hfront, List.map_append]
        by_cases hbasic : p.unicode = true ∨ c ≤ 0xFFFF
        · have hone : atomsOf p.unicode [c] = [c] := by
            cases hbasic with
            | inl hunicode =>
                rw [hunicode]
                rfl
            | inr hle =>
                exact atomsOf_basic _ fun a ha => by
                  rw [List.mem_singleton.mp ha]
                  omega
          have hchar : ReadsChar env p c (atomsOf p.unicode (escapeFrom false cs)) :=
            readsChar_escaped hcase hescaped hbasic hlead hcut
          rw [hone] at hfuel ⊢
          obtain ⟨more, rfl⟩ := Nat.exists_eq_add_of_le' (Nat.le_trans (Nat.le_add_left 3 _) hfuel)
          rw [List.length_singleton] at hfuel
          rw [parseAlternative_char hchar hne hfresh hmore, htail (more + 2) (by omega)]
          split <;> rfl
        · obtain ⟨hlegacy, hlarge⟩ := not_or.mp hbasic
          have hfalse := Bool.eq_false_of_not_eq_true hlegacy
          obtain ⟨hi, lo, hunits, hhi, hlo⟩ := exists_units hlarge hc
          have hplain : ∀ a, 0xD800 ≤ a → isSyntaxCharacter a = false :=
            fun a ha => plain_of_le (by omega)
          have hpair : p.rest = hi :: lo :: atomsOf p.unicode (escapeFrom false cs) := by
            rw [hcut, hescaped.supplementary hlarge, hfalse, hunits]
            rfl
          have hlast : Fresh (lo :: atomsOf p.unicode (escapeFrom false cs)) :=
            fun a ha => .inr (Option.some.inj ha ▸ hplain lo hlo)
          have hfirst : ReadsChar env p hi (lo :: atomsOf p.unicode (escapeFrom false cs)) :=
            readsChar_plain hcase (hplain hi hhi) hpair
          have hsecond : ReadsChar env
              { p with rest := lo :: atomsOf p.unicode (escapeFrom false cs) } lo
              (atomsOf p.unicode (escapeFrom false cs)) :=
            readsChar_plain hcase (hplain lo hlo) rfl
          have hboth : atomsOf p.unicode [c] = [hi, lo] := hfalse ▸ hunits
          rw [hboth] at hfuel ⊢
          rw [List.length_cons, List.length_singleton] at hfuel
          have hle : 4 ≤ fuel := by omega
          obtain ⟨more, rfl⟩ := Nat.exists_eq_add_of_le' hle
          rw [parseAlternative_char hfirst hne hfresh hlast (more + 1),
            parseAlternative_char hsecond nofun hlast hmore more, htail (more + 2) (by omega)]
          split <;> rfl

end

end Slag.Regexp
