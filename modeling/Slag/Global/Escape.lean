import Slag.Global.Uri

/-!
`escape` and `unescape`, which take code units one by one, and the codecs of this
directory together.
-/

namespace Slag.Global

open Utf16 (Scalar)

/-- Letters, digits and `@*_+-./` -/
def escapeKeeps (unit : UInt16) : Bool :=
  (0x41 ≤ unit && unit ≤ 0x5A) || (0x61 ≤ unit && unit ≤ 0x7A) || (0x30 ≤ unit && unit ≤ 0x39) ||
    unit == 0x40 || unit == 0x2A || unit == 0x5F || unit == 0x2B || unit == 0x2D || unit == 0x2E ||
    unit == 0x2F

/-- `u` -/
def longMark : UInt16 := 0x75

def escapeUnit (unit : UInt16) : Units :=
  if escapeKeeps unit then [unit]
  else if unit ≤ 0xFF then percentOctet unit.toNat
  else
    let n := unit.toNat
    [percent, longMark, hexUpper (n / 4096), hexUpper (n / 256 % 16), hexUpper (n / 16 % 16),
      hexUpper (n % 16)]

def escape (text : Units) : Units := text.flatMap escapeUnit

def hex2 (a b : UInt16) : Option UInt16 := do
  let a ← hexValue a
  let b ← hexValue b
  return UInt16.ofNat (a * 16 + b)

def hex4 (a b c d : UInt16) : Option UInt16 := do
  let a ← hexValue a
  let b ← hexValue b
  let c ← hexValue c
  let d ← hexValue d
  return UInt16.ofNat (a * 4096 + b * 256 + c * 16 + d)

def longEscape : Units → Option (UInt16 × Units)
  | sign :: mark :: a :: b :: c :: d :: l =>
      if sign = percent ∧ mark = longMark then (hex4 a b c d).map (·, l) else none
  | _ => none

def shortEscape : Units → Option (UInt16 × Units)
  | sign :: a :: b :: l => if sign = percent then (hex2 a b).map (·, l) else none
  | _ => none

/-- A percent sign that begins no escape is kept. -/
def unescapeFrom : Nat → Units → Units
  | 0, l => l
  | _ + 1, [] => []
  | fuel + 1, unit :: l =>
      match longEscape (unit :: l) with
      | some (value, l) => value :: unescapeFrom fuel l
      | none =>
          match shortEscape (unit :: l) with
          | some (value, l) => value :: unescapeFrom fuel l
          | none => unit :: unescapeFrom fuel l

def unescape (text : Units) : Units := unescapeFrom text.length text

/-! The round trip. -/

variable {l : Units} {unit : UInt16}

theorem hexUpper_ne_mark : ∀ n < 16, hexUpper n ≠ longMark := by decide

theorem longEscape_unit (h : unit ≠ percent) (l : Units) : longEscape (unit :: l) = none := by
  unfold longEscape
  split
  · rename_i heq
    rw [if_neg]
    rintro ⟨rfl, -⟩
    exact h (List.cons.inj heq).1
  · rfl

theorem shortEscape_unit (h : unit ≠ percent) (l : Units) : shortEscape (unit :: l) = none := by
  unfold shortEscape
  split
  · rename_i heq
    rw [if_neg]
    rintro rfl
    exact h (List.cons.inj heq).1
  · rfl

theorem longEscape_octet {b : Nat} (hb : b < 256) (l : Units) :
    longEscape (percentOctet b ++ l) = none := by
  unfold longEscape
  split
  · rename_i heq
    rw [if_neg]
    rintro ⟨-, rfl⟩
    simp only [percentOctet, List.cons_append, List.cons.injEq] at heq
    exact hexUpper_ne_mark _ (show b / 16 < 16 by omega) heq.2.1
  · rfl

theorem shortEscape_octet {b : Nat} (hb : b < 256) (l : Units) :
    shortEscape (percentOctet b ++ l) = some (UInt16.ofNat b, l) := by
  have hvalue : hex2 (hexUpper (b / 16)) (hexUpper (b % 16)) = some (UInt16.ofNat b) := by
    simp only [hex2, hexValue_hexUpper _ (show b / 16 < 16 by omega),
      hexValue_hexUpper _ (show b % 16 < 16 by omega), Option.bind_eq_bind, Option.bind_some,
      Option.pure_def, Nat.div_add_mod']
  simp only [percentOctet, List.cons_append, List.nil_append, shortEscape, if_true, hvalue,
    Option.map_some]

theorem longEscape_long {n : Nat} (hn : n < 65536) (l : Units) :
    longEscape (percent :: longMark :: hexUpper (n / 4096) :: hexUpper (n / 256 % 16) ::
      hexUpper (n / 16 % 16) :: hexUpper (n % 16) :: l) = some (UInt16.ofNat n, l) := by
  have hsum : n / 4096 * 4096 + n / 256 % 16 * 256 + n / 16 % 16 * 16 + n % 16 = n := by omega
  have hvalue : hex4 (hexUpper (n / 4096)) (hexUpper (n / 256 % 16)) (hexUpper (n / 16 % 16))
      (hexUpper (n % 16)) = some (UInt16.ofNat n) := by
    simp only [hex4, hexValue_hexUpper _ (show n / 4096 < 16 by omega),
      hexValue_hexUpper _ (show n / 256 % 16 < 16 by omega),
      hexValue_hexUpper _ (show n / 16 % 16 < 16 by omega),
      hexValue_hexUpper _ (show n % 16 < 16 by omega), Option.bind_eq_bind, Option.bind_some,
      Option.pure_def, hsum]
  simp only [longEscape, and_self, if_true, hvalue, Option.map_some]

/-- One step takes back one unit. -/
theorem unescapeFrom_unit (unit : UInt16) (l : Units) (fuel : Nat) :
    unescapeFrom (fuel + 1) (escapeUnit unit ++ l) = unit :: unescapeFrom fuel l := by
  unfold escapeUnit
  split
  · rename_i hkeeps
    have hne : unit ≠ percent := by
      rintro rfl
      exact absurd hkeeps (by decide)
    simp only [List.cons_append, List.nil_append, unescapeFrom, longEscape_unit hne,
      shortEscape_unit hne]
  · split
    · rename_i hshort
      have hlt : unit.toNat < 256 := by
        have := UInt16.le_iff_toNat_le.1 hshort
        exact Nat.lt_succ_of_le this
      have hlong := longEscape_octet hlt l
      have hvalue := shortEscape_octet hlt l
      rw [percentOctet, List.cons_append] at hlong hvalue ⊢
      simp only [unescapeFrom, hlong, hvalue, UInt16.ofNat_toNat]
    · have hlong := longEscape_long unit.toNat_lt l
      simp only [List.cons_append, List.nil_append, unescapeFrom, hlong, UInt16.ofNat_toNat]

theorem escapeUnit_length (unit : UInt16) : 0 < (escapeUnit unit).length := by
  unfold escapeUnit
  split
  · exact Nat.one_pos
  · split <;> exact Nat.succ_pos _

theorem unescapeFrom_escape (text : Units) {fuel : Nat} (hfuel : (escape text).length ≤ fuel) :
    unescapeFrom fuel (escape text) = text := by
  induction text generalizing fuel with
  | nil => cases fuel <;> rfl
  | cons unit text ih =>
      have hsplit : escape (unit :: text) = escapeUnit unit ++ escape text := rfl
      have hpos := escapeUnit_length unit
      rw [hsplit, List.length_append] at hfuel
      rw [hsplit]
      cases fuel with
      | zero => omega
      | succ fuel => rw [unescapeFrom_unit, ih (by omega)]

/-- The codecs. A text that `decodeURIComponent` reads stands for the octets that its result is
encoded with, where the result has no unpaired surrogate. -/
theorem uri_codecs :
    (∀ component s, encode component s = none ↔ ∃ c ∈ Utf16.decode s, ¬Scalar c) ∧
    (∀ component s t, encode component s = some t → decode component t = some s) ∧
    (∀ s r, decode true s = some r ↔ UriText [] s r) ∧
    (∀ s r, decode true s = some r → (∀ c ∈ Utf16.decode r, Scalar c) →
      ∃ t octets, encode true r = some t ∧ (∀ o, Octets s o ↔ o = octets) ∧
        ∀ o, Octets t o ↔ o = octets) ∧
    (∀ s r, decode false s = some r ↔ UriText uriReserved s r) ∧
    ∀ s, unescape (escape s) = s := by
  refine ⟨fun component s => encode_none, ?_, fun s r => decode_iff, ?_, fun s r => decode_iff, ?_⟩
  · intro component s t h
    exact decode_iff.2 (encode_text h)
  · intro s r h hr
    cases ht : encode true r with
    | none =>
        obtain ⟨c, hc, hscalar⟩ := encode_none.1 ht
        exact absurd (hr c hc) hscalar
    | some t =>
        have hs := (decode_iff.1 h).standsFor hr
        have htext := (encode_text ht).standsFor hr
        refine ⟨t, _, rfl, fun o => ⟨fun ho => ho.unique hs, ?_⟩,
          fun o => ⟨fun ho => ho.unique htext, ?_⟩⟩
        · rintro rfl
          exact hs
        · rintro rfl
          exact htext
  · intro s
    exact unescapeFrom_escape s (Nat.le_refl _)

/-- `%C3%A9`, and the codecs at it. -/
theorem uri_codecs_accent :
    encode true [0xE9] = some [0x25, 0x43, 0x33, 0x25, 0x41, 0x39] ∧
    decode true [0x25, 0x43, 0x33, 0x25, 0x41, 0x39] = some [0xE9] ∧
    UriText [] [0x25, 0x43, 0x33, 0x25, 0x41, 0x39] [0xE9] ∧
    ∃ t octets, encode true [0xE9] = some t ∧
      (∀ o, Octets [0x25, 0x43, 0x33, 0x25, 0x41, 0x39] o ↔ o = octets) ∧
      ∀ o, Octets t o ↔ o = octets := by
  obtain ⟨-, hback, hread, hoctets, -⟩ := uri_codecs
  have hencode : encode true [0xE9] = some [0x25, 0x43, 0x33, 0x25, 0x41, 0x39] := by decide
  have hdecode := hback true _ _ hencode
  exact ⟨hencode, hdecode, (hread _ _).1 hdecode, hoctets _ _ hdecode (by decide)⟩

/-- A surrogate on its own is read, and cannot be encoded. -/
theorem decode_not_encodable : ¬∀ s r, decode true s = some r →
    ∃ t octets, encode true r = some t ∧ Octets s octets ∧ Octets t octets := by
  intro h
  obtain ⟨t, -, ht, -⟩ := h [0xD800] [0xD800] (by decide)
  have hnone : encode true [0xD800] = none := by decide
  rw [hnone] at ht
  cases ht

end Slag.Global
