import Slag.Lib.Utf8

/-!
`encodeURI`, `encodeURIComponent` and the two decoders. A result of `none` is the
`URIError`.
-/

namespace Slag.Global

open Utf16 (Scalar)

abbrev Units := List UInt16

/-- `;/?:@&=+$,#` -/
def uriReserved : List Nat := [0x3B, 0x2F, 0x3F, 0x3A, 0x40, 0x26, 0x3D, 0x2B, 0x24, 0x2C, 0x23]

/-- `-_.!~*'()` -/
def uriUnescaped : List Nat := [0x2D, 0x5F, 0x2E, 0x21, 0x7E, 0x2A, 0x27, 0x28, 0x29]

def uriUnescapedReserved : List Nat := uriReserved ++ uriUnescaped

def percent : UInt16 := 0x25

/-- The hex digit of a number below 16, in upper case. -/
def hexUpper (n : Nat) : UInt16 := UInt16.ofNat (if n < 10 then 0x30 + n else 0x41 + (n - 10))

/-- `%XX` -/
def percentOctet (b : Nat) : Units := [percent, hexUpper (b / 16), hexUpper (b % 16)]

def hexValue (unit : UInt16) : Option Nat :=
  if 0x30 ≤ unit ∧ unit ≤ 0x39 then some (unit.toNat - 0x30)
  else if 0x61 ≤ unit ∧ unit ≤ 0x66 then some (unit.toNat - 0x61 + 10)
  else if 0x41 ≤ unit ∧ unit ≤ 0x46 then some (unit.toNat - 0x41 + 10)
  else none

def alphanumeric (cp : Nat) : Bool :=
  (0x30 ≤ cp && cp ≤ 0x39) || (0x41 ≤ cp && cp ≤ 0x5A) || (0x61 ≤ cp && cp ≤ 0x7A)

/-- The escape of one code point; an unpaired surrogate has none. -/
def encodePoint (unescaped : List Nat) (cp : Nat) : Option Units :=
  if cp ∈ unescaped ∨ alphanumeric cp = true then some [UInt16.ofNat cp]
  else if 0xD800 ≤ cp ∧ cp ≤ 0xDFFF then none
  else some ((Utf8.encodeChar cp).flatMap percentOctet)

def encodePoints (unescaped : List Nat) : List Nat → Option Units
  | [] => some []
  | cp :: cps => do
      let out ← encodePoint unescaped cp
      let rest ← encodePoints unescaped cps
      return out ++ rest

/-- The code points of the string, from the front. -/
def encode (component : Bool) (string : Units) : Option Units :=
  encodePoints (if component then uriUnescaped else uriUnescapedReserved) (Utf16.decode string)

/-- The octet of the escape that is next. -/
def percentByte : Units → Option (Nat × Units)
  | sign :: hi :: lo :: l =>
      if sign = percent then do
        let high ← hexValue hi
        let low ← hexValue lo
        return (high <<< 4 ||| low, l)
      else none
  | _ => none

/-- The length of a sequence, by its first octet. -/
def byteCount (byte : Nat) : Option Nat :=
  if byte &&& 0xE0 = 0xC0 then some 2
  else if byte &&& 0xF0 = 0xE0 then some 3
  else if byte &&& 0xF8 = 0xF0 then some 4
  else none

/-- So many octets after the first. -/
def continuation : Nat → Units → Option (List Nat × Units)
  | 0, l => some ([], l)
  | n + 1, l => do
      let (next, l) ← percentByte l
      if 0x80 ≤ next ∧ next ≤ 0xBF then do
        let (octets, l) ← continuation n l
        return (next :: octets, l)
      else none

/-- What the escape that is next stands for; the reserved ones stand for themselves. -/
def decodeEscape (reserved : List Nat) (l : Units) : Option (Units × Units) := do
  let (byte, rest) ← percentByte l
  if byte < 0x80 then
    return (if byte ∈ reserved then l.take 3 else [UInt16.ofNat byte], rest)
  else do
    let count ← byteCount byte
    let (octets, rest) ← continuation (count - 1) rest
    let chars ← Utf8.decode (byte :: octets)
    match chars with
    | [ch] => return (Utf16.encodeChar ch, rest)
    | _ => none

def decodeFrom (reserved : List Nat) : Nat → Units → Option Units
  | _, [] => some []
  | 0, _ => none
  | fuel + 1, unit :: l =>
      if unit ≠ percent then do
        let out ← decodeFrom reserved fuel l
        return unit :: out
      else do
        let (piece, l) ← decodeEscape reserved (unit :: l)
        let out ← decodeFrom reserved fuel l
        return piece ++ out

def decode (component : Bool) (string : Units) : Option Units :=
  decodeFrom (if component then [] else uriReserved) string.length string

/-! What the decoders are to read. -/

/-- Escapes of octets, one after the other. -/
inductive PercentOctets : Units → List Nat → Prop
  | nil : PercentOctets [] []
  | cons {hi lo : UInt16} {high low : Nat} {w : Units} {octets : List Nat} :
      hexValue hi = some high → hexValue lo = some low → PercentOctets w octets →
      PercentOctets (percent :: hi :: lo :: w) ((high * 16 + low) :: octets)

/-- Units that are no percent sign, and whole code points as well-formed escapes; those of some
code points are kept as they are. -/
inductive UriText (reserved : List Nat) : Units → Units → Prop
  | nil : UriText reserved [] []
  | raw {unit : UInt16} {w out : Units} : unit ≠ percent → UriText reserved w out →
      UriText reserved (unit :: w) (unit :: out)
  | escaped {c : Nat} {e w out : Units} : Scalar c → PercentOctets e (Utf8.encodeChar c) →
      UriText reserved w out →
      UriText reserved (e ++ w) ((if c ∈ reserved then e else Utf16.encodeChar c) ++ out)

/-- The octets a text stands for: its escapes, and its other code points in UTF-8. -/
inductive Octets : Units → List Nat → Prop
  | nil : Octets [] []
  | raw {c : Nat} {w : Units} {octets : List Nat} : Scalar c → c ≠ percent.toNat → Octets w octets →
      Octets (Utf16.encodeChar c ++ w) (Utf8.encodeChar c ++ octets)
  | escape {hi lo : UInt16} {high low : Nat} {w : Units} {octets : List Nat} :
      hexValue hi = some high → hexValue lo = some low → Octets w octets →
      Octets (percent :: hi :: lo :: w) ((high * 16 + low) :: octets)

/-! Hex digits. -/

theorem hexValue_hexUpper : ∀ n < 16, hexValue (hexUpper n) = some n := by decide

theorem hexValue_lt {unit : UInt16} {n : Nat} (h : hexValue unit = some n) : n < 16 := by
  simp only [hexValue, UInt16.le_iff_toNat_le] at h
  split at h
  · rename_i hunit
    have := hunit.2
    cases h
    change unit.toNat ≤ 0x39 at this
    omega
  · split at h
    · rename_i hunit
      have := hunit.2
      cases h
      change unit.toNat ≤ 0x66 at this
      omega
    · split at h
      · rename_i hunit
        have := hunit.2
        cases h
        change unit.toNat ≤ 0x46 at this
        omega
      · cases h

theorem shift_or : ∀ high < 16, ∀ low < 16, high <<< 4 ||| low = high * 16 + low := by decide

theorem percentByte_eq_some {l rest : Units} {byte : Nat} :
    percentByte l = some (byte, rest) ↔ ∃ hi lo high low, l = percent :: hi :: lo :: rest ∧
      hexValue hi = some high ∧ hexValue lo = some low ∧ byte = high * 16 + low := by
  constructor
  · intro h
    unfold percentByte at h
    split at h
    · rename_i sign hi lo l
      split at h
      · rename_i hsign
        simp only [Option.bind_eq_bind, Option.bind_eq_some_iff, Option.pure_def,
          Option.some.injEq, Prod.mk.injEq] at h
        obtain ⟨high, hhigh, low, hlow, rfl, rfl⟩ := h
        rw [shift_or _ (hexValue_lt hhigh) _ (hexValue_lt hlow)]
        exact ⟨hi, lo, high, low, by rw [hsign], hhigh, hlow, rfl⟩
      · cases h
    · cases h
  · rintro ⟨hi, lo, high, low, rfl, hhigh, hlow, rfl⟩
    simp only [percentByte, if_true, hhigh, hlow, Option.bind_eq_bind, Option.bind_some,
      Option.pure_def]
    rw [shift_or _ (hexValue_lt hhigh) _ (hexValue_lt hlow)]

theorem percentOctets_flatMap {octets : List Nat} (h : ∀ b ∈ octets, b < 256) :
    PercentOctets (octets.flatMap percentOctet) octets := by
  induction octets with
  | nil => exact .nil
  | cons b octets ih =>
      obtain ⟨hb, h⟩ := List.forall_mem_cons.1 h
      have hcons := PercentOctets.cons (hexValue_hexUpper (b / 16) (by omega))
        (hexValue_hexUpper (b % 16) (by omega)) (ih h)
      rw [Nat.div_add_mod'] at hcons
      exact hcons

/-! Sequences. -/

variable {l rest e w out piece : Units} {octets : List Nat} {byte n c : Nat} {reserved : List Nat}

theorem continuation_sound (h : continuation n l = some (octets, rest)) :
    ∃ e, l = e ++ rest ∧ PercentOctets e octets := by
  induction n generalizing l octets with
  | zero =>
      cases h
      exact ⟨[], rfl, .nil⟩
  | succ n ih =>
      simp only [continuation, Option.bind_eq_bind, Option.bind_eq_some_iff] at h
      obtain ⟨⟨next, l₁⟩, hnext, h⟩ := h
      simp only at h
      split at h
      · simp only [Option.bind_eq_some_iff, Option.pure_def, Option.some.injEq,
          Prod.mk.injEq] at h
        obtain ⟨⟨octets, l₂⟩, hrest, rfl, rfl⟩ := h
        obtain ⟨hi, lo, high, low, rfl, hhigh, hlow, rfl⟩ := percentByte_eq_some.1 hnext
        obtain ⟨e, rfl, he⟩ := ih hrest
        exact ⟨percent :: hi :: lo :: e, rfl, .cons hhigh hlow he⟩
      · cases h

theorem PercentOctets.continuation (h : PercentOctets e octets)
    (htails : ∀ b ∈ octets, 0x80 ≤ b ∧ b ≤ 0xBF) (rest : Units) :
    continuation octets.length (e ++ rest) = some (octets, rest) := by
  induction h with
  | nil => rfl
  | @cons hi lo high low w octets hhigh hlow _ ih =>
      obtain ⟨htail, htails⟩ := List.forall_mem_cons.1 htails
      have hnext : percentByte (percent :: hi :: lo :: (w ++ rest)) =
          some (high * 16 + low, w ++ rest) :=
        percentByte_eq_some.2 ⟨hi, lo, high, low, rfl, hhigh, hlow, rfl⟩
      simp only [List.cons_append, List.length_cons, Global.continuation, hnext,
        Option.bind_eq_bind, Option.bind_some, htail, and_self, if_true, ih htails,
        Option.pure_def]

theorem byteCount_spec : ∀ b < 256, byteCount b =
    if 0xC0 ≤ b ∧ b < 0xE0 then some 2 else if 0xE0 ≤ b ∧ b < 0xF0 then some 3
    else if 0xF0 ≤ b ∧ b < 0xF8 then some 4 else none := by
  decide +kernel

/-- The octets of a code point beyond ASCII: the length is in the first. -/
theorem encodeChar_octets (h : Scalar c) (hc : 0x80 ≤ c) : ∃ b octets,
    Utf8.encodeChar c = b :: octets ∧ 0x80 ≤ b ∧ b < 256 ∧
      byteCount b = some (octets.length + 1) ∧ ∀ b ∈ octets, 0x80 ≤ b ∧ b ≤ 0xBF := by
  have hmax : c < 0x110000 := by
    unfold Scalar at h
    omega
  have htail : ∀ m : Nat, 0x80 ≤ 0x80 + m % 0x40 ∧ 0x80 + m % 0x40 ≤ 0xBF := by
    intro m
    omega
  unfold Utf8.encodeChar
  rw [if_neg (Nat.not_lt.2 hc)]
  split
  · refine ⟨_, _, rfl, by omega, by omega, ?_, ?_⟩
    · rw [byteCount_spec _ (by omega), if_pos (by omega)]
      rfl
    · exact List.forall_mem_singleton.2 (htail c)
  · split
    · refine ⟨_, _, rfl, by omega, by omega, ?_, ?_⟩
      · rw [byteCount_spec _ (by omega), if_neg (by omega), if_pos (by omega)]
        rfl
      · exact List.forall_mem_cons.2 ⟨htail _, List.forall_mem_singleton.2 (htail c)⟩
    · refine ⟨_, _, rfl, by omega, by omega, ?_, ?_⟩
      · rw [byteCount_spec _ (by omega), if_neg (by omega), if_neg (by omega), if_pos (by omega)]
        rfl
      · exact List.forall_mem_cons.2 ⟨htail _, List.forall_mem_cons.2 ⟨htail _,
          List.forall_mem_singleton.2 (htail c)⟩⟩

theorem decode_singleton : Utf8.decode octets = some [c] ↔
    Scalar c ∧ octets = Utf8.encodeChar c := by
  rw [Utf8.decode_eq_some, List.forall_mem_singleton, Utf8.encode, List.flatMap_singleton]

/-- An escape, whatever it stands for. -/
theorem decodeEscape_eq_some (hreserved : ∀ c ∈ reserved, c < 0x80) :
    decodeEscape reserved l = some (piece, rest) ↔ ∃ c e, Scalar c ∧ l = e ++ rest ∧
      PercentOctets e (Utf8.encodeChar c) ∧
      piece = if c ∈ reserved then e else Utf16.encodeChar c := by
  constructor
  · intro h
    simp only [decodeEscape, Option.bind_eq_bind, Option.bind_eq_some_iff] at h
    obtain ⟨⟨byte, l₁⟩, hbyte, h⟩ := h
    obtain ⟨hi, lo, high, low, rfl, hhigh, hlow, rfl⟩ := percentByte_eq_some.1 hbyte
    simp only at h
    split at h
    · rename_i hascii
      simp only [Option.pure_def, Option.some.injEq, Prod.mk.injEq] at h
      obtain ⟨rfl, rfl⟩ := h
      have hoctet : Utf8.encodeChar (high * 16 + low) = [high * 16 + low] := if_pos hascii
      have hunit : Utf16.encodeChar (high * 16 + low) = [UInt16.ofNat (high * 16 + low)] :=
        if_pos (by omega)
      refine ⟨high * 16 + low, [percent, hi, lo], Or.inl (by omega), rfl, ?_, ?_⟩
      · rw [hoctet]
        exact .cons hhigh hlow .nil
      · rw [hunit]
        rfl
    · rename_i hlong
      simp only [Option.bind_eq_some_iff] at h
      obtain ⟨count, -, ⟨octets, l₂⟩, hoctets, chars, hchars, h⟩ := h
      obtain ⟨e, rfl, he⟩ := continuation_sound hoctets
      split at h
      · rename_i c
        simp only [Option.pure_def, Option.some.injEq, Prod.mk.injEq] at h
        obtain ⟨rfl, rfl⟩ := h
        obtain ⟨hscalar, hsequence⟩ := decode_singleton.1 hchars
        refine ⟨c, percent :: hi :: lo :: e, hscalar, rfl, ?_, ?_⟩
        · rw [← hsequence]
          exact .cons hhigh hlow he
        · rw [if_neg]
          intro hmem
          have hshort : Utf8.encodeChar c = [c] := if_pos (hreserved c hmem)
          rw [hshort] at hsequence
          have := hreserved c hmem
          have := (List.cons.inj hsequence).1
          omega
      · cases h
  · rintro ⟨c, e, hscalar, rfl, he, rfl⟩
    by_cases hascii : c < 0x80
    · have hoctet : Utf8.encodeChar c = [c] := if_pos hascii
      have hunit : Utf16.encodeChar c = [UInt16.ofNat c] := if_pos (by omega)
      rw [hoctet] at he
      generalize hone : [c] = octets at he
      cases he with
      | nil => cases hone
      | @cons hi lo high low w octets hhigh hlow hw =>
          obtain ⟨rfl, rfl⟩ := List.cons.inj hone
          cases hw
          have hbyte : percentByte (percent :: hi :: lo :: rest) =
              some (high * 16 + low, rest) :=
            percentByte_eq_some.2 ⟨hi, lo, high, low, rfl, hhigh, hlow, rfl⟩
          simp only [List.cons_append, List.nil_append, decodeEscape, hbyte, Option.bind_eq_bind,
            Option.bind_some, hascii, if_true, Option.pure_def, hunit]
          rfl
    · obtain ⟨b, octets, hsequence, hb, -, hcount, htails⟩ :=
        encodeChar_octets hscalar (Nat.not_lt.1 hascii)
      have hchars : Utf8.decode (b :: octets) = some [c] :=
        decode_singleton.2 ⟨hscalar, hsequence.symm⟩
      have hkept : c ∉ reserved := fun hmem => hascii (hreserved c hmem)
      rw [hsequence] at he
      cases he with
      | @cons hi lo high low w _ hhigh hlow hw =>
          have hbyte : percentByte (percent :: hi :: lo :: (w ++ rest)) =
              some (high * 16 + low, w ++ rest) :=
            percentByte_eq_some.2 ⟨hi, lo, high, low, rfl, hhigh, hlow, rfl⟩
          have hoctets := hw.continuation htails rest
          simp only [List.cons_append, decodeEscape, hbyte, Option.bind_eq_bind, Option.bind_some,
            if_neg (Nat.not_lt.2 hb), hcount, Nat.add_sub_cancel, hoctets, hchars, Option.pure_def,
            if_neg hkept]

theorem PercentOctets.head (h : PercentOctets e octets) (hne : octets ≠ []) :
    ∃ e', e = percent :: e' := by
  cases h with
  | nil => exact absurd rfl hne
  | cons => exact ⟨_, rfl⟩

theorem decodeFrom_sound (hreserved : ∀ c ∈ reserved, c < 0x80) {fuel : Nat}
    (h : decodeFrom reserved fuel l = some out) : UriText reserved l out := by
  induction fuel generalizing l out with
  | zero =>
      cases l with
      | nil =>
          cases h
          exact .nil
      | cons => cases h
  | succ fuel ih =>
      cases l with
      | nil =>
          cases h
          exact .nil
      | cons unit l =>
          rw [decodeFrom] at h
          split at h
          · rename_i hunit
            simp only [Option.bind_eq_bind, Option.bind_eq_some_iff, Option.pure_def,
              Option.some.injEq] at h
            obtain ⟨out, hout, rfl⟩ := h
            exact .raw hunit (ih hout)
          · simp only [Option.bind_eq_bind, Option.bind_eq_some_iff, Option.pure_def,
              Option.some.injEq] at h
            obtain ⟨⟨piece, l'⟩, hpiece, out, hout, rfl⟩ := h
            obtain ⟨c, e, hscalar, hl, he, rfl⟩ := (decodeEscape_eq_some hreserved).1 hpiece
            rw [hl]
            exact .escaped hscalar he (ih hout)

theorem UriText.decodeFrom (hreserved : ∀ c ∈ reserved, c < 0x80) (h : UriText reserved l out)
    {fuel : Nat} (hfuel : l.length ≤ fuel) : decodeFrom reserved fuel l = some out := by
  induction h generalizing fuel with
  | nil => cases fuel <;> rfl
  | raw hunit _ ih =>
      cases fuel with
      | zero => simp at hfuel
      | succ fuel =>
          rw [Global.decodeFrom, if_pos hunit, ih (Nat.succ_le_succ_iff.1 hfuel)]
          rfl
  | @escaped c e w out hscalar he _ ih =>
      obtain ⟨e', rfl⟩ := he.head (Utf8.encodeChar_ne_nil c)
      cases fuel with
      | zero => simp at hfuel
      | succ fuel =>
          have hshort : w.length ≤ fuel := by
            simp only [List.length_append, List.length_cons] at hfuel
            omega
          have hpiece : decodeEscape reserved (percent :: (e' ++ w)) =
              some (if c ∈ reserved then percent :: e' else Utf16.encodeChar c, w) :=
            (decodeEscape_eq_some hreserved).2 ⟨c, _, hscalar, rfl, he, rfl⟩
          rw [List.cons_append, Global.decodeFrom, if_neg (not_not.2 rfl), hpiece]
          simp only [Option.bind_eq_bind, Option.bind_some, ih hshort, Option.pure_def]

variable {component : Bool}

theorem decode_iff : decode component l = some out ↔
    UriText (if component then [] else uriReserved) l out := by
  have hreserved : ∀ c ∈ (if component then [] else uriReserved), c < 0x80 := by
    cases component <;> decide
  exact ⟨decodeFrom_sound hreserved, fun h => h.decodeFrom hreserved (Nat.le_refl _)⟩

/-! The encoders. -/

/-- The set of an encoder, and of its decoder. -/
theorem unescaped_ascii {cp : Nat}
    (h : cp ∈ (if component then uriUnescaped else uriUnescapedReserved) ∨ alphanumeric cp = true) :
    cp < 0x80 ∧ cp ≠ percent.toNat := by
  rcases h with h | h
  · have hall : ∀ c ∈ uriUnescapedReserved, c < 0x80 ∧ c ≠ percent.toNat := by decide
    apply hall
    cases component with
    | true => exact List.mem_append_right _ h
    | false => exact h
  · simp only [alphanumeric, Bool.or_eq_true, Bool.and_eq_true, decide_eq_true_eq] at h
    have hpercent : percent.toNat = 0x25 := rfl
    omega

theorem encodeChar_lt {b : Nat} (h : Scalar c) (hb : b ∈ Utf8.encodeChar c) : b < 256 := by
  by_cases hc : c < 0x80
  · rw [Utf8.encodeChar, if_pos hc, List.mem_singleton] at hb
    omega
  · obtain ⟨b', octets, hsequence, -, hlt, -, htails⟩ := encodeChar_octets h (Nat.not_lt.1 hc)
    rw [hsequence] at hb
    rcases List.mem_cons.1 hb with rfl | hb
    · exact hlt
    · exact Nat.lt_of_le_of_lt (htails b hb).2 (by decide)

theorem encodePoint_none {unescaped : List Nat} (hset : ∀ c ∈ unescaped, c < 0x80)
    (hc : c < 0x110000) : encodePoint unescaped c = none ↔ ¬Scalar c := by
  unfold encodePoint Scalar
  split
  · rename_i hkept
    have hlow : c < 0x80 := by
      rcases hkept with h | h
      · exact hset c h
      · simp only [alphanumeric, Bool.or_eq_true, Bool.and_eq_true, decide_eq_true_eq] at h
        omega
    simp only [reduceCtorEq, false_iff, not_not]
    omega
  · split
    · simp only [true_iff]
      omega
    · simp only [reduceCtorEq, false_iff, not_not]
      omega

theorem encodePoints_none {unescaped cps : List Nat} (hset : ∀ c ∈ unescaped, c < 0x80)
    (hcps : ∀ c ∈ cps, c < 0x110000) :
    encodePoints unescaped cps = none ↔ ∃ c ∈ cps, ¬Scalar c := by
  induction cps with
  | nil => exact ⟨nofun, nofun⟩
  | cons c cps ih =>
      obtain ⟨hc, hcps⟩ := List.forall_mem_cons.1 hcps
      have hfirst := encodePoint_none hset hc
      rw [List.exists_mem_cons_iff, ← ih hcps, ← hfirst, encodePoints]
      cases encodePoint unescaped c with
      | none => exact ⟨fun _ => Or.inl rfl, fun _ => rfl⟩
      | some out =>
          cases encodePoints unescaped cps with
          | none => exact ⟨fun _ => Or.inr rfl, fun _ => rfl⟩
          | some rest => exact ⟨nofun, nofun⟩

theorem encodePoints_text {cps : List Nat} (hcps : ∀ c ∈ cps, c < 0x110000)
    (h : encodePoints (if component then uriUnescaped else uriUnescapedReserved) cps = some out) :
    UriText (if component then [] else uriReserved) out (Utf16.encode cps) := by
  induction cps generalizing out with
  | nil =>
      cases h
      exact .nil
  | cons c cps ih =>
      obtain ⟨hc, hcps⟩ := List.forall_mem_cons.1 hcps
      simp only [encodePoints, Option.bind_eq_bind, Option.bind_eq_some_iff, Option.pure_def,
        Option.some.injEq] at h
      obtain ⟨first, hfirst, rest, hrest, rfl⟩ := h
      have htext := ih hcps hrest
      unfold encodePoint at hfirst
      by_cases hkept : c ∈ (if component then uriUnescaped else uriUnescapedReserved) ∨
          alphanumeric c = true
      · rw [if_pos hkept] at hfirst
        obtain ⟨hlow, hne⟩ := unescaped_ascii hkept
        cases hfirst
        have hunit : Utf16.encodeChar c = [UInt16.ofNat c] := if_pos (by omega)
        have hvalue : (UInt16.ofNat c).toNat = c := UInt16.toNat_ofNat_of_lt' (by
          change c < 65536
          omega)
        rw [Utf16.encode, List.flatMap_cons, hunit]
        refine .raw (fun heq => hne ?_) htext
        rw [← heq, hvalue]
      · rw [if_neg hkept] at hfirst
        split at hfirst
        · cases hfirst
        · rename_i hsurrogate
          cases hfirst
          have hscalar : Scalar c := by
            unfold Scalar
            omega
          have hescaped : c ∉ (if component then [] else uriReserved) := by
            intro hmem
            apply hkept
            cases component with
            | true => cases hmem
            | false => exact Or.inl (List.mem_append_left _ hmem)
          have hpiece := UriText.escaped hscalar
            (percentOctets_flatMap fun b hb => encodeChar_lt hscalar hb) htext
          rw [if_neg hescaped] at hpiece
          exact hpiece

theorem encode_none :
    encode component l = none ↔ ∃ c ∈ Utf16.decode l, ¬Scalar c := by
  apply encodePoints_none _ fun c hc => Utf16.decode_lt hc
  cases component <;> decide

theorem encode_text (h : encode component l = some out) :
    UriText (if component then [] else uriReserved) out l := by
  have htext := encodePoints_text (fun c hc => Utf16.decode_lt hc) h
  rwa [Utf16.encode_decode] at htext

/-! The octets of a text. -/

theorem PercentOctets.standsFor {octets' : List Nat} (h : PercentOctets e octets)
    (hw : Octets w octets') : Octets (e ++ w) (octets ++ octets') := by
  induction h with
  | nil => exact hw
  | cons hhigh hlow _ ih => exact .escape hhigh hlow ih

/-- The units of a code point do not begin with half a pair. -/
theorem encodeChar_head (h : Scalar c) {unit : UInt16} {w' : Units}
    (heq : Utf16.encodeChar c ++ w = unit :: w') : Utf16.isLow unit = false := by
  by_cases hc : c < 0x10000
  · rw [Utf16.encodeChar, if_pos hc] at heq
    obtain ⟨rfl, -⟩ := List.cons.inj heq
    have hvalue : (UInt16.ofNat c).toNat = c := UInt16.toNat_ofNat_of_lt' hc
    rw [← Bool.not_eq_true, Utf16.isLow_iff, hvalue]
    unfold Scalar at h
    omega
  · obtain ⟨hi, lo, hchar, hhi, -, -⟩ := Utf16.exists_pair (Nat.not_lt.1 hc) (by
      unfold Scalar at h
      omega)
    rw [hchar] at heq
    obtain ⟨rfl, -⟩ := List.cons.inj heq
    exact Utf16.isLow_of_isHigh hhi

/-- A text stands for its result in UTF-8. -/
theorem UriText.standsFor (h : UriText [] l out) (hout : ∀ c ∈ Utf16.decode out, Scalar c) :
    Octets l (Utf8.encode (Utf16.decode out)) := by
  induction hn : l.length using Nat.strong_induction_on generalizing l out with
  | _ n ih =>
      cases h with
      | nil => exact .nil
      | @escaped c e w out hscalar he hw =>
          obtain ⟨e', rfl⟩ := he.head (Utf8.encodeChar_ne_nil c)
          rw [if_neg List.not_mem_nil, Utf16.decode_encodeChar hscalar] at hout ⊢
          have hrest := ih w.length (by simp at hn; omega) hw (List.forall_mem_cons.1 hout).2 rfl
          exact he.standsFor hrest
      | @raw unit w out hunit hw =>
          have hne : unit.toNat ≠ percent.toNat := fun heq => hunit (UInt16.toNat_inj.1 heq)
          by_cases hsplit : Utf16.splits [unit] out = true
          · -- Half a pair: the other half is the next unit, for no escape stands for it.
            obtain ⟨front, hi, lo, back, hfront, rfl, hhi, hlo⟩ := Utf16.exists_split hsplit
            obtain ⟨rfl⟩ : front = [] := by
              cases front with
              | nil => rfl
              | cons _ front => simp at hfront
            obtain rfl : unit = hi := by simpa using hfront
            rw [Utf16.decode_pair hhi hlo] at hout ⊢
            obtain ⟨hscalar, hback⟩ := List.forall_mem_cons.1 hout
            generalize hout' : lo :: back = out' at hw
            cases hw with
            | nil => cases hout'
            | @escaped c e w out hscalar' _ _ =>
                rw [if_neg List.not_mem_nil] at hout'
                rw [encodeChar_head hscalar' hout'.symm] at hlo
                cases hlo
            | @raw unit' w out _ hw =>
                obtain ⟨rfl, rfl⟩ := List.cons.inj hout'
                have hrest := ih w.length (by simp at hn; omega) hw hback rfl
                have hne' : Utf16.pair unit lo ≠ percent.toNat := by
                  have hge := Utf16.pair_ge unit lo
                  have hpercent : percent.toNat = 0x25 := rfl
                  omega
                have hchar := Octets.raw hscalar hne' hrest
                rw [Utf16.encodeChar_pair hhi hlo] at hchar
                exact hchar
          · rw [Utf16.decode_unit (Bool.not_eq_true _ ▸ hsplit)] at hout ⊢
            obtain ⟨hscalar, hout⟩ := List.forall_mem_cons.1 hout
            have hrest := ih w.length (by simp at hn; omega) hw hout rfl
            have hchar := Octets.raw hscalar hne hrest
            rw [Utf16.encodeChar_unit] at hchar
            exact hchar

theorem encodeChar_percent {w' : Units} (hc : c ≠ percent.toNat) (h : Scalar c)
    (heq : Utf16.encodeChar c ++ w = percent :: w') : False := by
  by_cases hlow : c < 0x10000
  · rw [Utf16.encodeChar, if_pos hlow] at heq
    have hvalue : (UInt16.ofNat c).toNat = c := UInt16.toNat_ofNat_of_lt' hlow
    exact hc (by rw [← (List.cons.inj heq).1, hvalue])
  · obtain ⟨hi, lo, hchar, hhi, -, -⟩ := Utf16.exists_pair (Nat.not_lt.1 hlow) (by
      unfold Scalar at h
      omega)
    rw [hchar] at heq
    rw [(List.cons.inj heq).1] at hhi
    cases hhi

/-- A text stands for one list of octets. -/
theorem Octets.unique {octets' : List Nat} (h : Octets w octets) (h' : Octets w octets') :
    octets = octets' := by
  induction h generalizing octets' with
  | nil =>
      generalize hw : ([] : Units) = w at h'
      cases h' with
      | nil => rfl
      | @raw c w _ hscalar =>
          have := congrArg Utf16.decode hw
          rw [Utf16.decode_encodeChar hscalar] at this
          cases this
      | escape => cases hw
  | @raw c w octets hscalar hne _ ih =>
      generalize hw : Utf16.encodeChar c ++ w = w' at h'
      cases h' with
      | nil =>
          have := congrArg Utf16.decode hw
          rw [Utf16.decode_encodeChar hscalar] at this
          cases this
      | @raw c' w' octets' hscalar' _ h' =>
          have hdecode := congrArg Utf16.decode hw
          rw [Utf16.decode_encodeChar hscalar, Utf16.decode_encodeChar hscalar'] at hdecode
          obtain ⟨rfl, -⟩ := List.cons.inj hdecode
          rw [List.append_cancel_left hw] at ih
          rw [ih h']
      | escape => exact (encodeChar_percent hne hscalar hw).elim
  | @escape hi lo high low w octets hhigh hlow _ ih =>
      generalize hw : percent :: hi :: lo :: w = w' at h'
      cases h' with
      | nil => cases hw
      | raw hscalar hne => exact (encodeChar_percent hne hscalar hw.symm).elim
      | escape hhigh' hlow' h' =>
          cases hw
          rw [hhigh] at hhigh'
          rw [hlow] at hlow'
          rw [Option.some.inj hhigh', Option.some.inj hlow', ih h']

end Slag.Global
