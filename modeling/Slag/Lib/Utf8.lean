import Slag.Lib.Utf16

/-!
UTF-8: the octets of a code point, and the strict decoder, which takes the shortest form
of a code point that is no surrogate and nothing else.
-/

namespace Slag.Utf8

open Utf16 (Scalar)

instance (c : Nat) : Decidable (Scalar c) := inferInstanceAs (Decidable (_ ∨ _))

def encodeChar (c : Nat) : List Nat :=
  if c < 0x80 then [c]
  else if c < 0x800 then [0xC0 + c / 0x40, 0x80 + c % 0x40]
  else if c < 0x10000 then [0xE0 + c / 0x1000, 0x80 + c / 0x40 % 0x40, 0x80 + c % 0x40]
  else [0xF0 + c / 0x40000, 0x80 + c / 0x1000 % 0x40, 0x80 + c / 0x40 % 0x40, 0x80 + c % 0x40]

/-- How many octets follow the first, its bits, and the least code point of that length. -/
def lead (b : Nat) : Option (Nat × Nat × Nat) :=
  if b < 0x80 then some (0, b, 0)
  else if b < 0xC0 then none
  else if b < 0xE0 then some (1, b - 0xC0, 0x80)
  else if b < 0xF0 then some (2, b - 0xE0, 0x800)
  else if b < 0xF8 then some (3, b - 0xF0, 0x10000)
  else none

def tails : Nat → Nat → List Nat → Option (Nat × List Nat)
  | 0, acc, l => some (acc, l)
  | _ + 1, _, [] => none
  | n + 1, acc, b :: l =>
      if 0x80 ≤ b ∧ b ≤ 0xBF then tails n (acc * 0x40 + (b - 0x80)) l else none

/-- The first code point of some octets, and the octets after it. -/
def decodeChar : List Nat → Option (Nat × List Nat)
  | [] => none
  | b :: l => do
      let (n, bits, least) ← lead b
      let (c, l) ← tails n bits l
      if least ≤ c ∧ Scalar c then some (c, l) else none

def decodeFrom : Nat → List Nat → Option (List Nat)
  | _, [] => some []
  | 0, _ => none
  | fuel + 1, l => do
      let (c, l) ← decodeChar l
      let chars ← decodeFrom fuel l
      return c :: chars

/-- The code points of well-formed octets. -/
def decode (octets : List Nat) : Option (List Nat) := decodeFrom octets.length octets

def encode (chars : List Nat) : List Nat := chars.flatMap encodeChar

variable {c : Nat} {l rest : List Nat}

theorem encodeChar_ne_nil (c : Nat) : encodeChar c ≠ [] := by
  unfold encodeChar
  split
  · exact List.cons_ne_nil _ _
  · split
    · exact List.cons_ne_nil _ _
    · split <;> exact List.cons_ne_nil _ _

variable {n acc : Nat}

theorem tails_zero (acc : Nat) (l : List Nat) : tails 0 acc l = some (acc, l) := rfl

theorem tails_cons {d : Nat} (hd : d < 0x40) (l : List Nat) :
    tails (n + 1) acc ((0x80 + d) :: l) = tails n (acc * 0x40 + d) l := by
  have htail : 0x80 ≤ 0x80 + d ∧ 0x80 + d ≤ 0xBF := ⟨by omega, by omega⟩
  rw [tails, if_pos htail, Nat.add_sub_cancel_left]

theorem tails_eq_some (h : tails (n + 1) acc l = some (c, rest)) :
    ∃ d l', d < 0x40 ∧ l = (0x80 + d) :: l' ∧ tails n (acc * 0x40 + d) l' = some (c, rest) := by
  cases l with
  | nil => cases h
  | cons b l =>
      rw [tails] at h
      split at h
      · rename_i htail
        exact ⟨b - 0x80, l, by omega, by rw [Nat.add_sub_cancel' htail.1], h⟩
      · cases h

/-! The octets of a code point: the lead, and its other bits six at a time. -/

section Shapes

variable {v d e g : Nat}

theorem encodeChar_two (hd : d < 0x40) (hlow : 0x80 ≤ v * 0x40 + d)
    (hhigh : v * 0x40 + d < 0x800) : encodeChar (v * 0x40 + d) = [0xC0 + v, 0x80 + d] := by
  have hv : (v * 0x40 + d) / 0x40 = v := by omega
  have hmod : (v * 0x40 + d) % 0x40 = d := by omega
  rw [encodeChar, if_neg (Nat.not_lt.2 hlow), if_pos hhigh, hv, hmod]

theorem encodeChar_three (hd : d < 0x40) (he : e < 0x40)
    (hlow : 0x800 ≤ (v * 0x40 + d) * 0x40 + e) (hhigh : (v * 0x40 + d) * 0x40 + e < 0x10000) :
    encodeChar ((v * 0x40 + d) * 0x40 + e) = [0xE0 + v, 0x80 + d, 0x80 + e] := by
  have hv : ((v * 0x40 + d) * 0x40 + e) / 0x1000 = v := by omega
  have hd : ((v * 0x40 + d) * 0x40 + e) / 0x40 % 0x40 = d := by omega
  have hmod : ((v * 0x40 + d) * 0x40 + e) % 0x40 = e := by omega
  rw [encodeChar, if_neg (Nat.not_lt.2 (by omega)), if_neg (Nat.not_lt.2 hlow), if_pos hhigh, hv, hd,
    hmod]

theorem encodeChar_four (hd : d < 0x40) (he : e < 0x40) (hg : g < 0x40)
    (hlow : 0x10000 ≤ ((v * 0x40 + d) * 0x40 + e) * 0x40 + g) :
    encodeChar (((v * 0x40 + d) * 0x40 + e) * 0x40 + g) =
      [0xF0 + v, 0x80 + d, 0x80 + e, 0x80 + g] := by
  have hv : (((v * 0x40 + d) * 0x40 + e) * 0x40 + g) / 0x40000 = v := by omega
  have hd : (((v * 0x40 + d) * 0x40 + e) * 0x40 + g) / 0x1000 % 0x40 = d := by omega
  have he : (((v * 0x40 + d) * 0x40 + e) * 0x40 + g) / 0x40 % 0x40 = e := by omega
  have hmod : (((v * 0x40 + d) * 0x40 + e) * 0x40 + g) % 0x40 = g := by omega
  rw [encodeChar, if_neg (Nat.not_lt.2 (by omega)), if_neg (Nat.not_lt.2 (by omega)),
    if_neg (Nat.not_lt.2 hlow), hv, hd, he, hmod]

/-- The lead octet of each length. -/
theorem lead_two (hv : v < 0x20) : lead (0xC0 + v) = some (1, v, 0x80) := by
  have h1 : ¬0xC0 + v < 0x80 := by omega
  have h2 : ¬0xC0 + v < 0xC0 := by omega
  have h3 : 0xC0 + v < 0xE0 := by omega
  rw [lead, if_neg h1, if_neg h2, if_pos h3, Nat.add_sub_cancel_left]

theorem lead_three (hv : v < 0x10) : lead (0xE0 + v) = some (2, v, 0x800) := by
  have h1 : ¬0xE0 + v < 0x80 := by omega
  have h2 : ¬0xE0 + v < 0xC0 := by omega
  have h3 : ¬0xE0 + v < 0xE0 := by omega
  have h4 : 0xE0 + v < 0xF0 := by omega
  rw [lead, if_neg h1, if_neg h2, if_neg h3, if_pos h4, Nat.add_sub_cancel_left]

theorem lead_four (hv : v < 8) : lead (0xF0 + v) = some (3, v, 0x10000) := by
  have h1 : ¬0xF0 + v < 0x80 := by omega
  have h2 : ¬0xF0 + v < 0xC0 := by omega
  have h3 : ¬0xF0 + v < 0xE0 := by omega
  have h4 : ¬0xF0 + v < 0xF0 := by omega
  have h5 : 0xF0 + v < 0xF8 := by omega
  rw [lead, if_neg h1, if_neg h2, if_neg h3, if_neg h4, if_pos h5, Nat.add_sub_cancel_left]

theorem lead_eq_some {b least : Nat} (h : lead b = some (n, v, least)) :
    (b < 0x80 ∧ n = 0 ∧ v = b ∧ least = 0) ∨ (v < 0x20 ∧ b = 0xC0 + v ∧ n = 1 ∧ least = 0x80) ∨
      (v < 0x10 ∧ b = 0xE0 + v ∧ n = 2 ∧ least = 0x800) ∨
      (v < 8 ∧ b = 0xF0 + v ∧ n = 3 ∧ least = 0x10000) := by
  simp only [lead] at h
  split at h
  · simp only [Option.some.injEq, Prod.mk.injEq] at h
    obtain ⟨rfl, rfl, rfl⟩ := h
    exact .inl ⟨‹_›, rfl, rfl, rfl⟩
  · split at h
    · cases h
    · split at h
      · simp only [Option.some.injEq, Prod.mk.injEq] at h
        obtain ⟨rfl, rfl, rfl⟩ := h
        exact .inr (.inl ⟨by omega, by omega, rfl, rfl⟩)
      · split at h
        · simp only [Option.some.injEq, Prod.mk.injEq] at h
          obtain ⟨rfl, rfl, rfl⟩ := h
          exact .inr (.inr (.inl ⟨by omega, by omega, rfl, rfl⟩))
        · split at h
          · simp only [Option.some.injEq, Prod.mk.injEq] at h
            obtain ⟨rfl, rfl, rfl⟩ := h
            exact .inr (.inr (.inr ⟨by omega, by omega, rfl, rfl⟩))
          · cases h

end Shapes

theorem decodeChar_cons {b bits least : Nat} {l l' : List Nat} (hlead : lead b = some (n, bits, least))
    (htails : tails n bits l = some (c, l')) (hleast : least ≤ c) (h : Scalar c) :
    decodeChar (b :: l) = some (c, l') := by
  simp only [decodeChar, hlead, htails, Option.bind_eq_bind, Option.bind_some]
  exact if_pos ⟨hleast, h⟩

theorem decodeChar_encodeChar (h : Scalar c) (rest : List Nat) :
    decodeChar (encodeChar c ++ rest) = some (c, rest) := by
  have hmax : c < 0x110000 := by
    unfold Scalar at h
    omega
  by_cases h1 : c < 0x80
  · rw [encodeChar, if_pos h1]
    exact decodeChar_cons (if_pos h1) (tails_zero c rest) (Nat.zero_le c) h
  · by_cases h2 : c < 0x800
    · obtain ⟨v, d, hd, rfl⟩ : ∃ v d, d < 0x40 ∧ c = v * 0x40 + d :=
        ⟨c / 0x40, c % 0x40, by omega, by omega⟩
      rw [encodeChar_two hd (Nat.not_lt.1 h1) h2, List.cons_append, List.cons_append,
        List.nil_append]
      refine decodeChar_cons (lead_two (by omega)) ?_ (Nat.not_lt.1 h1) h
      rw [tails_cons hd, tails_zero]
    · by_cases h3 : c < 0x10000
      · obtain ⟨v, d, e, hd, he, rfl⟩ : ∃ v d e, d < 0x40 ∧ e < 0x40 ∧
            c = (v * 0x40 + d) * 0x40 + e :=
          ⟨c / 0x1000, c / 0x40 % 0x40, c % 0x40, by omega, by omega, by omega⟩
        rw [encodeChar_three hd he (Nat.not_lt.1 h2) h3, List.cons_append, List.cons_append,
          List.cons_append, List.nil_append]
        refine decodeChar_cons (lead_three (by omega)) ?_ (Nat.not_lt.1 h2) h
        rw [tails_cons hd, tails_cons he, tails_zero]
      · obtain ⟨v, d, e, g, hd, he, hg, rfl⟩ : ∃ v d e g, d < 0x40 ∧ e < 0x40 ∧ g < 0x40 ∧
            c = ((v * 0x40 + d) * 0x40 + e) * 0x40 + g :=
          ⟨c / 0x40000, c / 0x1000 % 0x40, c / 0x40 % 0x40, c % 0x40, by omega, by omega, by omega,
            by omega⟩
        rw [encodeChar_four hd he hg (Nat.not_lt.1 h3), List.cons_append, List.cons_append,
          List.cons_append, List.cons_append, List.nil_append]
        refine decodeChar_cons (lead_four (by omega)) ?_ (Nat.not_lt.1 h3) h
        rw [tails_cons hd, tails_cons he, tails_cons hg, tails_zero]

/-- What is decoded is the shortest form of a code point that is no surrogate. -/
theorem decodeChar_eq_some (h : decodeChar l = some (c, rest)) :
    Scalar c ∧ l = encodeChar c ++ rest := by
  cases l with
  | nil => cases h
  | cons b l =>
      simp only [decodeChar, Option.bind_eq_bind, Option.bind_eq_some_iff] at h
      obtain ⟨⟨n, v, least⟩, hlead, ⟨c', l'⟩, htails, h⟩ := h
      simp only at htails h
      split at h
      · rename_i hleast
        cases h
        obtain ⟨hleast, hscalar⟩ := hleast
        refine ⟨hscalar, ?_⟩
        have hmax : c < 0x110000 := by
          unfold Scalar at hscalar
          omega
        rcases lead_eq_some hlead with ⟨hb, rfl, rfl, rfl⟩ | ⟨hv, rfl, rfl, rfl⟩ |
          ⟨hv, rfl, rfl, rfl⟩ | ⟨hv, rfl, rfl, rfl⟩
        · cases htails
          rw [encodeChar, if_pos hb]
          rfl
        · obtain ⟨d, l₁, hd, rfl, h₁⟩ := tails_eq_some htails
          obtain ⟨rfl, rfl⟩ := Prod.mk.inj (Option.some.inj h₁)
          rw [encodeChar_two hd hleast (by omega)]
          rfl
        · obtain ⟨d, l₁, hd, rfl, h₁⟩ := tails_eq_some htails
          obtain ⟨e, l₂, he, rfl, h₂⟩ := tails_eq_some h₁
          obtain ⟨rfl, rfl⟩ := Prod.mk.inj (Option.some.inj h₂)
          rw [encodeChar_three hd he hleast (by omega)]
          rfl
        · obtain ⟨d, l₁, hd, rfl, h₁⟩ := tails_eq_some htails
          obtain ⟨e, l₂, he, rfl, h₂⟩ := tails_eq_some h₁
          obtain ⟨g, l₃, hg, rfl, h₃⟩ := tails_eq_some h₂
          obtain ⟨rfl, rfl⟩ := Prod.mk.inj (Option.some.inj h₃)
          rw [encodeChar_four hd he hg hleast]
          rfl
      · cases h

theorem encode_eq_nil {chars : List Nat} (h : encode chars = []) : chars = [] := by
  cases chars with
  | nil => rfl
  | cons c chars => exact absurd (List.append_eq_nil_iff.1 h).1 (encodeChar_ne_nil c)

theorem decodeFrom_eq_some {fuel : Nat} {chars : List Nat} (hfuel : l.length ≤ fuel) :
    decodeFrom fuel l = some chars ↔ (∀ c ∈ chars, Scalar c) ∧ l = encode chars := by
  induction fuel generalizing l chars with
  | zero =>
      obtain rfl := List.length_eq_zero_iff.1 (Nat.le_zero.1 hfuel)
      rw [decodeFrom, Option.some.injEq]
      constructor
      · rintro rfl
        exact ⟨nofun, rfl⟩
      · rintro ⟨-, hnil⟩
        exact (encode_eq_nil hnil.symm).symm
  | succ fuel ih =>
      cases l with
      | nil =>
          rw [decodeFrom, Option.some.injEq]
          constructor
          · rintro rfl
            exact ⟨nofun, rfl⟩
          · rintro ⟨-, hnil⟩
            exact (encode_eq_nil hnil.symm).symm
      | cons b l =>
          simp only [decodeFrom, Option.bind_eq_bind, Option.bind_eq_some_iff, Option.pure_def,
            Option.some.injEq]
          constructor
          · rintro ⟨⟨c, rest⟩, hchar, chars, hrest, rfl⟩
            obtain ⟨hc, hl⟩ := decodeChar_eq_some hchar
            have hshort : rest.length ≤ fuel := by
              have hpos := List.length_pos_of_ne_nil (encodeChar_ne_nil c)
              have hlength := congrArg List.length hl
              rw [List.length_append] at hlength
              omega
            obtain ⟨hchars, rfl⟩ := (ih hshort).1 hrest
            exact ⟨List.forall_mem_cons.2 ⟨hc, hchars⟩, hl⟩
          · rintro ⟨hchars, hl⟩
            cases chars with
            | nil => cases hl
            | cons c chars =>
                obtain ⟨hc, hchars⟩ := List.forall_mem_cons.1 hchars
                have hcons : b :: l = encodeChar c ++ encode chars := hl
                have hshort : (encode chars).length ≤ fuel := by
                  have hpos := List.length_pos_of_ne_nil (encodeChar_ne_nil c)
                  have hlength := congrArg List.length hcons
                  rw [List.length_append] at hlength
                  omega
                refine ⟨(c, encode chars), ?_, chars, (ih hshort).2 ⟨hchars, rfl⟩, rfl⟩
                rw [hcons]
                exact decodeChar_encodeChar hc _

theorem decode_eq_some {chars : List Nat} :
    decode l = some chars ↔ (∀ c ∈ chars, Scalar c) ∧ l = encode chars :=
  decodeFrom_eq_some (Nat.le_refl _)

end Slag.Utf8
