import Mathlib.Data.List.Basic
import Mathlib.Data.List.Chain
import Mathlib.Data.List.Forall2

/-!
Code units and the code points they stand for. A surrogate that is no half of a
pair stands for itself.
-/

namespace Slag.Utf16

def isHigh (u : UInt16) : Bool := 0xD800 ≤ u && u ≤ 0xDBFF

def isLow (u : UInt16) : Bool := 0xDC00 ≤ u && u ≤ 0xDFFF

/-- The code point of a surrogate pair. -/
def pair (hi lo : UInt16) : Nat :=
  0x10000 + (hi.toNat - 0xD800) * 0x400 + (lo.toNat - 0xDC00)

def decode : List UInt16 → List Nat
  | [] => []
  | [u] => [u.toNat]
  | hi :: lo :: rest =>
      if isHigh hi && isLow lo then pair hi lo :: decode rest
      else hi.toNat :: decode (lo :: rest)

def encodeChar (c : Nat) : List UInt16 :=
  if c < 0x10000 then [UInt16.ofNat c]
  else [UInt16.ofNat (0xD800 + (c - 0x10000) / 0x400),
    UInt16.ofNat (0xDC00 + (c - 0x10000) % 0x400)]

def encode (chars : List Nat) : List UInt16 :=
  chars.flatMap encodeChar

/-- The edge between two texts lies inside a surrogate pair. -/
def splits (left right : List UInt16) : Bool :=
  left.getLast?.any isHigh && right.head?.any isLow

variable {u hi lo : UInt16} {left right rest : List UInt16}

theorem isHigh_iff : isHigh u = true ↔ 0xD800 ≤ u.toNat ∧ u.toNat ≤ 0xDBFF := by
  simp only [isHigh, Bool.and_eq_true, decide_eq_true_eq, UInt16.le_iff_toNat_le]
  rfl

theorem isLow_iff : isLow u = true ↔ 0xDC00 ≤ u.toNat ∧ u.toNat ≤ 0xDFFF := by
  simp only [isLow, Bool.and_eq_true, decide_eq_true_eq, UInt16.le_iff_toNat_le]
  rfl

theorem isLow_of_isHigh (h : isHigh u = true) : isLow u = false := by
  rw [isHigh_iff] at h
  rw [← Bool.not_eq_true, isLow_iff]
  omega

theorem isHigh_of_isLow (h : isLow u = true) : isHigh u = false := by
  rw [isLow_iff] at h
  rw [← Bool.not_eq_true, isHigh_iff]
  omega

theorem pair_ge (hi lo : UInt16) : 0x10000 ≤ pair hi lo := by
  unfold pair
  omega

theorem decode_pair (hhi : isHigh hi = true) (hlo : isLow lo = true) (rest : List UInt16) :
    decode (hi :: lo :: rest) = pair hi lo :: decode rest := by
  rw [decode, hhi, hlo]
  rfl

theorem decode_unit (h : splits [u] rest = false) :
    decode (u :: rest) = u.toNat :: decode rest := by
  cases rest with
  | nil => rfl
  | cons lo rest =>
      have hpair : (isHigh u && isLow lo) = false := h
      rw [decode, hpair]
      rfl

theorem splits_append_left (front : List UInt16) (h : left ≠ []) :
    splits (front ++ left) right = splits left right := by
  rw [splits, splits, List.getLast?_append_of_ne_nil front h]

theorem splits_append_right (back : List UInt16) (h : right ≠ []) :
    splits left (right ++ back) = splits left right := by
  rw [splits, splits, List.head?_append_of_ne_nil right h]

theorem splits_of_isHigh (h : isHigh u = true) : splits left (u :: right) = false := by
  simp only [splits, List.head?_cons, Option.any_some, isLow_of_isHigh h, Bool.and_false]

/-- Texts that do not meet inside a pair are decoded one after the other. -/
theorem decode_append (h : splits left right = false) :
    decode (left ++ right) = decode left ++ decode right := by
  induction left using decode.induct with
  | case1 => rfl
  | case2 u => exact decode_unit h
  | case3 hi lo rest hpair ih =>
      rw [Bool.and_eq_true] at hpair
      have hrest : splits rest right = false := by
        cases rest with
        | nil => rfl
        | cons v rest => exact h
      rw [List.cons_append, List.cons_append, decode_pair hpair.1 hpair.2,
        decode_pair hpair.1 hpair.2, ih hrest, List.cons_append]
  | case4 hi lo rest hpair ih =>
      have hunit : splits [hi] (lo :: rest) = false := Bool.not_eq_true _ ▸ hpair
      have hrest : splits (lo :: rest) right = false := h
      have happend : splits [hi] (lo :: rest ++ right) = false := hunit
      rw [decode_unit hunit]
      exact (decode_unit happend).trans (congrArg (List.cons hi.toNat) (ih hrest))

/-- Texts that meet inside a pair. -/
theorem decode_split (hhi : isHigh hi = true) (hlo : isLow lo = true) :
    decode (left ++ hi :: lo :: right) = decode left ++ pair hi lo :: decode right := by
  rw [decode_append (splits_of_isHigh hhi), decode_pair hhi hlo]

theorem exists_split (h : splits left right = true) :
    ∃ front hi lo back, left = front ++ [hi] ∧ right = lo :: back ∧ isHigh hi = true ∧
      isLow lo = true := by
  simp only [splits, Bool.and_eq_true, Option.any_eq_true] at h
  obtain ⟨⟨hi, hlast, hhi⟩, lo, hhead, hlo⟩ := h
  obtain ⟨front, rfl⟩ := List.getLast?_eq_some_iff.mp hlast
  obtain ⟨back, rfl⟩ := List.head?_eq_some_iff.mp hhead
  exact ⟨front, hi, lo, back, rfl, rfl, hhi, hlo⟩

theorem decode_last (hhi : isHigh hi = true) :
    decode (left ++ [hi]) = decode left ++ [hi.toNat] :=
  decode_append (splits_of_isHigh hhi)

theorem decode_low (hlo : isLow lo = true) :
    decode (lo :: right) = lo.toNat :: decode right := by
  apply decode_unit
  simp only [splits, List.getLast?_singleton, Option.any_some, isHigh_of_isLow hlo,
    Bool.false_and]

theorem encodeChar_unit (u : UInt16) : encodeChar u.toNat = [u] := by
  rw [encodeChar, if_pos u.toNat_lt, UInt16.ofNat_toNat]

theorem encodeChar_pair (hhi : isHigh hi = true) (hlo : isLow lo = true) :
    encodeChar (pair hi lo) = [hi, lo] := by
  rw [isHigh_iff] at hhi
  rw [isLow_iff] at hlo
  have hhigh : 0xD800 + (pair hi lo - 0x10000) / 0x400 = hi.toNat := by
    unfold pair
    omega
  have hlow : 0xDC00 + (pair hi lo - 0x10000) % 0x400 = lo.toNat := by
    unfold pair
    omega
  rw [encodeChar, if_neg (Nat.not_lt.mpr (pair_ge hi lo)), hhigh, hlow, UInt16.ofNat_toNat,
    UInt16.ofNat_toNat]

/-- Every text comes back from its code points. -/
theorem encode_decode (units : List UInt16) : encode (decode units) = units := by
  induction units using decode.induct with
  | case1 => rfl
  | case2 u => exact (List.flatMap_singleton encodeChar _).trans (encodeChar_unit u)
  | case3 hi lo rest hpair ih =>
      rw [Bool.and_eq_true] at hpair
      rw [decode_pair hpair.1 hpair.2, encode, List.flatMap_cons, encodeChar_pair hpair.1 hpair.2]
      exact congrArg (fun rest => hi :: lo :: rest) ih
  | case4 hi lo rest hpair ih =>
      have hunit : splits [hi] (lo :: rest) = false := Bool.not_eq_true _ ▸ hpair
      rw [decode_unit hunit, encode, List.flatMap_cons, encodeChar_unit]
      exact congrArg (List.cons hi) ih

theorem encode_append (front back : List Nat) :
    encode (front ++ back) = encode front ++ encode back :=
  List.flatMap_append

/-- A code point that is no surrogate. -/
def Scalar (c : Nat) : Prop :=
  c < 0xD800 ∨ 0xDFFF < c ∧ c < 0x110000

theorem pair_lt (hhi : isHigh hi = true) (hlo : isLow lo = true) : pair hi lo < 0x110000 := by
  rw [isHigh_iff] at hhi
  rw [isLow_iff] at hlo
  unfold pair
  omega

theorem decode_lt {c : Nat} {units : List UInt16} (h : c ∈ decode units) : c < 0x110000 := by
  induction units using decode.induct with
  | case1 => cases h
  | case2 u =>
      have hc : c = u.toNat := List.mem_singleton.mp h
      have hlt := u.toNat_lt
      omega
  | case3 hi lo rest hpair ih =>
      rw [Bool.and_eq_true] at hpair
      rw [decode_pair hpair.1 hpair.2, List.mem_cons] at h
      cases h with
      | inl h => exact h ▸ pair_lt hpair.1 hpair.2
      | inr h => exact ih h
  | case4 hi lo rest hpair ih =>
      have hunit : splits [hi] (lo :: rest) = false := Bool.not_eq_true _ ▸ hpair
      rw [decode_unit hunit, List.mem_cons] at h
      cases h with
      | inl h =>
          have hlt := hi.toNat_lt
          omega
      | inr h => exact ih h

theorem head?_decode {c : Nat} {units : List UInt16} (h : (decode units).head? = some c) :
    c < 0x10000 → units.head?.map UInt16.toNat = some c := by
  intro hc
  fun_cases decode units with
  | case1 => cases h
  | case2 u => exact h
  | case3 hi lo rest hpair =>
      rw [Bool.and_eq_true] at hpair
      rw [decode_pair hpair.1 hpair.2, List.head?_cons, Option.some.injEq] at h
      have hge := pair_ge hi lo
      omega
  | case4 hi lo rest hpair =>
      have hunit : splits [hi] (lo :: rest) = false := Bool.not_eq_true _ ▸ hpair
      rw [decode_unit hunit] at h
      exact h

/-- No code points are the halves of a pair, one after the other. -/
theorem decode_chain (units : List UInt16) :
    (decode units).IsChain fun c d =>
      0xD800 ≤ c ∧ c ≤ 0xDBFF → ¬ (0xDC00 ≤ d ∧ d ≤ 0xDFFF) := by
  induction units using decode.induct with
  | case1 => exact .nil
  | case2 u => exact .singleton u.toNat
  | case3 hi lo rest hpair ih =>
      rw [Bool.and_eq_true] at hpair
      rw [decode_pair hpair.1 hpair.2, List.isChain_cons]
      refine ⟨fun d _ hlead => ?_, ih⟩
      have hge := pair_ge hi lo
      omega
  | case4 hi lo rest hpair ih =>
      have hunit : splits [hi] (lo :: rest) = false := Bool.not_eq_true _ ▸ hpair
      rw [decode_unit hunit, List.isChain_cons]
      refine ⟨fun d hd hlead htrail => ?_, ih⟩
      have hlo : lo.toNat = d := Option.some.inj (head?_decode hd (by omega))
      refine hpair (Bool.and_eq_true_iff.mpr ⟨isHigh_iff.mpr hlead, isLow_iff.mpr ?_⟩)
      rw [hlo]
      exact htrail

/-- The units of a code point beyond the basic plane are a pair. -/
theorem exists_pair {c : Nat} (hlow : 0x10000 ≤ c) (hhigh : c < 0x110000) :
    ∃ hi lo, encodeChar c = [hi, lo] ∧ isHigh hi = true ∧ isLow lo = true ∧ pair hi lo = c := by
  have hhi : (UInt16.ofNat (0xD800 + (c - 0x10000) / 0x400)).toNat =
      0xD800 + (c - 0x10000) / 0x400 := UInt16.toNat_ofNat_of_lt' (by
    change _ < 65536
    omega)
  have hlo : (UInt16.ofNat (0xDC00 + (c - 0x10000) % 0x400)).toNat =
      0xDC00 + (c - 0x10000) % 0x400 := UInt16.toNat_ofNat_of_lt' (by
    change _ < 65536
    omega)
  refine ⟨_, _, if_neg (Nat.not_lt.mpr hlow), ?_, ?_, ?_⟩
  · rw [isHigh_iff, hhi]
    omega
  · rw [isLow_iff, hlo]
    omega
  · unfold pair
    omega

theorem decode_encodeChar {c : Nat} (h : Scalar c) (rest : List UInt16) :
    decode (encodeChar c ++ rest) = c :: decode rest := by
  by_cases hc : c < 0x10000
  · have hunit : (UInt16.ofNat c).toNat = c := UInt16.toNat_ofNat_of_lt' hc
    have hhigh : isHigh (UInt16.ofNat c) = false := by
      rw [← Bool.not_eq_true, isHigh_iff, hunit]
      unfold Scalar at h
      omega
    have hedge : splits [UInt16.ofNat c] rest = false := by
      simp only [splits, List.getLast?_singleton, Option.any_some, hhigh, Bool.false_and]
    rw [encodeChar, if_pos hc]
    exact (decode_unit hedge).trans (congrArg (List.cons · _) hunit)
  · have hbound : c < 0x110000 := by
      unfold Scalar at h
      omega
    obtain ⟨hi, lo, hchar, hhi, hlo, hpair⟩ := exists_pair (Nat.not_lt.mp hc) hbound
    rw [hchar, List.cons_append, List.cons_append, List.nil_append, decode_pair hhi hlo, hpair]

/-- Code points without surrogates come back from their units. -/
theorem decode_encode {chars : List Nat} (h : ∀ c ∈ chars, Scalar c) :
    decode (encode chars) = chars := by
  induction chars with
  | nil => rfl
  | cons c chars ih =>
      rw [encode, List.flatMap_cons, decode_encodeChar (h c List.mem_cons_self)]
      exact congrArg (List.cons c) (ih fun d hd => h d (List.mem_cons_of_mem c hd))

/-- A map of code points that keeps surrogates and planes, as case folding does. -/
structure Folding (fold : Nat → Nat) : Prop where
  surrogate : ∀ c u, 0xD800 ≤ u → u ≤ 0xDFFF → (fold c = u ↔ c = u)
  plane : ∀ c, fold c < 0x10000 ↔ c < 0x10000

/-- Code points that agree, unit by unit, once the units are folded. -/
def Agree (fold : Nat → Nat) (c d : Nat) : Prop :=
  fold c = fold d ∧ (0x10000 ≤ c → c = d)

theorem Folding.id : Folding id :=
  ⟨fun _ _ _ _ => Iff.rfl, fun _ => Iff.rfl⟩

variable {fold : Nat → Nat} {a b : List UInt16}

theorem Folding.unit_eq (hfold : Folding fold) {x y : UInt16}
    (hx : isHigh x = true ∨ isLow x = true) (h : fold x.toNat = fold y.toNat) : x = y := by
  rw [isHigh_iff, isLow_iff] at hx
  have hself : fold x.toNat = x.toNat :=
    (hfold.surrogate x.toNat x.toNat (by omega) (by omega)).mpr rfl
  have hsame := (hfold.surrogate y.toNat x.toNat (by omega) (by omega)).mp (h.symm.trans hself)
  exact UInt16.toNat_inj.mp hsame.symm

/-- Half of a pair is not folded like a whole one. -/
theorem Folding.ne_pair (hfold : Folding fold) : fold u.toNat ≠ fold (pair hi lo) := by
  intro heq
  have hpair := (hfold.plane (pair hi lo)).mp (heq ▸ (hfold.plane u.toNat).mpr u.toNat_lt)
  exact absurd (pair_ge hi lo) (Nat.not_le.mpr hpair)

/-- Texts whose units agree have code points that agree. -/
theorem Folding.decode_agree (hfold : Folding fold)
    (h : a.map (fun u => fold u.toNat) = b.map fun u => fold u.toNat) :
    List.Forall₂ (Agree fold) (decode a) (decode b) := by
  have hunit : ∀ {x y : UInt16}, fold x.toNat = fold y.toNat → Agree fold x.toNat y.toNat :=
    fun {x _} heq => ⟨heq, fun hge => absurd x.toNat_lt (Nat.not_lt.mpr hge)⟩
  induction a using decode.induct generalizing b with
  | case1 =>
      obtain rfl := List.map_eq_nil_iff.mp h.symm
      exact .nil
  | case2 x =>
      obtain ⟨y, rest, rfl, heq, hrest⟩ := List.map_eq_cons_iff.mp h.symm
      obtain rfl := List.map_eq_nil_iff.mp hrest
      exact .cons (hunit heq.symm) .nil
  | case3 hi lo rest hpair ih =>
      rw [Bool.and_eq_true] at hpair
      obtain ⟨x, other, rfl, hx, hother⟩ := List.map_eq_cons_iff.mp h.symm
      obtain ⟨y, tail, rfl, hy, htail⟩ := List.map_eq_cons_iff.mp hother
      obtain rfl := hfold.unit_eq (.inl hpair.1) hx.symm
      obtain rfl := hfold.unit_eq (.inr hpair.2) hy.symm
      rw [decode_pair hpair.1 hpair.2, decode_pair hpair.1 hpair.2]
      exact .cons ⟨rfl, fun _ => rfl⟩ (ih htail.symm)
  | case4 hi lo rest hpair ih =>
      obtain ⟨x, other, rfl, hx, hother⟩ := List.map_eq_cons_iff.mp h.symm
      obtain ⟨y, tail, rfl, hy, -⟩ := List.map_eq_cons_iff.mp hother
      have hunit' : splits [hi] (lo :: rest) = false := Bool.not_eq_true _ ▸ hpair
      have hother' : splits [x] (y :: tail) = false := by
        rw [← Bool.not_eq_true]
        intro hsplit
        obtain ⟨hhi, hlo⟩ := Bool.and_eq_true_iff.mp hsplit
        have hxhi : x = hi := hfold.unit_eq (.inl hhi) hx
        have hylo : y = lo := hfold.unit_eq (.inr hlo) hy
        rw [hxhi, hylo] at hsplit
        exact absurd hsplit (Bool.not_eq_true _ ▸ hunit')
      rw [decode_unit hunit', decode_unit hother']
      exact .cons (hunit hx.symm) (ih hother.symm)

theorem Folding.encode_agree (hfold : Folding fold) {front back : List Nat}
    (h : List.Forall₂ (Agree fold) front back) :
    (encode front).map (fun u => fold u.toNat) = (encode back).map fun u => fold u.toNat := by
  induction h with
  | nil => rfl
  | @cons c d front back hhead _ ih =>
      have hchar : (encodeChar c).map (fun u => fold u.toNat) =
          (encodeChar d).map fun u => fold u.toNat := by
        by_cases hc : c < 0x10000
        · have hd : d < 0x10000 := (hfold.plane d).mp (hhead.1 ▸ (hfold.plane c).mpr hc)
          rw [encodeChar, if_pos hc, encodeChar, if_pos hd, List.map_singleton,
            List.map_singleton, UInt16.toNat_ofNat_of_lt' hc, UInt16.toNat_ofNat_of_lt' hd, hhead.1]
        · rw [hhead.2 (Nat.not_lt.mp hc)]
      simp only [encode, List.flatMap_cons, List.map_append] at ih ⊢
      rw [hchar, ih]

end Slag.Utf16
