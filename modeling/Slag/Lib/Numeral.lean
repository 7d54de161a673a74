import Mathlib.Data.List.DropRight
import Mathlib.Data.Nat.Digits.Lemmas
import Mathlib.Data.Rat.Cast.Order
import Mathlib.Tactic.FieldSimp
import Mathlib.Tactic.Positivity
import Mathlib.Tactic.Ring

/-!
Positional numerals: the number that a list of digits denotes, the digits of a
number, and their characters in the bases up to 36.
-/

namespace Slag.Numeral

/-- The number of some digits, most significant first. -/
def value (base : Nat) (digits : List Nat) : Nat := digits.foldl (fun acc d => acc * base + d) 0

/-- The digits of a number, most significant first. Zero has none. -/
def digits (base n : Nat) : List Nat := (Nat.digits base n).reverse

@[simp] theorem value_nil (base : Nat) : value base [] = 0 := rfl

theorem value_eq_ofDigits (base : Nat) (ds : List Nat) :
    value base ds = Nat.ofDigits base ds.reverse := by
  rw [Nat.ofDigits_eq_foldr, List.foldr_reverse]
  unfold value
  congr 1
  funext acc d
  simp only [Nat.cast_id]
  ring

theorem value_append (base : Nat) (xs ys : List Nat) :
    value base (xs ++ ys) = value base xs * base ^ ys.length + value base ys := by
  simp only [value_eq_ofDigits, List.reverse_append, Nat.ofDigits_append, List.length_reverse]
  ring

@[simp] theorem value_singleton (base d : Nat) : value base [d] = d := by simp [value]

theorem value_cons (base d : Nat) (ds : List Nat) :
    value base (d :: ds) = d * base ^ ds.length + value base ds := by
  rw [← List.singleton_append, value_append, value_singleton]

theorem value_concat (base d : Nat) (ds : List Nat) :
    value base (ds ++ [d]) = value base ds * base + d := by
  rw [value_append, value_singleton, List.length_singleton, pow_one]

@[simp] theorem value_replicate_zero (base n : Nat) : value base (List.replicate n 0) = 0 := by
  induction n with
  | zero => rfl
  | succ n ih => rw [List.replicate_succ, value_cons, ih, Nat.zero_mul]

variable {base : Nat} {ds : List Nat}

theorem value_lt (hd : ∀ d ∈ ds, d < base) :
    value base ds < base ^ ds.length := by
  rcases Nat.lt_or_ge 1 base with hbase | hbase
  · rw [value_eq_ofDigits, ← List.length_reverse]
    exact Nat.ofDigits_lt_base_pow_length hbase fun d h => hd d (List.mem_reverse.mp h)
  · cases ds with
    | nil => exact Nat.one_pos
    | cons d ds =>
        have hzero := hd d List.mem_cons_self
        have hall : ∀ e ∈ d :: ds, e = 0 := fun e he => by
          have := hd e he
          omega
        rw [List.eq_replicate_of_mem hall, value_replicate_zero]
        exact Nat.pow_pos (by omega)

theorem value_digits (base n : Nat) : value base (digits base n) = n := by
  rw [value_eq_ofDigits, digits, List.reverse_reverse, Nat.ofDigits_digits]

theorem digits_lt {base n d : Nat} (hbase : 1 < base) (hd : d ∈ digits base n) : d < base :=
  Nat.digits_lt_base hbase (List.mem_reverse.mp hd)

@[simp] theorem digits_zero (base : Nat) : digits base 0 = [] := by simp [digits]

theorem digits_head_ne_zero {base n d : Nat} (h : digits base n = d :: ds) : d ≠ 0 := by
  have hreverse : Nat.digits base n = ds.reverse ++ [d] := by
    rw [← List.reverse_cons, ← h, digits, List.reverse_reverse]
  have hne : n ≠ 0 := by
    rintro rfl
    simp at hreverse
  have hlast := Nat.getLast_digit_ne_zero base hne
  simpa [hreverse] using hlast

theorem digits_ne_nil {base n : Nat} (hn : n ≠ 0) : digits base n ≠ [] := by
  simpa [digits, Nat.digits_ne_nil_iff_ne_zero] using hn

/-- The number of digits. -/
theorem lt_pow_length_digits (hbase : 1 < base) (n : Nat) :
    n < base ^ (digits base n).length := by
  rw [digits, List.length_reverse]
  exact Nat.lt_base_pow_length_digits hbase

theorem pow_length_digits_le (base : Nat) {n : Nat} (hn : n ≠ 0) :
    base ^ ((digits base n).length - 1) ≤ n := by
  cases h : digits base n with
  | nil => exact absurd h (digits_ne_nil hn)
  | cons d ds =>
      have hpos := Nat.pos_of_ne_zero (digits_head_ne_zero h)
      calc base ^ ((d :: ds).length - 1) = base ^ ds.length := rfl
        _ ≤ d * base ^ ds.length := Nat.le_mul_of_pos_left _ hpos
        _ ≤ value base (d :: ds) := by rw [value_cons]; exact Nat.le_add_right _ _
        _ = n := by rw [← h, value_digits]

theorem length_digits {base n k : Nat} (hbase : 1 < base) (hlo : base ^ k ≤ n)
    (hhi : n < base ^ (k + 1)) : (digits base n).length = k + 1 := by
  have hn : n ≠ 0 := Nat.ne_of_gt (Nat.lt_of_lt_of_le (Nat.pow_pos (by omega)) hlo)
  have hupper := lt_pow_length_digits hbase n
  have hlower := pow_length_digits_le base hn
  have hk := (Nat.pow_lt_pow_iff_right hbase).mp (Nat.lt_of_le_of_lt hlo hupper)
  have hk' := (Nat.pow_lt_pow_iff_right hbase).mp (Nat.lt_of_le_of_lt hlower hhi)
  omega

def digitChar (d : Nat) : Char :=
  if d < 10 then Char.ofNat (0x30 + d) else Char.ofNat (0x61 + (d - 10))

def charDigit (c : Char) : Option Nat :=
  if '0' ≤ c ∧ c ≤ '9' then some (c.toNat - 0x30)
  else if 'a' ≤ c ∧ c ≤ 'z' then some (c.toNat - 0x61 + 10)
  else none

theorem charDigit_digitChar {d : Nat} (hd : d < 36) : charDigit (digitChar d) = some d := by
  decide +revert

theorem digitChar_eq_zero {d : Nat} (hd : d < 36) : digitChar d = '0' ↔ d = 0 := by
  decide +revert

theorem digitChar_ne_point {d : Nat} (hd : d < 36) : digitChar d ≠ '.' := by
  decide +revert

/-- The text of a number; zero is a single digit. -/
def text (base n : Nat) : List Char :=
  if n = 0 then ['0'] else (digits base n).map digitChar

def digitOf (base : Nat) (c : Char) : Option Nat := (charDigit c).filter (· < base)

/-- The number of a nonempty text of digits. -/
def parse (base : Nat) (text : List Char) : Option Nat :=
  if text = [] then none else (text.mapM (digitOf base)).map (value base)

theorem mapM_digitOf (hd : ∀ d ∈ ds, d < base) (hbase : base ≤ 36) :
    (ds.map digitChar).mapM (digitOf base) = some ds := by
  induction ds with
  | nil => rfl
  | cons d ds ih =>
      have hlt := hd d List.mem_cons_self
      have hdigit : digitOf base (digitChar d) = some d := by
        simp [digitOf, charDigit_digitChar (Nat.lt_of_lt_of_le hlt hbase), hlt]
      simp [hdigit, ih fun e he => hd e (List.mem_cons_of_mem d he)]

theorem charDigit_of_mem_text {base n : Nat} (hlo : 1 < base) (hhi : base ≤ 36) {c : Char}
    (hc : c ∈ text base n) : (charDigit c).isSome = true := by
  unfold text at hc
  split at hc
  · obtain rfl := List.mem_singleton.mp hc
    decide
  · obtain ⟨d, hd, rfl⟩ := List.mem_map.mp hc
    have hlt := digits_lt hlo hd
    rw [charDigit_digitChar (by omega)]
    rfl

theorem parse_text (hlo : 1 < base) (hhi : base ≤ 36) (n : Nat) :
    parse base (text base n) = some n := by
  unfold parse text
  by_cases hn : n = 0
  · subst hn
    have hdigits : (['0'] : List Char) = [0].map digitChar := by decide
    rw [if_pos rfl, hdigits, mapM_digitOf (by simp; omega) hhi]
    simp
  · rw [if_neg hn, mapM_digitOf (fun d => digits_lt hlo) hhi]
    simp [digits_ne_nil hn, value_digits]

/-- The number of a text with or without a point. -/
def parsePoint (base : Nat) (text : List Char) : Option ℚ :=
  let int := text.takeWhile (· ≠ '.')
  match text.dropWhile (· ≠ '.') with
  | [] => (parse base int).map fun n : Nat => (n : ℚ)
  | _ :: frac =>
    (parse base int).bind fun i =>
      (parse base frac).map fun f : Nat => (i + f / base ^ frac.length : ℚ)

/-- A text that denotes a number exactly, without zeros at its ends. -/
structure Denotes (base : Nat) (v : ℚ) (text : List Char) : Prop where
  value : parsePoint base text = some v
  last : '.' ∈ text → text.getLast? ≠ some '0'
  head : text.head? = some '0' → text = ['0'] ∨ text[1]? = some '.'

theorem ne_point_of_charDigit {c : Char} (h : (charDigit c).isSome = true) : c ≠ '.' := by
  rintro rfl
  exact absurd h (by decide)

theorem parsePoint_of_digits {int : List Char} (h : ∀ c ∈ int, c ≠ '.') :
    parsePoint base int = (parse base int).map fun n : Nat => (n : ℚ) := by
  have hall : ∀ c ∈ int, decide (c ≠ '.') = true := fun c hc => decide_eq_true (h c hc)
  rw [parsePoint, List.takeWhile_eq_self_iff.mpr hall, List.dropWhile_eq_nil_iff.mpr hall]

theorem parsePoint_append {int frac : List Char} (h : ∀ c ∈ int, c ≠ '.') :
    parsePoint base (int ++ '.' :: frac) = (parse base int).bind fun i =>
      (parse base frac).map fun f : Nat => (i + f / base ^ frac.length : ℚ) := by
  have hall : ∀ c ∈ int, decide (c ≠ '.') = true := fun c hc => decide_eq_true (h c hc)
  rw [parsePoint, List.takeWhile_append_of_pos hall, List.dropWhile_append_of_pos hall]
  simp

theorem parse_digits (hds : ∀ d ∈ ds, d < base) (hbase : base ≤ 36) (hne : ds ≠ []) :
    parse base (ds.map digitChar) = some (value base ds) := by
  rw [parse, if_neg (by simpa using hne), mapM_digitOf hds hbase]
  rfl

theorem text_ne_nil {base : Nat} (n : Nat) : text base n ≠ [] := by
  unfold text
  split
  · simp
  · rename_i hn
    simpa using digits_ne_nil hn

section denotes

variable {base : Nat} (hlo : 1 < base) (hhi : base ≤ 36)
include hlo hhi

theorem text_ne_point {n : Nat} : ∀ c ∈ text base n, c ≠ '.' := fun _ hc =>
  ne_point_of_charDigit (charDigit_of_mem_text hlo hhi hc)

theorem text_head {n : Nat} (h : (text base n).head? = some '0') : text base n = ['0'] := by
  unfold text at h ⊢
  split at h
  · rename_i hn
    rw [if_pos hn]
  · cases hds : digits base n with
    | nil => simp [hds] at h
    | cons d ds =>
        have hd : d < base := digits_lt hlo (by rw [hds]; exact List.mem_cons_self)
        rw [hds] at h
        have hchar : digitChar d = '0' := by simpa using h
        exact absurd ((digitChar_eq_zero (by omega)).mp hchar) (digits_head_ne_zero hds)

theorem denotes_int (n : Nat) : Denotes base n (text base n) := by
  have hpoint := text_ne_point hlo hhi (n := n)
  constructor
  case value => rw [parsePoint_of_digits hpoint, parse_text hlo hhi]; rfl
  case last => exact fun hmem => absurd rfl (hpoint _ hmem)
  case head => exact fun hhead => Or.inl (text_head hlo hhi hhead)

theorem denotes_point (n : Nat) (hds : ∀ d ∈ ds, d < base) (hne : ds ≠ [])
    (hlast : ds.getLast? ≠ some 0) :
    Denotes base (n + value base ds / base ^ ds.length)
      (text base n ++ '.' :: ds.map digitChar) := by
  have hpoint := text_ne_point hlo hhi (n := n)
  constructor
  case value =>
    rw [parsePoint_append hpoint, parse_text hlo hhi, parse_digits hds hhi hne, List.length_map]
    rfl
  case last =>
    intro _ hzero
    have hmap : ds.map digitChar ≠ [] := by simpa using hne
    rw [List.getLast?_append_of_ne_nil _ (List.cons_ne_nil _ _), List.getLast?_cons_of_ne_nil hmap,
      List.getLast?_map] at hzero
    obtain ⟨d, hd, hchar⟩ := Option.map_eq_some_iff.mp hzero
    have hlt := hds d (List.mem_of_getLast? hd)
    rw [(digitChar_eq_zero (by omega)).mp hchar] at hd
    exact hlast hd
  case head =>
    intro hhead
    right
    rw [List.head?_append_of_ne_nil _ (text_ne_nil n)] at hhead
    rw [text_head hlo hhi hhead]
    rfl

end denotes

/-- Without the zeros at the end the fraction is the same. -/
theorem value_rdropWhile (hbase : 0 < base) (ds : List Nat) :
    (value base ds : ℚ) / base ^ ds.length =
      value base (ds.rdropWhile (· = 0)) / base ^ (ds.rdropWhile (· = 0)).length := by
  have hpos : (base : ℚ) ≠ 0 := by exact_mod_cast hbase.ne'
  induction ds using List.reverseRecOn with
  | nil => rfl
  | append_singleton ds d ih =>
      by_cases hd : d = 0
      · rw [List.rdropWhile_concat_pos (fun d => decide (d = 0)) _ _ (decide_eq_true hd), ← ih,
          value_concat, hd, List.length_append, List.length_singleton, pow_succ, Nat.add_zero,
          Nat.cast_mul, mul_div_mul_right _ _ hpos]
      · rw [List.rdropWhile_concat_neg (fun d => decide (d = 0)) _ _ (by simpa using hd)]

end Slag.Numeral
