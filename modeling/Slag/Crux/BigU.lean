import Mathlib.Data.List.DropRight
import Mathlib.Data.Nat.Size
import Slag.Lib.Numeral

/-!
The big unsigned integer of the number formatting (`number.rs`): little-endian
limbs of 64 bits, not always without zeros at the top. Every operation is read by
the value of its result.
-/

namespace Slag.Crux

/-- A base of digits. -/
structure Radix where
  value : Nat
  two_le : 2 ≤ value
  le_max : value ≤ 36

structure BigU where
  limbs : List UInt64
deriving DecidableEq, Repr

namespace BigU

def limbValue : List UInt64 → Nat
  | [] => 0
  | limb :: limbs => limb.toNat + 2 ^ 64 * limbValue limbs

def value (u : BigU) : Nat := limbValue u.limbs

def zero : BigU := ⟨[]⟩

def fromU64 (value : UInt64) : BigU := if value = 0 then zero else ⟨[value]⟩

def isZero (u : BigU) : Bool := u.limbs.all (· == 0)

/-- The last limb that is not zero. -/
def rposition : List UInt64 → Option Nat
  | [] => none
  | limb :: limbs =>
    match rposition limbs with
    | some i => some (i + 1)
    | none => if limb = 0 then none else some 0

def getLimb (u : BigU) (k : Nat) : UInt64 := u.limbs.getD k 0

/-- The limbs below `k`, from the top. -/
def cmpDown (a b : BigU) : Nat → Ordering
  | 0 => .eq
  | k + 1 =>
    match compare (a.getLimb k).toNat (b.getLimb k).toNat with
    | .eq => cmpDown a b k
    | ord => ord

def cmp (a b : BigU) : Ordering :=
  match rposition a.limbs, rposition b.limbs with
  | none, none => .eq
  | none, some _ => .lt
  | some _, none => .gt
  | some i, some j => if i ≠ j then compare i j else cmpDown a b (i + 1)

def shlLimbs (bitShift : Nat) : UInt64 → List UInt64 → List UInt64
  | high, [] => if high = 0 then [] else [high]
  | high, limb :: limbs =>
    (UInt64.ofNat (limb.toNat <<< bitShift) ||| high) ::
      shlLimbs bitShift (UInt64.ofNat (limb.toNat >>> (64 - bitShift))) limbs

def shl (u : BigU) (bits : Nat) : BigU :=
  if u.limbs = [] then u
  else ⟨List.replicate (bits / 64) 0 ++ shlLimbs (bits % 64) 0 u.limbs⟩

def shrLimbs (bitShift : Nat) : List UInt64 → List UInt64
  | [] => []
  | limb :: limbs =>
    let v := UInt64.ofNat (limb.toNat >>> bitShift)
    let v :=
      match limbs with
      | [] => v
      | next :: _ => if bitShift = 0 then v else v ||| UInt64.ofNat (next.toNat <<< (64 - bitShift))
    v :: shrLimbs bitShift limbs

def shr (u : BigU) (bits : Nat) : BigU :=
  if u.isZero then zero else ⟨shrLimbs (bits % 64) (u.limbs.drop (bits / 64))⟩

/-- Without the zero limbs at the top. -/
def trim (limbs : List UInt64) : List UInt64 := limbs.rdropWhile (· == 0)

def mask (u : BigU) (bits : Nat) : BigU :=
  let limb := bits / 64
  let bit := bits % 64
  let out :=
    if limb < u.limbs.length then
      if bit = 0 then u.limbs.take limb
      else u.limbs.take limb ++ [u.getLimb limb &&& UInt64.ofNat (1 <<< bit - 1)]
    else u.limbs
  ⟨trim out⟩

def overflowingAdd (a b : UInt64) : UInt64 × Bool := (a + b, 2 ^ 64 ≤ a.toNat + b.toNat)

def overflowingSub (a b : UInt64) : UInt64 × Bool := (a - b, a < b)

/-- Limbs of two numbers by position; a missing limb is zero. -/
def pairs (a b : BigU) (len : Nat) : List (UInt64 × UInt64) :=
  (List.range len).map fun i => (a.getLimb i, b.getLimb i)

def addPairs : Bool → List (UInt64 × UInt64) → List UInt64
  | carry, [] => if carry then [1] else []
  | carry, (a, b) :: rest =>
    let (sum, c₁) := overflowingAdd a b
    let (sum, c₂) := overflowingAdd sum carry.toUInt64
    sum :: addPairs (c₁ || c₂) rest

def add (a b : BigU) : BigU :=
  ⟨addPairs false (pairs a b (max a.limbs.length b.limbs.length))⟩

def subPairs : Bool → List (UInt64 × UInt64) → List UInt64
  | _, [] => []
  | borrow, (a, b) :: rest =>
    let (diff, b₁) := overflowingSub a b
    let (diff, b₂) := overflowingSub diff borrow.toUInt64
    diff :: subPairs (b₁ || b₂) rest

def sub (a b : BigU) : BigU := ⟨trim (subPairs false (pairs a b a.limbs.length))⟩

def addSmall (u : BigU) (n : UInt64) : BigU := if n = 0 then u else add u (fromU64 n)

def mulLimbs (n : UInt64) : Nat → List UInt64 → List UInt64
  | carry, [] => if carry = 0 then [] else [UInt64.ofNat carry]
  | carry, limb :: limbs =>
    let product := limb.toNat * n.toNat + carry
    UInt64.ofNat product :: mulLimbs n (product >>> 64) limbs

def mulSmall (u : BigU) (n : UInt64) : BigU :=
  if n = 0 ∨ u.isZero then zero else ⟨mulLimbs n 0 u.limbs⟩

def divmodLimbs (n : UInt64) : List UInt64 → List UInt64 × Nat
  | [] => ([], 0)
  | limb :: limbs =>
    let (quotient, remainder) := divmodLimbs n limbs
    let current := remainder <<< 64 ||| limb.toNat
    (UInt64.ofNat (current / n.toNat) :: quotient, current % n.toNat)

def divmodSmall (u : BigU) (n : UInt64) : BigU × UInt64 :=
  let (quotient, remainder) := divmodLimbs n u.limbs
  (⟨trim quotient⟩, UInt64.ofNat remainder)

def bitLen (u : BigU) : Nat :=
  match rposition u.limbs with
  | some top => top * 64 + (u.getLimb top).toNat.size
  | none => 0

theorem limbValue_append (xs ys : List UInt64) :
    limbValue (xs ++ ys) = limbValue xs + 2 ^ (64 * xs.length) * limbValue ys := by
  induction xs with
  | nil => simp [limbValue]
  | cons x xs ih =>
      rw [List.cons_append, limbValue, limbValue, ih, List.length_cons, Nat.mul_succ, pow_add]
      ring

theorem limbValue_lt (xs : List UInt64) : limbValue xs < 2 ^ (64 * xs.length) := by
  induction xs with
  | nil => simp [limbValue]
  | cons x xs ih =>
      have hx := x.toNat_lt
      rw [limbValue, List.length_cons, Nat.mul_succ, pow_add]
      generalize 2 ^ (64 * xs.length) = p at *
      omega

theorem limbValue_replicate_zero (n : Nat) : limbValue (List.replicate n 0) = 0 := by
  induction n with
  | zero => rfl
  | succ n ih => rw [List.replicate_succ, limbValue, ih]; rfl

theorem limbValue_trim (xs : List UInt64) : limbValue (trim xs) = limbValue xs := by
  induction xs using List.reverseRecOn with
  | nil => rfl
  | append_singleton xs x ih =>
      unfold trim at ih ⊢
      by_cases hx : x = 0
      · rw [List.rdropWhile_concat_pos _ _ _ (by simp [hx]), ih, limbValue_append, hx]
        simp [limbValue]
      · rw [List.rdropWhile_concat_neg _ _ _ (by simp [hx])]

@[simp] theorem value_zero : zero.value = 0 := rfl

@[simp] theorem value_fromU64 (n : UInt64) : (fromU64 n).value = n.toNat := by
  unfold fromU64
  split
  · rename_i h
    rw [h]
    rfl
  · simp [value, limbValue]

theorem isZero_iff (u : BigU) : u.isZero = true ↔ u.value = 0 := by
  unfold isZero value
  induction u.limbs with
  | nil => simp [limbValue]
  | cons x xs ih =>
      rw [List.all_cons, Bool.and_eq_true, ih, limbValue, beq_iff_eq, ← UInt64.toNat_inj]
      simp

theorem limbValue_take (xs : List UInt64) (k : Nat) :
    limbValue (xs.take k) = limbValue xs % 2 ^ (64 * k) := by
  induction xs generalizing k with
  | nil => simp [limbValue]
  | cons x xs ih =>
      cases k with
      | zero => simp [limbValue, Nat.mod_one]
      | succ k =>
          have hx := x.toNat_lt
          rw [List.take_succ_cons, limbValue, limbValue, ih, Nat.mul_succ, Nat.add_comm (64 * k),
            pow_add, Nat.mod_mul, Nat.add_mul_mod_self_left, Nat.add_mul_div_left _ _ (by decide),
            Nat.mod_eq_of_lt hx, Nat.div_eq_of_lt hx, Nat.zero_add]

theorem limbValue_drop (xs : List UInt64) (k : Nat) :
    limbValue (xs.drop k) = limbValue xs / 2 ^ (64 * k) := by
  induction xs generalizing k with
  | nil => simp [limbValue]
  | cons x xs ih =>
      cases k with
      | zero => simp
      | succ k =>
          have hx := x.toNat_lt
          rw [List.drop_succ_cons, limbValue, ih, Nat.mul_succ, Nat.add_comm (64 * k), pow_add,
            ← Nat.div_div_eq_div_mul, Nat.add_mul_div_left _ _ (by decide), Nat.div_eq_of_lt hx,
            Nat.zero_add]

theorem toNat_getLimb (u : BigU) (k : Nat) :
    (u.getLimb k).toNat = u.value / 2 ^ (64 * k) % 2 ^ 64 := by
  unfold getLimb value
  rw [← limbValue_drop, List.getD_eq_getElem?_getD, ← List.head?_drop]
  cases u.limbs.drop k with
  | nil => simp [limbValue]
  | cons x xs =>
      rw [limbValue, Nat.add_mul_mod_self_left, Nat.mod_eq_of_lt x.toNat_lt]
      rfl

theorem limbValue_shlLimbs {s : Nat} (hs : s < 64) (xs : List UInt64) (high : UInt64)
    (hhigh : high.toNat < 2 ^ s) :
    limbValue (shlLimbs s high xs) = limbValue xs * 2 ^ s + high.toNat := by
  induction xs generalizing high with
  | nil =>
      rw [shlLimbs]
      split
      · rename_i h
        simp [h, limbValue]
      · simp [limbValue]
  | cons x xs ih =>
      have hsplit : 2 ^ 64 = 2 ^ s * 2 ^ (64 - s) := by
        rw [← pow_add]
        congr 1
        omega
      have hlow : x.toNat <<< s % 2 ^ 64 = (x.toNat % 2 ^ (64 - s)) <<< s := by
        rw [Nat.shiftLeft_eq, Nat.shiftLeft_eq, hsplit, Nat.mul_comm (x.toNat),
          Nat.mul_mod_mul_left, Nat.mul_comm]
      have hup : x.toNat / 2 ^ (64 - s) < 2 ^ s := by
        rw [Nat.div_lt_iff_lt_mul (Nat.two_pow_pos _), ← hsplit]
        exact x.toNat_lt
      have hnext : (UInt64.ofNat (x.toNat >>> (64 - s))).toNat = x.toNat / 2 ^ (64 - s) := by
        rw [UInt64.toNat_ofNat', Nat.shiftRight_eq_div_pow]
        apply Nat.mod_eq_of_lt
        exact Nat.lt_of_le_of_lt (Nat.div_le_self _ _) x.toNat_lt
      have hx := Nat.div_add_mod x.toNat (2 ^ (64 - s))
      rw [shlLimbs, limbValue, ih _ (by rw [hnext]; exact hup), hnext, UInt64.toNat_or,
        UInt64.toNat_ofNat', hlow, ← Nat.shiftLeft_add_eq_or_of_lt hhigh, limbValue,
        Nat.shiftLeft_eq, hsplit]
      calc _ = (2 ^ (64 - s) * (x.toNat / 2 ^ (64 - s)) + x.toNat % 2 ^ (64 - s)) * 2 ^ s +
            2 ^ s * 2 ^ (64 - s) * limbValue xs * 2 ^ s + high.toNat := by ring
        _ = _ := by
          rw [hx]
          ring

@[simp] theorem value_shl (u : BigU) (bits : Nat) : (u.shl bits).value = u.value * 2 ^ bits := by
  unfold shl
  split
  · rename_i h
    simp [value, h, limbValue]
  · have hbits := Nat.div_add_mod bits 64
    rw [value, limbValue_append, limbValue_replicate_zero, List.length_replicate,
      limbValue_shlLimbs (Nat.mod_lt _ (by decide)) _ _ (Nat.two_pow_pos _), value]
    calc 0 + 2 ^ (64 * (bits / 64)) * (limbValue u.limbs * 2 ^ (bits % 64) + 0) =
          limbValue u.limbs * 2 ^ (64 * (bits / 64) + bits % 64) := by
          rw [pow_add]
          ring
      _ = _ := by rw [hbits]

theorem limbValue_shrLimbs {s : Nat} (hs : s < 64) (xs : List UInt64) :
    limbValue (shrLimbs s xs) = limbValue xs / 2 ^ s := by
  induction xs with
  | nil => simp [shrLimbs, limbValue]
  | cons x xs ih =>
      have hpos := Nat.two_pow_pos s
      have hsplit : 2 ^ 64 = 2 ^ s * 2 ^ (64 - s) := by
        rw [← pow_add]
        congr 1
        omega
      have hlow : (UInt64.ofNat (x.toNat >>> s)).toNat = x.toNat / 2 ^ s := by
        rw [UInt64.toNat_ofNat', Nat.shiftRight_eq_div_pow]
        apply Nat.mod_eq_of_lt
        exact Nat.lt_of_le_of_lt (Nat.div_le_self _ _) x.toNat_lt
      have hlt : x.toNat / 2 ^ s < 2 ^ (64 - s) := by
        rw [Nat.div_lt_iff_lt_mul hpos, Nat.mul_comm, ← hsplit]
        exact x.toNat_lt
      have hvalue : limbValue (x :: xs) / 2 ^ s = x.toNat / 2 ^ s + 2 ^ (64 - s) * limbValue xs := by
        rw [limbValue, hsplit, Nat.mul_assoc, Nat.add_mul_div_left _ _ hpos]
      have hxs := Nat.div_add_mod (limbValue xs) (2 ^ s)
      have htotal : ∀ v : UInt64, v.toNat = x.toNat / 2 ^ s + limbValue xs % 2 ^ s * 2 ^ (64 - s) →
          limbValue (v :: shrLimbs s xs) = limbValue (x :: xs) / 2 ^ s := by
        intro v hv
        rw [limbValue, ih, hv, hvalue]
        calc _ = x.toNat / 2 ^ s +
              2 ^ (64 - s) * (2 ^ s * (limbValue xs / 2 ^ s) + limbValue xs % 2 ^ s) := by
              rw [hsplit]
              ring
          _ = _ := by rw [hxs]
      cases xs with
      | nil =>
          rw [shrLimbs]
          apply htotal
          simp [limbValue, hlow]
      | cons y ys =>
          rw [shrLimbs]
          apply htotal
          split
          · rename_i hzero
            subst hzero
            rw [hlow, pow_zero, Nat.mod_one, Nat.zero_mul, Nat.add_zero]
          · have hmod : limbValue (y :: ys) % 2 ^ s = y.toNat % 2 ^ s := by
              rw [limbValue, hsplit, Nat.mul_assoc, Nat.add_mul_mod_self_left]
            have hshift : y.toNat <<< (64 - s) % 2 ^ 64 = (y.toNat % 2 ^ s) <<< (64 - s) := by
              rw [Nat.shiftLeft_eq, Nat.shiftLeft_eq, hsplit, Nat.mul_mod_mul_right]
            rw [UInt64.toNat_or, hlow, UInt64.toNat_ofNat', hshift, Nat.or_comm,
              ← Nat.shiftLeft_add_eq_or_of_lt hlt, Nat.shiftLeft_eq, hmod, Nat.add_comm]

@[simp] theorem value_shr (u : BigU) (bits : Nat) : (u.shr bits).value = u.value / 2 ^ bits := by
  unfold shr
  split
  · rename_i h
    rw [(isZero_iff u).mp h, Nat.zero_div, value_zero]
  · have hbits := Nat.div_add_mod bits 64
    rw [value, limbValue_shrLimbs (Nat.mod_lt _ (by decide)), limbValue_drop,
      Nat.div_div_eq_div_mul, ← pow_add, hbits, value]

@[simp] theorem value_mask (u : BigU) (bits : Nat) : (u.mask bits).value = u.value % 2 ^ bits := by
  have hbits := Nat.div_add_mod bits 64
  have hbit := Nat.mod_lt bits (show 0 < 64 by decide)
  unfold mask value
  dsimp only
  rw [limbValue_trim]
  split
  · split
    · rename_i hzero
      rw [hzero, Nat.add_zero] at hbits
      rw [limbValue_take, hbits]
    · rename_i hlen _
      have hand : (u.getLimb (bits / 64) &&& UInt64.ofNat (1 <<< (bits % 64) - 1)).toNat =
          (u.getLimb (bits / 64)).toNat % 2 ^ (bits % 64) := by
        have hpow : 2 ^ (bits % 64) < 2 ^ 64 := Nat.pow_lt_pow_right (by decide) hbit
        rw [UInt64.toNat_and, UInt64.toNat_ofNat', Nat.shiftLeft_eq, Nat.one_mul,
          Nat.mod_eq_of_lt (by omega), Nat.and_two_pow_sub_one_eq_mod]
      have hdvd : 2 ^ (bits % 64) ∣ 2 ^ 64 := Nat.pow_dvd_pow 2 hbit.le
      rw [limbValue_append, limbValue_take, List.length_take, Nat.min_eq_left hlen.le, limbValue,
        limbValue, hand, toNat_getLimb, Nat.mod_mod_of_dvd _ hdvd, value]
      nth_rewrite 5 [← hbits]
      rw [pow_add, Nat.mod_mul]
      ring
  · rename_i hlen
    have hle : 2 ^ (64 * u.limbs.length) ≤ 2 ^ bits := by
      apply Nat.pow_le_pow_right (by decide)
      omega
    exact (Nat.mod_eq_of_lt (Nat.lt_of_lt_of_le (limbValue_lt _) hle)).symm

theorem limbValue_range (u : BigU) (n : Nat) :
    limbValue ((List.range n).map u.getLimb) = u.value % 2 ^ (64 * n) := by
  induction n with
  | zero => simp [limbValue, Nat.mod_one]
  | succ n ih =>
      rw [List.range_succ, List.map_append, limbValue_append, ih, List.length_map,
        List.length_range, List.map_singleton, limbValue, limbValue, toNat_getLimb, Nat.mul_succ,
        pow_add, Nat.mod_mul, Nat.mul_zero, Nat.add_zero]

theorem pairs_fst (a b : BigU) (n : Nat) :
    (pairs a b n).map Prod.fst = (List.range n).map a.getLimb := by
  rw [pairs, List.map_map]
  rfl

theorem pairs_snd (a b : BigU) (n : Nat) :
    (pairs a b n).map Prod.snd = (List.range n).map b.getLimb := by
  rw [pairs, List.map_map]
  rfl

theorem toNat_toUInt64 (b : Bool) : b.toUInt64.toNat = b.toNat := by
  cases b <;> rfl

/-- At most one of the two additions carries. -/
theorem overflowingAdd_carry (a b : UInt64) (carry : Bool) :
    (overflowingAdd (overflowingAdd a b).1 carry.toUInt64).1.toNat +
      2 ^ 64 * ((overflowingAdd a b).2 ||
        (overflowingAdd (overflowingAdd a b).1 carry.toUInt64).2).toNat =
      a.toNat + b.toNat + carry.toNat := by
  have ha := a.toNat_lt
  have hb := b.toNat_lt
  have hcarry := carry.toNat_le
  simp only [overflowingAdd, UInt64.toNat_add, toNat_toUInt64]
  by_cases h₁ : 2 ^ 64 ≤ a.toNat + b.toNat
  · simp only [h₁, decide_true, Bool.true_or, Bool.toNat_true]
    omega
  · by_cases h₂ : 2 ^ 64 ≤ (a.toNat + b.toNat) % 2 ^ 64 + carry.toNat
    · simp only [h₁, h₂, decide_true, decide_false, Bool.or_true, Bool.toNat_true]
      omega
    · simp only [h₁, h₂, decide_false, Bool.or_false, Bool.toNat_false]
      omega

theorem overflowingSub_borrow (a b : UInt64) (borrow : Bool) :
    (overflowingSub (overflowingSub a b).1 borrow.toUInt64).1.toNat + b.toNat + borrow.toNat =
      a.toNat + 2 ^ 64 * ((overflowingSub a b).2 ||
        (overflowingSub (overflowingSub a b).1 borrow.toUInt64).2).toNat := by
  have ha := a.toNat_lt
  have hb := b.toNat_lt
  have hborrow := borrow.toNat_le
  simp only [overflowingSub, UInt64.lt_iff_toNat_lt, UInt64.toNat_sub, toNat_toUInt64]
  by_cases h₁ : a.toNat < b.toNat
  · simp only [h₁, decide_true, Bool.true_or, Bool.toNat_true]
    omega
  · by_cases h₂ : (2 ^ 64 - b.toNat + a.toNat) % 2 ^ 64 < borrow.toNat
    · simp only [h₁, h₂, decide_true, decide_false, Bool.or_true, Bool.toNat_true]
      omega
    · simp only [h₁, h₂, decide_false, Bool.or_false, Bool.toNat_false]
      omega

theorem limbValue_addPairs (carry : Bool) (ps : List (UInt64 × UInt64)) :
    limbValue (addPairs carry ps) =
      limbValue (ps.map Prod.fst) + limbValue (ps.map Prod.snd) + carry.toNat := by
  induction ps generalizing carry with
  | nil => cases carry <;> rfl
  | cons p ps ih =>
      obtain ⟨a, b⟩ := p
      have hstep := overflowingAdd_carry a b carry
      simp only [addPairs, limbValue, List.map_cons, ih]
      omega

@[simp] theorem value_add (a b : BigU) : (a.add b).value = a.value + b.value := by
  have hle : ∀ u : BigU, ∀ n, u.limbs.length ≤ n → u.value % 2 ^ (64 * n) = u.value := by
    intro u n hn
    apply Nat.mod_eq_of_lt
    apply Nat.lt_of_lt_of_le (limbValue_lt _)
    apply Nat.pow_le_pow_right (by decide)
    omega
  unfold add
  rw [value, limbValue_addPairs, pairs_fst, pairs_snd, limbValue_range, limbValue_range,
    hle a _ (Nat.le_max_left _ _), hle b _ (Nat.le_max_right _ _), Bool.toNat_false, Nat.add_zero]

theorem length_subPairs (borrow : Bool) (ps : List (UInt64 × UInt64)) :
    (subPairs borrow ps).length = ps.length := by
  induction ps generalizing borrow with
  | nil => rfl
  | cons p ps ih => simp [subPairs, ih]

theorem limbValue_subPairs (borrow : Bool) (ps : List (UInt64 × UInt64)) :
    ∃ out, limbValue (subPairs borrow ps) + limbValue (ps.map Prod.snd) + borrow.toNat =
      limbValue (ps.map Prod.fst) + 2 ^ (64 * ps.length) * out := by
  induction ps generalizing borrow with
  | nil => exact ⟨borrow.toNat, by simp [subPairs, limbValue]⟩
  | cons p ps ih =>
      obtain ⟨a, b⟩ := p
      have hstep := overflowingSub_borrow a b borrow
      obtain ⟨out, hout⟩ := ih ((overflowingSub a b).2 ||
        (overflowingSub (overflowingSub a b).1 borrow.toUInt64).2)
      have hpow : 2 ^ (64 * (ps.length + 1)) * out = 2 ^ 64 * (2 ^ (64 * ps.length) * out) := by
        rw [Nat.mul_succ, pow_add]
        ring
      refine ⟨out, ?_⟩
      simp only [subPairs, limbValue, List.map_cons, List.length_cons]
      omega

@[simp] theorem value_sub {a b : BigU} (h : b.value ≤ a.value) :
    (a.sub b).value = a.value - b.value := by
  have hlt : a.value < 2 ^ (64 * a.limbs.length) := limbValue_lt _
  obtain ⟨out, hout⟩ := limbValue_subPairs false (pairs a b a.limbs.length)
  have hlen : (pairs a b a.limbs.length).length = a.limbs.length := by simp [pairs]
  have hbound := limbValue_lt (subPairs false (pairs a b a.limbs.length))
  rw [length_subPairs, hlen] at hbound
  rw [pairs_fst, pairs_snd, limbValue_range, limbValue_range, Nat.mod_eq_of_lt hlt,
    Nat.mod_eq_of_lt (Nat.lt_of_le_of_lt h hlt), hlen, Bool.toNat_false] at hout
  have hzero : out = 0 := by
    rcases Nat.eq_zero_or_pos out with hzero | hpos
    · exact hzero
    · have := Nat.le_mul_of_pos_right (2 ^ (64 * a.limbs.length)) hpos
      omega
  subst hzero
  unfold sub
  rw [value, limbValue_trim]
  omega

@[simp] theorem value_addSmall (u : BigU) (n : UInt64) :
    (u.addSmall n).value = u.value + n.toNat := by
  unfold addSmall
  split
  · rename_i h
    simp [h]
  · rw [value_add, value_fromU64]

theorem limbValue_mulLimbs (n : UInt64) (xs : List UInt64) {carry : Nat} (h : carry < 2 ^ 64) :
    limbValue (mulLimbs n carry xs) = limbValue xs * n.toNat + carry := by
  induction xs generalizing carry with
  | nil =>
      rw [mulLimbs]
      split
      · rename_i hzero
        simp [hzero, limbValue]
      · rw [limbValue, limbValue, UInt64.toNat_ofNat', Nat.mod_eq_of_lt h, limbValue]
        simp
  | cons x xs ih =>
      have hx := x.toNat_lt
      have hn := n.toNat_lt
      have hproduct : x.toNat * n.toNat + carry < 2 ^ 64 * 2 ^ 64 := by
        have := Nat.mul_le_mul (show x.toNat ≤ 2 ^ 64 - 1 by omega)
          (show n.toNat ≤ 2 ^ 64 - 1 by omega)
        omega
      have hcarry : (x.toNat * n.toNat + carry) >>> 64 < 2 ^ 64 := by
        rw [Nat.shiftRight_eq_div_pow, Nat.div_lt_iff_lt_mul (by decide)]
        exact hproduct
      have hsplit := Nat.div_add_mod (x.toNat * n.toNat + carry) (2 ^ 64)
      rw [mulLimbs, limbValue, ih hcarry, UInt64.toNat_ofNat', Nat.shiftRight_eq_div_pow, limbValue]
      linarith

@[simp] theorem value_mulSmall (u : BigU) (n : UInt64) :
    (u.mulSmall n).value = u.value * n.toNat := by
  unfold mulSmall
  split
  · rename_i h
    rcases h with h | h
    · simp [h]
    · simp [(isZero_iff u).mp h]
  · rw [value, limbValue_mulLimbs n _ (by decide), Nat.add_zero, value]

theorem limbValue_divmodLimbs {n : UInt64} (hn : 0 < n.toNat) (xs : List UInt64) :
    limbValue (divmodLimbs n xs).1 = limbValue xs / n.toNat ∧
      (divmodLimbs n xs).2 = limbValue xs % n.toNat := by
  induction xs with
  | nil => simp [divmodLimbs, limbValue]
  | cons x xs ih =>
      obtain ⟨hq, hr⟩ := ih
      have hx := x.toNat_lt
      have hlt := Nat.mod_lt (limbValue xs) hn
      have hcurrent : (limbValue xs % n.toNat) <<< 64 ||| x.toNat =
          2 ^ 64 * (limbValue xs % n.toNat) + x.toNat := by
        rw [← Nat.shiftLeft_add_eq_or_of_lt hx, Nat.shiftLeft_eq, Nat.mul_comm]
      have hbound : (2 ^ 64 * (limbValue xs % n.toNat) + x.toNat) / n.toNat < 2 ^ 64 := by
        rw [Nat.div_lt_iff_lt_mul hn]
        have := Nat.mul_le_mul_left (2 ^ 64) (show limbValue xs % n.toNat + 1 ≤ n.toNat from hlt)
        omega
      have hsplit : limbValue (x :: xs) =
          2 ^ 64 * (limbValue xs % n.toNat) + x.toNat +
            n.toNat * (2 ^ 64 * (limbValue xs / n.toNat)) := by
        have hxs := Nat.div_add_mod (limbValue xs) n.toNat
        rw [limbValue]
        linarith
      rw [divmodLimbs]
      simp only [hq, hr, hcurrent, limbValue, UInt64.toNat_ofNat', Nat.mod_eq_of_lt hbound]
      rw [← limbValue, hsplit, Nat.add_mul_div_left _ _ hn, Nat.add_mul_mod_self_left]
      exact ⟨rfl, rfl⟩

theorem value_divmodSmall {n : UInt64} (hn : 0 < n.toNat) (u : BigU) :
    (u.divmodSmall n).1.value = u.value / n.toNat ∧
      (u.divmodSmall n).2.toNat = u.value % n.toNat := by
  obtain ⟨hq, hr⟩ := limbValue_divmodLimbs hn u.limbs
  unfold divmodSmall
  constructor
  · rw [value, limbValue_trim, hq, value]
  · rw [UInt64.toNat_ofNat', hr, value]
    apply Nat.mod_eq_of_lt
    exact Nat.lt_trans (Nat.mod_lt _ hn) n.toNat_lt

theorem rposition_none {xs : List UInt64} (h : rposition xs = none) : limbValue xs = 0 := by
  induction xs with
  | nil => rfl
  | cons x xs ih =>
      rw [rposition] at h
      cases hxs : rposition xs with
      | some i => simp [hxs] at h
      | none =>
          have hx : x = 0 := by simpa [hxs] using h
          rw [limbValue, ih hxs, hx]
          rfl

theorem rposition_some {xs : List UInt64} {i : Nat} (h : rposition xs = some i) :
    2 ^ (64 * i) ≤ limbValue xs ∧ limbValue xs < 2 ^ (64 * (i + 1)) := by
  induction xs generalizing i with
  | nil => simp [rposition] at h
  | cons x xs ih =>
      have hlt := x.toNat_lt
      rw [rposition] at h
      cases hxs : rposition xs with
      | some j =>
          obtain rfl : j + 1 = i := by simpa [hxs] using h
          obtain ⟨hlow, hhigh⟩ := ih hxs
          rw [limbValue, Nat.mul_succ, Nat.mul_succ 64 (j + 1), pow_add, pow_add _ (64 * (j + 1))]
          constructor
          · omega
          · omega
      | none =>
          have hx : x ≠ 0 ∧ 0 = i := by simpa [hxs] using h
          obtain ⟨hx, rfl⟩ := hx
          have hpos : x.toNat ≠ 0 := fun hzero => hx (UInt64.toNat_inj.mp hzero)
          rw [limbValue, rposition_none hxs]
          omega

theorem cmpDown_eq (a b : BigU) (k : Nat) :
    cmpDown a b k = compare (a.value % 2 ^ (64 * k)) (b.value % 2 ^ (64 * k)) := by
  induction k with
  | zero => simp [cmpDown, Nat.mod_one]
  | succ k ih =>
      have ha := Nat.mod_lt a.value (Nat.two_pow_pos (64 * k))
      have hb := Nat.mod_lt b.value (Nat.two_pow_pos (64 * k))
      rw [cmpDown, ih, toNat_getLimb, toNat_getLimb, Nat.mul_succ, pow_add, Nat.mod_mul,
        Nat.mod_mul]
      generalize a.value / 2 ^ (64 * k) % 2 ^ 64 = x
      generalize b.value / 2 ^ (64 * k) % 2 ^ 64 = y
      generalize a.value % 2 ^ (64 * k) = s at *
      generalize b.value % 2 ^ (64 * k) = t at *
      generalize 2 ^ (64 * k) = p at *
      rcases Nat.lt_trichotomy x y with h | h | h
      · have hmul := Nat.mul_le_mul_left p (show x + 1 ≤ y from h)
        rw [compare_lt_iff_lt.mpr h, eq_comm, compare_lt_iff_lt]
        rw [Nat.mul_succ] at hmul
        omega
      · subst h
        simp only [Nat.compare_eq_ite_lt, Nat.lt_irrefl, if_false, Nat.add_lt_add_iff_right]
      · have hmul := Nat.mul_le_mul_left p (show y + 1 ≤ x from h)
        rw [compare_gt_iff_gt.mpr h, eq_comm, compare_gt_iff_gt]
        rw [Nat.mul_succ] at hmul
        omega

@[simp] theorem cmp_eq (a b : BigU) : cmp a b = compare a.value b.value := by
  unfold cmp
  cases ha : rposition a.limbs with
  | none =>
      have hazero : a.value = 0 := rposition_none ha
      cases hb : rposition b.limbs with
      | none =>
          have hbzero : b.value = 0 := rposition_none hb
          rw [hazero, hbzero]
          rfl
      | some j =>
          have hpos : 0 < b.value := Nat.lt_of_lt_of_le (Nat.two_pow_pos _) (rposition_some hb).1
          rw [hazero, eq_comm, compare_lt_iff_lt]
          exact hpos
  | some i =>
      obtain ⟨halow, hahigh⟩ : 2 ^ (64 * i) ≤ a.value ∧ a.value < _ := rposition_some ha
      cases hb : rposition b.limbs with
      | none =>
          have hbzero : b.value = 0 := rposition_none hb
          have hpos : 0 < a.value := Nat.lt_of_lt_of_le (Nat.two_pow_pos _) halow
          rw [hbzero, eq_comm, compare_gt_iff_gt]
          exact hpos
      | some j =>
          obtain ⟨hblow, hbhigh⟩ : 2 ^ (64 * j) ≤ b.value ∧ b.value < _ := rposition_some hb
          dsimp only
          split
          · rename_i hne
            rcases Nat.lt_or_gt_of_ne hne with h | h
            · have hpow : 2 ^ (64 * (i + 1)) ≤ 2 ^ (64 * j) :=
                Nat.pow_le_pow_right (by decide) (Nat.mul_le_mul_left 64 h)
              rw [compare_lt_iff_lt.mpr h, eq_comm, compare_lt_iff_lt]
              omega
            · have hpow : 2 ^ (64 * (j + 1)) ≤ 2 ^ (64 * i) :=
                Nat.pow_le_pow_right (by decide) (Nat.mul_le_mul_left 64 h)
              rw [compare_gt_iff_gt.mpr h, eq_comm, compare_gt_iff_gt]
              omega
          · rename_i heq
            obtain rfl : i = j := not_not.mp heq
            rw [cmpDown_eq, Nat.mod_eq_of_lt hahigh, Nat.mod_eq_of_lt hbhigh]

theorem bitLen_eq (u : BigU) : u.bitLen = u.value.size := by
  unfold bitLen
  cases h : rposition u.limbs with
  | none =>
      have hzero : u.value = 0 := rposition_none h
      rw [hzero, Nat.size_zero]
  | some top =>
      obtain ⟨hlow, hhigh⟩ : 2 ^ (64 * top) ≤ u.value ∧ u.value < _ := rposition_some h
      have hlimb : (u.getLimb top).toNat = u.value / 2 ^ (64 * top) := by
        rw [toNat_getLimb]
        apply Nat.mod_eq_of_lt
        rw [Nat.div_lt_iff_lt_mul (Nat.two_pow_pos _), ← pow_add, Nat.add_comm]
        exact hhigh
      have hpos : 0 < u.value / 2 ^ (64 * top) := Nat.div_pos hlow (Nat.two_pow_pos _)
      dsimp only
      rw [hlimb]
      apply Nat.le_antisymm
      · obtain ⟨k, hk⟩ := Nat.exists_eq_succ_of_ne_zero (Nat.ne_of_gt (Nat.size_pos.mpr hpos))
        have hle : 2 ^ k ≤ u.value / 2 ^ (64 * top) := Nat.lt_size.mp (by omega)
        rw [hk, Nat.add_succ, Nat.succ_le_iff, Nat.lt_size, Nat.mul_comm top, pow_add]
        have := (Nat.le_div_iff_mul_le (Nat.two_pow_pos (64 * top))).mp hle
        rwa [Nat.mul_comm]
      · rw [Nat.size_le, Nat.mul_comm top, pow_add, Nat.mul_comm,
          ← Nat.div_lt_iff_lt_mul (Nat.two_pow_pos _)]
        exact Nat.lt_size_self _

end BigU

def Radix.limb (radix : Radix) : UInt64 := UInt64.ofNat radix.value

@[simp] theorem Radix.toNat_limb (radix : Radix) : radix.limb.toNat = radix.value := by
  have := radix.le_max
  rw [Radix.limb, UInt64.toNat_ofNat']
  omega

theorem Radix.pos (radix : Radix) : 0 < radix.value := Nat.lt_of_lt_of_le (by decide) radix.two_le

namespace BigU

/-- The digits in the order of the divisions. -/
def lowDigits (radix : Radix) (u : BigU) : List UInt64 :=
  if h : u.isZero then []
  else (u.divmodSmall radix.limb).2 :: lowDigits radix (u.divmodSmall radix.limb).1
termination_by u.value
decreasing_by
  have hne : u.value ≠ 0 := fun hzero => h ((isZero_iff u).mpr hzero)
  have htwo := radix.two_le
  rw [(value_divmodSmall (by rw [radix.toNat_limb]; exact radix.pos) u).1, radix.toNat_limb]
  exact Nat.div_lt_self (Nat.pos_of_ne_zero hne) htwo

def toBase (radix : Radix) (u : BigU) : List Char :=
  if u.isZero then ['0']
  else ((lowDigits radix u).map fun d => Numeral.digitChar d.toNat).reverse

theorem lowDigits_eq (radix : Radix) (u : BigU) :
    (lowDigits radix u).map UInt64.toNat = Nat.digits radix.value u.value := by
  have hlimb : 0 < radix.limb.toNat := by
    rw [radix.toNat_limb]
    exact radix.pos
  induction u using lowDigits.induct radix with
  | case1 u h =>
      rw [lowDigits, dif_pos h, (isZero_iff u).mp h, Nat.digits_zero]
      rfl
  | case2 u h ih =>
      have hne : u.value ≠ 0 := fun hzero => h ((isZero_iff u).mpr hzero)
      obtain ⟨hq, hr⟩ := value_divmodSmall hlimb u
      rw [radix.toNat_limb] at hq hr
      rw [lowDigits, dif_neg h, List.map_cons, ih, hq, hr,
        Nat.digits_def' radix.two_le (Nat.pos_of_ne_zero hne)]

theorem toBase_eq (radix : Radix) (u : BigU) :
    toBase radix u = Numeral.text radix.value u.value := by
  unfold toBase Numeral.text
  by_cases h : u.value = 0
  · rw [if_pos h, if_pos ((isZero_iff u).mpr h)]
  · have hne : ¬ u.isZero = true := fun hzero => h ((isZero_iff u).mp hzero)
    rw [if_neg h, if_neg hne, Numeral.digits, ← lowDigits_eq, ← List.map_reverse, ← List.map_reverse,
      List.map_map]
    rfl

end BigU

end Slag.Crux
