import Slag.Lib.FloatFloor
import Slag.Temporal.DurationText
import Slag.Temporal.IsoFormat
import Slag.Temporal.TotalDuration

/-!
Duration records, when they are valid, and the texts they are written as.
-/

namespace Slag.Temporal

/-- The ten fields, in the order of `DurationFields`. -/
abbrev DurationRecord := Fin 10 → F64

/-- The saturating cast to a signed 128-bit integer. -/
def asI128 : F64 → Int
  | .nan => 0
  | .infinity neg => if neg then -2 ^ 127 else 2 ^ 127 - 1
  | x@(.finite ..) => max (-2 ^ 127) (min x.truncate (2 ^ 127 - 1))

/-- The fields are finite and agree in sign. -/
def signLoop (sign : Int) : List F64 → Bool
  | [] => true
  | v :: vs =>
      if v.isFinite = false then false
      else if F64.lt v .zero then
        if 0 < sign then false else signLoop (-1) vs
      else if F64.lt .zero v then
        if sign < 0 then false else signLoop 1 vs
      else signLoop sign vs

/-- `2^53` seconds less a nanosecond. -/
def maxTimeDuration : Nat := 2 ^ 53 * nsPerSecond - 1

/-- `saturating_add` and `saturating_mul` on `u128`. -/
def saturate (n : Nat) : Nat := min n (2 ^ 128 - 1)

def durationUnits : List (Fin 10 × Nat) :=
  [(3, nsPerDay), (4, nsPerHour), (5, nsPerMinute), (6, nsPerSecond), (7, 1_000_000), (8, 1_000),
    (9, 1)]

def normalizeStep (fields : DurationRecord) (normalized : Nat) (unit : Fin 10 × Nat) : Nat :=
  if F64.eq (fields unit.1) .zero then normalized
  else saturate (normalized + saturate ((asI128 (fields unit.1).abs).toNat * unit.2))

def normalized (fields : DurationRecord) : Nat :=
  durationUnits.foldl (normalizeStep fields) 0

def isValidDuration (fields : DurationRecord) : Bool :=
  if signLoop 0 (List.ofFn fields) = false then false
  else if F64.le (powi2 32) (fields 0).abs || F64.le (powi2 32) (fields 1).abs ||
      F64.le (powi2 32) (fields 2).abs then false
  else normalized fields ≤ maxTimeDuration

def firstSign : List F64 → Int
  | [] => 0
  | v :: vs => if F64.lt v .zero then -1 else if F64.lt .zero v then 1 else firstSign vs

def durationSign (fields : DurationRecord) : Int := firstSign (List.ofFn fields)

/-- The unit of the first field that is not zero. -/
def firstUnit : List (F64 × Unit) → Unit
  | [] => .nanosecond
  | (field, unit) :: l => if F64.eq field .zero then firstUnit l else unit

def defaultTemporalLargestUnit (fields : DurationRecord) : Unit :=
  firstUnit ((List.ofFn fields).zip
    [.year, .month, .week, .day, .hour, .minute, .second, .millisecond, .microsecond, .nanosecond])

/-- The `i128` arithmetic, which no valid record overflows. -/
def timeDurationFromComponents (fields : DurationRecord) : Int :=
  let part (k : Fin 10) := asI128 (fields k)
  ((((part 4 * 60 + part 5) * 60 + part 6) * 1000 + part 7) * 1000 + part 8) * 1000 + part 9

/-- `format!("{}{}", value.abs() as i64, suffix)`, or nothing for a zero. -/
def unitText (value : F64) (suffix : UInt16) : Text :=
  if F64.eq value .zero then [] else decimal (F64.asI64 value.abs).toNat ++ [suffix]

def temporalDurationToString (fields : DurationRecord) (precision : FracPrecision) : Text :=
  let sign := durationSign fields
  let datePart := unitText (fields 0) 0x59 ++ (unitText (fields 1) 0x4D ++
    (unitText (fields 2) 0x57 ++ unitText (fields 3) 0x44))
  let timePart := unitText (fields 4) 0x48 ++ unitText (fields 5) 0x4D
  let zeroMinutesAndHigher : Bool :=
    defaultTemporalLargestUnit fields ∈ [Unit.second, .millisecond, .microsecond, .nanosecond]
  let secondsDuration := (timeDurationFromComponents fun k => if k ≤ 5 then .zero else fields k).natAbs
  let timePart :=
    if secondsDuration ≠ 0 ∨ zeroMinutesAndHigher = true ∨ precision ≠ .auto then
      timePart ++ (decimal (secondsDuration / nsPerSecond) ++
        (formatFractionalSeconds (secondsDuration % nsPerSecond) precision ++ [0x53]))
    else timePart
  let signPart := if sign < 0 then [Cu.minus] else []
  signPart ++ (Cu.p :: (datePart ++ if timePart = [] then [] else Cu.t :: timePart))

/-! Signs. -/

def leadingSign : List Int → Int
  | [] => 0
  | i :: is => if i = 0 then leadingSign is else i.sign

def fieldsSign (fields : DurationFields) : Int := leadingSign (List.ofFn fields)

/-- The total of the seconds and the smaller units. -/
def secondsNs (fields : DurationFields) : Int :=
  fields 6 * 1_000_000_000 + fields 7 * 1_000_000 + fields 8 * 1_000 + fields 9

variable {d : DurationRecord} {v : DurationFields}

theorem signLoop_signed (hd : ∀ k, (d k).HasInt (v k)) {ks : List (Fin 10)} {sign : Int}
    (h : signLoop sign (ks.map d) = true) :
    ∃ s : Int, (s = 1 ∨ s = -1) ∧ 0 ≤ s * sign ∧ ∀ k ∈ ks, 0 ≤ s * v k := by
  induction ks generalizing sign with
  | nil =>
      by_cases hsign : 0 ≤ sign
      · exact ⟨1, Or.inl rfl, by omega, nofun⟩
      · exact ⟨-1, Or.inr rfl, by omega, nofun⟩
  | cons k ks ih =>
      rw [List.map_cons, signLoop, if_neg (by rw [(hd k).1]; decide),
        F64.lt_int (hd k) F64.hasInt_zero, F64.lt_int F64.hasInt_zero (hd k)] at h
      by_cases hneg : v k < 0
      · rw [if_pos (decide_eq_true hneg)] at h
        split at h
        · cases h
        · obtain ⟨s, hs, hsign, hks⟩ := ih h
          obtain rfl : s = -1 := by omega
          exact ⟨-1, hs, by omega, List.forall_mem_cons.2 ⟨by omega, hks⟩⟩
      · rw [if_neg (by simpa using hneg)] at h
        by_cases hpos : 0 < v k
        · rw [if_pos (decide_eq_true hpos)] at h
          split at h
          · cases h
          · obtain ⟨s, hs, hsign, hks⟩ := ih h
            obtain rfl : s = 1 := by omega
            exact ⟨1, hs, by omega, List.forall_mem_cons.2 ⟨by omega, hks⟩⟩
        · rw [if_neg (by simpa using hpos)] at h
          obtain ⟨s, hs, hsign, hks⟩ := ih h
          have hzero : v k = 0 := by omega
          exact ⟨s, hs, hsign, List.forall_mem_cons.2 ⟨by rw [hzero, Int.mul_zero], hks⟩⟩

theorem firstSign_int (hd : ∀ k, (d k).HasInt (v k)) (ks : List (Fin 10)) :
    firstSign (ks.map d) = leadingSign (ks.map v) := by
  induction ks with
  | nil => rfl
  | cons k ks ih =>
      rw [List.map_cons, List.map_cons, firstSign, leadingSign, ih,
        F64.lt_int (hd k) F64.hasInt_zero, F64.lt_int F64.hasInt_zero (hd k)]
      rcases lt_trichotomy (v k) 0 with hneg | hzero | hpos
      · rw [if_pos (decide_eq_true hneg), if_neg hneg.ne, Int.sign_eq_neg_one_of_neg hneg]
      · rw [hzero, if_neg (by decide), if_neg (by decide), if_pos rfl]
      · rw [if_neg (by simpa using hpos.le), if_pos (decide_eq_true hpos), if_neg hpos.ne',
          Int.sign_eq_one_of_pos hpos]

theorem leadingSign_signed {s : Int} (hs : s = 1 ∨ s = -1) {is : List Int}
    (h : ∀ i ∈ is, 0 ≤ s * i) : leadingSign is = if ∀ i ∈ is, i = 0 then 0 else s := by
  induction is with
  | nil => rfl
  | cons i is ih =>
      obtain ⟨hi, his⟩ := List.forall_mem_cons.1 h
      simp only [leadingSign, List.forall_mem_cons]
      by_cases hzero : i = 0
      · rw [if_pos hzero, ih his]
        simp only [hzero, true_and]
      · rw [if_neg hzero, if_neg (fun hall => hzero hall.1)]
        rcases hs with rfl | rfl
        · exact Int.sign_eq_one_of_pos (by omega)
        · exact Int.sign_eq_neg_one_of_neg (by omega)

theorem durationSign_int (hd : ∀ k, (d k).HasInt (v k)) : durationSign d = fieldsSign v := by
  rw [durationSign, fieldsSign, List.ofFn_eq_map, List.ofFn_eq_map, firstSign_int hd]

theorem fieldsSign_signed {s : Int} (hs : s = 1 ∨ s = -1) (h : ∀ k, 0 ≤ s * v k) :
    fieldsSign v = if ∀ k, v k = 0 then 0 else s := by
  rw [fieldsSign, leadingSign_signed hs (List.forall_mem_ofFn_iff.2 h)]
  simp only [List.forall_mem_ofFn_iff]

/-! Bounds. -/

theorem asI128_abs {x : F64} {i : Int} (h : x.HasInt i) :
    (asI128 x.abs).toNat = min i.natAbs (2 ^ 127 - 1) := by
  have habs := F64.hasInt_abs h
  have htrunc := F64.truncate_int habs
  generalize x.abs = y at habs htrunc
  cases y with
  | nan | infinity => cases habs.1
  | finite s e m =>
      rw [asI128, htrunc]
      omega

/-- Saturation below a bound is no saturation. -/
theorem normalizeStep_le (hd : ∀ k, (d k).HasInt (v k)) {units : List (Fin 10 × Nat)}
    (hunits : ∀ unit ∈ units, 0 < unit.2) {n m : Nat} (hm : m < 2 ^ 127 - 1)
    (h : units.foldl (normalizeStep d) n ≤ m) :
    n + (units.map fun unit => (v unit.1).natAbs * unit.2).sum ≤ m := by
  induction units generalizing n with
  | nil => exact h
  | cons unit units ih =>
      obtain ⟨hpos, hrest⟩ := List.forall_mem_cons.1 hunits
      have hstep := ih hrest h
      rw [normalizeStep, F64.eq_int (hd unit.1) F64.hasInt_zero, asI128_abs (hd unit.1)] at hstep
      rw [List.map_cons, List.sum_cons]
      by_cases hzero : v unit.1 = 0
      · rw [if_pos (decide_eq_true hzero)] at hstep
        rw [hzero, Int.natAbs_zero, Nat.zero_mul]
        omega
      · rw [if_neg (by simpa using hzero)] at hstep
        have hfield := Nat.le_mul_of_pos_right (min (v unit.1).natAbs (2 ^ 127 - 1)) hpos
        have hexact : min (v unit.1).natAbs (2 ^ 127 - 1) = (v unit.1).natAbs := by
          simp only [saturate] at hstep
          omega
        rw [hexact] at hstep
        simp only [saturate] at hstep
        omega

theorem sum_units (v : DurationFields) (a b c d e f g : Nat) :
    ([((3 : Fin 10), a), (4, b), (5, c), (6, d), (7, e), (8, f), (9, g)].map fun unit =>
      (v unit.1).natAbs * unit.2).sum =
    (v 3).natAbs * a + (v 4).natAbs * b + (v 5).natAbs * c + (v 6).natAbs * d +
      (v 7).natAbs * e + (v 8).natAbs * f + (v 9).natAbs * g := by
  simp only [List.map_cons, List.map_nil, List.sum_cons, List.sum_nil, Nat.add_zero, Nat.add_assoc]

theorem powi2_natCast (k : Nat) : powi2 k = F64.ofNat (2 ^ k) := by
  rw [powi2, if_pos (Int.natCast_nonneg k), Int.toNat_natCast, F64.ofNat]

/-- What a valid record is, over the numbers it holds. -/
structure ValidFields (v : DurationFields) (sign : Int) : Prop where
  unit : sign = 1 ∨ sign = -1
  signed : ∀ k, 0 ≤ sign * v k
  calendar : (v 0).natAbs < 2 ^ 32 ∧ (v 1).natAbs < 2 ^ 32 ∧ (v 2).natAbs < 2 ^ 32
  time : (v 3).natAbs * nsPerDay + (v 4).natAbs * nsPerHour + (v 5).natAbs * nsPerMinute +
    (v 6).natAbs * nsPerSecond + (v 7).natAbs * 1_000_000 + (v 8).natAbs * 1_000 + (v 9).natAbs ≤
      maxTimeDuration

theorem validFields (hd : ∀ k, (d k).HasInt (v k)) (h : isValidDuration d = true) :
    ValidFields v (if durationSign d < 0 then -1 else 1) := by
  unfold isValidDuration at h
  split at h
  · cases h
  · rename_i hloop
    split at h
    · cases h
    · rename_i hcalendar
      rw [Bool.not_eq_false, List.ofFn_eq_map] at hloop
      obtain ⟨s, hs, -, hsigned⟩ := signLoop_signed hd hloop
      have hall : ∀ k, 0 ≤ s * v k := fun k => hsigned k (List.mem_finRange k)
      have hunit : ∀ i : Int, (if i < 0 then (-1 : Int) else 1) = 1 ∨
          (if i < 0 then (-1 : Int) else 1) = -1 := by
        intro i
        split
        · exact Or.inr rfl
        · exact Or.inl rfl
      refine ⟨hunit _, ?_, ?_, ?_⟩
      · intro k
        rw [durationSign_int hd, fieldsSign_signed hs hall]
        have hk := hall k
        by_cases hzero : ∀ k, v k = 0
        · rw [hzero k, Int.mul_zero]
        · rw [if_neg hzero]
          rcases hs with rfl | rfl
          · exact hk
          · exact hk
      · have hpow : (powi2 32).HasInt (2 ^ 32 : Nat) := by
          rw [show (32 : Int) = (32 : Nat) from rfl, powi2_natCast]
          exact F64.hasInt_ofNat (by decide)
        simp only [Bool.or_eq_true, F64.le_int hpow (F64.hasInt_abs (hd _)),
          decide_eq_true_iff, not_or, not_le, Nat.cast_lt] at hcalendar
        exact ⟨hcalendar.1.1, hcalendar.1.2, hcalendar.2⟩
      · have hmax : maxTimeDuration < 2 ^ 127 - 1 := by norm_num [maxTimeDuration, nsPerSecond]
        have hsum := normalizeStep_le hd (show ∀ unit ∈ durationUnits, 0 < unit.2 by decide)
          hmax (of_decide_eq_true h)
        rw [durationUnits, sum_units, Nat.zero_add, Nat.mul_one] at hsum
        exact hsum

/-! The parts of a text. -/

/-- A number and its designator, or nothing for a zero. -/
def numberUnit (n : Nat) (suffix : UInt16) : Text := if n = 0 then [] else decimal n ++ [suffix]

theorem unitText_eq {x : F64} {i : Int} (h : x.HasInt i) (hi : i.natAbs ≤ maxI64)
    (suffix : UInt16) : unitText x suffix = numberUnit i.natAbs suffix := by
  have habs := F64.asI64_int (F64.hasInt_abs h) (by omega) (by simp only [maxI64] at hi; omega)
  rw [unitText, numberUnit, F64.eq_int h F64.hasInt_zero, habs, Int.toNat_natCast]
  simp only [decide_eq_true_iff, Int.natAbs_eq_zero]

theorem decimal_ne_nil (n : Nat) : decimal n ≠ [] := by
  unfold decimal
  split
  · exact List.cons_ne_nil _ _
  · rename_i hne
    intro hnil
    have := Numeral.value_digits 10 n
    rw [List.map_eq_nil_iff.1 hnil] at this
    exact hne this.symm

theorem numberText_decimal {fits : Nat → Prop} {n : Nat} (h : fits n) :
    NumberText fits (decimal n) := by
  refine ⟨decimal_ne_nil n, decimal_digits n, ?_⟩
  rwa [numberOf_decimal]

variable {fits : Nat → Prop} {last : Int} {fields fields' : DurationFields} {w : Text}
  {idx : Fin 10} {c : UInt16}

theorem DateRun.weaken (h : DateRun fits idx fields w fields') (hlast : last < idx) :
    DateRun fits last fields w fields' := by
  cases h with
  | nil => exact .nil
  | cons hds hunit hlt hw => exact .cons hds hunit (by omega) hw

theorem TimeRun.weaken (h : TimeRun fits idx fields w fields') (hlast : last < idx) :
    TimeRun fits last fields w fields' := by
  cases h with
  | nil => exact .nil
  | cons hds hunit hlt hw => exact .cons hds hunit (by omega) hw
  | fraction hds hm hpos hle hfs hunit hlt => exact .fraction hds hm hpos hle hfs hunit (by omega)

/-- The magnitudes of the first fields. -/
def magnitudes (n : Nat) (v : DurationFields) : DurationFields :=
  fun k => if k < n then (v k).natAbs else 0

theorem update_magnitudes (v : DurationFields) (idx : Fin 10) :
    Function.update (magnitudes idx v) idx (v idx).natAbs = magnitudes ((idx : Nat) + 1) v := by
  funext k
  by_cases hk : k = idx
  · subst hk
    rw [Function.update_self, magnitudes, if_pos (Nat.lt_succ_self _)]
  · rw [Function.update_of_ne hk, magnitudes, magnitudes]
    congr 1
    have : (k : Nat) ≠ idx := fun h => hk (Fin.ext h)
    rw [eq_iff_iff]
    omega

theorem magnitudes_zero (v : DurationFields) : magnitudes 0 v = fun _ => 0 := by
  funext k
  exact if_neg (Nat.not_lt_zero _)

theorem DateRun.field (hn : fits (v idx).natAbs) (hunit : dateUnit c = some idx)
    (hlast : last < idx) (h : DateRun fits idx (magnitudes ((idx : Nat) + 1) v) w fields') :
    DateRun fits last (magnitudes idx v) (numberUnit (v idx).natAbs c ++ w) fields' := by
  rw [← update_magnitudes] at h
  unfold numberUnit
  split
  · rename_i hzero
    have hfresh : magnitudes idx v idx = 0 := if_neg (Nat.lt_irrefl _)
    rw [hzero, Nat.cast_zero, ← hfresh, Function.update_eq_self] at h
    exact h.weaken hlast
  · rw [List.append_assoc]
    refine .cons (numberText_decimal hn) hunit hlast ?_
    rwa [numberOf_decimal]

theorem TimeRun.field (hn : fits (v idx).natAbs) (hunit : timeUnit c = some idx)
    (hlast : last < idx) (h : TimeRun fits idx (magnitudes ((idx : Nat) + 1) v) w fields') :
    TimeRun fits last (magnitudes idx v) (numberUnit (v idx).natAbs c ++ w) fields' := by
  rw [← update_magnitudes] at h
  unfold numberUnit
  split
  · rename_i hzero
    have hfresh : magnitudes idx v idx = 0 := if_neg (Nat.lt_irrefl _)
    rw [hzero, Nat.cast_zero, ← hfresh, Function.update_eq_self] at h
    exact h.weaken hlast
  · rw [List.append_assoc]
    refine .cons (numberText_decimal hn) hunit hlast ?_
    rwa [numberOf_decimal]

theorem cascade_second {frac scale sub : Nat} (h : frac * 1_000_000_000 / 10 ^ scale = sub)
    (fields : DurationFields) (k : Fin 10) :
    cascade 6 frac scale fields k =
      if k = 7 then fields 7 + (sub / 1_000_000 : Nat)
      else if k = 8 then fields 8 + (sub % 1_000_000 / 1_000 : Nat)
      else if k = 9 then fields 9 + (sub % 1_000_000 % 1_000 : Nat)
      else fields k := by
  have hhour : ¬(6 : Fin 10) = 4 := by decide
  have hminute : ¬(6 : Fin 10) = 5 := by decide
  have hbelow : ¬(6 : Fin 10) ≤ 5 := by decide
  simp only [cascade, hhour, hminute, hbelow, if_false, h, Nat.cast_zero, Int.add_zero]
  by_cases h5 : k = 5
  · subst h5
    rfl
  · by_cases h6 : k = 6
    · subst h6
      rfl
    · simp only [h5, h6, if_false]

/-- Whole seconds and the nanoseconds after them. -/
theorem TimeRun.seconds {secs sub : Nat} (hn : fits secs) (hsub : sub < 1_000_000_000)
    (hlast : last < 6) (hfresh : fields 7 = 0 ∧ fields 8 = 0 ∧ fields 9 = 0) :
    ∃ g, TimeRun fits last fields
        (decimal secs ++ (formatFractionalSeconds sub .auto ++ [0x53])) g ∧
      (∀ k, k < 6 → g k = fields k) ∧ (∀ k, 6 ≤ k → 0 ≤ g k) ∧
        secondsNs g = secs * 1_000_000_000 + sub := by
  obtain ⟨h7, h8, h9⟩ := hfresh
  have hunit : timeUnit 0x53 = some 6 := by decide
  by_cases hzero : sub = 0
  · subst hzero
    refine ⟨_, .cons (numberText_decimal hn) hunit hlast .nil, ?_, ?_, ?_⟩
    · intro k hk
      exact Function.update_of_ne hk.ne _ _
    · intro k hk
      rw [numberOf_decimal]
      by_cases h6 : k = 6
      · rw [h6, Function.update_self]
        omega
      · rw [Function.update_of_ne h6]
        have hlate : k = 7 ∨ k = 8 ∨ k = 9 := by omega
        rcases hlate with rfl | rfl | rfl <;> omega
    · rw [numberOf_decimal, secondsNs, Function.update_self, Function.update_of_ne (by decide),
        Function.update_of_ne (by decide), Function.update_of_ne (by decide), h7, h8, h9]
      omega
  · have hfraction := fraction_spec hzero hsub
    generalize formatFractionalSeconds sub .auto = w at hfraction
    cases hfraction with
    | @mk m ds hm hpos hle hds =>
        have hrest : numberOf ds * 1_000_000_000 / 10 ^ ds.length =
            numberOf ds * 10 ^ (9 - ds.length) := by
          rw [show 1_000_000_000 = 10 ^ (9 - ds.length) * 10 ^ ds.length by
            rw [← pow_add, Nat.sub_add_cancel hle]; norm_num, ← Nat.mul_assoc]
          exact Nat.mul_div_cancel _ (Nat.pow_pos (by decide))
        generalize numberOf ds * 10 ^ (9 - ds.length) = sub at *
        refine ⟨_, .fraction (numberText_decimal hn) hm hpos hle hds hunit hlast, ?_, ?_, ?_⟩
        · intro k hk
          rw [cascade_second hrest, if_neg (by omega), if_neg (by omega), if_neg (by omega)]
          exact Function.update_of_ne hk.ne _ _
        · intro k hk
          rw [cascade_second hrest, numberOf_decimal]
          simp only [Function.update_apply]
          have hlate : k = 6 ∨ k = 7 ∨ k = 8 ∨ k = 9 := by omega
          rcases hlate with rfl | rfl | rfl | rfl <;> simp [h7, h8, h9] <;> omega
        · simp only [secondsNs, cascade_second hrest, numberOf_decimal, Function.update_apply]
          simp [h7, h8, h9]
          omega

/-! Records. -/

theorem duration_bounds {sign : Int} (hv : ValidFields v sign) (k : Fin 10) :
    (v k).natAbs ≤ maxTimeDuration ∧ (k < 6 → (v k).natAbs < 2 ^ 53) := by
  obtain ⟨h0, h1, h2⟩ := hv.calendar
  have htime := hv.time
  simp only [maxTimeDuration, nsPerDay, nsPerHour, nsPerMinute, nsPerSecond] at htime ⊢
  have hk : k = 0 ∨ k = 1 ∨ k = 2 ∨ k = 3 ∨ k = 4 ∨ k = 5 ∨ k = 6 ∨ k = 7 ∨ k = 8 ∨ k = 9 := by
    omega
  rcases hk with rfl | rfl | rfl | rfl | rfl | rfl | rfl | rfl | rfl | rfl
  all_goals exact ⟨by omega, fun hlt => by omega⟩

/-- The seconds of a record, as a printer adds them up. -/
theorem secondsDuration_int (hd : ∀ k, (d k).HasInt (v k)) {sign : Int}
    (hv : ValidFields v sign) :
    timeDurationFromComponents (fun k => if k ≤ 5 then .zero else d k) = secondsNs v := by
  have hpart : ∀ k, asI128 (d k) = v k := by
    intro k
    have hbound := (duration_bounds hv k).1
    have hmax : maxTimeDuration < 2 ^ 127 - 1 := by norm_num [maxTimeDuration, nsPerSecond]
    have htrunc := F64.truncate_int (hd k)
    have hfinite := (hd k).1
    generalize d k = x at htrunc hfinite
    cases x with
    | nan | infinity => cases hfinite
    | finite s e m =>
        rw [asI128, htrunc]
        omega
  have hzero : asI128 .zero = 0 := by
    have htrunc := F64.truncate_int F64.hasInt_zero
    rw [F64.zero] at htrunc ⊢
    rw [asI128, htrunc]
    decide
  have hlow : ∀ k : Fin 10, k ≤ 5 → asI128 (if k ≤ 5 then .zero else d k) = 0 := by
    intro k hk
    rw [if_pos hk, hzero]
  have hhigh : ∀ k : Fin 10, ¬k ≤ 5 → asI128 (if k ≤ 5 then .zero else d k) = v k := by
    intro k hk
    rw [if_neg hk, hpart]
  simp only [timeDurationFromComponents, secondsNs]
  rw [hlow 4 (by decide), hlow 5 (by decide), hhigh 6 (by decide), hhigh 7 (by decide),
    hhigh 8 (by decide), hhigh 9 (by decide)]
  ring

theorem secondsNs_signed {sign : Int} (hv : ValidFields v sign) :
    secondsNs v = sign * (secondsNs v).natAbs ∧ (secondsNs v).natAbs ≤ maxTimeDuration := by
  have h6 := hv.signed 6
  have h7 := hv.signed 7
  have h8 := hv.signed 8
  have h9 := hv.signed 9
  have htime := hv.time
  simp only [maxTimeDuration, nsPerDay, nsPerHour, nsPerMinute, nsPerSecond, secondsNs] at htime ⊢
  rcases hv.unit with rfl | rfl <;> omega

theorem fields_zero_iff {sign : Int} (hs : sign = 1 ∨ sign = -1) (h : ∀ k, 0 ≤ sign * v k) :
    (∀ k, v k = 0) ↔ (∀ k, k < 6 → v k = 0) ∧ secondsNs v = 0 := by
  constructor
  · intro hall
    refine ⟨fun k _ => hall k, ?_⟩
    rw [secondsNs, hall, hall, hall, hall]
    rfl
  · intro hzero k
    obtain ⟨hlow, htotal⟩ := hzero
    by_cases hk : k < 6
    · exact hlow k hk
    · have h6 := h 6
      have h7 := h 7
      have h8 := h 8
      have h9 := h 9
      rw [secondsNs] at htotal
      have hcase : k = 6 ∨ k = 7 ∨ k = 8 ∨ k = 9 := by omega
      rcases hs with rfl | rfl <;> rcases hcase with rfl | rfl | rfl | rfl <;> omega

/-- A record with no field above the seconds has the seconds, or less, as its largest unit. -/
theorem largestUnit_low (hd : ∀ k, (d k).HasInt (v k)) (h : ∀ k, k < 6 → v k = 0) :
    defaultTemporalLargestUnit d ∈ [Unit.second, .millisecond, .microsecond, .nanosecond] := by
  have hzero : ∀ k, k < 6 → F64.eq (d k) .zero = true := by
    intro k hk
    rw [F64.eq_int (hd k) F64.hasInt_zero, h k hk]
    rfl
  have hten : List.ofFn d = [d 0, d 1, d 2, d 3, d 4, d 5, d 6, d 7, d 8, d 9] := rfl
  rw [defaultTemporalLargestUnit, hten]
  simp only [List.zip_cons_cons, List.zip_nil_right, firstUnit]
  rw [if_pos (hzero 0 (by decide)), if_pos (hzero 1 (by decide)), if_pos (hzero 2 (by decide)),
    if_pos (hzero 3 (by decide)), if_pos (hzero 4 (by decide)), if_pos (hzero 5 (by decide))]
  repeat' split
  all_goals decide

theorem numberUnit_eq_nil {n : Nat} {c : UInt16} : numberUnit n c = [] ↔ n = 0 := by
  unfold numberUnit
  split
  · rename_i hzero
    exact ⟨fun _ => hzero, fun _ => rfl⟩
  · rename_i hne
    exact ⟨fun h => absurd (List.append_eq_nil_iff.1 h).2 (List.cons_ne_nil _ _),
      fun h => absurd h hne⟩

theorem dateText_run (hfits : ∀ k, k < 6 → fits (v k).natAbs) :
    DateRun fits (-1) (fun _ => 0) (numberUnit (v 0).natAbs 0x59 ++ (numberUnit (v 1).natAbs 0x4D ++
      (numberUnit (v 2).natAbs 0x57 ++ numberUnit (v 3).natAbs 0x44))) (magnitudes 4 v) := by
  rw [← magnitudes_zero v, ← List.append_nil (numberUnit (v 3).natAbs 0x44)]
  refine DateRun.field (v := v) (hfits 0 (by decide)) (by decide) (by decide) ?_
  refine DateRun.field (v := v) (hfits 1 (by decide)) (by decide) (by decide) ?_
  refine DateRun.field (v := v) (hfits 2 (by decide)) (by decide) (by decide) ?_
  exact DateRun.field (v := v) (hfits 3 (by decide)) (by decide) (by decide) .nil

theorem timeText_run (hfits : ∀ k, k < 6 → fits (v k).natAbs)
    (h : TimeRun fits 5 (magnitudes 6 v) w fields') :
    TimeRun fits (-1) (magnitudes 4 v)
      (numberUnit (v 4).natAbs 0x48 ++ (numberUnit (v 5).natAbs 0x4D ++ w)) fields' := by
  refine TimeRun.field (v := v) (hfits 4 (by decide)) (by decide) (by decide) ?_
  exact TimeRun.field (v := v) (hfits 5 (by decide)) (by decide) (by decide) h

theorem durationText_string (hd : ∀ k, (d k).HasInt (v k)) (h : isValidDuration d = true) :
    ∃ g : DurationFields,
      DurationText (fun n => n ≤ maxI64) false (temporalDurationToString d .auto)
        (fun k => g k * if durationSign d < 0 then -1 else 1) ∧
      (∀ k, k < 6 → g k = (v k).natAbs) ∧ (∀ k, 6 ≤ k → 0 ≤ g k) ∧
      secondsNs g = (secondsNs v).natAbs := by
  have hv := validFields hd h
  obtain ⟨-, hmax⟩ := secondsNs_signed hv
  have hfits : ∀ k, k < 6 → (v k).natAbs ≤ maxI64 := by
    intro k hk
    have := (duration_bounds hv k).2 hk
    simp only [maxI64]
    omega
  have hunits : ∀ k, k < 6 → ∀ c, unitText (d k) c = numberUnit (v k).natAbs c := by
    intro k hk c
    exact unitText_eq (hd k) (hfits k hk) c
  have hsecs : (secondsNs v).natAbs / nsPerSecond ≤ maxI64 := by
    simp only [maxTimeDuration, nsPerSecond, maxI64] at hmax ⊢
    omega
  have hsub : (secondsNs v).natAbs % nsPerSecond < 1_000_000_000 := Nat.mod_lt _ (by decide)
  have hsplit := Nat.div_add_mod (secondsNs v).natAbs nsPerSecond
  have hsign : SignText (if durationSign d < 0 then [Cu.minus] else [])
      (if durationSign d < 0 then -1 else 1) := by
    split
    · exact .minus
    · exact .none
  have hdate : DateRun (fun n => n ≤ maxI64) (-1) (fun _ => 0) _ (magnitudes 4 v) :=
    dateText_run hfits
  unfold temporalDurationToString
  simp only [secondsDuration_int hd hv]
  rw [hunits 0 (by decide), hunits 1 (by decide), hunits 2 (by decide), hunits 3 (by decide),
    hunits 4 (by decide), hunits 5 (by decide)]
  generalize (if durationSign d < 0 then [Cu.minus] else []) = signPart at hsign
  generalize (if durationSign d < 0 then (-1 : Int) else 1) = sign at hsign
  by_cases hprint : (secondsNs v).natAbs ≠ 0 ∨ decide (defaultTemporalLargestUnit d ∈
      [Unit.second, .millisecond, .microsecond, .nanosecond]) = true ∨ FracPrecision.auto ≠ .auto
  · rw [if_pos hprint]
    obtain ⟨g, hrun, hlow, hhigh, htotal⟩ :
        ∃ g, TimeRun (fun n => n ≤ maxI64) 5 (magnitudes 6 v) _ g ∧ _ ∧ _ ∧ _ :=
      TimeRun.seconds hsecs hsub (by decide)
        ⟨if_neg (by decide), if_neg (by decide), if_neg (by decide)⟩
    have htime := timeText_run hfits hrun
    rw [List.append_assoc (numberUnit (v 4).natAbs 0x48)]
    generalize hw : numberUnit (v 4).natAbs 0x48 ++ (numberUnit (v 5).natAbs 0x4D ++
      (decimal ((secondsNs v).natAbs / nsPerSecond) ++
        (formatFractionalSeconds ((secondsNs v).natAbs % nsPerSecond) .auto ++ [0x53]))) = w at htime
    have hne : w ≠ [] := by
      rw [← hw]
      simp
    rw [if_neg hne]
    refine ⟨g, .mk hsign (Or.inl rfl) hdate (.timed (Or.inl rfl) htime (Or.inl hne)) (Or.inr ?_),
      ?_, hhigh, ?_⟩
    · exact Nat.succ_lt_succ (List.length_pos_of_ne_nil hne)
    · intro k hk
      rw [hlow k hk]
      exact if_pos hk
    · rw [htotal]
      simp only [nsPerSecond] at hsplit ⊢
      omega
  · rw [if_neg hprint]
    simp only [not_or, not_not, decide_eq_true_iff] at hprint
    obtain ⟨hzero, hlarge, -⟩ := hprint
    have htime : TimeRun (fun n => n ≤ maxI64) (-1) (magnitudes 4 v) _ (magnitudes 6 v) :=
      timeText_run hfits .nil
    rw [List.append_nil] at htime
    refine ⟨magnitudes 6 v, ?_, fun k hk => if_pos hk, fun k hk => ?_, ?_⟩
    · by_cases hnil : numberUnit (v 4).natAbs 0x48 ++ numberUnit (v 5).natAbs 0x4D = []
      · obtain ⟨h4, h5⟩ := List.append_eq_nil_iff.1 hnil
        rw [hnil] at htime ⊢
        rw [numberUnit_eq_nil] at h4 h5
        have hsame : magnitudes 6 v = magnitudes 4 v := by
          funext k
          by_cases hk : k = 4 ∨ k = 5
          · rcases hk with rfl | rfl
            · simp [magnitudes, h4]
            · simp [magnitudes, h5]
          · unfold magnitudes
            congr 1
            rw [eq_iff_iff]
            omega
        rw [hsame]
        refine .mk hsign (Or.inl rfl) hdate .absent (Or.inl ?_)
        intro hempty
        simp only [List.append_eq_nil_iff, numberUnit_eq_nil] at hempty
        obtain ⟨h0, h1, h2, h3⟩ := hempty
        refine hlarge (largestUnit_low hd fun k hk => Int.natAbs_eq_zero.1 ?_)
        have hcase : k = 0 ∨ k = 1 ∨ k = 2 ∨ k = 3 ∨ k = 4 ∨ k = 5 := by omega
        rcases hcase with rfl | rfl | rfl | rfl | rfl | rfl <;> assumption
      · rw [if_neg hnil]
        refine .mk hsign (Or.inl rfl) hdate (.timed (Or.inl rfl) htime (Or.inl hnil)) (Or.inr ?_)
        exact Nat.succ_lt_succ (List.length_pos_of_ne_nil hnil)
    · rw [magnitudes, if_neg (by omega)]
    · rw [hzero]
      simp [secondsNs, magnitudes]

/-- Reading back what was written gives the fields of the record down to the minutes, and the
same total of what is below them. -/
theorem duration_roundTrip (hd : ∀ k, (d k).HasInt (v k)) (h : isValidDuration d = true) :
    ∃ f, parseDurationString (temporalDurationToString d .auto) = .ok f ∧
      (∀ k, k < 6 → f k = v k) ∧ secondsNs f = secondsNs v ∧ fieldsSign f = durationSign d := by
  obtain ⟨g, htext, hlow, hhigh, htotal⟩ := durationText_string hd h
  have hv := validFields hd h
  rw [durationSign_int hd] at htext hv ⊢
  obtain ⟨hseconds, -⟩ := secondsNs_signed hv
  generalize hsign : (if fieldsSign v < 0 then (-1 : Int) else 1) = sign at *
  have hfields : ∀ k, k < 6 → g k * sign = v k := by
    intro k hk
    have hk' := hv.signed k
    rw [hlow k hk]
    rcases hv.unit with rfl | rfl <;> omega
  have htotal' : secondsNs (fun k => g k * sign) = secondsNs v := by
    rw [hseconds, ← htotal]
    simp only [secondsNs]
    ring
  refine ⟨_, parseDuration_eq_ok_iff.2 htext.allow_bare, hfields, htotal', ?_⟩
  have hsigned : ∀ k, 0 ≤ sign * (g k * sign) := by
    intro k
    have hnonneg : 0 ≤ g k := by
      by_cases hk : k < 6
      · rw [hlow k hk]
        exact Int.natCast_nonneg _
      · exact hhigh k (not_lt.1 hk)
    rcases hv.unit with rfl | rfl <;> omega
  have hzero : (∀ k, g k * sign = 0) ↔ ∀ k, v k = 0 := by
    rw [fields_zero_iff hv.unit hsigned, fields_zero_iff hv.unit hv.signed, htotal']
    exact and_congr_left' (forall_congr' fun k => imp_congr_right fun hk => by rw [hfields k hk])
  rw [fieldsSign_signed hv.unit hsigned, fieldsSign_signed hv.unit hv.signed]
  simp only [hzero]

/-- The texts that are read, those with a bare time mark at the end apart, are the grammar's up
to numbers of 63 bits, and the texts of valid records are among them. -/
theorem duration_strings :
    (∀ text, ¬EndsInMark text → ∀ fields, parseDurationString text = .ok fields ↔
      DurationText (fun n => n ≤ maxI64) false text fields) ∧
    ∀ (d : DurationRecord) (v : DurationFields), (∀ k, (d k).HasInt (v k)) →
      isValidDuration d = true →
      ∃ f, parseDurationString (temporalDurationToString d .auto) = .ok f ∧
        (∀ k, k < 6 → f k = v k) ∧ secondsNs f = secondsNs v ∧ fieldsSign f = durationSign d := by
  constructor
  · intro text htext fields
    rw [parseDuration_eq_ok_iff, bare_iff htext]
  · intro d v hd h
    exact duration_roundTrip hd h

/-- `-P1YT5H1.50000002S` -/
theorem duration_strings_negative :
    let v : DurationFields := fun k =>
      if k = 0 then -1 else if k = 4 then -5 else if k = 7 then -1500 else if k = 9 then -20 else 0
    ¬EndsInMark (temporalDurationToString (fun k => .ofInt (v k)) .auto) ∧
    isValidDuration (fun k => .ofInt (v k)) = true ∧
    ∃ f, parseDurationString (temporalDurationToString (fun k => .ofInt (v k)) .auto) = .ok f ∧
      DurationText (fun n => n ≤ maxI64) false
        (temporalDurationToString (fun k => .ofInt (v k)) .auto) f ∧
      (∀ k, k < 6 → f k = v k) ∧ secondsNs f = secondsNs v := by
  intro v
  have hvalid : isValidDuration (fun k => .ofInt (v k)) = true := by decide +kernel
  have hint : ∀ k, (F64.ofInt (v k)).HasInt (v k) := by
    intro k
    exact F64.hasInt_ofInt ((show ∀ k, (v k).natAbs < 2 ^ 53 by decide) k)
  have hmark : ¬EndsInMark (temporalDurationToString (fun k => .ofInt (v k)) .auto) := by
    have htext : (temporalDurationToString (fun k => .ofInt (v k)) .auto).getLast? = some 0x53 := by
      decide +kernel
    rintro ⟨c, hc, hmark⟩
    rw [htext] at hc
    obtain rfl := Option.some.inj hc
    rcases hmark with h | h <;> cases h
  obtain ⟨f, hparse, hlow, htotal, -⟩ := duration_strings.2 _ v hint hvalid
  exact ⟨hmark, hvalid, f, hparse, (duration_strings.1 _ hmark f).1 hparse, hlow, htotal⟩

/-- `P9223372036854775808Y`, whose number no `i64` holds. -/
theorem duration_strings_overflow :
    ¬∀ text, (∃ fields, parseDurationString text = .ok fields) ↔
      ∃ fields, DurationText (fun _ => True) false text fields := by
  intro h
  let ds : Text := [0x39, 0x32, 0x32, 0x33, 0x33, 0x37, 0x32, 0x30, 0x33, 0x36, 0x38, 0x35, 0x34,
    0x37, 0x37, 0x35, 0x38, 0x30, 0x38]
  have hnumber : NumberText (fun _ => True) ds := ⟨by decide, List.all_eq_true.mp rfl, trivial⟩
  have hyear : dateUnit 0x59 = some 0 := by decide
  have hdate : DateRun (fun _ => True) (-1) (fun _ => 0) (ds ++ [0x59]) _ :=
    .cons hnumber hyear (by decide) .nil
  obtain ⟨fields, hparse⟩ := (h _).2
    ⟨_, .mk .none (Or.inl rfl) hdate .absent (Or.inl (by simp))⟩
  have hrefused : (parseDurationString (Cu.p :: (ds ++ [0x59]))).isOk = false := by decide
  simp only [List.nil_append, List.append_nil] at hparse
  rw [hparse] at hrefused
  cases hrefused

end Slag.Temporal
