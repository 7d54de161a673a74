import Mathlib.Data.Int.ConditionallyCompleteOrder
import Mathlib.Order.Monotone.Basic
import Mathlib.Tactic.IntervalCases

/-!
The Hebrew calendar of `temporal/calendar.rs`. A year begins on the day of its molad
or up to two days later. Molads are counted in parts, of which a day has 25920. The
functions of the source compute with `i64`; the calendar they stand for is that of
`Molad`, over all integers.
-/

namespace Slag.Temporal

/-- What an operation does beyond the range of its type: with overflow checks it panics,
without them it wraps around. -/
inductive Overflow
  | panics | wraps
deriving DecidableEq, Repr

def InI64 (x : Int) : Prop := -9223372036854775808 ≤ x ∧ x ≤ 9223372036854775807

instance (x : Int) : Decidable (InI64 x) :=
  inferInstanceAs (Decidable (_ ∧ _))

/-- The result of an operation on `i64`; none is a panic. -/
def Overflow.i64 (o : Overflow) (x : Int) : Option Int :=
  if InI64 x then some x
  else
    match o with
    | .panics => none
    | .wraps => some (x.bmod 18446744073709551616)

theorem Overflow.i64_eq {o : Overflow} {x : Int} (h : InI64 x) : o.i64 x = some x :=
  if_pos h

/-- The fixed day before the first of Tishri of the year one. Fixed days that are
multiples of seven are Sundays. -/
def hebrewEpoch : Int := -1_373_428

/-! ## The functions of the source

Remainders, and what is made of remainders only, stay far below the bounds of `i64`
and are not checked. -/

section Source

variable (o : Overflow)

def hebrewLeapYear (year : Int) : Option Bool := do
  let scaled ← o.i64 (7 * year)
  let moved ← o.i64 (scaled + 1)
  return decide (moved % 19 < 7)

def hebrewMonthsBeforeYear (year : Int) : Option Int := do
  let years ← o.i64 (year - 1)
  let cycles ← o.i64 (235 * (years / 19))
  let regular ← o.i64 (cycles + 12 * (years % 19))
  o.i64 (regular + (7 * (years % 19) + 1) / 19)

/-- The rules at the end of `hebrew_elapsed_days`. -/
def hebrewPostponed (day parts : Int) (leap : Bool) : Option Int := do
  let dow := day % 7
  let day ←
    (if 19440 ≤ parts ∨ dow = 2 ∧ 9924 ≤ parts ∧ leap = false ∨
        dow = 0 ∧ 16789 ≤ parts ∧ leap = true then o.i64 (day + 1)
    else some day)
  if day % 7 = 0 ∨ day % 7 = 3 ∨ day % 7 = 5 then o.i64 (day + 1) else some day

def hebrewElapsedDays (year : Int) : Option Int := do
  let months ← hebrewMonthsBeforeYear o year
  let partsElapsed := 204 + 793 * (months % 1080)
  let hours ← o.i64 (12 * months)
  let hours ← o.i64 (5 + hours)
  let carried ← o.i64 (793 * (months / 1080))
  let hours ← o.i64 (hours + carried)
  let hoursElapsed ← o.i64 (hours + partsElapsed / 1080)
  let days ← o.i64 (29 * months)
  let days ← o.i64 (1 + days)
  let day ← o.i64 (days + hoursElapsed / 24)
  let parts := 1080 * (hoursElapsed % 24) + partsElapsed % 1080
  let leap ← hebrewLeapYear o year
  hebrewPostponed o day parts leap

def hebrewLengthCorrection (year : Int) : Option Int := do
  let next ← o.i64 (year + 1)
  let after ← hebrewElapsedDays o next
  let here ← hebrewElapsedDays o year
  let length ← o.i64 (after - here)
  if length = 356 then some 2
  else
    (o.i64 (year - 1)).bind fun previous =>
    (hebrewElapsedDays o previous).bind fun before =>
    (o.i64 (here - before)).bind fun length => some (if length = 382 then 1 else 0)

/-- The days before the first of Tishri of a year, corrected. -/
def hebrewYearStart (year : Int) : Option Int := do
  let elapsed ← hebrewElapsedDays o year
  let correction ← hebrewLengthCorrection o year
  o.i64 (elapsed + correction)

def hebrewYearLength (year : Int) : Option Int := do
  let next ← o.i64 (year + 1)
  let after ← hebrewYearStart o next
  let here ← hebrewYearStart o year
  o.i64 (after - here)

def hebrewMonthsInYear (year : Int) : Option Int := do
  let leap ← hebrewLeapYear o year
  return if leap then 13 else 12

/-- The table of month lengths, by the last digit of the length of the year. -/
def monthDays (leap : Bool) (len month : Int) : Int :=
  match month with
  | 1 => 30
  | 2 => if len = 5 then 30 else 29
  | 3 => if len = 4 ∨ len = 5 then 30 else 29
  | 4 => 29
  | 5 => 30
  | 6 => if leap then 30 else 29
  | 7 => if leap then 29 else 30
  | 8 => if leap then 30 else 29
  | 9 => if leap then 29 else 30
  | 10 => if leap then 30 else 29
  | 11 => if leap then 29 else 30
  | 12 => if leap then 30 else 29
  | _ => 29

def hebrewMonthLength (year month : Int) : Option Int := do
  let leap ← hebrewLeapYear o year
  let length ← hebrewYearLength o year
  return monthDays leap (length.tmod 10) month

/-- The days of a number of months, from Tishri on. -/
def hebrewDaysBefore (year : Int) (months : Nat) : Option Int :=
  (List.range months).foldlM (fun (days : Int) (m : Nat) => do
    let length ← hebrewMonthLength o year (m + 1)
    o.i64 (days + length)) 0

def hebrewToFixed (year month day : Int) : Option Int := do
  let start ← hebrewYearStart o year
  let daysBefore ← hebrewDaysBefore o year (month - 1).toNat
  let fixed ← o.i64 (hebrewEpoch + start)
  let fixed ← o.i64 (fixed + daysBefore)
  let fixed ← o.i64 (fixed + day)
  o.i64 (fixed - 1)

/-- The first loop of the search, for so many rounds at most. -/
def hebrewYearDown (rd : Int) : Nat → Int → Option Int
  | 0, _ => none
  | fuel + 1, year =>
      (hebrewToFixed o year 1 1).bind fun first =>
      if rd < first then (o.i64 (year - 1)).bind (hebrewYearDown rd fuel) else some year

def hebrewYearUp (rd : Int) : Nat → Int → Option Int
  | 0, _ => none
  | fuel + 1, year =>
      (o.i64 (year + 1)).bind fun next =>
      (hebrewToFixed o next 1 1).bind fun first =>
      if first ≤ rd then hebrewYearUp rd fuel next else some year

def hebrewMonthUp (rd year : Int) : Nat → Int → Option Int
  | 0, _ => none
  | fuel + 1, month =>
      (hebrewMonthsInYear o year).bind fun months =>
      if month < months then
        (hebrewToFixed o year (month + 1) 1).bind fun first =>
        if first ≤ rd then hebrewMonthUp rd year fuel (month + 1) else some month
      else some month

def hebrewFromFixed (fuel : Nat) (rd : Int) : Option (Int × Int × Int) := do
  let days ← o.i64 (rd - hebrewEpoch)
  let scaled ← o.i64 (days * 19)
  let year ← hebrewYearDown o rd fuel (scaled.tdiv 6940 + 1)
  let year ← hebrewYearUp o rd fuel year
  let month ← hebrewMonthUp o rd year fuel 1
  let first ← hebrewToFixed o year month 1
  let day ← o.i64 (rd - first)
  let day ← o.i64 (day + 1)
  return (year, month, day)

end Source

/-! ## The calendar -/

namespace Molad

def leapYear (year : Int) : Bool := (7 * year + 1) % 19 < 7

def monthsBeforeYear (year : Int) : Int :=
  235 * ((year - 1) / 19) + 12 * ((year - 1) % 19) + (7 * ((year - 1) % 19) + 1) / 19

/-- The rules that postpone a year, for a molad on some day at some parts of it. -/
def postponed (day parts : Int) (leap : Bool) : Int :=
  let dow := day % 7
  let later :=
    if 19440 ≤ parts ∨ dow = 2 ∧ 9924 ≤ parts ∧ leap = false ∨
        dow = 0 ∧ 16789 ≤ parts ∧ leap = true then day + 1
    else day
  if later % 7 = 0 ∨ later % 7 = 3 ∨ later % 7 = 5 then later + 1 else later

def elapsedDays (year : Int) : Int :=
  let months := monthsBeforeYear year
  let partsElapsed := 204 + 793 * (months % 1080)
  let hoursElapsed := 5 + 12 * months + 793 * (months / 1080) + partsElapsed / 1080
  let day := 1 + 29 * months + hoursElapsed / 24
  let parts := 1080 * (hoursElapsed % 24) + partsElapsed % 1080
  postponed day parts (leapYear year)

def lengthCorrection (year : Int) : Int :=
  if elapsedDays (year + 1) - elapsedDays year = 356 then 2
  else if elapsedDays year - elapsedDays (year - 1) = 382 then 1
  else 0

def yearLength (year : Int) : Int :=
  (elapsedDays (year + 1) + lengthCorrection (year + 1)) -
    (elapsedDays year + lengthCorrection year)

def monthsInYear (year : Int) : Int := if leapYear year then 13 else 12

def monthLength (year month : Int) : Int :=
  monthDays (leapYear year) ((yearLength year).tmod 10) month

/-- The days of a number of months, from Tishri on. -/
def daysBefore (year : Int) (months : Nat) : Int :=
  ((List.range months).map fun m : Nat => monthLength year (m + 1)).sum

def toFixed (year month day : Int) : Int :=
  hebrewEpoch + (elapsedDays year + lengthCorrection year) + daysBefore year (month - 1).toNat +
    day - 1

/-! ### The lengths of years -/

def molad (year : Int) : Int := 31524 + 765433 * monthsBeforeYear year

theorem elapsedDays_eq (year : Int) : elapsedDays year =
    postponed (molad year / 25920) (molad year % 25920) (leapYear year) := by
  simp only [elapsedDays, molad]
  generalize monthsBeforeYear year = m
  have hday : 1 + 29 * m + (5 + 12 * m + 793 * (m / 1080) + (204 + 793 * (m % 1080)) / 1080) / 24 =
      (31524 + 765433 * m) / 25920 := by omega
  have hparts : 1080 * ((5 + 12 * m + 793 * (m / 1080) + (204 + 793 * (m % 1080)) / 1080) % 24) +
      (204 + 793 * (m % 1080)) % 1080 = (31524 + 765433 * m) % 25920 := by omega
  rw [hday, hparts]

/-- A year in the cycle of nineteen. -/
theorem cycle_split (year : Int) : ∃ q r, 0 ≤ r ∧ r < 19 ∧ year = 19 * q + r + 1 :=
  ⟨(year - 1) / 19, (year - 1) % 19, by omega, by omega, by omega⟩

theorem monthsBeforeYear_succ (year : Int) :
    monthsBeforeYear (year + 1) =
      monthsBeforeYear year + if leapYear year then 13 else 12 := by
  obtain ⟨q, r, hr, hr', rfl⟩ := cycle_split year
  have hquot : (19 * q + r + 1 - 1) / 19 = q := by omega
  have hrem : (19 * q + r + 1 - 1) % 19 = r := by omega
  have hleap : (7 * (19 * q + r + 1) + 1) % 19 = (7 * r + 8) % 19 := by omega
  simp only [monthsBeforeYear, leapYear, decide_eq_true_eq, hquot, hrem, hleap]
  by_cases hlast : r = 18
  · have hquot' : (19 * q + r + 1 + 1 - 1) / 19 = q + 1 := by omega
    have hrem' : (19 * q + r + 1 + 1 - 1) % 19 = 0 := by omega
    rw [hquot', hrem', hlast]
    norm_num
    omega
  · have hquot' : (19 * q + r + 1 + 1 - 1) / 19 = q := by omega
    have hrem' : (19 * q + r + 1 + 1 - 1) % 19 = r + 1 := by omega
    have hnext : 7 * (r + 1) + 1 = 7 * r + 8 := by omega
    rw [hquot', hrem', hnext]
    split <;> omega

variable {year : Int}

/-- No two leap years follow one another. -/
theorem leapYear_succ (h : leapYear year = true) :
    leapYear (year + 1) = false := by
  obtain ⟨q, r, hr, hr', rfl⟩ := cycle_split year
  simp only [leapYear, decide_eq_true_eq, decide_eq_false_iff_not] at h ⊢
  interval_cases r <;> omega

/-- The day and the parts of the next molad. -/
theorem molad_succ (year : Int) :
    molad (year + 1) / 25920 = molad year / 25920 +
        (if leapYear year then 383 + (molad year % 25920 + 23269) / 25920
          else 354 + (molad year % 25920 + 9516) / 25920) ∧
      molad (year + 1) % 25920 =
        if leapYear year then (molad year % 25920 + 23269) % 25920
          else (molad year % 25920 + 9516) % 25920 := by
  simp only [molad, monthsBeforeYear_succ]
  split <;> omega

section Week

variable {d p : Int}

theorem postponed_mod (d p : Int) (l : Bool) : postponed d p l % 7 ≠ 0 ∧
    postponed d p l % 7 ≠ 3 ∧ postponed d p l % 7 ≠ 5 := by
  simp only [postponed]
  split_ifs <;> omega

/-- Whether the parts carry decides the weekday of the next molad. -/
theorem parts_carry (hp : 0 ≤ p) (hp' : p < 25920) {c : Int} (hc : 0 ≤ c) (hc' : c < 25920) :
    p + c < 25920 ∧ (p + c) / 25920 = 0 ∧ (p + c) % 25920 = p + c ∨
      25920 ≤ p + c ∧ (p + c) / 25920 = 1 ∧ (p + c) % 25920 = p + c - 25920 := by
  omega

/-- The days from a molad to the year, by the weekday of the molad. -/
def delay (dow parts : Int) (leap : Bool) : Int :=
  if dow = 0 ∨ dow = 3 ∨ dow = 5 then 1
  else if 19440 ≤ parts then if dow = 1 then 1 else 2
  else if dow = 2 ∧ 9924 ≤ parts ∧ leap = false then 2 else 0

theorem postponed_eq (d p : Int) (l : Bool) : postponed d p l = d + delay (d % 7) p l := by
  have hnext : (d + 1) % 7 = (d % 7 + 1) % 7 := (Int.emod_add_emod d 7 1).symm
  obtain ⟨hk, hk'⟩ : 0 ≤ d % 7 ∧ d % 7 < 7 := by omega
  simp only [postponed, delay]
  by_cases hp : 19440 ≤ p
  · simp only [hp, true_or, if_true, hnext]
    split_ifs <;> omega
  · cases l <;> simp only [hp, reduceCtorEq, and_false, and_true, or_false, false_or, if_false] <;>
      split_ifs <;> omega

/-- The delay of a molad, weekday by weekday. -/
theorem delay_weekday (p : Int) (l : Bool) : delay 0 p l = 1 ∧
    delay 1 p l = (if 19440 ≤ p then 1 else 0) ∧
    delay 2 p l = (if 19440 ≤ p ∨ 9924 ≤ p ∧ l = false then 2 else 0) ∧ delay 3 p l = 1 ∧
    delay 4 p l = (if 19440 ≤ p then 2 else 0) ∧ delay 5 p l = 1 ∧
    delay 6 p l = (if 19440 ≤ p then 2 else 0) := by
  refine ⟨rfl, ?_, ?_, rfl, ?_, rfl, ?_⟩ <;> grind [delay]

/-- The years that molads on two days begin, by the weekday of the first. -/
theorem postponed_sub (d c p p' : Int) (l l' : Bool) : postponed (d + c) p' l' - postponed d p l =
    c + (delay ((d % 7 + c) % 7) p' l' - delay (d % 7) p l) := by
  rw [postponed_eq, postponed_eq, Int.emod_add_emod]
  omega

theorem postponed_common (hp : 0 ≤ p) (hp' : p < 25920) (l : Bool) :
    let d' := d + (354 + (p + 9516) / 25920)
    let p' := (p + 9516) % 25920
    353 ≤ postponed d' p' l - postponed d p false ∧
      postponed d' p' l - postponed d p false ≤ 355 := by
  simp only [postponed_sub]
  obtain ⟨hk, hk'⟩ : 0 ≤ d % 7 ∧ d % 7 < 7 := by omega
  generalize d % 7 = k at hk hk'
  have hweek := fun p l => delay_weekday p l
  rcases parts_carry hp hp' (show 0 ≤ (9516 : Int) by decide) (by decide) with
    ⟨hcarry, hquot, hrem⟩ | ⟨hcarry, hquot, hrem⟩ <;> rw [hquot, hrem] <;> interval_cases k <;>
    simp only [Int.reduceAdd, Int.reduceMod, hweek] <;> grind

/-- A leap year is a day short where the next molad is on a Monday, from 15 hours and 589
parts to 18 hours. -/
theorem postponed_leap (hp : 0 ≤ p) (hp' : p < 25920) :
    let d' := d + (383 + (p + 23269) / 25920)
    let p' := (p + 23269) % 25920
    (383 ≤ postponed d' p' false - postponed d p true ∧
        postponed d' p' false - postponed d p true ≤ 385) ∨
      postponed d' p' false - postponed d p true = 382 ∧ d' % 7 = 1 ∧ 16789 ≤ p' ∧ p' < 19440 := by
  simp only [postponed_sub, ← Int.emod_add_emod d 7]
  obtain ⟨hk, hk'⟩ : 0 ≤ d % 7 ∧ d % 7 < 7 := by omega
  generalize d % 7 = k at hk hk'
  have hweek := fun p l => delay_weekday p l
  rcases parts_carry hp hp' (show 0 ≤ (23269 : Int) by decide) (by decide) with
    ⟨hcarry, hquot, hrem⟩ | ⟨hcarry, hquot, hrem⟩ <;> rw [hquot, hrem] <;> interval_cases k <;>
    simp only [Int.reduceAdd, Int.reduceMod, hweek] <;> grind

/-- The year after a short one begins on its molad and has 355 days. -/
theorem postponed_after (hd : d % 7 = 1) (hp : 16789 ≤ p) (hp' : p < 19440) (l : Bool) :
    postponed d p false = d ∧
      postponed (d + (354 + (p + 9516) / 25920)) ((p + 9516) % 25920) l = d + 355 := by
  have hquot : (p + 9516) / 25920 = 1 := by omega
  have hrem : (p + 9516) % 25920 = p - 16404 := by omega
  have hnext : (d + (354 + 1)) % 7 = 6 := by rw [← Int.emod_add_emod, hd]; rfl
  rw [hquot, hrem, postponed_eq, postponed_eq, hd, hnext]
  simp only [delay]
  constructor <;> split_ifs <;> omega

end Week

theorem molad_parts (year : Int) : 0 ≤ molad year % 25920 ∧ molad year % 25920 < 25920 := by
  omega

theorem elapsed_common (h : leapYear year = false) :
    353 ≤ elapsedDays (year + 1) - elapsedDays year ∧
      elapsedDays (year + 1) - elapsedDays year ≤ 355 := by
  obtain ⟨hp, hp'⟩ := molad_parts year
  obtain ⟨hday, hparts⟩ := molad_succ year
  simp only [h, Bool.false_eq_true, if_false] at hday hparts
  rw [elapsedDays_eq, elapsedDays_eq, hday, hparts, h]
  exact postponed_common hp hp' _

/-- A leap year of 382 days is followed by a year of 355 that begins on a Monday. -/
theorem elapsed_leap (h : leapYear year = true) :
    (383 ≤ elapsedDays (year + 1) - elapsedDays year ∧
        elapsedDays (year + 1) - elapsedDays year ≤ 385) ∨
      elapsedDays (year + 1) - elapsedDays year = 382 ∧
        elapsedDays (year + 1) % 7 = 1 ∧
        elapsedDays (year + 1 + 1) - elapsedDays (year + 1) = 355 := by
  obtain ⟨hp, hp'⟩ := molad_parts year
  obtain ⟨hday, hparts⟩ := molad_succ year
  have hnext := leapYear_succ h
  simp only [h, if_true] at hday hparts
  rcases postponed_leap (d := molad year / 25920) hp hp' with hlong | ⟨hshort, hdow, hlo, hhi⟩
  · left
    rw [elapsedDays_eq, elapsedDays_eq, hday, hparts, h, hnext]
    exact hlong
  · right
    obtain ⟨hday', hparts'⟩ := molad_succ (year + 1)
    simp only [hnext, Bool.false_eq_true, if_false] at hday' hparts'
    rw [← hday] at hdow
    rw [← hparts] at hlo hhi
    obtain ⟨hstart, hend⟩ := postponed_after hdow hlo hhi (leapYear (year + 1 + 1))
    have helapsed : elapsedDays (year + 1) = molad (year + 1) / 25920 := by
      rw [elapsedDays_eq, hnext, hstart]
    have helapsed' : elapsedDays (year + 1 + 1) = molad (year + 1) / 25920 + 355 := by
      rw [elapsedDays_eq, hday', hparts', hend]
    refine ⟨?_, ?_, ?_⟩
    · rw [elapsedDays_eq, elapsedDays_eq year, hnext, h, hday, hparts]
      exact hshort
    · rw [helapsed, hdow]
    · rw [helapsed, helapsed']
      omega

/-- No year has 356 days, and only a short leap year moves the next one. -/
theorem lengthCorrection_eq (year : Int) : lengthCorrection year =
    if elapsedDays year - elapsedDays (year - 1) = 382 then 1 else 0 := by
  have hlong : elapsedDays (year + 1) - elapsedDays year ≠ 356 := by
    cases h : leapYear year with
    | false =>
        have := elapsed_common h
        omega
    | true =>
        have := elapsed_leap h
        omega
  rw [lengthCorrection, if_neg hlong]

theorem lengthCorrection_cases (year : Int) :
    lengthCorrection year = 0 ∧
        elapsedDays year - elapsedDays (year - 1) ≠ 382 ∨
      lengthCorrection year = 1 ∧ leapYear year = false ∧
        elapsedDays year % 7 = 1 ∧
        elapsedDays (year + 1) - elapsedDays year = 355 := by
  rw [lengthCorrection_eq]
  by_cases hshort : elapsedDays year - elapsedDays (year - 1) = 382
  · right
    have hleap : leapYear (year - 1) = true := by
      cases h : leapYear (year - 1) with
      | true => rfl
      | false =>
          have hcommon := elapsed_common h
          rw [Int.sub_add_cancel] at hcommon
          omega
    have hnext := leapYear_succ hleap
    have hyear := elapsed_leap hleap
    rw [Int.sub_add_cancel] at hnext hyear
    rw [if_pos hshort]
    refine ⟨rfl, hnext, ?_, ?_⟩ <;> omega
  · left
    rw [if_neg hshort]
    exact ⟨rfl, hshort⟩

theorem yearLength_common (h : leapYear year = false) :
    353 ≤ yearLength year ∧ yearLength year ≤ 355 := by
  have hraw := elapsed_common h
  have hnext := lengthCorrection_eq (year + 1)
  rw [Int.add_sub_cancel, if_neg (by omega)] at hnext
  rw [yearLength, hnext]
  rcases lengthCorrection_cases year with ⟨hzero, -⟩ | ⟨hone, -, -, hlength⟩
  · rw [hzero]
    omega
  · rw [hone]
    omega

theorem yearLength_leap (h : leapYear year = true) :
    383 ≤ yearLength year ∧ yearLength year ≤ 385 := by
  have hzero : lengthCorrection year = 0 := by
    rcases lengthCorrection_cases year with ⟨hzero, -⟩ | ⟨-, hcommon, -⟩
    · exact hzero
    · rw [h] at hcommon
      cases hcommon
  have hnext := lengthCorrection_eq (year + 1)
  rw [Int.add_sub_cancel] at hnext
  rw [yearLength, hzero, hnext]
  rcases elapsed_leap h with hlong | ⟨hshort, -⟩
  · rw [if_neg (by omega)]
    omega
  · rw [if_pos hshort]
    omega

theorem yearLength_bounds (year : Int) : 353 ≤ yearLength year ∧ yearLength year ≤ 385 := by
  cases h : leapYear year with
  | false =>
      have := yearLength_common h
      omega
  | true =>
      have := yearLength_leap h
      omega

/-- No year begins on a Sunday, a Wednesday or a Friday. -/
theorem yearStart_mod (year : Int) :
    (elapsedDays year + lengthCorrection year) % 7 ≠ 0 ∧
      (elapsedDays year + lengthCorrection year) % 7 ≠ 3 ∧
      (elapsedDays year + lengthCorrection year) % 7 ≠ 5 := by
  rcases lengthCorrection_cases year with ⟨hzero, -⟩ | ⟨hone, -, hdow, -⟩
  · rw [hzero, Int.add_zero, elapsedDays_eq]
    exact postponed_mod _ _ _
  · rw [hone]
    omega

/-! ### The months of a year -/

theorem daysBefore_succ (year : Int) (months : Nat) :
    daysBefore year (months + 1) =
      daysBefore year months + monthLength year (months + 1) := by
  simp [daysBefore, List.range_succ]

theorem daysBefore_year (year : Int) :
    daysBefore year (monthsInYear year).toNat = yearLength year := by
  cases h : leapYear year with
  | false =>
      obtain ⟨hlo, hhi⟩ := yearLength_common h
      obtain hL | hL | hL : yearLength year = 353 ∨ yearLength year = 354 ∨
        yearLength year = 355 := by omega
      all_goals
        simp only [monthsInYear, daysBefore, monthLength, monthDays, h, hL]
        rfl
  | true =>
      obtain ⟨hlo, hhi⟩ := yearLength_leap h
      obtain hL | hL | hL : yearLength year = 383 ∨ yearLength year = 384 ∨
        yearLength year = 385 := by omega
      all_goals
        simp only [monthsInYear, daysBefore, monthLength, monthDays, h, hL]
        rfl

theorem toFixed_day (year month day : Int) :
    toFixed year month day = toFixed year month 1 + day - 1 := by
  simp only [toFixed]
  omega

theorem toFixed_month (year : Int) {month : Int} (h : 1 ≤ month) :
    toFixed year (month + 1) 1 =
      toFixed year month 1 + monthLength year month := by
  obtain ⟨m, rfl⟩ : ∃ m : Nat, month = m + 1 := ⟨(month - 1).toNat, by omega⟩
  have hafter : ((m : Int) + 1 + 1 - 1).toNat = m + 1 := by omega
  have hbefore : ((m : Int) + 1 - 1).toNat = m := by omega
  simp only [toFixed, hafter, hbefore, daysBefore_succ]
  omega

/-- After the last month comes the next year. -/
theorem toFixed_year (year : Int) :
    toFixed year (monthsInYear year + 1) 1 = toFixed (year + 1) 1 1 := by
  have hyear := daysBefore_year year
  simp only [toFixed, Int.add_sub_cancel, hyear, yearLength]
  simp [daysBefore]

theorem toFixed_first (year : Int) :
    toFixed year 1 1 = hebrewEpoch + (elapsedDays year + lengthCorrection year) := by
  simp [toFixed, daysBefore]

theorem toFixed_strictMono : StrictMono fun year => toFixed year 1 1 := by
  apply strictMono_int_of_lt_succ
  intro year
  have hlength := yearLength_bounds year
  rw [yearLength] at hlength
  rw [toFixed_first, toFixed_first]
  omega

/-! ## The source computes the calendar -/

/-- The year, and those its functions look at, have molads within `i64`. -/
def Fits (year : Int) : Prop :=
  -25_252_436_095_534_209 ≤ year ∧ year ≤ 25_252_436_095_537_970

section Fits

variable {o : Overflow} {year : Int}

theorem hebrewLeapYear_eq (h : Fits year) : hebrewLeapYear o year = some (leapYear year) := by
  unfold Fits at h
  simp (disch := (unfold InI64; omega)) only [hebrewLeapYear, Overflow.i64_eq, Option.bind_eq_bind,
    Option.bind_some]
  rfl

theorem hebrewMonthsBeforeYear_eq (h : Fits year) :
    hebrewMonthsBeforeYear o year = some (monthsBeforeYear year) := by
  unfold Fits at h
  simp (disch := (unfold InI64; omega)) only [hebrewMonthsBeforeYear, Overflow.i64_eq,
    Option.bind_eq_bind, Option.bind_some]
  rfl

theorem molad_bounds (h : Fits year) : -9_223_372_036_853_402_700 ≤ molad year / 25920 ∧
    molad year / 25920 ≤ 9_223_372_036_854_775_600 := by
  unfold Fits at h
  simp only [molad, monthsBeforeYear]
  omega

theorem hebrewPostponed_eq {day parts : Int} {leap : Bool}
    (h : InI64 day) (h' : InI64 (day + 2)) :
    hebrewPostponed o day parts leap = some (postponed day parts leap) := by
  have hnext : o.i64 (day + 1) = some (day + 1) := by
    refine Overflow.i64_eq ?_
    unfold InI64 at *
    omega
  have hlast : o.i64 (day + 1 + 1) = some (day + 1 + 1) := by
    refine Overflow.i64_eq ?_
    unfold InI64 at *
    omega
  simp only [hebrewPostponed, postponed, Option.bind_eq_bind]
  split <;> simp only [hnext, Option.bind_some, hlast, apply_ite some]

theorem hebrewElapsedDays_eq (h : Fits year) :
    hebrewElapsedDays o year = some (elapsedDays year) := by
  have hbounds := molad_bounds h
  simp only [hebrewElapsedDays, hebrewMonthsBeforeYear_eq h, hebrewLeapYear_eq h, Option.bind_eq_bind,
    Option.bind_some, elapsedDays]
  simp only [molad] at hbounds
  generalize monthsBeforeYear year = m at hbounds
  simp (disch := (unfold InI64; omega)) only [Overflow.i64_eq, Option.bind_some]
  exact hebrewPostponed_eq (by unfold InI64; omega) (by unfold InI64; omega)

/-- The first of Tishri is at most two days after the molad. -/
theorem elapsedDays_bounds (year : Int) :
    molad year / 25920 ≤ elapsedDays year ∧ elapsedDays year ≤ molad year / 25920 + 2 := by
  rw [elapsedDays_eq, postponed_eq]
  simp only [delay]
  split_ifs <;> omega

theorem elapsed_sub (year : Int) : 353 ≤ elapsedDays (year + 1) - elapsedDays year ∧
    elapsedDays (year + 1) - elapsedDays year ≤ 385 := by
  cases h : leapYear year with
  | false =>
      have := elapsed_common h
      omega
  | true =>
      have := elapsed_leap h
      omega

theorem hebrewLengthCorrection_eq (h : Fits (year - 1)) (h' : Fits (year + 1)) :
    hebrewLengthCorrection o year = some (lengthCorrection year) := by
  have hhere : Fits year := by
    unfold Fits at *
    omega
  have hlength := elapsed_sub year
  have hbefore := elapsed_sub (year - 1)
  rw [Int.sub_add_cancel] at hbefore
  unfold Fits at hhere
  simp only [hebrewLengthCorrection, Option.bind_eq_bind]
  rw [Overflow.i64_eq (by unfold InI64; omega), Option.bind_some, hebrewElapsedDays_eq h',
    Option.bind_some, hebrewElapsedDays_eq hhere, Option.bind_some,
    Overflow.i64_eq (by unfold InI64; omega), Option.bind_some,
    Overflow.i64_eq (by unfold InI64; omega), Option.bind_some, hebrewElapsedDays_eq h,
    Option.bind_some, Overflow.i64_eq (by unfold InI64; omega), Option.bind_some]
  simp only [lengthCorrection, apply_ite some]

theorem lengthCorrection_bounds (year : Int) :
    0 ≤ lengthCorrection year ∧ lengthCorrection year ≤ 1 := by
  rcases lengthCorrection_cases year with ⟨hzero, -⟩ | ⟨hone, -⟩ <;> omega

theorem hebrewYearStart_eq (h : Fits (year - 1)) (h' : Fits (year + 1)) :
    hebrewYearStart o year = some (elapsedDays year + lengthCorrection year) := by
  have hhere : Fits year := by
    unfold Fits at *
    omega
  have hmolad := molad_bounds hhere
  have hday := elapsedDays_bounds year
  have hcorrection := lengthCorrection_bounds year
  simp only [hebrewYearStart, hebrewElapsedDays_eq hhere, hebrewLengthCorrection_eq h h',
    Option.bind_eq_bind, Option.bind_some]
  exact Overflow.i64_eq (by unfold InI64; omega)

theorem hebrewYearLength_eq (h : Fits (year - 1)) (h' : Fits (year + 2)) :
    hebrewYearLength o year = some (yearLength year) := by
  have hnext : Fits (year + 1) ∧ Fits (year + 1 - 1) ∧ Fits (year + 1 + 1) := by
    unfold Fits at *
    omega
  have hlength := yearLength_bounds year
  unfold yearLength at hlength
  simp only [hebrewYearLength, Option.bind_eq_bind]
  rw [Overflow.i64_eq (by unfold Fits at h; unfold InI64; unfold Fits at h'; omega), Option.bind_some,
    hebrewYearStart_eq hnext.2.1 hnext.2.2, Option.bind_some, hebrewYearStart_eq h hnext.1,
    Option.bind_some, Overflow.i64_eq (by unfold InI64; omega)]
  rfl

/-- The years all functions of which stay within `i64`. -/
def Covered (year : Int) : Prop :=
  Fits (year - 1) ∧ Fits (year + 2)

theorem Covered.fits (h : Covered year) : Fits year ∧ Fits (year + 1) := by
  unfold Covered Fits at *
  omega

theorem hebrewMonthLength_eq (h : Covered year) (month : Int) :
    hebrewMonthLength o year month = some (monthLength year month) := by
  simp only [hebrewMonthLength, hebrewLeapYear_eq h.fits.1, hebrewYearLength_eq h.1 h.2,
    Option.bind_eq_bind, Option.bind_some]
  rfl

theorem hebrewMonthsInYear_eq (h : Covered year) :
    hebrewMonthsInYear o year = some (monthsInYear year) := by
  simp only [hebrewMonthsInYear, hebrewLeapYear_eq h.fits.1, Option.bind_eq_bind, Option.bind_some]
  rfl

theorem monthLength_bounds (year month : Int) :
    29 ≤ monthLength year month ∧ monthLength year month ≤ 30 := by
  unfold monthLength monthDays
  split <;> first | decide | (split <;> decide)

theorem monthsInYear_bounds (year : Int) : 12 ≤ monthsInYear year ∧ monthsInYear year ≤ 13 := by
  unfold monthsInYear
  split <;> decide

theorem daysBefore_bounds (year : Int) (months : Nat) :
    29 * (months : Int) ≤ daysBefore year months ∧ daysBefore year months ≤ 30 * (months : Int) := by
  induction months with
  | zero => exact ⟨Int.le_refl _, Int.le_refl _⟩
  | succ months ih =>
      have := monthLength_bounds year (months + 1)
      rw [daysBefore_succ]
      omega

theorem hebrewDaysBefore_eq (h : Covered year) {months : Nat} (hmonths : months ≤ 13) :
    hebrewDaysBefore o year months = some (daysBefore year months) := by
  induction months with
  | zero => rfl
  | succ months ih =>
      have hbounds := daysBefore_bounds year (months + 1)
      rw [daysBefore_succ] at hbounds
      have hrun := ih (by omega)
      unfold hebrewDaysBefore at hrun ⊢
      rw [List.range_succ, List.foldlM_append, hrun]
      simp only [List.foldlM_cons, List.foldlM_nil, Option.bind_eq_bind, Option.bind_some,
        hebrewMonthLength_eq h, daysBefore_succ, Option.pure_def, Option.bind_fun_some]
      exact Overflow.i64_eq (by unfold InI64; omega)

theorem hebrewToFixed_eq (h : Covered year) {month day : Int} (hmonth : month ≤ 14)
    (hday : 1 ≤ day) (hday' : day ≤ 30) :
    hebrewToFixed o year month day = some (toFixed year month day) := by
  have hmonths : (month - 1).toNat ≤ 13 := by omega
  have hbounds := molad_bounds h.fits.1
  have hfirst := elapsedDays_bounds year
  have hcorrection := lengthCorrection_bounds year
  have hbefore := daysBefore_bounds year (month - 1).toNat
  have hlow : -9_223_372_036_853_402_380 ≤ molad year / 25920 := by
    have hearlier := molad_bounds h.1
    have hstep := (molad_succ (year - 1)).1
    rw [Int.sub_add_cancel] at hstep
    rw [hstep]
    split <;> omega
  simp only [hebrewToFixed, hebrewYearStart_eq h.1 h.fits.2, hebrewDaysBefore_eq h hmonths,
    Option.bind_eq_bind, Option.bind_some, toFixed, hebrewEpoch]
  simp (disch := (unfold InI64; omega)) only [Overflow.i64_eq, Option.bind_some]

end Fits

/-! ## From fixed days to dates -/

section Search

variable {o : Overflow} {rd low high year : Int}

/-- The years a search can come through. -/
def Near (year : Int) : Prop :=
  -2_000_000_000_000_000 ≤ year ∧ year ≤ 2_000_000_000_000_000

theorem Near.covered (h : Near year) : Covered year := by
  unfold Near Covered Fits at *
  omega

variable {fuel : Nat}

theorem hebrewYearDown_spec (hlow : Near low) (hfirst : toFixed low 1 1 ≤ rd) (hyear : Near year)
    (hle : low ≤ year) (hfuel : (year - low).toNat < fuel) :
    ∃ found, hebrewYearDown o rd fuel year = some found ∧ low ≤ found ∧ found ≤ year ∧
      toFixed found 1 1 ≤ rd := by
  induction fuel generalizing year with
  | zero => omega
  | succ fuel ih =>
      rw [hebrewYearDown, hebrewToFixed_eq hyear.covered (by decide) (by decide) (by decide),
        Option.bind_some]
      split
      · rename_i hlt
        have hne : low ≠ year := by
          rintro rfl
          omega
        have hnear : Near (year - 1) := by
          unfold Near at *
          omega
        rw [Overflow.i64_eq (by unfold Near at hyear; unfold InI64; omega), Option.bind_some]
        obtain ⟨found, hfound, hbelow, habove, hstart⟩ := ih hnear (by omega) (by omega)
        exact ⟨found, hfound, hbelow, by omega, hstart⟩
      · rename_i hge
        exact ⟨year, rfl, hle, Int.le_refl _, Int.not_lt.1 hge⟩

theorem hebrewYearUp_spec (hhigh : Near high) (hlast : rd < toFixed high 1 1) (hyear : Near year)
    (hlt : year < high) (hfirst : toFixed year 1 1 ≤ rd) (hfuel : (high - year).toNat < fuel) :
    ∃ found, hebrewYearUp o rd fuel year = some found ∧ Near found ∧
      toFixed found 1 1 ≤ rd ∧ rd < toFixed (found + 1) 1 1 := by
  induction fuel generalizing year with
  | zero => omega
  | succ fuel ih =>
      have hnear : Near (year + 1) := by
        unfold Near at *
        omega
      rw [hebrewYearUp, Overflow.i64_eq (by unfold Near at hnear; unfold InI64; omega),
        Option.bind_some, hebrewToFixed_eq hnear.covered (by decide) (by decide) (by decide),
        Option.bind_some]
      split
      · rename_i hle
        have hne : year + 1 ≠ high := by
          rintro rfl
          omega
        exact ih hnear (by omega) hle (by omega)
      · rename_i hgt
        exact ⟨year, rfl, hyear, hfirst, Int.not_le.1 hgt⟩

/-- The search stops in the month of the day. -/
theorem hebrewMonthUp_spec {month : Int} (hcovered : Covered year) (hmonth : 1 ≤ month)
    (hlast : month ≤ monthsInYear year) (hle : toFixed year month 1 ≤ rd)
    (hyear : rd < toFixed (year + 1) 1 1) (hfuel : (monthsInYear year - month).toNat < fuel) :
    ∃ found, hebrewMonthUp o rd year fuel month = some found ∧ 1 ≤ found ∧
      found ≤ monthsInYear year ∧ toFixed year found 1 ≤ rd ∧ rd < toFixed year (found + 1) 1 := by
  have hmonths := monthsInYear_bounds year
  induction fuel generalizing month with
  | zero => omega
  | succ fuel ih =>
      rw [hebrewMonthUp, hebrewMonthsInYear_eq hcovered, Option.bind_some]
      split
      · rename_i hlt
        rw [hebrewToFixed_eq hcovered (by omega) (by decide) (by decide), Option.bind_some]
        split
        · rename_i hmore
          exact ih (by omega) (by omega) hmore (by omega)
        · rename_i hstop
          exact ⟨month, rfl, hmonth, hlast, hle, Int.not_le.1 hstop⟩
      · rename_i hend
        obtain rfl : month = monthsInYear year := by omega
        refine ⟨_, rfl, hmonth, hlast, hle, ?_⟩
        rw [toFixed_year]
        exact hyear

/-- The first of Tishri of the years at the ends. -/
theorem toFixed_ends : toFixed (-2_000_000_000_000_000) 1 1 < -730_000_000_000_000_000 ∧
    730_000_000_000_000_000 < toFixed 2_000_000_000_000_000 1 1 := by
  have hlow := elapsedDays_bounds (-2_000_000_000_000_000)
  have hlow' := lengthCorrection_bounds (-2_000_000_000_000_000)
  have hhigh := elapsedDays_bounds 2_000_000_000_000_000
  have hhigh' := lengthCorrection_bounds 2_000_000_000_000_000
  simp only [molad, monthsBeforeYear] at hlow hhigh
  rw [toFixed_first, toFixed_first, hebrewEpoch]
  omega

theorem hebrewFromFixed_spec (hrd : InI64 ((rd - hebrewEpoch) * 19))
    (hfuel : 4_000_000_000_000_000 < fuel) : ∃ year month day,
      hebrewFromFixed o fuel rd = some (year, month, day) ∧ Covered year ∧ 1 ≤ month ∧
      month ≤ monthsInYear year ∧ 1 ≤ day ∧ day ≤ monthLength year month ∧
      toFixed year month day = rd := by
  obtain ⟨hfirst, hlast⟩ := toFixed_ends
  unfold InI64 hebrewEpoch at hrd
  have hestimate : Near (((rd - hebrewEpoch) * 19).tdiv 6940 + 1) := by
    have hround := @Int.tdiv_eq_ediv ((rd - hebrewEpoch) * 19) 6940
    have hsign : Int.sign 6940 = 1 := rfl
    unfold hebrewEpoch at hround
    unfold Near hebrewEpoch
    rw [hround, hsign]
    split <;> omega
  have hends : Near (-2_000_000_000_000_000) ∧ Near 2_000_000_000_000_000 := by
    unfold Near
    omega
  unfold Near at hestimate
  obtain ⟨start, hdown, hlow, hhigh, hbelow⟩ := @hebrewYearDown_spec o rd _ _ fuel hends.1
    (by omega) hestimate hestimate.1 (by omega)
  have hstart : Near start := ⟨hlow, by omega⟩
  have hlt : start < 2_000_000_000_000_000 := by
    by_contra hge
    have := toFixed_strictMono.monotone (Int.not_lt.1 hge)
    omega
  obtain ⟨year, hup, hyear, hle, hnext⟩ := @hebrewYearUp_spec o rd _ _ fuel hends.2
    (by omega) hstart hlt hbelow (by omega)
  have hcovered := hyear.covered
  have hmonths := monthsInYear_bounds year
  obtain ⟨month, hmonth, hpos, hwithin, hday, hafter⟩ := @hebrewMonthUp_spec o rd _ fuel 1 hcovered
    (Int.le_refl 1) (by omega) hle hnext (by omega)
  rw [toFixed_month _ hpos] at hafter
  have hlength := monthLength_bounds year month
  refine ⟨year, month, rd - toFixed year month 1 + 1, ?_, hcovered, hpos, hwithin, by omega,
    by omega, by rw [toFixed_day]; omega⟩
  simp only [hebrewFromFixed, Option.bind_eq_bind]
  rw [Overflow.i64_eq (by unfold InI64 hebrewEpoch; omega), Option.bind_some,
    Overflow.i64_eq (by unfold InI64 hebrewEpoch; omega), Option.bind_some, hdown,
    Option.bind_some, hup, Option.bind_some, hmonth, Option.bind_some,
    hebrewToFixed_eq hcovered (by omega) (by decide) (by decide), Option.bind_some,
    Overflow.i64_eq (by unfold InI64; omega), Option.bind_some,
    Overflow.i64_eq (by unfold InI64; omega), Option.bind_some]
  rfl

end Search

end Molad

open Molad in
/-- As long as nothing overflows, years have the lengths and first days of the calendar,
and fixed days convert back. -/
theorem hebrew_calendar (o : Overflow) :
    (∀ year, -25_252_436_095_534_208 ≤ year → year ≤ 25_252_436_095_537_968 →
      ∃ leap length months first, hebrewLeapYear o year = some leap ∧
        hebrewYearLength o year = some length ∧ hebrewMonthsInYear o year = some months ∧
        hebrewToFixed o year 1 1 = some first ∧
        (leap = false → length = 353 ∨ length = 354 ∨ length = 355) ∧
        (leap = true → length = 383 ∨ length = 384 ∨ length = 385) ∧
        hebrewDaysBefore o year months.toNat = some length ∧
        first % 7 ≠ 0 ∧ first % 7 ≠ 3 ∧ first % 7 ≠ 5) ∧
    ∀ rd, InI64 ((rd - hebrewEpoch) * 19) → ∀ fuel > 4_000_000_000_000_000,
      ∃ year month day months length, hebrewFromFixed o fuel rd = some (year, month, day) ∧
        hebrewMonthsInYear o year = some months ∧ hebrewMonthLength o year month = some length ∧
        1 ≤ month ∧ month ≤ months ∧ 1 ≤ day ∧ day ≤ length ∧
        hebrewToFixed o year month day = some rd := by
  constructor
  · intro year hlow hhigh
    have hcovered : Covered year := by
      unfold Covered Fits
      omega
    have hmonths := monthsInYear_bounds year
    have hfirst : toFixed year 1 1 % 7 = (elapsedDays year + lengthCorrection year) % 7 := by
      rw [toFixed_first, hebrewEpoch]
      omega
    refine ⟨_, _, _, _, hebrewLeapYear_eq hcovered.fits.1, hebrewYearLength_eq hcovered.1 hcovered.2,
      hebrewMonthsInYear_eq hcovered, hebrewToFixed_eq hcovered (by decide) (by decide) (by decide),
      fun h => ?_, fun h => ?_, ?_, ?_⟩
    · have := yearLength_common h
      omega
    · have := yearLength_leap h
      omega
    · rw [hebrewDaysBefore_eq hcovered (by omega), daysBefore_year]
    · rw [hfirst]
      exact yearStart_mod year
  · intro rd hrd fuel hfuel
    obtain ⟨year, month, day, hfound, hcovered, hmonth, hlast, hday, hlength, hfixed⟩ :=
      hebrewFromFixed_spec hrd hfuel
    have hmonths := monthsInYear_bounds year
    have hthirty := (monthLength_bounds year month).2
    refine ⟨year, month, day, _, _, hfound, hebrewMonthsInYear_eq hcovered,
      hebrewMonthLength_eq hcovered month, hmonth, hlast, hday, hlength, ?_⟩
    rw [hebrewToFixed_eq hcovered (by omega) hday (by omega), hfixed]

/-- A common year. -/
theorem hebrew_calendar_5785 : ∃ leap length months first,
    hebrewLeapYear .panics 5785 = some leap ∧ hebrewYearLength .panics 5785 = some length ∧
    hebrewMonthsInYear .panics 5785 = some months ∧ hebrewToFixed .panics 5785 1 1 = some first ∧
    (leap = false → length = 353 ∨ length = 354 ∨ length = 355) ∧
    (leap = true → length = 383 ∨ length = 384 ∨ length = 385) ∧
    hebrewDaysBefore .panics 5785 months.toNat = some length ∧
    first % 7 ≠ 0 ∧ first % 7 ≠ 3 ∧ first % 7 ≠ 5 :=
  (hebrew_calendar .panics).1 5785 (by decide) (by decide)

/-- Far from the epoch the arithmetic overflows: a panic, or a leap year of 355 days with
months of 385. -/
theorem hebrew_calendar_overflows :
    hebrewYearLength .panics 5_000_000_000_000_000_000 = none ∧
    hebrewLeapYear .wraps 5_000_000_000_000_000_000 = some true ∧
    hebrewYearLength .wraps 5_000_000_000_000_000_000 = some 355 ∧
    hebrewDaysBefore .wraps 5_000_000_000_000_000_000 13 = some 385 := by
  decide

end Slag.Temporal
