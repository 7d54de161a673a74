import Mathlib.Data.Int.ConditionallyCompleteOrder
import Slag.Lib.FloatFloor
import Slag.Temporal.Iso

/-!
ISO dates as days of the epoch, and instants as dates and times. The search for the
year of a day corrects an estimate that may be any number.
-/

namespace Slag.Temporal

/-- The month is counted from zero and may be any number. -/
def isoDateToEpochDays (year month0 day : Int) : Int :=
  let resolvedYear := year + month0 / 12
  let resolvedMonth := month0 % 12
  let yearDays := 365 * (resolvedYear - 1970) + (resolvedYear - 1969) / 4 -
    (resolvedYear - 1901) / 100 + (resolvedYear - 1601) / 400
  let monthDays := ((List.range resolvedMonth.toNat).map fun m => daysInMonth resolvedYear (m + 1)).sum
  yearDays + monthDays + day - 1

/-! The calendar of a year. -/

def daysInYear (year : Int) : Nat := if isLeapYear year then 366 else 365

/-- The days of a year before a month, which is counted from zero. -/
def daysBefore (year : Int) (month : Nat) : Nat :=
  ((List.range month).map fun m => daysInMonth year (m + 1)).sum

theorem daysBefore_succ (year : Int) (month : Nat) :
    daysBefore year (month + 1) = daysBefore year month + daysInMonth year (month + 1) := by
  simp [daysBefore, List.range_succ]

theorem daysBefore_mono (year : Int) {m n : Nat} (h : m ≤ n) :
    daysBefore year m ≤ daysBefore year n := by
  induction h with
  | refl => exact Nat.le_refl _
  | step _ ih =>
      rw [daysBefore_succ]
      omega

theorem daysBefore_year (year : Int) : daysBefore year 12 = daysInYear year := by
  unfold daysInYear
  cases h : isLeapYear year <;> simp [daysBefore, List.range_succ, daysInMonth, h]

theorem isoDateToEpochDays_eq (year day : Int) {month : Nat} (h : month < 12) :
    isoDateToEpochDays year month day =
      isoDateToEpochDays year 0 1 + daysBefore year month + day - 1 := by
  have hdiv : (month : Int) / 12 = 0 := by omega
  have hmod : ((month : Int) % 12).toNat = month := by omega
  simp only [isoDateToEpochDays, hdiv, hmod, daysBefore]
  simp

theorem isLeapYear_iff (year : Int) :
    isLeapYear year = true ↔ year % 4 = 0 ∧ (year % 100 ≠ 0 ∨ year % 400 = 0) := by
  simp [isLeapYear]

/-- The floored divisions count the leap days, also before the year zero. -/
theorem isoDateToEpochDays_succ (year : Int) :
    isoDateToEpochDays (year + 1) 0 1 = isoDateToEpochDays year 0 1 + daysInYear year := by
  have hleap := isLeapYear_iff year
  simp only [isoDateToEpochDays, daysInYear]
  simp only [Int.zero_ediv, Int.add_zero, Int.zero_emod, Int.toNat_zero, List.range_zero,
    List.map_nil, List.sum_nil]
  cases h : isLeapYear year with
  | true =>
      have hyes := hleap.1 h
      rw [if_pos rfl]
      omega
  | false =>
      have hno := mt hleap.2 (by simp [h])
      rw [if_neg (by simp)]
      omega

theorem daysInYear_bounds (year : Int) : 365 ≤ daysInYear year ∧ daysInYear year ≤ 366 := by
  unfold daysInYear
  split <;> omega

theorem firstDay_strictMono : StrictMono fun year => isoDateToEpochDays year 0 1 := by
  apply strictMono_int_of_lt_succ
  intro year
  have hstep := isoDateToEpochDays_succ year
  have hdays := daysInYear_bounds year
  omega

/-! From days to dates. -/

def yearDown (epochDays year : Int) : Int :=
  if epochDays < isoDateToEpochDays year 0 1 then yearDown epochDays (year - 1) else year
termination_by (isoDateToEpochDays year 0 1 - epochDays).toNat
decreasing_by
  have hless : isoDateToEpochDays (year - 1) 0 1 < isoDateToEpochDays year 0 1 :=
    firstDay_strictMono (by omega)
  omega

def yearUp (epochDays year : Int) : Int :=
  if isoDateToEpochDays (year + 1) 0 1 ≤ epochDays then yearUp epochDays (year + 1) else year
termination_by (epochDays - isoDateToEpochDays year 0 1).toNat
decreasing_by
  have hless : isoDateToEpochDays year 0 1 < isoDateToEpochDays (year + 1) 0 1 :=
    firstDay_strictMono (by omega)
  omega

/-- The month of a day of the year. After December the table of months ends. -/
def monthOf (year : Int) (month : Nat) (dayInYear : Int) : Option (Nat × Int) :=
  if month ≤ 12 then
    if daysInMonth year month < dayInYear then
      monthOf year (month + 1) (dayInYear - daysInMonth year month)
    else some (month, dayInYear)
  else none
termination_by 13 - month

/-- `epoch_days_to_iso_date` after its estimate of the year. -/
def isoDateFromEstimate (estimate epochDays : Int) : Option (Int × Nat × Int) := do
  let year := yearUp epochDays (yearDown epochDays estimate)
  let (month, day) ← monthOf year 1 (epochDays - isoDateToEpochDays year 0 1 + 1)
  return (year, month, day)

def epochDaysToIsoDate (epochDays : Int) : Option (Int × Nat × Int) :=
  let perYear := F64.ofRatio false (3652425 * F64.one) 10000
  isoDateFromEstimate (1970 + (F64.div (.ofInt epochDays) perYear).floorAsI64) epochDays

theorem yearDown_le (epochDays year : Int) :
    isoDateToEpochDays (yearDown epochDays year) 0 1 ≤ epochDays := by
  fun_induction yearDown epochDays year with
  | case1 year hlt ih => exact ih
  | case2 year hge => exact Int.not_lt.1 hge

theorem yearUp_spec (epochDays year : Int) (h : isoDateToEpochDays year 0 1 ≤ epochDays) :
    isoDateToEpochDays (yearUp epochDays year) 0 1 ≤ epochDays ∧
      epochDays < isoDateToEpochDays (yearUp epochDays year + 1) 0 1 := by
  fun_induction yearUp epochDays year with
  | case1 year hle ih => exact ih hle
  | case2 year hgt => exact ⟨h, Int.not_le.1 hgt⟩

/-- The months passed are taken off the day of the year. -/
theorem monthOf_spec (year : Int) (month : Nat) (dayInYear : Int) (hmonth : 1 ≤ month)
    (hday : 1 ≤ dayInYear)
    (hyear : daysBefore year (month - 1) + dayInYear ≤ daysInYear year) :
    ∃ m d : Nat, monthOf year month dayInYear = some (m, (d : Int)) ∧
      isValidIsoDate year m d = true ∧
      (daysBefore year (m - 1) : Int) + d = daysBefore year (month - 1) + dayInYear := by
  fun_induction monthOf year month dayInYear with
  | case1 month dayInYear hle hlt ih =>
      have hstep := daysBefore_succ year (month - 1)
      rw [Nat.sub_add_cancel hmonth] at hstep
      have hsum : (daysBefore year (month + 1 - 1) : Int) + (dayInYear - daysInMonth year month) =
          daysBefore year (month - 1) + dayInYear := by
        rw [Nat.add_sub_cancel, hstep]
        push_cast
        ring
      rw [← hsum]
      apply ih (by omega) (by omega)
      omega
  | case2 month dayInYear hle hge =>
      obtain ⟨d, rfl⟩ := Int.eq_ofNat_of_zero_le (show 0 ≤ dayInYear by omega)
      refine ⟨month, d, rfl, ?_, rfl⟩
      simp only [isValidIsoDate, Bool.and_eq_true, decide_eq_true_eq]
      omega
  | case3 month dayInYear hgt =>
      have hmono := daysBefore_mono year (show 12 ≤ month - 1 by omega)
      rw [daysBefore_year] at hmono
      omega

/-- Any estimate leads to the date of the day. -/
theorem isoDateFromEstimate_spec (estimate epochDays : Int) :
    ∃ (year : Int) (month day : Nat),
      isoDateFromEstimate estimate epochDays = some (year, month, (day : Int)) ∧
      isValidIsoDate year month day = true ∧
      isoDateToEpochDays year (month - 1) day = epochDays := by
  obtain ⟨hlo, hhi⟩ := yearUp_spec epochDays _ (yearDown_le epochDays estimate)
  rw [isoDateToEpochDays_succ] at hhi
  generalize hyear : yearUp epochDays (yearDown epochDays estimate) = year at hlo hhi
  obtain ⟨month, day, hmonth, hvalid, hsum⟩ := monthOf_spec year 1
    (epochDays - isoDateToEpochDays year 0 1 + 1) (Nat.le_refl 1) (by omega) (by
      simp only [Nat.sub_self, daysBefore, List.range_zero, List.map_nil, List.sum_nil]
      omega)
  refine ⟨year, month, day, ?_, hvalid, ?_⟩
  · simp only [isoDateFromEstimate, hyear, hmonth, Option.bind_eq_bind, Option.bind_some]
    rfl
  · simp only [isValidIsoDate, Bool.and_eq_true, decide_eq_true_eq] at hvalid
    have hexpand := isoDateToEpochDays_eq year day (show month - 1 < 12 by omega)
    rw [Nat.cast_sub hvalid.1.1, Nat.cast_one] at hexpand
    simp only [Nat.sub_self, daysBefore, List.range_zero, List.map_nil, List.sum_nil] at hsum hexpand
    omega

/-- Dates by year, month and day. -/
def DateLt (year : Int) (month day : Nat) (year' : Int) (month' day' : Nat) : Prop :=
  year < year' ∨ year = year' ∧ (month < month' ∨ month = month' ∧ day < day')

theorem isValidIsoDate_iff {year : Int} {month day : Nat} :
    isValidIsoDate year month day = true ↔
      (1 ≤ month ∧ month ≤ 12) ∧ 1 ≤ day ∧ day ≤ daysInMonth year month := by
  simp [isValidIsoDate]

/-- A valid date is a day of its year. -/
theorem valid_epochDays {year : Int} {month day : Nat} (h : isValidIsoDate year month day = true) :
    isoDateToEpochDays year (month - 1) day =
        isoDateToEpochDays year 0 1 + daysBefore year (month - 1) + day - 1 ∧
      daysBefore year (month - 1) + day ≤ daysBefore year month ∧
      daysBefore year month ≤ daysInYear year := by
  obtain ⟨⟨hmonth, hmonth'⟩, hday, hday'⟩ := isValidIsoDate_iff.1 h
  have hexpand := isoDateToEpochDays_eq year day (show month - 1 < 12 by omega)
  rw [Nat.cast_sub hmonth, Nat.cast_one] at hexpand
  have hstep := daysBefore_succ year (month - 1)
  rw [Nat.sub_add_cancel hmonth] at hstep
  have hmono := daysBefore_mono year hmonth'
  rw [daysBefore_year] at hmono
  exact ⟨hexpand, by omega, hmono⟩

theorem isoDateToEpochDays_lt {year year' : Int} {month day month' day' : Nat}
    (h : isValidIsoDate year month day = true) (h' : isValidIsoDate year' month' day' = true)
    (hlt : DateLt year month day year' month' day') :
    isoDateToEpochDays year (month - 1) day < isoDateToEpochDays year' (month' - 1) day' := by
  obtain ⟨hdays, hbefore, hyear⟩ := valid_epochDays h
  obtain ⟨hdays', -, -⟩ := valid_epochDays h'
  have hmonth' := (isValidIsoDate_iff.1 h').1
  have hday' := (isValidIsoDate_iff.1 h').2.1
  rw [hdays, hdays']
  rcases hlt with hlt | ⟨rfl, hlt | ⟨rfl, hlt⟩⟩
  · have hnext := isoDateToEpochDays_succ year
    have hmono := firstDay_strictMono.monotone (show year + 1 ≤ year' by omega)
    omega
  · have hmono := daysBefore_mono year (show month ≤ month' - 1 by omega)
    omega
  · omega

/-- The date of the days of a valid date is that date. -/
theorem isoDateFromEstimate_inverse (estimate : Int) {year : Int} {month day : Nat}
    (h : isValidIsoDate year month day = true) :
    isoDateFromEstimate estimate (isoDateToEpochDays year (month - 1) day) =
      some (year, month, (day : Int)) := by
  obtain ⟨year', month', day', hresult, hvalid, hsame⟩ :=
    isoDateFromEstimate_spec estimate (isoDateToEpochDays year (month - 1) day)
  rw [hresult]
  have hnot : ¬DateLt year month day year' month' day' := fun hlt =>
    absurd hsame (isoDateToEpochDays_lt h hvalid hlt).ne'
  have hnot' : ¬DateLt year' month' day' year month day := fun hlt =>
    absurd hsame (isoDateToEpochDays_lt hvalid h hlt).ne
  unfold DateLt at hnot hnot'
  obtain rfl : year' = year := by omega
  obtain rfl : month' = month := by omega
  obtain rfl : day' = day := by omega
  rfl

/-! Instants. -/

structure IsoParts where
  year : Int
  month : Nat
  day : Int
  hour : Int
  minute : Int
  second : Int
  millisecond : Int
  microsecond : Int
  nanosecond : Int
deriving DecidableEq, Repr

def msPerDay : Nat := 86_400_000

def getUtcEpochNanoseconds (p : IsoParts) : Int :=
  let days := isoDateToEpochDays p.year (p.month - 1) p.day
  let ms := days * msPerDay + p.hour * 3_600_000 + p.minute * 60_000 + p.second * 1_000 +
    p.millisecond
  ms * 1_000_000 + p.microsecond * 1_000 + p.nanosecond

def isoPartsFromEpoch (epochNs : Int) : Option IsoParts := do
  let remainderNs := epochNs % 1_000_000
  let msF := F64.ofInt ((epochNs - remainderNs).tdiv 1_000_000)
  let (year, month, day) ← epochDaysToIsoDate (F64.div msF (.ofNat msPerDay)).floorAsI64
  let msI := msF.asI64
  return {
    year, month, day
    hour := msI / 3_600_000 % 24
    minute := msI / 60_000 % 60
    second := msI / 1_000 % 60
    millisecond := msI % 1_000
    microsecond := remainderNs / 1_000 % 1_000
    nanosecond := remainderNs % 1_000 }

structure IsoParts.InRange (p : IsoParts) : Prop where
  date : 0 ≤ p.day ∧ isValidIsoDate p.year p.month p.day.toNat = true
  hour : 0 ≤ p.hour ∧ p.hour < 24
  minute : 0 ≤ p.minute ∧ p.minute < 60
  second : 0 ≤ p.second ∧ p.second < 60
  millisecond : 0 ≤ p.millisecond ∧ p.millisecond < 1000
  microsecond : 0 ≤ p.microsecond ∧ p.microsecond < 1000
  nanosecond : 0 ≤ p.nanosecond ∧ p.nanosecond < 1000

def nsMaxInstant : Int := 100_000_000 * 86_400_000_000_000

/-- The day is the floor of a rounded quotient, and that is the floor of the quotient. -/
theorem dayOfMs {ms : Int} (h : ms.natAbs ≤ 100_000_001 * 86_400_000) :
    (F64.div (.ofInt ms) (.ofNat msPerDay)).floorAsI64 = ms / msPerDay := by
  have hint : F64.HasInt (.ofInt ms) ms := F64.hasInt_ofInt (by omega)
  have hday : F64.HasInt (.ofNat msPerDay) msPerDay := F64.hasInt_ofNat (by decide)
  apply F64.floor_div_int hint hday (by decide) (t := 27)
  · rw [msPerDay]
    omega
  · decide

theorem isoPartsFromEpoch_spec {epochNs : Int}
    (h : epochNs.natAbs ≤ (nsMaxInstant + 86_400_000_000_000).natAbs) :
    ∃ p, isoPartsFromEpoch epochNs = some p ∧ p.InRange ∧ getUtcEpochNanoseconds p = epochNs := by
  obtain ⟨ms, rest, hns, hrest, hrest'⟩ : ∃ ms rest, epochNs = ms * 1_000_000 + rest ∧ 0 ≤ rest ∧
      rest < 1_000_000 := ⟨epochNs / 1_000_000, epochNs % 1_000_000, by omega, by omega, by omega⟩
  have hms : ms.natAbs ≤ 100_000_001 * 86_400_000 := by
    unfold nsMaxInstant at h
    omega
  have hrem : epochNs % 1_000_000 = rest := by omega
  have hquot : (epochNs - rest).tdiv 1_000_000 = ms := by
    rw [show epochNs - rest = ms * 1_000_000 by omega]
    exact Int.mul_tdiv_cancel ms (by decide)
  have hint : F64.HasInt (.ofInt ms) ms := F64.hasInt_ofInt (by omega)
  obtain ⟨year, month, day, hdate, hvalid, hdays⟩ :=
    isoDateFromEstimate_spec (1970 + (F64.div (.ofInt (ms / msPerDay))
      (F64.ofRatio false (3652425 * F64.one) 10000)).floorAsI64) (ms / msPerDay)
  have hdate' : epochDaysToIsoDate (ms / msPerDay) = some (year, month, (day : Int)) := hdate
  have hresult : isoPartsFromEpoch epochNs = some {
      year, month, day
      hour := ms / 3_600_000 % 24
      minute := ms / 60_000 % 60
      second := ms / 1_000 % 60
      millisecond := ms % 1_000
      microsecond := rest / 1_000 % 1_000
      nanosecond := rest % 1_000 } := by
    simp only [isoPartsFromEpoch, hrem, hquot, dayOfMs hms, hdate', Option.bind_eq_bind,
      Option.bind_some, F64.asI64_int hint (show -2 ^ 63 ≤ ms by omega) (by omega)]
    rfl
  refine ⟨_, hresult, ?_, ?_⟩
  · constructor
    case date => exact ⟨Int.natCast_nonneg day, hvalid⟩
    all_goals
      constructor
      · apply Int.emod_nonneg
        decide
      · apply Int.emod_lt_of_pos
        decide
  · have hday : (msPerDay : Int) = 86_400_000 := rfl
    simp only [getUtcEpochNanoseconds, hdays, hday]
    omega

/-- Days and dates, and instants and their parts, are converted back and forth. -/
theorem epoch_conversions :
    (∀ estimate epochDays : Int, ∃ (year : Int) (month day : Nat),
      epochDaysToIsoDate epochDays = some (year, month, (day : Int)) ∧
      isoDateFromEstimate estimate epochDays = some (year, month, (day : Int)) ∧
      isValidIsoDate year month day = true ∧
      isoDateToEpochDays year (month - 1) day = epochDays) ∧
    (∀ (year : Int) (month day : Nat), isValidIsoDate year month day = true →
      epochDaysToIsoDate (isoDateToEpochDays year (month - 1) day) =
        some (year, month, (day : Int))) ∧
    (∀ (year year' : Int) (month day month' day' : Nat), isValidIsoDate year month day = true →
      isValidIsoDate year' month' day' = true → DateLt year month day year' month' day' →
      isoDateToEpochDays year (month - 1) day < isoDateToEpochDays year' (month' - 1) day') ∧
    ∀ epochNs : Int, epochNs.natAbs ≤ (nsMaxInstant + 86_400_000_000_000).natAbs →
      ∃ p, isoPartsFromEpoch epochNs = some p ∧ p.InRange ∧ getUtcEpochNanoseconds p = epochNs := by
  refine ⟨?_, ?_, ?_, ?_⟩
  · intro estimate epochDays
    obtain ⟨year, month, day, hresult, hvalid, hdays⟩ :=
      isoDateFromEstimate_spec estimate epochDays
    refine ⟨year, month, day, ?_, hresult, hvalid, hdays⟩
    rw [← hdays]
    exact isoDateFromEstimate_inverse _ hvalid
  · intro year month day hvalid
    exact isoDateFromEstimate_inverse _ hvalid
  · intro year year' month day month' day' hvalid hvalid' hlt
    exact isoDateToEpochDays_lt hvalid hvalid' hlt
  · intro epochNs h
    exact isoPartsFromEpoch_spec h

/-- A day after the last instant. -/
theorem epoch_conversions_last :
    ∃ p, isoPartsFromEpoch (nsMaxInstant + 86_400_000_000_000) = some p ∧ p.InRange ∧
      getUtcEpochNanoseconds p = nsMaxInstant + 86_400_000_000_000 :=
  epoch_conversions.2.2.2 _ (Nat.le_refl _)

end Slag.Temporal
