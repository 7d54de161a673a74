import Slag.Lib.Numeral
import Slag.Temporal.IsoExact

/-!
The texts that dates, times and offsets are written as, and that the parser reads them
back.
-/

namespace Slag.Temporal

def digitUnit (d : Nat) : UInt16 := UInt16.ofNat (0x30 + d)

/-- `format!("{n}")` -/
def decimal (n : Nat) : Text :=
  if n = 0 then [digitUnit 0] else (Numeral.digits 10 n).map digitUnit

/-- The number with zeros before it, up to a width. -/
def padded (width n : Nat) : Text :=
  List.replicate (width - (decimal n).length) (digitUnit 0) ++ decimal n

inductive FracPrecision
  | auto | digits (n : Nat) | minute
deriving DecidableEq, Repr

def padIsoYear (year : Int) : Text :=
  if 0 ≤ year ∧ year ≤ 9999 then padded 4 year.toNat
  else if 0 < year then Cu.plus :: padded 6 year.toNat
  else Cu.minus :: padded 6 year.natAbs

def formatFractionalSeconds (subSecondNs : Nat) : FracPrecision → Text
  | .auto =>
      if subSecondNs = 0 then []
      else Cu.dot :: (padded 9 subSecondNs).rdropWhile (fun c => c = digitUnit 0)
  | .digits n => if n = 0 then [] else Cu.dot :: (padded 9 subSecondNs).take n
  | .minute => []

def formatTimeString (hour minute second subSecondNs : Nat) (precision : FracPrecision) : Text :=
  let hh := padded 2 hour
  let mm := padded 2 minute
  if precision = .minute then hh ++ (Cu.colon :: mm)
  else
    let ss := padded 2 second
    let frac := formatFractionalSeconds subSecondNs precision
    hh ++ (Cu.colon :: (mm ++ (Cu.colon :: (ss ++ frac))))

def formatOffsetNanoseconds (offsetNs : Int) : Text :=
  if offsetNs = 0 then Cu.plus :: (padded 2 0 ++ (Cu.colon :: padded 2 0))
  else
    let sign := if offsetNs < 0 then Cu.minus else Cu.plus
    let abs := offsetNs.natAbs
    let hour := abs / 3_600_000_000_000
    let minute := abs / 60_000_000_000 % 60
    let second := abs / 1_000_000_000 % 60
    let sub := abs % 1_000_000_000
    let seconds :=
      if second ≠ 0 ∨ sub ≠ 0 then
        Cu.colon :: (padded 2 second ++
          if sub ≠ 0 then formatFractionalSeconds sub .auto else [])
      else []
    sign :: (padded 2 hour ++ (Cu.colon :: (padded 2 minute ++ seconds)))

/-- The seconds of an offset and the nanoseconds after them, if they are there. -/
def parseOffsetSeconds (separated : Bool) (l : Text) : Except Failure ((Nat × Nat) × Text) :=
  if l ≠ [] then do
    let l ← expectSep separated l
    let (second, l) ← digits 2 l
    if 59 < second then .error .invalid
    else if l ≠ [] then do
      let ((frac, digits), l) ← parseFraction l
      .ok ((second, frac * 10 ^ (9 - digits)), l)
    else .ok ((second, 0), l)
  else .ok ((0, 0), l)

def parseDateTimeUtcOffset (offset : Text) : Except Failure Int :=
  match offset with
  | [] => .error .invalid
  | c :: l =>
      if c = Cu.plus ∨ c = Cu.minus then do
        let sign : Int := if c = Cu.minus then -1 else 1
        let (hour, l) ← digits 2 l
        if 23 < hour then .error .invalid
        else if l = [] then .ok (sign * hour * 3_600_000_000_000)
        else do
          let (separated, l) := eat Cu.colon l
          let (minute, l) ← digits 2 l
          if 59 < minute then .error .invalid
          else do
            let ((second, ns), l) ← parseOffsetSeconds separated l
            if l ≠ [] then .error .invalid
            else .ok (sign * (((hour * 60 + minute) * 60 + second : Nat) * 1_000_000_000 + ns))
      else .error .invalid

/-! Decimal texts. -/

theorem digitUnit_spec : ∀ d < 10, isDigit (digitUnit d) = true ∧ digitValue (digitUnit d) = d := by
  decide

theorem numberOf_eq_value (w : Text) : numberOf w = Numeral.value 10 (w.map digitValue) := by
  rw [numberOf, Numeral.value, List.foldl_map]

theorem decimal_digits (n : Nat) : ∀ c ∈ decimal n, isDigit c = true := by
  intro c hc
  unfold decimal at hc
  split at hc
  · rw [List.mem_singleton.1 hc]
    rfl
  · obtain ⟨d, hd, rfl⟩ := List.mem_map.1 hc
    exact (digitUnit_spec d (Numeral.digits_lt (by decide) hd)).1

theorem numberOf_decimal (n : Nat) : numberOf (decimal n) = n := by
  unfold decimal
  split
  · rename_i hzero
    subst hzero
    rfl
  · have hsame : (Numeral.digits 10 n).map (digitValue ∘ digitUnit) =
        (Numeral.digits 10 n).map id := by
      apply List.map_congr_left
      intro d hd
      exact (digitUnit_spec d (Numeral.digits_lt (by decide) hd)).2
    rw [numberOf_eq_value, List.map_map, hsame, List.map_id, Numeral.value_digits]

theorem length_decimal {n width : Nat} (hwidth : 0 < width) (hn : n < 10 ^ width) :
    (decimal n).length ≤ width := by
  unfold decimal
  split
  · exact hwidth
  · rename_i hne
    rw [List.length_map]
    have hle := Numeral.pow_length_digits_le 10 hne
    have := (Nat.pow_lt_pow_iff_right (show 1 < 10 by decide)).1 (Nat.lt_of_le_of_lt hle hn)
    omega

theorem numberOf_append (u w : Text) :
    numberOf (u ++ w) = numberOf u * 10 ^ w.length + numberOf w := by
  rw [numberOf_eq_value, List.map_append, Numeral.value_append, List.length_map,
    numberOf_eq_value, numberOf_eq_value]

theorem numberOf_zeros (k : Nat) : numberOf (List.replicate k (digitUnit 0)) = 0 := by
  rw [numberOf_eq_value, List.map_replicate]
  exact Numeral.value_replicate_zero 10 k

theorem numberOf_padded (width n : Nat) : numberOf (padded width n) = n := by
  rw [padded, numberOf_append, numberOf_zeros, numberOf_decimal, Nat.zero_mul, Nat.zero_add]

theorem padded_spec {width n : Nat} (hwidth : 0 < width) (hn : n < 10 ^ width) :
    Digits width (padded width n) := by
  have hlength := length_decimal hwidth hn
  constructor
  · rw [padded, List.length_append, List.length_replicate]
    omega
  · intro c hc
    rcases List.mem_append.1 hc with hc | hc
    · rw [(List.mem_replicate.1 hc).2]
      rfl
    · exact decimal_digits n c hc

/-- Zeros at the end of a fraction do not count. -/
theorem numberOf_trimmed (w : Text) :
    numberOf (w.rdropWhile fun c => c = digitUnit 0) *
        10 ^ (w.length - (w.rdropWhile fun c => c = digitUnit 0).length) = numberOf w := by
  induction w using List.reverseRecOn with
  | nil => rfl
  | append_singleton w c ih =>
      by_cases hc : c = digitUnit 0
      · have hle := (List.rdropWhile_prefix (fun c => decide (c = digitUnit 0)) w).length_le
        rw [List.rdropWhile_concat_pos (fun c => decide (c = digitUnit 0)) _ _ (decide_eq_true hc),
          numberOf_append, ← ih, List.length_append, List.length_singleton,
          Nat.sub_add_comm hle, pow_succ, hc]
        exact (Nat.mul_assoc _ _ _).symm
      · rw [List.rdropWhile_concat_neg (fun c => decide (c = digitUnit 0)) _ _ (by simpa using hc),
          Nat.sub_self, pow_zero, Nat.mul_one]

theorem fraction_spec {sub : Nat} (hne : sub ≠ 0) (hlt : sub < 1_000_000_000) :
    Fraction (formatFractionalSeconds sub .auto) sub := by
  have hpadded := padded_spec (show 0 < 9 by decide) (show sub < 10 ^ 9 from hlt)
  have htrim := numberOf_trimmed (padded 9 sub)
  have hsub := List.rdropWhile_prefix (fun c => decide (c = digitUnit 0)) (padded 9 sub)
  rw [numberOf_padded, hpadded.1] at htrim
  rw [formatFractionalSeconds, if_neg hne]
  generalize (padded 9 sub).rdropWhile (fun c => decide (c = digitUnit 0)) = ds at htrim hsub
  have hlength : 1 ≤ ds.length := by
    cases ds with
    | nil => exact absurd htrim.symm hne
    | cons c ds => exact Nat.succ_le_succ (Nat.zero_le _)
  have hfraction : Fraction (Cu.dot :: ds) (numberOf ds * 10 ^ (9 - ds.length)) := by
    apply Fraction.mk (Or.inl rfl) hlength
    · rw [← hpadded.1]
      exact hsub.length_le
    · intro c hc
      exact hpadded.2 c (hsub.subset hc)
  rwa [htrim] at hfraction

/-! Dates and times. -/

theorem padIsoYear_spec {year : Int} (hlo : -999999 ≤ year) (hhi : year ≤ 999999) :
    YearText (padIsoYear year) year := by
  unfold padIsoYear
  split
  · rename_i hfour
    have h := YearText.four (padded_spec (show 0 < 4 by decide)
      (show year.toNat < 10 ^ 4 by omega))
    rwa [numberOf_padded, Int.toNat_of_nonneg hfour.1] at h
  · split
    · rename_i hpos
      have h := YearText.plus (padded_spec (show 0 < 6 by decide)
        (show year.toNat < 10 ^ 6 by omega))
      rwa [numberOf_padded, Int.toNat_of_nonneg hpos.le] at h
    · have h := YearText.minus (padded_spec (show 0 < 6 by decide)
        (show year.natAbs < 10 ^ 6 by omega)) (by rw [numberOf_padded]; omega)
      rwa [numberOf_padded, show -(year.natAbs : Int) = year by omega] at h

/-- Two digits of a field. -/
theorem padded_two {n : Nat} (h : n < 100) : Digits 2 (padded 2 n) :=
  padded_spec (by decide) h

theorem formatTimeString_clock {hour minute second sub : Nat} (hhour : hour < 24)
    (hminute : minute < 60) (hsecond : second < 60) (hsub : sub < 1_000_000_000) :
    Clock (formatTimeString hour minute second sub .auto) hour minute second sub := by
  have hh := padded_two (show hour < 100 by omega)
  have hm := padded_two (show minute < 100 by omega)
  have hs := padded_two (show second < 100 by omega)
  by_cases hzero : sub = 0
  · have h := Clock.second true hh hm hs
    rw [numberOf_padded, numberOf_padded, numberOf_padded] at h
    subst hzero
    simpa [formatTimeString, formatFractionalSeconds, sep] using h
  · have h := Clock.fraction true hh hm hs (fraction_spec hzero hsub)
    rw [numberOf_padded, numberOf_padded, numberOf_padded] at h
    simpa [formatTimeString, sep] using h

theorem formatTimeString_spec {t : Time} (hhour : t.hour < 24) (hminute : t.minute < 60)
    (hsecond : t.second < 60) (hms : t.ms < 1000) (hus : t.us < 1000) (hns : t.ns < 1000) :
    TimeText (formatTimeString t.hour t.minute t.second
      (t.ms * 1_000_000 + t.us * 1_000 + t.ns) .auto) t := by
  have hclock := formatTimeString_clock hhour hminute hsecond
    (show t.ms * 1_000_000 + t.us * 1_000 + t.ns < 1_000_000_000 by omega)
  have h := TimeText.mk hclock (by omega) (by omega) (Or.inl hhour)
  have hsame : timeOf t.hour t.minute t.second (t.ms * 1_000_000 + t.us * 1_000 + t.ns) = t := by
    have hclamp : clamp t.second = t.second := if_neg (by omega)
    have hms' : (t.ms * 1_000_000 + t.us * 1_000 + t.ns) / 1000000 = t.ms := by omega
    have hus' : (t.ms * 1_000_000 + t.us * 1_000 + t.ns) / 1000 % 1000 = t.us := by omega
    have hns' : (t.ms * 1_000_000 + t.us * 1_000 + t.ns) % 1000 = t.ns := by omega
    rw [timeOf, hclamp, hms', hus', hns']
  rwa [hsame] at h

/-! Offsets. -/

/-- An offset is written as a sign and a clock, its seconds only where there are some. -/
theorem formatOffset_spec {offset : Int} (h : offset.natAbs < 86_400_000_000_000) :
    ∃ c w hour minute second total, formatOffsetNanoseconds offset = c :: w ∧
      Clock w hour minute second total ∧ hour ≤ 23 ∧ minute ≤ 59 ∧ second ≤ 59 ∧
      (c = Cu.plus ∧ 0 ≤ offset ∨ c = Cu.minus ∧ offset < 0) ∧
      ((hour * 60 + minute) * 60 + second) * 1_000_000_000 + total = offset.natAbs := by
  by_cases hzero : offset = 0
  · have hclock := Clock.minute true (padded_two (show 0 < 100 by decide))
      (padded_two (show 0 < 100 by decide))
    rw [numberOf_padded] at hclock
    subst hzero
    exact ⟨_, _, 0, 0, 0, 0, rfl, hclock, by decide, by decide, by decide, Or.inl ⟨rfl, le_rfl⟩, rfl⟩
  · simp only [formatOffsetNanoseconds, if_neg hzero]
    generalize hn : offset.natAbs = n at h
    have hh := padded_two (show n / 3_600_000_000_000 < 100 by omega)
    have hm := padded_two (show n / 60_000_000_000 % 60 < 100 by omega)
    have hs := padded_two (show n / 1_000_000_000 % 60 < 100 by omega)
    have hsign : (if offset < 0 then Cu.minus else Cu.plus) = Cu.plus ∧ 0 ≤ offset ∨
        (if offset < 0 then Cu.minus else Cu.plus) = Cu.minus ∧ offset < 0 := by
      by_cases hneg : offset < 0
      · exact Or.inr ⟨if_pos hneg, hneg⟩
      · exact Or.inl ⟨if_neg hneg, by omega⟩
    refine ⟨_, _, n / 3_600_000_000_000, n / 60_000_000_000 % 60, n / 1_000_000_000 % 60,
      n % 1_000_000_000, rfl, ?_, by omega, by omega, by omega, hsign, by omega⟩
    by_cases hsub : n % 1_000_000_000 = 0
    · by_cases hsecond : n / 1_000_000_000 % 60 = 0
      · have hclock := Clock.minute true hh hm
        rw [numberOf_padded, numberOf_padded] at hclock
        simpa [hsub, hsecond, sep] using hclock
      · have hclock := Clock.second true hh hm hs
        rw [numberOf_padded, numberOf_padded, numberOf_padded] at hclock
        simpa [hsub, hsecond, sep] using hclock
    · have hclock := Clock.fraction true hh hm hs
        (fraction_spec hsub (Nat.mod_lt _ (by decide)))
      rw [numberOf_padded, numberOf_padded, numberOf_padded] at hclock
      simpa [hsub, sep] using hclock

theorem Digits.append_ne_nil {n : Nat} {w : Text} (h : Digits (n + 1) w) (u r : Text) :
    u ++ (w ++ r) ≠ [] := by
  intro hnil
  exact h.ne_nil (List.append_eq_nil_iff.1 (List.append_eq_nil_iff.1 hnil).2).1

/-- The texts of offsets are read as their numbers. -/
theorem Clock.utcOffset {c : UInt16} {w : Text} {hour minute second total : Nat} (hc : IsSign c)
    (h : Clock w hour minute second total) (hhour : hour ≤ 23) (hminute : minute ≤ 59)
    (hsecond : second ≤ 59) :
    parseDateTimeUtcOffset (c :: w) = .ok ((if c = Cu.minus then -1 else 1) *
      (((hour * 60 + minute) * 60 + second : Nat) * 1_000_000_000 + total)) := by
  have hcolon : isDigit Cu.colon = false := by decide
  unfold parseDateTimeUtcOffset
  simp only [if_pos (show c = Cu.plus ∨ c = Cu.minus from hc)]
  rw [← List.append_nil w]
  cases h with
  | hour hh =>
      refine digits_bind_eq_ok.mpr ⟨_, _, hh, rfl, ?_⟩
      simp only
      rw [if_neg (by omega), if_pos trivial]
      congr 1
      push_cast
      ring
  | minute separated hh hm =>
      simp only [List.append_assoc]
      refine digits_bind_eq_ok.mpr ⟨_, _, hh, rfl, ?_⟩
      simp only [eat_sep (hm.next_ne hcolon [])]
      rw [if_neg (by omega), if_neg (hm.append_ne_nil _ _)]
      refine digits_bind_eq_ok.mpr ⟨_, _, hm, rfl, ?_⟩
      simp only
      rw [if_neg (by omega)]
      exact bind_eq_ok.mpr ⟨_, if_neg (not_not.2 rfl), rfl⟩
  | second separated hh hm hs =>
      simp only [List.append_assoc]
      refine digits_bind_eq_ok.mpr ⟨_, _, hh, rfl, ?_⟩
      simp only [eat_sep (hm.next_ne hcolon _)]
      rw [if_neg (by omega), if_neg (hm.append_ne_nil _ _)]
      refine digits_bind_eq_ok.mpr ⟨_, _, hm, rfl, ?_⟩
      simp only
      rw [if_neg (by omega)]
      rename_i h m s
      have hseconds : parseOffsetSeconds separated (sep Cu.colon separated ++ (s ++ [])) =
          .ok ((numberOf s, 0), []) := by
        rw [parseOffsetSeconds, if_pos (hs.append_ne_nil _ _)]
        refine bind_eq_ok.mpr ⟨_, expectSep_eq_ok.mpr rfl, ?_⟩
        refine digits_bind_eq_ok.mpr ⟨_, _, hs, rfl, ?_⟩
        simp only
        rw [if_neg (by omega), if_neg (not_not.2 rfl)]
      exact bind_eq_ok.mpr ⟨_, hseconds, if_neg (not_not.2 rfl)⟩
  | fraction separated hh hm hs hf =>
      obtain ⟨value, count, hread, htotal⟩ := parseFraction_append (r := []) hf rfl
      simp only [List.append_assoc]
      refine digits_bind_eq_ok.mpr ⟨_, _, hh, rfl, ?_⟩
      simp only [eat_sep (hm.next_ne hcolon _)]
      rw [if_neg (by omega), if_neg (hm.append_ne_nil _ _)]
      refine digits_bind_eq_ok.mpr ⟨_, _, hm, rfl, ?_⟩
      simp only
      rw [if_neg (by omega)]
      rename_i h m s f
      have hseconds : parseOffsetSeconds separated (sep Cu.colon separated ++ (s ++ (f ++ []))) =
          .ok ((numberOf s, total), []) := by
        rw [parseOffsetSeconds, if_pos (hs.append_ne_nil _ _)]
        refine bind_eq_ok.mpr ⟨_, expectSep_eq_ok.mpr rfl, ?_⟩
        refine digits_bind_eq_ok.mpr ⟨_, _, hs, rfl, ?_⟩
        simp only
        rw [if_neg (by omega), if_pos (by cases hf; simp)]
        refine bind_eq_ok.mpr ⟨_, hread, ?_⟩
        rw [htotal]
      exact bind_eq_ok.mpr ⟨_, hseconds, if_neg (not_not.2 rfl)⟩

theorem formatOffset_parse {offset : Int} (h : offset.natAbs < 86_400_000_000_000) :
    Designator false (formatOffsetNanoseconds offset) ⟨false, formatOffsetNanoseconds offset, []⟩ ∧
      parseDateTimeUtcOffset (formatOffsetNanoseconds offset) = .ok offset := by
  obtain ⟨c, w, hour, minute, second, total, htext, hclock, hhour, hminute, hsecond, hsign,
    hsum⟩ := formatOffset_spec h
  have hc : IsSign c := hsign.imp And.left And.left
  rw [htext]
  refine ⟨.offset (.mk hc hclock hhour hminute hsecond), ?_⟩
  rw [hclock.utcOffset hc hhour hminute hsecond]
  congr 1
  have hsum' : (((hour * 60 + minute) * 60 + second : Nat) * 1_000_000_000 + total : Int) =
      offset.natAbs := by exact_mod_cast hsum
  rw [hsum']
  rcases hsign with ⟨rfl, hnonneg⟩ | ⟨rfl, hneg⟩
  · rw [if_neg (by decide)]
    omega
  · rw [if_pos rfl]
    omega

/-! The round trip. -/

def formatDateTime (year : Int) (month day : Nat) (t : Time) (offset : Int) : Text :=
  padIsoYear year ++ (Cu.minus :: (padded 2 month ++ (Cu.minus :: (padded 2 day ++
    (Cu.t :: (formatTimeString t.hour t.minute t.second
      (t.ms * 1_000_000 + t.us * 1_000 + t.ns) .auto ++ formatOffsetNanoseconds offset))))))

/-- A date-time and its offset are read back from their text, in every format that wants
no time zone. -/
theorem dateTime_roundTrip {format : Format} {year : Int} {month day : Nat} {t : Time}
    {offset : Int} (hformat : format.Dated ∧ format ≠ .dateTimeZoned)
    (hyear : -271821 ≤ year ∧ year ≤ 275760) (hdate : isValidIsoDate year month day = true)
    (htime : t.InRange ∧ t.hour < 24) (hoffset : offset.natAbs < 86_400_000_000_000) :
    ∃ d, parseIsoDateTime (formatDateTime year month day t offset) format = .ok d ∧
      d.year = year ∧ d.month = month ∧ d.day = day ∧ d.time = some t ∧
      d.tz.offsetString = formatOffsetNanoseconds offset ∧
      parseDateTimeUtcOffset d.tz.offsetString = .ok offset := by
  obtain ⟨hinstant, hhour⟩ := htime
  obtain ⟨-, hminute, hsecond, hms, hus, hns⟩ := hinstant
  obtain ⟨⟨hmonth, hmonth'⟩, hday, hday'⟩ : (1 ≤ month ∧ month ≤ 12) ∧ 1 ≤ day ∧
      day ≤ daysInMonth year month := by simpa [isValidIsoDate] using hdate
  have hmonthDays : day < 100 := by
    have : daysInMonth year month ≤ 31 := by
      unfold daysInMonth
      split
      · decide
      · interval_cases month <;> decide
    omega
  have hyearText := padIsoYear_spec (show -999999 ≤ year by omega) (by omega)
  have hdateText : DateText (padIsoYear year ++ (Cu.minus :: (padded 2 month ++
      (Cu.minus :: padded 2 day)))) year month day := by
    have h := DateText.mk true hyearText (padded_two (show month < 100 by omega))
      (padded_two hmonthDays) (by rwa [numberOf_padded, numberOf_padded])
    rwa [numberOf_padded, numberOf_padded] at h
  have htimeText := formatTimeString_spec hhour hminute hsecond hms hus hns
  obtain ⟨hdesignator, hparse⟩ := formatOffset_parse hoffset
  have hne : formatOffsetNanoseconds offset ≠ [] := by
    obtain ⟨c, w, _, _, _, _, htext, _⟩ := formatOffset_spec hoffset
    rw [htext]
    exact List.cons_ne_nil c w
  have hreads : Reads true format (formatDateTime year month day t offset)
      ⟨year, month, day, some t, ⟨false, formatOffsetNanoseconds offset, []⟩, none⟩ := by
    have h : Reads true format _ _ := .mk (.dateTime hformat.1 hdateText (show isTimeMark Cu.t = true by decide)
      htimeText) (fun _ => ⟨hmonth, hmonth'⟩) hdesignator.lax .nil
      { calendar := fun _ c hc => absurd hc (by simp [noAnnotations])
        timed := (absurd · (Option.some_ne_none t))
        instant := fun _ => ⟨(absurd · (Option.some_ne_none t)), Or.inr hne⟩
        zoned := fun h => absurd h hformat.2
        plain := fun _ => rfl
        time := fun _ => rfl }
    simpa [formatDateTime, noAnnotations] using h
  exact ⟨_, parse_eq_ok_iff.2 hreads, rfl, rfl, rfl, rfl, rfl, hparse⟩

/-- The first day, a nanosecond after midnight and almost a day west. -/
theorem dateTime_roundTrip_first :
    ∃ d, parseIsoDateTime (formatDateTime (-271821) 4 20 ⟨0, 0, 0, 0, 0, 1⟩ (-86_399_999_999_999))
        .instantString = .ok d ∧
      d.year = -271821 ∧ d.month = 4 ∧ d.day = 20 ∧ d.time = some ⟨0, 0, 0, 0, 0, 1⟩ ∧
      d.tz.offsetString = formatOffsetNanoseconds (-86_399_999_999_999) ∧
      parseDateTimeUtcOffset d.tz.offsetString = .ok (-86_399_999_999_999) :=
  dateTime_roundTrip ⟨⟨by decide, by decide⟩, by decide⟩ (by decide) (by decide)
    ⟨by unfold Time.InRange; decide, by decide⟩ (by decide)

end Slag.Temporal
