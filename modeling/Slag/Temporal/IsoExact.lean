import Slag.Temporal.IsoAnnotations

/-!
The whole parser: what it accepts and reads, where it panics, and when it is
exact.
-/

namespace Slag.Temporal

variable {l r w : Text} {format : Format}

/-! Dates. -/

variable {year : Int} {month : Nat} {time : Time} {fields : Fields} {hyphen : Bool} {d : ParsedDateTime}
  {tz : ParsedTz}

theorem parseDateYear_eq_ok (h : parseDateYear l = .ok (year, r)) :
    ∃ w, YearText w year ∧ l = w ++ r := by
  cases l with
  | nil => cases h
  | cons c l =>
      simp only [parseDateYear] at h
      split at h
      · rename_i hc
        rw [digits_bind_eq_ok] at h
        obtain ⟨w, l, hw, rfl, h⟩ := h
        simp only at h
        cases hc with
        | inl hp =>
            subst hp
            rw [if_neg (by decide)] at h
            cases h
            exact ⟨_, .plus hw, rfl⟩
        | inr hm =>
            subst hm
            rw [if_pos rfl] at h
            split at h
            · cases h
            · rename_i hne
              cases h
              exact ⟨_, .minus hw hne, rfl⟩
      · split at h
        · rw [bind_eq_ok] at h
          obtain ⟨⟨value, l'⟩, hd, h⟩ := h
          obtain ⟨w, hw, hl, rfl⟩ := digits_eq_ok.mp hd
          cases h
          exact ⟨w, .four hw, hl⟩
        · cases h

theorem YearText.parse (h : YearText w year) (r : Text) :
    parseDateYear (w ++ r) = .ok (year, r) := by
  cases h with
  | plus hw =>
      simp only [List.cons_append, parseDateYear]
      rw [if_pos (.inl trivial)]
      refine bind_eq_ok.mpr ⟨_, digits_append hw r, ?_⟩
      simp only
      rw [if_neg (by decide)]
  | minus hw hne =>
      simp only [List.cons_append, parseDateYear]
      rw [if_pos (.inr trivial)]
      refine bind_eq_ok.mpr ⟨_, digits_append hw r, ?_⟩
      simp only
      rw [if_pos trivial, if_neg hne]
  | four hw =>
      cases w with
      | nil => exact absurd rfl hw.ne_nil
      | cons c w =>
          have hc := hw.2 c List.mem_cons_self
          simp only [List.cons_append, parseDateYear]
          rw [if_neg (by rintro (h | h) <;> exact isDigit_ne hc (by decide) h), if_pos hc]
          exact bind_eq_ok.mpr ⟨_, digits_append hw r, rfl⟩

theorem parseDateYear_ne_panic : parseDateYear l ≠ .error .panic := by
  intro h
  cases l with
  | nil => cases h
  | cons c l =>
      simp only [parseDateYear] at h
      split at h
      · rw [bind_eq_error] at h
        obtain h | ⟨⟨value, l⟩, -, h⟩ := h
        · exact digits_ne_panic h
        · simp only at h
          split at h
          · split at h <;> cases h
          · cases h
      · split at h
        · rw [bind_eq_error] at h
          obtain h | ⟨_, -, h⟩ := h
          · exact digits_ne_panic h
          · cases h
        · cases h

/-- A month, and a day unless a year-month leaves it out; then the rest does not
go on with one. -/
inductive MonthDay (format : Format) : Text → Nat → Option Nat → Text → Prop
  | month {m r : Text} (separated : Bool) : format = .yearMonthString → Digits 2 m →
      (separated = true → nextIs (fun c => c = Cu.minus) r = false) →
      (separated = false → nextIs isDigit r = false) →
      MonthDay format (sep Cu.minus separated ++ m) (numberOf m) none r
  | day {m d r : Text} (separated : Bool) : Digits 2 m → Digits 2 d →
      MonthDay format (sep Cu.minus separated ++ (m ++ (sep Cu.minus separated ++ d))) (numberOf m)
        (some (numberOf d)) r

theorem parseMonthDay_eq_ok {day : Option Nat} (h : parseMonthDay format l = .ok ((month, day), r)) :
    ∃ w, MonthDay format w month day r ∧ l = w ++ r := by
  unfold parseMonthDay at h
  cases eat_cases Cu.minus l with
  | inl he =>
      obtain ⟨l, rfl, he⟩ := he
      simp only [he] at h
      rw [digits_bind_eq_ok] at h
      obtain ⟨m, l, hdm, rfl, h⟩ := h
      simp only at h
      split at h
      · rename_i hym
        cases h
        exact ⟨_, .month true hym.1 hdm (fun _ => Bool.eq_false_iff.mpr hym.2) (by rintro ⟨⟩), rfl⟩
      · rw [bind_eq_ok] at h
        obtain ⟨l', hx, h⟩ := h
        obtain rfl := expect_eq_ok.mp hx
        rw [digits_bind_eq_ok] at h
        obtain ⟨d, l, hdd, rfl, h⟩ := h
        cases h
        exact ⟨_, .day true hdm hdd, by simp [sep]⟩
  | inr he =>
      simp only [he.2] at h
      split at h
      · rw [digits_bind_eq_ok] at h
        obtain ⟨m, l, hdm, rfl, h⟩ := h
        simp only at h
        split at h
        · rw [digits_bind_eq_ok] at h
          obtain ⟨d, l, hdd, rfl, h⟩ := h
          cases h
          exact ⟨_, .day false hdm hdd, by simp [sep]⟩
        · rename_i hn
          split at h
          · cases h
          · rename_i hym
            cases h
            exact ⟨_, .month false (Decidable.not_not.mp hym) hdm (absurd · Bool.false_ne_true)
              (fun _ => Bool.eq_false_iff.mpr hn), rfl⟩
      · cases h

theorem MonthDay.parse {day : Option Nat} (h : MonthDay format w month day r) :
    parseMonthDay format (w ++ r) = .ok ((month, day), r) := by
  unfold parseMonthDay
  cases h with
  | @month m _ separated hym hdm hminus hdigit =>
      cases separated with
      | true =>
          simp only [sep, if_true, List.cons_append, List.nil_append, eat_cons]
          refine bind_eq_ok.mpr ⟨_, digits_append hdm r, ?_⟩
          simp only
          rw [if_pos ⟨hym, by rw [hminus rfl]; decide⟩]
      | false =>
          simp only [sep, Bool.false_eq_true, if_false, List.nil_append,
            eat_of_next (hdm.next_ne (c := Cu.minus) (by decide) r)]
          rw [if_pos (hdm.next_isDigit r)]
          refine bind_eq_ok.mpr ⟨_, digits_append hdm r, ?_⟩
          simp only
          rw [if_neg (by rw [hdigit rfl]; decide), if_neg (by simpa using hym)]
  | @day m d _ separated hdm hdd =>
      cases separated with
      | true =>
          simp only [sep, if_true, List.cons_append, List.nil_append, List.append_assoc, eat_cons]
          refine digits_bind_eq_ok.mpr ⟨_, _, hdm, rfl, ?_⟩
          simp only
          rw [if_neg (by simp [nextIs])]
          refine bind_eq_ok.mpr ⟨_, expect_eq_ok.mpr rfl, ?_⟩
          exact bind_eq_ok.mpr ⟨_, digits_append hdd r, rfl⟩
      | false =>
          simp only [sep, Bool.false_eq_true, if_false, List.nil_append, List.append_assoc,
            eat_of_next (hdm.next_ne (c := Cu.minus) (by decide) (d ++ r))]
          rw [if_pos (hdm.next_isDigit _)]
          refine digits_bind_eq_ok.mpr ⟨_, _, hdm, rfl, ?_⟩
          simp only
          rw [if_pos (hdd.next_isDigit r)]
          exact bind_eq_ok.mpr ⟨_, digits_append hdd r, rfl⟩

theorem parseMonthDay_ne_panic : parseMonthDay format l ≠ .error .panic := by
  intro h
  unfold parseMonthDay at h
  split at h
  · rw [bind_eq_error] at h
    obtain h | ⟨⟨month, l⟩, -, h⟩ := h
    · exact digits_ne_panic h
    simp only at h
    split at h
    · cases h
    rw [bind_eq_error] at h
    obtain h | ⟨l, -, h⟩ := h
    · exact expect_ne_panic h
    rw [bind_eq_error] at h
    obtain h | ⟨_, -, h⟩ := h
    · exact digits_ne_panic h
    · cases h
  · split at h
    · rw [bind_eq_error] at h
      obtain h | ⟨⟨month, l⟩, -, h⟩ := h
      · exact digits_ne_panic h
      simp only at h
      split at h
      · rw [bind_eq_error] at h
        obtain h | ⟨_, -, h⟩ := h
        · exact digits_ne_panic h
        · cases h
      · split at h <;> cases h
    · cases h

/-! Fields. -/

theorem DateText.parts {month day : Nat} (h : DateText w year month day) (format : Format) (r : Text) :
    ∃ y md, w = y ++ md ∧ YearText y year ∧ MonthDay format md month (some day) r ∧
      isValidIsoDate year month day = true := by
  cases h with
  | mk separated hy hm hd hvalid => exact ⟨_, _, rfl, hy, .day separated hm hd, hvalid⟩

theorem YearText.monthDay {y md : Text} {month day : Nat} (hy : YearText y year)
    (hmd : MonthDay format md month (some day) r) (h : isValidIsoDate year month day = true) :
    DateText (y ++ md) year month day := by
  cases hmd with
  | day separated hm hd => exact .mk separated hy hm hd h

theorem digit_not_t (c : UInt16) (hc : isDigit c = true) :
    (decide (c = Cu.t) || decide (c = Cu.tLower)) = false := by
  simp [isDigit_ne hc (d := Cu.t) (by decide), isDigit_ne hc (d := Cu.tLower) (by decide)]

theorem TimeText.next (h : TimeText w time) {p : UInt16 → Bool}
    (hp : ∀ c, isDigit c = true → p c = false) (r : Text) : nextIs p (w ++ r) = false := by
  cases h with
  | mk hc _ _ _ =>
      obtain ⟨hw, separated, mw, present, f, hdh, -, rfl, -⟩ := hc.parts
      rw [List.append_assoc]
      exact hdh.nextIs hp _

theorem Overlong.next {maxHour maxSecond : Nat} (h : Overlong maxHour maxSecond w) {p : UInt16 → Bool}
    (hp : ∀ c, isDigit c = true → p c = false) : nextIs p w = false := by
  cases h with
  | mk separated hdh _ _ _ _ _ _ => exact hdh.nextIs hp _

/-- The two hyphens a month and day may follow. -/
theorem eat_hyphens {m : Text} (hm : Digits 2 m) (r : Text) {hyphens : Nat} (h : hyphens ≤ 2) :
    (eat Cu.minus (eat Cu.minus (List.replicate hyphens Cu.minus ++ (m ++ r))).2).2 = m ++ r := by
  have hnext := hm.next_ne (c := Cu.minus) (by decide) r
  match hyphens, h with
  | 0, _ => rw [List.replicate_zero, List.nil_append, eat_of_next hnext, eat_of_next hnext]
  | 1, _ => rw [show List.replicate 1 Cu.minus ++ (m ++ r) = Cu.minus :: (m ++ r) from rfl, eat_cons,
      eat_of_next hnext]
  | 2, _ => rw [show List.replicate 2 Cu.minus ++ (m ++ r) = Cu.minus :: Cu.minus :: (m ++ r) from rfl,
      eat_cons, eat_cons]

theorem hyphens_of_eat : ∃ hyphens ≤ 2,
    l = List.replicate hyphens Cu.minus ++ (eat Cu.minus (eat Cu.minus l).2).2 := by
  cases eat_cases Cu.minus l with
  | inr he => exact ⟨0, by decide, by rw [he.2, he.2]; rfl⟩
  | inl he =>
      obtain ⟨l, rfl, he⟩ := he
      rw [he]
      cases eat_cases Cu.minus l with
      | inr he => exact ⟨1, by decide, by rw [he.2]; rfl⟩
      | inl he =>
          obtain ⟨l, rfl, he⟩ := he
          exact ⟨2, by decide, by rw [he]; rfl⟩

theorem parseFields_eq_ok (h : parseFields format l = .ok (fields, r)) :
    ∃ w hyphen, FieldsText true format w fields hyphen ∧ l = w ++ r ∧
      (hyphen = false → nextIs (fun c => c = Cu.minus) r = false) := by
  unfold parseFields at h
  split at h
  · rename_i hformat
    subst hformat
    rw [bind_eq_ok] at h
    obtain ⟨⟨time, l'⟩, ht, h⟩ := h
    obtain ⟨w, hw, hl⟩ := parseTime_eq_ok ht
    cases h
    split at hl
    · rename_i hmark
      cases l with
      | nil => exact absurd hmark (by decide)
      | cons c l =>
          have hc : c = Cu.t ∨ c = Cu.tLower := by simpa [nextIs] using hmark
          rw [List.tail_cons] at hl
          subst hl
          refine ⟨[c] ++ w, true, .time (.inr ?_) hw, rfl, by rintro ⟨⟩⟩
          exact hc.imp (congrArg (fun d => [d])) (congrArg (fun d => [d]))
    · exact ⟨[] ++ w, true, .time (.inl rfl) hw, hl, by rintro ⟨⟩⟩
  split at h
  · rename_i hformat
    subst hformat
    obtain ⟨hyphens, hle, hl⟩ : ∃ hyphens ≤ 2, l = List.replicate hyphens Cu.minus ++
        (eat Cu.minus (eat Cu.minus l).2).2 := hyphens_of_eat
    rw [bind_eq_ok] at h
    obtain ⟨⟨month, l'⟩, hm, h⟩ := h
    obtain ⟨m, hdm, hrest, rfl⟩ := digits_eq_ok.mp hm
    rw [hrest] at hl
    subst hl
    cases hs : eat Cu.minus l' with
    | mk separated l =>
    simp only [hs] at h
    obtain ⟨rfl, -⟩ := eat_eq hs
    rw [digits_bind_eq_ok] at h
    obtain ⟨d, l, hdd, rfl, h⟩ := h
    simp only at h
    split at h
    · rename_i hvalid
      cases h
      refine ⟨_, true, .monthDay hyphens separated ?_ hdm hdd hvalid, by simp, by rintro ⟨⟩⟩
      have : hyphens = 0 ∨ hyphens = 2 ∨ hyphens = 1 := by omega
      simpa using this
    · cases h
  · rename_i hformat hformat'
    rw [bind_eq_ok] at h
    obtain ⟨⟨year, l⟩, hy, h⟩ := h
    obtain ⟨y, hyear, rfl⟩ := parseDateYear_eq_ok hy
    rw [bind_eq_ok] at h
    obtain ⟨⟨⟨month, day⟩, l⟩, hmd, h⟩ := h
    obtain ⟨md, hmonth, rfl⟩ := parseMonthDay_eq_ok hmd
    cases day with
    | none =>
        simp only at h
        cases h
        cases hmonth with
        | month separated hym hm hminus _ =>
            subst hym
            refine ⟨_, _, .yearMonth separated hyear hm, by simp, fun hsep => ?_⟩
            exact hminus (by simpa using hsep)
    | some day =>
        simp only at h
        split at h
        · rename_i hvalid
          have hdate := hyear.monthDay hmonth hvalid
          split at h
          · rename_i hmark
            cases l with
            | nil => exact absurd hmark (by decide)
            | cons c l =>
                rw [List.tail_cons, bind_eq_ok] at h
                obtain ⟨⟨time, l⟩, ht, h⟩ := h
                obtain ⟨u, hu, rfl⟩ := parseTime_eq_ok ht
                cases h
                exact ⟨_, true, .dateTime ⟨hformat, hformat'⟩ hdate hmark hu, by simp, by rintro ⟨⟩⟩
          · cases h
            exact ⟨_, true, .date ⟨hformat, hformat'⟩ hdate, by simp, by rintro ⟨⟩⟩
        · cases h

theorem FieldsText.parse {lax hyphen : Bool} (h : FieldsText lax format w fields hyphen) (hr : Stops r)
    (hminus : hyphen = false → nextIs (fun c => c = Cu.minus) r = false) :
    parseFields format (w ++ r) = .ok (fields, r) := by
  cases h with
  | @time mark w time hmark hw =>
      unfold parseFields
      rw [if_pos rfl]
      have htime := hw.parse hr
      obtain rfl | rfl | rfl := hmark
      · rw [List.nil_append, if_neg (by rw [hw.next digit_not_t r]; decide)]
        exact bind_eq_ok.mpr ⟨_, htime, rfl⟩
      · exact bind_eq_ok.mpr ⟨_, htime, rfl⟩
      · exact bind_eq_ok.mpr ⟨_, htime, rfl⟩
  | @monthDay m d hyphens separated hh hdm hdd hvalid =>
      unfold parseFields
      have hle : hyphens ≤ 2 := by omega
      rw [if_neg (by decide), if_pos rfl]
      simp only [List.append_assoc]
      rw [eat_hyphens hdm _ hle]
      refine digits_bind_eq_ok.mpr ⟨_, _, hdm, rfl, ?_⟩
      simp only [eat_sep (hdd.next_ne (c := Cu.minus) (by decide) r)]
      refine bind_eq_ok.mpr ⟨_, digits_append hdd r, ?_⟩
      simp only
      rw [if_pos hvalid]
  | yearMonth separated hy hm =>
      unfold parseFields
      rw [if_neg (by decide), if_neg (by decide), List.append_assoc]
      refine bind_eq_ok.mpr ⟨_, hy.parse _, ?_⟩
      have hmd : MonthDay .yearMonthString _ _ none r :=
        .month separated rfl hm (fun hs => hminus (by simp [hs])) (fun _ => hr.digit)
      exact bind_eq_ok.mpr ⟨_, hmd.parse, rfl⟩
  | date hdated hdate =>
      obtain ⟨y, md, rfl, hy, hmd, hvalid⟩ := hdate.parts format r
      unfold parseFields
      rw [if_neg hdated.1, if_neg hdated.2, List.append_assoc]
      refine bind_eq_ok.mpr ⟨_, hy.parse _, ?_⟩
      refine bind_eq_ok.mpr ⟨_, hmd.parse, ?_⟩
      simp only
      rw [if_pos hvalid, if_neg (by rw [hr.timeMark]; decide)]
  | @dateTime _ w u c year month day time hdated hdate hmark hu =>
      obtain ⟨y, md, rfl, hy, hmd, hvalid⟩ := hdate.parts format (c :: (u ++ r))
      unfold parseFields
      rw [if_neg hdated.1, if_neg hdated.2]
      simp only [List.append_assoc, List.cons_append]
      refine bind_eq_ok.mpr ⟨_, hy.parse _, ?_⟩
      refine bind_eq_ok.mpr ⟨_, hmd.parse, ?_⟩
      simp only
      rw [if_pos hvalid, if_pos (show nextIs isTimeMark (c :: _) = true from hmark), List.tail_cons]
      exact bind_eq_ok.mpr ⟨_, hu.parse hr, rfl⟩

theorem parseFields_panic : parseFields format l = .error .panic ↔ OverlongTime format l := by
  constructor
  · intro h
    unfold parseFields at h
    split at h
    · rename_i hformat
      subst hformat
      rw [bind_eq_error] at h
      obtain h | ⟨_, -, h⟩ := h
      · have hlong := parseTime_panic.mp h
        split at hlong
        · rename_i hmark
          cases l with
          | nil => exact absurd hmark (by decide)
          | cons c l =>
              have hc : c = Cu.t ∨ c = Cu.tLower := by simpa [nextIs] using hmark
              rw [List.tail_cons] at hlong
              refine @OverlongTime.time [c] _ (.inr ?_) hlong
              exact hc.imp (congrArg (fun d => [d])) (congrArg (fun d => [d]))
        · exact @OverlongTime.time [] _ (.inl rfl) hlong
      · cases h
    split at h
    · rw [bind_eq_error] at h
      obtain h | ⟨⟨month, l'⟩, -, h⟩ := h
      · exact absurd h digits_ne_panic
      simp only at h
      rw [bind_eq_error] at h
      obtain h | ⟨⟨day, l⟩, -, h⟩ := h
      · exact absurd h digits_ne_panic
      simp only at h
      split at h <;> cases h
    · rename_i hformat hformat'
      rw [bind_eq_error] at h
      obtain h | ⟨⟨year, l⟩, hy, h⟩ := h
      · exact absurd h parseDateYear_ne_panic
      obtain ⟨y, hyear, rfl⟩ := parseDateYear_eq_ok hy
      rw [bind_eq_error] at h
      obtain h | ⟨⟨⟨month, day⟩, l⟩, hmd, h⟩ := h
      · exact absurd h parseMonthDay_ne_panic
      obtain ⟨md, hmonth, rfl⟩ := parseMonthDay_eq_ok hmd
      cases day with
      | none => cases h
      | some day =>
          simp only at h
          split at h
          · rename_i hvalid
            split at h
            · rename_i hmark
              cases l with
              | nil => exact absurd hmark (by decide)
              | cons c l =>
                  rw [List.tail_cons, bind_eq_error] at h
                  obtain h | ⟨_, -, h⟩ := h
                  · rw [← List.append_assoc]
                    exact .dateTime ⟨hformat, hformat'⟩ (hyear.monthDay hmonth hvalid) hmark
                      (parseTime_panic.mp h)
                  · cases h
            · cases h
          · cases h
  · intro h
    cases h with
    | @time mark w hmark hw =>
        unfold parseFields
        rw [if_pos rfl]
        have htime := parseTime_panic.mpr hw
        obtain rfl | rfl | rfl := hmark
        · rw [List.nil_append, if_neg (by rw [hw.next digit_not_t]; decide)]
          exact bind_eq_error.mpr (.inl htime)
        · exact bind_eq_error.mpr (.inl htime)
        · exact bind_eq_error.mpr (.inl htime)
    | @dateTime _ w u c year month day hdated hdate hmark hu =>
        obtain ⟨y, md, rfl, hy, hmd, hvalid⟩ := hdate.parts format (c :: u)
        unfold parseFields
        rw [if_neg hdated.1, if_neg hdated.2]
        simp only [List.append_assoc]
        refine bind_eq_error.mpr (.inr ⟨_, hy.parse _, ?_⟩)
        refine bind_eq_error.mpr (.inr ⟨_, hmd.parse, ?_⟩)
        simp only
        rw [if_pos hvalid, if_pos (show nextIs isTimeMark (c :: _) = true from hmark), List.tail_cons]
        exact bind_eq_error.mpr (.inl (parseTime_panic.mpr hu))

/-! The end. -/

theorem Annotations.continues {s t : Annotated} (h : Annotations s w t) : continues w = false := by
  obtain ⟨rfl, -⟩ | ⟨_, _, _, rfl, _⟩ := h.cases
  · rfl
  · simp [Temporal.continues]

theorem foreign_calendar_iff (calendar : Option Text) :
    calendar.any (fun c => !eqIgnoreAsciiCase c iso8601) = false ↔
      ∀ c, calendar = some c → eqIgnoreAsciiCase c iso8601 = true := by
  cases calendar <;> simp

theorem finishParse_eq_ok (h : finishParse format fields l = .ok d) :
    MonthOk format fields ∧ ∃ w u tz s, l = w ++ u ∧ Designator true w tz ∧
      Annotations noAnnotations u s ∧ Agreed format fields tz s ∧
      d = ⟨fields.year, fields.month, fields.day, fields.time, { tz with annotation := s.zone },
        s.calendar⟩ := by
  unfold finishParse at h
  split at h
  · cases h
  rename_i hmonth
  rw [bind_eq_ok] at h
  obtain ⟨⟨tz, l⟩, htz, h⟩ := h
  obtain ⟨w, hw, rfl⟩ := parseDesignator_eq_ok htz
  rw [bind_eq_ok] at h
  obtain ⟨⟨s, l'⟩, hs, h⟩ := h
  obtain ⟨u, hu, rfl, -⟩ := parseAnnotations_eq_ok (Nat.le_refl _) hs
  simp only at h
  split at h
  · cases h
  rename_i hend
  obtain rfl := Decidable.not_not.mp hend
  split at h
  · cases h
  rename_i hcalendar
  split at h
  · cases h
  rename_i htimed
  split at h
  · cases h
  rename_i hinstant
  split at h
  · cases h
  rename_i hzoned
  split at h
  · cases h
  rename_i hplain
  split at h
  · cases h
  rename_i htime
  cases h
  refine ⟨by simpa [MonthOk] using hmonth, w, u, tz, s, by simp, hw, hu, ?_, rfl⟩
  constructor
  case calendar => simpa [foreign_calendar_iff] using hcalendar
  case timed => simpa using htimed
  case instant =>
    intro hf
    simp only [hf, true_and, not_or, not_and, Bool.not_eq_true] at hinstant
    refine ⟨hinstant.1, ?_⟩
    cases hz : tz.z with
    | true => exact .inl rfl
    | false => exact .inr (hinstant.2 hz)
  case zoned => simpa using hzoned
  case plain => simpa using hplain
  case time => simpa using htime

theorem Agreed.finish {w u : Text} {lax : Bool} {s : Annotated} (h : Agreed format fields tz s)
    (hmonth : MonthOk format fields) (hw : Designator lax w tz) (hu : Annotations noAnnotations u s) :
    finishParse format fields (w ++ u) = .ok ⟨fields.year, fields.month, fields.day, fields.time,
      { tz with annotation := s.zone }, s.calendar⟩ := by
  unfold finishParse
  rw [if_neg (by simpa [MonthOk] using hmonth)]
  refine bind_eq_ok.mpr ⟨_, hw.parse hu.continues, ?_⟩
  have hann := hu.parse (r := []) rfl (Nat.le_refl _)
  rw [List.append_nil] at hann
  refine bind_eq_ok.mpr ⟨_, hann, ?_⟩
  simp only
  rw [if_neg (by simp), if_neg (by simpa [foreign_calendar_iff] using h.calendar), if_neg (by simpa using h.timed),
    if_neg ?_, if_neg (by simpa using h.zoned), if_neg (by simpa using h.plain),
    if_neg (by simpa using h.time)]
  rintro ⟨hf, hno⟩
  obtain ⟨htime, hz⟩ := h.instant hf
  cases hno with
  | inl hn => exact htime hn
  | inr hn =>
      cases hz with
      | inl hz => exact hn.1 hz
      | inr hz => exact hz hn.2

theorem finishParse_panic : finishParse format fields l = .error .panic ↔
    MonthOk format fields ∧ ((∃ c u, l = c :: u ∧ IsSign c ∧ Overlong 23 59 u) ∨
      ∃ w u r tz s, l = w ++ (u ++ Cu.lBracket :: r) ∧ Designator true w tz ∧
        Annotations noAnnotations u s ∧ BadAnnotation s r) := by
  unfold finishParse
  by_cases hmonth : MonthOk format fields
  · rw [if_neg (by simpa [MonthOk] using hmonth), bind_eq_error, parseDesignator_panic]
    constructor
    · rintro (h | ⟨⟨tz, l⟩, htz, h⟩)
      · exact ⟨hmonth, .inl h⟩
      · obtain ⟨w, hw, rfl⟩ := parseDesignator_eq_ok htz
        simp only at h
        rw [bind_eq_error, parseAnnotations_panic (Nat.le_refl _)] at h
        obtain ⟨u, r, s, rfl, hu, hbad⟩ | ⟨⟨s, l'⟩, -, h⟩ := h
        · exact ⟨hmonth, .inr ⟨w, u, r, tz, s, rfl, hw, hu, hbad⟩⟩
        · exfalso
          simp only at h
          repeat' split at h
          all_goals cases h
    · rintro ⟨-, h | ⟨w, u, r, tz, s, rfl, hw, hu, hbad⟩⟩
      · exact .inl h
      · have hcont : continues (u ++ Cu.lBracket :: r) = false := by
          obtain ⟨rfl, -⟩ | ⟨_, _, _, rfl, _⟩ := hu.cases
          · simp [continues]
          · simp [continues]
        refine .inr ⟨_, hw.parse hcont, ?_⟩
        exact bind_eq_error.mpr (.inl ((parseAnnotations_panic (Nat.le_refl _)).mpr
          ⟨u, r, s, rfl, hu, hbad⟩))
  · rw [if_pos (by simpa [MonthOk] using hmonth)]
    exact ⟨by rintro ⟨⟩, fun h => absurd h.1 hmonth⟩

/-! The whole. -/

/-- A designator or the end, and then annotations, is where a date or time stops. -/
theorem Designator.stops {lax : Bool} {d u : Text} (hd : Designator lax d tz) (hu : continues u = false) :
    Stops (d ++ u) := by
  have hunit : ∀ {c : UInt16} {r : Text}, c = Cu.z ∨ c = Cu.zLower ∨ IsSign c → Stops (c :: r) := by
    rintro c r (rfl | rfl | rfl | rfl) <;> rfl
  obtain ⟨rfl, -⟩ | ⟨c, hc, rfl, -⟩ | ⟨c, v, hc, -, rfl, -⟩ := hd.cases
  · exact continues_false hu (by decide)
  · exact hunit (hc.imp_right .inl)
  · exact hunit (.inr (.inr hc))

/-- A hyphen cannot follow a year-month that is read: it has no designator. -/
theorem FieldsText.no_hyphen {lax lax' hyphen : Bool} {d u : Text} {s : Annotated}
    (h : FieldsText lax format w fields hyphen) (hd : Designator lax' d tz) (hu : continues u = false)
    (ha : Agreed format fields tz s) (hh : hyphen = false) :
    nextIs (fun c => c = Cu.minus) (d ++ u) = false := by
  cases h with
  | yearMonth separated hy hm =>
      obtain ⟨hz, ho⟩ := ha.timed rfl
      obtain ⟨rfl, -⟩ | ⟨c, -, rfl, rfl⟩ | ⟨c, v, -, -, rfl, rfl⟩ := hd.cases
      · exact continues_false hu (by decide)
      · cases hz
      · cases ho
  | _ => cases hh

/-- The parser reads the strings of the lax grammar, each as the grammar does. -/
theorem parse_eq_ok_iff :
    parseIsoDateTime l format = .ok d ↔ Reads true format l d := by
  constructor
  · intro h
    unfold parseIsoDateTime at h
    rw [bind_eq_ok] at h
    obtain ⟨⟨fields, l⟩, hf, h⟩ := h
    obtain ⟨w, hyphen, hw, rfl, -⟩ := parseFields_eq_ok hf
    obtain ⟨hmonth, v, u, tz, s, rfl, hv, hu, ha, rfl⟩ := finishParse_eq_ok h
    exact .mk hw hmonth hv hu ha
  · intro h
    cases h with
    | mk hw hmonth hd hu ha =>
        exact bind_eq_ok.mpr ⟨_, hw.parse (hd.stops hu.continues)
          (hw.no_hyphen hd hu.continues ha), ha.finish hmonth hd hu⟩

theorem parse_panic_iff : parseIsoDateTime l format = .error .panic ↔ Stuck format l := by
  constructor
  · intro h
    unfold parseIsoDateTime at h
    rw [bind_eq_error] at h
    obtain h | ⟨⟨fields, l⟩, hf, h⟩ := h
    · exact .time (parseFields_panic.mp h)
    obtain ⟨w, hyphen, hw, rfl, hminus⟩ := parseFields_eq_ok hf
    obtain ⟨hmonth, ⟨c, u, rfl, hc, hu⟩ | ⟨v, u, r, tz, s, rfl, hv, hu, hbad⟩⟩ := finishParse_panic.mp h
    · exact .offset hw hmonth hc (fun hh => of_decide_eq_false (hminus hh)) hu
    · refine .bracket hw hmonth hv (fun hh => ?_) hu hbad
      have hn := hminus hh
      cases v with
      | nil => rfl
      | cons c v => exact hn
  · intro h
    cases h with
    | time h => exact bind_eq_error.mpr (.inl (parseFields_panic.mpr h))
    | offset hw hmonth hc hminus hu =>
        refine bind_eq_error.mpr (.inr ⟨_, hw.parse ?_ (fun hh => decide_eq_false (hminus hh)),
          finishParse_panic.mpr ⟨hmonth, .inl ⟨_, _, rfl, hc, hu⟩⟩⟩)
        obtain rfl | rfl := hc <;> rfl
    | @bracket w d u r fields hyphen tz s hw hmonth hd hminus hu hbad =>
        have hcont : continues (u ++ Cu.lBracket :: r) = false := by
          obtain ⟨rfl, -⟩ | ⟨_, _, _, rfl, _⟩ := hu.cases
          · simp [continues]
          · simp [continues]
        refine bind_eq_error.mpr (.inr ⟨_, hw.parse (hd.stops hcont) (fun hh => ?_),
          finishParse_panic.mpr ⟨hmonth, .inr ⟨_, _, _, _, _, rfl, hd, hu, hbad⟩⟩⟩)
        have hn := hminus hh
        cases d with
        | nil => exact continues_false hcont (by decide)
        | cons c d => exact hn

/-! What is read is valid. -/

theorem Clock.total_lt {hour minute second total : Nat} (h : Clock w hour minute second total) :
    total < 1000000000 := by
  cases h with
  | fraction _ _ _ _ hf => exact hf.total_lt
  | _ => decide

theorem TimeText.inRange (h : TimeText w time) : time.InRange := by
  cases h with
  | @mk hour minute second total hc hminute hsecond hhour =>
      have hlt := hc.total_lt
      have hclamp : clamp second < 60 := by
        unfold clamp
        split <;> omega
      refine ⟨hhour.imp_right ?_, Nat.lt_succ_of_le hminute, hclamp, ?_, ?_, ?_⟩
      · rintro ⟨h1, h2, h3, rfl⟩
        exact ⟨h1, h2, h3, rfl, rfl, rfl⟩
      · exact Nat.div_lt_of_lt_mul (by omega)
      · exact Nat.mod_lt _ (by decide)
      · exact Nat.mod_lt _ (by decide)

theorem isValidMonthDay_bounds {month day : Nat} (h : isValidMonthDay month day = true) :
    month < 13 ∧ day < 32 := by
  simp only [isValidMonthDay, Bool.and_eq_true, decide_eq_true_eq] at h
  refine ⟨by omega, ?_⟩
  have hday := h.2
  split at hday
  case h_7 => simp only [Bool.and_eq_true, decide_eq_true_eq] at hday; omega
  all_goals cases hday

/-- A month and day are a date of a leap year. -/
theorem isValidIsoDate_of_monthDay {month day : Nat} (h : isValidMonthDay month day = true) :
    isValidIsoDate 1972 month day = true := by
  have hall : ∀ month < 13, ∀ day < 32, isValidMonthDay month day = true →
      isValidIsoDate 1972 month day = true := by decide
  obtain ⟨hm, hd⟩ := isValidMonthDay_bounds h
  exact hall month hm day hd h

theorem isValidIsoDate_first (h : 1 ≤ month ∧ month ≤ 12) :
    isValidIsoDate year month 1 = true := by
  have hpos : 1 ≤ daysInMonth year month := by
    unfold daysInMonth
    split
    · decide
    · obtain ⟨h1, h2⟩ := h
      match month, h1, h2 with
      | 1, _, _ | 2, _, _ | 3, _, _ | 4, _, _ | 5, _, _ | 6, _, _ | 7, _, _ | 8, _, _ | 9, _, _
      | 10, _, _ | 11, _, _ | 12, _, _ => decide
  simp [isValidIsoDate, h, hpos]

theorem FieldsText.valid {lax hyphen : Bool} (h : FieldsText lax format w fields hyphen)
    (hmonth : MonthOk format fields) :
    isValidIsoDate fields.year fields.month fields.day = true ∧ ∀ t ∈ fields.time, t.InRange := by
  cases h with
  | time _ hw =>
      exact ⟨(by decide : isValidIsoDate 1972 1 1 = true), fun t ht => Option.some.inj ht ▸ hw.inRange⟩
  | monthDay _ _ _ _ _ hvalid => exact ⟨isValidIsoDate_of_monthDay hvalid, nofun⟩
  | yearMonth _ _ _ => exact ⟨isValidIsoDate_first (hmonth rfl), nofun⟩
  | date _ hdate => cases hdate with
    | mk _ _ _ _ hvalid => exact ⟨hvalid, nofun⟩
  | dateTime _ hdate _ hu => cases hdate with
    | mk _ _ _ _ hvalid => exact ⟨hvalid, fun t ht => Option.some.inj ht ▸ hu.inRange⟩

theorem Reads.valid {lax : Bool} (h : Reads lax format l d) : d.Valid := by
  cases h with
  | mk hw hmonth _ _ _ =>
      obtain ⟨hdate, htime⟩ := hw.valid hmonth
      exact ⟨hdate, htime⟩

/-! The slips, by the text. -/

theorem YearText.plain (h : YearText w year) : Plain w := by
  cases h with
  | four hw => exact hw.plain
  | plus hw | minus hw _ => exact hw.plain.cons (by decide)

theorem DateText.plain {month day : Nat} (h : DateText w year month day) : Plain w := by
  have hsep := plain_sep (c := Cu.minus) (by decide)
  cases h with
  | mk separated hy hm hd _ =>
      exact hy.plain.append ((hsep separated).append (hm.plain.append ((hsep separated).append hd.plain)))

theorem TimeText.plain (h : TimeText w time) : Plain w := by
  cases h with
  | mk hc _ _ _ => exact hc.plain

theorem FieldsText.plain {lax hyphen : Bool} (h : FieldsText lax format w fields hyphen) :
    Plain w := by
  have hsep := plain_sep (c := Cu.minus) (by decide)
  cases h with
  | time hmark hw =>
      obtain rfl | rfl | rfl := hmark
      · exact hw.plain
      · exact hw.plain.cons (by decide)
      · exact hw.plain.cons (by decide)
  | monthDay hyphens separated _ hm hd _ =>
      have hrep : Plain (List.replicate hyphens Cu.minus) := fun c hc =>
        List.eq_of_mem_replicate hc ▸ by decide
      exact hrep.append (hm.plain.append ((hsep separated).append hd.plain))
  | yearMonth separated hy hm => exact hy.plain.append ((hsep separated).append hm.plain)
  | date _ hdate => exact hdate.plain
  | dateTime _ hdate hmark hu =>
      refine hdate.plain.append (hu.plain.cons ?_)
      simp only [isTimeMark, Bool.or_eq_true, decide_eq_true_eq] at hmark
      obtain (rfl | rfl) | rfl := hmark <;> decide

/-- The text before the annotations. -/
theorem takeWhile_plain {u : Text} (hw : Plain w) (hu : continues u = false) :
    (w ++ u).takeWhile (fun c => c ≠ Cu.lBracket) = w := by
  induction w with
  | nil =>
      cases u with
      | nil => rfl
      | cons c u =>
          have hc : c = Cu.lBracket := by simpa [continues] using hu
          simp [hc]
  | cons c w ih =>
      obtain ⟨hc, hw⟩ := List.forall_mem_cons.mp hw
      rw [List.cons_append, List.takeWhile_cons_of_pos (by simpa using hc.2), ih hw]

/-- The last unit is a digit. -/
def EndsInDigit (w : Text) : Prop := ∃ c ∈ w.getLast?, isDigit c = true

theorem EndsInDigit.append {v : Text} (h : EndsInDigit w) : EndsInDigit (v ++ w) := by
  obtain ⟨c, hc, hd⟩ := h
  refine ⟨c, ?_, hd⟩
  rw [Option.mem_def] at hc ⊢
  rw [List.getLast?_append, hc]
  rfl

theorem endsInDigit_of_digits (hne : w ≠ []) (hw : ∀ c ∈ w, isDigit c = true) : EndsInDigit w :=
  ⟨w.getLast hne, List.getLast?_eq_some_getLast hne, hw _ (List.getLast_mem hne)⟩

theorem Digits.ends {n : Nat} (h : Digits (n + 1) w) : EndsInDigit w :=
  endsInDigit_of_digits h.ne_nil h.2

theorem Clock.ends {hour minute second total : Nat} (h : Clock w hour minute second total) :
    EndsInDigit w := by
  cases h with
  | hour hh => exact hh.ends
  | minute _ _ hm => exact hm.ends.append.append
  | second _ _ _ hs => exact hs.ends.append.append.append.append
  | fraction _ _ _ _ hf =>
      cases hf with
      | @mk c ds _ hpos _ hds =>
          have hne : ds ≠ [] := List.ne_nil_of_length_pos hpos
          have hends : EndsInDigit ([c] ++ ds) := (endsInDigit_of_digits hne hds).append
          exact hends.append.append.append.append.append

theorem FieldsText.ends {lax hyphen : Bool} (h : FieldsText lax format w fields hyphen) :
    EndsInDigit w := by
  cases h with
  | time _ hw => cases hw with
    | mk hc _ _ _ => exact hc.ends.append
  | monthDay _ _ _ _ hd _ => exact hd.ends.append.append.append
  | yearMonth _ _ hm => exact hm.ends.append.append
  | date _ hdate => cases hdate with
    | mk _ _ _ hd _ => exact hd.ends.append.append.append.append
  | @dateTime _ w u c _ _ _ _ _ _ _ hu => cases hu with
    | mk hc _ _ _ =>
        have hends : EndsInDigit ([c] ++ u) := hc.ends.append
        exact hends.append

/-- Before the annotations stand the fields and the designator. -/
theorem trailingColon_iff {d u : Text} (hw : Plain w) (hd : Plain d) (hu : continues u = false) :
    TrailingColon (w ++ (d ++ u)) ↔ (w ++ d).getLast? = some Cu.colon := by
  unfold TrailingColon
  rw [← List.append_assoc, takeWhile_plain (hw.append hd) hu]

theorem EndsInDigit.not_colon (h : EndsInDigit w) : w.getLast? ≠ some Cu.colon := by
  obtain ⟨c, hc, hd⟩ := h
  rw [Option.mem_def.mp hc]
  rintro he
  exact isDigit_ne hd (by decide) (Option.some.inj he)

theorem Designator.ends_strict {d : Text} (hd : Designator false d tz) (hw : EndsInDigit w) :
    (w ++ d).getLast? ≠ some Cu.colon := by
  cases hd with
  | absent => rw [List.append_nil]; exact hw.not_colon
  | zulu hc =>
      rw [List.getLast?_append, List.getLast?_singleton]
      rintro he
      have := Option.some.inj he
      obtain rfl | rfl := hc <;> exact absurd this (by decide)
  | offset ho =>
      cases ho with
      | @mk c v _ _ _ _ _ hclock _ _ _ =>
          have hends : EndsInDigit ([c] ++ v) := hclock.ends.append
          exact hends.append.not_colon
  | dangling hl _ => cases hl

theorem Designator.strict_or {d : Text} (hd : Designator true d tz) :
    Designator false d tz ∨ (w ++ d).getLast? = some Cu.colon := by
  cases hd with
  | absent => exact .inl .absent
  | zulu hc => exact .inl (.zulu hc)
  | offset ho => exact .inl (.offset ho)
  | dangling _ h =>
      cases h with
      | @mk c v _ _ _ =>
          refine .inr ?_
          rw [← List.cons_append, ← List.append_assoc, List.getLast?_append]
          rfl

theorem FieldsText.lax (h : FieldsText false format w fields hyphen) :
    FieldsText true format w fields hyphen := by
  cases h with
  | time hmark hw => exact .time hmark hw
  | monthDay hyphens separated hh hm hd hvalid =>
      refine .monthDay hyphens separated ?_ hm hd hvalid
      exact hh.imp_right fun h => h.imp_right fun h => absurd h.1 (by decide)
  | yearMonth separated hy hm => exact .yearMonth separated hy hm
  | date hdated hdate => exact .date hdated hdate
  | dateTime hdated hdate hmark hu => exact .dateTime hdated hdate hmark hu

theorem Designator.lax {d : Text} (h : Designator false d tz) : Designator true d tz := by
  cases h with
  | absent => exact .absent
  | zulu hc => exact .zulu hc
  | offset ho => exact .offset ho
  | dangling hl _ => cases hl

/-- Only a month and day after one hyphen are lax fields. -/
theorem FieldsText.strict_or (h : FieldsText true format w fields hyphen) :
    FieldsText false format w fields hyphen ∨ ∀ r, OneHyphen format (w ++ r) := by
  cases h with
  | time hmark hw => exact .inl (.time hmark hw)
  | @monthDay m d hyphens separated hh hm hd hvalid =>
      obtain h0 | h2 | h1 := hh
      · exact .inl (.monthDay hyphens separated (.inl h0) hm hd hvalid)
      · exact .inl (.monthDay hyphens separated (.inr (.inl h2)) hm hd hvalid)
      · refine .inr fun r => ⟨rfl, ?_⟩
        cases m with
        | nil => exact absurd rfl hm.ne_nil
        | cons c m =>
            refine ⟨c, m ++ (sep Cu.minus separated ++ d) ++ r, ?_,
              isDigit_ne (hm.2 c List.mem_cons_self) (by decide)⟩
            rw [h1.2]
            rfl
  | yearMonth separated hy hm => exact .inl (.yearMonth separated hy hm)
  | date hdated hdate => exact .inl (.date hdated hdate)
  | dateTime hdated hdate hmark hu => exact .inl (.dateTime hdated hdate hmark hu)

theorem FieldsText.not_oneHyphen (h : FieldsText false format w fields hyphen) (r : Text) :
    ¬OneHyphen format (w ++ r) := by
  rintro ⟨hformat, c, v, htext, hc⟩
  cases h with
  | time _ _ | yearMonth _ _ _ => cases hformat
  | date hdated _ | dateTime hdated _ _ _ => exact hdated.2 hformat
  | @monthDay m d hyphens separated hh hm hd hvalid =>
      obtain rfl | rfl | h1 := hh
      · cases m with
        | nil => exact absurd rfl hm.ne_nil
        | cons e m =>
            have he := isDigit_ne (hm.2 e List.mem_cons_self) (d := Cu.minus) (by decide)
            exact he (List.cons.inj htext).1
      · exact hc (List.cons.inj (List.cons.inj htext).2).1.symm
      · exact absurd h1.1 (by decide)

/-- The documented strings are the ones accepted without either slip. -/
theorem reads_strict_iff :
    Reads false format l d ↔ Reads true format l d ∧ ¬OneHyphen format l ∧ ¬TrailingColon l := by
  constructor
  · intro h
    cases h with
    | mk hw hmonth hd hu ha =>
        refine ⟨.mk hw.lax hmonth hd.lax hu ha, hw.not_oneHyphen _, ?_⟩
        rw [trailingColon_iff hw.plain hd.plain hu.continues]
        exact hd.ends_strict hw.ends
  · rintro ⟨h, hhyphen, hcolon⟩
    cases h with
    | mk hw hmonth hd hu ha =>
        rw [trailingColon_iff hw.plain hd.plain hu.continues] at hcolon
        have hw' := hw.strict_or.resolve_right fun h => hhyphen (h _)
        exact .mk hw' hmonth (hd.strict_or.resolve_right hcolon) hu ha

/-- No panic, and what is accepted is a documented string, read as the grammar
reads it, with a valid date and time. -/
def Exact (format : Format) (text : Text) : Prop :=
  match parseIsoDateTime text format with
  | .ok d => Reads false format text d ∧ d.Valid
  | .error .invalid => True
  | .error .panic => False

/-- The parser is exact on all texts but those it panics on and those it accepts
with one hyphen or a trailing colon. -/
theorem exact_iff (format : Format) (text : Text) :
    Exact format text ↔ ¬Stuck format text ∧
      ¬((∃ d, Reads true format text d) ∧ (OneHyphen format text ∨ TrailingColon text)) := by
  unfold Exact
  cases h : parseIsoDateTime text format with
  | ok d =>
      have hreads := parse_eq_ok_iff.mp h
      have hstuck : ¬Stuck format text := fun hs => by
        rw [parse_panic_iff.mpr hs] at h
        cases h
      simp only [hreads.valid, and_true, reads_strict_iff, hreads, true_and, hstuck, not_false_eq_true]
      rw [not_and, not_or]
      exact ⟨fun h _ => h, fun h => h ⟨d, hreads⟩⟩
  | error failure =>
      have hno : ¬∃ d, Reads true format text d := fun ⟨d, hd⟩ => by
        rw [parse_eq_ok_iff.mpr hd] at h
        cases h
      cases failure with
      | invalid =>
          refine iff_of_true trivial ⟨fun hs => ?_, fun hs => hno hs.1⟩
          rw [parse_panic_iff.mpr hs] at h
          cases h
      | panic => exact iff_of_false id fun hs => hs.1 (parse_panic_iff.mp h)

/-- `-12-25`, `12:00+05:` and `00:00[` before a lone surrogate. -/
theorem exact_fails :
    ¬Exact .monthDayString [0x2D, 0x31, 0x32, 0x2D, 0x32, 0x35] ∧
    ¬Exact .timeString [0x31, 0x32, 0x3A, 0x30, 0x30, 0x2B, 0x30, 0x35, 0x3A] ∧
    ¬Exact .timeString [0x30, 0x30, 0x3A, 0x30, 0x30, 0x5B, 0xD800] := by
  refine ⟨fun h => ?_, fun h => ?_, fun h => h⟩
  · exact (reads_strict_iff.mp h.1).2.1 ⟨rfl, _, _, rfl, by decide⟩
  · exact (reads_strict_iff.mp h.1).2.2 rfl

end Slag.Temporal
