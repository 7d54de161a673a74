import Slag.Temporal.Iso

/-!
The grammar of ISO 8601 / RFC 9557 strings as the parser documents it, with what
a string reads as. The lax grammar also has the strings the parser lets through: a
month and day after one hyphen, and an offset that ends in a colon.
-/

namespace Slag.Temporal

def Digits (n : Nat) (w : Text) : Prop := w.length = n ∧ ∀ c ∈ w, isDigit c = true

def numberOf (w : Text) : Nat := w.foldl (fun value c => value * 10 + digitValue c) 0

def IsMark (c : UInt16) : Prop := c = Cu.dot ∨ c = Cu.comma

def IsSign (c : UInt16) : Prop := c = Cu.plus ∨ c = Cu.minus

/-- A separator that is there or not. -/
def sep (c : UInt16) (separated : Bool) : Text := if separated then [c] else []

/-- One to nine digits after a dot or a comma, and its nanoseconds. -/
inductive Fraction : Text → Nat → Prop
  | mk {c : UInt16} {ds : Text} : IsMark c → 1 ≤ ds.length → ds.length ≤ 9 →
      (∀ c ∈ ds, isDigit c = true) → Fraction (c :: ds) (numberOf ds * 10 ^ (9 - ds.length))

/-- `HH`, `HHMM` or `HH:MM`, `HHMMSS` or `HH:MM:SS`, and a fraction after seconds:
the separators are all there or none is. -/
inductive Clock : Text → Nat → Nat → Nat → Nat → Prop
  | hour {h : Text} : Digits 2 h → Clock h (numberOf h) 0 0 0
  | minute {h m : Text} (separated : Bool) : Digits 2 h → Digits 2 m →
      Clock (h ++ (sep Cu.colon separated ++ m)) (numberOf h) (numberOf m) 0 0
  | second {h m s : Text} (separated : Bool) : Digits 2 h → Digits 2 m → Digits 2 s →
      Clock (h ++ (sep Cu.colon separated ++ (m ++ (sep Cu.colon separated ++ s))))
        (numberOf h) (numberOf m) (numberOf s) 0
  | fraction {h m s f : Text} {total : Nat} (separated : Bool) : Digits 2 h → Digits 2 m →
      Digits 2 s → Fraction f total →
      Clock (h ++ (sep Cu.colon separated ++ (m ++ (sep Cu.colon separated ++ (s ++ f)))))
        (numberOf h) (numberOf m) (numberOf s) total

def timeOf (hour minute second total : Nat) : Time :=
  ⟨hour, minute, clamp second, total / 1000000, total / 1000 % 1000, total % 1000⟩

/-- Hour 24 is midnight only. -/
inductive TimeText : Text → Time → Prop
  | mk {w : Text} {hour minute second total : Nat} : Clock w hour minute second total →
      minute ≤ 59 → second ≤ 60 →
      hour < 24 ∨ hour = 24 ∧ minute = 0 ∧ clamp second = 0 ∧ total = 0 →
      TimeText w (timeOf hour minute second total)

inductive Offset : Text → Prop
  | mk {c : UInt16} {w : Text} {hour minute second total : Nat} : IsSign c →
      Clock w hour minute second total → hour ≤ 23 → minute ≤ 59 → second ≤ 59 → Offset (c :: w)

/-- An hour with a separator and nothing after it. -/
inductive Dangling : Text → Prop
  | mk {c : UInt16} {h : Text} : IsSign c → Digits 2 h → numberOf h ≤ 23 →
      Dangling (c :: (h ++ [Cu.colon]))

inductive Designator (lax : Bool) : Text → ParsedTz → Prop
  | absent : Designator lax [] ⟨false, [], []⟩
  | zulu {c : UInt16} : c = Cu.z ∨ c = Cu.zLower → Designator lax [c] ⟨true, [], []⟩
  | offset {w : Text} : Offset w → Designator lax w ⟨false, w, []⟩
  | dangling {w : Text} : lax = true → Dangling w → Designator lax w ⟨false, w, []⟩

/-- Four digits, or a sign and six that are not minus zero. -/
inductive YearText : Text → Int → Prop
  | four {w : Text} : Digits 4 w → YearText w (numberOf w)
  | plus {w : Text} : Digits 6 w → YearText (Cu.plus :: w) (numberOf w)
  | minus {w : Text} : Digits 6 w → numberOf w ≠ 0 → YearText (Cu.minus :: w) (-(numberOf w : Int))

inductive DateText : Text → Int → Nat → Nat → Prop
  | mk {y m d : Text} {year : Int} (separated : Bool) : YearText y year → Digits 2 m → Digits 2 d →
      isValidIsoDate year (numberOf m) (numberOf d) = true →
      DateText (y ++ (sep Cu.minus separated ++ (m ++ (sep Cu.minus separated ++ d))))
        year (numberOf m) (numberOf d)

/-- The formats that start with a year. -/
def Format.Dated (format : Format) : Prop := format ≠ .timeString ∧ format ≠ .monthDayString

/-- What stands before the designator, and whether a hyphen may follow. -/
inductive FieldsText (lax : Bool) : Format → Text → Fields → Bool → Prop
  | time {mark w : Text} {time : Time} : mark = [] ∨ mark = [Cu.t] ∨ mark = [Cu.tLower] →
      TimeText w time → FieldsText lax .timeString (mark ++ w) ⟨1972, 1, 1, some time, false⟩ true
  | monthDay {m d : Text} (hyphens : Nat) (separated : Bool) :
      hyphens = 0 ∨ hyphens = 2 ∨ lax = true ∧ hyphens = 1 → Digits 2 m → Digits 2 d →
      isValidMonthDay (numberOf m) (numberOf d) = true →
      FieldsText lax .monthDayString
        (List.replicate hyphens Cu.minus ++ (m ++ (sep Cu.minus separated ++ d)))
        ⟨1972, numberOf m, numberOf d, none, false⟩ true
  | yearMonth {y m : Text} {year : Int} (separated : Bool) : YearText y year → Digits 2 m →
      FieldsText lax .yearMonthString (y ++ (sep Cu.minus separated ++ m))
        ⟨year, numberOf m, 1, none, true⟩ (!separated)
  | date {format : Format} {w : Text} {year : Int} {month day : Nat} : format.Dated →
      DateText w year month day → FieldsText lax format w ⟨year, month, day, none, false⟩ true
  | dateTime {format : Format} {w u : Text} {c : UInt16} {year : Int} {month day : Nat}
      {time : Time} : format.Dated → DateText w year month day → isTimeMark c = true →
      TimeText u time →
      FieldsText lax format (w ++ c :: u) ⟨year, month, day, some time, false⟩ true

/-- The month of a year-month is checked after it is read. -/
def MonthOk (format : Format) (fields : Fields) : Prop :=
  format = .yearMonthString → 1 ≤ fields.month ∧ fields.month ≤ 12

/-- A minute-precision offset or a name. -/
inductive ZoneName : Text → Prop
  | named {c : UInt16} {w : Text} : isNameStart c = true → w.all isNameUnit = true →
      ZoneName (c :: w)
  | hour {c : UInt16} {h : Text} : IsSign c → Digits 2 h → numberOf h ≤ 23 → ZoneName (c :: h)
  | minute {c : UInt16} {h m : Text} (separated : Bool) : IsSign c → Digits 2 h → Digits 2 m →
      numberOf h ≤ 23 → numberOf m ≤ 59 → ZoneName (c :: (h ++ (sep Cu.colon separated ++ m)))

def KeyText (w : Text) : Prop := w ≠ [] ∧ w.all isKeyUnit = true

/-- Characters up to a closing bracket. -/
def ValueUnits (w : Text) : Prop := ∀ c ∈ w, c ≠ Cu.rBracket ∧ isSurrogate c = false

/-- What a key and its value add to the fields. Where there is more than one
calendar none is critical, and the first counts; no other key is critical. -/
inductive Keyed (s : Annotated) (critical : Bool) (value : Text) : Text → Annotated → Prop
  | calendar : (s.calendarCount = 0 ∨ s.calendarCritical = false ∧ critical = false) →
      s.calendarCount + 1 ≠ 2 ^ 32 →
      Keyed s critical value uca { s with
        calendar := s.calendar.or (some value)
        calendarCount := s.calendarCount + 1
        calendarCritical := s.calendarCritical || critical }
  | other {key : Text} : key ≠ uca → critical = false → Keyed s critical value key s

/-- Annotations, and the fields after them: one zone at most, and keys. -/
inductive Annotations : Annotated → Text → Annotated → Prop
  | nil {s : Annotated} : Annotations s [] s
  | zone {s t : Annotated} {name w : Text} (critical : Bool) : s.zone = [] → ZoneName name →
      Annotations { s with zone := name } w t →
      Annotations s (Cu.lBracket :: (sep Cu.bang critical ++ (name ++ Cu.rBracket :: w))) t
  | keyed {s s' t : Annotated} {key value w : Text} (critical : Bool) : KeyText key → value ≠ [] →
      ValueUnits value → Keyed s critical value key s' → Annotations s' w t →
      Annotations s (Cu.lBracket :: (sep Cu.bang critical ++
        (key ++ Cu.eq :: (value ++ Cu.rBracket :: w)))) t

def noAnnotations : Annotated := ⟨[], none, 0, false⟩

/-- What the parts must agree on. -/
structure Agreed (format : Format) (fields : Fields) (tz : ParsedTz) (s : Annotated) : Prop where
  calendar : format = .yearMonthString ∧ fields.dayOmitted = true ∨ format = .monthDayString →
    ∀ c ∈ s.calendar, eqIgnoreAsciiCase c iso8601 = true
  timed : fields.time = none → tz.z = false ∧ tz.offsetString = []
  instant : format = .instantString → fields.time ≠ none ∧ (tz.z = true ∨ tz.offsetString ≠ [])
  zoned : format = .dateTimeZoned → s.zone ≠ []
  plain : format = .dateTimePlain → tz.z = false
  time : format = .timeString → tz.z = false

/-- The strings of a format, with what each reads as. -/
inductive Reads (lax : Bool) (format : Format) : Text → ParsedDateTime → Prop
  | mk {w d u : Text} {fields : Fields} {hyphen : Bool} {tz : ParsedTz} {s : Annotated} :
      FieldsText lax format w fields hyphen → MonthOk format fields → Designator lax d tz →
      Annotations noAnnotations u s → Agreed format fields tz s →
      Reads lax format (w ++ (d ++ u))
        ⟨fields.year, fields.month, fields.day, fields.time, { tz with annotation := s.zone },
          s.calendar⟩

/-! Where the parser panics. -/

/-- A digit run whose value is beyond an `i64`. -/
inductive Huge : Text → Prop
  | mk {c : UInt16} {ds r : Text} : IsMark c → (∀ c ∈ ds, isDigit c = true) →
      maxI64 < numberOf ds → Huge (c :: (ds ++ r))

/-- A clock with seconds and such a fraction. -/
inductive Overlong (maxHour maxSecond : Nat) : Text → Prop
  | mk {h m s f : Text} (separated : Bool) : Digits 2 h → Digits 2 m → Digits 2 s →
      numberOf h ≤ maxHour → numberOf m ≤ 59 → numberOf s ≤ maxSecond → Huge f →
      Overlong maxHour maxSecond
        (h ++ (sep Cu.colon separated ++ (m ++ (sep Cu.colon separated ++ (s ++ f)))))

inductive OverlongTime : Format → Text → Prop
  | time {mark w : Text} : mark = [] ∨ mark = [Cu.t] ∨ mark = [Cu.tLower] → Overlong 99 60 w →
      OverlongTime .timeString (mark ++ w)
  | dateTime {format : Format} {w u : Text} {c : UInt16} {year : Int} {month day : Nat} :
      format.Dated → DateText w year month day → isTimeMark c = true → Overlong 99 60 u →
      OverlongTime format (w ++ c :: u)

/-- An annotation, after its bracket, with a surrogate among its characters, or
with one calendar too many for a `u32`. -/
inductive BadAnnotation (s : Annotated) : Text → Prop
  | content {c : UInt16} {w r : Text} (critical : Bool) :
      (∀ c ∈ w, c ≠ Cu.rBracket ∧ c ≠ Cu.eq ∧ isSurrogate c = false) → isSurrogate c = true →
      BadAnnotation s (sep Cu.bang critical ++ (w ++ c :: r))
  | value {c : UInt16} {key w r : Text} (critical : Bool) : KeyText key → ValueUnits w →
      isSurrogate c = true → BadAnnotation s (sep Cu.bang critical ++ (key ++ Cu.eq :: (w ++ c :: r)))
  | count {value r : Text} (critical : Bool) : s.calendarCount + 1 = 2 ^ 32 → value ≠ [] →
      ValueUnits value → nextIs (fun c => c ≠ Cu.rBracket) r = false →
      BadAnnotation s (sep Cu.bang critical ++ (uca ++ Cu.eq :: (value ++ r)))

/-- The parser comes to one of these after parts it accepts. -/
inductive Stuck (format : Format) : Text → Prop
  | time {w : Text} : OverlongTime format w → Stuck format w
  | offset {c : UInt16} {w u : Text} {fields : Fields} {hyphen : Bool} :
      FieldsText true format w fields hyphen → MonthOk format fields → IsSign c →
      (hyphen = false → c ≠ Cu.minus) → Overlong 23 59 u → Stuck format (w ++ c :: u)
  | bracket {w d u r : Text} {fields : Fields} {hyphen : Bool} {tz : ParsedTz} {s : Annotated} :
      FieldsText true format w fields hyphen → MonthOk format fields → Designator true d tz →
      (hyphen = false → nextIs (fun c => c = Cu.minus) d = false) →
      Annotations noAnnotations u s → BadAnnotation s r →
      Stuck format (w ++ (d ++ (u ++ Cu.lBracket :: r)))

/-! The slips. -/

/-- A month and day after one hyphen. -/
def OneHyphen (format : Format) (text : Text) : Prop :=
  format = .monthDayString ∧ ∃ c r, text = Cu.minus :: c :: r ∧ c ≠ Cu.minus

/-- What stands before the annotations ends in a colon. -/
def TrailingColon (text : Text) : Prop :=
  (text.takeWhile fun c => c ≠ Cu.lBracket).getLast? = some Cu.colon

def Time.InRange (t : Time) : Prop :=
  (t.hour < 24 ∨ t.hour = 24 ∧ t.minute = 0 ∧ t.second = 0 ∧ t.ms = 0 ∧ t.us = 0 ∧ t.ns = 0) ∧
    t.minute < 60 ∧ t.second < 60 ∧ t.ms < 1000 ∧ t.us < 1000 ∧ t.ns < 1000

structure ParsedDateTime.Valid (d : ParsedDateTime) : Prop where
  date : isValidIsoDate d.year d.month d.day = true
  time : ∀ t ∈ d.time, t.InRange

end Slag.Temporal
