import Mathlib.Algebra.GroupWithZero.Nat
import Mathlib.Data.List.Basic

/-!
The ISO 8601 / RFC 9557 string parser of `temporal/iso.rs`. A cursor is what is
left of the text. A string that is built from code units keeps their list: each
was a scalar value, or the conversion would have panicked.
-/

namespace Slag.Temporal

abbrev Text := List UInt16

/-- `Err(ParseError::Invalid)`, or a panic: a failed `unwrap`, an overflow. -/
inductive Failure where
  | invalid | panic
deriving DecidableEq, Repr

inductive Format where
  | instantString | dateTimeZoned | dateTimePlain | yearMonthString | monthDayString | timeString
deriving DecidableEq, Repr

structure ParsedTz where
  z : Bool
  offsetString : Text
  annotation : Text
deriving DecidableEq, Repr

/-- Hour, minute, second, millisecond, microsecond and nanosecond. -/
structure Time where
  hour : Nat
  minute : Nat
  second : Nat
  ms : Nat
  us : Nat
  ns : Nat
deriving DecidableEq, Repr

structure ParsedDateTime where
  year : Int
  month : Nat
  day : Nat
  time : Option Time
  tz : ParsedTz
  calendar : Option Text
deriving DecidableEq, Repr

namespace Cu

def t : UInt16 := 0x54
def tLower : UInt16 := 0x74
def z : UInt16 := 0x5A
def zLower : UInt16 := 0x7A
def plus : UInt16 := 0x2B
def minus : UInt16 := 0x2D
def dot : UInt16 := 0x2E
def comma : UInt16 := 0x2C
def lBracket : UInt16 := 0x5B
def rBracket : UInt16 := 0x5D
def eq : UInt16 := 0x3D
def bang : UInt16 := 0x21
def colon : UInt16 := 0x3A
def space : UInt16 := 0x20
def slash : UInt16 := 0x2F
def underscore : UInt16 := 0x5F

end Cu

def isDigit (c : UInt16) : Bool := 0x30 ≤ c && c ≤ 0x39

def isLower (c : UInt16) : Bool := 0x61 ≤ c && c ≤ 0x7A

def isUpper (c : UInt16) : Bool := 0x41 ≤ c && c ≤ 0x5A

/-- `char::from_u32` is `None`. -/
def isSurrogate (c : UInt16) : Bool := 0xD800 ≤ c && c ≤ 0xDFFF

def digitValue (c : UInt16) : Nat := c.toNat - 0x30

def isLeapYear (year : Int) : Bool := year % 4 = 0 && (year % 100 ≠ 0 || year % 400 = 0)

def daysInMonth (year : Int) (month : Nat) : Nat :=
  if month = 2 ∧ isLeapYear year then 29
  else [31, 28, 31, 30, 31, 30, 31, 31, 30, 31, 30, 31].getD (month - 1) 0

def isValidIsoDate (year : Int) (month day : Nat) : Bool :=
  (1 ≤ month && month ≤ 12) && (1 ≤ day && day ≤ daysInMonth year month)

def isValidMonthDay (month day : Nat) : Bool :=
  (1 ≤ month && month ≤ 12) &&
    match month, day with
    | 2, 30 => false
    | 2, 31 | 4, 31 | 6, 31 | 9, 31 | 11, 31 => false
    | _, day => 1 ≤ day && day ≤ 31

/-! The cursor. -/

def nextIs (p : UInt16 → Bool) : Text → Bool
  | c :: _ => p c
  | [] => false

def eat (c : UInt16) : Text → Bool × Text
  | d :: l => if d = c then (true, l) else (false, d :: l)
  | [] => (false, [])

def expect (c : UInt16) (l : Text) : Except Failure Text :=
  match eat c l with
  | (true, l) => .ok l
  | (false, _) => .error .invalid

def digitsFrom (value : Nat) : Nat → Text → Except Failure (Nat × Text)
  | 0, l => .ok (value, l)
  | _ + 1, [] => .error .invalid
  | count + 1, c :: l =>
      if isDigit c then digitsFrom (value * 10 + digitValue c) count l else .error .invalid

def digits (count : Nat) (l : Text) : Except Failure (Nat × Text) := digitsFrom 0 count l

def maxI64 : Nat := 2 ^ 63 - 1

/-- The digit run of a fraction: its value and length. The value is an `i64`. -/
def digitRun (value count : Nat) : Text → Except Failure ((Nat × Nat) × Text)
  | [] => .ok ((value, count), [])
  | c :: l =>
      if isDigit c then
        if maxI64 < value * 10 + digitValue c then .error .panic
        else digitRun (value * 10 + digitValue c) (count + 1) l
      else .ok ((value, count), c :: l)

def parseFraction (l : Text) : Except Failure ((Nat × Nat) × Text) :=
  match l with
  | c :: l =>
      if c = Cu.dot ∨ c = Cu.comma then do
        let ((value, count), l) ← digitRun 0 0 l
        if count = 0 ∨ 9 < count then .error .invalid else .ok ((value, count), l)
      else .error .invalid
  | [] => .error .invalid

/-! Times. -/

/-- The minute and second of a time, if they are there, and whether the second is. -/
def parseMinuteSecond (separated : Bool) (l : Text) : Except Failure ((Nat × Nat × Bool) × Text) :=
  if separated then do
    let (minute, l) ← digits 2 l
    let (more, l) := eat Cu.colon l
    if more then do
      let (second, l) ← digits 2 l
      .ok ((minute, second, true), l)
    else .ok ((minute, 0, false), l)
  else if nextIs isDigit l then do
    let (minute, l) ← digits 2 l
    if nextIs isDigit l then do
      let (second, l) ← digits 2 l
      .ok ((minute, second, true), l)
    else .ok ((minute, 0, false), l)
  else .ok ((0, 0, false), l)

/-- The fraction of a time in nanoseconds; it stands after seconds only. -/
def parseSubsecond (secondPresent : Bool) (l : Text) : Except Failure (Nat × Text) :=
  if nextIs (fun c => c = Cu.dot || c = Cu.comma) l then
    if secondPresent then do
      let ((value, count), l) ← parseFraction l
      .ok (value * 10 ^ (9 - count), l)
    else .error .invalid
  else .ok (0, l)

/-- A leap second is the second before it. -/
def clamp (second : Nat) : Nat := if second = 60 then 59 else second

def parseTime (l : Text) : Except Failure (Time × Text) := do
  let (hour, l) ← digits 2 l
  let (separated, l) := eat Cu.colon l
  let ((minute, second, secondPresent), l) ← parseMinuteSecond separated l
  if 59 < minute then .error .invalid
  else if 60 < second then .error .invalid
  else do
    let second := clamp second
    let (total, l) ← parseSubsecond secondPresent l
    let ms := total / 1000000
    let us := total / 1000 % 1000
    let ns := total % 1000
    if hour = 24 ∧ (minute ≠ 0 ∨ second ≠ 0 ∨ ms ≠ 0 ∨ us ≠ 0 ∨ ns ≠ 0) then .error .invalid
    else if 24 < hour then .error .invalid
    else .ok (⟨hour, minute, second, ms, us, ns⟩, l)

/-! Offsets. -/

/-- Neither the end nor an annotation is next. -/
def continues : Text → Bool
  | c :: _ => c ≠ Cu.lBracket
  | [] => false

/-- The separator before the seconds. -/
def expectSep (separated : Bool) (l : Text) : Except Failure Text :=
  if separated then expect Cu.colon l else .ok l

/-- The offset from its hour on. -/
def parseOffset (l : Text) : Except Failure (Unit × Text) := do
  let (hour, l) ← digits 2 l
  if 23 < hour then .error .invalid
  else
    let (separated, l) := eat Cu.colon l
    if continues l then do
      let (minute, l) ← digits 2 l
      if 59 < minute then .error .invalid
      else if continues l then do
        let l ← expectSep separated l
        let (second, l) ← digits 2 l
        if 59 < second then .error .invalid
        else if continues l then do
          let (_, l) ← parseFraction l
          .ok ((), l)
        else .ok ((), l)
      else .ok ((), l)
    else .ok ((), l)

/-- `char::from_u32(c).unwrap()` for each unit. -/
def toChars (l : Text) : Except Failure Text :=
  if l.any isSurrogate then .error .panic else .ok l

def parseDesignator (l : Text) : Except Failure (ParsedTz × Text) :=
  match l with
  | c :: r =>
      if c = Cu.z ∨ c = Cu.zLower then .ok (⟨true, [], []⟩, r)
      else if c = Cu.plus ∨ c = Cu.minus then do
        let ((), r) ← parseOffset r
        let offset ← toChars (l.take (l.length - r.length))
        .ok (⟨false, offset, []⟩, r)
      else .ok (⟨false, [], []⟩, l)
  | [] => .ok (⟨false, [], []⟩, [])

/-! Annotations. -/

def isNameStart (c : UInt16) : Bool :=
  isLower c || isUpper c || c = Cu.dot || c = Cu.underscore

def isNameUnit (c : UInt16) : Bool :=
  isNameStart c || isDigit c || c = Cu.minus || c = Cu.plus || c = Cu.slash

/-- `Ok(None)` for a name, the offset in nanoseconds otherwise. -/
def parseTimeZoneIdentifier (l : Text) : Except Failure (Option Int) :=
  match l with
  | [] => .error .invalid
  | c :: r =>
      if c = Cu.plus ∨ c = Cu.minus then do
        let sign : Int := if c = Cu.minus then -1 else 1
        let (hour, r) ← digits 2 r
        if 23 < hour then .error .invalid
        else do
          let (minute, r) ← if r = [] then .ok (0, r) else digits 2 (eat Cu.colon r).2
          if 59 < minute then .error .invalid
          else if r ≠ [] then .error .invalid
          else .ok (some (sign * ((hour * 60 + minute : Nat) : Int) * 60000000000))
      else if isNameStart c ∧ r.all isNameUnit then .ok none
      else .error .invalid

/-- Collect characters up to a unit that stops. -/
def collect (stop : UInt16 → Bool) : Text → Except Failure (Text × Text)
  | [] => .ok ([], [])
  | c :: l =>
      if stop c then .ok ([], c :: l)
      else if isSurrogate c then .error .panic
      else do
        let (text, l) ← collect stop l
        .ok (c :: text, l)

/-- The fields the annotation loop writes. -/
structure Annotated where
  zone : Text
  calendar : Option Text
  calendarCount : Nat
  calendarCritical : Bool
deriving DecidableEq, Repr

def isKeyUnit (c : UInt16) : Bool :=
  isLower c || isDigit c || c = Cu.underscore || c = Cu.minus

def uca : Text := [0x75, 0x2D, 0x63, 0x61]

/-- What a key and its value do to the fields; `calendar_count` is a `u32`. -/
def annotate (s : Annotated) (critical : Bool) (key value : Text) : Except Failure Annotated :=
  if key = uca then
    if s.calendarCount + 1 = 2 ^ 32 then .error .panic
    else
      let s := { s with
        calendarCount := s.calendarCount + 1
        calendarCritical := s.calendarCritical || critical }
      if 1 < s.calendarCount ∧ s.calendarCritical then .error .invalid
      else .ok { s with calendar := s.calendar.or (some value) }
  else if critical then .error .invalid
  else .ok s

/-- What stands between the `=` of an annotation and its closing bracket. -/
def parseKeyed (s : Annotated) (critical : Bool) (key : Text) (l : Text) :
    Except Failure (Annotated × Text) :=
  if key.all isKeyUnit then do
    let (value, l) ← collect (fun c => c = Cu.rBracket) l
    if value = [] then .error .invalid
    else do
      let s ← annotate s critical key value
      .ok (s, l)
  else .error .invalid

/-- A time-zone annotation; at most one. -/
def annotateZone (s : Annotated) (content : Text) : Except Failure Annotated :=
  if s.zone ≠ [] then .error .invalid
  else do
    let _ ← parseTimeZoneIdentifier content
    .ok { s with zone := content }

/-- The content is a key if an `=` follows it, and a time zone otherwise. -/
def parseContent (s : Annotated) (critical : Bool) (content : Text) (l : Text) :
    Except Failure (Annotated × Text) :=
  match eat Cu.eq l with
  | (true, l) => parseKeyed s critical content l
  | (false, l) => do
      let s ← annotateZone s content
      .ok (s, l)

/-- One annotation, after its opening bracket. -/
def parseAnnotation (s : Annotated) (l : Text) : Except Failure (Annotated × Text) := do
  let (critical, l) := eat Cu.bang l
  let (content, l) ← collect (fun c => c = Cu.rBracket || c = Cu.eq) l
  if content = [] then .error .invalid
  else do
    let (s, l) ← parseContent s critical content l
    let l ← expect Cu.rBracket l
    .ok (s, l)

/-- The loop; each round takes a bracket, so the length of the text is enough fuel. -/
def parseAnnotations : Nat → Annotated → Text → Except Failure (Annotated × Text)
  | 0, s, l => .ok (s, l)
  | fuel + 1, s, l =>
      match eat Cu.lBracket l with
      | (true, l) => do
          let (s, l) ← parseAnnotation s l
          parseAnnotations fuel s l
      | (false, l) => .ok (s, l)

/-! The whole. -/

def toLower (c : UInt16) : UInt16 := if isUpper c then c + 0x20 else c

/-- `"iso8601"` -/
def iso8601 : Text := [0x69, 0x73, 0x6F, 0x38, 0x36, 0x30, 0x31]

def eqIgnoreAsciiCase (l m : Text) : Bool := l.map toLower = m.map toLower

/-- What is read before the designator. -/
structure Fields where
  year : Int
  month : Nat
  day : Nat
  time : Option Time
  dayOmitted : Bool
deriving DecidableEq, Repr

def finishParse (format : Format) (fields : Fields) (l : Text) : Except Failure ParsedDateTime :=
  if format = .yearMonthString ∧ ¬(1 ≤ fields.month ∧ fields.month ≤ 12) then .error .invalid
  else do
    let (tz, l) ← parseDesignator l
    let (s, l) ← parseAnnotations l.length ⟨[], none, 0, false⟩ l
    let tz := { tz with annotation := s.zone }
    if l ≠ [] then .error .invalid
    else if (format = .yearMonthString ∧ fields.dayOmitted ∨ format = .monthDayString) ∧
        s.calendar.any (fun c => !eqIgnoreAsciiCase c iso8601) then .error .invalid
    else if fields.time = none ∧ (tz.z ∨ tz.offsetString ≠ []) then .error .invalid
    else if format = .instantString ∧ (fields.time = none ∨ (¬tz.z ∧ tz.offsetString = [])) then
      .error .invalid
    else if format = .dateTimeZoned ∧ tz.annotation = [] then .error .invalid
    else if format = .dateTimePlain ∧ tz.z then .error .invalid
    else if format = .timeString ∧ tz.z then .error .invalid
    else .ok ⟨fields.year, fields.month, fields.day, fields.time, tz, s.calendar⟩

def parseDateYear (l : Text) : Except Failure (Int × Text) :=
  match l with
  | c :: r =>
      if c = Cu.plus ∨ c = Cu.minus then do
        let (year, r) ← digits 6 r
        if c = Cu.minus then
          if year = 0 then .error .invalid else .ok (-(year : Int), r)
        else .ok ((year : Int), r)
      else if isDigit c then do
        let (year, r) ← digits 4 l
        .ok ((year : Int), r)
      else .error .invalid
  | [] => .error .invalid

/-- The month, and the day unless a year-month leaves it out. -/
def parseMonthDay (format : Format) (l : Text) : Except Failure ((Nat × Option Nat) × Text) :=
  match eat Cu.minus l with
  | (true, l) => do
      let (month, l) ← digits 2 l
      if format = .yearMonthString ∧ ¬nextIs (fun c => c = Cu.minus) l then .ok ((month, none), l)
      else do
        let l ← expect Cu.minus l
        let (day, l) ← digits 2 l
        .ok ((month, some day), l)
  | (false, l) =>
      if nextIs isDigit l then do
        let (month, l) ← digits 2 l
        if nextIs isDigit l then do
          let (day, l) ← digits 2 l
          .ok ((month, some day), l)
        else if format ≠ .yearMonthString then .error .invalid
        else .ok ((month, none), l)
      else .error .invalid

def isTimeMark (c : UInt16) : Bool := c = Cu.t || c = Cu.tLower || c = Cu.space

/-- `parse_iso_date_time` up to its `finish_parse`. -/
def parseFields (format : Format) (l : Text) : Except Failure (Fields × Text) :=
  if format = .timeString then do
    let l := if nextIs (fun c => c = Cu.t || c = Cu.tLower) l then l.tail else l
    let (time, l) ← parseTime l
    .ok (⟨1972, 1, 1, some time, false⟩, l)
  else if format = .monthDayString then do
    let (month, l) ← digits 2 (eat Cu.minus (eat Cu.minus l).2).2
    let (day, l) ← digits 2 (eat Cu.minus l).2
    if isValidMonthDay month day then .ok (⟨1972, month, day, none, false⟩, l) else .error .invalid
  else do
    let (year, l) ← parseDateYear l
    let ((month, day), l) ← parseMonthDay format l
    match day with
    | none => .ok (⟨year, month, 1, none, true⟩, l)
    | some day =>
        if isValidIsoDate year month day then
          if nextIs isTimeMark l then do
            let (time, l) ← parseTime l.tail
            .ok (⟨year, month, day, some time, false⟩, l)
          else .ok (⟨year, month, day, none, false⟩, l)
        else .error .invalid

def parseIsoDateTime (text : Text) (format : Format) : Except Failure ParsedDateTime := do
  let (fields, l) ← parseFields format text
  finishParse format fields l

end Slag.Temporal
