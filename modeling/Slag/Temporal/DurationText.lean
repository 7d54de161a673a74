import Mathlib.Logic.Function.Basic
import Slag.Temporal.IsoExact

/-!
Duration strings. The parser keeps the last designator it read, so that they come in
order; the grammar says the same of the texts.
-/

namespace Slag.Temporal

/-- Years, months, weeks, days, hours, minutes, seconds, and the three parts of a second. -/
abbrev DurationFields := Fin 10 → Int

instance neZero_units : NeZero 10 := ⟨by decide⟩

namespace Cu

def p : UInt16 := 0x50
def pLower : UInt16 := 0x70

end Cu

/-! The parser. -/

def numberFrom (value : Nat) : Text → Except Failure (Nat × Text)
  | [] => .ok (value, [])
  | c :: l =>
      if isDigit c then
        if maxI64 < value * 10 + digitValue c then .error .invalid
        else numberFrom (value * 10 + digitValue c) l
      else .ok (value, c :: l)

def number (l : Text) : Except Failure (Nat × Text) :=
  if nextIs isDigit l then numberFrom 0 l else .error .invalid

def dateUnit (c : UInt16) : Option (Fin 10) :=
  if c = 0x59 ∨ c = 0x79 then some 0
  else if c = 0x4D ∨ c = 0x6D then some 1
  else if c = 0x57 ∨ c = 0x77 then some 2
  else if c = 0x44 ∨ c = 0x64 then some 3
  else none

def timeUnit (c : UInt16) : Option (Fin 10) :=
  if c = 0x48 ∨ c = 0x68 then some 4
  else if c = 0x4D ∨ c = 0x6D then some 5
  else if c = 0x53 ∨ c = 0x73 then some 6
  else none

/-- The designator of a number, which comes after the last one. -/
def designator (unit : UInt16 → Option (Fin 10)) (last : Int) :
    Text → Except Failure (Fin 10 × Text)
  | [] => .error .invalid
  | c :: l =>
      match unit c with
      | none => .error .invalid
      | some idx => if (idx : Int) ≤ last then .error .invalid else .ok (idx, l)

def isMark (c : UInt16) : Bool := c = Cu.dot || c = Cu.comma

/-- The loop over the date part; each round takes a digit. -/
def dateLoop : Nat → Int → Bool → DurationFields → Text →
    Except Failure ((Bool × DurationFields) × Text)
  | 0, _, any, fields, l => .ok ((any, fields), l)
  | fuel + 1, last, any, fields, l =>
      if nextIs isDigit l then do
        let (value, l) ← number l
        let (idx, l) ← designator dateUnit last l
        if nextIs isMark l then .error .invalid
        else dateLoop fuel idx true (Function.update fields idx value) l
      else .ok ((any, fields), l)

/-- `frac` over `10 ^ scale` of a unit, cascaded into the units below it. -/
def cascade (idx : Fin 10) (frac scale : Nat) (fields : DurationFields) : DurationFields :=
  let unitNs := if idx = 4 then 3_600_000_000_000 else if idx = 5 then 60_000_000_000 else 1_000_000_000
  let rest := frac * unitNs / 10 ^ scale
  let minutes := if idx = 4 then rest / 60_000_000_000 else 0
  let rest := if idx = 4 then rest % 60_000_000_000 else rest
  let seconds := if idx ≤ 5 then rest / 1_000_000_000 else 0
  let rest := if idx ≤ 5 then rest % 1_000_000_000 else rest
  fun k =>
    if k = 5 then fields 5 + minutes
    else if k = 6 then fields 6 + seconds
    else if k = 7 then fields 7 + (rest / 1_000_000 : Nat)
    else if k = 8 then fields 8 + (rest % 1_000_000 / 1_000 : Nat)
    else if k = 9 then fields 9 + (rest % 1_000_000 % 1_000 : Nat)
    else fields k

/-- The fraction of a number, if there is one; no digits otherwise. -/
def optionalFraction (l : Text) : Except Failure ((Nat × Nat) × Text) :=
  if nextIs isMark l then parseFraction l else .ok ((0, 0), l)

def timeLoop : Nat → Int → Bool → Bool → DurationFields → Text →
    Except Failure ((Bool × DurationFields) × Text)
  | 0, _, _, any, fields, l => .ok ((any, fields), l)
  | fuel + 1, last, fractionSeen, any, fields, l =>
      if nextIs isDigit l then
        if fractionSeen then .error .invalid
        else do
          let (value, l) ← number l
          let ((frac, scale), l) ← optionalFraction l
          let (idx, l) ← designator timeUnit last l
          let fields := Function.update fields idx value
          let fields := if 0 < scale then cascade idx frac scale fields else fields
          timeLoop fuel idx (0 < scale) true fields l
      else .ok ((any, fields), l)

/-- One of two units, if it is next. -/
def eatEither (c d : UInt16) (l : Text) : Bool × Text :=
  match eat c l with
  | (true, l) => (true, l)
  | (false, l) => eat d l

def timePart (any : Bool) (fields : DurationFields) (l : Text) :
    Except Failure ((Bool × DurationFields) × Text) :=
  match eatEither Cu.t Cu.tLower l with
  | (true, l) => timeLoop l.length (-1) false any fields l
  | (false, l) => .ok ((any, fields), l)

def eatSign (text : Text) : Int × Text :=
  match eat Cu.minus text with
  | (true, l) => (-1, l)
  | (false, l) => (1, (eat Cu.plus l).2)

def parseDurationString (text : Text) : Except Failure DurationFields := do
  let (sign, l) := eatSign text
  match eatEither Cu.p Cu.pLower l with
  | (false, _) => .error .invalid
  | (true, l) => do
      let ((any, fields), l) ← dateLoop l.length (-1) false (fun _ => 0) l
      let ((any, fields), l) ← timePart any fields l
      if any = false ∨ l ≠ [] then .error .invalid
      else .ok fun k => fields k * sign

/-! The grammar, for the numbers that fit. -/

section Grammar

variable (fits : Nat → Prop)

def NumberText (w : Text) : Prop := w ≠ [] ∧ (∀ c ∈ w, isDigit c = true) ∧ fits (numberOf w)

/-- Numbers with date designators in order, and the fields after them. -/
inductive DateRun : Int → DurationFields → Text → DurationFields → Prop
  | nil {last : Int} {fields : DurationFields} : DateRun last fields [] fields
  | cons {last : Int} {fields fields' : DurationFields} {ds w : Text} {c : UInt16} {idx : Fin 10} :
      NumberText fits ds → dateUnit c = some idx → last < idx →
      DateRun idx (Function.update fields idx (numberOf ds)) w fields' →
      DateRun last fields (ds ++ c :: w) fields'

/-- Numbers with time designators in order; the last may have a fraction. -/
inductive TimeRun : Int → DurationFields → Text → DurationFields → Prop
  | nil {last : Int} {fields : DurationFields} : TimeRun last fields [] fields
  | cons {last : Int} {fields fields' : DurationFields} {ds w : Text} {c : UInt16} {idx : Fin 10} :
      NumberText fits ds → timeUnit c = some idx → last < idx →
      TimeRun idx (Function.update fields idx (numberOf ds)) w fields' →
      TimeRun last fields (ds ++ c :: w) fields'
  | fraction {last : Int} {fields : DurationFields} {ds fs : Text} {c m : UInt16} {idx : Fin 10} :
      NumberText fits ds → IsMark m → 1 ≤ fs.length → fs.length ≤ 9 →
      (∀ c ∈ fs, isDigit c = true) → timeUnit c = some idx → last < idx →
      TimeRun last fields (ds ++ (m :: (fs ++ [c])))
        (cascade idx (numberOf fs) fs.length (Function.update fields idx (numberOf ds)))

/-- A time part has a number after its mark, or only the mark where `bare` allows it. -/
inductive TimePart (bare : Bool) (fields : DurationFields) : Text → DurationFields → Prop
  | absent : TimePart bare fields [] fields
  | timed {c : UInt16} {w : Text} {fields' : DurationFields} : c = Cu.t ∨ c = Cu.tLower →
      TimeRun fits (-1) fields w fields' → w ≠ [] ∨ bare = true →
      TimePart bare fields (c :: w) fields'

inductive SignText : Text → Int → Prop
  | none : SignText [] 1
  | plus : SignText [Cu.plus] 1
  | minus : SignText [Cu.minus] (-1)

inductive DurationText (bare : Bool) : Text → DurationFields → Prop
  | mk {s date time : Text} {c : UInt16} {sign : Int} {fields fields' : DurationFields} :
      SignText s sign → c = Cu.p ∨ c = Cu.pLower → DateRun fits (-1) (fun _ => 0) date fields →
      TimePart fits bare fields time fields' → date ≠ [] ∨ 1 < time.length →
      DurationText bare (s ++ c :: (date ++ time)) fun k => fields' k * sign

end Grammar

/-! Numbers and designators. -/

variable {l r w : Text}

theorem isMark_iff (c : UInt16) : isMark c = true ↔ IsMark c := by
  simp [isMark, IsMark]

theorem numberFrom_eq_ok {value v : Nat} (hv : value ≤ maxI64) :
    numberFrom value l = .ok (v, r) ↔ ∃ ds, l = ds ++ r ∧ (∀ c ∈ ds, isDigit c = true) ∧
      nextIs isDigit r = false ∧ v ≤ maxI64 ∧
      v = ds.foldl (fun value c => value * 10 + digitValue c) value := by
  induction l generalizing value with
  | nil =>
      simp only [numberFrom, Except.ok.injEq, Prod.mk.injEq]
      constructor
      · rintro ⟨rfl, rfl⟩
        exact ⟨[], rfl, List.forall_mem_nil _, rfl, hv, rfl⟩
      · rintro ⟨ds, hl, -, -, -, rfl⟩
        obtain ⟨rfl, rfl⟩ := List.append_eq_nil_iff.1 hl.symm
        exact ⟨rfl, rfl⟩
  | cons c l ih =>
      rw [numberFrom]
      by_cases hc : isDigit c = true
      · rw [if_pos hc]
        have hsplit : (∃ ds, c :: l = ds ++ r ∧ (∀ c ∈ ds, isDigit c = true) ∧
            nextIs isDigit r = false ∧ v ≤ maxI64 ∧
            v = ds.foldl (fun value c => value * 10 + digitValue c) value) ↔
            ∃ ds, l = ds ++ r ∧ (∀ c ∈ ds, isDigit c = true) ∧ nextIs isDigit r = false ∧
              v ≤ maxI64 ∧ v = ds.foldl (fun value c => value * 10 + digitValue c)
                (value * 10 + digitValue c) := by
          constructor
          · rintro ⟨ds, hl, hds, hr, hle, hv⟩
            cases ds with
            | nil =>
                obtain rfl : c :: l = r := hl
                rw [nextIs, hc] at hr
                cases hr
            | cons d ds =>
                obtain ⟨rfl, rfl⟩ := List.cons.inj hl
                exact ⟨ds, rfl, (List.forall_mem_cons.1 hds).2, hr, hle, hv⟩
          · rintro ⟨ds, rfl, hds, hr, hle, hv⟩
            exact ⟨c :: ds, rfl, List.forall_mem_cons.2 ⟨hc, hds⟩, hr, hle, hv⟩
        rw [hsplit]
        by_cases hmax : maxI64 < value * 10 + digitValue c
        · rw [if_pos hmax]
          refine ⟨by rintro ⟨⟩, ?_⟩
          rintro ⟨ds, -, -, -, hle, rfl⟩
          have := le_foldl_digits (value * 10 + digitValue c) ds
          omega
        · rw [if_neg hmax]
          exact ih (Nat.not_lt.1 hmax)
      · rw [if_neg hc]
        simp only [Except.ok.injEq, Prod.mk.injEq]
        constructor
        · rintro ⟨rfl, rfl⟩
          exact ⟨[], rfl, List.forall_mem_nil _, by simpa [nextIs] using hc, hv, rfl⟩
        · rintro ⟨ds, hl, hds, -, -, rfl⟩
          cases ds with
          | nil => exact ⟨rfl, hl⟩
          | cons d ds =>
              obtain ⟨rfl, rfl⟩ := List.cons.inj hl
              exact absurd (hds c List.mem_cons_self) hc

theorem number_eq_ok {v : Nat} : number l = .ok (v, r) ↔
    ∃ ds, l = ds ++ r ∧ NumberText (fun n => n ≤ maxI64) ds ∧ nextIs isDigit r = false ∧
      v = numberOf ds := by
  unfold number
  by_cases hnext : nextIs isDigit l = true
  · rw [if_pos hnext, numberFrom_eq_ok (Nat.zero_le _)]
    constructor
    · rintro ⟨ds, rfl, hds, hr, hle, rfl⟩
      refine ⟨ds, rfl, ⟨?_, hds, hle⟩, hr, rfl⟩
      rintro rfl
      rw [List.nil_append, hr] at hnext
      cases hnext
    · rintro ⟨ds, rfl, ⟨-, hds, hle⟩, hr, rfl⟩
      exact ⟨ds, rfl, hds, hr, hle, rfl⟩
  · rw [if_neg hnext]
    refine ⟨nofun, ?_⟩
    rintro ⟨ds, rfl, ⟨hne, hds, -⟩, -, -⟩
    cases ds with
    | nil => exact absurd rfl hne
    | cons d ds => exact absurd (hds d List.mem_cons_self) hnext

variable {last : Int} {c : UInt16} {fields : DurationFields} {fuel : Nat} {fits : Nat → Prop}
  {text : Text}

theorem designator_eq_ok {unit : UInt16 → Option (Fin 10)} {idx : Fin 10} :
    designator unit last l = .ok (idx, r) ↔ ∃ c, l = c :: r ∧ unit c = some idx ∧ last < idx := by
  cases l with
  | nil => exact ⟨nofun, nofun⟩
  | cons c l =>
      simp only [designator]
      cases hunit : unit c with
      | none =>
          refine ⟨nofun, ?_⟩
          rintro ⟨d, hl, hd, -⟩
          obtain ⟨rfl, rfl⟩ := List.cons.inj hl
          rw [hunit] at hd
          cases hd
      | some i =>
          simp only
          split
          · rename_i hle
            refine ⟨nofun, ?_⟩
            rintro ⟨d, hl, hd, hlt⟩
            obtain ⟨rfl, rfl⟩ := List.cons.inj hl
            rw [hunit] at hd
            cases hd
            omega
          · rename_i hlt
            simp only [Except.ok.injEq, Prod.mk.injEq]
            constructor
            · rintro ⟨rfl, rfl⟩
              exact ⟨c, rfl, hunit, by omega⟩
            · rintro ⟨d, hl, hd, -⟩
              obtain ⟨rfl, rfl⟩ := List.cons.inj hl
              rw [hunit] at hd
              exact ⟨Option.some.inj hd, rfl⟩

theorem fraction_eq_ok {v n : Nat} (h : parseFraction l = .ok ((v, n), r)) :
    ∃ m fs, l = m :: (fs ++ r) ∧ IsMark m ∧ 1 ≤ fs.length ∧ fs.length ≤ 9 ∧
      (∀ c ∈ fs, isDigit c = true) ∧ v = numberOf fs ∧ n = fs.length := by
  cases l with
  | nil => cases h
  | cons m l =>
      simp only [parseFraction] at h
      split at h
      · rename_i hm
        rw [bind_eq_ok] at h
        obtain ⟨⟨⟨v, n⟩, l⟩, hrun, h⟩ := h
        obtain ⟨fs, hfs, rfl, rfl, rfl⟩ := digitRun_eq_ok hrun
        split at h
        · cases h
        · rename_i hcount
          cases h
          simp only [Nat.zero_add] at hcount ⊢
          exact ⟨m, fs, rfl, hm, by omega, by omega, hfs, rfl, rfl⟩
      · cases h

theorem fraction_append {m : UInt16} {fs : Text} (hm : IsMark m) (hpos : 1 ≤ fs.length)
    (hle : fs.length ≤ 9) (hfs : ∀ c ∈ fs, isDigit c = true) (hr : nextIs isDigit r = false) :
    parseFraction (m :: (fs ++ r)) = .ok ((numberOf fs, fs.length), r) := by
  have hmax : numberOf fs ≤ maxI64 := by
    have hlt := numberOf_lt hfs
    have hbound : 10 ^ fs.length ≤ 10 ^ 9 := Nat.pow_le_pow_right (by decide) hle
    have hnine : (10 : Nat) ^ 9 ≤ maxI64 := by decide
    omega
  rw [parseFraction, if_pos (show m = Cu.dot ∨ m = Cu.comma from hm)]
  refine bind_eq_ok.2 ⟨_, digitRun_append 0 hfs hr hmax, ?_⟩
  simp only [Nat.zero_add]
  exact if_neg (by omega)

theorem unit_not_digit {idx : Fin 10} (h : dateUnit c = some idx ∨ timeUnit c = some idx) :
    isDigit c = false ∧ isMark c = false := by
  have hletter : c = 0x59 ∨ c = 0x79 ∨ c = 0x4D ∨ c = 0x6D ∨ c = 0x57 ∨ c = 0x77 ∨ c = 0x44 ∨
      c = 0x64 ∨ c = 0x48 ∨ c = 0x68 ∨ c = 0x53 ∨ c = 0x73 := by
    by_contra hc
    simp only [not_or] at hc
    simp [dateUnit, timeUnit, hc] at h
  rcases hletter with rfl | rfl | rfl | rfl | rfl | rfl | rfl | rfl | rfl | rfl | rfl | rfl <;>
    decide

theorem not_mark_of_digit (h : isDigit c = true) : isMark c = false := by
  have hdot := isDigit_ne h (show isDigit Cu.dot = false by decide)
  have hcomma := isDigit_ne h (show isDigit Cu.comma = false by decide)
  simp [isMark, hdot, hcomma]

theorem not_digit_of_mark (h : IsMark c) : isDigit c = false := by
  rcases h with rfl | rfl <;> decide

/-! The loops. -/

theorem dateLoop_sound {any any' : Bool} {fields fields' : DurationFields} (hfuel : l.length ≤ fuel)
    (h : dateLoop fuel last any fields l = .ok ((any', fields'), r)) :
    ∃ w, l = w ++ r ∧ DateRun (fun n => n ≤ maxI64) last fields w fields' ∧
      (any' = true ↔ any = true ∨ w ≠ []) := by
  induction fuel generalizing last any fields l with
  | zero =>
      cases h
      exact ⟨[], rfl, .nil, by simp⟩
  | succ fuel ih =>
      rw [dateLoop] at h
      split at h
      · rw [bind_eq_ok] at h
        obtain ⟨⟨value, l₁⟩, hnumber, h⟩ := h
        rw [bind_eq_ok] at h
        obtain ⟨⟨idx, l₂⟩, hdesignator, h⟩ := h
        obtain ⟨ds, rfl, hds, -, rfl⟩ := number_eq_ok.1 hnumber
        obtain ⟨c, rfl, hunit, hlast⟩ := designator_eq_ok.1 hdesignator
        simp only at h
        split at h
        · cases h
        · have hshort : l₂.length ≤ fuel := by
            simp only [List.length_append, List.length_cons] at hfuel
            omega
          obtain ⟨w, rfl, hw, hany⟩ := ih hshort h
          refine ⟨ds ++ c :: w, by simp, .cons hds hunit hlast hw, ?_⟩
          rw [hany]
          simp
      · cases h
        exact ⟨[], rfl, .nil, by simp⟩

theorem NumberText.next {ds : Text} (h : NumberText fits ds) (r : Text) :
    nextIs isDigit (ds ++ r) = true ∧ nextIs isMark (ds ++ r) = false := by
  cases ds with
  | nil => exact absurd rfl h.1
  | cons c ds =>
      have hc := h.2.1 c List.mem_cons_self
      exact ⟨hc, not_mark_of_digit hc⟩

theorem DateRun.next_mark {fields fields' : DurationFields} (h : DateRun fits last fields w fields')
    (hr : nextIs isMark r = false) :
    nextIs isMark (w ++ r) = false := by
  cases h with
  | nil => exact hr
  | cons hds _ _ _ =>
      rw [List.append_assoc]
      exact (hds.next _).2

theorem DateRun.loop {fields fields' : DurationFields}
    (h : DateRun (fun n => n ≤ maxI64) last fields w fields') (hr : nextIs isDigit r = false)
    (hm : nextIs isMark r = false) (hfuel : (w ++ r).length ≤ fuel) (any : Bool) :
    dateLoop fuel last any fields (w ++ r) = .ok ((any || !w.isEmpty, fields'), r) := by
  induction h generalizing fuel any with
  | nil =>
      cases fuel with
      | zero =>
          obtain rfl := List.length_eq_zero_iff.1 (Nat.le_zero.1 hfuel)
          simp [dateLoop]
      | succ fuel => simp [dateLoop, hr]
  | @cons last fields fields' ds w c idx hds hunit hlast hw ih =>
      cases fuel with
      | zero => simp at hfuel
      | succ fuel =>
          have hnumber : number (ds ++ c :: (w ++ r)) = .ok (numberOf ds, c :: (w ++ r)) :=
            number_eq_ok.2 ⟨ds, rfl, hds, (unit_not_digit (Or.inl hunit)).1, rfl⟩
          have hdesignator : designator dateUnit last (c :: (w ++ r)) = .ok (idx, w ++ r) :=
            designator_eq_ok.2 ⟨c, rfl, hunit, hlast⟩
          have hshort : (w ++ r).length ≤ fuel := by
            simp only [List.length_append, List.length_cons] at hfuel ⊢
            omega
          rw [List.append_assoc, List.cons_append, dateLoop, if_pos (hds.next _).1]
          refine bind_eq_ok.2 ⟨_, hnumber, ?_⟩
          refine bind_eq_ok.2 ⟨_, hdesignator, ?_⟩
          simp only
          rw [if_neg (by rw [hw.next_mark hm]; decide), ih hshort]
          simp

theorem optionalFraction_eq_ok {v n : Nat} (h : optionalFraction l = .ok ((v, n), r)) :
    l = r ∧ v = 0 ∧ n = 0 ∨
      ∃ m fs, l = m :: (fs ++ r) ∧ IsMark m ∧ 1 ≤ fs.length ∧ fs.length ≤ 9 ∧
        (∀ c ∈ fs, isDigit c = true) ∧ v = numberOf fs ∧ n = fs.length := by
  unfold optionalFraction at h
  split at h
  · exact Or.inr (fraction_eq_ok h)
  · cases h
    exact Or.inl ⟨rfl, rfl, rfl⟩

theorem timeLoop_sound {seen any any' : Bool} {fields fields' : DurationFields}
    (hfuel : l.length ≤ fuel) (h : timeLoop fuel last seen any fields l = .ok ((any', fields'), r)) :
    ∃ w, l = w ++ r ∧ TimeRun (fun n => n ≤ maxI64) last fields w fields' ∧
      (any' = true ↔ any = true ∨ w ≠ []) ∧ (seen = true → w = [] ∧ fields' = fields) := by
  induction fuel generalizing last seen any fields l with
  | zero =>
      cases h
      exact ⟨[], rfl, .nil, by simp, fun _ => ⟨rfl, rfl⟩⟩
  | succ fuel ih =>
      rw [timeLoop] at h
      split at h
      · cases seen with
        | true => cases h
        | false =>
            rw [if_neg (by decide)] at h
            rw [bind_eq_ok] at h
            obtain ⟨⟨value, l₁⟩, hnumber, h⟩ := h
            rw [bind_eq_ok] at h
            obtain ⟨⟨⟨frac, scale⟩, l₂⟩, hfraction, h⟩ := h
            rw [bind_eq_ok] at h
            obtain ⟨⟨idx, l₃⟩, hdesignator, h⟩ := h
            obtain ⟨ds, rfl, hds, -, rfl⟩ := number_eq_ok.1 hnumber
            obtain ⟨c, rfl, hunit, hlast⟩ := designator_eq_ok.1 hdesignator
            rcases optionalFraction_eq_ok hfraction with
              ⟨rfl, rfl, rfl⟩ | ⟨m, fs, rfl, hm, hpos, hle, hfs, rfl, rfl⟩
            · have hshort : l₃.length ≤ fuel := by
                simp only [List.length_append, List.length_cons] at hfuel
                omega
              obtain ⟨w, rfl, hw, hany, -⟩ := ih hshort h
              refine ⟨ds ++ c :: w, by simp, .cons hds hunit hlast hw, ?_, nofun⟩
              rw [hany]
              simp
            · have hshort : l₃.length ≤ fuel := by
                simp only [List.length_append, List.length_cons] at hfuel
                omega
              have hscale : 0 < fs.length := hpos
              simp only [hscale, if_true, decide_true] at h
              obtain ⟨w, rfl, -, hany, hlastRun⟩ := ih hshort h
              obtain ⟨rfl, rfl⟩ := hlastRun rfl
              refine ⟨ds ++ (m :: (fs ++ [c])), by simp,
                .fraction hds hm hpos hle hfs hunit hlast, ?_, nofun⟩
              rw [hany]
              simp
      · cases h
        exact ⟨[], rfl, .nil, by simp, fun _ => ⟨rfl, rfl⟩⟩

theorem TimeRun.loop {fields fields' : DurationFields}
    (h : TimeRun (fun n => n ≤ maxI64) last fields w fields') (hfuel : w.length ≤ fuel) (any : Bool) :
    timeLoop fuel last false any fields w = .ok ((any || !w.isEmpty, fields'), []) := by
  induction h generalizing fuel any with
  | nil =>
      cases fuel with
      | zero => simp [timeLoop]
      | succ fuel => simp [timeLoop, nextIs]
  | @cons last fields fields' ds w c idx hds hunit hlast hw ih =>
      cases fuel with
      | zero => simp at hfuel
      | succ fuel =>
          obtain ⟨hdigit, hmark⟩ := unit_not_digit (Or.inr hunit)
          have hnumber : number (ds ++ c :: w) = .ok (numberOf ds, c :: w) :=
            number_eq_ok.2 ⟨ds, rfl, hds, hdigit, rfl⟩
          have hfraction : optionalFraction (c :: w) = .ok ((0, 0), c :: w) :=
            if_neg (by rw [nextIs, hmark]; decide)
          have hdesignator : designator timeUnit last (c :: w) = .ok (idx, w) :=
            designator_eq_ok.2 ⟨c, rfl, hunit, hlast⟩
          have hshort : w.length ≤ fuel := by
            simp only [List.length_append, List.length_cons] at hfuel
            omega
          rw [timeLoop, if_pos (hds.next _).1, if_neg (by decide)]
          refine bind_eq_ok.2 ⟨_, hnumber, ?_⟩
          refine bind_eq_ok.2 ⟨_, hfraction, ?_⟩
          refine bind_eq_ok.2 ⟨_, hdesignator, ?_⟩
          have hnone : ¬0 < 0 := by decide
          simp only [hnone, if_false, decide_false]
          rw [ih hshort]
          simp
  | @fraction last fields ds fs c m idx hds hm hpos hle hfs hunit hlast =>
      cases fuel with
      | zero => simp at hfuel
      | succ fuel =>
          have hnumber : number (ds ++ (m :: (fs ++ [c]))) = .ok (numberOf ds, m :: (fs ++ [c])) :=
            number_eq_ok.2 ⟨ds, rfl, hds, not_digit_of_mark hm, rfl⟩
          have hfraction : optionalFraction (m :: (fs ++ [c])) =
              .ok ((numberOf fs, fs.length), [c]) := by
            rw [optionalFraction, if_pos (show nextIs isMark (m :: (fs ++ [c])) = true from
              (isMark_iff m).2 hm)]
            exact fraction_append hm hpos hle hfs (unit_not_digit (Or.inr hunit)).1
          have hdesignator : designator timeUnit last [c] = .ok (idx, []) :=
            designator_eq_ok.2 ⟨c, rfl, hunit, hlast⟩
          rw [timeLoop, if_pos (hds.next _).1, if_neg (by decide)]
          refine bind_eq_ok.2 ⟨_, hnumber, ?_⟩
          refine bind_eq_ok.2 ⟨_, hfraction, ?_⟩
          refine bind_eq_ok.2 ⟨_, hdesignator, ?_⟩
          have hscale : 0 < fs.length := hpos
          simp only [hscale, if_true, decide_true]
          cases fuel with
          | zero => simp [timeLoop]
          | succ fuel => simp [timeLoop, nextIs]

/-! The whole. -/

theorem eatSign_sound (text : Text) : ∃ s, text = s ++ (eatSign text).2 ∧
    SignText s (eatSign text).1 := by
  unfold eatSign
  rcases eat_cases Cu.minus text with ⟨r, rfl, heat⟩ | ⟨-, heat⟩
  · rw [heat]
    exact ⟨_, rfl, .minus⟩
  · simp only [heat]
    rcases eat_cases Cu.plus text with ⟨r, rfl, heat'⟩ | ⟨-, heat'⟩
    · rw [heat']
      exact ⟨_, rfl, .plus⟩
    · rw [heat']
      exact ⟨[], rfl, .none⟩

theorem SignText.eat {s : Text} {sign : Int} (h : SignText s sign) (hc : c = Cu.p ∨ c = Cu.pLower)
    (l : Text) : eatSign (s ++ c :: l) = (sign, c :: l) := by
  have hminus : c ≠ Cu.minus := by rcases hc with rfl | rfl <;> decide
  have hplus : c ≠ Cu.plus := by rcases hc with rfl | rfl <;> decide
  cases h with
  | none => simp [eatSign, Temporal.eat, hminus, hplus]
  | plus => simp [eatSign, Temporal.eat, show Cu.plus ≠ Cu.minus by decide]
  | minus => simp [eatSign, Temporal.eat]

theorem eatEither_eq_true {c d : UInt16} (h : eatEither c d l = (true, r)) :
    l = c :: r ∨ l = d :: r := by
  unfold eatEither at h
  rcases eat_cases c l with ⟨l', rfl, heat⟩ | ⟨-, heat⟩ <;> simp only [heat] at h
  · cases h
    exact Or.inl rfl
  · rcases eat_cases d l with ⟨l', rfl, heat'⟩ | ⟨-, heat'⟩
    · rw [heat'] at h
      cases h
      exact Or.inr rfl
    · rw [heat'] at h
      cases h

theorem eatEither_eq_false {c d : UInt16} (h : eatEither c d l = (false, r)) : r = l := by
  unfold eatEither at h
  rcases eat_cases c l with ⟨l', rfl, heat⟩ | ⟨-, heat⟩ <;> simp only [heat] at h
  · cases h
  · rcases eat_cases d l with ⟨l', rfl, heat'⟩ | ⟨-, heat'⟩ <;> rw [heat'] at h <;> cases h
    rfl

theorem eatEither_cons {c d e : UInt16} (h : e = c ∨ e = d) (l : Text) :
    eatEither c d (e :: l) = (true, l) := by
  by_cases hc : e = c
  · subst hc
    simp [eatEither]
  · obtain rfl := h.resolve_left hc
    simp [eatEither, eat, hc]

/-- What the parser reads: the grammar, with a bare mark after the date part and without the
numbers beyond an `i64`. -/
theorem parseDuration_eq_ok_iff :
    parseDurationString text = .ok fields ↔
      DurationText (fun n => n ≤ maxI64) true text fields := by
  constructor
  · intro h
    obtain ⟨s, htext, hs⟩ := eatSign_sound text
    unfold parseDurationString at h
    generalize eatSign text = signed at h htext hs
    obtain ⟨sign, l⟩ := signed
    simp only at h htext hs
    split at h
    · cases h
    · rename_i l' hmark
      rw [bind_eq_ok] at h
      obtain ⟨⟨⟨any, f⟩, l₁⟩, hdate, h⟩ := h
      rw [bind_eq_ok] at h
      obtain ⟨⟨⟨any', f'⟩, l₂⟩, htime, h⟩ := h
      obtain ⟨date, rfl, hdateRun, hany⟩ := dateLoop_sound (Nat.le_refl _) hdate
      simp only [timePart] at htime h
      split at h
      · cases h
      · rename_i hdone
        simp only [not_or, Bool.not_eq_false, not_not] at hdone
        obtain ⟨hsome, rfl⟩ := hdone
        cases h
        obtain ⟨c, hc, rfl⟩ : ∃ c, (c = Cu.p ∨ c = Cu.pLower) ∧ l = c :: (date ++ l₁) := by
          rcases eatEither_eq_true hmark with h | h
          · exact ⟨_, Or.inl rfl, h⟩
          · exact ⟨_, Or.inr rfl, h⟩
        subst htext
        split at htime
        · rename_i l₃ htimed
          obtain ⟨w, hw, hrun, hany', -⟩ := timeLoop_sound (Nat.le_refl _) htime
          rw [hw, List.append_nil] at htimed
          obtain ⟨d, hd, rfl⟩ : ∃ d, (d = Cu.t ∨ d = Cu.tLower) ∧ l₁ = d :: w := by
            rcases eatEither_eq_true htimed with h | h
            · exact ⟨_, Or.inl rfl, h⟩
            · exact ⟨_, Or.inr rfl, h⟩
          refine .mk hs hc hdateRun (.timed hd hrun (Or.inr rfl)) ?_
          rcases hany'.1 hsome with hone | hne
          · exact Or.inl ((hany.1 hone).resolve_left (by decide))
          · right
            rw [List.length_cons]
            have := List.length_pos_of_ne_nil hne
            omega
        · rename_i l₃ htimed
          cases htime
          rw [← eatEither_eq_false htimed]
          exact .mk hs hc hdateRun .absent
            (Or.inl ((hany.1 hsome).resolve_left (by decide)))
  · intro h
    cases h with
    | @mk s date time c sign f f' hs hc hdate htime hany =>
        have hnext : nextIs isDigit time = false ∧ nextIs isMark time = false := by
          cases htime with
          | absent => exact ⟨rfl, rfl⟩
          | timed hd _ _ => rcases hd with rfl | rfl <;> exact ⟨rfl, rfl⟩
        unfold parseDurationString
        rw [hs.eat hc]
        simp only [eatEither_cons hc]
        refine bind_eq_ok.2 ⟨_, hdate.loop hnext.1 hnext.2 (Nat.le_refl _) false, ?_⟩
        simp only [timePart]
        cases htime with
        | absent =>
            have hne : date ≠ [] := hany.resolve_right (by decide)
            refine bind_eq_ok.2 ⟨_, rfl, ?_⟩
            cases date with
            | nil => exact absurd rfl hne
            | cons d date => rfl
        | @timed d w _ hd hrun _ =>
            rw [eatEither_cons hd]
            refine bind_eq_ok.2 ⟨_, hrun.loop (Nat.le_refl _) _, ?_⟩
            cases date with
            | cons d date => rfl
            | nil =>
                cases w with
                | cons e w => rfl
                | nil => simp at hany

theorem DurationText.allow_bare (h : DurationText fits false text fields) :
    DurationText fits true text fields := by
  cases h with
  | mk hs hc hdate htime hany =>
      cases htime with
      | absent => exact .mk hs hc hdate .absent hany
      | timed hd hrun _ => exact .mk hs hc hdate (.timed hd hrun (Or.inr rfl)) hany

/-- The last unit of a text is the time mark. -/
def EndsInMark (text : Text) : Prop := ∃ c ∈ text.getLast?, c = Cu.t ∨ c = Cu.tLower

theorem bare_iff (h : ¬EndsInMark text) :
    DurationText fits true text fields ↔ DurationText fits false text fields := by
  constructor
  · intro htext
    cases htext with
    | mk hs hc hdate htime hany =>
        cases htime with
        | absent => exact .mk hs hc hdate .absent hany
        | @timed d w _ hd hrun _ =>
            refine .mk hs hc hdate (.timed hd hrun (Or.inl ?_)) hany
            rintro rfl
            apply h
            refine ⟨d, ?_, hd⟩
            rw [← List.cons_append, ← List.append_assoc, List.getLast?_append]
            rfl
  · exact DurationText.allow_bare

end Slag.Temporal
