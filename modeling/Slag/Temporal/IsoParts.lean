import Slag.Temporal.IsoGrammar
import Slag.Lib.Returns

/-!
The parts of a string: digits, fractions, times, offsets. Each has three lemmas:
what it reads is of the grammar, a text of the grammar is read where the rest does
not go on with it, and where it panics.
-/

namespace Slag.Temporal

variable {l r w : Text}

/-! The cursor. -/

variable {c : UInt16} {p : UInt16 → Bool} {minute n second total : Nat} {lax present separated : Bool}
  {tz : ParsedTz}

theorem isDigit_ne {c d : UInt16} (hc : isDigit c = true) (hd : isDigit d = false) : c ≠ d :=
  fun h => Bool.false_ne_true (hd.symm.trans (h ▸ hc))

theorem digitValue_le (h : isDigit c = true) : digitValue c ≤ 9 := by
  simp only [isDigit, Bool.and_eq_true, decide_eq_true_eq, UInt16.le_iff_toNat_le] at h
  have h2 : c.toNat ≤ 57 := h.2
  unfold digitValue
  omega

theorem nextIs_append (hw : w ≠ []) (r : Text) :
    nextIs p (w ++ r) = nextIs p w := by
  cases w with
  | nil => exact absurd rfl hw
  | cons c w => rfl

theorem Digits.ne_nil (h : Digits (n + 1) w) : w ≠ [] := by
  intro hw
  have := h.1
  rw [hw] at this
  cases this

theorem Digits.nextIs (h : Digits (n + 1) w) {b : Bool} (hp : ∀ c, isDigit c = true → p c = b)
    (r : Text) : nextIs p (w ++ r) = b := by
  rw [nextIs_append h.ne_nil]
  cases w with
  | nil => exact absurd rfl h.ne_nil
  | cons c w => exact hp c (h.2 c List.mem_cons_self)

theorem Digits.next_isDigit (h : Digits (n + 1) w) (r : Text) :
    Temporal.nextIs isDigit (w ++ r) = true :=
  h.nextIs (fun _ hc => hc) r

/-- A digit is no other unit. -/
theorem Digits.next_ne (h : Digits (n + 1) w) (hc : isDigit c = false) (r : Text) :
    Temporal.nextIs (fun d => d = c) (w ++ r) = false :=
  h.nextIs (fun _ hd => decide_eq_false (isDigit_ne hd hc)) r

theorem eat_cases (c : UInt16) (l : Text) :
    (∃ r, l = c :: r ∧ eat c l = (true, r)) ∨
      Temporal.nextIs (fun d => d = c) l = false ∧ eat c l = (false, l) := by
  cases l with
  | nil => exact .inr ⟨rfl, rfl⟩
  | cons d l =>
      by_cases h : d = c
      · subst h
        exact .inl ⟨l, rfl, by simp [eat]⟩
      · exact .inr ⟨decide_eq_false h, by simp [eat, h]⟩

@[simp] theorem eat_cons (c : UInt16) (l : Text) : eat c (c :: l) = (true, l) := by
  simp [eat]

theorem eat_of_next (h : Temporal.nextIs (fun d => d = c) l = false) :
    eat c l = (false, l) := by
  cases l with
  | nil => rfl
  | cons d l => simp [eat, show d ≠ c from of_decide_eq_false h]

/-- What was eaten, and that nothing was left to eat. -/
theorem eat_eq {b : Bool} (h : eat c l = (b, r)) :
    l = sep c b ++ r ∧ (b = false → Temporal.nextIs (fun d => d = c) r = false) := by
  cases eat_cases c l with
  | inl he =>
      obtain ⟨r', rfl, he⟩ := he
      cases h.symm.trans he
      exact ⟨rfl, nofun⟩
  | inr he =>
      cases h.symm.trans he.2
      exact ⟨rfl, fun _ => he.1⟩

theorem eat_sep {b : Bool} (h : Temporal.nextIs (fun d => d = c) l = false) :
    eat c (sep c b ++ l) = (b, l) := by
  cases b with
  | false => exact eat_of_next h
  | true => exact eat_cons c l

theorem expect_eq_ok : expect c l = .ok r ↔ l = c :: r := by
  unfold expect
  cases eat_cases c l with
  | inl he =>
      obtain ⟨r', rfl, he⟩ := he
      rw [he]
      simp
  | inr he =>
      rw [he.2]
      refine ⟨nofun, fun h => ?_⟩
      rw [h] at he
      exact absurd he.1 (by simp [Temporal.nextIs])

theorem expect_ne_panic : expect c l ≠ .error .panic := by
  unfold expect
  split <;> simp

/-! Digits. -/

theorem digitsFrom_eq_ok {value n v : Nat} : digitsFrom value n l = .ok (v, r) ↔
    ∃ w, Digits n w ∧ l = w ++ r ∧ v = w.foldl (fun value c => value * 10 + digitValue c) value := by
  induction n generalizing value l with
  | zero =>
      simp only [digitsFrom, Except.ok.injEq, Prod.mk.injEq]
      constructor
      · rintro ⟨rfl, rfl⟩
        exact ⟨[], ⟨rfl, by simp⟩, rfl, rfl⟩
      · rintro ⟨w, hw, rfl, rfl⟩
        rw [List.length_eq_zero_iff.mp hw.1]
        exact ⟨rfl, rfl⟩
  | succ n ih =>
      cases l with
      | nil =>
          refine ⟨nofun, ?_⟩
          rintro ⟨w, hw, hl, -⟩
          exact absurd (List.append_eq_nil_iff.mp hl.symm).1 hw.ne_nil
      | cons c l =>
          rw [digitsFrom]
          split
          · rename_i hc
            rw [ih]
            constructor
            · rintro ⟨w, hw, rfl, rfl⟩
              exact ⟨c :: w, ⟨congrArg (· + 1) hw.1, List.forall_mem_cons.mpr ⟨hc, hw.2⟩⟩, rfl, rfl⟩
            · rintro ⟨w, hw, hl, rfl⟩
              cases w with
              | nil => exact absurd rfl hw.ne_nil
              | cons d w =>
                  obtain ⟨rfl, rfl⟩ := List.cons.inj hl
                  exact ⟨w, ⟨Nat.succ.inj hw.1, (List.forall_mem_cons.mp hw.2).2⟩, rfl, rfl⟩
          · rename_i hc
            refine ⟨nofun, ?_⟩
            rintro ⟨w, hw, hl, -⟩
            cases w with
            | nil => exact absurd rfl hw.ne_nil
            | cons d w =>
                obtain ⟨rfl, -⟩ := List.cons.inj hl
                exact absurd (hw.2 c List.mem_cons_self) hc

theorem digits_eq_ok {n v : Nat} :
    digits n l = .ok (v, r) ↔ ∃ w, Digits n w ∧ l = w ++ r ∧ v = numberOf w :=
  digitsFrom_eq_ok

theorem digits_append (h : Digits n w) (r : Text) :
    digits n (w ++ r) = .ok (numberOf w, r) :=
  digits_eq_ok.mpr ⟨w, h, rfl, rfl⟩

theorem digitsFrom_ne_panic {value n : Nat} : digitsFrom value n l ≠ .error .panic := by
  induction n generalizing value l with
  | zero => simp [digitsFrom]
  | succ n ih =>
      cases l with
      | nil => simp [digitsFrom]
      | cons c l =>
          rw [digitsFrom]
          split
          · exact ih
          · simp

theorem digits_ne_panic : digits n l ≠ .error .panic :=
  digitsFrom_ne_panic

/-- Parsing goes on behind the digits. -/
theorem digits_bind_eq_ok {α : Type} {f : Nat × Text → Except Failure α} {a : α} :
    digits n l >>= f = .ok a ↔ ∃ w r, Digits n w ∧ l = w ++ r ∧ f (numberOf w, r) = .ok a := by
  rw [bind_eq_ok]
  constructor
  · rintro ⟨⟨v, r⟩, hd, h⟩
    obtain ⟨w, hw, rfl, rfl⟩ := digits_eq_ok.mp hd
    exact ⟨w, r, hw, rfl, h⟩
  · rintro ⟨w, r, hw, rfl, h⟩
    exact ⟨_, digits_append hw r, h⟩

theorem digits_bind_panic {α : Type} {f : Nat × Text → Except Failure α} :
    digits n l >>= f = .error .panic ↔
      ∃ w r, Digits n w ∧ l = w ++ r ∧ f (numberOf w, r) = .error .panic := by
  rw [bind_eq_error]
  constructor
  · rintro (h | ⟨⟨v, r⟩, hd, h⟩)
    · exact absurd h digits_ne_panic
    · obtain ⟨w, hw, rfl, rfl⟩ := digits_eq_ok.mp hd
      exact ⟨w, r, hw, rfl, h⟩
  · rintro ⟨w, r, hw, rfl, h⟩
    exact .inr ⟨_, digits_append hw r, h⟩

/-! Digit runs. -/

theorem le_foldl_digits (value : Nat) (w : Text) :
    value ≤ w.foldl (fun value c => value * 10 + digitValue c) value := by
  induction w generalizing value with
  | nil => exact Nat.le_refl _
  | cons c w ih => exact Nat.le_trans (show value ≤ value * 10 + digitValue c by omega) (ih _)

theorem foldl_digits_lt {value bound : Nat} (hv : value < bound) (hw : ∀ c ∈ w, isDigit c = true) :
    w.foldl (fun value c => value * 10 + digitValue c) value < bound * 10 ^ w.length := by
  induction w generalizing value bound with
  | nil => simpa using hv
  | cons c w ih =>
      obtain ⟨hc, hw⟩ := List.forall_mem_cons.mp hw
      have hd := digitValue_le hc
      have hlt : value * 10 + digitValue c < bound * 10 := by omega
      have := ih hlt hw
      rw [List.foldl_cons, List.length_cons, Nat.pow_succ, Nat.mul_comm (10 ^ w.length), ← Nat.mul_assoc]
      exact this

theorem numberOf_lt (hw : ∀ c ∈ w, isDigit c = true) : numberOf w < 10 ^ w.length := by
  simpa [numberOf] using foldl_digits_lt Nat.zero_lt_one hw

theorem digitRun_eq_ok {value count v n : Nat} (h : digitRun value count l = .ok ((v, n), r)) :
    ∃ w, (∀ c ∈ w, isDigit c = true) ∧ l = w ++ r ∧
      v = w.foldl (fun value c => value * 10 + digitValue c) value ∧ n = count + w.length := by
  induction l generalizing value count with
  | nil =>
      cases h
      exact ⟨[], by simp, rfl, rfl, rfl⟩
  | cons c l ih =>
      rw [digitRun] at h
      split at h
      · rename_i hc
        split at h
        · cases h
        · obtain ⟨w, hw, rfl, rfl, rfl⟩ := ih h
          refine ⟨c :: w, List.forall_mem_cons.mpr ⟨hc, hw⟩, rfl, rfl, ?_⟩
          rw [List.length_cons]
          omega
      · cases h
        exact ⟨[], by simp, rfl, rfl, rfl⟩

theorem digitRun_append {value : Nat} (count : Nat) (hw : ∀ c ∈ w, isDigit c = true)
    (hr : Temporal.nextIs isDigit r = false)
    (hmax : w.foldl (fun value c => value * 10 + digitValue c) value ≤ maxI64) :
    digitRun value count (w ++ r) = .ok ((w.foldl (fun value c => value * 10 + digitValue c) value,
      count + w.length), r) := by
  induction w generalizing value count with
  | nil =>
      cases r with
      | nil => rfl
      | cons c r =>
          have hc : isDigit c = false := hr
          simp [digitRun, hc]
  | cons c w ih =>
      obtain ⟨hc, hw⟩ := List.forall_mem_cons.mp hw
      have hle := Nat.le_trans (le_foldl_digits (value * 10 + digitValue c) w) hmax
      rw [List.cons_append, digitRun, if_pos hc, if_neg (by omega), ih _ hw hmax]
      simp [Nat.add_assoc, Nat.add_comm 1]

theorem digitRun_panic {value count : Nat} (hv : value ≤ maxI64) :
    digitRun value count l = .error .panic ↔ ∃ w r, (∀ c ∈ w, isDigit c = true) ∧ l = w ++ r ∧
      maxI64 < w.foldl (fun value c => value * 10 + digitValue c) value := by
  induction l generalizing value count with
  | nil =>
      refine ⟨nofun, ?_⟩
      rintro ⟨w, r, -, hl, hlt⟩
      rw [(List.append_eq_nil_iff.mp hl.symm).1] at hlt
      exact absurd hv (Nat.not_le.mpr hlt)
  | cons c l ih =>
      rw [digitRun]
      split
      · rename_i hc
        split
        · rename_i hlt
          exact iff_of_true rfl ⟨[c], l, by simpa using hc, rfl, hlt⟩
        · rename_i hle
          rw [ih (Nat.le_of_not_lt hle)]
          constructor
          · rintro ⟨w, r, hw, rfl, hlt⟩
            exact ⟨c :: w, r, List.forall_mem_cons.mpr ⟨hc, hw⟩, rfl, hlt⟩
          · rintro ⟨w, r, hw, hl, hlt⟩
            cases w with
            | nil => exact absurd hv (Nat.not_le.mpr hlt)
            | cons d w =>
                obtain ⟨rfl, rfl⟩ := List.cons.inj hl
                exact ⟨w, r, (List.forall_mem_cons.mp hw).2, rfl, hlt⟩
      · rename_i hc
        refine ⟨nofun, ?_⟩
        rintro ⟨w, r, hw, hl, hlt⟩
        cases w with
        | nil => exact absurd hv (Nat.not_le.mpr hlt)
        | cons d w =>
            obtain ⟨rfl, -⟩ := List.cons.inj hl
            exact absurd (hw c List.mem_cons_self) hc

/-! Fractions. -/

theorem Fraction.total_lt (h : Fraction w total) : total < 1000000000 := by
  cases h with
  | mk hc hpos hle hds =>
      rename_i c ds
      have hlt := Nat.mul_lt_mul_of_pos_right (numberOf_lt hds) (Nat.pow_pos (n := 9 - ds.length) (by decide : 0 < 10))
      rw [← Nat.pow_add, Nat.add_sub_cancel' hle] at hlt
      exact hlt

theorem parseFraction_eq_ok {value count : Nat} (h : parseFraction l = .ok ((value, count), r)) :
    ∃ f, Fraction f (value * 10 ^ (9 - count)) ∧ l = f ++ r := by
  cases l with
  | nil => cases h
  | cons c l =>
      simp only [parseFraction] at h
      split at h
      · rename_i hc
        rw [bind_eq_ok] at h
        obtain ⟨⟨⟨v, n⟩, m⟩, hrun, h⟩ := h
        obtain ⟨ds, hds, rfl, rfl, rfl⟩ := digitRun_eq_ok hrun
        simp only [Nat.zero_add] at h
        split at h
        · cases h
        · rename_i hcount
          cases h
          exact ⟨c :: ds, .mk hc (by omega) (by omega) hds, rfl⟩
      · cases h

theorem parseFraction_append (h : Fraction w total) (hr : Temporal.nextIs isDigit r = false) :
    ∃ value count, parseFraction (w ++ r) = .ok ((value, count), r) ∧ total = value * 10 ^ (9 - count) := by
  cases h with
  | mk hc hpos hle hds =>
      rename_i c ds
      have hlt := numberOf_lt hds
      have hmax : numberOf ds ≤ maxI64 := by
        have hbound : 10 ^ ds.length ≤ 10 ^ 9 := Nat.pow_le_pow_right (by decide) hle
        have : (10 : Nat) ^ 9 ≤ maxI64 := by decide
        omega
      refine ⟨numberOf ds, ds.length, ?_, rfl⟩
      have hrun := digitRun_append 0 hds hr hmax
      simp only [List.cons_append, parseFraction]
      rw [if_pos (show c = Cu.dot ∨ c = Cu.comma from hc)]
      refine bind_eq_ok.mpr ⟨_, hrun, ?_⟩
      simp only [Nat.zero_add]
      exact if_neg (by omega)

theorem parseFraction_panic : parseFraction l = .error .panic ↔ Huge l := by
  cases l with
  | nil => exact ⟨nofun, nofun⟩
  | cons c l =>
      simp only [parseFraction]
      by_cases hc : c = Cu.dot ∨ c = Cu.comma
      · rw [if_pos hc, bind_eq_error, digitRun_panic (Nat.zero_le _)]
        constructor
        · rintro (⟨w, r, hw, rfl, hlt⟩ | ⟨⟨⟨v, n⟩, m⟩, -, h⟩)
          · exact .mk hc hw hlt
          · simp only at h
            split at h <;> cases h
        · rintro ⟨-, hw, hlt⟩
          exact .inl ⟨_, _, hw, rfl, hlt⟩
      · rw [if_neg hc]
        exact ⟨nofun, fun h => by cases h with | mk hmark _ _ => exact absurd hmark hc⟩

/-! Times. -/

/-- Nothing that a time, a date or an offset could go on with. -/
def Stops (r : Text) : Prop :=
  Temporal.nextIs (fun c => isDigit c || c = Cu.colon || c = Cu.dot || c = Cu.comma || isTimeMark c) r = false

theorem Stops.digit (h : Stops r) : Temporal.nextIs isDigit r = false := by
  cases r with
  | nil => rfl
  | cons c r =>
      simp only [Stops, Temporal.nextIs, Bool.or_eq_false_iff] at h ⊢
      exact h.1.1.1.1

theorem Stops.colon (h : Stops r) : Temporal.nextIs (fun c => c = Cu.colon) r = false := by
  cases r with
  | nil => rfl
  | cons c r =>
      simp only [Stops, Temporal.nextIs, Bool.or_eq_false_iff] at h ⊢
      exact h.1.1.1.2

theorem Stops.mark (h : Stops r) :
    Temporal.nextIs (fun c => c = Cu.dot || c = Cu.comma) r = false := by
  cases r with
  | nil => rfl
  | cons c r =>
      simp only [Stops, Temporal.nextIs, Bool.or_eq_false_iff] at h ⊢
      exact ⟨h.1.1.2, h.1.2⟩

theorem Stops.timeMark (h : Stops r) : Temporal.nextIs isTimeMark r = false := by
  cases r with
  | nil => rfl
  | cons c r =>
      simp only [Stops, Temporal.nextIs, Bool.or_eq_false_iff] at h ⊢
      exact h.2

theorem parseSubsecond_eq_ok (h : parseSubsecond present l = .ok (total, r)) :
    total = 0 ∧ r = l ∨ present = true ∧ ∃ f, Fraction f total ∧ l = f ++ r := by
  unfold parseSubsecond at h
  split at h
  · split at h
    · rename_i hp
      rw [bind_eq_ok] at h
      obtain ⟨⟨⟨value, count⟩, r'⟩, hf, h⟩ := h
      cases h
      exact .inr ⟨hp, parseFraction_eq_ok hf⟩
    · cases h
  · cases h
    exact .inl ⟨rfl, rfl⟩

theorem parseSubsecond_none (present : Bool)
    (hr : Temporal.nextIs (fun c => c = Cu.dot || c = Cu.comma) r = false) :
    parseSubsecond present r = .ok (0, r) := by
  unfold parseSubsecond
  rw [if_neg (by rw [hr]; decide)]

theorem parseSubsecond_append (h : Fraction w total) (hr : Temporal.nextIs isDigit r = false) :
    parseSubsecond true (w ++ r) = .ok (total, r) := by
  have hnext : Temporal.nextIs (fun c => c = Cu.dot || c = Cu.comma) (w ++ r) = true := by
    cases h with
    | mk hc _ _ _ => simpa [Temporal.nextIs, IsMark] using hc
  obtain ⟨value, count, hparse, rfl⟩ := parseFraction_append h hr
  unfold parseSubsecond
  rw [if_pos hnext, if_pos rfl]
  exact bind_eq_ok.mpr ⟨_, hparse, rfl⟩

theorem parseSubsecond_panic :
    parseSubsecond present l = .error .panic ↔ present = true ∧ Huge l := by
  unfold parseSubsecond
  split
  · split
    · rename_i hp
      rw [bind_eq_error, parseFraction_panic]
      exact ⟨fun h => ⟨hp, h.resolve_right fun ⟨_, _, h⟩ => nomatch h⟩, fun h => .inl h.2⟩
    · rename_i hp
      exact ⟨nofun, fun h => absurd h.1 hp⟩
  · rename_i hn
    refine ⟨nofun, fun h => absurd ?_ hn⟩
    cases h.2 with
    | mk hc _ _ => simpa [Temporal.nextIs, IsMark] using hc

/-- The minute and second after an hour, in the terms of `Clock`. -/
inductive MinuteSecond (separated : Bool) : Text → Nat → Nat → Bool → Prop
  | none : separated = false → MinuteSecond separated [] 0 0 false
  | minute {m : Text} : Digits 2 m → MinuteSecond separated m (numberOf m) 0 false
  | second {m s : Text} : Digits 2 m → Digits 2 s →
      MinuteSecond separated (m ++ (sep Cu.colon separated ++ s)) (numberOf m) (numberOf s) true

theorem parseMinuteSecond_eq_ok (h : parseMinuteSecond separated l = .ok ((minute, second, present), r)) :
    ∃ w, MinuteSecond separated w minute second present ∧ l = w ++ r := by
  unfold parseMinuteSecond at h
  cases separated with
  | true =>
      rw [if_pos rfl] at h
      rw [digits_bind_eq_ok] at h
      obtain ⟨m, l, hdm, rfl, h⟩ := h
      cases he : eat Cu.colon l with
      | mk more l' =>
      simp only [he] at h
      obtain ⟨rfl, -⟩ := eat_eq he
      cases more with
      | true =>
          rw [if_pos rfl, bind_eq_ok] at h
          obtain ⟨⟨_, l⟩, hs, h⟩ := h
          obtain ⟨s, hds, rfl, rfl⟩ := digits_eq_ok.mp hs
          cases h
          exact ⟨_, .second hdm hds, by simp⟩
      | false =>
          cases h
          exact ⟨m, .minute hdm, rfl⟩
  | false =>
      rw [if_neg (by decide)] at h
      split at h
      · rw [digits_bind_eq_ok] at h
        obtain ⟨m, l, hdm, rfl, h⟩ := h
        simp only at h
        split at h
        · rw [digits_bind_eq_ok] at h
          obtain ⟨s, r', hds, rfl, h⟩ := h
          cases h
          exact ⟨_, .second hdm hds, by simp [sep]⟩
        · cases h
          exact ⟨m, .minute hdm, rfl⟩
      · cases h
        exact ⟨[], .none rfl, rfl⟩

theorem parseMinuteSecond_ne_panic :
    parseMinuteSecond separated l ≠ .error .panic := by
  unfold parseMinuteSecond
  intro h
  split at h
  · rw [bind_eq_error] at h
    obtain h | ⟨⟨_, l⟩, -, h⟩ := h
    · exact digits_ne_panic h
    · simp only at h
      split at h
      · rw [bind_eq_error] at h
        obtain h | ⟨_, -, h⟩ := h
        · exact digits_ne_panic h
        · cases h
      · cases h
  · split at h
    · rw [bind_eq_error] at h
      obtain h | ⟨⟨_, l⟩, -, h⟩ := h
      · exact digits_ne_panic h
      · simp only at h
        split at h
        · rw [bind_eq_error] at h
          obtain h | ⟨_, -, h⟩ := h
          · exact digits_ne_panic h
          · cases h
        · cases h
    · cases h

theorem MinuteSecond.parse (h : MinuteSecond separated w minute second present)
    (hcolon : Temporal.nextIs (fun c => c = Cu.colon) r = false)
    (hdigit : present = true ∨ Temporal.nextIs isDigit r = false) :
    parseMinuteSecond separated (w ++ r) = .ok ((minute, second, present), r) := by
  unfold parseMinuteSecond
  cases h with
  | none hs =>
      have hd := hdigit.resolve_left (by decide)
      rw [if_neg (by rw [hs]; decide), List.nil_append, if_neg (by rw [hd]; decide)]
  | minute hm =>
      have hd := hdigit.resolve_left (by decide)
      cases separated with
      | true =>
          rw [if_pos rfl]
          refine bind_eq_ok.mpr ⟨_, digits_append hm r, ?_⟩
          simp [eat_of_next hcolon]
      | false =>
          rw [if_neg (by decide), if_pos (hm.next_isDigit r)]
          refine bind_eq_ok.mpr ⟨_, digits_append hm r, ?_⟩
          simp [hd]
  | @second m s hm hs =>
      cases separated with
      | true =>
          rw [if_pos rfl, List.append_assoc]
          refine digits_bind_eq_ok.mpr ⟨_, _, hm, rfl, ?_⟩
          simp only [sep, if_true, List.cons_append, List.nil_append, eat_cons]
          exact bind_eq_ok.mpr ⟨_, digits_append hs r, rfl⟩
      | false =>
          rw [if_neg (by decide), List.append_assoc, if_pos (hm.next_isDigit _)]
          refine digits_bind_eq_ok.mpr ⟨_, _, hm, rfl, ?_⟩
          simp only [sep, if_false, List.nil_append, Bool.false_eq_true]
          rw [if_pos (hs.next_isDigit r)]
          exact bind_eq_ok.mpr ⟨_, digits_append hs r, rfl⟩

/-- The hour and what follows it make a clock. -/
theorem MinuteSecond.clock {h : Text} (hh : Digits 2 h)
    (hw : MinuteSecond separated w minute second present) :
    Clock (h ++ (sep Cu.colon separated ++ w)) (numberOf h) minute second 0 := by
  cases hw with
  | none hs => simpa [hs, sep] using Clock.hour hh
  | minute hm => exact .minute separated hh hm
  | second hm hs => exact .second separated hh hm hs

/-- A clock is an hour, what follows it, and a fraction after seconds. -/
theorem Clock.parts {hour minute second total : Nat} (h : Clock w hour minute second total) :
    ∃ hw separated mw present f, Digits 2 hw ∧ MinuteSecond separated mw minute second present ∧
      w = hw ++ (sep Cu.colon separated ++ (mw ++ f)) ∧ hour = numberOf hw ∧
      (f = [] ∧ total = 0 ∨ present = true ∧ Fraction f total) := by
  cases h with
  | hour hh => exact ⟨w, false, [], false, [], hh, .none rfl, by simp [sep], rfl, .inl ⟨rfl, rfl⟩⟩
  | minute separated hh hm =>
      exact ⟨_, separated, _, false, [], hh, .minute hm, by simp, rfl, .inl ⟨rfl, rfl⟩⟩
  | second separated hh hm hs =>
      exact ⟨_, separated, _, true, [], hh, .second hm hs, by simp, rfl, .inl ⟨rfl, rfl⟩⟩
  | fraction separated hh hm hs hf =>
      exact ⟨_, separated, _, true, _, hh, .second hm hs, by simp, rfl, .inr ⟨rfl, hf⟩⟩

theorem MinuteSecond.clockFraction {h f : Text} (hh : Digits 2 h)
    (hw : MinuteSecond separated w minute second true) (hf : Fraction f total) :
    Clock (h ++ (sep Cu.colon separated ++ (w ++ f))) (numberOf h) minute second total := by
  cases hw with
  | second hm hs => simpa using Clock.fraction separated hh hm hs hf

theorem parseTime_eq_ok {time : Time} (h : parseTime l = .ok (time, r)) :
    ∃ w, TimeText w time ∧ l = w ++ r := by
  unfold parseTime at h
  rw [digits_bind_eq_ok] at h
  obtain ⟨hw, l, hdh, rfl, h⟩ := h
  cases hs : eat Cu.colon l with
  | mk separated l' =>
  simp only [hs] at h
  obtain ⟨rfl, -⟩ := eat_eq hs
  rw [bind_eq_ok] at h
  obtain ⟨⟨⟨minute, second, present⟩, l⟩, hm, h⟩ := h
  obtain ⟨mw, hmw, rfl⟩ := parseMinuteSecond_eq_ok hm
  simp only at h
  split at h
  · cases h
  · rename_i hminute
    split at h
    · cases h
    · rename_i hsecond
      rw [bind_eq_ok] at h
      obtain ⟨⟨total, l''⟩, hf, h⟩ := h
      simp only at h
      split at h
      · cases h
      · rename_i hmidnight
        split at h
        · cases h
        · rename_i hhour
          cases h
          have limits : ∀ {total : Nat}, total < 1000000000 →
              ¬(numberOf hw = 24 ∧ (minute ≠ 0 ∨ clamp second ≠ 0 ∨ total / 1000000 ≠ 0 ∨
                total / 1000 % 1000 ≠ 0 ∨ total % 1000 ≠ 0)) →
              numberOf hw < 24 ∨ numberOf hw = 24 ∧ minute = 0 ∧ clamp second = 0 ∧ total = 0 := by
            intro total hlt hmid
            omega
          cases parseSubsecond_eq_ok hf with
          | inl hnone =>
              obtain ⟨rfl, rfl⟩ := hnone
              refine ⟨hw ++ (sep Cu.colon separated ++ mw), ?_, by simp⟩
              exact .mk (hmw.clock hdh) (by omega) (by omega) (limits (by decide) hmidnight)
          | inr hsome =>
              obtain ⟨rfl, f, hfrac, rfl⟩ := hsome
              refine ⟨hw ++ (sep Cu.colon separated ++ (mw ++ f)), ?_, by simp⟩
              exact .mk (hmw.clockFraction hdh hfrac) (by omega) (by omega)
                (limits hfrac.total_lt hmidnight)

theorem MinuteSecond.next_colon (h : MinuteSecond separated w minute second present)
    (hr : Temporal.nextIs (fun c => c = Cu.colon) r = false) :
    Temporal.nextIs (fun c => c = Cu.colon) (w ++ r) = false := by
  cases h with
  | none _ => exact hr
  | minute hm => exact hm.next_ne (by decide) r
  | second hm _ => rw [List.append_assoc]; exact hm.next_ne (by decide) _

theorem Fraction.next (h : Fraction w total) (hp : p Cu.dot = false ∧ p Cu.comma = false) (r : Text) :
    Temporal.nextIs p (w ++ r) = false := by
  cases h with
  | mk hc _ _ _ =>
      cases hc with
      | inl h => rw [h]; exact hp.1
      | inr h => rw [h]; exact hp.2

/-- Where a fraction is given it follows seconds, where none is the rest stops. -/
theorem subsecond_parse {f : Text} (hr : Stops r)
    (hf : f = [] ∧ total = 0 ∨ present = true ∧ Fraction f total) :
    parseSubsecond present (f ++ r) = .ok (total, r) ∧
      Temporal.nextIs (fun c => c = Cu.colon) (f ++ r) = false ∧
      (present = true ∨ Temporal.nextIs isDigit (f ++ r) = false) := by
  cases hf with
  | inl hnone =>
      obtain ⟨rfl, rfl⟩ := hnone
      exact ⟨parseSubsecond_none present hr.mark, hr.colon, .inr hr.digit⟩
  | inr hsome =>
      obtain ⟨rfl, hfrac⟩ := hsome
      exact ⟨parseSubsecond_append hfrac hr.digit, hfrac.next (by decide) r, .inl rfl⟩

theorem TimeText.parse {time : Time} (h : TimeText w time) (hr : Stops r) :
    parseTime (w ++ r) = .ok (time, r) := by
  cases h with
  | mk hc hminute hsecond hhour =>
      obtain ⟨hw, separated, mw, present, f, hdh, hmw, rfl, rfl, hf⟩ := hc.parts
      obtain ⟨hsub, hcolon, hdigit⟩ := subsecond_parse hr hf
      simp only [List.append_assoc]
      refine digits_bind_eq_ok.mpr ⟨_, _, hdh, rfl, ?_⟩
      simp only [eat_sep (hmw.next_colon hcolon)]
      refine bind_eq_ok.mpr ⟨_, hmw.parse hcolon hdigit, ?_⟩
      simp only
      rw [if_neg (by omega), if_neg (by omega)]
      refine bind_eq_ok.mpr ⟨_, hsub, ?_⟩
      simp only
      rw [if_neg (by omega), if_neg (by omega)]
      rfl

theorem Huge.next (h : Huge w) (hp : p Cu.dot = false ∧ p Cu.comma = false) :
    Temporal.nextIs p w = false := by
  cases h with
  | mk hc _ _ =>
      cases hc with
      | inl h => rw [h]; exact hp.1
      | inr h => rw [h]; exact hp.2

theorem parseTime_panic : parseTime l = .error .panic ↔ Overlong 99 60 l := by
  constructor
  · intro h
    unfold parseTime at h
    rw [digits_bind_panic] at h
    obtain ⟨hw, l, hdh, rfl, h⟩ := h
    cases hs : eat Cu.colon l with
    | mk separated l' =>
    simp only [hs] at h
    obtain ⟨rfl, -⟩ := eat_eq hs
    rw [bind_eq_error] at h
    obtain h | ⟨⟨⟨minute, second, present⟩, l⟩, hm, h⟩ := h
    · exact absurd h parseMinuteSecond_ne_panic
    obtain ⟨mw, hmw, rfl⟩ := parseMinuteSecond_eq_ok hm
    simp only at h
    split at h
    · cases h
    · rename_i hminute
      split at h
      · cases h
      · rename_i hsecond
        rw [bind_eq_error] at h
        obtain h | ⟨⟨total, l''⟩, -, h⟩ := h
        · obtain ⟨rfl, hhuge⟩ := parseSubsecond_panic.mp h
          cases hmw with
          | second hdm hds =>
              have hlt := numberOf_lt hdh.2
              rw [hdh.1] at hlt
              rw [List.append_assoc, List.append_assoc]
              exact .mk separated hdh hdm hds (by omega) (by omega) (by omega) hhuge
        · simp only at h
          split at h
          · cases h
          · split at h <;> cases h
  · intro h
    cases h with
    | @mk hw m s f separated hdh hdm hds _ hminute hsecond hhuge =>
        have hmw : MinuteSecond separated (m ++ (sep Cu.colon separated ++ s)) _ _ true :=
          .second hdm hds
        have hcolon := hhuge.next (p := fun c => c = Cu.colon) (by decide)
        rw [show hw ++ (sep Cu.colon separated ++ (m ++ (sep Cu.colon separated ++ (s ++ f)))) =
          hw ++ (sep Cu.colon separated ++ ((m ++ (sep Cu.colon separated ++ s)) ++ f)) by simp]
        refine bind_eq_error.mpr (.inr ⟨_, digits_append hdh _, ?_⟩)
        simp only [eat_sep (hmw.next_colon hcolon)]
        refine bind_eq_error.mpr (.inr ⟨_, hmw.parse hcolon (.inl rfl), ?_⟩)
        simp only
        rw [if_neg (by omega), if_neg (by omega)]
        exact bind_eq_error.mpr (.inl (parseSubsecond_panic.mpr ⟨rfl, hhuge⟩))

/-! Offsets. -/

/-- An offset after its sign, with the slip of a separator that nothing follows. -/
inductive OffsetBody : Text → Prop
  | clock {w : Text} {hour minute second total : Nat} : Clock w hour minute second total →
      hour ≤ 23 → minute ≤ 59 → second ≤ 59 → OffsetBody w
  | dangling {h : Text} : Digits 2 h → numberOf h ≤ 23 → OffsetBody (h ++ [Cu.colon])

theorem Digits.continues (h : Digits (n + 1) w) (r : Text) : continues (w ++ r) = true := by
  cases w with
  | nil => exact absurd rfl h.ne_nil
  | cons c w => exact decide_eq_true (isDigit_ne (h.2 c List.mem_cons_self) (by decide))

theorem Fraction.continues (h : Fraction w total) (r : Text) :
    Temporal.continues (w ++ r) = true := by
  cases h with
  | mk hc _ _ _ => cases hc with
    | inl h => rw [h]; rfl
    | inr h => rw [h]; rfl

theorem sep_continues (hc : c ≠ Cu.lBracket) (hr : Temporal.continues r = true) :
    Temporal.continues (sep c separated ++ r) = true := by
  cases separated with
  | false => exact hr
  | true => exact decide_eq_true hc

theorem continues_false (hr : continues r = false) (hp : p Cu.lBracket = false) :
    Temporal.nextIs p r = false := by
  cases r with
  | nil => rfl
  | cons c r =>
      have hc : c = Cu.lBracket := by simpa [continues] using hr
      rw [hc]
      exact hp

theorem expectSep_eq_ok :
    expectSep separated l = .ok r ↔ l = sep Cu.colon separated ++ r := by
  cases separated with
  | true => exact expect_eq_ok
  | false => simp [expectSep, sep]

theorem expectSep_ne_panic : expectSep separated l ≠ .error .panic := by
  unfold expectSep
  split
  · exact expect_ne_panic
  · simp

theorem parseOffset_eq_ok (h : parseOffset l = .ok ((), r)) : ∃ w, OffsetBody w ∧ l = w ++ r := by
  unfold parseOffset at h
  rw [digits_bind_eq_ok] at h
  obtain ⟨hw, l, hdh, rfl, h⟩ := h
  simp only at h
  split at h
  · cases h
  rename_i hhour
  have hhour := Nat.le_of_not_lt hhour
  cases hs : eat Cu.colon l with
  | mk separated l' =>
  simp only [hs] at h
  obtain ⟨rfl, -⟩ := eat_eq hs
  split at h
  · rw [digits_bind_eq_ok] at h
    obtain ⟨m, l, hdm, rfl, h⟩ := h
    simp only at h
    split at h
    · cases h
    rename_i hminute
    have hminute := Nat.le_of_not_lt hminute
    split at h
    · rw [bind_eq_ok] at h
      obtain ⟨l', he, h⟩ := h
      obtain rfl := expectSep_eq_ok.mp he
      rw [digits_bind_eq_ok] at h
      obtain ⟨s, l, hds, rfl, h⟩ := h
      simp only at h
      split at h
      · cases h
      rename_i hsecond
      have hsecond := Nat.le_of_not_lt hsecond
      split at h
      · rw [bind_eq_ok] at h
        obtain ⟨⟨⟨value, count⟩, l⟩, hf, h⟩ := h
        obtain ⟨f, hfrac, rfl⟩ := parseFraction_eq_ok hf
        cases h
        exact ⟨_, .clock (.fraction separated hdh hdm hds hfrac) hhour hminute hsecond, by simp⟩
      · cases h
        exact ⟨_, .clock (.second separated hdh hdm hds) hhour hminute hsecond, by simp⟩
    · cases h
      exact ⟨_, .clock (.minute separated hdh hdm) hhour hminute (Nat.zero_le _), by simp⟩
  · cases h
    cases separated with
    | false => exact ⟨hw, .clock (.hour hdh) hhour (Nat.zero_le _) (Nat.zero_le _), rfl⟩
    | true => exact ⟨_, .dangling hdh hhour, by simp [sep]⟩

theorem OffsetBody.parse (h : OffsetBody w) (hr : continues r = false) :
    parseOffset (w ++ r) = .ok ((), r) := by
  have hcolon : Temporal.nextIs (fun c => c = Cu.colon) r = false := continues_false hr (by decide)
  cases h with
  | dangling hdh hhour =>
      rw [List.append_assoc]
      refine digits_bind_eq_ok.mpr ⟨_, _, hdh, rfl, ?_⟩
      simp only [List.cons_append, List.nil_append, eat_cons]
      rw [if_neg (by omega), if_neg (by rw [hr]; decide)]
  | clock hc hhour hminute hsecond =>
      cases hc with
      | hour hdh =>
          refine digits_bind_eq_ok.mpr ⟨_, _, hdh, rfl, ?_⟩
          simp only [eat_of_next hcolon]
          rw [if_neg (by omega), if_neg (by rw [hr]; decide)]
      | minute separated hdh hdm =>
          simp only [List.append_assoc]
          refine digits_bind_eq_ok.mpr ⟨_, _, hdh, rfl, ?_⟩
          simp only [eat_sep (hdm.next_ne (c := Cu.colon) (by decide) r)]
          rw [if_neg (by omega), if_pos (hdm.continues r)]
          refine digits_bind_eq_ok.mpr ⟨_, _, hdm, rfl, ?_⟩
          simp only
          rw [if_neg (by omega), if_neg (by rw [hr]; decide)]
      | second separated hdh hdm hds =>
          simp only [List.append_assoc]
          refine digits_bind_eq_ok.mpr ⟨_, _, hdh, rfl, ?_⟩
          simp only [eat_sep (hdm.next_ne (c := Cu.colon) (by decide) _)]
          rw [if_neg (by omega), if_pos (hdm.continues _)]
          refine digits_bind_eq_ok.mpr ⟨_, _, hdm, rfl, ?_⟩
          simp only
          rw [if_neg (by omega), if_pos (sep_continues (by decide) (hds.continues r))]
          refine bind_eq_ok.mpr ⟨_, expectSep_eq_ok.mpr rfl, ?_⟩
          refine digits_bind_eq_ok.mpr ⟨_, _, hds, rfl, ?_⟩
          simp only
          rw [if_neg (by omega), if_neg (by rw [hr]; decide)]
      | fraction separated hdh hdm hds hf =>
          obtain ⟨value, count, hparse, -⟩ :=
            parseFraction_append hf (continues_false hr (by decide))
          simp only [List.append_assoc]
          refine digits_bind_eq_ok.mpr ⟨_, _, hdh, rfl, ?_⟩
          simp only [eat_sep (hdm.next_ne (c := Cu.colon) (by decide) _)]
          rw [if_neg (by omega), if_pos (hdm.continues _)]
          refine digits_bind_eq_ok.mpr ⟨_, _, hdm, rfl, ?_⟩
          simp only
          rw [if_neg (by omega), if_pos (sep_continues (by decide) (hds.continues _))]
          refine bind_eq_ok.mpr ⟨_, expectSep_eq_ok.mpr rfl, ?_⟩
          refine digits_bind_eq_ok.mpr ⟨_, _, hds, rfl, ?_⟩
          simp only
          rw [if_neg (by omega), if_pos (hf.continues r)]
          exact bind_eq_ok.mpr ⟨_, hparse, rfl⟩

theorem parseOffset_panic : parseOffset l = .error .panic ↔ Overlong 23 59 l := by
  constructor
  · intro h
    unfold parseOffset at h
    rw [digits_bind_panic] at h
    obtain ⟨hw, l, hdh, rfl, h⟩ := h
    simp only at h
    split at h
    · cases h
    rename_i hhour
    have hhour := Nat.le_of_not_lt hhour
    cases hs : eat Cu.colon l with
    | mk separated l' =>
    simp only [hs] at h
    obtain ⟨rfl, -⟩ := eat_eq hs
    split at h
    · rw [digits_bind_panic] at h
      obtain ⟨m, l, hdm, rfl, h⟩ := h
      simp only at h
      split at h
      · cases h
      rename_i hminute
      have hminute := Nat.le_of_not_lt hminute
      split at h
      · rw [bind_eq_error] at h
        obtain h | ⟨l', he, h⟩ := h
        · exact absurd h expectSep_ne_panic
        obtain rfl := expectSep_eq_ok.mp he
        rw [digits_bind_panic] at h
        obtain ⟨s, l, hds, rfl, h⟩ := h
        simp only at h
        split at h
        · cases h
        rename_i hsecond
        have hsecond := Nat.le_of_not_lt hsecond
        split at h
        · rw [bind_eq_error] at h
          obtain h | ⟨_, -, h⟩ := h
          · exact .mk separated hdh hdm hds hhour hminute hsecond (parseFraction_panic.mp h)
          · cases h
        · cases h
      · cases h
    · cases h
  · intro h
    cases h with
    | mk separated hdh hdm hds hhour hminute hsecond hhuge =>
        refine bind_eq_error.mpr (.inr ⟨_, digits_append hdh _, ?_⟩)
        simp only [eat_sep (hdm.next_ne (c := Cu.colon) (by decide) _)]
        rw [if_neg (by omega), if_pos (hdm.continues _)]
        refine bind_eq_error.mpr (.inr ⟨_, digits_append hdm _, ?_⟩)
        simp only
        rw [if_neg (by omega), if_pos (sep_continues (by decide) (hds.continues _))]
        refine bind_eq_error.mpr (.inr ⟨_, expectSep_eq_ok.mpr rfl, ?_⟩)
        refine bind_eq_error.mpr (.inr ⟨_, digits_append hds _, ?_⟩)
        simp only
        rw [if_neg (by omega), if_pos (show continues _ = true by
          cases hhuge with | mk hc _ _ => cases hc with
            | inl h => rw [h]; rfl
            | inr h => rw [h]; rfl)]
        exact bind_eq_error.mpr (.inl (parseFraction_panic.mpr hhuge))

/-! Designators. -/

/-- Characters, and none of them opens an annotation. -/
def Plain (w : Text) : Prop := ∀ c ∈ w, isSurrogate c = false ∧ c ≠ Cu.lBracket

theorem plain_nil : Plain [] := fun _ h => absurd h List.not_mem_nil

theorem Plain.append {u : Text} (hw : Plain w) (hu : Plain u) : Plain (w ++ u) := fun c hc =>
  (List.mem_append.mp hc).elim (hw c) (hu c)

theorem Plain.cons (hc : isSurrogate c = false ∧ c ≠ Cu.lBracket) (hw : Plain w) :
    Plain (c :: w) :=
  List.forall_mem_cons.mpr ⟨hc, hw⟩

theorem plain_sep (hc : isSurrogate c = false ∧ c ≠ Cu.lBracket) (separated : Bool) :
    Plain (sep c separated) := by
  cases separated with
  | false => exact plain_nil
  | true => exact plain_nil.cons hc

theorem plain_of_digits (hw : ∀ c ∈ w, isDigit c = true) : Plain w := by
  intro c hc
  have hd := hw c hc
  refine ⟨?_, isDigit_ne hd (by decide)⟩
  simp only [isDigit, Bool.and_eq_true, decide_eq_true_eq, UInt16.le_iff_toNat_le] at hd
  simp only [isSurrogate, Bool.and_eq_false_iff, decide_eq_false_iff_not, UInt16.le_iff_toNat_le]
  have h2 : c.toNat ≤ 57 := hd.2
  have h3 : (0xD800 : UInt16).toNat = 55296 := rfl
  exact .inl (by omega)

theorem Digits.plain (h : Digits n w) : Plain w :=
  plain_of_digits h.2

theorem Fraction.plain (h : Fraction w total) : Plain w := by
  cases h with
  | mk hc _ _ hds =>
      refine (plain_of_digits hds).cons ?_
      cases hc with
      | inl h => rw [h]; decide
      | inr h => rw [h]; decide

theorem Clock.plain {hour minute second total : Nat} (h : Clock w hour minute second total) :
    Plain w := by
  have hsep := plain_sep (c := Cu.colon) (by decide)
  cases h with
  | hour hh => exact hh.plain
  | minute separated hh hm => exact hh.plain.append ((hsep separated).append hm.plain)
  | second separated hh hm hs =>
      exact hh.plain.append ((hsep separated).append (hm.plain.append ((hsep separated).append hs.plain)))
  | fraction separated hh hm hs hf =>
      exact hh.plain.append ((hsep separated).append (hm.plain.append ((hsep separated).append
        (hs.plain.append hf.plain))))

theorem OffsetBody.plain (h : OffsetBody w) : Plain w := by
  cases h with
  | clock hc _ _ _ => exact hc.plain
  | dangling hh _ => exact hh.plain.append (plain_nil.cons (by decide))

theorem plain_sign (hc : IsSign c) : isSurrogate c = false ∧ c ≠ Cu.lBracket := by
  cases hc with
  | inl h => rw [h]; decide
  | inr h => rw [h]; decide

theorem toChars_plain (hw : Plain w) : toChars w = .ok w := by
  refine if_neg fun h => ?_
  obtain ⟨c, hc, hs⟩ := List.any_eq_true.mp h
  exact Bool.false_ne_true ((hw c hc).1.symm.trans hs)

theorem designator_of_body (hc : IsSign c) (hw : OffsetBody w) :
    Designator true (c :: w) ⟨false, c :: w, []⟩ := by
  cases hw with
  | clock hclock hhour hminute hsecond => exact .offset (.mk hc hclock hhour hminute hsecond)
  | dangling hdh hhour => exact .dangling rfl (.mk hc hdh hhour)

/-- Offsets are a sign and a body. -/
theorem Designator.cases (h : Designator lax w tz) :
    w = [] ∧ tz = ⟨false, [], []⟩ ∨
      (∃ c, (c = Cu.z ∨ c = Cu.zLower) ∧ w = [c] ∧ tz = ⟨true, [], []⟩) ∨
      ∃ c u, IsSign c ∧ OffsetBody u ∧ w = c :: u ∧ tz = ⟨false, w, []⟩ := by
  cases h with
  | absent => exact .inl ⟨rfl, rfl⟩
  | zulu hc => exact .inr (.inl ⟨_, hc, rfl, rfl⟩)
  | offset h =>
      cases h with
      | mk hc hclock hhour hminute hsecond =>
          exact .inr (.inr ⟨_, _, hc, .clock hclock hhour hminute hsecond, rfl, rfl⟩)
  | dangling _ h =>
      cases h with
      | mk hc hdh hhour => exact .inr (.inr ⟨_, _, hc, .dangling hdh hhour, rfl, rfl⟩)

theorem Designator.plain (h : Designator lax w tz) : Plain w := by
  obtain ⟨rfl, -⟩ | ⟨c, hc, rfl, -⟩ | ⟨c, u, hc, hu, rfl, -⟩ := h.cases
  · exact plain_nil
  · refine plain_nil.cons ?_
    cases hc with
    | inl h => rw [h]; decide
    | inr h => rw [h]; decide
  · exact hu.plain.cons (plain_sign hc)

theorem not_z_of_sign (hc : IsSign c) : ¬(c = Cu.z ∨ c = Cu.zLower) := by
  cases hc with
  | inl h => rw [h]; decide
  | inr h => rw [h]; decide

/-- What a cursor has gone over. -/
theorem take_consumed (w r : Text) : (w ++ r).take ((w ++ r).length - r.length) = w := by
  rw [List.length_append, Nat.add_sub_cancel, List.take_left]

theorem parseDesignator_eq_ok (h : parseDesignator l = .ok (tz, r)) :
    ∃ w, Designator true w tz ∧ l = w ++ r := by
  cases l with
  | nil =>
      cases h
      exact ⟨[], .absent, rfl⟩
  | cons c l =>
      simp only [parseDesignator] at h
      split at h
      · rename_i hc
        cases h
        exact ⟨[c], .zulu hc, rfl⟩
      · split at h
        · rename_i hc
          rw [bind_eq_ok] at h
          obtain ⟨⟨⟨⟩, r'⟩, ho, h⟩ := h
          obtain ⟨w, hw, rfl⟩ := parseOffset_eq_ok ho
          have htake : (c :: (w ++ r')).take ((c :: (w ++ r')).length - r'.length) = c :: w :=
            take_consumed (c :: w) r'
          simp only [htake, toChars_plain (hw.plain.cons (plain_sign hc))] at h
          cases h
          exact ⟨c :: w, designator_of_body hc hw, rfl⟩
        · cases h
          exact ⟨[], .absent, rfl⟩

theorem Designator.parse (h : Designator lax w tz) (hr : continues r = false) :
    parseDesignator (w ++ r) = .ok (tz, r) := by
  obtain ⟨rfl, rfl⟩ | ⟨c, hc, rfl, rfl⟩ | ⟨c, u, hc, hu, rfl, rfl⟩ := h.cases
  · cases r with
    | nil => rfl
    | cons c r =>
        have hb : c = Cu.lBracket := by simpa [continues] using hr
        rw [hb]
        rfl
  · exact if_pos hc
  · simp only [List.cons_append, parseDesignator]
    rw [if_neg (not_z_of_sign hc), if_pos (show c = Cu.plus ∨ c = Cu.minus from hc)]
    have htake : (c :: (u ++ r)).take ((c :: (u ++ r)).length - r.length) = c :: u :=
      take_consumed (c :: u) r
    refine bind_eq_ok.mpr ⟨_, hu.parse hr, ?_⟩
    simp only [htake]
    exact bind_eq_ok.mpr ⟨_, toChars_plain (hu.plain.cons (plain_sign hc)), rfl⟩

theorem parseDesignator_panic : parseDesignator l = .error .panic ↔
    ∃ c u, l = c :: u ∧ IsSign c ∧ Overlong 23 59 u := by
  cases l with
  | nil => exact ⟨nofun, fun ⟨_, _, h, _⟩ => nomatch h⟩
  | cons c l =>
      simp only [parseDesignator]
      split
      · rename_i hc
        refine ⟨nofun, ?_⟩
        rintro ⟨d, u, hl, hd, -⟩
        obtain ⟨rfl, rfl⟩ := List.cons.inj hl
        exact absurd hc (not_z_of_sign hd)
      · split
        · rename_i hc
          rw [bind_eq_error, parseOffset_panic]
          constructor
          · rintro (h | ⟨⟨⟨⟩, r'⟩, ho, h⟩)
            · exact ⟨c, l, rfl, hc, h⟩
            · obtain ⟨w, hw, rfl⟩ := parseOffset_eq_ok ho
              have htake : (c :: (w ++ r')).take ((c :: (w ++ r')).length - r'.length) = c :: w :=
                take_consumed (c :: w) r'
              simp only [htake, toChars_plain (hw.plain.cons (plain_sign hc))] at h
              cases h
          · rintro ⟨d, u, hl, -, hu⟩
            obtain ⟨rfl, rfl⟩ := List.cons.inj hl
            exact .inl hu
        · rename_i hc
          refine ⟨nofun, ?_⟩
          rintro ⟨d, u, hl, hd, -⟩
          obtain ⟨rfl, rfl⟩ := List.cons.inj hl
          exact absurd hd hc

end Slag.Temporal
