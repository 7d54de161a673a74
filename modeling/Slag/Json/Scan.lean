import Slag.Json.Grammar
import Slag.Lib.Returns

/-!
White space, strings and numbers: what the parser reads is what the grammar has.
-/

namespace Slag.Json

open Crux

variable {l r : Text}

theorem eat_eq_some {unit : UInt16} : eat unit l = some r ↔ l = unit :: r := by
  cases l with
  | nil => exact ⟨nofun, nofun⟩
  | cons c l =>
      by_cases h : c = unit
      · simp [eat, h]
      · simp [eat, h]

variable {c : UInt16} {s : JsString} {w : Text}

theorem eat_ne {unit c : UInt16} (h : c ≠ unit) (l : Text) : eat unit (c :: l) = none := if_neg h

theorem Ws.skipWs_eq (h : Ws l r) : skipWs l = skipWs r := by
  induction h with
  | nil => rfl
  | cons hc _ ih => exact (List.dropWhile_cons_of_pos hc).trans ih

theorem skipWs_cons (h : isWs c = false) (l : Text) : skipWs (c :: l) = c :: l :=
  List.dropWhile_cons_of_neg (by simp [h])

theorem Ws.skip (h : Ws l (c :: r)) (hc : isWs c = false) : skipWs l = c :: r :=
  h.skipWs_eq.trans (skipWs_cons hc r)

theorem Ws.length_le (h : Ws l r) : r.length ≤ l.length := by
  induction h with
  | nil => exact Nat.le_refl _
  | cons _ _ ih => exact Nat.le_succ_of_le ih

theorem parseHex4_eq_ok {v : UInt16} : parseHex4 l = .ok (v, r) ↔
    ∃ a b c d i j k m, l = a :: b :: c :: d :: r ∧ IsHex a i ∧ IsHex b j ∧ IsHex c k ∧ IsHex d m ∧
      v = UInt16.ofNat (((i * 16 + j) * 16 + k) * 16 + m) := by
  constructor
  · intro h
    unfold parseHex4 at h
    split at h
    · cases h
    · match l with
      | [] | [_] | [_, _] | [_, _, _] => simp at *
      | a :: b :: c :: d :: l =>
          simp only [hexLoop] at h
          split at h
          · rename_i i hi
            split at h
            · rename_i j hj
              split at h
              · rename_i k hk
                split at h
                · rename_i m hm
                  cases h
                  exact ⟨a, b, c, d, i, j, k, m, rfl, hi, hj, hk, hm, by simp⟩
                · cases h
              · cases h
            · cases h
          · cases h
  · rintro ⟨a, b, c, d, i, j, k, m, rfl, hi, hj, hk, hm, rfl⟩
    unfold IsHex at hi hj hk hm
    simp [parseHex4, hexLoop, hi, hj, hk, hm]

theorem unescape_u : unescape uU = none := by decide

theorem uBslash_ne_uQuote : uBslash ≠ uQuote := by decide

/-! Strings. -/

/-- After a backslash and a `u` come four digits. -/
theorem Chars.hex_inv (h : Chars (uBslash :: uU :: l) s r) :
    ∃ v l' t, s = v :: t ∧ parseHex4 l = .ok (v, l') ∧ l'.length < l.length ∧ Chars l' t r := by
  cases h with
  | unit _ hb _ _ => exact absurd rfl hb
  | escape hv _ =>
      rw [unescape_u] at hv
      cases hv
  | hex hi hj hk hm ht =>
      refine ⟨_, _, _, rfl, parseHex4_eq_ok.mpr ⟨_, _, _, _, _, _, _, _, rfl, hi, hj, hk, hm, rfl⟩,
        ?_, ht⟩
      simp only [List.length_cons]
      omega

theorem Chars.loop {turns : Nat} {units : Text} (h : Chars l s r) (hl : l.length ≤ turns) :
    stringLoop turns units l = .ok (units ++ s, r) := by
  induction turns generalizing units l s with
  | zero =>
      rw [List.length_eq_zero_iff.mp (Nat.le_zero.mp hl)] at h
      cases h
  | succ turns ih =>
      cases h with
      | done => simp [stringLoop]
      | @unit c l r t hq hb hc ht =>
          have hc' : ¬c ≤ 0x1F := UInt16.not_le.mpr hc
          simp only [stringLoop, hq, hb, hc', if_false, ih ht (Nat.le_of_succ_le_succ hl),
            List.append_assoc, List.singleton_append]
      | @escape c v l r t hv ht =>
          have hlt : l.length ≤ turns := by
            simp only [List.length_cons] at hl
            omega
          simp only [stringLoop, uBslash_ne_uQuote, if_false, if_true, hv, ih ht hlt,
            List.append_assoc, List.singleton_append]
      | @hex a b c d i j k m l r t hi hj hk hm ht =>
          have hlt : l.length ≤ turns := by
            simp only [List.length_cons] at hl
            omega
          have hhex : parseHex4 (a :: b :: c :: d :: l) = .ok (_, l) :=
            parseHex4_eq_ok.mpr ⟨a, b, c, d, i, j, k, m, rfl, hi, hj, hk, hm, rfl⟩
          simp only [stringLoop, uBslash_ne_uQuote, if_false, if_true, unescape_u, hhex]
          refine bind_eq_ok.mpr ⟨_, rfl, ?_⟩
          have hone : stringLoop turns (units ++ [UInt16.ofNat (((i * 16 + j) * 16 + k) * 16 + m)]) l =
              .ok (_, r) := ih ht hlt
          rw [List.append_assoc, List.singleton_append] at hone
          dsimp only
          split
          · rename_i hpair
            obtain ⟨l', rfl⟩ : ∃ l', l = uBslash :: uU :: l' :=
              ⟨l.drop 2, (List.take_append_drop 2 l).symm.trans (by rw [hpair.2]; rfl)⟩
            obtain ⟨lo, l'', t', rfl, hlo, hlen, ht'⟩ := ht.hex_inv
            refine bind_eq_ok.mpr ⟨_, hlo, ?_⟩
            dsimp only
            split
            · rw [ih ht' (by simp only [List.length_cons] at hlt; omega)]
              simp
            · exact hone
          · exact hone

theorem Chars.unique {s s' : JsString} {r' : Text} (h : Chars l s r) (h' : Chars l s' r') :
    s = s' ∧ r = r' := by
  have hloop : stringLoop l.length [] l = .ok ([] ++ s, r) := h.loop (Nat.le_refl _)
  rw [h'.loop (Nat.le_refl _)] at hloop
  cases hloop
  exact ⟨rfl, rfl⟩

/-- A number may end before these. -/
def Stops (r : Text) : Prop :=
  ∀ c ∈ r.head?, isDigit c = false ∧ c ≠ uDot ∧ c ≠ uE ∧ c ≠ uEcap

def NoDigit (r : Text) : Prop := ∀ c ∈ r.head?, isDigit c = false

theorem NoDigit.cons (h : isDigit c = false) : NoDigit (c :: r) := by
  intro d hd
  cases hd
  exact h

theorem skipDigits_append (hw : ∀ c ∈ w, isDigit c = true) (hr : NoDigit r) :
    skipDigits (w ++ r) = r := by
  unfold skipDigits
  rw [List.dropWhile_append_of_pos hw]
  cases r with
  | nil => rfl
  | cons c r => exact List.dropWhile_cons_of_neg (by simp [hr c rfl])

theorem Digits.someDigits (hw : Digits w) (hr : NoDigit r) :
    Json.someDigits (w ++ r) = .ok r := by
  unfold Json.someDigits
  rw [skipDigits_append hw.2 hr, if_neg]
  rw [List.length_append]
  have hpos := List.length_pos_of_ne_nil hw.1
  omega

theorem intPart_cons (c : UInt16) (l : Text) : intPart (c :: l) =
    if c = uZero then .ok l else if isDigit c then .ok (skipDigits (c :: l)) else unexpected (c :: l) :=
  rfl

theorem skipSign_cons (c : UInt16) (l : Text) :
    skipSign (c :: l) = if c = uPlus ∨ c = uMinus then l else c :: l := rfl

theorem expPart_cons (c : UInt16) (l : Text) : expPart (c :: l) =
    if c = uE ∨ c = uEcap then someDigits (skipSign l) else .ok (c :: l) := rfl

theorem IntText.intPart (hw : IntText w) (hr : NoDigit r) :
    Json.intPart (w ++ r) = .ok r := by
  cases hw with
  | zero => rfl
  | digits hc hdigits =>
      rw [List.cons_append, intPart_cons, if_neg hc, if_pos (hdigits.2 _ List.mem_cons_self), ← List.cons_append,
        skipDigits_append hdigits.2 hr]

theorem FracText.fracPart (hw : FracText w) (hr : NoDigit r) (hdot : ∀ c ∈ r.head?, c ≠ uDot) :
    Json.fracPart (w ++ r) = .ok r := by
  unfold Json.fracPart
  cases hw with
  | none =>
      have heat : eat uDot r = Option.none := by
        cases r with
        | nil => rfl
        | cons c r => exact eat_ne (hdot c rfl) r
      rw [List.nil_append, heat]
  | some hw =>
      rw [List.cons_append, eat_eq_some.mpr rfl]
      exact hw.someDigits hr

theorem Digits.skipSign (hw : Digits w) (r : Text) :
    Json.skipSign (w ++ r) = w ++ r := by
  cases w with
  | nil => exact absurd rfl hw.1
  | cons c w =>
      have hc := hw.2 c List.mem_cons_self
      refine if_neg ?_
      rintro (rfl | rfl) <;> revert hc <;> decide

theorem ExpText.expPart (hw : ExpText w) (hr : Stops r) :
    Json.expPart (w ++ r) = .ok r := by
  have hdigit : NoDigit r := fun c hc => (hr c hc).1
  cases hw with
  | none =>
      cases r with
      | nil => rfl
      | cons c r =>
          have hc := hr c rfl
          exact if_neg (not_or.mpr ⟨hc.2.2.1, hc.2.2.2⟩)
  | plain he hw =>
      rw [List.cons_append, expPart_cons, if_pos he, hw.skipSign r]
      exact hw.someDigits hdigit
  | signed he hc hw =>
      rw [List.cons_append, expPart_cons, if_pos he, List.cons_append, skipSign_cons, if_pos hc]
      exact hw.someDigits hdigit

theorem ExpText.noDigit (hw : ExpText w) (hr : NoDigit r) :
    NoDigit (w ++ r) ∧ ((∀ c ∈ r.head?, c ≠ uDot) → ∀ c ∈ (w ++ r).head?, c ≠ uDot) := by
  cases hw with
  | none => exact ⟨hr, id⟩
  | plain he _ | signed he _ _ =>
      refine ⟨.cons ?_, fun _ c hc => ?_⟩
      · obtain rfl | rfl := he <;> decide
      · cases hc
        obtain rfl | rfl := he <;> decide

theorem FracText.noDigit (hw : FracText w) (hr : NoDigit r) : NoDigit (w ++ r) := by
  cases hw with
  | none => exact hr
  | some _ => exact .cons (by decide)

theorem IntText.first (hw : IntText w) : ∃ c v, w = c :: v ∧ isDigit c = true := by
  cases hw with
  | zero => exact ⟨_, _, rfl, by decide⟩
  | digits _ h => exact ⟨_, _, rfl, h.2 _ List.mem_cons_self⟩

theorem digit_ne_minus (h : isDigit c = true) : c ≠ uMinus := by
  rintro rfl
  revert h
  decide

theorem NumberText.numberEnd (hw : NumberText w) (hr : Stops r) :
    Json.numberEnd (w ++ r) = .ok r := by
  have hdigit : NoDigit r := fun c hc => (hr c hc).1
  have hdot : ∀ c ∈ r.head?, c ≠ uDot := fun c hc => (hr c hc).2.1
  cases hw with
  | @mk i f e negative hi hf he =>
      have hsign : (eat uMinus ((if negative then [uMinus] else []) ++ (i ++ (f ++ e)) ++ r)).getD
          ((if negative then [uMinus] else []) ++ (i ++ (f ++ e)) ++ r) = i ++ (f ++ (e ++ r)) := by
        cases negative with
        | true => simp [eat]
        | false =>
            obtain ⟨c, v, rfl, hc⟩ := hi.first
            simp [eat, digit_ne_minus hc]
      unfold Json.numberEnd
      rw [hsign]
      have hexp := he.noDigit hdigit
      exact bind_eq_ok.mpr ⟨_, hi.intPart (hf.noDigit hexp.1),
        bind_eq_ok.mpr ⟨_, hf.fracPart hexp.1 (hexp.2 hdot), he.expPart hr⟩⟩

theorem take_consumed (w r : Text) : (w ++ r).take ((w ++ r).length - r.length) = w := by
  rw [List.length_append, Nat.add_sub_cancel, List.take_left]

theorem NumberText.parseNumber {host : Host} (hw : NumberText w) (hr : Stops r) :
    Json.parseNumber host (w ++ r) = .ok (host.numberValue w, r) :=
  bind_eq_ok.mpr ⟨_, hw.numberEnd hr, by rw [take_consumed]; rfl⟩

theorem NumberText.first (hw : NumberText w) :
    ∃ c v, w = c :: v ∧ (c = uMinus ∨ isDigit c = true) := by
  cases hw with
  | mk negative hi _ _ =>
      cases negative with
      | true => exact ⟨_, _, rfl, .inl rfl⟩
      | false =>
          obtain ⟨c, v, rfl, hc⟩ := hi.first
          exact ⟨_, _, rfl, .inr hc⟩

end Slag.Json
