import Slag.Regexp.Braces

/-!
Decimal escapes against the grammar: a run of digits is a backreference where the
pattern has so many groups. The parser goes by one digit or by two.
-/

namespace Slag.Regexp

/-- Whether a group that goes on so is a capturing group. -/
def opensCapture (rest : List Nat) : Bool :=
  rest[0]? != some 0x3F ||
    (rest[1]? == some 0x3C && rest[2]? != some 0x3D && rest[2]? != some 0x21)

/-- Where the count of groups is: in the text of the pattern, in a group's name,
or some classes deep. -/
inductive Place where
  | text
  | name
  | cls (depth : Nat)

/-- The place after an atom that no backslash escapes. Only under `v` do classes nest. -/
def Place.next (v : Bool) (a : Nat) (rest : List Nat) : Place → Place
  | .name => if a = 0x3E then .text else .name
  | .text =>
      if a = 0x5B then .cls 0
      else if a = 0x28 ∧ opensCapture rest ∧ rest[0]? = some 0x3F then .name
      else .text
  | .cls depth =>
      if a = 0x5D then
        match depth with
        | 0 => .text
        | depth + 1 => .cls depth
      else if a = 0x5B ∧ v then .cls (depth + 1)
      else .cls depth

def Place.opens (a : Nat) (rest : List Nat) : Place → Nat
  | .text => if a = 0x28 ∧ opensCapture rest then 1 else 0
  | _ => 0

def Place.escapes (a : Nat) : Place → Bool
  | .name => false
  | _ => a == 0x5C

/-- The number of capturing groups of a pattern. -/
def groupCount (v : Bool) : Place → List Nat → Nat
  | _, [] => 0
  | place, a :: rest =>
      if place.escapes a then
        match rest with
        | [] => 0
        | _ :: rest => groupCount v place rest
      else place.opens a rest + groupCount v (place.next v a rest) rest

/-- The octal digits that a legacy octal escape takes of some digits. -/
def legacyOctal (D : List Nat) : List Nat :=
  (D.takeWhile isOctalDigit).take (if D.headD 0 ≤ 0x33 then 3 else 2)

def octalValue (value : Nat) (digits : List Nat) : Nat :=
  digits.foldl (fun value d => value * 8 + (d - 0x30)) value

/-- The character a decimal escape of legacy mode stands for where there are not
so many groups, and what of the digits is left. -/
def legacyDecimal (D : List Nat) : Nat × List Nat :=
  if D.headD 0 = 0x38 ∨ D.headD 0 = 0x39 then (D.headD 0, D.tail)
  else (octalValue 0 (legacyOctal D), D.drop (legacyOctal D).length)

/-- The parser resolves the digits after a backslash as the grammar does for a
pattern with `n` groups. -/
def DecimalMeets (env : Surroundings) (n : Nat) (p : Parser) (D rest : List Nat) : Prop :=
  if digitsValue 0 D ≤ n then
    parseBackslash env p = .ok (.backref [digitsValue 0 D] p.ignoreCase, { p with rest := rest })
  else if p.unicode then ∃ message, parseBackslash env p = .error (.rejected message)
  else
    parseBackslash env p = .ok (charNode env.tables p (legacyDecimal D).1,
      { p with rest := (legacyDecimal D).2 ++ rest })

/-- With `count` groups found by the pre-scan and `n` in the pattern: a backreference
of at most two digits, or an escape whose first digit is above the count. -/
def DecimalExact (count n : Nat) (D : List Nat) : Prop :=
  (digitsValue 0 D ≤ n ∧ D.length ≤ 2 ∧ digitsValue 0 D ≤ count) ∨
    (n < digitsValue 0 D ∧ count < D.headD 0 - 0x30)

section

variable {p : Parser} {D E rest : List Nat} {d count n : Nat}

theorem octalDigits_eq (value remaining : Nat) (atoms : List Nat) :
    octalDigits value remaining atoms =
      (octalValue value ((atoms.takeWhile isOctalDigit).take remaining),
        atoms.drop ((atoms.takeWhile isOctalDigit).take remaining).length) := by
  induction remaining generalizing value atoms with
  | zero => cases atoms <;> rfl
  | succ remaining ih =>
      cases atoms with
      | nil => rfl
      | cons d atoms =>
          rw [octalDigits]
          by_cases hd : isOctalDigit d = true
          · rw [if_pos hd, ih, List.takeWhile_cons_of_pos hd]
            rfl
          · rw [if_neg hd, List.takeWhile_cons_of_neg hd]
            rfl

theorem isDigit_iff : isDigit d = true ↔ 0x30 ≤ d ∧ d ≤ 0x39 := by
  simp only [isDigit, Bool.and_eq_true, decide_eq_true_eq]

theorem isOctalDigit_iff : isOctalDigit d = true ↔ 0x30 ≤ d ∧ d ≤ 0x37 := by
  simp only [isOctalDigit, Bool.and_eq_true, decide_eq_true_eq]

theorem isDigit_of_octal (h : isOctalDigit d = true) : isDigit d = true := by
  rw [isOctalDigit_iff] at h
  rw [isDigit_iff]
  omega

theorem takeWhile_octal (hrest : rest.head?.any isDigit = false) (E : List Nat) :
    (E ++ rest).takeWhile isOctalDigit = E.takeWhile isOctalDigit := by
  induction E with
  | nil =>
      cases rest with
      | nil => rfl
      | cons a rest =>
          have ha : ¬ isOctalDigit a = true := by
            intro hoctal
            have hdigit : isDigit a = false := hrest
            rw [isDigit_of_octal hoctal] at hdigit
            cases hdigit
          rw [List.nil_append, List.takeWhile_cons_of_neg ha, List.takeWhile_nil]
  | cons d E ih =>
      rw [List.cons_append]
      by_cases hd : isOctalDigit d = true
      · rw [List.takeWhile_cons_of_pos hd, List.takeWhile_cons_of_pos hd, ih]
      · rw [List.takeWhile_cons_of_neg hd, List.takeWhile_cons_of_neg hd]

/-- The octal escape takes what the grammar lets it take. -/
theorem octalEscape_eq (hp : p.rest = E ++ rest) (hrest : rest.head?.any isDigit = false)
    (hoctal : isOctalDigit d = true) :
    octalEscape p (d - 0x30) = (octalValue 0 (legacyOctal (d :: E)),
      { p with rest := (d :: E).drop (legacyOctal (d :: E)).length ++ rest }) := by
  have hd := (isOctalDigit_iff.mp hoctal).1
  have hmore : (if d - 0x30 ≤ 3 then 2 else 1) + 1 = if d ≤ 0x33 then 3 else 2 := by
    split <;> split <;> omega
  have hlegacy : legacyOctal (d :: E) =
      d :: (E.takeWhile isOctalDigit).take (if d - 0x30 ≤ 3 then 2 else 1) := by
    rw [legacyOctal, List.takeWhile_cons_of_pos hoctal, List.headD_cons, ← hmore,
      List.take_succ_cons]
  have hlength : ((E.takeWhile isOctalDigit).take (if d - 0x30 ≤ 3 then 2 else 1)).length ≤
      E.length :=
    Nat.le_trans (List.length_take_le' _ _) (List.takeWhile_sublist isOctalDigit).length_le
  rw [octalEscape, hp, octalDigits_eq, takeWhile_octal hrest, hlegacy, List.length_cons,
    List.drop_succ_cons, List.drop_append_of_le_length hlength]
  simp only [octalValue, List.foldl_cons, Nat.zero_mul, Nat.zero_add]

theorem parseBackslash_digit (env : Surroundings) (hd : isDigit d = true) (hzero : d ≠ 0x30)
    (hp : p.rest = 0x5C :: (d :: E ++ rest)) :
    parseBackslash env p = decimalEscape env { p with rest := E ++ rest } d := by
  have hskip : p.skip 2 = { p with rest := E ++ rest } := by
    rw [Parser.skip, hp]
    rfl
  have hatom : p.peekAt 1 = some d := by
    rw [Parser.peekAt, hp]
    rfl
  have hrange := isDigit_iff.mp hd
  have hclass : escapePredicate d = none := by
    unfold escapePredicate
    rw [if_neg (by omega), if_neg (by omega), if_neg (by omega)]
  rw [parseBackslash, hatom, hskip]
  simp only [hclass]
  rw [if_neg (by omega), if_neg (by omega), if_neg (by omega), parseAtomEscape, if_neg hzero,
    if_pos hd]

theorem charNode_ne_backref (tables : UnicodeTables) (q : Parser) (c : Nat) (indices : List Nat)
    (fold : Bool) : charNode tables q c ≠ .backref indices fold := by
  unfold charNode
  split <;> exact nofun

/-- A first digit within the count makes a backreference, of two digits where there
are so many groups. -/
theorem decimalEscape_group (env : Surroundings) (hE : ∀ e ∈ E, isDigit e = true)
    (hrest : rest.head?.any isDigit = false) (hgroup : d - 0x30 ≤ p.totalGroups) :
    ∃ v F, decimalEscape env { p with rest := E ++ rest } d =
        .ok (.backref [v] p.ignoreCase, { p with rest := F ++ rest }) ∧
      (F = [] ∧ v = digitsValue 0 (d :: E) ↔
        E.length ≤ 1 ∧ digitsValue 0 (d :: E) ≤ p.totalGroups) := by
  have hone : digitsValue 0 [d] = d - 0x30 := by
    simp only [digitsValue, List.foldl_cons, List.foldl_nil]
    omega
  have htwoDigits : ∀ e, digitsValue 0 [d, e] = (d - 0x30) * 10 + (e - 0x30) := by
    intro e
    simp only [digitsValue, List.foldl_cons, List.foldl_nil]
    omega
  rw [decimalEscape, if_pos hgroup]
  cases E with
  | nil =>
      refine ⟨d - 0x30, [], ?_, ?_⟩
      · cases rest with
        | nil => rfl
        | cons a rest =>
            have ha : isDigit a = false := hrest
            simp only [Parser.peek, List.nil_append, List.head?_cons, ha, Bool.false_eq_true,
              false_and, if_false]
      · rw [hone]
        exact iff_of_true ⟨rfl, rfl⟩ ⟨Nat.zero_le 1, hgroup⟩
  | cons e E =>
      have he := hE e List.mem_cons_self
      by_cases htwo : (d - 0x30) * 10 + (e - 0x30) ≤ p.totalGroups
      · refine ⟨(d - 0x30) * 10 + (e - 0x30), E, ?_, ?_⟩
        · simp only [Parser.peek, List.cons_append, List.head?_cons, he, htwo, and_self, if_true]
          rfl
        · constructor
          · rintro ⟨rfl, _⟩
            refine ⟨Nat.le_refl 1, ?_⟩
            rw [htwoDigits]
            exact htwo
          · rintro ⟨hlength, _⟩
            have hE : E = [] := List.eq_nil_of_length_eq_zero (Nat.le_zero.mp
              (Nat.le_of_succ_le_succ hlength))
            subst hE
            exact ⟨rfl, (htwoDigits e).symm⟩
      · refine ⟨d - 0x30, e :: E, ?_, ?_⟩
        · simp only [Parser.peek, List.cons_append, List.head?_cons, htwo, and_false, if_false]
        · refine iff_of_false (fun h => List.cons_ne_nil _ _ h.1) ?_
          rintro ⟨hlength, hvalue⟩
          have hE : E = [] := List.eq_nil_of_length_eq_zero (Nat.le_zero.mp
            (Nat.le_of_succ_le_succ hlength))
          subst hE
          rw [htwoDigits] at hvalue
          exact htwo hvalue

/-- A decimal escape of a pattern with `count` groups by the pre-scan. -/
theorem decimalEscape_meets_iff (env : Surroundings) {p : Parser} (hD : IsDigits D)
    (hzero : D.headD 0 ≠ 0x30) (hrest : rest.head?.any isDigit = false)
    (hp : p.rest = 0x5C :: (D ++ rest)) (n : Nat) :
    DecimalMeets env n p D rest ↔ DecimalExact p.totalGroups n D := by
  obtain ⟨hne, hall⟩ := hD
  cases D with
  | nil => exact absurd rfl hne
  | cons d E =>
      obtain ⟨hd, hE⟩ := List.forall_mem_cons.mp hall
      have hescape := parseBackslash_digit env hd hzero hp
      unfold DecimalMeets DecimalExact
      rw [hescape]
      rw [List.headD_cons, List.length_cons]
      by_cases hgroup : d - 0x30 ≤ p.totalGroups
      · obtain ⟨v, F, hresult, hwhole⟩ := decimalEscape_group env hE hrest hgroup
        rw [hresult]
        by_cases hvalue : digitsValue 0 (d :: E) ≤ n
        · rw [if_pos hvalue]
          have hsame : (Except.ok (Node.backref [v] p.ignoreCase, { p with rest := F ++ rest }) :
                Except Failure (Node × Parser)) =
              .ok (.backref [digitsValue 0 (d :: E)] p.ignoreCase, { p with rest := rest }) ↔
              F = [] ∧ v = digitsValue 0 (d :: E) := by
            simp only [Except.ok.injEq, Prod.mk.injEq, Node.backref.injEq, List.cons.injEq,
              and_true, Parser.mk.injEq, List.append_left_eq_self]
            exact And.comm
          rw [hsame, hwhole]
          omega
        · rw [if_neg hvalue]
          refine iff_of_false ?_ (by omega)
          split
          · exact fun ⟨_, h⟩ => nomatch h
          · intro h
            have hnode := (Prod.mk.inj (Except.ok.inj h)).1
            exact charNode_ne_backref _ _ _ _ _ hnode.symm
      · have hlow : d - 0x30 ≤ digitsValue 0 (d :: E) := by
          have hle := le_digitsValue (0 * 10 + (d - 0x30)) E
          simp only [digitsValue, List.foldl_cons] at hle ⊢
          omega
        by_cases hvalue : digitsValue 0 (d :: E) ≤ n
        · rw [if_pos hvalue]
          refine iff_of_false ?_ (by omega)
          rw [decimalEscape, if_neg hgroup]
          split
          · exact fun h => nomatch h
          · split
            · intro h
              exact charNode_ne_backref _ _ _ _ _ (Prod.mk.inj (Except.ok.inj h)).1
            · intro h
              exact charNode_ne_backref _ _ _ _ _ (Prod.mk.inj (Except.ok.inj h)).1
        · rw [if_neg hvalue]
          refine iff_of_true ?_ (by omega)
          rw [decimalEscape, if_neg hgroup]
          by_cases hunicode : p.unicode = true
          · rw [if_pos hunicode]
            exact ⟨_, if_pos hunicode⟩
          · have hlegacy : ¬ { p with rest := E ++ rest }.unicode = true := hunicode
            rw [if_neg hunicode, if_neg hlegacy, legacyDecimal]
            by_cases height : d = 0x38 ∨ d = 0x39
            · rw [if_pos height, List.headD_cons, if_pos height]
              rfl
            · have hoctal : isOctalDigit d = true := by
                rw [isOctalDigit_iff]
                rw [isDigit_iff] at hd
                omega
              rw [if_neg height, List.headD_cons, if_neg height,
                octalEscape_eq rfl hrest hoctal]
              rfl

theorem groupCount_escaped (v : Bool) {place : Place} {a : Nat} (h : place.escapes a = true)
    (b : Nat) (rest : List Nat) : groupCount v place (a :: b :: rest) = groupCount v place rest := by
  rw [groupCount, if_pos h]

theorem groupCount_cons (v : Bool) {place : Place} {a : Nat} (h : place.escapes a = false)
    (rest : List Nat) :
    groupCount v place (a :: rest) =
      place.opens a rest + groupCount v (place.next v a rest) rest := by
  rw [groupCount.eq_def]
  simp only [h, Bool.false_eq_true, if_false]

theorem groupCount_plain (v : Bool) {a : Nat} (hslash : a ≠ 0x5C) (hclass : a ≠ 0x5B)
    (hopen : a ≠ 0x28) (rest : List Nat) :
    groupCount v .text (a :: rest) = groupCount v .text rest := by
  have hescapes : Place.text.escapes a = false := beq_eq_false_iff_ne.mpr hslash
  have hopens : Place.text.opens a rest = 0 := if_neg fun h => hopen h.1
  have hnext : Place.text.next v a rest = .text := by
    simp only [Place.next]
    rw [if_neg hclass, if_neg fun h => hopen h.1]
  rw [groupCount_cons v hescapes, hopens, hnext, Nat.zero_add]

theorem groupCount_group (v : Bool) (h : opensCapture rest = false) :
    groupCount v .text (0x28 :: rest) = groupCount v .text rest := by
  have hescapes : Place.text.escapes 0x28 = false := rfl
  have hopens : Place.text.opens 0x28 rest = 0 := by
    simp only [Place.opens, h, Bool.false_eq_true, and_false, if_false]
  have hnext : Place.text.next v 0x28 rest = .text := by
    simp only [Place.next, h, Bool.false_eq_true, false_and, and_false, if_false]
    rfl
  rw [groupCount_cons v hescapes, hopens, hnext, Nat.zero_add]

theorem groupCount_capture (v : Bool) (h : rest[0]? ≠ some 0x3F) :
    groupCount v .text (0x28 :: rest) = 1 + groupCount v .text rest := by
  have hescapes : Place.text.escapes 0x28 = false := rfl
  have hcapture : opensCapture rest = true := by
    rw [opensCapture, bne_iff_ne.mpr h, Bool.true_or]
  have hopens : Place.text.opens 0x28 rest = 1 := if_pos ⟨rfl, hcapture⟩
  have hnext : Place.text.next v 0x28 rest = .text := by
    simp only [Place.next, h, and_false, if_false]
    rfl
  rw [groupCount_cons v hescapes, hopens, hnext]

theorem groupCount_named (v : Bool) (hahead : rest[0]? ≠ some 0x3D) (hbehind : rest[0]? ≠ some 0x21) :
    groupCount v .text (0x28 :: 0x3F :: 0x3C :: rest) = 1 + groupCount v .name rest := by
  have hescapes : Place.text.escapes 0x28 = false := rfl
  have hcapture : opensCapture (0x3F :: 0x3C :: rest) = true := by
    simp only [opensCapture, List.getElem?_cons_zero, List.getElem?_cons_succ]
    rw [bne_iff_ne.mpr hahead, bne_iff_ne.mpr hbehind]
    rfl
  have hopens : Place.text.opens 0x28 (0x3F :: 0x3C :: rest) = 1 := if_pos ⟨rfl, hcapture⟩
  have hnext : Place.text.next v 0x28 (0x3F :: 0x3C :: rest) = .name := by
    simp only [Place.next, hcapture]
    rfl
  have hname : ∀ a tail, a ≠ 0x3E → groupCount v .name (a :: tail) = groupCount v .name tail := by
    intro a tail ha
    have hstay : Place.name.next v a tail = .name := if_neg ha
    rw [groupCount_cons v rfl, hstay]
    exact Nat.zero_add _
  rw [groupCount_cons v hescapes, hopens, hnext, hname _ _ (by decide), hname _ _ (by decide)]

theorem groupCount_drop (v : Bool) {a : Nat} (h : rest[0]? = some a) (hslash : a ≠ 0x5C)
    (hclass : a ≠ 0x5B) (hopen : a ≠ 0x28) :
    groupCount v .text (rest.drop 1) = groupCount v .text rest := by
  cases rest with
  | nil => cases h
  | cons b rest =>
      cases Option.some.inj h
      exact (groupCount_plain v hslash hclass hopen rest).symm

/-- A name goes up to its first `>`. -/
theorem groupCount_name (v : Bool) (rest : List Nat) :
    groupCount v .name rest =
      groupCount v .text (rest.drop ((rest.takeWhile (· != 0x3E)).length + 1)) := by
  induction rest with
  | nil => rfl
  | cons a rest ih =>
      have hescapes : Place.name.escapes a = false := rfl
      have hopens : Place.name.opens a rest = 0 := rfl
      rw [groupCount_cons v hescapes, hopens, Nat.zero_add]
      by_cases ha : a = 0x3E
      · subst ha
        rfl
      · have hnext : Place.name.next v a rest = .name := if_neg ha
        have hmore : (a :: rest).takeWhile (· != 0x3E) = a :: rest.takeWhile (· != 0x3E) :=
          List.takeWhile_cons_of_pos (bne_iff_ne.mpr ha)
        rw [hnext, ih, hmore, List.length_cons, List.drop_succ_cons]

theorem skipClass_close (rest : List Nat) : skipClass (0x5D :: rest) = rest := by
  rw [skipClass.eq_def]
  rfl

theorem skipClass_slash (b : Nat) (rest : List Nat) :
    skipClass (0x5C :: b :: rest) = skipClass rest := by
  rw [skipClass.eq_def]
  rfl

theorem skipClass_cons {a : Nat} (hclose : a ≠ 0x5D) (hslash : a ≠ 0x5C) (rest : List Nat) :
    skipClass (a :: rest) = skipClass rest := by
  rw [skipClass.eq_def]
  simp only [hclose, hslash, if_false]

/-- Without `v` a class goes up to its first `]`. -/
theorem groupCount_class (rest : List Nat) :
    groupCount false (.cls 0) rest = groupCount false .text (skipClass rest) := by
  induction rest using skipClass.induct with
  | case1 => rfl
  | case2 rest =>
      have hescapes : (Place.cls 0).escapes 0x5D = false := rfl
      have hopens : (Place.cls 0).opens 0x5D rest = 0 := rfl
      rw [groupCount_cons false hescapes, hopens, Nat.zero_add, skipClass_close]
      rfl
  | case3 => rfl
  | case4 b rest _ ih =>
      have hescapes : (Place.cls 0).escapes 0x5C = true := rfl
      rw [groupCount_escaped false hescapes, ih, skipClass_slash]
  | case5 a rest hclose hslash ih =>
      have hescapes : (Place.cls 0).escapes a = false := beq_eq_false_iff_ne.mpr hslash
      have hopens : (Place.cls 0).opens a rest = 0 := rfl
      have hnext : (Place.cls 0).next false a rest = .cls 0 := by
        simp only [Place.next]
        rw [if_neg hclose, if_neg fun h => nomatch h.2]
      rw [groupCount_cons false hescapes, hopens, hnext, Nat.zero_add, ih,
        skipClass_cons hclose hslash]

theorem length_skipClass_le (rest : List Nat) : (skipClass rest).length ≤ rest.length := by
  induction rest using skipClass.induct with
  | case1 => exact Nat.le_refl _
  | case2 rest =>
      rw [skipClass_close]
      exact Nat.le_succ _
  | case3 => exact Nat.zero_le _
  | case4 b rest _ ih =>
      rw [skipClass_slash]
      exact Nat.le_trans ih (Nat.le_add_right _ 2)
  | case5 a rest hclose hslash ih =>
      rw [skipClass_cons hclose hslash]
      exact Nat.le_succ_of_le ih

/-- The pre-scan counts from some place on as the pattern does. -/
def ScanCounts (fuel : Nat) : Prop :=
  ∀ atoms count named, atoms.length ≤ fuel →
    (scanFrom fuel atoms count named).1 = count + groupCount false .text atoms

/-- The pre-scan at a group that goes on with `?`. -/
theorem scanFrom_question {fuel : Nat} (hfuel : rest.length + 1 ≤ fuel) (ih : ScanCounts fuel)
    (count : Nat) (named : Names) :
    (scanFrom (fuel + 1) (0x28 :: 0x3F :: rest) count named).1 =
      count + groupCount false .text (0x28 :: 0x3F :: rest) := by
  have hdrop : ∀ k, (rest.drop k).length ≤ fuel := by
    intro k
    rw [List.length_drop]
    omega
  have hplain : ∀ {a} tail, a = 0x3F ∨ a = 0x3C →
      groupCount false .text (a :: tail) = groupCount false .text tail := by
    rintro a tail (rfl | rfl) <;>
      exact groupCount_plain false (by decide) (by decide) (by decide) tail
  have hscan : scanFrom (fuel + 1) (0x28 :: 0x3F :: rest) count named =
      if rest[0]? = some 0x3A ∨ rest[0]? = some 0x3D ∨ rest[0]? = some 0x21 then
        scanFrom fuel (rest.drop 1) count named
      else if rest[0]? = some 0x3C then
        if rest[1]? = some 0x3D ∨ rest[1]? = some 0x21 then
          scanFrom fuel (rest.drop 2) count named
        else
          scanFrom fuel
            ((rest.drop 1).drop (((rest.drop 1).takeWhile (· != 0x3E)).length + 1)) (count + 1)
            (named.push ((rest.drop 1).takeWhile (· != 0x3E)) (count + 1))
      else scanFrom fuel rest count named := rfl
  rw [hscan]
  by_cases hkind : rest[0]? = some 0x3A ∨ rest[0]? = some 0x3D ∨ rest[0]? = some 0x21
  · have hnot : opensCapture (0x3F :: rest) = false := by
      rcases hkind with h | h | h <;>
        simp only [opensCapture, List.getElem?_cons_zero, List.getElem?_cons_succ, h] <;>
        rfl
    have hskip : groupCount false .text (rest.drop 1) = groupCount false .text rest := by
      rcases hkind with h | h | h <;>
        exact groupCount_drop false h (by decide) (by decide) (by decide)
    rw [if_pos hkind, ih _ _ _ (hdrop 1), groupCount_group false hnot, hplain _ (.inl rfl), hskip]
  · rw [if_neg hkind]
    by_cases hangle : rest[0]? = some 0x3C
    · rw [if_pos hangle]
      cases rest with
      | nil => cases hangle
      | cons l rest =>
          cases Option.some.inj hangle
          rw [List.getElem?_cons_succ, List.drop_succ_cons, List.drop_succ_cons, List.drop_zero]
          by_cases hlook : rest[0]? = some 0x3D ∨ rest[0]? = some 0x21
          · have hnot : opensCapture (0x3F :: 0x3C :: rest) = false := by
              rcases hlook with h | h <;>
                simp only [opensCapture, List.getElem?_cons_zero, List.getElem?_cons_succ, h] <;>
                rfl
            have hskip : groupCount false .text (rest.drop 1) = groupCount false .text rest := by
              rcases hlook with h | h <;>
                exact groupCount_drop false h (by decide) (by decide) (by decide)
            have hshort : (rest.drop 1).length ≤ fuel := hdrop 2
            rw [if_pos hlook, ih _ _ _ hshort, groupCount_group false hnot,
              hplain _ (.inl rfl), hplain _ (.inr rfl), hskip]
          · obtain ⟨hahead, hbehind⟩ := not_or.mp hlook
            have hshort : (rest.drop ((rest.takeWhile (· != 0x3E)).length + 1)).length ≤ fuel := by
              rw [List.length_drop]
              rw [List.length_cons] at hfuel
              omega
            rw [if_neg hlook, ih _ _ _ hshort, groupCount_named false hahead hbehind,
              groupCount_name, Nat.add_assoc]
    · have hnot : opensCapture (0x3F :: rest) = false := by
        have hbeq : (rest[0]? == some 0x3C) = false := beq_eq_false_iff_ne.mpr hangle
        simp only [opensCapture, List.getElem?_cons_zero, List.getElem?_cons_succ, hbeq]
        rfl
      rw [if_neg hangle, ih _ _ _ (Nat.le_of_succ_le hfuel), groupCount_group false hnot,
        hplain _ (.inl rfl)]

theorem scanFrom_count (fuel : Nat) : ScanCounts fuel := by
  induction fuel with
  | zero =>
      intro atoms count named hfuel
      cases atoms with
      | nil => rfl
      | cons a rest => exact absurd hfuel (Nat.not_succ_le_zero _)
  | succ fuel ih =>
      intro atoms count named hfuel
      cases atoms with
      | nil => rfl
      | cons a rest =>
          have hrest : rest.length ≤ fuel := Nat.le_of_succ_le_succ hfuel
          by_cases hopen : a = 0x28
          · subst hopen
            by_cases hquestion : rest[0]? = some 0x3F
            · cases rest with
              | nil => cases hquestion
              | cons q rest =>
                  cases Option.some.inj hquestion
                  exact scanFrom_question hrest ih count named
            · rw [scanFrom, if_neg (by decide), if_neg (by decide), if_pos rfl,
                if_neg hquestion, ih _ _ _ hrest, groupCount_capture false hquestion,
                Nat.add_assoc]
          · rw [scanFrom]
            by_cases hslash : a = 0x5C
            · subst hslash
              have hdrop : (rest.drop 1).length ≤ fuel := by
                rw [List.length_drop]
                omega
              rw [if_pos rfl, ih _ _ _ hdrop]
              cases rest with
              | nil => rfl
              | cons b rest =>
                  have hescapes : Place.text.escapes 0x5C = true := rfl
                  rw [groupCount_escaped false hescapes]
                  rfl
            · rw [if_neg hslash]
              have hescapes : Place.text.escapes a = false := beq_eq_false_iff_ne.mpr hslash
              by_cases hclass : a = 0x5B
              · subst hclass
                rw [if_pos rfl, ih _ _ _ (Nat.le_trans (length_skipClass_le rest) hrest),
                  groupCount_cons false hescapes, ← groupCount_class]
                exact congrArg (count + ·) (Nat.zero_add _).symm
              · rw [if_neg hclass, if_neg hopen, ih _ _ _ hrest,
                  groupCount_plain false hslash hclass hopen]

/-- The pre-scan takes classes not to nest. -/
theorem scanPattern_count (atoms : List Nat) :
    (scanPattern atoms).1 = groupCount false .text atoms := by
  rw [scanPattern, scanFrom_count _ _ _ _ (Nat.le_refl _), Nat.zero_add]

/-- In a pattern whose groups are `n`, and `count` where every class ends at its first
bracket, the escape is right when it has at most two digits and names a group, or is
above `n` and its first digit above `count`. -/
theorem decimalEscapes_meet_iff (env : Surroundings) (atoms : List Nat) {p : Parser}
    {D rest : List Nat} (hcount : p.totalGroups = (scanPattern atoms).1) (hD : IsDigits D)
    (hzero : D.headD 0 ≠ 0x30) (hmaximal : rest.head?.any isDigit = false)
    (hp : p.rest = 0x5C :: (D ++ rest)) :
    DecimalMeets env (groupCount p.flags.v .text atoms) p D rest ↔
      DecimalExact (groupCount false .text atoms) (groupCount p.flags.v .text atoms) D := by
  rw [← scanPattern_count, ← hcount]
  exact decimalEscape_meets_iff env hD hzero hmaximal hp _

end

/-- `(a)\1`, at the escape. -/
theorem decimalEscapes_meet_one :
    DecimalMeets plainSurroundings (groupCount false .text [0x28, 0x61, 0x29, 0x5C, 0x31])
      { Parser.init [0x28, 0x61, 0x29, 0x5C, 0x31] {} with rest := [0x5C, 0x31] } [0x31] [] :=
  (decimalEscapes_meet_iff plainSurroundings [0x28, 0x61, 0x29, 0x5C, 0x31]
    (p := { Parser.init [0x28, 0x61, 0x29, 0x5C, 0x31] {} with rest := [0x5C, 0x31] })
    (D := [0x31]) rfl ⟨by decide, by decide⟩ (by decide) rfl rfl).mpr
      (.inl ⟨by decide, by decide, by decide⟩)

/-- `(a)\12` has one group, and in unicode mode the parser accepts it. -/
theorem decimalEscape_above_count :
    (¬ DecimalMeets plainSurroundings (groupCount false .text [0x28, 0x61, 0x29, 0x5C, 0x31, 0x32])
      { Parser.init [0x28, 0x61, 0x29, 0x5C, 0x31, 0x32] { u := true } with
        rest := [0x5C, 0x31, 0x32] }
      [0x31, 0x32] []) ∧
    (parseAndValidate plainSurroundings ("(a)\\12".toList.map fun c => c.toNat.toUInt16)
      { u := true }).isOk = true := by
  refine ⟨?_, by decide +kernel⟩
  intro h
  have hexact := (decimalEscape_meets_iff plainSurroundings ⟨by decide, by decide⟩ (by decide)
    rfl rfl _).mp h
  rw [DecimalExact] at hexact
  exact absurd hexact (by decide)

end Slag.Regexp
