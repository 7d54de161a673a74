import Mathlib.Data.List.Sort
import Mathlib.Data.List.Dedup
import Slag.Regexp.Engine

/-!
The compile-time analysis behind the search prefilter: range lists, the
preimages of case folding, and the characters a match can begin with.
-/

namespace Slag.Regexp

open Ctx (rangesContain)

abbrev Ranges := List (Nat × Nat)

/-- Append a member, the last range first. -/
def pushMember (out : Ranges) (cp : Nat) : Ranges :=
  match out with
  | (s, e) :: rest => if cp = e + 1 then (s, cp) :: rest else (cp, cp) :: (s, e) :: rest
  | [] => [(cp, cp)]

/-- Compress a member list into inclusive ranges. -/
def rangesOf (members : List Nat) : Ranges :=
  ((members.insertionSort (· ≤ ·)).dedup.foldl pushMember []).reverse

/-- Append a range, the last one first, merging it with the last where they touch. -/
def pushRange (merged : Ranges) (range : Nat × Nat) : Ranges :=
  match merged with
  | (s, e) :: rest =>
      if range.1 ≤ e + 1 then (s, max e range.2) :: rest else range :: (s, e) :: rest
  | [] => [range]

/-- The order of pairs. -/
def rangeLe (a b : Nat × Nat) : Prop :=
  a.1 < b.1 ∨ a.1 = b.1 ∧ a.2 ≤ b.2

instance : DecidableRel rangeLe := fun _ _ => inferInstanceAs (Decidable (_ ∨ _))

/-- Union of two range lists into one sorted, merged list. -/
def rangesUnion (a b : Ranges) : Ranges :=
  (((a ++ b).insertionSort rangeLe).foldl pushRange []).reverse

/-- The table of the canonical forms of some code points, each with its preimage. -/
def foldTable (canonicalize : Nat → Nat) (members : List Nat) : List (Nat × Ranges) :=
  ((members.map canonicalize).insertionSort (· ≤ ·)).dedup.map fun canonical =>
    (canonical, rangesOf ((members.filter fun cp => canonicalize cp == canonical) ++ [canonical]))

/-- A form that is not in the table is the form of itself alone. -/
def lookupClass (table : List (Nat × Ranges)) (canonical : Nat) : Ranges :=
  match table.find? fun entry => entry.1 == canonical with
  | some entry => entry.2
  | none => [(canonical, canonical)]

namespace UnicodeTables

variable (tables : UnicodeTables)

def canonicalize (unicode : Bool) (cp : Nat) : Nat :=
  if unicode then tables.simpleCaseFold cp else tables.nonUnicodeCanonicalize cp

/-- The effective membership of a predicate when scanning a class. -/
def predEffective (pred : Predicate) (fold unicode : Bool) (cp : Nat) : Bool :=
  match pred with
  | .word =>
      isAsciiWordChar cp ||
        (fold && unicode && isAsciiWordChar (tables.canonicalize true cp))
  | pred => Ctx.predicateMatches ⟨tables, [], unicode⟩ pred cp

def scanPredicate (pred : Predicate) (fold unicode : Bool) : Ranges :=
  rangesOf ((List.range 0x110000).flatMap fun cp =>
    if tables.predEffective pred fold unicode cp then
      if fold then [cp, tables.canonicalize unicode cp] else [cp]
    else [])

/-- The ranges of a predicate; the source computes them once per predicate. -/
def predicateRanges (pred : Predicate) : Ranges :=
  tables.scanPredicate pred false false

/-- The code points the build script finds to fold to something else. -/
def foldedMembers (unicode : Bool) : List Nat :=
  (List.range 0x110000).filter fun cp => tables.canonicalize unicode cp != cp

/-- The reverse fold index the build script generates: canonical code point to
the ranges that fold to it. -/
def foldClasses (unicode : Bool) : List (Nat × Ranges) :=
  foldTable (tables.canonicalize unicode) (tables.foldedMembers unicode)

/-- The fold equivalence class of a code point. -/
def foldClass (cp : Nat) (unicode : Bool) : Ranges :=
  lookupClass (tables.foldClasses unicode) (tables.canonicalize unicode cp)

end UnicodeTables

namespace Node

/-- Zero-width terms that a sequence's analysis passes over. -/
def isTransparent : Node → Bool
  | .empty | .start _ | .finish _ | .wordBoundary _ | .notWordBoundary _ | .lookahead _ _
  | .lookbehind _ _ => true
  | _ => false

end Node

section

variable (tables : UnicodeTables) (unicode : Bool)

/-- The leading set of a folded class, refused when it has too many members. -/
def foldedRanges : Ranges → Nat → Ranges → Option Ranges
  | [], _, acc => some acc
  | (s, e) :: ranges, members, acc =>
      let members := members + (e - s + 1)
      if 4096 < members then none
      else
        foldedRanges ranges members ((List.range' s (e + 1 - s)).foldl
          (fun acc cp => rangesUnion acc (tables.foldClass cp unicode)) acc)

def firstCharClass (cls : CharClass) : Option Ranges :=
  if cls.negated || !cls.strings.isEmpty then none
  else if cls.fold then
    match cls.predicate with
    | some _ => none
    | none => foldedRanges tables unicode cls.ranges 0 []
  else
    match cls.predicate with
    | some pred =>
        let ranges := tables.predicateRanges pred
        if ranges = [(0, 0x10FFFF)] then none else some ranges
    | none => some cls.ranges

mutual

/-- Whether a node can match the empty string, and the code points its first
consumed character can be, none when it is unconstrained. -/
def firstCharAnalysis : Node → Bool × Option Ranges
  | .sequence nodes => firstCharAnalysisSeq [] nodes
  | .alternate alts => firstCharAnalysisAlts [] false alts
  | .empty => (true, none)
  | .char cp fold => (false, some (if fold then tables.foldClass cp unicode else [(cp, cp)]))
  | .any _ => (false, none)
  | .start _ | .finish _ | .wordBoundary _ | .notWordBoundary _ => (true, none)
  | .charClass cls => (false, firstCharClass tables unicode cls)
  | .repeated node min _ _ _ =>
      let (atomEmpty, set) := firstCharAnalysis node
      (if min = 0 then true else atomEmpty, set)
  | .capture _ node => firstCharAnalysis node
  | .backref _ _ => (false, none)
  | .lookahead _ _ | .lookbehind _ _ => (true, none)

def firstCharAnalysisSeq (acc : Ranges) : List Node → Bool × Option Ranges
  | [] => (true, none)
  | node :: nodes =>
      if node.isTransparent then firstCharAnalysisSeq acc nodes
      else
        match firstCharAnalysis node with
        | (true, some s) => firstCharAnalysisSeq (rangesUnion acc s) nodes
        | (false, some s) => (false, some (rangesUnion acc s))
        | (_, none) => (false, none)

def firstCharAnalysisAlts (acc : Ranges) (anyEmpty : Bool) :
    List (List Node) → Bool × Option Ranges
  | [] => (anyEmpty, some acc)
  | alt :: alts =>
      match firstCharAnalysisSeq [] alt with
      | (canEmpty, some s) => firstCharAnalysisAlts (rangesUnion acc s) (anyEmpty || canEmpty) alts
      | (canEmpty, none) => (anyEmpty || canEmpty, none)

end

theorem firstCharAnalysis_capture (index : Nat) (node : Node) :
    firstCharAnalysis tables unicode (.capture index node) =
      firstCharAnalysis tables unicode node := by
  rw [firstCharAnalysis]

/-- The first units of the code points of some ranges. -/
def leadUnits : Ranges → Option Ranges
  | [] => some []
  | (a, b) :: cps =>
      let low := if a ≤ 0xFFFF then [(a, min b 0xFFFF)] else []
      if 0xFFFF < b then
        if !unicode then none
        else
          let lo := 0xD800 + (max a 0x10000 - 0x10000) / 0x400
          let hi := 0xD800 + (b - 0x10000) / 0x400
          (leadUnits cps).map fun units => low ++ (lo, hi) :: units
      else (leadUnits cps).map fun units => low ++ units

/-- The units any match must begin with, none when the pattern can match empty
or its first character is unconstrained. -/
def searchPrefilter (program : Node) : Option Ranges :=
  match firstCharAnalysis tables unicode program with
  | (true, _) => none
  | (false, cps) => (cps.bind (leadUnits unicode)).map fun units => rangesUnion units []

end

/-- The regex a parsed program compiles to. -/
def Regex.compile (tables : UnicodeTables) (unicode : Bool) (program : Node) (groups : Nat) :
    Regex where
  program := program
  unicode := unicode
  capturingGroups := groups
  backrefFree := program.isBackrefFree
  memoSafe := memoSafeAtoms [] true program
  prefilter := searchPrefilter tables unicode program

section

variable {c : Nat}

theorem rangesContain_iff {ranges : Ranges} :
    rangesContain ranges c = true ↔ ∃ range ∈ ranges, range.1 ≤ c ∧ c ≤ range.2 := by
  simp only [rangesContain, List.any_eq_true, Bool.and_eq_true, decide_eq_true_eq]

theorem rangesContain_cons {range : Nat × Nat} {ranges : Ranges} :
    rangesContain (range :: ranges) c = true ↔
      range.1 ≤ c ∧ c ≤ range.2 ∨ rangesContain ranges c = true := by
  simp only [rangesContain_iff, List.mem_cons, exists_eq_or_imp]

theorem rangesContain_append {a b : Ranges} :
    rangesContain (a ++ b) c = true ↔
      rangesContain a c = true ∨ rangesContain b c = true := by
  simp only [rangesContain_iff, List.mem_append, or_and_right, exists_or]

theorem rangesContain_reverse {ranges : Ranges} :
    rangesContain ranges.reverse c = rangesContain ranges c := by
  simp only [rangesContain, List.any_reverse]

theorem rangesContain_foldl_pushMember (members : List Nat) {out : Ranges}
    (hout : ∀ range ∈ out, range.1 ≤ range.2)
    (h : c ∈ members ∨ rangesContain out c = true) :
    rangesContain (members.foldl pushMember out) c = true := by
  induction members generalizing out with
  | nil => exact h.resolve_left List.not_mem_nil
  | cons cp members ih =>
      have hnext : (∀ range ∈ pushMember out cp, range.1 ≤ range.2) ∧
          (c = cp ∨ rangesContain out c = true →
            rangesContain (pushMember out cp) c = true) := by
        unfold pushMember
        split
        · rename_i s e rest
          obtain ⟨hse, hrest⟩ := List.forall_mem_cons.mp hout
          split
          · rename_i hcp
            refine ⟨List.forall_mem_cons.mpr ⟨by simp only at hse ⊢; omega, hrest⟩, ?_⟩
            simp only [rangesContain_cons] at hse ⊢
            rintro (rfl | hin | hin)
            · exact .inl ⟨by omega, Nat.le_refl _⟩
            · exact .inl ⟨hin.1, by omega⟩
            · exact .inr hin
          · refine ⟨List.forall_mem_cons.mpr ⟨Nat.le_refl _, hout⟩, ?_⟩
            refine fun hin => rangesContain_cons.mpr ?_
            rcases hin with rfl | hin
            · exact .inl ⟨Nat.le_refl _, Nat.le_refl _⟩
            · exact .inr hin
        · refine ⟨List.forall_mem_singleton.mpr (Nat.le_refl _), ?_⟩
          refine fun hin => rangesContain_cons.mpr ?_
          rcases hin with rfl | hin
          · exact .inl ⟨Nat.le_refl _, Nat.le_refl _⟩
          · exact .inr hin
      refine ih hnext.1 ?_
      rw [List.mem_cons, or_assoc] at h
      rcases h with rfl | h | h
      · exact .inr (hnext.2 (.inl rfl))
      · exact .inl h
      · exact .inr (hnext.2 (.inr h))

theorem rangesContain_rangesOf {members : List Nat} (h : c ∈ members) :
    rangesContain (rangesOf members) c = true := by
  rw [rangesOf, rangesContain_reverse]
  refine rangesContain_foldl_pushMember _ nofun (.inl ?_)
  rw [List.mem_dedup, List.mem_insertionSort]
  exact h

instance : Std.Total rangeLe where
  total a b := by
    unfold rangeLe
    omega

instance : IsTrans (Nat × Nat) rangeLe where
  trans a b c := by
    unfold rangeLe
    omega

theorem rangesContain_foldl_pushRange (ranges : Ranges) {merged : Ranges}
    (hsorted : ranges.Pairwise rangeLe)
    (hhead : ∀ last ∈ merged.head?, ∀ range ∈ ranges, last.1 ≤ range.1)
    (h : rangesContain ranges c = true ∨ rangesContain merged c = true) :
    rangesContain (ranges.foldl pushRange merged) c = true := by
  induction ranges generalizing merged with
  | nil =>
      refine h.resolve_left fun hnil => ?_
      cases hnil
  | cons range ranges ih =>
      obtain ⟨hbelow, hsorted⟩ := List.pairwise_cons.mp hsorted
      have hle : ∀ r ∈ ranges, range.1 ≤ r.1 := by
        intro r hr
        have hbelow := hbelow r hr
        unfold rangeLe at hbelow
        omega
      have hnext : (∀ last ∈ (pushRange merged range).head?, ∀ r ∈ ranges, last.1 ≤ r.1) ∧
          (range.1 ≤ c ∧ c ≤ range.2 ∨ rangesContain merged c = true →
            rangesContain (pushRange merged range) c = true) := by
        unfold pushRange
        split
        · rename_i s e rest
          have hs := hhead (s, e) rfl range List.mem_cons_self
          simp only at hs
          split
          · refine ⟨?_, ?_⟩
            · rintro _ ⟨⟩ r hr
              exact Nat.le_trans hs (hle r hr)
            · simp only [rangesContain_cons]
              rintro (hin | hin | hin)
              · exact .inl ⟨by omega, by omega⟩
              · exact .inl ⟨hin.1, by omega⟩
              · exact .inr hin
          · refine ⟨?_, ?_⟩
            · rintro _ ⟨⟩ r hr
              exact hle r hr
            · simp only [rangesContain_cons]
              exact id
        · refine ⟨?_, ?_⟩
          · rintro _ ⟨⟩ r hr
            exact hle r hr
          · simp only [rangesContain_cons]
            exact id
      refine ih hsorted hnext.1 ?_
      rw [rangesContain_cons, or_assoc] at h
      rcases h with h | h | h
      · exact .inr (hnext.2 (.inl h))
      · exact .inl h
      · exact .inr (hnext.2 (.inr h))

theorem rangesContain_rangesUnion {a b : Ranges}
    (h : rangesContain a c = true ∨ rangesContain b c = true) :
    rangesContain (rangesUnion a b) c = true := by
  rw [rangesUnion, rangesContain_reverse]
  refine rangesContain_foldl_pushRange _ (List.pairwise_insertionSort _ _) nofun (.inl ?_)
  rw [← rangesContain_append, rangesContain_iff] at h
  rw [rangesContain_iff]
  simp only [List.mem_insertionSort]
  exact h

end

section

variable {tables : UnicodeTables} {unicode : Bool} {c cp : Nat}

theorem mem_foldedMembers : c ∈ tables.foldedMembers unicode ↔
    c < 0x110000 ∧ tables.canonicalize unicode c ≠ c := by
  simp only [UnicodeTables.foldedMembers, List.mem_filter, List.mem_range, bne_iff_ne]

theorem find?_map_fst {α : Type*} (f : Nat → α) (keys : List Nat) (key : Nat) :
    (keys.map fun k => (k, f k)).find? (fun entry => entry.1 == key) =
      if key ∈ keys then some (key, f key) else none := by
  induction keys with
  | nil => rfl
  | cons k keys ih =>
      by_cases hk : k = key
      · subst hk
        simp
      · simp only [List.map_cons, List.find?_cons, beq_eq_false_iff_ne.mpr hk, ih, List.mem_cons,
          Ne.symm hk, false_or]

theorem lookupClass_contains (canonicalize : Nat → Nat) (members : List Nat)
    (hmember : c = canonicalize c ∨ c ∈ members) :
    rangesContain (lookupClass (foldTable canonicalize members) (canonicalize c)) c = true := by
  rw [lookupClass, foldTable, find?_map_fst]
  by_cases hkey : canonicalize c ∈ ((members.map canonicalize).insertionSort (· ≤ ·)).dedup
  · rw [if_pos hkey]
    refine rangesContain_rangesOf ?_
    rw [List.mem_append, List.mem_singleton, List.mem_filter]
    rcases hmember with heq | hmem
    · exact .inr heq
    · exact .inl ⟨hmem, beq_self_eq_true _⟩
  · -- No code point folds to this canonical form, so the code point is its own.
    have heq : c = canonicalize c := by
      refine hmember.resolve_right fun hmem => hkey ?_
      rw [List.mem_dedup, List.mem_insertionSort]
      exact List.mem_map_of_mem hmem
    rw [if_neg hkey, rangesContain_cons, ← heq]
    exact .inl ⟨Nat.le_refl _, Nat.le_refl _⟩

/-- A fold class holds every code point with the canonical form in question. -/
theorem foldClass_contains (h : tables.canonicalize unicode c = tables.canonicalize unicode cp)
    (hc : c < 0x110000) : rangesContain (tables.foldClass cp unicode) c = true := by
  rw [UnicodeTables.foldClass, UnicodeTables.foldClasses, ← h]
  refine lookupClass_contains (tables.canonicalize unicode) _ ?_
  by_cases heq : c = tables.canonicalize unicode c
  · exact .inl heq
  · exact .inr (mem_foldedMembers.mpr ⟨hc, Ne.symm heq⟩)

theorem foldl_foldClass_contains (members : List Nat) {acc : Ranges}
    (h : rangesContain acc c = true ∨ tables.canonicalize unicode c ∈ members)
    (hcanonical : tables.canonicalize unicode (tables.canonicalize unicode c) =
      tables.canonicalize unicode c) (hc : c < 0x110000) :
    rangesContain (members.foldl
      (fun acc cp => rangesUnion acc (tables.foldClass cp unicode)) acc) c = true := by
  induction members generalizing acc with
  | nil => exact h.resolve_right List.not_mem_nil
  | cons cp members ih =>
      refine ih ?_
      rw [List.mem_cons] at h
      rcases h with h | rfl | h
      · exact .inl (rangesContain_rangesUnion (.inl h))
      · exact .inl (rangesContain_rangesUnion (.inr (foldClass_contains hcanonical.symm hc)))
      · exact .inr h

theorem foldedRanges_contains {ranges acc set : Ranges} {members : Nat}
    (hset : foldedRanges tables unicode ranges members acc = some set)
    (h : rangesContain acc c = true ∨
      rangesContain ranges (tables.canonicalize unicode c) = true)
    (hcanonical : tables.canonicalize unicode (tables.canonicalize unicode c) =
      tables.canonicalize unicode c) (hc : c < 0x110000) :
    rangesContain set c = true := by
  induction ranges generalizing acc members with
  | nil =>
      cases hset
      refine h.resolve_right fun hnil => ?_
      cases hnil
  | cons range ranges ih =>
      obtain ⟨s, e⟩ := range
      simp only [foldedRanges] at hset
      split at hset
      · cases hset
      · refine ih hset ?_
        rw [rangesContain_cons] at h
        rcases h with h | h | h
        · exact .inl (foldl_foldClass_contains _ (.inl h) hcanonical hc)
        · refine .inl (foldl_foldClass_contains _ (.inr ?_) hcanonical hc)
          rw [List.mem_range'_1]
          omega
        · exact .inr h

theorem predicateRanges_contains {ctx : Ctx} {pred : Predicate}
    (h : ctx.predicateMatches pred c = true) (hc : c < 0x110000) :
    rangesContain (ctx.tables.predicateRanges pred) c = true := by
  refine rangesContain_rangesOf (List.mem_flatMap.mpr ⟨c, List.mem_range.mpr hc, ?_⟩)
  have heffective : ctx.tables.predEffective pred false false c = ctx.predicateMatches pred c := by
    cases pred with
    | word => simp only [UnicodeTables.predEffective, Bool.false_and, Bool.or_false]; rfl
    | _ => rfl
  rw [heffective, h]
  exact List.mem_singleton_self c

end

namespace Ctx

variable {ctx : Ctx} {pos c len : Nat} {dir : Direction}

/-- Case folding leads to a form that folding leaves alone. -/
def Canonical (ctx : Ctx) : Prop :=
  ∀ cp, ctx.canonicalize ctx.unicode (ctx.canonicalize ctx.unicode cp) =
    ctx.canonicalize ctx.unicode cp

theorem firstChar_charTest {cp : Nat} {fold : Bool} (hcanonical : ctx.Canonical)
    (h : ctx.charTest cp fold c = true) (hc : c < 0x110000) :
    rangesContain (if fold then ctx.tables.foldClass cp ctx.unicode else [(cp, cp)]) c = true := by
  rw [charTest, beq_iff_eq] at h
  cases fold with
  | true =>
      obtain rfl : ctx.tables.canonicalize ctx.unicode c = cp := h
      have hform : ctx.tables.canonicalize ctx.unicode c =
          ctx.tables.canonicalize ctx.unicode (ctx.tables.canonicalize ctx.unicode c) :=
        (hcanonical c).symm
      rw [if_pos rfl]
      exact foldClass_contains hform hc
  | false =>
      obtain rfl : c = cp := h
      exact rangesContain_cons.mpr (.inl ⟨Nat.le_refl _, Nat.le_refl _⟩)

theorem firstChar_classMatches {cls : CharClass} {set : Ranges} (hcanonical : ctx.Canonical)
    (hset : firstCharClass ctx.tables ctx.unicode cls = some set)
    (h : ctx.classMatches cls pos c dir = true) (hc : c < 0x110000) :
    rangesContain set c = true := by
  simp only [firstCharClass] at hset
  split at hset
  · cases hset
  · rename_i hplain
    simp only [Bool.or_eq_true, Bool.not_eq_true', List.isEmpty_eq_false_iff, not_or,
      Bool.not_eq_true, ne_eq, not_not] at hplain
    simp only [classMatches, hplain.1, hplain.2, List.any_nil, Bool.or_false, Bool.bne_false] at h
    cases hfold : cls.fold with
    | true =>
        simp only [hfold, if_true] at h hset
        cases hpred : cls.predicate with
        | some pred =>
            simp only [hpred] at hset
            cases hset
        | none =>
            simp only [hpred] at h hset
            exact foldedRanges_contains hset (.inr h) (hcanonical c) hc
    | false =>
        simp only [hfold, Bool.false_eq_true, if_false] at h hset
        cases hpred : cls.predicate with
        | some pred =>
            simp only [hpred] at h hset
            split at hset
            · cases hset
            · obtain rfl := Option.some.inj hset
              exact predicateRanges_contains h hc
        | none =>
            simp only [hpred] at h hset
            cases hset
            exact h

/-- The unit a character that is read begins with. -/
theorem readChar_lead (h : ctx.readChar pos = some (c, len)) :
    ∃ unit, ctx.unit pos = some unit ∧ c < 0x110000 ∧
      (c = unit ∧ c ≤ 0xFFFF ∨
        ctx.unicode = true ∧ 0xFFFF < c ∧ unit = 0xD800 + (c - 0x10000) / 0x400) := by
  have hunit : ∀ i u, ctx.unit i = some u → u ≤ 0xFFFF := by
    intro i u hu
    obtain ⟨v, -, rfl⟩ := Option.map_eq_some_iff.mp hu
    exact Nat.le_of_lt_succ v.toNat_lt
  unfold readChar at h
  split at h
  · rename_i hunicode
    unfold codePointAt at h
    split at h
    · cases h
    · rename_i hi hhi
      have hbound : hi ≤ 0xFFFF := hunit pos hi hhi
      split at h
      · rename_i hsurrogate
        split at h
        · rename_i lo hlo
          split at h
          · rename_i hlow
            obtain ⟨rfl, rfl⟩ := Prod.mk.inj (Option.some.inj h)
            exact ⟨hi, hhi, by omega, .inr ⟨hunicode, by omega, by omega⟩⟩
          · cases h
            exact ⟨c, hhi, by omega, .inl ⟨rfl, hbound⟩⟩
        · cases h
          exact ⟨c, hhi, by omega, .inl ⟨rfl, hbound⟩⟩
      · cases h
        exact ⟨c, hhi, by omega, .inl ⟨rfl, hbound⟩⟩
  · obtain ⟨u, hu, heq⟩ := Option.map_eq_some_iff.mp h
    cases heq
    have hbound := hunit pos c hu
    exact ⟨c, hu, by omega, .inl ⟨rfl, hbound⟩⟩

theorem leadUnits_contains {cps units : Ranges} {unit : Nat}
    (hunits : leadUnits ctx.unicode cps = some units) (h : rangesContain cps c = true)
    (hlead : c = unit ∧ c ≤ 0xFFFF ∨
      ctx.unicode = true ∧ 0xFFFF < c ∧ unit = 0xD800 + (c - 0x10000) / 0x400) :
    rangesContain units unit = true := by
  induction cps generalizing units with
  | nil => cases h
  | cons range cps ih =>
      obtain ⟨a, b⟩ := range
      rw [rangesContain_cons] at h
      simp only [leadUnits] at hunits
      split at hunits
      · rename_i hb
        split at hunits
        · cases hunits
        · obtain ⟨rest, hrest, rfl⟩ := Option.map_eq_some_iff.mp hunits
          rw [rangesContain_append, rangesContain_cons]
          rcases h with ⟨hac, hcb⟩ | h
          · rcases hlead with ⟨rfl, hlow⟩ | ⟨-, hhigh, rfl⟩
            · left
              simp only at hac hcb
              rw [if_pos (by omega), rangesContain_cons]
              left
              simp only
              omega
            · right
              left
              simp only at hac hcb ⊢
              refine ⟨Nat.add_le_add_left (Nat.div_le_div_right ?_) _,
                Nat.add_le_add_left (Nat.div_le_div_right ?_) _⟩ <;> omega
          · exact .inr (.inr (ih hrest h))
      · obtain ⟨rest, hrest, rfl⟩ := Option.map_eq_some_iff.mp hunits
        rw [rangesContain_append]
        rcases h with ⟨hac, hcb⟩ | h
        · rcases hlead with ⟨rfl, hlow⟩ | ⟨-, hhigh, rfl⟩
          · left
            simp only at hac hcb
            rw [if_pos (by omega), rangesContain_cons]
            left
            simp only
            omega
          · simp only at hac hcb
            omega
        · exact .inr (ih hrest h)

end Ctx

end Slag.Regexp
