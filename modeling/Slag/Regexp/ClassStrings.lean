import Slag.Regexp.Quantifier
import Mathlib.Data.List.Dedup
import Mathlib.Data.List.Sort

/-!
The alternatives of a class with string members: which the engine tries, and
which a class stands for.
-/

namespace Slag.Regexp

open Slag.Backtrack

namespace Ctx

variable {ctx : Ctx} {cls : CharClass} {pos : Nat} {dir : Direction}

section Members

variable (ctx : Ctx) (cls : CharClass) (pos : Nat) (dir : Direction)

/-- The character is a member by itself. -/
def isSingle (c : Nat) : Bool :=
  let cc := if cls.fold then ctx.canonicalize ctx.unicode c else c
  match cls.predicate with
  | some pred => ctx.predicateMatches pred cc
  | none => rangesContain cls.ranges cc

/-- The lengths of the distinct strings found, longest first. -/
def stringMembers : List Nat :=
  ((cls.strings.dedup.filter fun string => ctx.stringAtDir pos string dir).map
    ctx.stringUnits).insertionSort (· ≥ ·)

/-- The length of the character, where it is a member. -/
def charMember : List Nat :=
  match ctx.readCharDir pos dir with
  | some (c, len) => if ctx.isSingle cls c then [len] else []
  | none => []

/-- Where the members end: the strings, longest first, and then the character. -/
def memberEnds : List Nat :=
  (ctx.stringMembers cls pos dir ++ ctx.charMember cls pos dir).map (advance pos dir)

/-- Where a string is found, the strings found are listed longest first and then
from the shortest up, each once, and the character is no member; where it is one,
its own string is listed once more in its place. -/
def ListedInTurn : Prop :=
  ∀ first others, ctx.classStrings cls pos dir = first :: others →
    ∃ inTurn, inTurn.Pairwise (· > ·) ∧ ctx.charMember cls pos dir ⊆ inTurn ∧
      first :: others.reverse = inTurn ++ ctx.charMember cls pos dir

end Members

theorem unit_lt {u : Nat} (h : ctx.unit pos = some u) : u < 65536 := by
  unfold unit at h
  obtain ⟨unit, -, rfl⟩ := Option.map_eq_some_iff.mp h
  exact unit.toNat_lt

theorem stringUnits_single {c len : Nat} (hunicode : ctx.unicode = true)
    (h : len = if 0xFFFF < c then 2 else 1) : len = ctx.stringUnits [c] := by
  rw [stringUnits, if_pos hunicode, h]
  rfl

/-- A character is read with the units it takes. -/
theorem readChar_units {c len : Nat} (h : ctx.readChar pos = some (c, len)) :
    len = ctx.stringUnits [c] := by
  unfold readChar at h
  split at h
  · rename_i hunicode
    apply stringUnits_single hunicode
    unfold codePointAt at h
    split at h
    · cases h
    · rename_i hi hhi
      have hlt := unit_lt hhi
      repeat' split at h
      all_goals
        simp only [Option.some.injEq, Prod.mk.injEq] at h
        obtain ⟨rfl, rfl⟩ := h
        first
          | rw [if_neg (by omega)]
          | rw [if_pos (by omega)]
  · rename_i hlegacy
    obtain ⟨u, hu, heq⟩ := Option.map_eq_some_iff.mp h
    cases heq
    rw [stringUnits, if_neg hlegacy]
    rfl

theorem readCharBack_units {c len : Nat} (h : ctx.readCharBack pos = some (c, len)) :
    len = ctx.stringUnits [c] ∧ len ≤ pos := by
  unfold readCharBack at h
  split at h
  · cases h
  · split at h
    · cases h
    · rename_i u hu
      have hlt := unit_lt hu
      by_cases hunicode : ctx.unicode = true
      · suffices hlen : (len = if 0xFFFF < c then 2 else 1) ∧ len ≤ pos from
          ⟨stringUnits_single hunicode hlen.1, hlen.2⟩
        repeat' split at h
        all_goals
          simp only [Option.some.injEq, Prod.mk.injEq] at h
          obtain ⟨rfl, rfl⟩ := h
          first
            | rw [if_neg (by omega)]; omega
            | rw [if_pos (by omega)]; omega
      · rw [if_neg (by simp [hunicode])] at h
        cases h
        rw [stringUnits, if_neg hunicode]
        exact ⟨rfl, by omega⟩

theorem stringUnits_cons (c : Nat) (string : List Nat) :
    ctx.stringUnits (c :: string) = ctx.stringUnits [c] + ctx.stringUnits string := by
  unfold stringUnits
  split
  · simp only [List.map_cons, List.sum_cons, List.map_nil, List.sum_nil, Nat.add_zero]
  · simp only [List.length_cons, List.length_nil]
    omega

theorem stringUnits_pos (c : Nat) : 0 < ctx.stringUnits [c] := by
  unfold stringUnits
  split
  · simp only [List.map_cons, List.map_nil, List.sum_cons, List.sum_nil]
    split <;> omega
  · exact Nat.one_pos

theorem stringUnits_reverse (string : List Nat) :
    ctx.stringUnits string.reverse = ctx.stringUnits string := by
  unfold stringUnits
  rw [List.map_reverse, List.sum_reverse, List.length_reverse]

theorem stringUnits_cons_ne (c : Nat) (string : List Nat) :
    ctx.stringUnits (c :: string) ≠ ctx.stringUnits [] := by
  have hpos : 0 < ctx.stringUnits [c] := stringUnits_pos c
  have hnil : ctx.stringUnits [] = 0 := by unfold stringUnits; split <;> rfl
  rw [stringUnits_cons]
  omega

/-- Two strings found by one way of reading differ in length. -/
theorem found_unique {read : Nat → Option (Nat × Nat)} {next : Nat → Nat → Nat}
    {found : List Nat → Nat → Bool}
    (hfound : ∀ want rest pos, found (want :: rest) pos = match read pos with
      | some (c, len) => c == want && found rest (next pos len)
      | none => false)
    {s t : List Nat} (hs : found s pos = true) (ht : found t pos = true)
    (hlen : ctx.stringUnits s = ctx.stringUnits t) : s = t := by
  induction s generalizing t pos with
  | nil =>
      cases t with
      | nil => rfl
      | cons d t => exact absurd hlen.symm (stringUnits_cons_ne d t)
  | cons c s ih =>
      cases t with
      | nil => exact absurd hlen (stringUnits_cons_ne c s)
      | cons d t =>
          rw [hfound] at hs ht
          cases hread : read pos with
          | none =>
              rw [hread] at hs
              cases hs
          | some char =>
              simp only [hread, Bool.and_eq_true, beq_iff_eq] at hs ht
              obtain ⟨rfl, hs⟩ := hs
              obtain ⟨rfl, ht⟩ := ht
              rw [stringUnits_cons, stringUnits_cons _ t] at hlen
              rw [ih hs ht (Nat.add_left_cancel hlen)]

theorem stringAtDir_unique {s t : List Nat} (hs : ctx.stringAtDir pos s dir = true)
    (ht : ctx.stringAtDir pos t dir = true) (hlen : ctx.stringUnits s = ctx.stringUnits t) :
    s = t := by
  cases dir with
  | forward => exact found_unique (fun _ _ _ => rfl) hs ht hlen
  | backward =>
      apply List.reverse_injective
      apply found_unique (fun _ _ _ => rfl) hs ht
      rw [stringUnits_reverse, stringUnits_reverse, hlen]

theorem stringAtBack_units {string : List Nat} (h : ctx.stringAtBack string pos = true) :
    ctx.stringUnits string ≤ pos := by
  induction string generalizing pos with
  | nil => unfold stringUnits; split <;> exact Nat.zero_le _
  | cons want rest ih =>
      unfold stringAtBack at h
      cases hread : ctx.readCharBack pos with
      | none =>
          rw [hread] at h
          cases h
      | some char =>
          simp only [hread, Bool.and_eq_true, beq_iff_eq] at h
          obtain ⟨rfl, h⟩ := h
          obtain ⟨hunits, hle⟩ := readCharBack_units hread
          have hrest := ih h
          rw [stringUnits_cons, ← hunits]
          omega

/-- A length the position has room for. -/
def Fits (pos : Nat) (dir : Direction) (len : Nat) : Prop :=
  dir = .backward → len ≤ pos

/-- How far an end is. -/
def retreat (pos : Nat) (dir : Direction) (stop : Nat) : Nat :=
  match dir with
  | .forward => stop - pos
  | .backward => pos - stop

theorem retreat_advance {len : Nat} (h : Fits pos dir len) :
    retreat pos dir (advance pos dir len) = len := by
  cases dir with
  | forward => exact Nat.add_sub_cancel_left pos len
  | backward => exact Nat.sub_sub_self (h rfl)

theorem map_retreat {lens : List Nat} (h : ∀ len ∈ lens, Fits pos dir len) :
    (lens.map (advance pos dir)).map (retreat pos dir) = lens := by
  rw [List.map_map]
  conv => rhs; rw [← List.map_id lens]
  apply List.map_congr_left
  exact fun len hlen => retreat_advance (h len hlen)

theorem mem_classStrings (hneg : cls.negated = false) {len : Nat} :
    len ∈ ctx.classStrings cls pos dir ↔
      ∃ string ∈ cls.strings, ctx.stringAtDir pos string dir = true ∧
        ctx.stringUnits string = len := by
  rw [classStrings, if_neg (by rw [hneg]; exact Bool.false_ne_true)]
  simp only [List.mem_map, List.mem_filter, and_assoc]

theorem mem_stringMembers {len : Nat} :
    len ∈ ctx.stringMembers cls pos dir ↔
      ∃ string ∈ cls.strings, ctx.stringAtDir pos string dir = true ∧
        ctx.stringUnits string = len := by
  rw [stringMembers, List.mem_insertionSort]
  simp only [List.mem_map, List.mem_filter, List.mem_dedup, and_assoc]

theorem stringMembers_fits {len : Nat} (h : len ∈ ctx.stringMembers cls pos dir) :
    Fits pos dir len := by
  obtain ⟨string, -, hfound, rfl⟩ := mem_stringMembers.mp h
  rintro rfl
  rw [← stringUnits_reverse]
  exact stringAtBack_units hfound

theorem charMember_fits {len : Nat} (h : len ∈ ctx.charMember cls pos dir) : Fits pos dir len := by
  rintro rfl
  unfold charMember at h
  split at h
  · rename_i c n hread
    split at h
    · rw [List.mem_singleton.mp h]
      exact (readCharBack_units hread).2
    · cases h
  · cases h

/-- No two strings found have one length, so that sorting leaves no ties. -/
theorem stringMembers_pairwise : (ctx.stringMembers cls pos dir).Pairwise (· > ·) := by
  have hsorted := List.pairwise_insertionSort (fun a b : Nat => a ≥ b)
    ((cls.strings.dedup.filter fun string => ctx.stringAtDir pos string dir).map ctx.stringUnits)
  have hnodup : (ctx.stringMembers cls pos dir).Nodup := by
    rw [stringMembers, (List.perm_insertionSort _ _).nodup_iff]
    apply List.Nodup.map_on
    · intro s hs t ht hlen
      exact stringAtDir_unique (List.mem_filter.mp hs).2 (List.mem_filter.mp ht).2 hlen
    · exact (List.nodup_dedup cls.strings).filter _
  apply (hsorted.and hnodup).imp
  intro a b h
  exact Nat.lt_of_le_of_ne h.1 (Ne.symm h.2)

/-- Without strings there, the class tests the character. -/
theorem leafEnds_no_strings (hneg : cls.negated = false)
    (hnone : ctx.classStrings cls pos dir = []) (captures : List (Option Span)) :
    ctx.leafEnds dir ⟨pos, captures⟩ (.charClass cls) = ctx.memberEnds cls pos dir := by
  have hstrings : ctx.stringMembers cls pos dir = [] := by
    apply List.eq_nil_iff_forall_not_mem.mpr
    intro len hlen
    have hmem := (mem_classStrings hneg).mpr (mem_stringMembers.mp hlen)
    rw [hnone] at hmem
    cases hmem
  have htest : ∀ c, ctx.classMatches cls pos c dir = ctx.isSingle cls c := by
    intro c
    have hany : (cls.strings.any fun string => ctx.stringAtDir pos string dir) = false := by
      rw [List.any_eq_false]
      intro string hmem hfound
      have hlen := (mem_classStrings hneg).mpr ⟨string, hmem, hfound, rfl⟩
      rw [hnone] at hlen
      cases hlen
    simp only [classMatches, hany, hneg, Bool.or_false, Bool.bne_false]
    rfl
  simp only [leafEnds, hnone, memberEnds, hstrings, List.nil_append, charEnd, charMember, htest]
  cases ctx.readCharDir pos dir with
  | none => rfl
  | some char =>
      simp only
      split <;> rfl

/-- The engine takes the members in their order exactly where they are so listed. -/
theorem leafEnds_iff (hneg : cls.negated = false) (captures : List (Option Span)) :
    ctx.leafEnds dir ⟨pos, captures⟩ (.charClass cls) = ctx.memberEnds cls pos dir ↔
      ctx.ListedInTurn cls pos dir := by
  cases hfound : ctx.classStrings cls pos dir with
  | nil =>
      apply iff_of_true (leafEnds_no_strings hneg hfound captures)
      intro first others hlist
      rw [hfound] at hlist
      cases hlist
  | cons first others =>
      have hmem : ∀ len, len ∈ first :: others.reverse ↔ len ∈ ctx.stringMembers cls pos dir := by
        intro len
        rw [mem_stringMembers, ← mem_classStrings hneg, hfound, List.mem_cons, List.mem_reverse,
          List.mem_cons]
      have hfits : ∀ len ∈ first :: others.reverse, Fits pos dir len :=
        fun len hlen => stringMembers_fits ((hmem len).mp hlen)
      have hmembers : ∀ len ∈ ctx.stringMembers cls pos dir ++ ctx.charMember cls pos dir,
          Fits pos dir len := by
        intro len hlen
        cases List.mem_append.mp hlen with
        | inl hlen => exact stringMembers_fits hlen
        | inr hlen => exact charMember_fits hlen
      have hlens : ctx.leafEnds dir ⟨pos, captures⟩ (.charClass cls) = ctx.memberEnds cls pos dir ↔
          first :: others.reverse = ctx.stringMembers cls pos dir ++ ctx.charMember cls pos dir := by
        simp only [leafEnds, hfound, memberEnds]
        constructor
        · intro h
          rw [← map_retreat hfits, h, map_retreat hmembers]
        · intro h
          rw [h]
      rw [hlens]
      constructor
      · intro h first' others' hlist
        rw [hfound] at hlist
        cases hlist
        refine ⟨ctx.stringMembers cls pos dir, stringMembers_pairwise, ?_, h⟩
        intro len hlen
        apply (hmem len).mp
        rw [h]
        exact List.mem_append_right _ hlen
      · intro h
        obtain ⟨inTurn, hpairwise, hsubset, hlist⟩ := h first others hfound
        have heq : inTurn = ctx.stringMembers cls pos dir := by
          apply hpairwise.eq_of_mem_iff stringMembers_pairwise
          intro len
          rw [← hmem, hlist, List.mem_append]
          exact ⟨Or.inl, fun hlen => hlen.elim id fun hlen => hsubset hlen⟩
        rw [hlist, heq]

end Ctx

namespace Matcher

variable {m : Matcher} {cls : CharClass} {pos : Nat} {dir : Direction} {ends ends' : List Nat}

/-- From a class the engine runs its continuation at the ends of a list, each
after those before it have failed, and at no other. -/
def Tries (m : Matcher) (cls : CharClass) (pos : Nat) (dir : Direction) (ends : List Nat) : Prop :=
  ∀ (addr : List Nat) (T : List Task) (C : List Choice) (caps : Caps) (memo : List MemoEntry),
    Emits m.machine (reading dir fun _ => false) T C ⟨pos, dir, caps, memo⟩
      (.running ⟨.node ⟨addr, .charClass cls⟩ :: T, C, ⟨pos, dir, caps, memo⟩⟩)
      (ends.map fun stop => ⟨stop, caps.values⟩)

theorem tries_unique (h : m.Tries cls pos dir ends) (h' : m.Tries cls pos dir ends') :
    ends = ends' := by
  have hview : ∀ (s : Store) (x : MatchState), Store.Stands dir s x →
      (⟨s.pos, s.caps.values⟩ : MatchState) = x := by
    intro s x hx
    rw [hx.1, hx.2.1]
  obtain ⟨fuel, hfuel⟩ := enumerate_of_emits (h [] [] [] ⟨[], []⟩ []) (fun _ => rfl) hview
  obtain ⟨fuel', hfuel'⟩ := enumerate_of_emits (h' [] [] [] ⟨[], []⟩ []) (fun _ => rfl) hview
  have hresults := enumerate_unique hfuel hfuel'
  have hinj : Function.Injective fun stop => (⟨stop, []⟩ : MatchState) :=
    fun a b hab => congrArg MatchState.endIndex hab
  exact hinj.list_map hresults

/-- The leaf ends do not depend on the captures. -/
theorem class_tries (m : Matcher) (cls : CharClass) (pos : Nat) (dir : Direction) :
    m.Tries cls pos dir (m.ctx.leafEnds dir ⟨pos, []⟩ (.charClass cls)) := by
  intro addr T C caps memo
  have hleaf : NodeEmits m (fun _ => false) (.charClass cls) := nodeEmits_leaf trivial
  have hemits := hleaf addr dir ⟨pos, caps.values⟩ T C ⟨pos, dir, caps, memo⟩ ⟨rfl, rfl, rfl⟩
  rw [Ctx.outcomes] at hemits
  · exact hemits
  all_goals exact nofun

/-- The engine tries the members in descending length and then the character
exactly where the strings found are so listed. -/
theorem class_tries_members_iff (m : Matcher) (cls : CharClass) (hneg : cls.negated = false)
    (pos : Nat) (dir : Direction) :
    m.Tries cls pos dir (m.ctx.memberEnds cls pos dir) ↔ m.ctx.ListedInTurn cls pos dir := by
  rw [← Ctx.leafEnds_iff hneg []]
  constructor
  · exact fun h => tries_unique (class_tries m cls pos dir) h
  · intro h
    rw [← h]
    exact class_tries m cls pos dir

def classOf (ranges : List (Nat × Nat)) (strings : List (List Nat)) : CharClass :=
  { ranges := ranges, strings := strings }

def onText (input : List UInt16) : Matcher where
  re := ⟨.empty, true, 0, true, [], none⟩
  ctx := ⟨plainTables, input, true⟩

/-- `[\q{ab|a}x]` on `ab`. -/
theorem class_tries_members_longest_first :
    (onText [0x61, 0x62]).Tries (classOf [(0x78, 0x78)] [[0x61, 0x62], [0x61]]) 0 .forward
      ((onText [0x61, 0x62]).ctx.memberEnds (classOf [(0x78, 0x78)] [[0x61, 0x62], [0x61]]) 0
        .forward) := by
  refine (class_tries_members_iff _ _ rfl 0 .forward).mpr ?_
  intro first others hlist
  cases hlist
  exact ⟨[2, 1], by decide, by decide, by decide⟩

/-- `[\q{ab}a]` on `ab`: with the string found, the character is not tried. -/
theorem class_drops_character :
    ¬ (onText [0x61, 0x62]).Tries (classOf [(0x61, 0x61)] [[0x61, 0x62]]) 0 .forward
      ((onText [0x61, 0x62]).ctx.memberEnds (classOf [(0x61, 0x61)] [[0x61, 0x62]]) 0
        .forward) := by
  intro h
  have heq := tries_unique (class_tries _ _ 0 .forward) h
  revert heq
  decide

end Matcher

end Slag.Regexp
