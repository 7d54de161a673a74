import Slag.Lib.Utf16
import Slag.Regexp.Bounds

/-!
Backreferences, character by character: code points under `u` and `v`, code
units otherwise. The engine compares code units.
-/

namespace Slag.Regexp

open Slag.Backtrack Slag.Utf16

namespace Ctx

variable (ctx : Ctx)

/-- The characters of a piece of the input. -/
def chars (units : List UInt16) : List Nat :=
  if ctx.unicode then decode units else units.map UInt16.toNat

/-- What a character is compared by. -/
def key (fold : Bool) (c : Nat) : Nat :=
  if fold then ctx.canonicalize ctx.unicode c else c

/-- The `n` characters next to a position, in the order of the input. -/
def adjacentChars (pos : Nat) (dir : Direction) (n : Nat) : List Nat :=
  match dir with
  | .forward => (ctx.chars (ctx.input.drop pos)).take n
  | .backward =>
      let before := ctx.chars (ctx.input.take pos)
      before.drop (before.length - n)

def captured (group : Span) : List UInt16 :=
  (ctx.input.take group.2).drop group.1

/-- The units of the window next to a position. -/
def window (pos : Nat) (dir : Direction) (len : Nat) : List UInt16 :=
  match dir with
  | .forward => (ctx.input.take (pos + len)).drop pos
  | .backward => (ctx.input.take pos).drop (pos - len)

/-- What was captured stands next to the position as well. -/
def CapturedAt (group : Span) (fold : Bool) (pos : Nat) (dir : Direction) : Prop :=
  let captured := ctx.chars (ctx.captured group)
  captured.map (ctx.key fold) =
    (ctx.adjacentChars pos dir captured.length).map (ctx.key fold)

/-- No position the engine computes is below the start of the input or past its end. -/
def InRange (group : Span) (pos : Nat) (dir : Direction) : Prop :=
  ctx.Inside group ∧ pos ≤ ctx.input.length ∧ (dir = .backward → group.2 - group.1 ≤ pos)

/-- The window has the captured units, but its far edge lies inside a surrogate pair. -/
def SplitsPair (group : Span) (fold : Bool) (pos : Nat) (dir : Direction) : Prop :=
  let len := group.2 - group.1
  let stop := advance pos dir len
  0 < len ∧ splits (ctx.input.take stop) (ctx.input.drop stop) = true ∧
    ctx.unitsEq (ctx.captured group) (ctx.window pos dir len) fold = true

/-- The characters match, a supplementary one by its case folding only. -/
def FoldsSupplementary (group : Span) (fold : Bool) (pos : Nat) (dir : Direction) : Prop :=
  let captured := ctx.chars (ctx.captured group)
  ctx.CapturedAt group fold pos dir ∧
    ¬ List.Forall₂ (fun c d => 0x10000 ≤ c → c = d) captured
      (ctx.adjacentChars pos dir captured.length)

/-- Every group that is looked up has a slot: going from the last number to the
first, none is out of range before a group that took part. -/
def HasSlots (values : List (Option Span)) (indices : List Nat) : Prop :=
  ∀ later i earlier, indices.reverse = later ++ i :: earlier →
    (∀ j ∈ later, values[j]? = some none) → i < values.length

/-- Where comparing units is comparing characters. -/
def BackrefExact (group : Span) (fold : Bool) (pos : Nat) (dir : Direction) : Prop :=
  (dir = .backward → group.2 - group.1 ≤ pos) ∧
    (ctx.unicode = true →
      ¬ ctx.SplitsPair group fold pos dir ∧ ¬ ctx.FoldsSupplementary group fold pos dir)

end Ctx

namespace Ctx

variable {ctx : Ctx} {fold : Bool} {group : Span} {pos len : Nat} {dir : Direction}
  {a b : List UInt16}

theorem unitsEq_iff (h : a.length = b.length) : ctx.unitsEq a b fold = true ↔
    a.map (fun u => ctx.key fold u.toNat) = b.map fun u => ctx.key fold u.toNat := by
  cases fold with
  | false =>
      have hinj : Function.Injective fun u : UInt16 => ctx.key false u.toNat :=
        fun _ _ heq => UInt16.toNat_inj.mp heq
      rw [List.map_inj_right (fun _ _ heq => hinj heq)]
      exact beq_iff_eq
  | true =>
      simp only [unitsEq, key, if_true]
      induction a generalizing b with
      | nil =>
          obtain rfl := List.length_eq_zero_iff.mp h.symm
          exact Iff.intro (fun _ => rfl) (fun _ => rfl)
      | cons x a ih =>
          cases b with
          | nil => cases h
          | cons y b =>
              simp only [List.zip_cons_cons, List.all_cons, Bool.and_eq_true, beq_iff_eq,
                List.map_cons, List.cons.injEq, ih (Nat.succ.inj h)]

/-- The window lies inside the input. -/
def HasRoom (ctx : Ctx) (pos : Nat) (dir : Direction) (len : Nat) : Prop :=
  match dir with
  | .forward => pos + len ≤ ctx.input.length
  | .backward => len ≤ pos

instance : Decidable (ctx.HasRoom pos dir len) :=
  match dir with
  | .forward => inferInstanceAs (Decidable (pos + len ≤ ctx.input.length))
  | .backward => inferInstanceAs (Decidable (len ≤ pos))

variable {values : List (Option Span)} {indices : List Nat}

/-- The engine compares the window it has room for. -/
theorem backrefEnd_eq (hgroup : chosenGroup values indices = some (some group))
    (hpos : pos ≤ ctx.input.length) :
    ctx.backrefEnd indices fold pos dir values =
      if ctx.HasRoom pos dir (group.2 - group.1) ∧
          ctx.unitsEq (ctx.captured group) (ctx.window pos dir (group.2 - group.1)) fold = true then
        some (advance pos dir (group.2 - group.1))
      else none := by
  obtain ⟨start, stop⟩ := group
  cases dir with
  | forward =>
      simp only [backrefEnd, hgroup, reduceCtorEq, false_and, or_false]
      by_cases hroom : pos + (stop - start) ≤ ctx.input.length
      · rw [if_neg (Nat.not_lt.mpr hroom)]
        simp only [HasRoom, hroom, true_and]
        rfl
      · rw [if_pos (Nat.not_le.mp hroom), if_neg fun h => hroom h.1]
  | backward =>
      simp only [backrefEnd, hgroup, true_and]
      by_cases hroom : stop - start ≤ pos
      · rw [if_neg (not_or.mpr ⟨Nat.not_lt.mpr hpos, Nat.not_lt.mpr hroom⟩)]
        simp only [HasRoom, hroom, true_and]
        rfl
      · rw [if_pos (Or.inr (Nat.not_le.mp hroom)), if_neg fun h => hroom h.1]

theorem firstSet_mem : ∀ {indices : List Nat},
    firstSet values indices = some (some group) → some group ∈ values
  | [], h => by cases Option.some.inj h
  | i :: indices, h => by
      rcases hslot : values[i]? with _ | _ | span
      · simp only [firstSet, hslot, reduceCtorEq] at h
      · simp only [firstSet, hslot] at h
        exact firstSet_mem h
      · simp only [firstSet, hslot, Option.some.injEq] at h
        exact h ▸ List.mem_of_getElem? hslot

theorem chosenGroup_mem (h : chosenGroup values indices = some (some group)) : some group ∈ values :=
  firstSet_mem h

/-- The search indexes a slot that is not there. -/
theorem firstSet_eq_none : ∀ {indices : List Nat},
    firstSet values indices = none ↔ ∃ before i after, indices = before ++ i :: after ∧
      (∀ j ∈ before, values[j]? = some none) ∧ values.length ≤ i
  | [] => by
      refine iff_of_false (absurd · (Option.some_ne_none _)) ?_
      rintro ⟨before, i, after, hsplit, -⟩
      exact absurd hsplit.symm (List.append_ne_nil_of_right_ne_nil _ (List.cons_ne_nil _ _))
  | i :: indices => by
      rcases hslot : values[i]? with _ | _ | span
      · simp only [firstSet, hslot, true_iff]
        exact ⟨[], i, indices, rfl, fun _ h => absurd h List.not_mem_nil,
          List.getElem?_eq_none_iff.mp hslot⟩
      · simp only [firstSet, hslot]
        rw [firstSet_eq_none]
        constructor
        · rintro ⟨before, j, after, rfl, hunset, hj⟩
          refine ⟨i :: before, j, after, rfl, ?_, hj⟩
          intro k hk
          rcases List.mem_cons.mp hk with rfl | hk
          · exact hslot
          · exact hunset k hk
        · rintro ⟨before, j, after, hsplit, hunset, hj⟩
          cases before with
          | nil =>
              obtain ⟨rfl, -⟩ := List.cons.inj hsplit
              exact absurd hslot (by rw [List.getElem?_eq_none hj]; exact (Option.some_ne_none _).symm)
          | cons k before =>
              obtain ⟨-, rfl⟩ := List.cons.inj hsplit
              exact ⟨before, j, after, rfl, fun m hm => hunset m (List.mem_cons_of_mem _ hm), hj⟩
      · simp only [firstSet, hslot, reduceCtorEq, false_iff]
        rintro ⟨before, j, after, hsplit, hunset, hj⟩
        cases before with
        | nil =>
            obtain ⟨rfl, -⟩ := List.cons.inj hsplit
            rw [List.getElem?_eq_none hj] at hslot
            cases hslot
        | cons k before =>
            obtain ⟨rfl, -⟩ := List.cons.inj hsplit
            have hnone := hunset i List.mem_cons_self
            rw [hslot] at hnone
            cases hnone

/-- The search answers exactly where each number it looks up has a slot. -/
theorem chosenGroup_ne_none :
    chosenGroup values indices ≠ none ↔ HasSlots values indices := by
  rw [chosenGroup, Ne, firstSet_eq_none]
  constructor
  · intro h later i earlier hsplit hunset
    exact Nat.lt_of_not_le fun hi => h ⟨later, i, earlier, hsplit, hunset, hi⟩
  · rintro h ⟨later, i, earlier, hsplit, hunset, hi⟩
    exact absurd (h later i earlier hsplit hunset) (Nat.not_lt.mpr hi)

theorem length_captured (h : ctx.Inside group) :
    (ctx.captured group).length = group.2 - group.1 := by
  rw [captured, List.length_drop, List.length_take, Nat.min_eq_left h.2]

theorem length_window (h : ctx.HasRoom pos dir len) (hpos : pos ≤ ctx.input.length) :
    (ctx.window pos dir len).length = len := by
  cases dir with
  | forward =>
      have hroom : pos + len ≤ ctx.input.length := h
      rw [window, List.length_drop, List.length_take, Nat.min_eq_left hroom,
        Nat.add_sub_cancel_left]
  | backward =>
      have hroom : len ≤ pos := h
      rw [window, List.length_drop, List.length_take, Nat.min_eq_left hpos,
        Nat.sub_sub_self hroom]

theorem drop_window (pos len : Nat) :
    ctx.input.drop pos = ctx.window pos .forward len ++ ctx.input.drop (pos + len) := by
  rw [window, List.drop_take, Nat.add_sub_cancel_left, ← List.drop_drop, List.take_append_drop]

theorem take_window (pos len : Nat) :
    ctx.input.take pos = ctx.input.take (pos - len) ++ ctx.window pos .backward len := by
  have htake : ctx.input.take (pos - len) = (ctx.input.take pos).take (pos - len) := by
    rw [List.take_take, Nat.min_eq_left (Nat.sub_le pos len)]
  rw [window, htake, List.take_append_drop]

theorem splits_window (h : ctx.window pos dir len ≠ []) (hpos : pos ≤ ctx.input.length) :
    splits (ctx.input.take (advance pos dir len)) (ctx.input.drop (advance pos dir len)) =
      match dir with
      | .forward => splits (ctx.window pos dir len) (ctx.input.drop (pos + len))
      | .backward => splits (ctx.input.take (pos - len)) (ctx.window pos dir len) := by
  cases dir with
  | forward =>
      have htake : ctx.input.take (pos + len) =
          ctx.input.take pos ++ ctx.window pos .forward len := by
        have hfront : ctx.input.take pos = (ctx.input.take (pos + len)).take pos := by
          rw [List.take_take, Nat.min_eq_left (Nat.le_add_right pos len)]
        rw [window, hfront, List.take_append_drop]
      simp only [advance]
      rw [htake, splits_append_left _ h]
  | backward =>
      have hdrop : ctx.input.drop (pos - len) =
          ctx.window pos .backward len ++ ctx.input.drop pos := by
        have hle : pos - len ≤ (ctx.input.take pos).length := by
          rw [List.length_take, Nat.min_eq_left hpos]
          exact Nat.sub_le pos len
        rw [window, ← List.drop_append_of_le_length hle, List.take_append_drop]
      simp only [advance]
      rw [hdrop, splits_append_right _ h]

/-- Away from an inner edge of a pair, as many characters as the window has are
those of the window. -/
theorem adjacent_window (hunicode : ctx.unicode = true) (hpos : pos ≤ ctx.input.length)
    (hedge : ctx.window pos dir len = [] ∨
      splits (ctx.input.take (advance pos dir len)) (ctx.input.drop (advance pos dir len)) =
        false) :
    ctx.adjacentChars pos dir (decode (ctx.window pos dir len)).length =
      decode (ctx.window pos dir len) := by
  by_cases hempty : ctx.window pos dir len = []
  · rw [hempty]
    cases dir with
    | forward => rfl
    | backward =>
        simp only [adjacentChars, decode, List.length_nil, Nat.sub_zero, List.drop_length]
  · have hsplits := hedge.resolve_left hempty
    rw [splits_window hempty hpos] at hsplits
    cases dir with
    | forward =>
        simp only [adjacentChars, chars, hunicode, if_true]
        rw [drop_window pos len, decode_append hsplits, List.take_left]
    | backward =>
        simp only [adjacentChars, chars, hunicode, if_true]
        rw [take_window pos len, decode_append hsplits, List.length_append, Nat.add_sub_cancel,
          List.drop_left]

/-- A window with the captured units, cut off inside a pair. -/
theorem not_capturedAt_of_splits (hunicode : ctx.unicode = true) (hpos : pos ≤ ctx.input.length)
    (hfold : Folding (ctx.key fold)) (hne : ctx.window pos dir len ≠ [])
    (hunits : (ctx.captured group).map (fun u => ctx.key fold u.toNat) =
      (ctx.window pos dir len).map fun u => ctx.key fold u.toNat)
    (hsplits : splits (ctx.input.take (advance pos dir len))
      (ctx.input.drop (advance pos dir len)) = true) :
    ¬ ctx.CapturedAt group fold pos dir := by
  intro hmatch
  rw [splits_window hne hpos] at hsplits
  unfold CapturedAt at hmatch
  simp only [adjacentChars, chars, hunicode, if_true] at hmatch
  cases dir with
  | forward =>
      obtain ⟨front, hi, lo, back, hwindow, hrest, hhi, hlo⟩ := exists_split hsplits
      rw [hwindow, List.map_append] at hunits
      obtain ⟨front', last, hcaptured, hfront, hlast⟩ := List.map_eq_append_iff.mp hunits
      obtain ⟨x, rfl, hx⟩ := List.map_eq_singleton_iff.mp hlast
      obtain rfl : hi = x := hfold.unit_eq (.inl hhi) hx.symm
      have hlength := (hfold.decode_agree hfront).length_eq
      rw [drop_window pos len, hwindow, hrest, List.append_assoc,
        List.singleton_append, decode_split hhi hlo, hcaptured, decode_last hhi,
        List.length_append, hlength, List.length_singleton, List.take_length_add_append,
        List.take_succ_cons, List.take_zero, List.map_append, List.map_append] at hmatch
      have hkeys := List.append_inj_right' hmatch
        (by simp only [List.length_map, List.length_singleton])
      exact hfold.ne_pair (List.cons.inj hkeys).1
  | backward =>
      obtain ⟨front, hi, lo, back, hrest, hwindow, hhi, hlo⟩ := exists_split hsplits
      rw [hwindow, List.map_cons] at hunits
      obtain ⟨x, back', hcaptured, hx, hback⟩ := List.map_eq_cons_iff.mp hunits
      obtain rfl : lo = x := hfold.unit_eq (.inr hlo) hx.symm
      have hlength := (hfold.decode_agree hback).length_eq
      rw [take_window pos len, hwindow, hrest, List.append_assoc,
        List.singleton_append, decode_split hhi hlo, hcaptured, decode_low hlo,
        List.length_append, List.length_cons, List.length_cons, hlength, Nat.add_sub_cancel,
        List.drop_left, List.map_cons, List.map_cons] at hmatch
      exact hfold.ne_pair (List.cons.inj hmatch).1

/-- The units of the characters next to a position are those of the window. -/
theorem window_of_adjacent (hunicode : ctx.unicode = true) (hpos : pos ≤ ctx.input.length)
    {n : Nat} (hlen : (encode (ctx.adjacentChars pos dir n)).length = len) :
    ctx.HasRoom pos dir len ∧ ctx.window pos dir len = encode (ctx.adjacentChars pos dir n) := by
  cases dir with
  | forward =>
      have hinput : ctx.input.drop pos = encode (ctx.adjacentChars pos .forward n) ++
          encode ((decode (ctx.input.drop pos)).drop n) := by
        simp only [adjacentChars, chars, hunicode, if_true]
        rw [← encode_append, List.take_append_drop, encode_decode]
      have hwindow : ctx.window pos .forward len = encode (ctx.adjacentChars pos .forward n) := by
        rw [window, List.drop_take, Nat.add_sub_cancel_left, hinput, ← hlen, List.take_left]
      refine ⟨?_, hwindow⟩
      have hlength := congrArg List.length hinput
      rw [List.length_drop, List.length_append, hlen] at hlength
      simp only [HasRoom]
      omega
  | backward =>
      have hinput : ctx.input.take pos =
          encode ((decode (ctx.input.take pos)).take ((decode (ctx.input.take pos)).length - n)) ++
            encode (ctx.adjacentChars pos .backward n) := by
        simp only [adjacentChars, chars, hunicode, if_true]
        rw [← encode_append, List.take_append_drop, encode_decode]
      have hlength := congrArg List.length hinput
      rw [List.length_take, Nat.min_eq_left hpos, List.length_append, hlen] at hlength
      refine ⟨?_, ?_⟩
      · simp only [HasRoom]
        omega
      · rw [window, hinput, List.drop_left']
        omega

/-- Whether the window has the captured units. -/
def UnitsAt (ctx : Ctx) (group : Span) (fold : Bool) (pos : Nat) (dir : Direction) : Prop :=
  let len := group.2 - group.1
  ctx.HasRoom pos dir len ∧
    (ctx.captured group).map (fun u => ctx.key fold u.toNat) =
      (ctx.window pos dir len).map fun u => ctx.key fold u.toNat

/-- Agreement of the characters makes the units agree. -/
theorem unitsAt_of_agree (hunicode : ctx.unicode = true) (hfold : Folding (ctx.key fold))
    (hin : ctx.Inside group) (hpos : pos ≤ ctx.input.length)
    (h : List.Forall₂ (Agree (ctx.key fold)) (decode (ctx.captured group))
      (ctx.adjacentChars pos dir (decode (ctx.captured group)).length)) :
    ctx.UnitsAt group fold pos dir := by
  have hunits := hfold.encode_agree h
  rw [encode_decode] at hunits
  have hlength := congrArg List.length hunits
  rw [List.length_map, List.length_map, length_captured hin] at hlength
  obtain ⟨hroom, hwindow⟩ := window_of_adjacent hunicode hpos hlength.symm
  refine ⟨hroom, ?_⟩
  rw [hunits, hwindow]

theorem agree_iff {a b : List Nat} {f : Nat → Nat} : List.Forall₂ (Agree f) a b ↔
    a.map f = b.map f ∧ List.Forall₂ (fun c d => 0x10000 ≤ c → c = d) a b := by
  rw [← List.forall₂_eq_eq_eq, List.forall₂_map_left_iff, List.forall₂_map_right_iff]
  constructor
  · intro h
    exact ⟨h.imp fun _ _ hagree => hagree.1, h.imp fun _ _ hagree => hagree.2⟩
  · rintro ⟨hsame, hfull⟩
    induction hsame with
    | nil => exact .nil
    | cons hhead _ ih =>
        cases hfull with
        | cons hchar hrest => exact .cons ⟨hhead, hchar⟩ (ih hrest)

theorem agree_of_unitsAt (hunicode : ctx.unicode = true) (hfold : Folding (ctx.key fold))
    (hpos : pos ≤ ctx.input.length) (h : ctx.UnitsAt group fold pos dir)
    (hedge : ctx.window pos dir (group.2 - group.1) = [] ∨
      splits (ctx.input.take (advance pos dir (group.2 - group.1)))
        (ctx.input.drop (advance pos dir (group.2 - group.1))) = false) :
    List.Forall₂ (Agree (ctx.key fold)) (decode (ctx.captured group))
      (ctx.adjacentChars pos dir (decode (ctx.captured group)).length) := by
  have hagree := hfold.decode_agree h.2
  rw [hagree.length_eq, adjacent_window hunicode hpos hedge]
  exact hagree

theorem capturedAt_iff (hunicode : ctx.unicode = true) : ctx.CapturedAt group fold pos dir ↔
    (decode (ctx.captured group)).map (ctx.key fold) =
      (ctx.adjacentChars pos dir (decode (ctx.captured group)).length).map (ctx.key fold) := by
  simp only [CapturedAt, chars, hunicode, if_true]

theorem hasRoom_of_splits
    (h : splits (ctx.input.take (advance pos dir len)) (ctx.input.drop (advance pos dir len)) =
      true) : ctx.HasRoom pos dir len := by
  obtain ⟨front, hi, lo, back, htake, hdrop, -, -⟩ := exists_split h
  cases dir with
  | forward =>
      have hlength := congrArg List.length hdrop
      simp only [advance, List.length_drop, List.length_cons] at hlength
      simp only [HasRoom]
      omega
  | backward =>
      have hlength := congrArg List.length htake
      simp only [advance, List.length_take, List.length_append, List.length_singleton] at hlength
      simp only [HasRoom]
      omega

theorem unitsEq_window (hin : ctx.Inside group) (hpos : pos ≤ ctx.input.length)
    (hroom : ctx.HasRoom pos dir (group.2 - group.1)) :
    ctx.unitsEq (ctx.captured group) (ctx.window pos dir (group.2 - group.1)) fold = true ↔
      ctx.UnitsAt group fold pos dir := by
  rw [unitsEq_iff ((length_captured hin).trans (length_window hroom hpos).symm)]
  exact (and_iff_right hroom).symm

theorem edge_of_not_splitsPair (hin : ctx.Inside group) (hpos : pos ≤ ctx.input.length)
    (hat : ctx.UnitsAt group fold pos dir) (h : ¬ ctx.SplitsPair group fold pos dir) :
    ctx.window pos dir (group.2 - group.1) = [] ∨
      splits (ctx.input.take (advance pos dir (group.2 - group.1)))
        (ctx.input.drop (advance pos dir (group.2 - group.1))) = false := by
  by_cases hlen : 0 < group.2 - group.1
  · right
    rw [← Bool.not_eq_true]
    exact fun hsplits => h ⟨hlen, hsplits, (unitsEq_window hin hpos hat.1).mpr hat⟩
  · left
    rw [← List.length_eq_zero_iff, length_window hat.1 hpos]
    omega

/-- Units agree where characters do, but for windows that end inside a pair and
for supplementary characters that only fold to each other. -/
theorem unitsAt_iff (hunicode : ctx.unicode = true) (hfold : Folding (ctx.key fold))
    (hin : ctx.Inside group) (hpos : pos ≤ ctx.input.length) :
    (ctx.UnitsAt group fold pos dir ↔ ctx.CapturedAt group fold pos dir) ↔
      ¬ ctx.SplitsPair group fold pos dir ∧ ¬ ctx.FoldsSupplementary group fold pos dir := by
  have hsupplementary : ctx.FoldsSupplementary group fold pos dir ↔
      ctx.CapturedAt group fold pos dir ∧
        ¬ List.Forall₂ (fun c d => 0x10000 ≤ c → c = d) (decode (ctx.captured group))
          (ctx.adjacentChars pos dir (decode (ctx.captured group)).length) := by
    simp only [FoldsSupplementary, chars, hunicode, if_true]
  rw [hsupplementary]
  constructor
  · intro h
    have hsplit : ¬ ctx.SplitsPair group fold pos dir := by
      rintro ⟨hlen, hsplits, hunits⟩
      have hroom := hasRoom_of_splits hsplits
      have hat := (unitsEq_window hin hpos hroom).mp hunits
      have hne : ctx.window pos dir (group.2 - group.1) ≠ [] := by
        rw [← List.length_pos_iff, length_window hroom hpos]
        exact hlen
      exact not_capturedAt_of_splits hunicode hpos hfold hne hat.2 hsplits (h.mp hat)
    refine ⟨hsplit, ?_⟩
    rintro ⟨hmatch, hfull⟩
    have hat := h.mpr hmatch
    have hagree := agree_of_unitsAt hunicode hfold hpos hat
      (edge_of_not_splitsPair hin hpos hat hsplit)
    exact hfull (agree_iff.mp hagree).2
  · rintro ⟨hsplit, hfolds⟩
    constructor
    · intro hat
      have hagree := agree_of_unitsAt hunicode hfold hpos hat
        (edge_of_not_splitsPair hin hpos hat hsplit)
      exact (capturedAt_iff hunicode).mpr (agree_iff.mp hagree).1
    · intro hmatch
      have hfull := not_not.mp fun hnot => hfolds ⟨hmatch, hnot⟩
      exact unitsAt_of_agree hunicode hfold hin hpos
        (agree_iff.mpr ⟨(capturedAt_iff hunicode).mp hmatch, hfull⟩)

/-- Every unit is a character without `u` and `v`. -/
theorem unitsAt_legacy (hunicode : ctx.unicode = false) (hin : ctx.Inside group)
    (hpos : pos ≤ ctx.input.length) (hroom : dir = .backward → group.2 - group.1 ≤ pos) :
    ctx.UnitsAt group fold pos dir ↔ ctx.CapturedAt group fold pos dir := by
  have hlegacy : ctx.chars = List.map UInt16.toNat := by
    funext units
    rw [chars, hunicode]
    rfl
  have hadjacent : ctx.adjacentChars pos dir (group.2 - group.1) =
      (ctx.window pos dir (group.2 - group.1)).map UInt16.toNat := by
    cases dir with
    | forward =>
        simp only [adjacentChars, hlegacy, window]
        rw [← List.map_take, List.drop_take, Nat.add_sub_cancel_left]
    | backward =>
        simp only [adjacentChars, hlegacy, window]
        rw [← List.map_drop, List.length_map, List.length_take, Nat.min_eq_left hpos]
  have hmatch : ctx.CapturedAt group fold pos dir ↔
      (ctx.captured group).map (fun u => ctx.key fold u.toNat) =
        (ctx.window pos dir (group.2 - group.1)).map fun u => ctx.key fold u.toNat := by
    simp only [CapturedAt, hlegacy, List.length_map, length_captured hin, hadjacent, List.map_map]
    exact Iff.rfl
  rw [hmatch]
  refine ⟨And.right, fun hunits => ⟨?_, hunits⟩⟩
  cases dir with
  | forward =>
      have hlength := congrArg List.length hunits
      rw [List.length_map, List.length_map, length_captured hin, window, List.length_drop,
        List.length_take] at hlength
      simp only [HasRoom]
      omega
  | backward => exact hroom rfl

end Ctx

namespace Matcher

/-- A backreference succeeds where the characters of its group stand next to the
position, moves by their length, and computes no position outside the input. A
group that has not taken part matches the empty string; looking up a group that
has no slot meets nothing. -/
def BackrefMeets (m : Matcher) (addr indices : List Nat) (fold : Bool) (c : Cfg) : Prop :=
  let r := m.dispatch (.node ⟨addr, .backref indices fold⟩) c
  match Ctx.chosenGroup c.store.caps.values indices with
  | none => False
  | some none => r = (true, c)
  | some (some group) =>
      m.ctx.InRange group c.store.pos c.store.dir ∧
        (r.1 = true ↔ m.ctx.CapturedAt group fold c.store.pos c.store.dir) ∧
        (r.1 = true →
          r.2 = c.setPos (Ctx.advance c.store.pos c.store.dir (group.2 - group.1)))

variable {m : Matcher} {addr indices : List Nat} {fold : Bool} {group : Span} {c : Cfg}

theorem dispatch_backref (addr : List Nat) (fold : Bool)
    (hgroup : Ctx.chosenGroup c.store.caps.values indices = some (some group))
    (hin : m.ctx.Inside group) (hpos : c.store.pos ≤ m.ctx.input.length) :
    ((m.dispatch (.node ⟨addr, .backref indices fold⟩) c).1 = true ↔
        m.ctx.UnitsAt group fold c.store.pos c.store.dir) ∧
      ((m.dispatch (.node ⟨addr, .backref indices fold⟩) c).1 = true →
        (m.dispatch (.node ⟨addr, .backref indices fold⟩) c).2 =
          c.setPos (Ctx.advance c.store.pos c.store.dir (group.2 - group.1))) := by
  have hd : m.dispatch (.node ⟨addr, .backref indices fold⟩) c = moveTo c
      (m.ctx.backrefEnd indices fold c.store.pos c.store.dir c.store.caps.values) := rfl
  have hunits : (m.ctx.HasRoom c.store.pos c.store.dir (group.2 - group.1) ∧
      m.ctx.unitsEq (m.ctx.captured group)
        (m.ctx.window c.store.pos c.store.dir (group.2 - group.1)) fold = true) ↔
      m.ctx.UnitsAt group fold c.store.pos c.store.dir := by
    constructor
    · exact fun h => (Ctx.unitsEq_window hin hpos h.1).mp h.2
    · exact fun h => ⟨h.1, (Ctx.unitsEq_window hin hpos h.1).mpr h⟩
  rw [hd, Ctx.backrefEnd_eq hgroup hpos]
  by_cases hat : m.ctx.UnitsAt group fold c.store.pos c.store.dir
  · rw [if_pos (hunits.mpr hat)]
    exact ⟨iff_of_true rfl hat, fun _ => rfl⟩
  · rw [if_neg fun h => hat (hunits.mp h)]
    exact ⟨iff_of_false nofun hat, nofun⟩

theorem key_folding (h : Folding m.ctx.tables.simpleCaseFold) (hunicode : m.ctx.unicode = true)
    (fold : Bool) : Folding (m.ctx.key fold) := by
  cases fold with
  | false => exact Folding.id
  | true =>
      have hkey : m.ctx.key true = m.ctx.tables.simpleCaseFold := by
        funext c
        simp only [Ctx.key, Ctx.canonicalize, hunicode, if_true]
      rw [hkey]
      exact h

/-- At a state inside the input. -/
theorem backrefMeets_iff (htables : Folding m.ctx.tables.simpleCaseFold)
    (hin : CfgInside m.ctx c) (addr indices : List Nat) (fold : Bool) :
    m.BackrefMeets addr indices fold c ↔
      Ctx.HasSlots c.store.caps.values indices ∧
        ∀ group, Ctx.chosenGroup c.store.caps.values indices = some (some group) →
          m.ctx.BackrefExact group fold c.store.pos c.store.dir := by
  have hslots : Ctx.chosenGroup c.store.caps.values indices ≠ none ↔
      Ctx.HasSlots c.store.caps.values indices := Ctx.chosenGroup_ne_none
  have hd : m.dispatch (.node ⟨addr, .backref indices fold⟩) c = moveTo c
    (m.ctx.backrefEnd indices fold c.store.pos c.store.dir c.store.caps.values) := rfl
  unfold BackrefMeets
  rcases hgroup : Ctx.chosenGroup c.store.caps.values indices with _ | _ | group
  · exact iff_of_false id fun h => hslots.mpr h.1 hgroup
  · rw [hgroup] at hslots
    refine iff_of_true ?_ ⟨hslots.mp (Option.some_ne_none _), fun group h => ?_⟩
    · rw [hd, Ctx.backrefEnd, hgroup]
      rfl
    · cases Option.some.inj h
  · rw [hgroup] at hslots
    have hinside : m.ctx.Inside group := hin.captures group (Ctx.chosenGroup_mem hgroup)
    obtain ⟨hsuccess, hmove⟩ := dispatch_backref addr fold hgroup hinside hin.pos
    rw [and_iff_right (hslots.mp (Option.some_ne_none _))]
    simp only [Option.some.injEq, forall_eq']
    rw [hsuccess]
    constructor
    · rintro ⟨⟨-, -, hroom⟩, hmeets, -⟩
      refine ⟨hroom, fun hunicode => ?_⟩
      exact (Ctx.unitsAt_iff hunicode (key_folding htables hunicode fold) hinside
        hin.pos).mp hmeets
    · rintro ⟨hroom, hexact⟩
      refine ⟨⟨hinside, hin.pos, hroom⟩, ?_, fun h => hmove (hsuccess.mpr h)⟩
      cases hunicode : m.ctx.unicode with
      | false => exact Ctx.unitsAt_legacy hunicode hinside hin.pos hroom
      | true =>
          exact (Ctx.unitsAt_iff hunicode (key_folding htables hunicode fold) hinside
            hin.pos).mpr (hexact hunicode)

/-- Wherever a run comes to a backreference. -/
theorem backrefs_meet_iff (m : Matcher) (htables : Folding m.ctx.tables.simpleCaseFold)
    (n start : Nat) (caps : Caps) (memo : List MemoEntry) (hstart : start ≤ m.ctx.input.length)
    (hcaps : m.ctx.CapturesInside (caps.rollback 0).values) (addr indices : List Nat) (fold : Bool)
    (T : List Task) (C : List Choice) (s : Store)
    (hstate : (m.recordedRun n start caps memo).state =
      .running ⟨.node ⟨addr, .backref indices fold⟩ :: T, C, s⟩) :
    m.BackrefMeets addr indices fold ⟨T, C, s⟩ ↔
      Ctx.HasSlots s.caps.values indices ∧
        ∀ group, Ctx.chosenGroup s.caps.values indices = some (some group) →
          m.ctx.BackrefExact group fold s.pos s.dir := by
  have hinside := recorded_inside (m := m) n memo hstart hcaps
  unfold StateInside at hinside
  rw [hstate] at hinside
  exact backrefMeets_iff htables hinside.1.2 addr indices fold

end Matcher

/-- Tables that fold ASCII and Deseret letters. -/
def deseretTables : UnicodeTables where
  simpleCaseFold c :=
    if 0x41 ≤ c ∧ c ≤ 0x5A then c + 0x20 else if 0x10400 ≤ c ∧ c ≤ 0x10427 then c + 40 else c
  nonUnicodeCanonicalize c := if 0x61 ≤ c ∧ c ≤ 0x7A then c - 0x20 else c
  generalCategory _ := "Cn"
  script _ := none
  scriptExtensions _ := []
  binaryProperty _ _ := none

theorem deseretTables_folding : Folding deseretTables.simpleCaseFold := by
  constructor
  · intro c u hlow hhigh
    simp only [deseretTables]
    split
    · omega
    · split <;> omega
  · intro c
    simp only [deseretTables]
    split
    · omega
    · split <;> omega

/-- A matcher of a program with one group under `u`. -/
def unicodeMatcher (program : Node) (input : List UInt16) : Matcher where
  re := ⟨program, true, 1, program.isBackrefFree, memoSafeAtoms [] true program, none⟩
  ctx := ⟨deseretTables, input, true⟩
  options := {}

/-- `/(A)\1/iu` on `Aa`. -/
def asciiPairMatcher : Matcher :=
  unicodeMatcher (.sequence [.capture 1 (.char 0x61 true), .backref [1] true]) [0x41, 0x61]

/-- `/(𐐀)\1/iu` on `𐐀𐐨`. -/
def deseretMatcher : Matcher :=
  unicodeMatcher (.sequence [.capture 1 (.char 0x10428 true), .backref [1] true])
    [0xD801, 0xDC00, 0xD801, 0xDC28]

/-- `/(?<=\1(AA))/u` on `AA`. -/
def roomlessMatcher : Matcher :=
  unicodeMatcher (.lookbehind false (.sequence [.backref [1] false,
    .capture 1 (.sequence [.char 0x41 false, .char 0x41 false])])) [0x41, 0x41]

/-- `/(\u{D801})A\1/u` on `\uD801A𐐀`. -/
def halfPairMatcher : Matcher :=
  unicodeMatcher (.sequence [.capture 1 (.char 0xD801 false), .char 0x41 false,
    .backref [1] false]) [0xD801, 0x41, 0xD801, 0xDC00]

/-- `/[[a]\q{(}]\1/v` on `(`: the parser takes the parenthesis of the class string
for a group when it counts, and the program has none. -/
def slotlessMatcher : Matcher where
  re := ⟨.sequence [.char 0x28 false, .backref [1] false], true, 0, false, [], none⟩
  ctx := ⟨deseretTables, [0x28], true⟩
  options := {}

theorem backrefs_meet_ascii : ∃ T C s,
    (asciiPairMatcher.recordedRun 6 0 (Caps.new 1) []).state =
      .running ⟨.node ⟨[1], .backref [1] true⟩ :: T, C, s⟩ ∧
    (asciiPairMatcher.BackrefMeets [1] [1] true ⟨T, C, s⟩ ↔
      Ctx.HasSlots s.caps.values [1] ∧
        ∀ group, Ctx.chosenGroup s.caps.values [1] = some (some group) →
          asciiPairMatcher.ctx.BackrefExact group true s.pos s.dir) := by
  refine ⟨_, _, _, rfl, ?_⟩
  have hcaps : asciiPairMatcher.ctx.CapturesInside ((Caps.new 1).rollback 0).values := by
    intro span hmem
    cases List.eq_of_mem_replicate hmem
  exact Matcher.backrefs_meet_iff asciiPairMatcher deseretTables_folding 6 0 (Caps.new 1) []
    (by decide) hcaps [1] [1] true _ _ _ rfl

/-- The letters `𐐀` and `𐐨` fold to each other; their units do not. -/
theorem backref_misses_folded_pair : ∃ T C s,
    (deseretMatcher.recordedRun 6 0 (Caps.new 1) []).state =
      .running ⟨.node ⟨[1], .backref [1] true⟩ :: T, C, s⟩ ∧
    ¬ deseretMatcher.BackrefMeets [1] [1] true ⟨T, C, s⟩ := by
  refine ⟨_, _, _, rfl, ?_⟩
  intro h
  have hmeets : false = true ↔
      deseretMatcher.ctx.CapturedAt (0, 2) true 2 .forward := h.2.1
  have hmatch : deseretMatcher.ctx.CapturedAt (0, 2) true 2 .forward := by
    unfold Ctx.CapturedAt
    decide
  exact Bool.false_ne_true (hmeets.mpr hmatch)

/-- In a lookbehind the captured text can be longer than what is left of the input. -/
example : ∃ T C s,
    (roomlessMatcher.recordedRun 12 2 (Caps.new 1) []).state =
      .running ⟨.node ⟨[0, 0], .backref [1] false⟩ :: T, C, s⟩ ∧
    ¬ roomlessMatcher.BackrefMeets [0, 0] [1] false ⟨T, C, s⟩ := by
  refine ⟨_, _, _, rfl, ?_⟩
  intro h
  have hrange : roomlessMatcher.ctx.InRange (0, 2) 0 .backward := h.1
  exact absurd (hrange.2.2 rfl) (by decide)

/-- The high surrogate of a pair is not the character `\uD801`. -/
example : ∃ T C s,
    (halfPairMatcher.recordedRun 8 0 (Caps.new 1) []).state =
      .running ⟨.node ⟨[2], .backref [1] false⟩ :: T, C, s⟩ ∧
    ¬ halfPairMatcher.BackrefMeets [2] [1] false ⟨T, C, s⟩ := by
  refine ⟨_, _, _, rfl, ?_⟩
  intro h
  have hmeets : true = true ↔ halfPairMatcher.ctx.CapturedAt (0, 1) false 2 .forward := h.2.1
  have hmatch := hmeets.mp rfl
  unfold Ctx.CapturedAt at hmatch
  exact absurd hmatch (by decide)

/-- The group that was counted has no slot. -/
example : ∃ T C s,
    (slotlessMatcher.recordedRun 4 0 (Caps.new 0) []).state =
      .running ⟨.node ⟨[1], .backref [1] false⟩ :: T, C, s⟩ ∧
    ¬ slotlessMatcher.BackrefMeets [1] [1] false ⟨T, C, s⟩ := by
  refine ⟨_, _, _, rfl, ?_⟩
  exact id

end Slag.Regexp
