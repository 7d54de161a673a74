import Mathlib.Order.CompletePartialOrder
import Mathlib.Data.Set.Basic
import Mathlib.Order.SymmDiff
import Slag.Keyed.Refinement

/-!
The methods that take another Set. The argument is read through its size, its
`has` and its `keys`, which for a Set are the collection's own; nothing here
writes to either set.
-/

namespace Slag.Keyed

open Slag.Crux Slag.Slots Slag.Machine

/-- Like `sameValue`, but the two zeros are equal. -/
def sameValueZero : Value → Value → Bool
  | .number a, .number b => F64.eq a b || a.isNaN && b.isNaN
  | x, y => sameValue x y

/-! ## The methods -/

def findSetIndex (set : List (Option SetEntry)) (value : Value) : Option Nat :=
  set.findIdx? fun entry => entry.any fun existing => sameValue existing value

/-- The values of an iterator over the entries, one `next` after the other. -/
def iteratorValues (entries : List (Option SetEntry)) : Nat → Nat → List Value
  | 0, _ => []
  | fuel + 1, index =>
      match nextLive (entries.drop index) index with
      | some (i, value) => value :: iteratorValues entries fuel (i + 1)
      | none => []

namespace SetCollection

variable (word : Value → UInt64)

/-- `set_data_count`, and the `size` of the argument. -/
def size (c : SetCollection) : Nat :=
  liveCount c.entries

def has (c : SetCollection) (value : Value) : Bool :=
  contains word c (canonicalizeKey value)

def keys (c : SetCollection) : List Value :=
  iteratorValues c.entries (c.entries.length + 1) 0

def pushIfNew (result : List (Option SetEntry)) (value : Value) : List (Option SetEntry) :=
  if (findSetIndex result value).isNone then result ++ [some value] else result

def emptyIfFound (result : List (Option SetEntry)) (value : Value) : List (Option SetEntry) :=
  match findSetIndex result value with
  | some index => result.set index none
  | none => result

def union (a b : SetCollection) : SetCollection :=
  fromEntries word (b.keys.foldl (fun result next => pushIfNew result (canonicalizeKey next)) a.entries)

def intersection (a b : SetCollection) : SetCollection :=
  fromEntries word <|
    if a.size ≤ b.size then
      a.entries.reduceOption.foldl (fun result value =>
        if has word b value then pushIfNew result value else result) []
    else
      b.keys.foldl (fun result next =>
        let value := canonicalizeKey next
        if (findSetIndex a.entries value).isSome then pushIfNew result value else result) []

def difference (a b : SetCollection) : SetCollection :=
  fromEntries word <|
    if a.size ≤ b.size then
      a.entries.map fun entry => entry.filter fun value => !has word b value
    else b.keys.foldl (fun result next => emptyIfFound result (canonicalizeKey next)) a.entries

def symmetricDifference (a b : SetCollection) : SetCollection :=
  fromEntries word <|
    b.keys.foldl (fun result next =>
      let value := canonicalizeKey next
      let result := pushIfNew result value
      if contains word a value then emptyIfFound result value else result) a.entries

/-- Walk the entries for as long as they are live: does `test` hold of all? -/
def allAtFront (test : Value → Bool) : List (Option SetEntry) → Bool
  | some value :: entries => test value && allAtFront test entries
  | _ => true

def isSubsetOf (a b : SetCollection) : Bool :=
  if b.size < a.size then false else allAtFront (has word b) a.entries

def isSupersetOf (a b : SetCollection) : Bool :=
  if a.size < b.size then false
  else b.keys.all fun next => (findSetIndex a.entries (canonicalizeKey next)).isSome

def isDisjointFrom (a b : SetCollection) : Bool :=
  if a.size ≤ b.size then allAtFront (fun value => !has word b value) a.entries
  else b.keys.all fun next => !contains word a (canonicalizeKey next)

end SetCollection

open SetCollection (allAtFront emptyIfFound fromEntries pushIfNew)

/-! ## Reached sets and their elements -/

/-- Some calls on a new Set lead to the collection. -/
def Reached (word : Value → UInt64) (c : SetCollection) : Prop :=
  ∃ calls, (run (setStep word) (start (setKeying word) []) calls).1.data = c

/-- The mathematical set of the live elements of a list of slots. -/
def elementsOf (entries : List (Option SetEntry)) : Set Value :=
  {v | ∃ e ∈ entries.reduceOption, sameValueZero e v = true}

def SetCollection.elements (c : SetCollection) : Set Value :=
  elementsOf c.entries

/-- Scans do not look at the words. -/
def scanKeying : Keying SetEntry Value UInt64 :=
  setKeying fun _ => 0

theorem scanKeying_lawful : scanKeying.Lawful :=
  setKeying_lawful fun _ _ _ => rfl

/-- Distinct elements, and no negative zero. -/
structure Tidy (entries : List (Option SetEntry)) : Prop where
  distinct : Distinct scanKeying entries
  canonical : ∀ e ∈ entries.reduceOption, canonicalizeKey e = e

theorem canonicalizeKey_same {x y : F64} :
    canonicalizeKey (.number x) = canonicalizeKey (.number y) ↔
      x = y ∨ (x = F64.zero ∨ x = F64.negZero) ∧ (y = F64.zero ∨ y = F64.negZero) := by
  have hne : F64.zero ≠ F64.negZero := by decide
  unfold canonicalizeKey
  by_cases hx : x = F64.negZero <;> by_cases hy : y = F64.negZero
  · simp [hx, hy]
  · simp only [hx, hy, if_true, if_false, Value.number.injEq]
    grind
  · simp only [hx, hy, if_true, if_false, Value.number.injEq]
    grind
  · simp only [hx, hy, if_false, Value.number.injEq]
    grind

theorem canonicalizeKey_number (x : F64) : ∃ z, canonicalizeKey (.number x) = .number z := by
  by_cases hx : x = F64.negZero
  · exact ⟨F64.zero, if_pos hx⟩
  · exact ⟨x, if_neg hx⟩

theorem sameValueZero_iff {a b : Value} :
    sameValueZero a b = true ↔ sameValue (canonicalizeKey a) (canonicalizeKey b) = true := by
  cases a with
  | number x =>
      obtain ⟨z, hz⟩ := canonicalizeKey_number x
      cases b with
      | number y =>
          obtain ⟨w, hw⟩ := canonicalizeKey_number y
          have hsame := @canonicalizeKey_same x y
          rw [hz, hw, Value.number.injEq] at hsame
          have hequal : sameValue (.number z) (.number w) = true ↔ z = w := by simp [sameValue]
          rw [hz, hw, hequal, hsame, sameValueZero, Bool.or_eq_true, F64.eq_iff, Bool.and_eq_true]
          cases x <;> cases y <;> simp [F64.isNaN, F64.zero, F64.negZero]
      | _ =>
          rw [hz]
          simp [sameValueZero, sameValue, canonicalizeKey]
  | _ =>
      cases b with
      | number y =>
          obtain ⟨w, hw⟩ := canonicalizeKey_number y
          rw [hw]
          simp [sameValueZero, sameValue, canonicalizeKey]
      | _ => rfl

/-! ## Lists of slots as sets -/

/-- The values that are the same element as one. -/
def alike (x : Value) : Set Value :=
  {v | sameValueZero x v = true}

/-- The elements of a list of values. -/
def unionOf (l : List Value) : Set Value :=
  {v | ∃ x ∈ l, sameValueZero x v = true}

variable {es : List (Option SetEntry)} {x v w : Value}

theorem alike_congr (h : sameValueZero v w = true) :
    sameValueZero x v = true ↔ sameValueZero x w = true := by
  rw [sameValueZero_iff] at *
  rw [sameValueZero_iff]
  exact ⟨fun hx => sameValue_trans hx h, fun hx => sameValue_trans hx (sameValue_symm h)⟩

theorem elementsOf_congr (h : sameValueZero v w = true) : v ∈ elementsOf es ↔ w ∈ elementsOf es := by
  constructor
  · rintro ⟨e, he, hev⟩
    exact ⟨e, he, (alike_congr h).mp hev⟩
  · rintro ⟨e, he, hew⟩
    exact ⟨e, he, (alike_congr h).mpr hew⟩

theorem sameValueZero_canonical : sameValueZero (canonicalizeKey x) v = sameValueZero x v := by
  rw [Bool.eq_iff_iff, sameValueZero_iff, sameValueZero_iff, canonicalizeKey_idem]

theorem sameValueZero_refl : sameValueZero x x = true :=
  sameValueZero_iff.mpr (sameValue_refl _)

theorem sameValueZero_symm (h : sameValueZero v w = true) : sameValueZero w v = true :=
  sameValueZero_iff.mpr (sameValue_symm (sameValueZero_iff.mp h))

theorem Tidy.sameValue_iff (hes : Tidy es) {e : Value} (he : e ∈ es.reduceOption) :
    sameValueZero e v = true ↔ sameValue e (canonicalizeKey v) = true := by
  rw [sameValueZero_iff, hes.canonical e he]

theorem Tidy.found (hes : Tidy es) : (findSetIndex es (canonicalizeKey v)).isSome = true ↔ v ∈ elementsOf es := by
  have hany := @any_live SetEntry Value UInt64 scanKeying es (canonicalizeKey v)
  have hfind : findSetIndex es (canonicalizeKey v) = find scanKeying es (canonicalizeKey v) := rfl
  rw [hfind, ← hany, List.any_eq_true]
  constructor
  · rintro ⟨e, he, hev⟩
    exact ⟨e, he, (hes.sameValue_iff he).mpr hev⟩
  · rintro ⟨e, he, hev⟩
    exact ⟨e, he, (hes.sameValue_iff he).mp hev⟩

theorem Tidy.push (hes : Tidy es) :
    Tidy (pushIfNew es (canonicalizeKey x)) ∧
      elementsOf (pushIfNew es (canonicalizeKey x)) = elementsOf es ∪ alike x := by
  unfold pushIfNew
  cases hfound : findSetIndex es (canonicalizeKey x) with
  | some i =>
      refine ⟨hes, ?_⟩
      have hx : x ∈ elementsOf es := hes.found.mp (by rw [hfound]; rfl)
      refine (Set.union_eq_self_of_subset_right fun v hv => ?_).symm
      exact (elementsOf_congr hv).mp hx
  | none =>
      rw [Option.isNone_none, if_pos rfl]
      have hlive : (es ++ [some (canonicalizeKey x)]).reduceOption =
          es.reduceOption ++ [canonicalizeKey x] := by
        rw [List.reduceOption_append, List.reduceOption_singleton]
        rfl
      refine ⟨⟨hes.distinct.push scanKeying_lawful hfound, fun e he => ?_⟩, Set.ext fun v => ?_⟩
      · rw [hlive, List.mem_append, List.mem_singleton] at he
        rcases he with he | rfl
        · exact hes.canonical e he
        · exact canonicalizeKey_idem x
      · simp only [elementsOf, hlive, List.mem_append, List.mem_singleton, Set.mem_ofPred_eq,
          Set.mem_union, alike]
        constructor
        · rintro ⟨e, he | rfl, hev⟩
          · exact .inl ⟨e, he, hev⟩
          · exact .inr (sameValueZero_canonical ▸ hev)
        · rintro (⟨e, he, hev⟩ | hxv)
          · exact ⟨e, .inl he, hev⟩
          · exact ⟨_, .inr rfl, sameValueZero_canonical.trans hxv⟩

theorem Tidy.filter (hes : Tidy es) (p : Value → Bool) :
    Tidy (es.map (Option.filter p)) ∧
      elementsOf (es.map (Option.filter p)) = {v | ∃ e ∈ es.reduceOption, p e = true ∧ v ∈ alike e} := by
  refine ⟨⟨hes.distinct.of_keys fun i e he => ⟨e, ?_, rfl⟩, fun e he => ?_⟩, Set.ext fun v => ?_⟩
  · rw [List.getElem?_map] at he
    obtain ⟨slot, hslot, hfilter⟩ := Option.map_eq_some_iff.mp he
    rw [hslot, (Option.filter_eq_some_iff.mp hfilter).1]
  · rw [reduceOption_map_filter] at he
    exact hes.canonical e (List.mem_filter.mp he).1
  · simp only [elementsOf, reduceOption_map_filter, List.mem_filter, Set.mem_ofPred_eq, alike,
      and_assoc]

/-- With the values of a list pushed one after the other. -/
theorem Tidy.pushAll (hes : Tidy es) (l : List Value) :
    Tidy (l.foldl (fun result next => pushIfNew result (canonicalizeKey next)) es) ∧
      elementsOf (l.foldl (fun result next => pushIfNew result (canonicalizeKey next)) es) =
        elementsOf es ∪ unionOf l := by
  induction l generalizing es with
  | nil =>
      refine ⟨hes, (Set.union_eq_self_of_subset_right ?_).symm⟩
      rintro v ⟨x, hx, -⟩
      cases hx
  | cons x l ih =>
      obtain ⟨hpush, helements⟩ := hes.push (x := x)
      obtain ⟨htidy, hall⟩ := ih hpush
      refine ⟨htidy, hall.trans ?_⟩
      rw [helements, Set.union_assoc]
      congr 1
      ext v
      simp only [unionOf, List.mem_cons, exists_eq_or_imp, Set.mem_union, Set.mem_ofPred_eq, alike]

theorem Tidy.empty (hes : Tidy es) :
    Tidy (emptyIfFound es (canonicalizeKey x)) ∧
      elementsOf (emptyIfFound es (canonicalizeKey x)) = elementsOf es \ alike x := by
  unfold emptyIfFound
  cases hfound : findSetIndex es (canonicalizeKey x) with
  | none =>
      refine ⟨hes, Set.ext fun v => ⟨fun hv => ⟨hv, fun hxv => ?_⟩, And.left⟩⟩
      have hx := hes.found.mpr ((elementsOf_congr hxv).mpr hv)
      rw [hfound] at hx
      cases hx
  | some i =>
      dsimp only
      rw [set_find scanKeying_lawful hes.distinct hfound]
      obtain ⟨htidy, helements⟩ := hes.filter fun e => !sameValue e (canonicalizeKey x)
      refine ⟨htidy, helements.trans (Set.ext fun v => ?_)⟩
      simp only [Set.mem_ofPred_eq, Set.mem_sdiff, alike, Bool.not_eq_true', elementsOf]
      constructor
      · rintro ⟨e, he, hne, hev⟩
        refine ⟨⟨e, he, hev⟩, fun hxv => ?_⟩
        have hex : sameValueZero e x = true := (alike_congr (sameValueZero_symm hxv)).mp hev
        rw [(hes.sameValue_iff he).mp hex] at hne
        cases hne
      · rintro ⟨⟨e, he, hev⟩, hxv⟩
        refine ⟨e, he, ?_, hev⟩
        by_contra hne
        rw [Bool.not_eq_false] at hne
        have hex := (hes.sameValue_iff he).mpr hne
        exact hxv ((alike_congr hev).mp (sameValueZero_symm hex))

theorem Tidy.emptyAll (hes : Tidy es) (l : List Value) :
    Tidy (l.foldl (fun result next => emptyIfFound result (canonicalizeKey next)) es) ∧
      elementsOf (l.foldl (fun result next => emptyIfFound result (canonicalizeKey next)) es) =
        elementsOf es \ unionOf l := by
  induction l generalizing es with
  | nil =>
      refine ⟨hes, Set.ext fun v => ⟨fun hv => ⟨hv, ?_⟩, And.left⟩⟩
      rintro ⟨x, hx, -⟩
      cases hx
  | cons x l ih =>
      obtain ⟨hempty, helements⟩ := hes.empty (x := x)
      obtain ⟨htidy, hall⟩ := ih hempty
      refine ⟨htidy, hall.trans ?_⟩
      rw [helements, Set.sdiff_sdiff]
      congr 1
      ext v
      simp only [unionOf, List.mem_cons, exists_eq_or_imp, Set.mem_union, Set.mem_ofPred_eq, alike]

variable {A : Set Value} {c : SetCollection}

/-- One step of the symmetric difference: the value goes if the receiver has it,
and is there otherwise. -/
theorem Tidy.toggleAll (hes : Tidy es) {p : Value → Bool}
    (hp : ∀ x, p (canonicalizeKey x) = true ↔ x ∈ A)
    (hA : ∀ {v w}, sameValueZero v w = true → (v ∈ A ↔ w ∈ A)) (l : List Value) :
    let r := l.foldl (fun result next =>
      let value := canonicalizeKey next
      let result := pushIfNew result value
      if p value then emptyIfFound result value else result) es
    Tidy r ∧ elementsOf r = {v | (v ∈ A → v ∈ elementsOf es ∧ v ∉ unionOf l) ∧
      (v ∉ A → v ∈ elementsOf es ∨ v ∈ unionOf l)} := by
  induction l generalizing es with
  | nil =>
      refine ⟨hes, Set.ext fun v => ?_⟩
      have hnil : v ∉ unionOf [] := by
        rintro ⟨x, hx, -⟩
        cases hx
      have hes : ∀ P : Prop, P ↔ (v ∈ A → P) ∧ (v ∉ A → P) := fun P => by tauto
      simp only [Set.mem_ofPred_eq, hnil, not_false_eq_true, and_true, or_false]
      exact hes _
  | cons x l ih =>
      obtain ⟨hpush, hpushed⟩ := hes.push (x := x)
      obtain ⟨hempty, hemptied⟩ := hpush.empty (x := x)
      have hcons : ∀ v, v ∈ unionOf (x :: l) ↔ v ∈ alike x ∨ v ∈ unionOf l := fun v => by
        simp only [unionOf, List.mem_cons, exists_eq_or_imp, Set.mem_ofPred_eq, alike]
      have hstep : ∃ r, Tidy r ∧ (∀ v, v ∈ elementsOf r ↔
            (v ∈ A → v ∈ elementsOf es ∧ v ∉ alike x) ∧
              (v ∉ A → v ∈ elementsOf es ∨ v ∈ alike x)) ∧
          (if p (canonicalizeKey x) then emptyIfFound
              (pushIfNew es (canonicalizeKey x)) (canonicalizeKey x)
            else pushIfNew es (canonicalizeKey x)) = r := by
        refine ⟨_, ?_, fun v => ?_, rfl⟩
        · split
          · exact hempty
          · exact hpush
        · by_cases hx : x ∈ A
          · rw [if_pos ((hp x).mpr hx), hemptied, hpushed, Set.mem_sdiff, Set.mem_union]
            have hxv : v ∈ alike x → v ∈ A := fun hv => (hA hv).mp hx
            tauto
          · rw [if_neg (fun h => hx ((hp x).mp h)), hpushed, Set.mem_union]
            have hxv : v ∈ alike x → v ∉ A := fun hv h => hx ((hA hv).mpr h)
            tauto
      obtain ⟨r, hr, helements, hvalue⟩ := hstep
      obtain ⟨htidy, hall⟩ := ih hr
      rw [← hvalue] at htidy hall
      refine ⟨htidy, hall.trans (Set.ext fun v => ?_)⟩
      rw [hvalue, Set.mem_ofPred_eq, Set.mem_ofPred_eq, helements, hcons]
      by_cases hv : v ∈ A
      · simp only [hv, true_implies, not_true_eq_false, false_implies, and_true, and_assoc, not_or]
      · simp only [hv, false_implies, not_false_eq_true, true_implies, true_and, or_assoc]

/-! ## What a Set tells of itself -/

theorem iteratorValues_eq {fuel index : Nat} (hfuel : es.length < index + fuel) :
    iteratorValues es fuel index = (es.drop index).reduceOption := by
  induction fuel generalizing index with
  | zero =>
      rw [List.drop_of_length_le (by omega)]
      rfl
  | succ fuel ih =>
      obtain ⟨hsome, hnone⟩ := @nextLive_spec SetEntry (es.drop index) index
      rw [iteratorValues]
      cases hnext : nextLive (es.drop index) index with
      | none =>
          have hdead := hnone hnext
          refine (List.eq_nil_iff_forall_not_mem.mpr fun e he => ?_).symm
          obtain ⟨i, hi⟩ := List.mem_iff_getElem?.mp (List.reduceOption_mem_iff.mp he)
          rw [hdead i (List.getElem?_eq_some_iff.mp hi).1] at hi
          cases hi
      | some q =>
          obtain ⟨j, e⟩ := q
          obtain ⟨k, rfl, hk, hbefore⟩ := hsome hnext
          dsimp only
          rw [ih (by omega)]
          have hsplit : es.drop index = (es.drop index).take k ++ some e :: es.drop (index + k + 1) := by
            conv_lhs => rw [← List.take_append_drop k (es.drop index)]
            congr 1
            obtain ⟨hlt, hget⟩ := List.getElem?_eq_some_iff.mp hk
            rw [List.drop_eq_getElem_cons hlt, hget, List.drop_drop, Nat.add_assoc]
          have hdead : ((es.drop index).take k).reduceOption = [] := by
            refine List.eq_nil_iff_forall_not_mem.mpr fun a ha => ?_
            obtain ⟨i, hi⟩ := List.mem_iff_getElem?.mp (List.reduceOption_mem_iff.mp ha)
            rw [List.getElem?_take] at hi
            split at hi
            · rename_i hik
              rw [hbefore i hik] at hi
              cases hi
            · cases hi
          rw [hsplit, List.reduceOption_append, hdead, List.nil_append,
            List.reduceOption_cons_of_some]

theorem keys_eq (c : SetCollection) : c.keys = c.entries.reduceOption := by
  rw [SetCollection.keys, iteratorValues_eq (by omega), List.drop_zero]

theorem unionOf_live : unionOf es.reduceOption = elementsOf es :=
  rfl

theorem size_eq (c : SetCollection) : c.size = c.entries.reduceOption.length := by
  rw [SetCollection.size, liveCount, List.countP_eq_length_filter, List.reduceOption_length_eq]

/-! ## Reached sets -/

theorem orderedStep_canonical {word : Value → UInt64} {l : List Value}
    (hl : ∀ e ∈ l, canonicalizeKey e = e) (call : SetCall) :
    ∀ e ∈ orderedStep (setKeying word) l (call.op word), canonicalizeKey e = e := by
  intro e he
  cases call with
  | add value =>
      simp only [SetCall.op, orderedStep] at he
      split at he
      · obtain ⟨x, hx, rfl⟩ := List.mem_map.mp he
        simpa using hl x hx
      · rcases List.mem_append.mp he with he | he
        · exact hl e he
        · rw [List.mem_singleton.mp he]
          exact canonicalizeKey_idem value
  | delete value => exact hl e (List.mem_filter.mp he).1
  | clear => cases he
  | has value => exact hl e he
  | size => exact hl e he
  | iterate kind => exact hl e he
  | next n => exact hl e he

theorem Reached.spec {word : Value → UInt64} (hword : Consistent word) (h : Reached word c) :
    c.Sound (setKeying word) ∧ Tidy c.entries := by
  obtain ⟨calls, rfl⟩ := h
  have hd : Distinct (setKeying word) [] := fun _ _ _ _ ha => by cases ha
  have hfaithful := set_faithful hword hd calls
  refine ⟨run_sound (setKeying_lawful hword) (setStep_eq word) hd calls, hfaithful.distinct, ?_⟩
  rw [hfaithful.order]
  have hall : ∀ (calls : List SetCall) (l : List Value), (∀ e ∈ l, canonicalizeKey e = e) →
      ∀ e ∈ (calls.map (SetCall.op word)).foldl (orderedStep (setKeying word)) l,
        canonicalizeKey e = e := by
    intro calls
    induction calls with
    | nil => exact fun _ hl => hl
    | cons call calls ih => exact fun l hl => ih _ (orderedStep_canonical hl call)
  exact hall calls _ nofun

section Methods

variable {word : Value → UInt64} {a b : SetCollection}

theorem contains_eq (hword : Consistent word) (hc : Reached word c) (k : Value) :
    SetCollection.contains word c k = (findSetIndex c.entries k).isSome := by
  obtain ⟨hsound, htidy⟩ := hc.spec hword
  rw [SetCollection.contains, SetCollection.slot,
    slot_eq_find (setKeying_lawful hword) hsound htidy.distinct]
  rfl

theorem has_iff (hword : Consistent word) (hc : Reached word c) (v : Value) :
    SetCollection.has word c v = true ↔ v ∈ c.elements := by
  rw [SetCollection.has, contains_eq hword hc, (hc.spec hword).2.found]
  rfl

theorem union_spec (hword : Consistent word) (ha : Reached word a) :
    Tidy (SetCollection.union word a b).entries ∧
      (SetCollection.union word a b).elements = a.elements ∪ b.elements := by
  have h := (ha.spec hword).2.pushAll b.keys
  rw [keys_eq, unionOf_live] at h
  rw [SetCollection.elements, SetCollection.union, fromEntries, fromEntries_entries,
    keys_eq]
  exact h

theorem tidy_nil : Tidy [] :=
  ⟨fun _ _ _ _ ha => (by cases ha), nofun⟩

theorem elementsOf_nil : elementsOf [] = ∅ := by
  refine Set.eq_empty_of_forall_notMem ?_
  rintro v ⟨e, he, -⟩
  cases he

/-- Collecting the values of a list that are in a set that does not tell alike values apart. -/
theorem collect_spec {p : Value → Bool} (l : List Value) (hp : ∀ x ∈ l, p x = true ↔ x ∈ A)
    (hA : ∀ {v w}, sameValueZero v w = true → (v ∈ A ↔ w ∈ A)) :
    let r := l.foldl (fun result x => if p x then pushIfNew result (canonicalizeKey x) else result) []
    Tidy r ∧ elementsOf r = A ∩ unionOf l := by
  dsimp only
  rw [← List.foldl_filter]
  obtain ⟨htidy, helements⟩ := tidy_nil.pushAll (l.filter p)
  refine ⟨htidy, helements.trans ?_⟩
  rw [elementsOf_nil, Set.empty_union]
  ext v
  simp only [unionOf, List.mem_filter, Set.mem_ofPred_eq, Set.mem_inter_iff]
  constructor
  · rintro ⟨x, ⟨hx, hpx⟩, hxv⟩
    exact ⟨(hA hxv).mp ((hp x hx).mp hpx), x, hx, hxv⟩
  · rintro ⟨hv, x, hx, hxv⟩
    exact ⟨x, ⟨hx, (hp x hx).mpr ((hA hxv).mpr hv)⟩, hxv⟩

theorem intersection_spec (hword : Consistent word) (ha : Reached word a) (hb : Reached word b) :
    Tidy (SetCollection.intersection word a b).entries ∧
      (SetCollection.intersection word a b).elements = a.elements ∩ b.elements := by
  have hta := (ha.spec hword).2
  rw [SetCollection.elements, SetCollection.intersection, fromEntries,
    fromEntries_entries]
  split
  · have h := collect_spec a.entries.reduceOption (fun x _ => has_iff hword hb x) elementsOf_congr
    rw [unionOf_live, Set.inter_comm] at h
    have hsame : ∀ (l : List Value) r, (∀ e ∈ l, canonicalizeKey e = e) →
        l.foldl (fun result value =>
          if SetCollection.has word b value then pushIfNew result value else result) r =
        l.foldl (fun result value => if SetCollection.has word b value then
          pushIfNew result (canonicalizeKey value) else result) r := by
      intro l
      induction l with
      | nil => exact fun _ _ => rfl
      | cons x l ih =>
          intro r hl
          rw [List.foldl_cons, List.foldl_cons, hl x List.mem_cons_self]
          exact ih _ fun e he => hl e (List.mem_cons_of_mem x he)
    rw [hsame _ _ hta.canonical]
    exact h
  · have h := collect_spec b.keys (fun x _ => hta.found (v := x)) elementsOf_congr
    rw [keys_eq, unionOf_live] at h
    rw [keys_eq]
    exact h

theorem difference_spec (hword : Consistent word) (ha : Reached word a) (hb : Reached word b) :
    Tidy (SetCollection.difference word a b).entries ∧
      (SetCollection.difference word a b).elements = a.elements \ b.elements := by
  have hta := (ha.spec hword).2
  rw [SetCollection.elements, SetCollection.difference, fromEntries,
    fromEntries_entries]
  split
  · obtain ⟨htidy, helements⟩ := hta.filter fun value => !SetCollection.has word b value
    refine ⟨htidy, helements.trans (Set.ext fun v => ?_)⟩
    have hhas : ∀ e, (!SetCollection.has word b e) = true ↔ e ∉ b.elements := fun e => by
      rw [Bool.not_eq_true', ← Bool.not_eq_true, has_iff hword hb]
    simp only [Set.mem_ofPred_eq, hhas, Set.mem_sdiff]
    constructor
    · rintro ⟨e, he, hne, hev⟩
      exact ⟨⟨e, he, hev⟩, fun hv => hne ((elementsOf_congr hev).mpr hv)⟩
    · rintro ⟨⟨e, he, hev⟩, hv⟩
      exact ⟨e, he, fun hne => hv ((elementsOf_congr hev).mp hne), hev⟩
  · have h := hta.emptyAll b.keys
    rw [keys_eq, unionOf_live] at h
    rw [keys_eq]
    exact h

theorem symmetricDifference_spec (hword : Consistent word) (ha : Reached word a) :
    Tidy (SetCollection.symmetricDifference word a b).entries ∧
      (SetCollection.symmetricDifference word a b).elements = symmDiff a.elements b.elements := by
  have hta := (ha.spec hword).2
  have h := hta.toggleAll (p := SetCollection.contains word a) (A := a.elements)
    (fun x => by
      rw [contains_eq hword ha, hta.found]
      rfl)
    elementsOf_congr b.keys
  rw [keys_eq, unionOf_live] at h
  rw [SetCollection.elements, SetCollection.symmetricDifference, fromEntries,
    fromEntries_entries, keys_eq]
  refine ⟨h.1, h.2.trans (Set.ext fun v => ?_)⟩
  simp only [Set.mem_ofPred_eq, Set.mem_symmDiff, SetCollection.elements]
  tauto

/-! ## Comparisons -/

theorem allAtFront_iff {test : Value → Bool} :
    allAtFront test es = true ↔
      ∀ v ∈ (es.takeWhile Option.isSome).reduceOption, test v = true := by
  induction es with
  | nil => exact ⟨fun _ => nofun, fun _ => rfl⟩
  | cons slot es ih =>
      cases slot with
      | none => exact ⟨fun _ => nofun, fun _ => rfl⟩
      | some e =>
          rw [allAtFront, Bool.and_eq_true, ih, List.takeWhile_cons_of_pos rfl,
            List.reduceOption_cons_of_some, List.forall_mem_cons]

/-- The elements in front of the first empty slot. -/
def SetCollection.front (c : SetCollection) : Set Value :=
  elementsOf (c.entries.takeWhile Option.isSome)

theorem elements_congr (c : SetCollection) (h : sameValueZero v w = true) :
    v ∈ c.elements ↔ w ∈ c.elements :=
  elementsOf_congr h

theorem front_subset (c : SetCollection) : c.front ⊆ c.elements := by
  rintro v ⟨e, he, hev⟩
  refine ⟨e, ?_, hev⟩
  rw [List.reduceOption_mem_iff] at he ⊢
  exact (List.takeWhile_sublist _).mem he

theorem subset_iff (hA : ∀ {v w}, sameValueZero v w = true → (v ∈ A ↔ w ∈ A)) :
    elementsOf es ⊆ A ↔ ∀ v ∈ es.reduceOption, v ∈ A := by
  constructor
  · exact fun h v hv => h ⟨v, hv, sameValueZero_refl⟩
  · rintro h v ⟨e, he, hev⟩
    exact (hA hev).mp (h e he)

theorem disjoint_iff (hA : ∀ {v w}, sameValueZero v w = true → (v ∈ A ↔ w ∈ A)) :
    Disjoint (elementsOf es) A ↔ ∀ v ∈ es.reduceOption, v ∉ A := by
  rw [Set.disjoint_left]
  constructor
  · exact fun h v hv => h ⟨v, hv, sameValueZero_refl⟩
  · rintro h v ⟨e, he, hev⟩ hv
    exact h e he ((hA hev).mpr hv)

/-- One value for each class of values that are the same. -/
def identity : Value → Value
  | .function id => .object id
  | v => v

theorem sameValue_identity {v w : Value} : sameValue v w = true ↔ identity v = identity w := by
  cases v <;> cases w <;> simp [sameValue, identity]

theorem distinct_nodup (h : Distinct scanKeying es) : (es.reduceOption.map identity).Nodup := by
  induction es with
  | nil => exact List.nodup_nil
  | cons slot es ih =>
      have htail : Distinct scanKeying es := fun i j a b ha hb hab => by
        have := h (i + 1) (j + 1) a b ha hb hab
        omega
      cases slot with
      | none => exact ih htail
      | some e =>
          rw [List.reduceOption_cons_of_some, List.map_cons, List.nodup_cons]
          refine ⟨fun hmem => ?_, ih htail⟩
          obtain ⟨x, hx, hxe⟩ := List.mem_map.mp hmem
          obtain ⟨j, hj⟩ := List.mem_iff_getElem?.mp (List.reduceOption_mem_iff.mp hx)
          have := h (j + 1) 0 x e hj rfl (sameValue_identity.mpr hxe)
          omega

/-- A set with more elements is in no smaller one. -/
theorem Tidy.size_le {fs : List (Option SetEntry)} (hes : Tidy es) (hfs : Tidy fs)
    (h : elementsOf es ⊆ elementsOf fs) : es.reduceOption.length ≤ fs.reduceOption.length := by
  have hsub : es.reduceOption.map identity ⊆ fs.reduceOption.map identity := by
    intro x hx
    obtain ⟨e, he, rfl⟩ := List.mem_map.mp hx
    obtain ⟨f, hf, hfe⟩ := h ⟨e, he, sameValueZero_refl⟩
    refine List.mem_map.mpr ⟨f, hf, sameValue_identity.mp ?_⟩
    have := (hfs.sameValue_iff hf).mp hfe
    rwa [hes.canonical e he] at this
  have := ((distinct_nodup hes.distinct).subperm hsub).length_le
  rwa [List.length_map, List.length_map] at this

theorem isSupersetOf_iff (hword : Consistent word) (ha : Reached word a) (hb : Reached word b) :
    SetCollection.isSupersetOf a b = true ↔ b.elements ⊆ a.elements := by
  have hta := (ha.spec hword).2
  have htb := (hb.spec hword).2
  unfold SetCollection.isSupersetOf
  split
  · rename_i hless
    rw [size_eq, size_eq] at hless
    refine ⟨nofun, fun hsub => ?_⟩
    have := htb.size_le hta hsub
    omega
  · rw [List.all_eq_true, keys_eq]
    refine Iff.trans ?_ (subset_iff elementsOf_congr).symm
    exact forall₂_congr fun v _ => hta.found

theorem isSubsetOf_iff (hword : Consistent word) (hb : Reached word b) :
    SetCollection.isSubsetOf word a b = true ↔ a.size ≤ b.size ∧ a.front ⊆ b.elements := by
  unfold SetCollection.isSubsetOf
  split
  · rename_i hless
    exact ⟨nofun, fun h => by omega⟩
  · rename_i hle
    rw [allAtFront_iff, SetCollection.front, subset_iff (elements_congr b)]
    have hall : (∀ v ∈ (a.entries.takeWhile Option.isSome).reduceOption,
        SetCollection.has word b v = true) ↔
        ∀ v ∈ (a.entries.takeWhile Option.isSome).reduceOption, v ∈ b.elements :=
      forall₂_congr fun v _ => has_iff hword hb v
    rw [hall]
    exact ⟨fun h => ⟨by omega, h⟩, And.right⟩

theorem isDisjointFrom_iff (hword : Consistent word) (ha : Reached word a) (hb : Reached word b) :
    SetCollection.isDisjointFrom word a b = true ↔
      if a.size ≤ b.size then Disjoint a.front b.elements else Disjoint a.elements b.elements := by
  have hta := (ha.spec hword).2
  unfold SetCollection.isDisjointFrom
  split
  · rw [allAtFront_iff, SetCollection.front, disjoint_iff (elements_congr b)]
    refine forall₂_congr fun v _ => ?_
    rw [Bool.not_eq_true', ← Bool.not_eq_true, has_iff hword hb]
  · rw [List.all_eq_true, keys_eq, disjoint_comm, SetCollection.elements, disjoint_iff (elements_congr a)]
    refine forall₂_congr fun v _ => ?_
    rw [Bool.not_eq_true', ← Bool.not_eq_true, contains_eq hword ha, hta.found]
    rfl

end Methods

/-- The seven methods are the operations and relations on the sets of elements. -/
structure Algebra (word : Value → UInt64) (a b : SetCollection) : Prop where
  union : (SetCollection.union word a b).elements = a.elements ∪ b.elements
  intersection : (SetCollection.intersection word a b).elements = a.elements ∩ b.elements
  difference : (SetCollection.difference word a b).elements = a.elements \ b.elements
  symmetricDifference :
    (SetCollection.symmetricDifference word a b).elements = symmDiff a.elements b.elements
  distinct : ∀ r ∈ [SetCollection.union word a b, SetCollection.intersection word a b,
    SetCollection.difference word a b, SetCollection.symmetricDifference word a b],
    Distinct (setKeying word) r.entries
  isSubsetOf : SetCollection.isSubsetOf word a b = true ↔ a.elements ⊆ b.elements
  isSupersetOf : SetCollection.isSupersetOf a b = true ↔ b.elements ⊆ a.elements
  isDisjointFrom : SetCollection.isDisjointFrom word a b = true ↔ Disjoint a.elements b.elements

/-- The two walks over the receiver stop at its first empty slot: they are right
where what comes before it decides. -/
theorem algebra_iff (hash : Int → UInt64) (a b : SetCollection) (ha : Reached (keyWord hash) a)
    (hb : Reached (keyWord hash) b) :
    Algebra (keyWord hash) a b ↔
      (a.size ≤ b.size → (a.front ⊆ b.elements → a.elements ⊆ b.elements) ∧
        (Disjoint a.front b.elements → Disjoint a.elements b.elements)) := by
  have hword := keyWord_consistent hash
  have hfront := front_subset a
  have hsubset := isSubsetOf_iff (a := a) hword hb
  have hdisjoint := isDisjointFrom_iff hword ha hb
  constructor
  · intro h hle
    rw [if_pos hle] at hdisjoint
    exact ⟨fun hsub => h.isSubsetOf.mp (hsubset.mpr ⟨hle, hsub⟩),
      fun hdis => h.isDisjointFrom.mp (hdisjoint.mpr hdis)⟩
  · intro h
    have hunion := union_spec (b := b) hword ha
    have hintersection := intersection_spec hword ha hb
    have hdifference := difference_spec hword ha hb
    have hsymmetric := symmetricDifference_spec (b := b) hword ha
    refine ⟨hunion.2, hintersection.2, hdifference.2, hsymmetric.2, ?_, ?_,
      isSupersetOf_iff hword ha hb, ?_⟩
    · simp only [List.forall_mem_cons, List.not_mem_nil, false_imp_iff, implies_true, and_true]
      exact ⟨hunion.1.distinct, hintersection.1.distinct, hdifference.1.distinct,
        hsymmetric.1.distinct⟩
    · rw [hsubset]
      constructor
      · exact fun hsub => (h hsub.1).1 hsub.2
      · intro hsub
        refine ⟨?_, hfront.trans hsub⟩
        have := (ha.spec hword).2.size_le (hb.spec hword).2 hsub
        rwa [← size_eq, ← size_eq] at this
    · rw [hdisjoint]
      split
      · rename_i hle
        exact ⟨(h hle).2, fun hdis => hdis.mono_left hfront⟩
      · rfl

/-- The set some calls lead to, with one word for all BigInts. -/
def reach (calls : List SetCall) : SetCollection :=
  (run (setStep (keyWord fun _ => 0)) (start (setKeying (keyWord fun _ => 0)) []) calls).1.data

theorem algebra_fresh : Algebra (keyWord fun _ => 0) (reach [.add .null])
    (reach [.add .undefined, .delete .undefined, .add .null]) :=
  (algebra_iff _ _ _ ⟨_, rfl⟩ ⟨_, rfl⟩).mpr fun _ => ⟨id, id⟩

/-- With its first element deleted a set is a subset of every set of its size,
and disjoint from itself. -/
theorem subset_of_deleted :
    let word := keyWord fun _ => 0
    let a := reach [.add .null, .add .undefined, .delete .null]
    let b := reach [.add (.boolean true)]
    Reached word a ∧ Reached word b ∧ SetCollection.isSubsetOf word a b = true ∧
      ¬ a.elements ⊆ b.elements ∧ SetCollection.isDisjointFrom word a a = true ∧
      ¬ Disjoint a.elements a.elements ∧ ¬ Algebra word a b := by
  have hmem : Value.undefined ∈ (reach [.add .null, .add .undefined, .delete .null]).elements :=
    ⟨.undefined, by decide, rfl⟩
  have hnot : Value.undefined ∉ (reach [.add (.boolean true)]).elements := by
    rintro ⟨e, he, hev⟩
    have hlive : (reach [.add (.boolean true)]).entries.reduceOption = [.boolean true] := by decide
    rw [hlive, List.mem_singleton] at he
    subst he
    cases hev
  refine ⟨⟨_, rfl⟩, ⟨_, rfl⟩, by decide, fun h => hnot (h hmem), by decide, ?_, fun h => ?_⟩
  · exact fun h => Set.disjoint_left.mp h hmem hmem
  · exact hnot (h.isSubsetOf.mp (by decide) hmem)

end Slag.Keyed
