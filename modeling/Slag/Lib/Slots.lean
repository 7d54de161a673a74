import Mathlib.Data.List.ReduceOption
import Mathlib.Logic.Function.Basic
import Slag.Lib.Machine

/-!
Lists of slots with an index. Entries stand in slots that are emptied but never
given back; a table from a word of the key to one slot answers lookups, and a
flag says that two keys have met in one word and the list is to be scanned.
Iterators hold the number of the next slot.
-/

namespace Slag.Slots

variable {ε κ ω χ : Type*}

/-- Entries are found by their key, up to `same`; `word` is what is hashed. -/
structure Keying (ε κ ω : Type*) where
  key : ε → κ
  same : κ → κ → Bool
  word : κ → ω

structure Keying.Lawful (K : Keying ε κ ω) : Prop where
  refl : ∀ a, K.same a a = true
  symm : ∀ {a b}, K.same a b = true → K.same b a = true
  trans : ∀ {a b c}, K.same a b = true → K.same b c = true → K.same a c = true
  word : ∀ {a b}, K.same a b = true → K.word a = K.word b

structure Table (ε ω : Type*) where
  entries : List (Option ε)
  index : ω → Option Nat
  collided : Bool

/-- The first slot with the key. -/
def find (K : Keying ε κ ω) (entries : List (Option ε)) (k : κ) : Option Nat :=
  entries.findIdx? fun slot => slot.any fun e => K.same (K.key e) k

namespace Table

variable [DecidableEq ω] (K : Keying ε κ ω)

/-- The row of the word if its slot has the key, else a scan if need be. -/
def slot (t : Table ε ω) (k : κ) : Option Nat :=
  let scan := if t.collided then find K t.entries k else none
  match t.index (K.word k) with
  | some i =>
      match t.entries[i]?.join with
      | some e => if K.same (K.key e) k then some i else scan
      | none => scan
  | none => scan

/-- A row is written; the flag is set if the word had one. -/
def record (t : Table ε ω) (w : ω) (i : Nat) : Table ε ω :=
  { t with
    index := Function.update t.index w (some i)
    collided := t.collided || (t.index w).isSome }

def pushNew (t : Table ε ω) (e : ε) : Table ε ω :=
  { t with entries := t.entries ++ [some e] }.record (K.word (K.key e)) t.entries.length

def update (t : Table ε ω) (i : Nat) (f : ε → ε) : Table ε ω :=
  { t with entries := t.entries.modify i (Option.map f) }

/-- Record the live entries of the slots from a number on. -/
def recordFrom : List (Option ε) → Nat → Table ε ω → Table ε ω
  | [], _, t => t
  | none :: entries, i, t => recordFrom entries (i + 1) t
  | some e :: entries, i, t => recordFrom entries (i + 1) (t.record (K.word (K.key e)) i)

def rebuildIndex (t : Table ε ω) : Table ε ω :=
  recordFrom K t.entries 0 ⟨t.entries, fun _ => none, false⟩

def remove (t : Table ε ω) (k : κ) : Bool × Table ε ω :=
  match t.slot K k with
  | some i =>
      let emptied := { t with entries := t.entries.set i none }
      if t.collided then (true, emptied.rebuildIndex K)
      else (true, { emptied with index := Function.update t.index (K.word k) none })
  | none => (false, t)

def clear (t : Table ε ω) : Table ε ω :=
  ⟨t.entries.map fun _ => none, fun _ => none, false⟩

def fromEntries (entries : List (Option ε)) : Table ε ω :=
  rebuildIndex K ⟨entries, fun _ => none, false⟩

end Table

/-! ## Scans -/

variable {entries : List (Option ε)} {e : ε} {n : Nat}

variable {f : ε → ε}

section Scan

variable {K : Keying ε κ ω}

/-- A key stands in at most one live slot. -/
def Distinct (K : Keying ε κ ω) (entries : List (Option ε)) : Prop :=
  ∀ (i j : Nat) a b, entries[i]? = some (some a) → entries[j]? = some (some b) →
    K.same (K.key a) (K.key b) = true → i = j

variable {i : Nat} {k : κ}

theorem find_some (h : find K entries k = some i) :
    ∃ e, entries[i]? = some (some e) ∧ K.same (K.key e) k = true := by
  obtain ⟨hlt, hany, -⟩ := List.findIdx?_eq_some_iff_getElem.mp h
  cases he : entries[i] with
  | none =>
      rw [he] at hany
      cases hany
  | some e =>
      rw [he] at hany
      exact ⟨e, by rw [List.getElem?_eq_getElem hlt, he], hany⟩

theorem find_none :
    find K entries k = none ↔
      ∀ (i : Nat) e, entries[i]? = some (some e) → K.same (K.key e) k = false := by
  rw [find, List.findIdx?_eq_none_iff]
  constructor
  · intro h i e he
    have := h (some e) (List.mem_of_getElem? he)
    simpa using this
  · intro h slot hslot
    obtain ⟨i, hi, rfl⟩ := List.mem_iff_getElem.mp hslot
    cases he : entries[i] with
    | none => rfl
    | some e => exact h i e (by rw [List.getElem?_eq_getElem hi, he])

theorem Distinct.find_eq (hK : K.Lawful) (hd : Distinct K entries) (he : entries[i]? = some (some e))
    (hk : K.same (K.key e) k = true) :
    find K entries k = some i := by
  cases hf : find K entries k with
  | none =>
      rw [find_none.mp hf i e he] at hk
      cases hk
  | some j =>
      obtain ⟨a, ha, hak⟩ := find_some hf
      rw [hd i j e a he ha (hK.trans hk (hK.symm hak))]

theorem Distinct.push (hK : K.Lawful) (hd : Distinct K entries) (hnew : find K entries (K.key e) = none) :
    Distinct K (entries ++ [some e]) := by
  have hlast : ∀ {i : Nat} {a}, (entries ++ [some e])[i]? = some (some a) →
      entries[i]? = some (some a) ∨ i = entries.length ∧ a = e := by
    intro i a ha
    rcases Nat.lt_or_ge i entries.length with hi | hi
    · exact .inl (by rwa [List.getElem?_append_left hi] at ha)
    · rw [List.getElem?_append_right hi] at ha
      obtain ⟨hlt, ha⟩ := List.getElem?_eq_some_iff.mp ha
      simp only [List.length_singleton] at hlt
      simp only [List.getElem_singleton, Option.some.injEq] at ha
      exact .inr ⟨by omega, ha.symm⟩
  intro i j a b ha hb hab
  have hfresh := find_none.mp hnew
  rcases hlast ha with hold | ⟨hi, hae⟩ <;> rcases hlast hb with hold' | ⟨hj, hbe⟩
  · exact hd i j a b hold hold' hab
  · rw [hbe, hfresh i a hold] at hab
    cases hab
  · have hba := hK.symm hab
    rw [hae, hfresh j b hold'] at hba
    cases hba
  · omega

/-- Live slots of the new list are slots of the old one, with the same key. -/
theorem Distinct.of_keys {entries entries' : List (Option ε)} (hd : Distinct K entries)
    (h : ∀ (i : Nat) e, entries'[i]? = some (some e) →
      ∃ a, entries[i]? = some (some a) ∧ K.key a = K.key e) : Distinct K entries' := by
  intro i j a b ha hb hab
  obtain ⟨a', ha', hka⟩ := h i a ha
  obtain ⟨b', hb', hkb⟩ := h j b hb
  exact hd i j a' b' ha' hb' (by rwa [hka, hkb])

theorem modify_keys (hf : ∀ x, K.key (f x) = K.key x) {n i : Nat}
    (he : (entries.modify n (Option.map f))[i]? = some (some e)) :
    ∃ a, entries[i]? = some (some a) ∧ K.key a = K.key e := by
  rw [List.getElem?_modify] at he
  cases hi : entries[i]? with
  | none =>
      rw [hi] at he
      cases he
  | some slot =>
      rw [hi, Option.map_eq_map, Option.map_some, Option.some.injEq] at he
      split at he
      · obtain ⟨a, rfl, rfl⟩ := Option.map_eq_some_iff.mp he
        exact ⟨a, rfl, (hf a).symm⟩
      · subst he
        exact ⟨e, rfl, rfl⟩

theorem set_none_keys {n i : Nat} (he : (entries.set n none)[i]? = some (some e)) :
    entries[i]? = some (some e) ∧ n ≠ i := by
  rw [List.getElem?_set] at he
  split at he
  · split at he <;> cases he
  · rename_i hne
    exact ⟨he, hne⟩

theorem map_none_dead :
    (entries.map fun _ => (none : Option ε))[i]? ≠ some (some e) := by
  rw [List.getElem?_map]
  cases entries[i]? <;> simp

end Scan

/-! ## What the index says -/

/-- Rows lead to live entries of their word among the first slots, and without
a collision each of these has its row. -/
structure Indexed (K : Keying ε κ ω) (entries : List (Option ε)) (n : Nat)
    (index : ω → Option Nat) (collided : Bool) : Prop where
  points : ∀ {w i}, index w = some i →
    i < n ∧ ∃ e, entries[i]? = some (some e) ∧ K.word (K.key e) = w
  covers : collided = false → ∀ {i : Nat} {e}, i < n → entries[i]? = some (some e) →
    index (K.word (K.key e)) = some i

def Table.Sound (K : Keying ε κ ω) (t : Table ε ω) : Prop :=
  Indexed K t.entries t.entries.length t.index t.collided

section Sound

variable {K : Keying ε κ ω}

theorem Indexed.empty : Indexed K entries 0 (fun _ => none) false :=
  ⟨nofun, nofun⟩

variable {index : ω → Option Nat} {collided : Bool} {rest : List (Option ε)}

theorem Indexed.skip (h : Indexed K entries n index collided) (hn : entries[n]? = some none) :
    Indexed K entries (n + 1) index collided := by
  refine ⟨fun hw => ?_, fun hc i e hi he => ?_⟩
  · obtain ⟨hlt, hlive⟩ := h.points hw
    exact ⟨by omega, hlive⟩
  · rcases Nat.lt_succ_iff_lt_or_eq.mp hi with hi | rfl
    · exact h.covers hc hi he
    · rw [hn] at he
      cases he

variable [DecidableEq ω]

theorem Indexed.record (h : Indexed K entries n index collided) (hn : entries[n]? = some (some e)) :
    Indexed K entries (n + 1) (Function.update index (K.word (K.key e)) (some n))
      (collided || (index (K.word (K.key e))).isSome) := by
  refine ⟨fun {w i} hw => ?_, fun hc i a hi ha => ?_⟩
  · rw [Function.update_apply] at hw
    split at hw
    · rename_i hword
      cases hw
      exact ⟨Nat.lt_succ_self n, e, hn, hword.symm⟩
    · obtain ⟨hlt, hlive⟩ := h.points hw
      exact ⟨by omega, hlive⟩
  · rw [Bool.or_eq_false_iff] at hc
    rcases Nat.lt_succ_iff_lt_or_eq.mp hi with hi | rfl
    · have hrow := h.covers hc.1 hi ha
      rw [Function.update_of_ne, hrow]
      intro hword
      rw [hword] at hrow
      rw [hrow] at hc
      cases hc.2
    · rw [hn] at ha
      cases ha
      rw [Function.update_self]

variable {t : Table ε ω}

theorem recordFrom_entries :
    (Table.recordFrom K rest n t).entries = t.entries := by
  induction rest generalizing n t with
  | nil => rfl
  | cons slot rest ih =>
      cases slot with
      | none => exact ih
      | some e => exact ih

theorem recordFrom_indexed (hrest : t.entries.drop n = rest)
    (h : Indexed K t.entries n t.index t.collided) :
    let r := Table.recordFrom K rest n t
    Indexed K t.entries (n + rest.length) r.index r.collided := by
  induction rest generalizing n t with
  | nil => exact h
  | cons slot rest ih =>
      have hn : t.entries[n]? = some slot := by
        have := congrArg List.head? hrest
        rwa [List.head?_drop, List.head?_cons] at this
      have hdrop : t.entries.drop (n + 1) = rest := by
        rw [← List.drop_drop, hrest, List.drop_one, List.tail_cons]
      rw [List.length_cons, ← Nat.add_assoc, Nat.add_right_comm]
      cases slot with
      | none => exact ih hdrop (h.skip hn)
      | some e => exact @ih (n + 1) (t.record (K.word (K.key e)) n) hdrop (h.record hn)

@[simp]
theorem rebuildIndex_entries (t : Table ε ω) : (t.rebuildIndex K).entries = t.entries :=
  recordFrom_entries

theorem rebuildIndex_sound (t : Table ε ω) : (t.rebuildIndex K).Sound K := by
  have hstart : Indexed K t.entries 0 (fun _ => none) false := Indexed.empty
  have h := recordFrom_indexed (t := ⟨t.entries, fun _ => none, false⟩) rfl hstart
  rw [Nat.zero_add] at h
  unfold Table.Sound
  rw [rebuildIndex_entries]
  exact h

@[simp]
theorem fromEntries_entries (entries : List (Option ε)) :
    (Table.fromEntries K entries : Table ε ω).entries = entries :=
  rebuildIndex_entries _

omit [DecidableEq ω] in
/-- The index answers what a scan of the list answers. -/
theorem slot_eq_find (hK : K.Lawful) (ht : t.Sound K) (hd : Distinct K t.entries) (k : κ) :
    t.slot K k = find K t.entries k := by
  have hscan : (∀ (i : Nat) e, t.entries[i]? = some (some e) → K.same (K.key e) k = true →
      t.index (K.word k) ≠ some i) →
      (if t.collided then find K t.entries k else none) = find K t.entries k := by
    intro hmiss
    split
    · rfl
    · rename_i hcollided
      refine (find_none.mpr fun i e he => ?_).symm
      by_contra hk
      rw [Bool.not_eq_false] at hk
      have hrow := ht.covers (Bool.not_eq_true _ ▸ hcollided) (List.getElem?_eq_some_iff.mp he).1 he
      rw [hK.word hk] at hrow
      exact hmiss i e he hk hrow
  unfold Table.slot
  dsimp only
  split
  · rename_i i hrow
    obtain ⟨-, e, he, -⟩ := ht.points hrow
    rw [he, Option.join_some]
    dsimp only
    split
    · rename_i hk
      exact (hd.find_eq hK he hk).symm
    · rename_i hk
      refine hscan fun j a ha hak hj => ?_
      rw [hrow, Option.some.injEq] at hj
      rw [hj, ha, Option.some.injEq, Option.some.injEq] at he
      exact hk (he ▸ hak)
  · rename_i hrow
    refine hscan fun j a _ _ hj => ?_
    rw [hrow] at hj
    cases hj

theorem Table.Sound.pushNew (ht : t.Sound K) (e : ε) : (t.pushNew K e).Sound K := by
  have hold : Indexed K (t.entries ++ [some e]) t.entries.length t.index t.collided := by
    refine ⟨fun hw => ?_, fun hc i a hi ha => ?_⟩
    · obtain ⟨hlt, a, ha, hword⟩ := ht.points hw
      exact ⟨hlt, a, by rwa [List.getElem?_append_left hlt], hword⟩
    · rw [List.getElem?_append_left hi] at ha
      exact ht.covers hc hi ha
  have hnew : (t.entries ++ [some e])[t.entries.length]? = some (some e) := by simp
  have h := hold.record hnew
  unfold Table.Sound
  rwa [Table.pushNew, Table.record, List.length_append, List.length_singleton]

omit [DecidableEq ω] in
theorem Table.Sound.update (ht : t.Sound K) (hf : ∀ x, K.key (f x) = K.key x) (n : Nat) :
    (t.update n f).Sound K := by
  refine ⟨fun {w i} hw => ?_, fun hc i e hi he => ?_⟩
  · obtain ⟨hlt, e, he, hword⟩ := ht.points hw
    refine ⟨by simpa [Table.update] using hlt, ?_⟩
    by_cases hn : n = i
    · refine ⟨f e, ?_, by rwa [hf]⟩
      simp [Table.update, he, hn]
    · exact ⟨e, by simp [Table.update, he, hn], hword⟩
  · obtain ⟨a, ha, hka⟩ := modify_keys hf he
    rw [← hka]
    exact ht.covers hc (List.getElem?_eq_some_iff.mp ha).1 ha

omit [DecidableEq ω] in
theorem clear_sound (t : Table ε ω) : t.clear.Sound K :=
  ⟨nofun, fun _ _ _ _ he => absurd he map_none_dead⟩

theorem remove_spec (hK : K.Lawful) (ht : t.Sound K) (hd : Distinct K t.entries) (k : κ) :
    (t.remove K k).1 = (find K t.entries k).isSome ∧
      (t.remove K k).2.entries = ((find K t.entries k).elim t.entries fun i => t.entries.set i none) ∧
      (t.remove K k).2.Sound K := by
  rw [← slot_eq_find hK ht hd]
  unfold Table.remove
  cases hslot : t.slot K k with
  | none => exact ⟨rfl, rfl, ht⟩
  | some i =>
      dsimp only
      cases hc : t.collided with
      | true =>
          refine ⟨rfl, ?_, rebuildIndex_sound _⟩
          rw [if_pos rfl]
          exact rebuildIndex_entries _
      | false =>
          refine ⟨rfl, rfl, ?_⟩
          rw [slot_eq_find hK ht hd] at hslot
          obtain ⟨e, he, hk⟩ := find_some hslot
          have hword := hK.word hk
          have hcovers : ∀ {i : Nat} {e}, i < t.entries.length → t.entries[i]? = some (some e) →
              t.index (K.word (K.key e)) = some i := ht.covers hc
          refine ⟨fun {w j} hw => ?_, fun _ j a hj ha => ?_⟩
          · simp only [Bool.false_eq_true, if_false] at hw ⊢
            rw [Function.update_apply] at hw
            split at hw
            · cases hw
            rename_i hne
            obtain ⟨hlt, a, ha, haw⟩ := ht.points hw
            refine ⟨by rwa [List.length_set], a, ?_, haw⟩
            rw [List.getElem?_set_ne, ha]
            rintro rfl
            rw [he, Option.some.injEq, Option.some.injEq] at ha
            subst ha
            exact hne (haw.symm.trans hword)
          · simp only [Bool.false_eq_true, if_false] at ha ⊢
            obtain ⟨ha, hij⟩ := set_none_keys ha
            have hlt := (List.getElem?_eq_some_iff.mp ha).1
            have hrow := hcovers hlt ha
            rw [Function.update_of_ne, hrow]
            intro hsame
            have hrow' := hcovers (List.getElem?_eq_some_iff.mp he).1 he
            rw [hword, ← hsame, hrow] at hrow'
            exact hij (Option.some.inj hrow').symm

end Sound

end Slag.Slots
