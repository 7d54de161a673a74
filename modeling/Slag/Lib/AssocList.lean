import Mathlib.Data.List.Nodup
import Mathlib.Logic.Function.Basic

/-!
Ordered association lists: entries in insertion order, looked up by the
position of their key. An in-place update keeps every position, an append
leaves the old ones alone, and an erasure shifts the later ones down.
-/

namespace Slag.AssocList

variable {α β : Type*} [DecidableEq α]

def position (l : List (α × β)) (k : α) : Option Nat := l.findIdx? fun e => e.1 = k

def get? (l : List (α × β)) (k : α) : Option β := (l.find? fun e => e.1 = k).map Prod.snd

/-- Overwrite the value at a position. -/
def setAt (l : List (α × β)) (i : Nat) (v : β) : List (α × β) := l.modify i fun e => (e.1, v)

def recordEntry (index : α → Option Nat) (e : (α × β) × Nat) : α → Option Nat :=
  Function.update index e.1.1 (some e.2)

/-- The hash index of a list: a later entry of a key wins. -/
def buildIndex (l : List (α × β)) : α → Option Nat :=
  l.zipIdx.foldl recordEntry fun _ => none

abbrev keys (l : List (α × β)) : List α := l.map Prod.fst

variable {l : List (α × β)} {k : α} {i : Nat} {v : β}

theorem position_eq_some (h : position l k = some i) :
    ∃ v, l[i]? = some (k, v) := by
  obtain ⟨hlt, hk, -⟩ := List.findIdx?_eq_some_iff_getElem.mp h
  refine ⟨l[i].2, ?_⟩
  rw [List.getElem?_eq_getElem hlt]
  have hk' : l[i].1 = k := by simpa using hk
  rw [← hk']

theorem position_eq_none : position l k = none ↔ k ∉ keys l := by
  simp only [position, List.findIdx?_eq_none_iff, decide_eq_false_iff_not, List.mem_map, not_exists,
    not_and]

theorem get?_eq_none : get? l k = none ↔ k ∉ keys l := by
  simp only [get?, Option.map_eq_none_iff, List.find?_eq_none, decide_eq_true_eq, List.mem_map,
    not_exists, not_and]

/-- With distinct keys an entry stands at the position of its key. -/
theorem position_of_getElem? (hl : (keys l).Nodup) (h : l[i]? = some (k, v)) :
    position l k = some i := by
  obtain ⟨hlt, hi⟩ := List.getElem?_eq_some_iff.mp h
  refine List.findIdx?_eq_some_iff_getElem.mpr ⟨hlt, by simp [hi], ?_⟩
  intro j hj hk
  have hinj := List.nodup_iff_injective_get.mp hl
  have hij : (⟨j, by simp; omega⟩ : Fin (keys l).length) = ⟨i, by simpa using hlt⟩ := by
    apply hinj
    simp only [decide_eq_true_eq] at hk
    simp [hi, hk]
  have := Fin.mk.inj hij
  omega

theorem get?_of_position (h : position l k = some i) :
    get? l k = (l[i]?).map Prod.snd := by
  obtain ⟨hlt, hk, hmin⟩ := List.findIdx?_eq_some_iff_getElem.mp h
  have hfind : l.find? (fun e => e.1 = k) = some l[i] :=
    List.find?_eq_some_iff_getElem.mpr ⟨hk, i, hlt, rfl, fun j hj => by simpa using hmin j hj⟩
  rw [get?, hfind, List.getElem?_eq_getElem hlt]

theorem get?_eq_bind (l : List (α × β)) (k : α) :
    get? l k = (position l k).bind fun i => (l[i]?).map Prod.snd := by
  cases h : position l k with
  | none => exact get?_eq_none.mpr (position_eq_none.mp h)
  | some i => exact get?_of_position h

theorem get?_eq_some (h : get? l k = some v) :
    ∃ i, position l k = some i ∧ l[i]? = some (k, v) := by
  cases hp : position l k with
  | none => rw [get?_eq_none.mpr (position_eq_none.mp hp)] at h; cases h
  | some i =>
      obtain ⟨w, hw⟩ := position_eq_some hp
      rw [get?_of_position hp, hw] at h
      obtain rfl := Option.some.inj h
      exact ⟨i, rfl, hw⟩

theorem get?_of_getElem? (hl : (keys l).Nodup) (h : l[i]? = some (k, v)) : get? l k = some v := by
  rw [get?_of_position (position_of_getElem? hl h), h]
  rfl

theorem get?_eq_some_iff_mem (hl : (keys l).Nodup) :
    get? l k = some v ↔ (k, v) ∈ l := by
  constructor
  · intro h
    obtain ⟨i, -, hi⟩ := get?_eq_some h
    exact List.mem_of_getElem? hi
  · intro h
    obtain ⟨i, hi⟩ := List.mem_iff_getElem?.mp h
    exact get?_of_getElem? hl hi

section Cons

variable (l : List (α × β)) (k : α) (v : β)

theorem get?_cons (k' : α) :
    get? ((k, v) :: l) k' = if k = k' then some v else get? l k' := by
  by_cases hk : k = k'
  · simp [get?, hk]
  · simp [get?, hk]

variable {k}

theorem position_cons_ne {k' : α} (hk : k ≠ k') :
    position ((k, v) :: l) k' = (position l k').map (· + 1) := by
  simp [position, List.findIdx?_cons, hk]

end Cons

section Append

variable (l : List (α × β)) (k : α) (v : β)

theorem position_append (k' : α) :
    position (l ++ [(k, v)]) k' =
      match position l k' with
      | some i => some i
      | none => if k = k' then some l.length else none := by
  simp only [position, List.findIdx?_append]
  cases l.findIdx? fun e => e.1 = k' with
  | some i => simp
  | none =>
      by_cases hk : k = k'
      · simp [hk, List.findIdx?_cons]
      · simp [hk, List.findIdx?_cons]

theorem get?_append (k' : α) :
    get? (l ++ [(k, v)]) k' = (get? l k').or (if k = k' then some v else none) := by
  simp only [get?, List.find?_append]
  cases l.find? fun e => e.1 = k' with
  | some e => simp
  | none =>
      by_cases hk : k = k'
      · simp [hk]
      · simp [hk]

variable {l k}

omit [DecidableEq α] in
theorem nodup_append (hl : (keys l).Nodup) (hk : k ∉ keys l) :
    (keys (l ++ [(k, v)])).Nodup := by
  rw [keys, List.map_append, List.map_singleton, List.nodup_append]
  refine ⟨hl, List.nodup_singleton _, ?_⟩
  intro a ha b hb
  obtain rfl := List.mem_singleton.mp hb
  intro hab
  exact hk (hab ▸ ha)

end Append

section SetAt

variable (l : List (α × β)) (i : Nat) (v : β)

omit [DecidableEq α] in
theorem getElem?_setAt (j : Nat) :
    (setAt l i v)[j]? = if i = j then (l[j]?).map fun e => (e.1, v) else l[j]? := by
  rw [setAt, List.getElem?_modify]
  by_cases h : i = j
  · simp [h]
  · cases l[j]? <;> simp [h]

omit [DecidableEq α] in
@[simp] theorem keys_setAt : keys (setAt l i v) = keys l := by
  apply List.ext_getElem?
  intro j
  simp only [keys, List.getElem?_map, getElem?_setAt]
  by_cases h : i = j
  · simp [h, Option.map_map, Function.comp_def]
  · simp [h]

omit [DecidableEq α] in
private theorem findIdx?_keys (p : α → Bool) (l : List (α × β)) :
    l.findIdx? (fun e => p e.1) = (l.map Prod.fst).findIdx? p := by
  rw [List.findIdx?_map]
  rfl

theorem position_eq_keys (k : α) : position l k = (keys l).findIdx? fun a => a = k := by
  exact findIdx?_keys (fun a => decide (a = k)) l

theorem position_setAt (k : α) : position (setAt l i v) k = position l k := by
  rw [position_eq_keys, position_eq_keys, keys_setAt]

variable {l i}

theorem get?_setAt (h : position l k = some i) (k' : α) :
    get? (setAt l i v) k' = if k' = k then some v else get? l k' := by
  obtain ⟨w, hw⟩ := position_eq_some h
  rw [get?_eq_bind, position_setAt, get?_eq_bind l k']
  by_cases hk : k' = k
  · subst hk
    simp [h, getElem?_setAt, hw]
  · cases hp : position l k' with
    | none => simp [hk]
    | some j =>
        have hij : i ≠ j := by
          rintro rfl
          obtain ⟨w', hw'⟩ := position_eq_some hp
          rw [hw] at hw'
          exact hk (congrArg Prod.fst (Option.some.inj hw')).symm
        simp [hk, getElem?_setAt, hij]

omit [DecidableEq α] in
theorem setAt_append_cons (a b : List (α × β)) (k : α) (w : β) :
    setAt (a ++ (k, w) :: b) a.length v = a ++ (k, v) :: b := by
  induction a with
  | nil => rfl
  | cons e a ih => exact congrArg (e :: ·) ih

theorem position_append_cons {a : List (α × β)} (hk : k ∉ keys a) (b : List (α × β)) (w : β) :
    position (a ++ (k, w) :: b) k = some a.length := by
  have ha : a.findIdx? (fun e => e.1 = k) = none := position_eq_none.mpr hk
  simp [position, List.findIdx?_append, ha, List.findIdx?_cons]

end SetAt

section Erase

variable {l : List (α × β)} {k : α} {i : Nat}

omit [DecidableEq α] in
theorem nodup_eraseIdx (hl : (keys l).Nodup) : (keys (l.eraseIdx i)).Nodup := by
  exact hl.sublist ((List.eraseIdx_sublist l i).map Prod.fst)

theorem get?_eraseIdx (hl : (keys l).Nodup) (h : position l k = some i) (k' : α) :
    get? (l.eraseIdx i) k' = if k' = k then none else get? l k' := by
  obtain ⟨w, hw⟩ := position_eq_some h
  by_cases hk : k' = k
  · subst hk
    rw [if_pos rfl, get?_eq_none]
    intro hmem
    obtain ⟨e, he, rfl⟩ := List.mem_map.mp hmem
    obtain ⟨j, hj⟩ := List.mem_iff_getElem?.mp he
    rw [List.getElem?_eraseIdx] at hj
    split_ifs at hj with hlt
    · have := position_of_getElem? hl (v := e.2) hj
      rw [h] at this
      have := Option.some.inj this
      omega
    · have := position_of_getElem? hl (v := e.2) hj
      rw [h] at this
      have := Option.some.inj this
      omega
  · rw [if_neg hk]
    apply Option.ext
    intro v
    rw [get?_eq_some_iff_mem (nodup_eraseIdx hl), get?_eq_some_iff_mem hl]
    constructor
    · exact fun hm => List.mem_of_mem_eraseIdx hm
    · intro hm
      obtain ⟨j, hj⟩ := List.mem_iff_getElem?.mp hm
      rw [List.mem_iff_getElem?]
      by_cases hji : j < i
      · exact ⟨j, by rw [List.getElem?_eraseIdx_of_lt hji]; exact hj⟩
      · have hne : j ≠ i := by
          rintro rfl
          rw [hw] at hj
          exact hk (congrArg Prod.fst (Option.some.inj hj)).symm
        refine ⟨j - 1, ?_⟩
        rw [List.getElem?_eraseIdx_of_ge (by omega), Nat.sub_add_cancel (by omega)]
        exact hj

/-- An erasure leaves the positions below it alone. -/
theorem position_eraseIdx_of_lt (hl : (keys l).Nodup) {j : Nat} (h : position l k = some j)
    (hj : j < i) : position (l.eraseIdx i) k = some j := by
  obtain ⟨v, hv⟩ := position_eq_some h
  apply position_of_getElem? (nodup_eraseIdx hl) (v := v)
  rw [List.getElem?_eraseIdx_of_lt hj]
  exact hv

end Erase

section Index

private theorem foldl_update_not_mem (l : List (α × β)) (n : Nat) (index : α → Option Nat)
    (hk : k ∉ keys l) :
    (l.zipIdx n).foldl recordEntry index k =
      index k := by
  induction l generalizing n index with
  | nil => rfl
  | cons e l ih =>
      have hk' : k ≠ e.1 ∧ k ∉ keys l := by simpa [not_or] using hk
      simp only [List.zipIdx_cons, List.foldl_cons]
      rw [ih _ _ hk'.2, recordEntry, Function.update_of_ne hk'.1]

private theorem foldl_update_eq (l : List (α × β)) (n : Nat) (index : α → Option Nat)
    (hl : (keys l).Nodup) (k : α) :
    (l.zipIdx n).foldl recordEntry index k =
      match position l k with
      | some i => some (n + i)
      | none => index k := by
  induction l generalizing n index with
  | nil => rfl
  | cons e l ih =>
      have hl' : e.1 ∉ keys l ∧ (keys l).Nodup := by simpa using hl
      simp only [List.zipIdx_cons, List.foldl_cons]
      by_cases hk : e.1 = k
      · subst hk
        rw [foldl_update_not_mem l _ _ hl'.1]
        simp [position, List.findIdx?_cons, recordEntry]
      · rw [ih _ _ hl'.2, recordEntry, Function.update_of_ne (Ne.symm hk)]
        rw [position_cons_ne l e.2 hk]
        cases position l k with
        | none => rfl
        | some i =>
            simp only [Option.map_some]
            congr 1
            omega

theorem buildIndex_eq (hl : (keys l).Nodup) (k : α) :
    buildIndex l k = position l k := by
  rw [buildIndex, foldl_update_eq l 0 _ hl]
  cases position l k <;> simp

end Index

end Slag.AssocList
