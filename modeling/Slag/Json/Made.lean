import Slag.Json.Scan

/-!
What a parse makes on the heap: the members of an object are created one after the
other, and an array has its elements.
-/

namespace Slag.Json

open Crux AssocList

def dataProperty (value : Value) : Property := ⟨.data value true, true, true⟩

/-- All that creating members leaves behind. -/
def DataOnly (o : PlainObject) : Prop :=
  o.extensible = true ∧ ∀ e ∈ o.properties, ∃ v, e.2 = dataProperty v

def member (o : PlainObject) (entry : JsString × Value) : PlainObject :=
  (o.createData (.string entry.1) entry.2).1

def objectOf (proto : Option ObjId) (entries : List (JsString × Value)) : PlainObject :=
  entries.foldl member ⟨[], true, proto⟩

variable {o : PlainObject} {key : PropertyKey} {t : Tree}

variable {property : Property} {ts : List Tree} {ms : List (JsString × Tree)} {m : JsString × Tree}
  {proto : Option ObjId}

theorem DataOnly.getOwn (h : DataOnly o) (hget : o.getOwn key = some property) :
    ∃ v, property = dataProperty v := by
  obtain ⟨i, -, hi⟩ := get?_eq_some hget
  exact h.2 _ (List.mem_of_getElem? hi)

/-- A new key goes to the end. -/
theorem createData_new (h : o.extensible = true) (hget : o.getOwn key = none) (value : Value) :
    o.createData key value = (o.append key (dataProperty value), true) := by
  simp only [PlainObject.createData, PlainObject.define, hget, h]
  rfl

theorem createData_old (h : DataOnly o) (hget : o.getOwn key = some property) (value : Value) :
    o.createData key value = (o.replace key (dataProperty value), true) := by
  obtain ⟨v, rfl⟩ := h.getOwn hget
  simp only [PlainObject.createData, PlainObject.define, hget]
  rfl

theorem DataOnly.createData (h : DataOnly o) (key : PropertyKey) (value : Value) :
    (o.createData key value).2 = true ∧ DataOnly (o.createData key value).1 := by
  cases hget : o.getOwn key with
  | none =>
      rw [createData_new h.1 hget]
      refine ⟨rfl, h.1, ?_⟩
      intro e he
      obtain he | he := List.mem_append.mp he
      · exact h.2 e he
      · exact ⟨value, congrArg Prod.snd (List.mem_singleton.mp he)⟩
  | some property =>
      rw [createData_old h hget]
      refine ⟨rfl, ?_⟩
      unfold PlainObject.replace
      split
      · exact h
      · refine ⟨h.1, fun e he => ?_⟩
        obtain ⟨j, hj⟩ := List.mem_iff_getElem?.mp he
        rw [getElem?_setAt] at hj
        split at hj
        · obtain ⟨e', -, rfl⟩ := Option.map_eq_some_iff.mp hj
          exact ⟨value, rfl⟩
        · exact h.2 e (List.mem_of_getElem? hj)

theorem objectOf_append (proto : Option ObjId) (entries : List (JsString × Value))
    (entry : JsString × Value) :
    objectOf proto (entries ++ [entry]) = member (objectOf proto entries) entry := by
  simp [objectOf]

theorem dataOnly_objectOf (proto : Option ObjId) (entries : List (JsString × Value)) :
    DataOnly (objectOf proto entries) := by
  induction entries using List.reverseRecOn with
  | nil => exact ⟨rfl, fun _ h => absurd h List.not_mem_nil⟩
  | append_singleton entries entry ih =>
      rw [objectOf_append]
      exact (ih.createData _ _).2

/-- Distinct members are the properties, in their order. -/
theorem objectOf_distinct (proto : Option ObjId) {entries : List (JsString × Value)}
    (h : (keys entries).Nodup) :
    (objectOf proto entries).properties =
      entries.map fun e => (.string e.1, dataProperty e.2) := by
  induction entries using List.reverseRecOn with
  | nil => rfl
  | append_singleton entries entry ih =>
      rw [keys, List.map_append, List.nodup_append] at h
      have hprops := ih h.1
      have hget : (objectOf proto entries).getOwn (.string entry.1) = none := by
        refine get?_eq_none.mpr fun hmem => ?_
        rw [hprops, keys, List.map_map] at hmem
        obtain ⟨e, he, hkey⟩ := List.mem_map.mp hmem
        exact h.2.2 e.1 (List.mem_map_of_mem he) entry.1 (List.mem_singleton.mpr rfl)
          (PropertyKey.string.inj hkey)
      rw [objectOf_append, member, createData_new (dataOnly_objectOf proto entries).1 hget,
        List.map_append, ← hprops]
      rfl

/-- A tree that is one token, with its value. -/
inductive Primitive : Tree → Value → Prop
  | null : Primitive .null .null
  | boolean {b : Bool} : Primitive (.boolean b) (.boolean b)
  | number {n : F64} : Primitive (.number n) (.number n)
  | string {s : JsString} : Primitive (.string s) (.string s)

/-- A value made at the cells from `base` on. -/
inductive Made (proto : Option ObjId) (base : Nat) (heap : Heap) : Value → Tree → Prop
  | null : Made proto base heap .null .null
  | boolean {b : Bool} : Made proto base heap (.boolean b) (.boolean b)
  | number {n : F64} : Made proto base heap (.number n) (.number n)
  | string {s : JsString} : Made proto base heap (.string s) (.string s)
  | array {id : Nat} {vs : List Value} {ts : List Tree} : base ≤ id → heap[id]? = some (.array vs) →
      List.Forall₂ (Made proto base heap) vs ts → Made proto base heap (.object id) (.array ts)
  | object {id : Nat} {vs : List Value} {ms : List (JsString × Tree)} : base ≤ id →
      heap[id]? = some (.plain (objectOf proto ((keys ms).zip vs))) →
      List.Forall₂ (Made proto base heap) vs (ms.map Prod.snd) →
      Made proto base heap (.object id) (.object ms)

theorem nesting_le_of_mem (h : t ∈ ts) :
    t.nesting ≤ Tree.nestingAll ts := by
  induction ts with
  | nil => cases h
  | cons u ts ih =>
      rw [Tree.nestingAll]
      obtain rfl | h := List.mem_cons.mp h
      · exact Nat.le_max_left _ _
      · exact Nat.le_trans (ih h) (Nat.le_max_right _ _)

theorem nesting_le_of_member (h : m ∈ ms) :
    m.2.nesting ≤ Tree.nestingMembers ms := by
  induction ms with
  | nil => cases h
  | cons u ms ih =>
      rw [Tree.nestingMembers]
      obtain rfl | h := List.mem_cons.mp h
      · exact Nat.le_max_left _ _
      · exact Nat.le_trans (ih h) (Nat.le_max_right _ _)

/-- What an array is made of nests less. -/
theorem nesting_lt_of_mem {n : Nat} (hn : (Tree.array ts).nesting < n + 1) (h : t ∈ ts) :
    t.nesting < n :=
  Nat.lt_of_lt_of_le (Nat.lt_succ_of_le (nesting_le_of_mem h)) (Nat.le_of_lt_succ hn)

theorem nesting_lt_of_member {n : Nat} (hn : (Tree.object ms).nesting < n + 1) (h : m ∈ ms) :
    m.2.nesting < n :=
  Nat.lt_of_lt_of_le (Nat.lt_succ_of_le (nesting_le_of_member h)) (Nat.le_of_lt_succ hn)

theorem forall₂_mono_of_mem {α β : Type} {R S : α → β → Prop} {as : List α} {bs : List β}
    (h : List.Forall₂ R as bs) (hRS : ∀ a, ∀ b ∈ bs, R a b → S a b) : List.Forall₂ S as bs := by
  induction h with
  | nil => exact .nil
  | cons hab _ ih =>
      exact .cons (hRS _ _ List.mem_cons_self hab)
        (ih fun a b hb => hRS a b (List.mem_cons_of_mem _ hb))

/-- Only the cells from `base` on matter. -/
theorem Made.mono {base base' : Nat} {heap heap' : Heap} {v : Value} (h : Made proto base heap v t)
    (hbase : base' ≤ base) (hheap : ∀ i, base ≤ i → ∀ c, heap[i]? = some c → heap'[i]? = some c) :
    Made proto base' heap' v t := by
  obtain ⟨n, hn⟩ : ∃ n, t.nesting < n := ⟨_, Nat.lt_succ_self _⟩
  induction n generalizing v t with
  | zero => cases hn
  | succ n ih =>
      cases h with
      | null => exact .null
      | boolean => exact .boolean
      | number => exact .number
      | string => exact .string
      | array hid hcell hvs =>
          exact .array (Nat.le_trans hbase hid) (hheap _ hid _ hcell)
            (forall₂_mono_of_mem hvs fun v t ht hv => ih hv (nesting_lt_of_mem hn ht))
      | object hid hcell hvs =>
          refine .object (Nat.le_trans hbase hid) (hheap _ hid _ hcell)
            (forall₂_mono_of_mem hvs fun v t ht hv => ih hv ?_)
          obtain ⟨m, hm, rfl⟩ := List.mem_map.mp ht
          exact nesting_lt_of_member hn hm

/-- A longer heap keeps what was made. -/
theorem Made.extend {base : Nat} {heap heap' : Heap} {v : Value} (h : Made proto base heap v t)
    (hheap : heap <+: heap') : Made proto base heap' v t := by
  refine h.mono (Nat.le_refl _) fun i _ c hc => ?_
  obtain ⟨rest, rfl⟩ := hheap
  exact (List.getElem?_append_left (List.getElem?_eq_some_iff.mp hc).1).trans hc

end Slag.Json
