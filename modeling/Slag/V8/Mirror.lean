import Mathlib.Data.List.Nodup
import Slag.V8.Decode

/-!
The reader's memo mirrors the writer's: the object under a number corresponds to
the one that was given it. What is read between two points of the stream only
adds to the correspondence, and what it adds is complete.
-/

namespace Slag.V8

/-- The reader's object under the number the writer gave one. -/
def Corresponds (numbers : List Ref) (b : Built) (r t : Ref) : Prop :=
  ∃ id : Nat, numbers[id]? = some r ∧ b.memo[id]? = some (some (.object t))

structure Linked (heap : Heap) (numbers : List Ref) (b : Built) : Prop where
  length : b.memo.length = numbers.length
  room : numbers.length ≤ 2 ^ 32
  filled : ∀ id < numbers.length, ∃ t, b.memo[id]? = some (some (.object t))
  nodup : numbers.Nodup
  injective : ∀ (id id' : Nat) t, b.memo[id]? = some (some (.object t)) →
    b.memo[id']? = some (some (.object t)) → id = id'
  bounded : ∀ (id : Nat) t, b.memo[id]? = some (some (.object t)) → t < b.heap.length
  buffers : ∀ r t bytes, Corresponds numbers b r t → heap[r]? = some (.arrayBuffer bytes) →
    b.heap[t]? = some (.arrayBuffer bytes)

/-- What `%Date%` makes of the time that was written. -/
def ReadTime (time time' : UInt64) : Prop := time' = timeClip (Double.box time).val

/-- From one point to a later one: objects get the next numbers, of the objects
there were those to `keep` are unchanged, and the new ones are as written. -/
structure Grown (heap : Heap) (keep : Ref → Prop) (numbers : List Ref) (b : Built)
    (numbers' : List Ref) (b' : Built) : Prop where
  numbering : numbers <+: numbers'
  memo : b.memo <+: b'.memo
  size : b.heap.length ≤ b'.heap.length
  frame : ∀ t < b.heap.length, keep t → b'.heap[t]? = b.heap[t]?
  fresh : ∀ (id : Nat) r t, numbers.length ≤ id → numbers'[id]? = some r →
    b'.memo[id]? = some (some (.object t)) →
    b.heap.length ≤ t ∧ ∃ o o', heap[r]? = some o ∧ b'.heap[t]? = some o' ∧
      o.Same ReadTime (Corresponds numbers' b') o'

variable {heap : Heap} {keep keep' : Ref → Prop} {numbers numbers' numbers'' : List Ref}
  {b b' b'' : Built}

theorem getElem?_of_isPrefix {α : Type} {xs ys : List α} (h : xs <+: ys) {i : Nat}
    (hi : i < xs.length) : ys[i]? = xs[i]? := by
  obtain ⟨zs, rfl⟩ := h
  exact List.getElem?_append_left hi

theorem getElem?_some_of_isPrefix {α : Type} {xs ys : List α} (h : xs <+: ys) {i : Nat} {a : α}
    (hi : xs[i]? = some a) : ys[i]? = some a := by
  obtain ⟨hlt, -⟩ := List.getElem?_eq_some_iff.mp hi
  rw [getElem?_of_isPrefix h hlt, hi]

theorem Corresponds.mono (hnumbers : numbers <+: numbers') (hmemo : b.memo <+: b'.memo)
    {r t : Ref} (h : Corresponds numbers b r t) : Corresponds numbers' b' r t := by
  obtain ⟨id, hr, ht⟩ := h
  exact ⟨id, getElem?_some_of_isPrefix hnumbers hr, getElem?_some_of_isPrefix hmemo ht⟩

theorem Grown.corresponds (h : Grown heap keep numbers b numbers' b') {r t : Ref}
    (hc : Corresponds numbers b r t) : Corresponds numbers' b' r t :=
  hc.mono h.numbering h.memo

theorem Linked.functional (h : Linked heap numbers b) (r t t' : Ref)
    (ht : Corresponds numbers b r t) (ht' : Corresponds numbers b r t') : t = t' := by
  obtain ⟨id, hr, hm⟩ := ht
  obtain ⟨id', hr', hm'⟩ := ht'
  have hid : id = id' := by
    obtain ⟨hlt, -⟩ := List.getElem?_eq_some_iff.mp hr
    exact (List.getElem?_inj hlt h.nodup).mp (hr.trans hr'.symm)
  subst hid
  rw [hm] at hm'
  cases hm'
  rfl

theorem Linked.oneToOne (h : Linked heap numbers b) (r r' t : Ref)
    (hr : Corresponds numbers b r t) (hr' : Corresponds numbers b r' t) : r = r' := by
  obtain ⟨id, hn, hm⟩ := hr
  obtain ⟨id', hn', hm'⟩ := hr'
  have hid := h.injective _ _ _ hm hm'
  subst hid
  exact Option.some.inj (hn.symm.trans hn')

theorem linked_nil (heap' : Heap) : Linked heap [] ⟨[], heap'⟩ where
  length := rfl
  room := Nat.zero_le _
  filled id h := absurd h (Nat.not_lt_zero id)
  nodup := List.nodup_nil
  injective _ _ _ h := by cases h
  bounded _ _ h := by cases h
  buffers _ _ _ h := by
    obtain ⟨_, h, -⟩ := h
    cases h

theorem Grown.refl : Grown heap keep numbers b numbers b where
  numbering := List.prefix_rfl
  memo := List.prefix_rfl
  size := Nat.le_refl _
  frame _ _ _ := rfl
  fresh id r t hid hr _ := by
    obtain ⟨hlt, -⟩ := List.getElem?_eq_some_iff.mp hr
    exact absurd hlt (Nat.not_lt.mpr hid)

theorem Grown.weaken (h : Grown heap keep numbers b numbers' b')
    (hkeep : ∀ t < b.heap.length, keep' t → keep t) : Grown heap keep' numbers b numbers' b' where
  numbering := h.numbering
  memo := h.memo
  size := h.size
  frame t ht hk := h.frame t ht (hkeep t ht hk)
  fresh := h.fresh

theorem Grown.trans (h : Grown heap keep numbers b numbers' b')
    (h' : Grown heap keep numbers' b' numbers'' b'') (hlinked : Linked heap numbers' b')
    (hkeep : ∀ t, b.heap.length ≤ t → keep t) : Grown heap keep numbers b numbers'' b'' where
  numbering := h.numbering.trans h'.numbering
  memo := h.memo.trans h'.memo
  size := h.size.trans h'.size
  frame t ht hk := by rw [h'.frame t (Nat.lt_of_lt_of_le ht h.size) hk, h.frame t ht hk]
  fresh id r t hid hr ht := by
    rcases Nat.lt_or_ge id numbers'.length with hlt | hge
    · -- completed before the first point was left behind, and kept since
      rw [getElem?_of_isPrefix h'.numbering hlt] at hr
      rw [getElem?_of_isPrefix h'.memo (by rw [hlinked.length]; exact hlt)] at ht
      obtain ⟨hle, o, o', ho, ho', hsame⟩ := h.fresh id r t hid hr ht
      refine ⟨hle, o, o', ho, ?_, hsame.mono (fun _ _ h => h) fun _ _ => h'.corresponds⟩
      rw [h'.frame t (hlinked.bounded id t ht) (hkeep t hle), ho']
    · obtain ⟨hle, hobj⟩ := h'.fresh id r t hge hr ht
      exact ⟨h.size.trans hle, hobj⟩

section Extend

variable {refs targets : List Ref} {objects : List Obj}

/-- Objects allocated and numbered together. -/
def Built.extend (b : Built) (targets : List Ref) (objects : List Obj) : Built :=
  ⟨b.memo ++ targets.map fun t => some (.object t), b.heap ++ objects⟩

theorem extend_memo_eq_some {id : Nat} {t : Ref} :
    (b.extend targets objects).memo[id]? = some (some (.object t)) ↔
      b.memo[id]? = some (some (.object t)) ∨
      (b.memo.length ≤ id ∧ targets[id - b.memo.length]? = some t) := by
  change (b.memo ++ targets.map fun t => some (Value.object t))[id]? = _ ↔ _
  rcases Nat.lt_or_ge id b.memo.length with hlt | hge
  · rw [List.getElem?_append_left hlt]
    constructor
    · exact .inl
    · rintro (h | ⟨h, -⟩)
      · exact h
      · exact absurd hlt (Nat.not_lt.mpr h)
  · rw [List.getElem?_append_right hge, List.getElem?_map, List.getElem?_eq_none hge]
    simp [hge]

/-- Targets that are new, apart, and allocated. -/
structure NewTargets (b : Built) (refs targets : List Ref) (objects : List Obj) : Prop where
  length : targets.length = refs.length
  nodup : targets.Nodup
  range : ∀ t ∈ targets, b.heap.length ≤ t ∧ t < b.heap.length + objects.length

theorem corresponds_extend (hlinked : Linked heap numbers b) {r t : Ref} :
    Corresponds (numbers ++ refs) (b.extend targets objects) r t →
      Corresponds numbers b r t ∨ ∃ k : Nat, refs[k]? = some r ∧ targets[k]? = some t := by
  rintro ⟨id, hr, hm⟩
  rcases extend_memo_eq_some.mp hm with hm | ⟨hle, ht⟩
  · obtain ⟨hlt, -⟩ := List.getElem?_eq_some_iff.mp hm
    rw [hlinked.length] at hlt
    rw [List.getElem?_append_left hlt] at hr
    exact .inl ⟨id, hr, hm⟩
  · rw [hlinked.length] at hle ht
    rw [List.getElem?_append_right hle] at hr
    exact .inr ⟨_, hr, ht⟩

theorem Linked.extend (h : Linked heap numbers b) (hroom : (numbers ++ refs).length ≤ 2 ^ 32)
    (hnodup : (numbers ++ refs).Nodup)
    (hnew : NewTargets b refs targets objects)
    (hbuffers : ∀ (k : Nat) r t bytes, refs[k]? = some r → targets[k]? = some t →
      heap[r]? = some (.arrayBuffer bytes) →
      (b.heap ++ objects)[t]? = some (.arrayBuffer bytes)) :
    Linked heap (numbers ++ refs) (b.extend targets objects) where
  length := by
    change (b.memo ++ targets.map _).length = _
    rw [List.length_append, List.length_map, List.length_append, hnew.length, h.length]
  room := hroom
  filled id hid := by
    rcases Nat.lt_or_ge id numbers.length with hlt | hge
    · obtain ⟨t, ht⟩ := h.filled id hlt
      exact ⟨t, extend_memo_eq_some.mpr (.inl ht)⟩
    · have hlt : id - b.memo.length < targets.length := by
        rw [List.length_append] at hid
        rw [hnew.length, h.length]
        omega
      refine ⟨targets[id - b.memo.length], extend_memo_eq_some.mpr (.inr ⟨?_, ?_⟩)⟩
      · rw [h.length]
        exact hge
      · exact List.getElem?_eq_getElem hlt
  nodup := hnodup
  injective id id' t hid hid' := by
    rcases extend_memo_eq_some.mp hid with hid | ⟨hle, hid⟩ <;>
      rcases extend_memo_eq_some.mp hid' with hid' | ⟨hle', hid'⟩
    · exact h.injective _ _ _ hid hid'
    · exact absurd (h.bounded _ _ hid)
        (Nat.not_lt.mpr (hnew.range t (List.mem_of_getElem? hid')).1)
    · exact absurd (h.bounded _ _ hid')
        (Nat.not_lt.mpr (hnew.range t (List.mem_of_getElem? hid)).1)
    · obtain ⟨hlt, -⟩ := List.getElem?_eq_some_iff.mp hid
      have := (List.getElem?_inj hlt hnew.nodup).mp (hid.trans hid'.symm)
      omega
  bounded id t hid := by
    change t < (b.heap ++ objects).length
    rw [List.length_append]
    rcases extend_memo_eq_some.mp hid with hid | ⟨-, hid⟩
    · exact Nat.lt_of_lt_of_le (h.bounded _ _ hid) (Nat.le_add_right _ _)
    · exact (hnew.range t (List.mem_of_getElem? hid)).2
  buffers r t bytes hc hr := by
    rcases corresponds_extend h hc with hc | ⟨k, hk, ht⟩
    · exact getElem?_some_of_isPrefix (List.prefix_append _ _) (h.buffers r t bytes hc hr)
    · exact hbuffers k r t bytes hk ht hr

theorem Grown.extend (h : Linked heap numbers b) (hnew : NewTargets b refs targets objects)
    (hobjects : ∀ (k : Nat) r t, refs[k]? = some r → targets[k]? = some t →
      ∃ o o', heap[r]? = some o ∧ (b.heap ++ objects)[t]? = some o' ∧
        o.Same ReadTime (Corresponds (numbers ++ refs) (b.extend targets objects)) o') :
    Grown heap keep numbers b (numbers ++ refs) (b.extend targets objects) where
  numbering := List.prefix_append _ _
  memo := List.prefix_append _ _
  size := by
    change b.heap.length ≤ (b.heap ++ objects).length
    rw [List.length_append]
    exact Nat.le_add_right _ _
  frame t ht _ := List.getElem?_append_left ht
  fresh id r t hid hr ht := by
    rw [List.getElem?_append_right hid] at hr
    rcases extend_memo_eq_some.mp ht with ht | ⟨-, ht⟩
    · obtain ⟨hlt, -⟩ := List.getElem?_eq_some_iff.mp ht
      rw [h.length] at hlt
      exact absurd hlt (Nat.not_lt.mpr hid)
    · rw [h.length] at ht
      exact ⟨(hnew.range t (List.mem_of_getElem? ht)).1, hobjects _ r t hr ht⟩

end Extend

section Single

variable {r : Ref} {o o₀ o' : Obj}

theorem newTargets_single (b : Built) (r : Ref) (o₀ : Obj) :
    NewTargets b [r] [b.heap.length] [o₀] where
  length := rfl
  nodup := List.nodup_singleton _
  range t ht := by
    rw [List.mem_singleton] at ht
    subst ht
    exact ⟨Nat.le_refl _, Nat.lt_succ_self _⟩

theorem nodup_snoc (h : numbers.Nodup) (hr : r ∉ numbers) : (numbers ++ [r]).Nodup := by
  refine List.Nodup.append h (List.nodup_singleton r) fun x hx hx' => ?_
  rw [List.mem_singleton] at hx'
  exact hr (hx' ▸ hx)

/-- An object under its number. -/
theorem Linked.push (h : Linked heap numbers b) (hr : r ∉ numbers)
    (hroom : numbers.length < 2 ^ 32)
    (hbuffer : ∀ bytes, heap[r]? = some (.arrayBuffer bytes) → o₀ = .arrayBuffer bytes) :
    Linked heap (numbers ++ [r]) (b.extend [b.heap.length] [o₀]) := by
  have hlength : (numbers ++ [r]).length ≤ 2 ^ 32 := by
    rw [List.length_append]
    exact hroom
  refine h.extend hlength (nodup_snoc h.nodup hr) (newTargets_single b r o₀) ?_
  intro k r' t bytes hk ht hget
  cases k with
  | zero =>
      cases hk
      cases ht
      rw [List.getElem?_concat_length, hbuffer bytes hget]
  | succ k => cases hk

theorem corresponds_push (hlinked : Linked heap numbers b) :
    Corresponds (numbers ++ [r]) (b.extend [b.heap.length] [o₀]) r b.heap.length := by
  refine ⟨numbers.length, List.getElem?_concat_length, ?_⟩
  rw [← hlinked.length]
  exact List.getElem?_concat_length

theorem Grown.push (h : Linked heap numbers b) (hget : heap[r]? = some o)
    (hsame : o.Same ReadTime (Corresponds (numbers ++ [r]) (b.extend [b.heap.length] [o₀])) o₀) :
    Grown heap keep numbers b (numbers ++ [r]) (b.extend [b.heap.length] [o₀]) := by
  refine Grown.extend h (newTargets_single b r o₀) ?_
  intro k r' t hk ht
  cases k with
  | zero =>
      cases hk
      cases ht
      exact ⟨o, o₀, hget, List.getElem?_concat_length, hsame⟩
  | succ k => cases hk

/-- A container that was numbered first is complete when its parts are. -/
theorem Grown.close (hlinked : Linked heap numbers b) (hget : heap[r]? = some o)
    (h : Grown heap (· ≠ b.heap.length) (numbers ++ [r]) (b.extend [b.heap.length] [o₀])
      numbers' b')
    (ho' : b'.heap[b.heap.length]? = some o')
    (hsame : o.Same ReadTime (Corresponds numbers' b') o') :
    Grown heap keep numbers b numbers' b' where
  numbering := (List.prefix_append _ _).trans h.numbering
  memo := (List.prefix_append _ _).trans h.memo
  size := by
    refine Nat.le_trans ?_ h.size
    change b.heap.length ≤ (b.heap ++ [o₀]).length
    rw [List.length_append]
    exact Nat.le_add_right _ _
  frame t ht _ := by
    have hlt : t < (b.extend [b.heap.length] [o₀]).heap.length := by
      change t < (b.heap ++ [o₀]).length
      rw [List.length_append]
      exact Nat.lt_of_lt_of_le ht (Nat.le_add_right _ _)
    rw [h.frame t hlt (Nat.ne_of_lt ht)]
    exact List.getElem?_append_left ht
  fresh id r' t hid hr ht := by
    rcases Nat.eq_or_lt_of_le hid with rfl | hlt
    · have hc := h.corresponds (corresponds_push hlinked)
      obtain ⟨hnumber, hmemo⟩ : numbers'[numbers.length]? = some r ∧
          b'.memo[numbers.length]? = some (some (.object b.heap.length)) := by
        refine ⟨getElem?_some_of_isPrefix h.numbering List.getElem?_concat_length,
          getElem?_some_of_isPrefix h.memo ?_⟩
        rw [← hlinked.length]
        exact List.getElem?_concat_length
      rw [hr] at hnumber
      rw [ht] at hmemo
      cases hnumber
      cases hmemo
      exact ⟨Nat.le_refl _, o, o', hget, ho', hsame⟩
    · have hge : (numbers ++ [r]).length ≤ id := by
        rw [List.length_append]
        exact hlt
      obtain ⟨hle, hobj⟩ := h.fresh id r' t hge hr ht
      refine ⟨Nat.le_trans ?_ hle, hobj⟩
      change b.heap.length ≤ (b.heap ++ [o₀]).length
      rw [List.length_append]
      exact Nat.le_add_right _ _

end Single

section Update

variable {n : Ref} {o : Obj}

def Built.update (b : Built) (n : Ref) (change : Obj → Obj) : Built :=
  ⟨b.memo, b.heap.modify n change⟩

theorem Linked.update (h : Linked heap numbers b) (ho : b.heap[n]? = some o)
    (hbuffer : ∀ bytes, o ≠ .arrayBuffer bytes) (change : Obj → Obj) :
    Linked heap numbers (b.update n change) where
  length := h.length
  room := h.room
  filled := h.filled
  nodup := h.nodup
  injective := h.injective
  bounded id t ht := by
    change t < (b.heap.modify n change).length
    rw [List.length_modify]
    exact h.bounded id t ht
  buffers r t bytes hc hr := by
    have ht := h.buffers r t bytes hc hr
    have hne : n ≠ t := by
      rintro rfl
      rw [ho] at ht
      exact hbuffer bytes (Option.some.inj ht)
    change (b.heap.modify n change)[t]? = _
    rw [List.getElem?_modify_ne change _ hne, ht]

theorem Grown.update (change : Obj → Obj) :
    Grown heap (· ≠ n) numbers b numbers (b.update n change) where
  numbering := List.prefix_rfl
  memo := List.prefix_rfl
  size := by
    change b.heap.length ≤ (b.heap.modify n change).length
    rw [List.length_modify]
  frame t _ ht := List.getElem?_modify_ne change _ (Ne.symm ht)
  fresh id r t hid hr _ := by
    obtain ⟨hlt, -⟩ := List.getElem?_eq_some_iff.mp hr
    exact absurd hlt (Nat.not_lt.mpr hid)

theorem getElem?_update (ho : b.heap[n]? = some o) (change : Obj → Obj) :
    (b.update n change).heap[n]? = some (change o) := by
  change (b.heap.modify n change)[n]? = _
  rw [List.getElem?_modify_eq, ho]
  rfl

end Update

section Reads

variable {F α : Type}

/-- Reading these bytes keeps the memos in step. -/
def Reads (heap : Heap) (keep : Ref → Prop) (numbers : List Ref) (b : Built) (m : Read F α)
    (bytes : Bytes) (numbers' : List Ref) (post : Built → α → Prop) : Prop :=
  ∀ rest, ∃ a b', m (b.at (bytes ++ rest)) = (.ok a, b'.at rest) ∧
    Linked heap numbers' b' ∧ Grown heap keep numbers b numbers' b' ∧ post b' a

/-- A reader reads back whatever a writer writes within so many bytes. -/
def Mirrors (heap : Heap) (within : Value → Prop) (size : Nat)
    (write : List Ref → Value → Option Written) (nested : Read F Value) : Prop :=
  ∀ numbers b v numbers' bytes, write numbers v = some (numbers', bytes) → within v →
    bytes.length ≤ size → Linked heap numbers b →
    Reads heap (fun _ => True) numbers b nested bytes numbers' fun b' w =>
      v.Same (Corresponds numbers' b') w

variable {write : List Ref → Value → Option Written}

variable {bytes : Bytes} {items : List (Option Value)}

theorem writeItems_cons {v : Value}
    (h : writeItems write numbers (some v :: items) = some (numbers'', bytes)) :
    ∃ numbers' first rest, write numbers v = some (numbers', first) ∧
      writeItems write numbers' items = some (numbers'', rest) ∧ bytes = first ++ rest := by
  obtain ⟨⟨numbers', first⟩, hfirst, h⟩ := Option.bind_eq_some_iff.mp h
  obtain ⟨⟨numbers₂, rest⟩, hrest, h⟩ := Option.bind_eq_some_iff.mp h
  cases h
  exact ⟨numbers', first, rest, hfirst, hrest, rfl⟩

theorem writeItems_hole (h : writeItems write numbers (none :: items) = some (numbers', bytes)) :
    ∃ rest, writeItems write numbers items = some (numbers', rest) ∧ bytes = tagHole :: rest := by
  obtain ⟨⟨numbers₂, rest⟩, hrest, h⟩ := Option.bind_eq_some_iff.mp h
  cases h
  exact ⟨rest, hrest, rfl⟩

theorem writeItems_append {items items' : List (Option Value)}
    (h : writeItems write numbers (items ++ items') = some (numbers'', bytes)) :
    ∃ numbers' first rest, writeItems write numbers items = some (numbers', first) ∧
      writeItems write numbers' items' = some (numbers'', rest) ∧ bytes = first ++ rest := by
  induction items generalizing numbers bytes with
  | nil => exact ⟨numbers, [], bytes, rfl, h, rfl⟩
  | cons item items ih =>
      cases item with
      | none =>
          obtain ⟨bytes', h', rfl⟩ := writeItems_hole h
          obtain ⟨numbers', first, rest, hfirst, hrest, rfl⟩ := ih h'
          refine ⟨numbers', tagHole :: first, rest, ?_, hrest, rfl⟩
          rw [writeItems, hfirst]
          rfl
      | some v =>
          obtain ⟨numbers₁, bytes₁, bytes', hv, h', rfl⟩ := writeItems_cons h
          obtain ⟨numbers', first, rest, hfirst, hrest, rfl⟩ := ih h'
          refine ⟨numbers', bytes₁ ++ first, rest, ?_, hrest, (List.append_assoc ..).symm⟩
          rw [writeItems, hv]
          simp only [Option.bind_eq_bind, Option.bind_some, hfirst]
          rfl

/-- A loop that reads one part after another into the object at `n`. -/
theorem reads_repeatRead {G : Type} {encode : G → List (Option Value)}
    {inv : (Ref → Ref → Prop) → List G → Obj → Prop} {step : Nat → Read F Unit} {n : Ref} {size : Nat}
    {all : List G} (hstep : ∀ read g unread, read ++ g :: unread = all → ∀ numbers b numbers' bytes o,
      writeItems write numbers (encode g) = some (numbers', bytes) → bytes.length ≤ size →
      Linked heap numbers b → b.heap[n]? = some o → inv (Corresponds numbers b) read o →
      Reads heap (· ≠ n) numbers b (step read.length) bytes numbers' fun b' _ =>
        ∃ o', b'.heap[n]? = some o' ∧ inv (Corresponds numbers' b') (read ++ [g]) o')
    (unread read : List G) (hall : read ++ unread = all) {o : Obj}
    (hwrite : writeItems write numbers (unread.flatMap encode) = some (numbers', bytes))
    (hsize : bytes.length ≤ size) (hlinked : Linked heap numbers b) (ho : b.heap[n]? = some o)
    (hinv : inv (Corresponds numbers b) read o) :
    Reads heap (· ≠ n) numbers b (repeatRead step read.length unread.length) bytes numbers'
      fun b' _ => ∃ o', b'.heap[n]? = some o' ∧ inv (Corresponds numbers' b') all o' := by
  induction unread generalizing read numbers b numbers' bytes o with
  | nil =>
      cases hwrite
      rw [List.append_nil] at hall
      subst hall
      exact fun rest => ⟨(), b, rfl, hlinked, .refl, o, ho, hinv⟩
  | cons g unread ih =>
      obtain ⟨numbers₁, first, later, hfirst, hlater, rfl⟩ := writeItems_append hwrite
      rw [List.length_append] at hsize
      intro rest
      obtain ⟨_, b₁, hread, hlinked₁, hgrown₁, o₁, ho₁, hinv₁⟩ :=
        hstep read g unread hall numbers b numbers₁ first o hfirst
          (Nat.le_trans (Nat.le_add_right _ _) hsize) hlinked ho hinv (later ++ rest)
      obtain ⟨_, b₂, hread₂, hlinked₂, hgrown₂, hdone⟩ :=
        ih (read ++ [g]) (by rw [List.append_assoc]; exact hall) hlater
          (Nat.le_trans (Nat.le_add_left _ _) hsize) hlinked₁ ho₁ hinv₁ rest
      refine ⟨(), b₂, ?_, hlinked₂, hgrown₁.trans hgrown₂ hlinked₁ ?_, hdone⟩
      · rw [List.length_append] at hread₂
        rw [List.append_assoc, List.length_cons, repeatRead, bind_ok hread]
        exact hread₂
      · rintro t ht rfl
        obtain ⟨hlt, -⟩ := List.getElem?_eq_some_iff.mp ho
        exact absurd hlt (Nat.not_lt.mpr ht)

end Reads

end Slag.V8
