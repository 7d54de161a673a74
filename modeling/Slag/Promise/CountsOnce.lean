import Slag.Promise.Combinators
import Mathlib.Data.List.Basic
import Mathlib.Data.List.GetD
import Mathlib.Data.List.Nodup
import Mathlib.Data.List.Perm.Basic

/-!
The combinators count every element once. The counter is the opening one and the
increments less the decrements, no element and not the end decrements twice, so
the counter is 0 exactly when all have; then nothing can change the entries.
-/

namespace Slag.Promise.Combinators

open Slag.Crux

def decrements (events : List Event) : List (Option Nat) :=
  events.filterMap fun
    | .decrement element => some element
    | _ => none

def increments (events : List Event) : Nat :=
  events.countP fun
    | .increment => true
    | _ => false

def collects (events : List Event) : List Collected :=
  events.filterMap fun
    | .collect result => some result
    | _ => none

/-- The first call of a handler of an element. -/
def firstCall (log : List (CompoundState × Value)) (i : Nat) : Option (CompoundState × Value) :=
  log.find? fun call => call.1.index = i

/-- What a call supplies. -/
def itemOf (variant : Variant) : Option (CompoundState × Value) → Item
  | none => .undefined
  | some (state, value) =>
      match variant with
      | .allSettled | .allSettledKeyed => .status state.fulfilled value
      | _ => .plain value

/-- The handlers that count: to fulfil for `all`, to reject for `any`, both for
the settled forms. -/
def Counts (state : CompoundState) : Variant → Prop
  | .all | .allKeyed => state.fulfilled = true
  | .any => state.fulfilled = false
  | _ => True

/-- A handler of `allSettled` is not called for the first time once the other
handler of its element has been called. -/
def SiblingFree (s : Combinator) : Action → Prop
  | .call handler _ => s.variant = .allSettled → ∀ state, s.compound[handler]? = some state →
      s.called.getD state.called false = false →
      ∀ other ∈ s.compound, other.index = state.index → s.called.getD other.called false = false
  | _ => True

def Allowed : Combinator → List Action → Prop
  | _, [] => True
  | s, action :: actions =>
      SiblingFree s action ∧
        match step s action with
        | some (s', _) => Allowed s' actions
        | none => True

def Placed (s : Combinator) (counted : Nat) : Prop :=
  match s.progress with
  | .iterating | .ended => s.entries.length = s.index ∧ counted = s.index
  | .resolving =>
      s.entries.length = s.index + 1 ∧ counted = (if s.variant.keyed then s.index else s.index + 1)
  | .attaching => s.entries.length = s.index + 1 ∧ counted = s.index + 1
  | .failed => counted ≤ s.entries.length

/-- What every step keeps, with the events and the calls so far. -/
structure Counting (s : Combinator) (events : List Event) (log : List (CompoundState × Value)) :
    Prop where
  placed : Placed s (increments events)
  handlers : ∀ c ∈ s.compound, c.index < increments events ∧ c.called < s.called.length ∧
    Counts c s.variant
  opening : s.progress = .resolving → ∀ c ∈ s.compound, c.index < s.index
  cells : ∀ c ∈ s.compound, ∀ c' ∈ s.compound, c.called = c'.called → c.index = c'.index
  shared : s.variant ≠ .allSettled → ∀ c ∈ s.compound, ∀ c' ∈ s.compound, c.index = c'.index →
    c.called = c'.called
  nodup : (decrements events).Nodup
  ended : none ∈ decrements events ↔ s.progress = .ended
  settled : ∀ i, some i ∈ decrements events ↔
    ∃ c ∈ s.compound, c.index = i ∧ s.called.getD c.called false = true
  first : ∀ i, some i ∈ decrements events ↔ (firstCall log i).isSome
  remaining : s.remaining + (decrements events).length = 1 + increments events
  items : ∀ (i : Nat) entry, s.entries[i]? = some entry →
    entry.2 = itemOf s.variant (firstCall log i)
  keys : s.variant.keyed → ∃ keys, s.entries.map Prod.fst = keys.map some ∧ (keys ++ s.keys).Nodup
  collected : collects events = if s.remaining = 0 then [s.result] else []

variable {s s' : Combinator} {events : List Event} {log : List (CompoundState × Value)}

@[simp] theorem decrements_append (events events' : List Event) :
    decrements (events ++ events') = decrements events ++ decrements events' :=
  List.filterMap_append

@[simp] theorem increments_append (events events' : List Event) :
    increments (events ++ events') = increments events + increments events' :=
  List.countP_append

@[simp] theorem collects_append (events events' : List Event) :
    collects (events ++ events') = collects events ++ collects events' :=
  List.filterMap_append

theorem firstCall_append (log : List (CompoundState × Value)) (state : CompoundState) (value : Value)
    (i : Nat) : firstCall (log ++ [(state, value)]) i =
      (firstCall log i).or (if state.index = i then some (state, value) else none) := by
  unfold firstCall
  rw [List.find?_append]
  by_cases h : state.index = i <;> simp [h]

/-! Counting. -/

theorem counted_le_entries (h : Counting s events log) : increments events ≤ s.entries.length := by
  have hp := h.placed
  unfold Placed at hp
  split at hp
  · omega
  · omega
  · split at hp <;> omega
  · omega
  · exact hp

/-- Whoever can decrement: the end, and the elements counted. -/
def counters (counted : Nat) : List (Option Nat) :=
  none :: (List.range counted).map some

theorem mem_counters {counted i : Nat} : some i ∈ counters counted ↔ i < counted := by
  simp [counters]

theorem length_counters (counted : Nat) : (counters counted).length = 1 + counted := by
  simp [counters, Nat.add_comm]

theorem Counting.subset (h : Counting s events log) :
    decrements events ⊆ counters (increments events) := by
  intro element he
  cases element with
  | none => exact List.mem_cons_self
  | some i =>
      obtain ⟨c, hc, rfl, -⟩ := (h.settled i).mp he
      exact mem_counters.mpr (h.handlers c hc).1

variable {element : Option Nat} {c : CompoundState} {handler : Nat} {value : Value}

/-- Whoever has not decremented yet finds the counter above 0. -/
theorem Counting.remaining_pos (h : Counting s events log) (he : element ∈ counters (increments events))
    (hn : element ∉ decrements events) :
    0 < s.remaining := by
  have hsub : element :: decrements events ⊆ counters (increments events) :=
    List.cons_subset.mpr ⟨he, h.subset⟩
  have hle := (List.subperm_of_subset (List.nodup_cons.mpr ⟨hn, h.nodup⟩) hsub).length_le
  rw [length_counters, List.length_cons] at hle
  have := h.remaining
  omega

/-- At 0 all have decremented. -/
theorem Counting.all_of_zero (h : Counting s events log) (hz : s.remaining = 0)
    (he : element ∈ counters (increments events)) : element ∈ decrements events := by
  by_contra hn
  have := h.remaining_pos he hn
  omega

theorem Counting.ended_of_zero (h : Counting s events log) (hz : s.remaining = 0) :
    s.progress = .ended :=
  h.ended.mp (h.all_of_zero hz List.mem_cons_self)

theorem Counting.remaining_ne (h : Counting s events log) (hp : s.progress ≠ .ended) :
    s.remaining ≠ 0 :=
  fun hz => hp (h.ended_of_zero hz)

/-- A handler whose flag is clear belongs to an element that has not decremented. -/
theorem Counting.not_settled (h : Counting s events log) (hc : s.compound[handler]? = some c)
    (hg : SiblingFree s (.call handler value)) (hf : s.called.getD c.called false = false) :
    some c.index ∉ decrements events := by
  intro hm
  obtain ⟨c', hc', hi, ht⟩ := (h.settled c.index).mp hm
  by_cases hv : s.variant = .allSettled
  · rw [hg hv c hc hf c' hc' hi] at ht
    cases ht
  · rw [h.shared hv c' hc' c (List.mem_of_getElem? hc) hi, hf] at ht
    cases ht

/-! The loop. -/

/-- An element that is not counted has supplied nothing. -/
theorem Counting.firstCall_none (h : Counting s events log) {i : Nat} (hi : increments events ≤ i) :
    firstCall log i = none := by
  rw [← Option.not_isSome_iff_eq_none, ← h.first]
  intro hm
  have := mem_counters.mp (h.subset hm)
  omega

theorem Counting.items_append (h : Counting s events log) (key : Option PropertyKey) (i : Nat)
    (entry : Option PropertyKey × Item)
    (hi : (s.entries ++ [(key, Item.undefined)])[i]? = some entry) :
    entry.2 = itemOf s.variant (firstCall log i) := by
  by_cases hlt : i < s.entries.length
  · exact h.items i entry (by rwa [List.getElem?_append_left hlt] at hi)
  · have hle : increments events ≤ i := (counted_le_entries h).trans (by omega)
    rw [List.getElem?_append_right (by omega), List.getElem?_singleton] at hi
    split at hi
    · cases hi
      rw [h.firstCall_none hle]
      rfl
    · cases hi

theorem Counting.collects_nil (h : Counting s events log) (hp : s.progress ≠ .ended) :
    collects events = [] := by
  rw [h.collected, if_neg (h.remaining_ne hp)]

theorem Counting.not_ended (h : Counting s events log) (hp : s.progress ≠ .ended) :
    none ∉ decrements events :=
  fun hm => hp (h.ended.mp hm)

theorem placed_iterating {counted : Nat} (h : Placed s counted) (hp : s.progress = .iterating) :
    s.entries.length = s.index ∧ counted = s.index := by
  unfold Placed at h
  rwa [hp] at h

theorem counting_next_array (h : Counting s events log) (hp : s.progress = .iterating)
    (hk : s.variant.keyed = false) :
    Counting { s with
      entries := s.entries ++ [(none, .undefined)]
      remaining := s.remaining + 1
      progress := .resolving } (events ++ [.increment]) log := by
  obtain ⟨hlen, hcount⟩ := placed_iterating h.placed hp
  have hne : s.progress ≠ .ended := by rw [hp]; decide
  have hd : decrements (events ++ [.increment]) = decrements events := by simp [decrements]
  have hi : increments (events ++ [.increment]) = increments events + 1 := by simp [increments]
  constructor
  case placed => simp [Placed, hi, hlen, hcount, hk]
  case handlers =>
    intro c hc
    have hold := h.handlers c hc
    exact ⟨by omega, hold.2⟩
  case opening =>
    intro _ c hc
    have hold := h.handlers c hc
    simp only
    omega
  case cells => exact h.cells
  case shared => exact h.shared
  case nodup => exact hd ▸ h.nodup
  case ended => rw [hd]; exact iff_of_false (h.not_ended hne) (by simp)
  case settled => rw [hd]; exact h.settled
  case first => rw [hd]; exact h.first
  case remaining =>
    have := h.remaining
    rw [hd, hi]
    simp only
    omega
  case items => exact h.items_append none
  case keys => intro hkeyed; rw [hk] at hkeyed; cases hkeyed
  case collected =>
    rw [collects_append, h.collects_nil hne, if_neg (Nat.succ_ne_zero _)]
    rfl

theorem counting_next_keyed (h : Counting s events log) (hp : s.progress = .iterating)
    (hk : s.variant.keyed = true) {key : PropertyKey} {keys : List PropertyKey}
    (hkeys : s.keys = key :: keys) :
    Counting { s with
      keys := keys
      entries := s.entries ++ [(some key, .undefined)]
      progress := .resolving } events log := by
  obtain ⟨hlen, hcount⟩ := placed_iterating h.placed hp
  have hne : s.progress ≠ .ended := by rw [hp]; decide
  constructor
  case placed => simp [Placed, hlen, hcount, hk]
  case handlers => exact h.handlers
  case opening =>
    intro _ c hc
    have hold := h.handlers c hc
    simp only
    omega
  case cells => exact h.cells
  case shared => exact h.shared
  case nodup => exact h.nodup
  case ended => exact iff_of_false (h.not_ended hne) (by simp)
  case settled => exact h.settled
  case first => exact h.first
  case remaining => exact h.remaining
  case items => exact h.items_append (some key)
  case keys =>
    intro hkeyed
    obtain ⟨visited, hv, hnodup⟩ := h.keys hkeyed
    refine ⟨visited ++ [key], by simp [hv], ?_⟩
    rw [hkeys] at hnodup
    simpa using hnodup
  case collected => rw [h.collects_nil hne, if_neg (h.remaining_ne hne)]

/-- The handlers of one element are new, with clear flags; outside `allSettled`
they share one. -/
theorem createHandlers_eq (s : Combinator) : ∃ (new : List CompoundState) (flags : List Bool),
    s.createHandlers =
      { s with compound := s.compound ++ new, called := s.called ++ flags } ∧
    (∀ flag ∈ flags, flag = false) ∧
    (∀ c ∈ new, c.index = s.index ∧ s.called.length ≤ c.called ∧
      c.called < s.called.length + flags.length ∧ Counts c s.variant) ∧
    (s.variant ≠ .allSettled → ∀ c ∈ new, ∀ c' ∈ new, c.called = c'.called) := by
  obtain ⟨variant, keys, entries, remaining, index, compound, called, progress⟩ := s
  cases variant with
  | all | allKeyed =>
      exact ⟨[⟨index, true, called.length⟩], [false], rfl, by simp, by simp [Counts], by simp⟩
  | any => exact ⟨[⟨index, false, called.length⟩], [false], rfl, by simp, by simp [Counts], by simp⟩
  | allSettled =>
      refine ⟨[⟨index, true, called.length⟩, ⟨index, false, called.length + 1⟩], [false, false], ?_,
        by simp, by simp [Counts], by simp⟩
      simp [Combinator.createHandlers, Combinator.newCell, Combinator.createHandler]
  | allSettledKeyed =>
      refine ⟨[⟨index, true, called.length⟩, ⟨index, false, called.length⟩], [false], ?_, by simp,
        by simp [Counts], by simp⟩
      simp [Combinator.createHandlers, Combinator.newCell, Combinator.createHandler]

/-- The element gets its handlers; `more` is the increment a keyed combinator
still makes. -/
theorem counting_resolved (h : Counting s events log) (hp : s.progress = .resolving) (more : List Event)
    (hd : decrements more = []) (hc : collects more = [])
    (hmore : increments events + increments more = s.index + 1) :
    Counting { s with
      remaining := s.remaining + increments more
      progress := .attaching }.createHandlers (events ++ more) log := by
  obtain ⟨new, flags, hs, hflags, hnew, hshared⟩ := createHandlers_eq
    { s with remaining := s.remaining + increments more, progress := .attaching }
  rw [hs]
  have hne : s.progress ≠ .ended := by rw [hp]; decide
  have hlen : s.entries.length = s.index + 1 := by
    have hplaced := h.placed
    unfold Placed at hplaced
    rw [hp] at hplaced
    exact hplaced.1
  have hdec : decrements (events ++ more) = decrements events := by
    rw [decrements_append, hd, List.append_nil]
  have hold : ∀ c ∈ s.compound, (s.called ++ flags).getD c.called false = s.called.getD c.called false := by
    intro c hc
    exact List.getD_append _ _ _ _ (h.handlers c hc).2.1
  constructor
  case placed => simp [Placed, hlen, hmore]
  case handlers =>
    intro c hc
    simp only [List.length_append, increments_append]
    rcases List.mem_append.mp hc with hc | hc
    · obtain ⟨hi, hcalled, hcounts⟩ := h.handlers c hc
      exact ⟨by omega, by omega, hcounts⟩
    · obtain ⟨hi, -, hcalled, hcounts⟩ := hnew c hc
      simp only at hi
      exact ⟨by omega, hcalled, hcounts⟩
  case opening => intro hr; cases hr
  case cells =>
    intro c hc c' hc' heq
    rcases List.mem_append.mp hc with hc | hc
    · have hlt := (h.handlers c hc).2.1
      rcases List.mem_append.mp hc' with hc' | hc'
      · exact h.cells c hc c' hc' heq
      · have hge := (hnew c' hc').2.1
        simp only at hge
        omega
    · have hge := (hnew c hc).2.1
      rcases List.mem_append.mp hc' with hc' | hc'
      · have hlt := (h.handlers c' hc').2.1
        simp only at hge
        omega
      · rw [(hnew c hc).1, (hnew c' hc').1]
  case shared =>
    intro hv c hc c' hc' heq
    rcases List.mem_append.mp hc with hc | hc
    · have hlt := h.opening hp c hc
      rcases List.mem_append.mp hc' with hc' | hc'
      · exact h.shared hv c hc c' hc' heq
      · have hidx := (hnew c' hc').1
        simp only at hidx
        omega
    · have hidx := (hnew c hc).1
      rcases List.mem_append.mp hc' with hc' | hc'
      · have hlt := h.opening hp c' hc'
        simp only at hidx
        omega
      · exact hshared hv c hc c' hc'
  case nodup => exact hdec ▸ h.nodup
  case ended => rw [hdec]; exact iff_of_false (h.not_ended hne) (by simp)
  case settled =>
    intro i
    rw [hdec, h.settled i]
    constructor
    · rintro ⟨c, hc, hi, hcalled⟩
      exact ⟨c, List.mem_append_left _ hc, hi, (hold c hc).trans hcalled⟩
    · rintro ⟨c, hc, hi, hcalled⟩
      rcases List.mem_append.mp hc with hc | hc
      · exact ⟨c, hc, hi, (hold c hc).symm.trans hcalled⟩
      · have hge := (hnew c hc).2.1
        simp only at hge hcalled
        rw [List.getD_append_right _ _ _ _ hge] at hcalled
        have hfalse : ∀ n : Nat, flags.getD n false = false := by
          intro n
          cases hn : flags[n]? with
          | none => simp [List.getD_eq_getElem?_getD, hn]
          | some flag => simp [List.getD_eq_getElem?_getD, hn, hflags flag (List.mem_of_getElem? hn)]
        rw [hfalse] at hcalled
        cases hcalled
  case first => rw [hdec]; exact h.first
  case remaining =>
    have := h.remaining
    rw [hdec, increments_append]
    simp only
    omega
  case items => exact h.items
  case keys => exact h.keys
  case collected =>
    have hpos := h.remaining_ne hne
    rw [collects_append, hc, h.collects_nil hne, if_neg (by simp only; omega)]
    rfl

/-- The loop moves on, or is left. -/
theorem Counting.move (h : Counting s events log) (hp : s.progress ≠ .ended) (index : Nat)
    (progress : Progress) (hprogress : progress ≠ .ended) (hr : progress ≠ .resolving)
    (hplaced : Placed { s with index := index, progress := progress } (increments events)) :
    Counting { s with index := index, progress := progress } events log where
  placed := hplaced
  handlers := h.handlers
  opening := fun he => absurd he hr
  cells := h.cells
  shared := h.shared
  nodup := h.nodup
  ended := iff_of_false (h.not_ended hp) hprogress
  settled := h.settled
  first := h.first
  remaining := h.remaining
  items := h.items
  keys := h.keys
  collected := h.collected

/-! Decrements. -/

theorem decrement_spec (hpos : 0 < s.remaining) (element : Option Nat) : ∃ more : List Event,
    s.decrement element = some ({ s with remaining := s.remaining - 1 }, more) ∧
    decrements more = [element] ∧ increments more = 0 ∧
    collects more = if s.remaining - 1 = 0 then [s.result] else [] := by
  obtain ⟨n, hn⟩ := Nat.exists_eq_succ_of_ne_zero hpos.ne'
  refine ⟨_, by simp only [Combinator.decrement, hn]; rfl, ?_⟩
  simp only [hn, Nat.succ_sub_one]
  cases n with
  | zero => exact ⟨rfl, rfl, rfl⟩
  | succ n => exact ⟨rfl, rfl, rfl⟩

theorem counting_finish (h : Counting s events log) (hp : s.progress = .iterating) :
    ∃ more, { s with progress := .ended }.decrement none =
        some ({ s with progress := .ended, remaining := s.remaining - 1 }, more) ∧
      Counting { s with progress := .ended, remaining := s.remaining - 1 } (events ++ more) log := by
  have hne : s.progress ≠ .ended := by rw [hp]; decide
  have hpos := Nat.pos_of_ne_zero (h.remaining_ne hne)
  obtain ⟨more, hstep, hd, hi, hc⟩ := decrement_spec (s := { s with progress := .ended }) hpos none
  refine ⟨more, hstep, ?_⟩
  have hdec : decrements (events ++ more) = decrements events ++ [none] := by
    rw [decrements_append, hd]
  have hinc : increments (events ++ more) = increments events := by
    rw [increments_append, hi, Nat.add_zero]
  have hsome : ∀ i, some i ∈ decrements events ++ [none] ↔ some i ∈ decrements events := by
    intro i
    simp
  constructor
  case placed =>
    have hplaced := placed_iterating h.placed hp
    rw [hinc]
    exact hplaced
  case handlers => rw [hinc]; exact h.handlers
  case opening => intro he; cases he
  case cells => exact h.cells
  case shared => exact h.shared
  case nodup =>
    rw [hdec]
    exact List.nodup_append.mpr ⟨h.nodup, List.nodup_singleton none, fun a ha b hb hab =>
      h.not_ended hne (by rw [← List.mem_singleton.mp hb, ← hab]; exact ha)⟩
  case ended => rw [hdec]; simp
  case settled => intro i; rw [hdec, hsome]; exact h.settled i
  case first => intro i; rw [hdec, hsome]; exact h.first i
  case remaining =>
    have := h.remaining
    rw [hdec, hinc, List.length_append, List.length_singleton]
    simp only
    omega
  case items => exact h.items
  case keys => exact h.keys
  case collected =>
    rw [collects_append, h.collects_nil hne, hc]
    rfl

theorem write_eq {index : Nat} (hi : index < s.entries.length) (item : Item) :
    s.write index item =
      { s with entries := s.entries.modify index fun entry => (entry.1, item) } := by
  have hz : index + 1 - s.entries.length = 0 := by omega
  simp only [Combinator.write, hz, List.replicate_zero, List.append_nil, ite_self]

theorem getD_set {flags : List Bool} {n : Nat} (hn : n < flags.length) (m : Nat) :
    (flags.set n true).getD m false = if m = n then true else flags.getD m false := by
  simp only [List.getD_eq_getElem?_getD, List.getElem?_set]
  by_cases h : n = m
  · subst h
    simp [hn]
  · simp [h, Ne.symm h]

/-- A handler whose flag is set does nothing; the first call was another. -/
theorem counting_again (h : Counting s events log) (hc : c ∈ s.compound)
    (hf : s.called.getD c.called false = true) (value : Value) :
    Counting s events (log ++ [(c, value)]) := by
  have hfirst : ∀ i, firstCall (log ++ [(c, value)]) i = firstCall log i := by
    intro i
    rw [firstCall_append]
    by_cases hi : c.index = i
    · have hsome : (firstCall log i).isSome := (h.first i).mp ((h.settled i).mpr ⟨c, hc, hi, hf⟩)
      obtain ⟨call, hcall⟩ := Option.isSome_iff_exists.mp hsome
      rw [hcall]
      rfl
    · simp [hi]
  exact { h with
    first := fun i => by rw [hfirst]; exact h.first i
    items := fun i entry hi => by rw [hfirst]; exact h.items i entry hi }

/-- The first call of a handler of an element settles it. -/
theorem counting_settle (h : Counting s events log) (hc : c ∈ s.compound)
    (hn : some c.index ∉ decrements events) (value : Value) {item : Item}
    (hitem : item = itemOf s.variant (some (c, value))) :
    ∃ s' more, ({ s with called := s.called.set c.called true }.write c.index item).decrement
        (some c.index) = some (s', more) ∧
      Counting s' (events ++ more) (log ++ [(c, value)]) := by
  obtain ⟨hidx, hcalled, -⟩ := h.handlers c hc
  have hlen : c.index < s.entries.length := hidx.trans_le (counted_le_entries h)
  have hpos : 0 < s.remaining := h.remaining_pos (mem_counters.mpr hidx) hn
  have hwrite := write_eq (s := { s with called := s.called.set c.called true }) hlen item
  rw [hwrite]
  obtain ⟨more, hstep, hd, hi, hcol⟩ := decrement_spec (s := { s with
    called := s.called.set c.called true
    entries := s.entries.modify c.index fun entry => (entry.1, item) }) hpos (some c.index)
  refine ⟨_, more, hstep, ?_⟩
  have hdec : decrements (events ++ more) = decrements events ++ [some c.index] := by
    rw [decrements_append, hd]
  have hinc : increments (events ++ more) = increments events := by
    rw [increments_append, hi, Nat.add_zero]
  have hsome : ∀ i, some i ∈ decrements events ++ [some c.index] ↔
      some i ∈ decrements events ∨ i = c.index := by
    intro i
    simp
  have hnone : firstCall log c.index = none := by
    rw [← Option.not_isSome_iff_eq_none, ← h.first]
    exact hn
  constructor
  case placed =>
    have hplaced := h.placed
    rw [hinc]
    unfold Placed at hplaced ⊢
    simpa only [List.length_modify] using hplaced
  case handlers => rw [hinc]; simpa only [List.length_set] using h.handlers
  case opening => exact h.opening
  case cells => exact h.cells
  case shared => exact h.shared
  case nodup =>
    rw [hdec]
    exact List.nodup_append.mpr ⟨h.nodup, List.nodup_singleton _, fun a ha b hb hab =>
      hn (by rw [← List.mem_singleton.mp hb, ← hab]; exact ha)⟩
  case ended => rw [hdec]; simpa using h.ended
  case settled =>
    intro i
    rw [hdec, hsome, h.settled i]
    constructor
    · rintro (⟨c', hc', hi', ht⟩ | rfl)
      · refine ⟨c', hc', hi', ?_⟩
        rw [getD_set hcalled, ht, ite_self]
      · refine ⟨c, hc, rfl, ?_⟩
        rw [getD_set hcalled, if_pos rfl]
    · rintro ⟨c', hc', hi', ht⟩
      rw [getD_set hcalled] at ht
      split at ht
      · rename_i heq
        exact .inr (hi'.symm.trans (h.cells c' hc' c hc heq))
      · exact .inl ⟨c', hc', hi', ht⟩
  case first =>
    intro i
    rw [hdec, hsome, h.first i, firstCall_append]
    by_cases hi' : c.index = i
    · subst hi'
      simp
    · simp [hi', Ne.symm hi']
  case remaining =>
    have := h.remaining
    rw [hdec, hinc, List.length_append, List.length_singleton]
    simp only
    omega
  case items =>
    intro i entry hentry
    rw [firstCall_append]
    rw [List.getElem?_modify] at hentry
    obtain ⟨old, hold, rfl⟩ := Option.map_eq_some_iff.mp hentry
    by_cases hi' : c.index = i
    · subst hi'
      rw [hnone, if_pos rfl, if_pos rfl]
      exact hitem
    · rw [if_neg hi', if_neg hi', Option.or_none]
      exact h.items i old hold
  case keys =>
    intro hk
    obtain ⟨keys, hkeys, hnodup⟩ := h.keys hk
    refine ⟨keys, ?_, hnodup⟩
    rw [← hkeys]
    refine List.ext_getElem? fun i => ?_
    rw [List.getElem?_map, List.getElem?_map, List.getElem?_modify]
    cases s.entries[i]? with
    | none => rfl
    | some entry => by_cases hi' : c.index = i <;> simp [hi']
  case collected =>
    rw [collects_append, hcol, h.collected, if_neg hpos.ne']
    rfl

/-! Steps and runs. -/

theorem callHandler_eq (s : Combinator) (c : CompoundState) (value : Value) :
    s.callHandler c value = s.settleElement c (itemOf s.variant (some (c, value))) := by
  unfold Combinator.callHandler itemOf
  cases hv : s.variant <;> rfl

theorem counting_call (h : Counting s events log) (hc : s.compound[handler]? = some c)
    (hg : SiblingFree s (.call handler value)) :
    ∃ s' more, s.callHandler c value = some (s', more) ∧
      Counting s' (events ++ more) (log ++ [(c, value)]) := by
  rw [callHandler_eq]
  unfold Combinator.settleElement
  cases hf : s.called.getD c.called false with
  | true =>
      refine ⟨s, [], by rw [if_pos rfl], ?_⟩
      rw [List.append_nil]
      exact counting_again h (List.mem_of_getElem? hc) hf value
  | false =>
      rw [if_neg (by decide)]
      exact counting_settle h (List.mem_of_getElem? hc) (h.not_settled hc hg hf) value rfl

theorem Counting.stays (h : Counting s events log) :
    ∃ s' more, some (s, []) = some (s', more) ∧ Counting s' (events ++ more) (log ++ []) :=
  ⟨s, [], rfl, by simpa using h⟩

theorem counting_step (h : Counting s events log) {action : Action} (hg : SiblingFree s action) :
    ∃ s' more, step s action = some (s', more) ∧
      Counting s' (events ++ more) (log ++ callOf s action) := by
  cases action with
  | call handler value =>
      cases hc : s.compound[handler]? with
      | none => simpa only [step, callOf, hc, Option.map_none, Option.toList_none] using h.stays
      | some c =>
          simpa only [step, callOf, hc, Option.map_some, Option.toList_some] using
            counting_call h hc hg
  | next =>
      cases hp : s.progress with
      | iterating =>
          simp only [step, hp]
          cases hk : s.variant.keyed with
          | false =>
              rw [if_neg (by decide)]
              exact ⟨_, _, rfl, by simpa [callOf] using counting_next_array h hp hk⟩
          | true =>
              rw [if_pos rfl]
              cases hkeys : s.keys with
              | nil => exact h.stays
              | cons key keys =>
                  exact ⟨_, _, rfl, by simpa [callOf] using counting_next_keyed h hp hk hkeys⟩
      | _ =>
          simp only [step, hp]
          exact h.stays
  | skip =>
      cases hp : s.progress with
      | iterating =>
          have hstep : step s .skip = some ({ s with keys := s.keys.tail }, []) := by
            simp only [step, hp]
          have hkeys : s.variant.keyed → ∃ keys, s.entries.map Prod.fst = keys.map some ∧
              (keys ++ s.keys.tail).Nodup := by
            intro hk
            obtain ⟨keys, hkeys, hnodup⟩ := h.keys hk
            exact ⟨keys, hkeys, hnodup.sublist ((List.tail_sublist _).append_left _)⟩
          have hskip : Counting { s with keys := s.keys.tail } events log := { h with keys := hkeys }
          exact ⟨_, _, hstep, by simpa [callOf] using hskip⟩
      | _ =>
          simp only [step, hp]
          exact h.stays
  | resolved =>
      cases hp : s.progress with
      | resolving =>
          have hplaced := h.placed
          unfold Placed at hplaced
          simp only [hp] at hplaced
          simp only [step, hp]
          cases hk : s.variant.keyed with
          | false =>
              rw [hk, if_neg (by decide)] at hplaced
              have hmore : Counting { s with progress := .attaching }.createHandlers (events ++ []) log :=
                counting_resolved h hp [] rfl rfl hplaced.2
              exact ⟨_, _, rfl, by simpa [callOf] using hmore⟩
          | true =>
              rw [hk, if_pos rfl] at hplaced
              have hmore : Counting { s with
                  remaining := s.remaining + 1
                  progress := .attaching }.createHandlers (events ++ [.increment]) log :=
                counting_resolved h hp [.increment] rfl rfl (congrArg (· + 1) hplaced.2)
              exact ⟨_, _, rfl, by simpa [callOf] using hmore⟩
      | _ =>
          simp only [step, hp]
          exact h.stays
  | attached =>
      cases hp : s.progress with
      | attaching =>
          have hplaced := h.placed
          unfold Placed at hplaced
          simp only [hp] at hplaced
          simp only [step, hp]
          have hmove := h.move (by rw [hp]; decide) (s.index + 1) .iterating (by decide)
            (by decide) hplaced
          exact ⟨_, _, rfl, by simpa [callOf] using hmove⟩
      | _ =>
          simp only [step, hp]
          exact h.stays
  | fail =>
      by_cases hp : s.progress = .ended
      · simp only [step, hp]
        exact h.stays
      · have hle := counted_le_entries h
        have hmove := h.move hp s.index .failed (by decide) (by decide) hle
        have hstep : step s .fail = some ({ s with progress := .failed }, []) := by
          simp only [step]
        exact ⟨_, _, hstep, by simpa [callOf] using hmove⟩
  | finish =>
      cases hp : s.progress with
      | iterating =>
          simp only [step, hp]
          split
          · exact h.stays
          · obtain ⟨more, hstep, hcount⟩ := counting_finish h hp
            exact ⟨_, more, hstep, by simpa [callOf] using hcount⟩
      | _ =>
          simp only [step, hp]
          exact h.stays

theorem counting_run (h : Counting s events log) {actions : List Action} (hg : Allowed s actions) :
    ∃ t more, run s actions = some (t, more) ∧
      Counting t (events ++ more) (log ++ calls s actions) := by
  induction actions generalizing s events log with
  | nil => exact ⟨s, [], rfl, by simpa [calls] using h⟩
  | cons action actions ih =>
      obtain ⟨s', more, hstep, hs'⟩ := counting_step h hg.1
      have hlater := hg.2
      rw [hstep] at hlater
      obtain ⟨t, later, hrun, ht⟩ := ih hs' hlater
      refine ⟨t, more ++ later, by simp [run, hstep, hrun], ?_⟩
      simpa only [calls, hstep, List.append_assoc] using ht

theorem counting_start (variant : Variant) (own : OwnKeys) :
    Counting (Combinator.start variant own) [] [] := by
  constructor
  case keys => exact fun _ => ⟨[], rfl, own.nodup⟩
  all_goals simp [Combinator.start, Placed, increments, decrements, collects, firstCall]

/-! The result. -/

/-- A collected result holds an item for element `i`: at its position, or at its key. -/
def HoldsAt (s : Combinator) (i : Nat) (item : Item) : Collected → Prop
  | .array items => s.variant.keyed = false ∧ items.length = s.entries.length ∧ items[i]? = some item
  | .object properties => s.variant.keyed = true ∧ ∃ key,
      (s.entries[i]?).map Prod.fst = some (some key) ∧ properties key = some item

section Keyed

variable {entries : List (Option PropertyKey × Item)} {key : PropertyKey} {item : Item}

theorem createDataProperty_of_notMem (object : PropertyKey → Option Item)
    (h : some key ∉ entries.map Prod.fst) :
    entries.foldl Combinator.createDataProperty object key = object key := by
  induction entries generalizing object with
  | nil => rfl
  | cons entry entries ih =>
      obtain ⟨other, item⟩ := entry
      simp only [List.map_cons, List.mem_cons, not_or] at h
      rw [List.foldl_cons, ih _ h.2]
      cases other with
      | none => rfl
      | some other => exact Function.update_of_ne (fun he => h.1 (congrArg some he)) _ _

/-- With distinct keys each keeps the value of its entry. -/
theorem createDataProperty_of_mem (object : PropertyKey → Option Item)
    (hnodup : (entries.map Prod.fst).Nodup) (h : (some key, item) ∈ entries) :
    entries.foldl Combinator.createDataProperty object key = some item := by
  induction entries generalizing object with
  | nil => exact absurd h List.not_mem_nil
  | cons entry entries ih =>
      rw [List.map_cons, List.nodup_cons] at hnodup
      rw [List.foldl_cons]
      cases List.mem_cons.mp h with
      | inl he =>
          subst he
          rw [createDataProperty_of_notMem _ hnodup.1]
          exact Function.update_self _ _ _
      | inr hm => exact ih _ hnodup.2 hm

end Keyed

/-- The result of a state holds what the calls supplied. -/
theorem result_holdsAt (h : Counting s events log) {i : Nat} (hi : i < s.entries.length) :
    HoldsAt s i (itemOf s.variant (firstCall log i)) s.result := by
  obtain ⟨entry, hentry⟩ : ∃ entry, s.entries[i]? = some entry :=
    ⟨_, List.getElem?_eq_getElem hi⟩
  have hitem := h.items i entry hentry
  unfold Combinator.result
  cases hk : s.variant.keyed with
  | false =>
      rw [if_neg (by decide)]
      refine ⟨hk, List.length_map _, ?_⟩
      rw [List.getElem?_map, hentry, ← hitem]
      rfl
  | true =>
      rw [if_pos rfl]
      obtain ⟨keys, hkeys, hnodup⟩ := h.keys hk
      have hkey : (keys.map some)[i]? = some entry.1 := by
        rw [← hkeys, List.getElem?_map, hentry]
        rfl
      rw [List.getElem?_map] at hkey
      obtain ⟨key, -, he⟩ := Option.map_eq_some_iff.mp hkey
      have hmem : (some key, itemOf s.variant (firstCall log i)) ∈ s.entries := by
        rw [he, ← hitem]
        exact List.mem_of_getElem? hentry
      have hdistinct : (s.entries.map Prod.fst).Nodup := by
        rw [hkeys]
        exact hnodup.of_append_left.map (Option.some_injective _)
      exact ⟨hk, key, by rw [hentry, he]; rfl, createDataProperty_of_mem _ hdistinct hmem⟩

/-- What the combinator promises about a run: no element and not the end decrements
twice, the counter is exact, an element has decremented if a counting handler of it
was called, and a result is passed on at most once, with all elements counted and
the first call's item for each. -/
structure CountsOnce (s : Combinator) (events : List Event) (log : List (CompoundState × Value)) :
    Prop where
  nodup : (decrements events).Nodup
  remaining : s.remaining + (decrements events).length = 1 + increments events
  ended : none ∈ decrements events ↔ s.progress = .ended
  elements : ∀ i, some i ∈ decrements events ↔ (firstCall log i).isSome
  counting : ∀ c ∈ s.compound, Counts c s.variant
  collected : collects events = [] ∨ ∃ result, collects events = [result] ∧ s.progress = .ended ∧
    ∀ i < s.entries.length, ∃ call, firstCall log i = some call ∧
      HoldsAt s i (itemOf s.variant (some call)) result

theorem Counting.countsOnce (h : Counting s events log) : CountsOnce s events log where
  nodup := h.nodup
  remaining := h.remaining
  ended := h.ended
  elements := h.first
  counting := fun c hc => (h.handlers c hc).2.2
  collected := by
    rw [h.collected]
    by_cases hz : s.remaining = 0
    · rw [if_pos hz]
      have hended := h.ended_of_zero hz
      have hcount : increments events = s.entries.length := by
        have hplaced := h.placed
        unfold Placed at hplaced
        simp only [hended] at hplaced
        omega
      refine .inr ⟨s.result, rfl, hended, fun i hi => ?_⟩
      have hsome := (h.first i).mp (h.all_of_zero hz (mem_counters.mpr (hcount ▸ hi)))
      obtain ⟨call, hcall⟩ := Option.isSome_iff_exists.mp hsome
      exact ⟨call, hcall, hcall ▸ result_holdsAt h hi⟩
    · exact .inl (if_neg hz)

/-- Every run in which no `allSettled` handler is first called after the other
handler of its element keeps the counter at 0 or above and counts every element once. -/
theorem counts_once (variant : Variant) (own : OwnKeys) (actions : List Action)
    (h : Allowed (Combinator.start variant own) actions) :
    ∃ s events, run (Combinator.start variant own) actions = some (s, events) ∧
      CountsOnce s events (calls (Combinator.start variant own) actions) := by
  obtain ⟨s, events, hrun, hs⟩ := counting_run (counting_start variant own) h
  exact ⟨s, events, hrun, hs.countsOnce⟩

/-- Two elements: the fulfil handler of the first is called twice before the second
is read and again at the end, the reject handler of the second twice after the end
of the iteration. -/
theorem counts_once_repeated :
    let actions := [.next, .resolved, .call 0 .null, .call 0 .undefined, .attached, .next, .resolved,
      .attached, .finish, .call 3 .undefined, .call 0 .undefined, .call 3 .null]
    ∃ s events, run (Combinator.start .allSettled ⟨[], List.nodup_nil⟩) actions = some (s, events) ∧
      CountsOnce s events (calls (Combinator.start .allSettled ⟨[], List.nodup_nil⟩) actions) := by
  refine counts_once .allSettled ⟨[], List.nodup_nil⟩ _ ?_
  simp [Allowed, SiblingFree, step, Combinator.start, Combinator.callHandler,
    Combinator.allSettledHandler, Combinator.settleElement, Combinator.createHandlers,
    Combinator.newCell, Combinator.createHandler, Combinator.write, Combinator.decrement,
    Variant.keyed]

/-- Both handlers of the first of two elements are called: the element counts
twice, and the result is passed on while the second has supplied nothing. -/
theorem allSettled_counts_twice :
    let s := Combinator.start .allSettled ⟨[], List.nodup_nil⟩
    let actions := [.next, .resolved, .call 0 .null, .call 1 .undefined, .attached,
      .next, .resolved, .attached, .finish]
    ¬∃ t events, run s actions = some (t, events) ∧ CountsOnce t events (calls s actions) := by
  intro s actions
  rintro ⟨t, events, hrun, h⟩
  have hd : (run s actions).map (decrements ∘ Prod.snd) = some [some 0, some 0, none] := rfl
  rw [hrun] at hd
  have hdec : decrements events = [some 0, some 0, none] := Option.some.inj hd
  have hnodup := h.nodup
  rw [hdec] at hnodup
  exact absurd hnodup (by decide)

end Slag.Promise.Combinators
