import Slag.Lib.Slots

/-!
Runs of operations on a table of slots, with iterators that are advanced
between them. The table refines the scanned list of slots, the live entries of
the list are an ordered list of entries, and an iterator reaches every slot
once.
-/

namespace Slag.Slots

open Slag.Machine

variable {ε κ ω χ : Type*}

/-! ## Operations -/

structure Iter (χ : Type*) where
  active : Bool
  next : Nat
  kind : χ

structure State (σ χ : Type*) where
  data : σ
  iters : List (Iter χ)

/-- `put` changes the entry with the key of `e` by `f`, or adds `e`. -/
inductive Op (K : Keying ε κ ω) (χ : Type*) where
  | put (e : ε) (f : ε → ε) (hf : ∀ x, K.key (f x) = K.key x)
  | get (k : κ)
  | remove (k : κ)
  | clear
  | size
  | iterate (kind : χ)
  | next (n : Nat)

inductive Out (ε χ : Type*) where
  | entry (e : Option ε)
  | removed (found : Bool)
  | cleared
  | size (n : Nat)
  | iterator
  | item (kind : χ) (e : ε)
  | finished
  | refused

/-- The first live slot, numbering from `i`. -/
def nextLive : List (Option ε) → Nat → Option (Nat × ε)
  | [], _ => none
  | some e :: _, i => some (i, e)
  | none :: entries, i => nextLive entries (i + 1)

def Iter.advance (entries : List (Option ε)) (it : Iter χ) : Iter χ × Out ε χ :=
  if it.active then
    match nextLive (entries.drop it.next) it.next with
    | some (i, e) => ({ it with next := i + 1 }, .item it.kind e)
    | none => ({ it with active := false }, .finished)
  else (it, .finished)

def advanceAt (entries : List (Option ε)) (iters : List (Iter χ)) (n : Nat) :
    List (Iter χ) × Out ε χ :=
  match iters[n]? with
  | some it => (iters.set n (it.advance entries).1, (it.advance entries).2)
  | none => (iters, .refused)

def liveCount (entries : List (Option ε)) : Nat :=
  entries.countP Option.isSome

section Steps

variable (K : Keying ε κ ω)

/-- A step of the table. -/
def step [DecidableEq ω] (s : State (Table ε ω) χ) : Op K χ → State (Table ε ω) χ × Out ε χ
  | .put e f _ =>
      match s.data.slot K (K.key e) with
      | some i =>
          ({ s with data := s.data.update i f }, .entry (s.data.entries[i]?.join.map f))
      | none => ({ s with data := s.data.pushNew K e }, .entry (some e))
  | .get k => (s, .entry ((s.data.slot K k).bind fun i => s.data.entries[i]?.join))
  | .remove k => ({ s with data := (s.data.remove K k).2 }, .removed (s.data.remove K k).1)
  | .clear => ({ s with data := s.data.clear }, .cleared)
  | .size => (s, .size (liveCount s.data.entries))
  | .iterate kind => ({ s with iters := s.iters ++ [⟨true, 0, kind⟩] }, .iterator)
  | .next n =>
      ({ s with iters := (advanceAt s.data.entries s.iters n).1 },
        (advanceAt s.data.entries s.iters n).2)

/-- A step that scans the list of slots. -/
def scanStep (s : State (List (Option ε)) χ) : Op K χ → State (List (Option ε)) χ × Out ε χ
  | .put e f _ =>
      match find K s.data (K.key e) with
      | some i => ({ s with data := s.data.modify i (Option.map f) }, .entry (s.data[i]?.join.map f))
      | none => ({ s with data := s.data ++ [some e] }, .entry (some e))
  | .get k => (s, .entry ((find K s.data k).bind fun i => s.data[i]?.join))
  | .remove k =>
      match find K s.data k with
      | some i => ({ s with data := s.data.set i none }, .removed true)
      | none => (s, .removed false)
  | .clear => ({ s with data := s.data.map fun _ => none }, .cleared)
  | .size => (s, .size (liveCount s.data))
  | .iterate kind => ({ s with iters := s.iters ++ [⟨true, 0, kind⟩] }, .iterator)
  | .next n => ({ s with iters := (advanceAt s.data s.iters n).1 }, (advanceAt s.data s.iters n).2)

/-- What a step makes of the live entries in their order. -/
def orderedStep (l : List ε) : Op K χ → List ε
  | .put e f _ =>
      if l.any fun x => K.same (K.key x) (K.key e) then
        l.map fun x => if K.same (K.key x) (K.key e) then f x else x
      else l ++ [e]
  | .remove k => l.filter fun x => !K.same (K.key x) k
  | .clear => []
  | _ => l

end Steps

variable {K : Keying ε κ ω}

/-! ## The table refines the list -/

structure Refines (K : Keying ε κ ω) (s : State (Table ε ω) χ) (l : State (List (Option ε)) χ) :
    Prop where
  entries : s.data.entries = l.data
  iters : s.iters = l.iters
  sound : s.data.Sound K
  distinct : Distinct K l.data

variable {l : State (List (Option ε)) χ} {entries : List (Option ε)} {i : Nat} {ops : List (Op K χ)}
  {op : Op K χ}

theorem step_refines [DecidableEq ω] (hK : K.Lawful) {s : State (Table ε ω) χ} (h : Refines K s l)
    (op : Op K χ) :
    (step K s op).2 = (scanStep K l op).2 ∧ Refines K (step K s op).1 (scanStep K l op).1 := by
  obtain ⟨t, iters⟩ := s
  obtain ⟨es, iters'⟩ := l
  obtain ⟨hes, hiters, hsound, hd⟩ := h
  dsimp only at hes hiters hsound hd
  subst hes hiters
  cases op with
  | put e f hf =>
      have hslot := slot_eq_find hK hsound hd (K.key e)
      simp only [step, scanStep, hslot]
      cases hfind : find K t.entries (K.key e) with
      | some i => exact ⟨rfl, rfl, rfl, hsound.update hf i, hd.of_keys fun _ _ => modify_keys hf⟩
      | none => exact ⟨rfl, rfl, rfl, hsound.pushNew e, hd.push hK hfind⟩
  | get k =>
      refine ⟨?_, rfl, rfl, hsound, hd⟩
      simp only [step, scanStep, slot_eq_find hK hsound hd]
  | remove k =>
      obtain ⟨hfound, hentries, hsound'⟩ := remove_spec hK hsound hd k
      simp only [step, scanStep]
      cases hfind : find K t.entries k with
      | some i =>
          rw [hfind] at hfound hentries
          refine ⟨congrArg Out.removed hfound, hentries, rfl, hsound', ?_⟩
          exact hd.of_keys fun _ e he => ⟨e, (set_none_keys he).1, rfl⟩
      | none =>
          rw [hfind] at hfound hentries
          exact ⟨congrArg Out.removed hfound, hentries, rfl, hsound', hd⟩
  | clear => exact ⟨rfl, rfl, rfl, clear_sound t, hd.of_keys fun _ _ he => absurd he map_none_dead⟩
  | size => exact ⟨rfl, rfl, rfl, hsound, hd⟩
  | iterate kind => exact ⟨rfl, rfl, rfl, hsound, hd⟩
  | next n => exact ⟨rfl, rfl, rfl, hsound, hd⟩

theorem refines_start [DecidableEq ω] (hd : Distinct K entries) :
    Refines K (⟨Table.fromEntries K entries, []⟩ : State (Table ε ω) χ) ⟨entries, []⟩ :=
  ⟨fromEntries_entries entries, rfl, rebuildIndex_sound _, hd⟩

theorem run_refines [DecidableEq ω] (hK : K.Lawful) {s : State (Table ε ω) χ} (h : Refines K s l)
    (ops : List (Op K χ)) :
    (run (step K) s ops).2 = (run (scanStep K) l ops).2 ∧
      Refines K (run (step K) s ops).1 (run (scanStep K) l ops).1 := by
  have hguarded : ∀ (s : State (Table ε ω) χ) ops, Guarded (step K) (fun _ _ => True) s ops := by
    intro s ops
    induction ops generalizing s with
    | nil => trivial
    | cons op ops ih => exact ⟨trivial, ih _⟩
  exact simulation_run (Refines K) (fun _ _ op h _ => step_refines hK h op) h (hguarded s ops)

/-! ## The live entries in order -/

theorem modify_find (hK : K.Lawful) (hd : Distinct K entries) {k : κ} (h : find K entries k = some i)
    (f : ε → ε) :
    entries.modify i (Option.map f) =
      entries.map (Option.map fun x => if K.same (K.key x) k then f x else x) := by
  obtain ⟨e, he, hk⟩ := find_some h
  refine List.ext_getElem? fun j => ?_
  rw [List.getElem?_modify, List.getElem?_map]
  cases hj : entries[j]? with
  | none => rfl
  | some slot =>
      cases slot with
      | none => simp
      | some a =>
          by_cases hij : i = j
          · subst hij
            rw [he, Option.some.injEq, Option.some.injEq] at hj
            subst hj
            simp [hk]
          · have hne : K.same (K.key a) k = false := by
              by_contra hak
              rw [Bool.not_eq_false] at hak
              exact hij (hd i j e a he hj (hK.trans hk (hK.symm hak)))
            simp [hij, hne]

theorem set_find (hK : K.Lawful) (hd : Distinct K entries) {k : κ} (h : find K entries k = some i) :
    entries.set i none = entries.map (Option.filter fun x => !K.same (K.key x) k) := by
  obtain ⟨e, he, hk⟩ := find_some h
  refine List.ext_getElem? fun j => ?_
  rw [List.getElem?_set, List.getElem?_map]
  cases hj : entries[j]? with
  | none =>
      have hlen := List.getElem?_eq_none_iff.mp hj
      have hi := (List.getElem?_eq_some_iff.mp he).1
      rw [if_neg (by omega)]
      rfl
  | some slot =>
      have hlt := (List.getElem?_eq_some_iff.mp hj).1
      cases slot with
      | none =>
          have hi := (List.getElem?_eq_some_iff.mp he).1
          simp [hi]
      | some a =>
          by_cases hij : i = j
          · subst hij
            rw [he, Option.some.injEq, Option.some.injEq] at hj
            subst hj
            simp [hlt, hk, Option.filter]
          · have hne : K.same (K.key a) k = false := by
              by_contra hak
              rw [Bool.not_eq_false] at hak
              exact hij (hd i j e a he hj (hK.trans hk (hK.symm hak)))
            simp [hij, hne, Option.filter]

theorem any_live {k : κ} :
    (entries.reduceOption.any fun x => K.same (K.key x) k) = (find K entries k).isSome := by
  rw [Bool.eq_iff_iff, List.any_eq_true, Option.isSome_iff_exists]
  constructor
  · rintro ⟨x, hx, hk⟩
    rw [List.reduceOption_mem_iff] at hx
    obtain ⟨i, hi⟩ := List.mem_iff_getElem?.mp hx
    cases hf : find K entries k with
    | some j => exact ⟨j, rfl⟩
    | none =>
        rw [find_none.mp hf i x hi] at hk
        cases hk
  · rintro ⟨i, hi⟩
    obtain ⟨e, he, hk⟩ := find_some hi
    exact ⟨e, List.reduceOption_mem_iff.mpr (List.mem_of_getElem? he), hk⟩

theorem reduceOption_map_filter (p : ε → Bool) (entries : List (Option ε)) :
    (entries.map (Option.filter p)).reduceOption = entries.reduceOption.filter p := by
  induction entries with
  | nil => rfl
  | cons slot entries ih =>
      cases slot with
      | none => simpa [List.reduceOption_cons_of_none] using ih
      | some e =>
          cases hp : p e <;>
            simp [Option.filter, hp, ih, List.reduceOption_cons_of_some,
              List.reduceOption_cons_of_none]

theorem scanStep_live (hK : K.Lawful) (hd : Distinct K l.data) (op : Op K χ) :
    (scanStep K l op).1.data.reduceOption = orderedStep K l.data.reduceOption op := by
  cases op with
  | put e f hf =>
      simp only [scanStep, orderedStep, any_live]
      cases hfind : find K l.data (K.key e) with
      | some i =>
          simp only [Option.isSome_some, if_true]
          rw [modify_find hK hd hfind, List.reduceOption_map]
      | none =>
          simp only [Option.isSome_none, Bool.false_eq_true, if_false]
          rw [List.reduceOption_append, List.reduceOption_singleton]
          rfl
  | remove k =>
      simp only [scanStep, orderedStep]
      cases hfind : find K l.data k with
      | some i =>
          dsimp only
          rw [set_find hK hd hfind, reduceOption_map_filter]
      | none =>
          dsimp only
          have hany := @any_live ε κ ω K l.data k
          rw [hfind, Option.isSome_none, List.any_eq_false] at hany
          refine (List.filter_eq_self.mpr fun x hx => ?_).symm
          simpa using hany x hx
  | clear =>
      simp only [scanStep, orderedStep]
      induction l.data with
      | nil => rfl
      | cons _ _ ih => rwa [List.map_cons, List.reduceOption_cons_of_none]
  | get k => rfl
  | size => rfl
  | iterate kind => rfl
  | next n => rfl

theorem run_live (hK : K.Lawful) (hd : ∀ ops, Distinct K (run (scanStep K) l ops).1.data) :
    (run (scanStep K) l ops).1.data.reduceOption = ops.foldl (orderedStep K) l.data.reduceOption := by
  induction ops generalizing l with
  | nil => rfl
  | cons op ops ih =>
      have hnext : ∀ ops, Distinct K (run (scanStep K) (scanStep K l op).1 ops).1.data :=
        fun ops => hd (op :: ops)
      have hl : Distinct K l.data := hd []
      rw [run, List.foldl_cons, ← scanStep_live hK hl op]
      exact ih hnext

/-! ## Iterators -/

/-- The slots of a range of numbers, with what is in them. -/
def slotsBetween (entries : List (Option ε)) (i j : Nat) : List (Nat × Option ε) :=
  (List.range' i (j - i)).map fun p => (p, entries[p]?.join)

/-- The slots an iterator has gone past from one state to the next; the one that
finishes has gone past all. -/
def passed (entries : List (Option ε)) (before after : Option (Iter χ)) : List (Nat × Option ε) :=
  match before, after with
  | some ⟨true, i, _⟩, some ⟨true, j, _⟩ => slotsBetween entries i j
  | some ⟨true, i, _⟩, some ⟨false, _, _⟩ => slotsBetween entries i entries.length
  | _, _ => []

/-- The slots an iterator goes past in a run, with what is in them at the time. -/
def passes (K : Keying ε κ ω) (n : Nat) :
    State (List (Option ε)) χ → List (Op K χ) → List (Nat × Option ε)
  | _, [] => []
  | s, op :: ops =>
      passed s.data s.iters[n]? (scanStep K s op).1.iters[n]? ++ passes K n (scanStep K s op).1 ops

/-- What an iterator yields in a run. -/
def yields (n : Nat) : List (Op K χ) → List (Out ε χ) → List (χ × ε)
  | .next m :: ops, .item kind e :: outs =>
      if m = n then (kind, e) :: yields n ops outs else yields n ops outs
  | _ :: ops, _ :: outs => yields n ops outs
  | _, _ => []

theorem nextLive_spec {rest : List (Option ε)} {i : Nat} :
    (∀ {j e}, nextLive rest i = some (j, e) →
      ∃ k, j = i + k ∧ rest[k]? = some (some e) ∧ ∀ p < k, rest[p]? = some none) ∧
    (nextLive rest i = none → ∀ p < rest.length, rest[p]? = some none) := by
  induction rest generalizing i with
  | nil => exact ⟨nofun, fun _ p hp => absurd hp (Nat.not_lt_zero p)⟩
  | cons slot rest ih =>
      cases slot with
      | some a =>
          refine ⟨fun h => ?_, nofun⟩
          cases h
          exact ⟨0, rfl, rfl, nofun⟩
      | none =>
          obtain ⟨hsome, hnone⟩ := @ih (i + 1)
          refine ⟨fun h => ?_, fun h p hp => ?_⟩
          · obtain ⟨k, rfl, hk, hbefore⟩ := hsome h
            refine ⟨k + 1, by omega, hk, fun p hp => ?_⟩
            cases p with
            | zero => rfl
            | succ p => exact hbefore p (by omega)
          · cases p with
            | zero => rfl
            | succ p => exact hnone h p (by simpa using hp)

theorem slotsBetween_fst {i j : Nat} :
    (slotsBetween entries i j).map Prod.fst = List.range' i (j - i) := by
  rw [slotsBetween, List.map_map]
  exact List.map_id _

theorem slotsBetween_dead {α : Type*} {g : ε → α} {i j : Nat}
    (h : ∀ p, i ≤ p → p < j → entries[p]?.join = none) :
    (slotsBetween entries i j).filterMap (fun p => p.2.map g) = [] := by
  rw [slotsBetween, List.filterMap_map, List.filterMap_eq_nil_iff]
  intro p hp
  obtain ⟨hle, hlt⟩ := List.mem_range'_1.mp hp
  simp only [Function.comp_apply, h p hle (by omega), Option.map_none]

theorem slotsBetween_live {α : Type*} {g : ε → α} {i j : Nat} {e : ε} (hij : i ≤ j)
    (hj : entries[j]? = some (some e)) (h : ∀ p, i ≤ p → p < j → entries[p]?.join = none) :
    (slotsBetween entries i (j + 1)).filterMap (fun p => p.2.map g) = [g e] := by
  have hsplit : slotsBetween entries i (j + 1) = slotsBetween entries i j ++ [(j, some e)] := by
    have hlen : j + 1 - i = (j - i) + 1 := by omega
    rw [slotsBetween, hlen, List.range'_1_concat, List.map_append, Nat.add_sub_cancel' hij]
    simp [slotsBetween, hj]
  rw [hsplit, List.filterMap_append, slotsBetween_dead h]
  rfl

/-- An iterator at work goes on from its next slot and yields the live slots it
goes past. -/
theorem advance_spec {entries : List (Option ε)} {i : Nat} {kind : χ} (hi : i ≤ entries.length) :
    let r := Iter.advance entries ⟨true, i, kind⟩
    (∃ j, r.1 = ⟨true, j, kind⟩ ∧ i < j ∧ j ≤ entries.length ∧ ∃ e, r.2 = .item kind e ∧
        (slotsBetween entries i j).filterMap (fun p => p.2.map (kind, ·)) = [(kind, e)]) ∨
      r.1 = ⟨false, i, kind⟩ ∧ r.2 = .finished ∧
        (slotsBetween entries i entries.length).filterMap (fun p => p.2.map (kind, ·)) = [] := by
  obtain ⟨hsome, hnone⟩ := @nextLive_spec ε (entries.drop i) i
  dsimp only [Iter.advance]
  rw [if_pos rfl]
  have hdead : ∀ {k}, (∀ p < k, (entries.drop i)[p]? = some none) →
      ∀ p, i ≤ p → p < i + k → entries[p]?.join = none := by
    intro k h p hle hlt
    have := h (p - i) (by omega)
    rw [List.getElem?_drop, Nat.add_sub_cancel' hle] at this
    rw [this]
    rfl
  cases hnext : nextLive (entries.drop i) i with
  | some q =>
      obtain ⟨j, e⟩ := q
      obtain ⟨k, rfl, hk, hbefore⟩ := hsome hnext
      rw [List.getElem?_drop] at hk
      have hlt := (List.getElem?_eq_some_iff.mp hk).1
      refine .inl ⟨i + k + 1, rfl, by omega, hlt, e, rfl, ?_⟩
      exact slotsBetween_live (by omega) hk (hdead hbefore)
  | none =>
      refine .inr ⟨rfl, rfl, slotsBetween_dead fun p hle hlt => ?_⟩
      refine hdead (k := entries.length - i) (fun p hp => hnone hnext p ?_) p hle (by omega)
      rwa [List.length_drop]

/-- What a step leaves of an iterator that is not advanced by it. -/
theorem scanStep_iters {n : Nat} {it : Iter χ} (hn : l.iters[n]? = some it) (hop : op ≠ .next n) :
    (scanStep K l op).1.iters[n]? = some it := by
  cases op with
  | put e f hf =>
      simp only [scanStep]
      split <;> exact hn
  | remove k =>
      simp only [scanStep]
      split <;> exact hn
  | iterate kind =>
      simp only [scanStep]
      rw [List.getElem?_append_left (List.getElem?_eq_some_iff.mp hn).1]
      exact hn
  | next m =>
      have hne : m ≠ n := fun h => hop (h ▸ rfl)
      simp only [scanStep, advanceAt]
      cases l.iters[m]? with
      | none => exact hn
      | some other =>
          dsimp only
          rw [List.getElem?_set_ne hne]
          exact hn
  | get k => exact hn
  | clear => exact hn
  | size => exact hn

/-- The list of slots does not get shorter. -/
theorem scanStep_length (l : State (List (Option ε)) χ) (op : Op K χ) :
    l.data.length ≤ (scanStep K l op).1.data.length := by
  cases op with
  | put e f hf =>
      simp only [scanStep]
      split <;> simp
  | remove k =>
      simp only [scanStep]
      split <;> simp
  | clear => simp [scanStep]
  | get k => exact Nat.le_refl _
  | size => exact Nat.le_refl _
  | iterate kind => exact Nat.le_refl _
  | next n => exact Nat.le_refl _

/-- A live slot has always been live, with its key. -/
theorem scanStep_keys {e : ε} (he : (scanStep K l op).1.data[i]? = some (some e))
    (hi : i < l.data.length) :
    ∃ a, l.data[i]? = some (some a) ∧ K.key a = K.key e := by
  cases op with
  | put d f hf =>
      simp only [scanStep] at he
      split at he
      · exact modify_keys hf he
      · rw [List.getElem?_append_left hi] at he
        exact ⟨e, he, rfl⟩
  | remove k =>
      simp only [scanStep] at he
      split at he
      · exact ⟨e, (set_none_keys he).1, rfl⟩
      · exact ⟨e, he, rfl⟩
  | clear => exact absurd he map_none_dead
  | get k => exact ⟨e, he, rfl⟩
  | size => exact ⟨e, he, rfl⟩
  | iterate kind => exact ⟨e, he, rfl⟩
  | next n => exact ⟨e, he, rfl⟩

theorem run_keys {e : ε} (he : (run (scanStep K) l ops).1.data[i]? = some (some e))
    (hi : i < l.data.length) :
    ∃ a, l.data[i]? = some (some a) ∧ K.key a = K.key e := by
  induction ops generalizing l with
  | nil => exact ⟨e, he, rfl⟩
  | cons op ops ih =>
      obtain ⟨a, ha, hka⟩ := ih he (Nat.lt_of_lt_of_le hi (scanStep_length l op))
      obtain ⟨b, hb, hkb⟩ := scanStep_keys ha hi
      exact ⟨b, hb, hkb.trans hka⟩

theorem slotsBetween_self : slotsBetween entries i i = [] := by
  simp [slotsBetween]

theorem yields_other {n : Nat} {out : Out ε χ} {outs : List (Out ε χ)} (hop : op ≠ .next n) :
    yields n (op :: ops) (out :: outs) = yields n ops outs := by
  cases op with
  | next m =>
      have hne : m ≠ n := fun h => hop (h ▸ rfl)
      cases out <;> first | rfl | exact if_neg hne
  | _ => rfl

/-- An iterator that has finished goes nowhere and yields nothing. -/
theorem finished_run {ops : List (Op K χ)} {l : State (List (Option ε)) χ} {n i : Nat} {kind : χ}
    (hn : l.iters[n]? = some ⟨false, i, kind⟩) :
    passes K n l ops = [] ∧ yields n ops (run (scanStep K) l ops).2 = [] ∧
      (run (scanStep K) l ops).1.iters[n]? = some ⟨false, i, kind⟩ := by
  induction ops generalizing l with
  | nil => exact ⟨rfl, rfl, hn⟩
  | cons op ops ih =>
      have hkept : (scanStep K l op).1.iters[n]? = some ⟨false, i, kind⟩ ∧
          yields n (op :: ops) (run (scanStep K) l (op :: ops)).2 =
            yields n ops (run (scanStep K) (scanStep K l op).1 ops).2 := by
        by_cases hop : ∃ m, op = .next m ∧ m = n
        · obtain ⟨m, rfl, rfl⟩ := hop
          have hlt := (List.getElem?_eq_some_iff.mp hn).1
          simp only [run, scanStep, advanceAt, hn, Iter.advance, Bool.false_eq_true, if_false]
          exact ⟨by simp [hlt], rfl⟩
        · have hne : op ≠ .next n := fun h => hop ⟨n, h, rfl⟩
          exact ⟨scanStep_iters hn hne, yields_other hne⟩
      obtain ⟨hpasses, hyields, hlast⟩ := ih hkept.1
      refine ⟨?_, hkept.2.trans hyields, hlast⟩
      rw [passes, hpasses, hn, hkept.1]
      rfl

/-- An iterator at work reaches the slots one after the other and yields the
entries that are live when it does. -/
theorem active_run {ops : List (Op K χ)} {l : State (List (Option ε)) χ} {n i : Nat} {kind : χ}
    (hn : l.iters[n]? = some ⟨true, i, kind⟩) (hi : i ≤ l.data.length) :
    (passes K n l ops).map Prod.fst = List.range' i (passes K n l ops).length ∧
      yields n ops (run (scanStep K) l ops).2 =
        ((passes K n l ops).filterMap fun p => p.2.map (kind, ·)) ∧
      ∃ it, (run (scanStep K) l ops).1.iters[n]? = some it ∧ it.kind = kind := by
  induction ops generalizing l i with
  | nil => exact ⟨rfl, rfl, _, hn, rfl⟩
  | cons op ops ih =>
      have hlen := scanStep_length l op
      by_cases hop : op = .next n
      · subst hop
        have hlt := (List.getElem?_eq_some_iff.mp hn).1
        have hiter : (scanStep K l (.next n)).1.iters[n]? = some (Iter.advance l.data ⟨true, i, kind⟩).1 := by
          simp only [scanStep, advanceAt, hn]
          exact List.getElem?_set_self hlt
        have hout : (scanStep K l (.next n)).2 = (Iter.advance l.data ⟨true, i, kind⟩).2 := by
          simp only [scanStep, advanceAt, hn]
        rw [run, passes, hn, hiter, hout]
        obtain ⟨j, hstate, hij, hj, e, hitem, hlive⟩ | ⟨hstate, hitem, hdead⟩ :=
          @advance_spec ε χ l.data i kind hi
        · rw [hstate] at hiter ⊢
          obtain ⟨hfst, hyields, hlast⟩ := ih hiter (by omega)
          rw [hitem, passed]
          refine ⟨?_, ?_, hlast⟩
          · rw [List.map_append, slotsBetween_fst, hfst, List.length_append, slotsBetween,
              List.length_map, List.length_range']
            have hend : i + (j - i) = j := by omega
            nth_rewrite 2 [← hend]
            exact List.range'_append_1
          · rw [yields, if_pos rfl, hyields, List.filterMap_append, hlive]
            rfl
        · rw [hstate] at hiter ⊢
          obtain ⟨hpasses, hyields, hlast⟩ := @finished_run ε κ ω χ K ops _ n i kind hiter
          rw [hitem, passed, hpasses, List.append_nil]
          refine ⟨?_, ?_, _, hlast, rfl⟩
          · rw [slotsBetween_fst, slotsBetween, List.length_map, List.length_range']
          · rw [hdead]
            exact hyields
      · have hiter := scanStep_iters hn hop
        obtain ⟨hfst, hyields, hlast⟩ := ih hiter (by omega)
        rw [run, passes, hn, hiter, passed, slotsBetween_self, List.nil_append]
        exact ⟨hfst, (yields_other hop).trans hyields, hlast⟩

/-- A step on a list without the iterator creates it or does not. -/
theorem scanStep_fresh {n : Nat} (hn : l.iters.length ≤ n) (op : Op K χ) :
    ((scanStep K l op).1.iters.length ≤ n ∧
        ∀ ops outs, yields n (op :: ops) ((scanStep K l op).2 :: outs) = yields n ops outs) ∨
      ∃ kind, op = .iterate kind ∧ (scanStep K l op).1.iters[n]? = some ⟨true, 0, kind⟩ := by
  cases op with
  | iterate kind =>
      rcases Nat.lt_or_eq_of_le hn with hlt | rfl
      · refine .inl ⟨?_, fun _ _ => rfl⟩
        simp only [scanStep, List.length_append, List.length_singleton]
        omega
      · exact .inr ⟨kind, rfl, by simp [scanStep]⟩
  | next m =>
      refine .inl ?_
      simp only [scanStep, advanceAt]
      cases hm : l.iters[m]? with
      | none => exact ⟨hn, fun _ _ => rfl⟩
      | some it =>
          refine ⟨by rwa [List.length_set], fun ops outs => ?_⟩
          have hlt := (List.getElem?_eq_some_iff.mp hm).1
          refine yields_other fun h => ?_
          cases h
          omega
  | put e f hf =>
      refine .inl ⟨?_, fun _ _ => rfl⟩
      simp only [scanStep]
      split <;> exact hn
  | remove k =>
      refine .inl ⟨?_, fun _ _ => rfl⟩
      simp only [scanStep]
      split <;> exact hn
  | get k => exact .inl ⟨hn, fun _ _ => rfl⟩
  | clear => exact .inl ⟨hn, fun _ _ => rfl⟩
  | size => exact .inl ⟨hn, fun _ _ => rfl⟩

/-- From its creation on an iterator reaches every slot once, in order, and
yields what is live in it at the time. -/
theorem created_run {ops : List (Op K χ)} {l : State (List (Option ε)) χ} {n : Nat}
    (hn : l.iters.length ≤ n) :
    (passes K n l ops).map Prod.fst = List.range (passes K n l ops).length ∧
      ∀ it, (run (scanStep K) l ops).1.iters[n]? = some it →
        yields n ops (run (scanStep K) l ops).2 =
          (passes K n l ops).filterMap fun p => p.2.map (it.kind, ·) := by
  induction ops generalizing l with
  | nil => exact ⟨rfl, fun _ _ => rfl⟩
  | cons op ops ih =>
      have hnone : l.iters[n]? = none := List.getElem?_eq_none_iff.mpr hn
      have hpassed : ∀ after, passed l.data (none : Option (Iter χ)) after = [] := fun _ => rfl
      rw [run, passes, hnone, hpassed, List.nil_append]
      rcases scanStep_fresh hn op with ⟨hfresh, hyields⟩ | ⟨kind, rfl, hiter⟩
      · obtain ⟨hfst, hlive⟩ := ih hfresh
        exact ⟨hfst, fun it hit => (hyields ops _).trans (hlive it hit)⟩
      · obtain ⟨hfst, hlive, last, hlast, hkind⟩ :=
          @active_run ε κ ω χ K ops _ n 0 kind hiter (Nat.zero_le _)
        refine ⟨hfst.trans List.range_eq_range'.symm, fun it hit => ?_⟩
        rw [hlast, Option.some.injEq] at hit
        subst hit
        rw [hkind]
        exact hlive

end Slag.Slots
