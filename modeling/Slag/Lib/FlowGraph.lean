import Mathlib.Data.List.Basic
import Mathlib.Tactic.Ring
import Mathlib.Tactic.Common

/-!
Rooted graphs: walks from the root, the nodes every walk has passed, and the
two iterations that compute reachability and dominance over node numbers.
-/

namespace Slag.FlowGraph

section Walks

variable {β : Type*}

/-- A walk from the root to a node, with the nodes it has left, last first. -/
inductive Walk (root : β) (edge : β → β → Prop) : List β → β → Prop
  | root : Walk root edge [] root
  | step {done : List β} {b c : β} (h : Walk root edge done b) (e : edge b c) :
      Walk root edge (b :: done) c

def Reaches (root : β) (edge : β → β → Prop) (b : β) : Prop := ∃ done, Walk root edge done b

/-- Every walk to `b` has passed `d`, or ends there. -/
def Dominates (root : β) (edge : β → β → Prop) (d b : β) : Prop :=
  ∀ done, Walk root edge done b → d = b ∨ d ∈ done

variable {root : β} {edge : β → β → Prop}

theorem Reaches.step {b c : β} (h : Reaches root edge b) (e : edge b c) :
    Reaches root edge c := by
  obtain ⟨done, hw⟩ := h
  exact ⟨b :: done, hw.step e⟩

/-- A walk that has passed a node had a shorter walk there. -/
theorem Walk.before {done : List β} {b d : β} (h : Walk root edge done b) (hd : d ∈ done) :
    ∃ earlier, Walk root edge earlier d ∧ earlier.length < done.length ∧ earlier ⊆ done := by
  induction h with
  | root => cases hd
  | @step done b c h e ih =>
      rcases List.mem_cons.mp hd with rfl | hd
      · exact ⟨done, h, by simp, List.subset_cons_of_subset _ (List.Subset.refl _)⟩
      · obtain ⟨earlier, hw, hlt, hsub⟩ := ih hd
        exact ⟨earlier, hw, by simp only [List.length_cons]; omega,
          List.subset_cons_of_subset _ hsub⟩

/-- A walk can be cut at its first visit. -/
theorem Walk.first {done : List β} {b : β} (h : Walk root edge done b) :
    ∃ fresh, Walk root edge fresh b ∧ b ∉ fresh ∧ fresh ⊆ done := by
  induction hn : done.length using Nat.strong_induction_on generalizing done with
  | _ n ih =>
      by_cases hb : b ∈ done
      · obtain ⟨earlier, hw, hlt, hsub⟩ := h.before hb
        obtain ⟨fresh, hf, hnot, hsub'⟩ := ih earlier.length (hn ▸ hlt) hw rfl
        exact ⟨fresh, hf, hnot, List.Subset.trans hsub' hsub⟩
      · exact ⟨done, h, hb, List.Subset.refl _⟩

theorem dominates_root {d : β} (h : Dominates root edge d root) : d = root := by
  rcases h [] .root with h | h
  · exact h
  · cases h

theorem Dominates.pred {d p b : β} (h : Dominates root edge d b) (e : edge p b) (hne : d ≠ b) :
    Dominates root edge d p := by
  intro done hw
  rcases h (p :: done) (hw.step e) with hd | hd
  · exact absurd hd hne
  · exact List.mem_cons.mp hd

/-- What a set of nodes closed backwards over edges contains, every walk passes. -/
theorem dominates_of_closed {D : β → β → Prop} (hroot : ∀ d, D root d → d = root)
    (hedge : ∀ p b d, edge p b → b ≠ root → D b d → d = b ∨ D p d) {b d : β} (h : D b d) :
    Dominates root edge d b := by
  intro done hw
  induction hw generalizing d with
  | root => exact .inl (hroot d h)
  | @step done p b hw e ih =>
      by_cases hb : b = root
      · subst hb
        exact .inl (hroot d h)
      · rcases hedge p b d e hb h with hd | hd
        · exact .inl hd
        · exact .inr (List.mem_cons.mpr (ih hd))

end Walks

variable {b : Nat}

section Numbered

/-- Edges between the nodes below `n`, from the successor lists. -/
def Edge (succs : Nat → List Nat) (n b c : Nat) : Prop := b < n ∧ c < n ∧ c ∈ succs b

/-- The predecessors of a node, once for each edge. -/
def predsOf (succs : Nat → List Nat) (n c : Nat) : List Nat :=
  if c < n then (List.range n).flatMap fun b => List.replicate ((succs b).count c) b else []

theorem mem_predsOf {succs : Nat → List Nat} {n b c : Nat} :
    b ∈ predsOf succs n c ↔ Edge succs n b c := by
  unfold predsOf Edge
  split
  · simp only [List.mem_flatMap, List.mem_range, List.mem_replicate, List.count_eq_zero, ne_eq]
    constructor
    · rintro ⟨b', hb', hc, rfl⟩
      exact ⟨hb', ‹_›, Decidable.not_not.mp hc⟩
    · rintro ⟨hb, -, hc⟩
      exact ⟨b, hb, not_not.mpr hc, rfl⟩
  · constructor
    · intro h
      cases h
    · rintro ⟨-, hc, -⟩
      contradiction

end Numbered

section Flood

variable (succs : Nat → List Nat) (n : Nat)

def mark (s : List Bool × List Nat) (c : Nat) : List Bool × List Nat :=
  if c < n ∧ s.1[c]?.getD false = false then (s.1.set c true, c :: s.2) else s

/-- Depth-first marking from the nodes on the stack. -/
def flood : Nat → List Bool → List Nat → Option (List Bool)
  | 0, _, _ => none
  | _ + 1, seen, [] => some seen
  | fuel + 1, seen, b :: stack =>
      let s := (succs b).foldl (mark n) (seen, stack)
      flood fuel s.1 s.2

def reachableFrom (root : Nat) : Option (List Bool) :=
  flood succs n (n + 1) ((List.replicate n false).set root true) [root]

variable {succs n}

variable {l seen : List Bool}

theorem getD_set {i j : Nat} {v : Bool} (hi : i < l.length) :
    (l.set i v)[j]?.getD false = if j = i then v else l[j]?.getD false := by
  rw [List.getElem?_set]
  by_cases h : i = j
  · subst h
    simp [hi]
  · simp [h, Ne.symm h]

theorem count_false_set {i : Nat} (hi : i < l.length) (hf : l[i]?.getD false = false) :
    (l.set i true).count false + 1 = l.count false := by
  induction l generalizing i with
  | nil => cases hi
  | cons x l ih =>
      cases i with
      | zero =>
          have hx : x = false := by simpa using hf
          subst hx
          simp
      | succ i =>
          have := ih (i := i) (by simpa using hi) (by simpa using hf)
          simp only [List.set_cons_succ, List.count_cons]
          omega

/-- What marking a list of successors does to the marks and the stack. -/
structure Marked (cs : List Nat) (s t : List Bool × List Nat) : Prop where
  length : t.1.length = s.1.length
  seen : ∀ i, t.1[i]?.getD false = true ↔ s.1[i]?.getD false = true ∨ i < n ∧ i ∈ cs
  stack : ∀ i, i ∈ t.2 ↔ i ∈ s.2 ∨ s.1[i]?.getD false = false ∧ i < n ∧ i ∈ cs
  weight : t.1.count false + t.2.length = s.1.count false + s.2.length

theorem mark_marked {s : List Bool × List Nat} (hlen : s.1.length = n) (c : Nat) :
    Marked (n := n) [c] s (mark n s c) := by
  unfold mark
  split
  case isTrue h =>
    have hc : c < s.1.length := by omega
    refine ⟨by simp, ?_, ?_, ?_⟩
    · intro i
      rw [getD_set hc]
      by_cases hi : i = c
      · subst hi
        simp [h.1]
      · simp [hi]
    · intro i
      by_cases hi : i = c
      · subst hi
        simp [h.1, h.2]
      · simp [hi]
    · have := count_false_set hc h.2
      simp only [List.length_cons]
      omega
  case isFalse h =>
    refine ⟨rfl, ?_, ?_, rfl⟩
    · intro i
      by_cases hi : i = c
      · subst hi
        by_cases hn : i < n
        · simp only [hn, true_and, Bool.not_eq_false] at h
          simp [h]
        · simp [hn]
      · simp [hi]
    · intro i
      by_cases hi : i = c
      · subst hi
        have : ¬ (s.1[i]?.getD false = false ∧ i < n) := fun hh => h ⟨hh.2, hh.1⟩
        constructor
        · exact .inl
        · rintro (hm | ⟨hm, hn, -⟩)
          · exact hm
          · exact absurd ⟨hm, hn⟩ this
      · simp [hi]

theorem foldl_mark_marked {s : List Bool × List Nat} (hlen : s.1.length = n) (cs : List Nat) :
    Marked (n := n) cs s (cs.foldl (mark n) s) := by
  induction cs generalizing s with
  | nil => exact ⟨rfl, by simp, by simp, rfl⟩
  | cons c cs ih =>
      have hc := mark_marked hlen c
      have hcs := ih (s := mark n s c) (hc.length.trans hlen)
      refine ⟨hcs.length.trans hc.length, ?_, ?_, hcs.weight.trans hc.weight⟩
      · intro i
        rw [List.foldl_cons, hcs.seen, hc.seen, List.mem_singleton, List.mem_cons, or_assoc,
          ← and_or_left]
      · intro i
        have hseen : (mark n s c).1[i]?.getD false = false ↔
            s.1[i]?.getD false = false ∧ ¬ (i < n ∧ i ∈ [c]) := by
          rw [← Bool.not_eq_true, hc.seen, ← Bool.not_eq_true, not_or]
        rw [List.foldl_cons, hcs.stack, hc.stack, hseen, List.mem_singleton, List.mem_cons]
        constructor
        · rintro ((hmem | ⟨hfresh, hi, heq⟩) | ⟨⟨hfresh, -⟩, hi, hmem⟩)
          · exact .inl hmem
          · exact .inr ⟨hfresh, hi, .inl heq⟩
          · exact .inr ⟨hfresh, hi, .inr hmem⟩
        · rintro (hmem | ⟨hfresh, hi, hcs⟩)
          · exact .inl (.inl hmem)
          · by_cases heq : i = c
            · exact .inl (.inr ⟨hfresh, hi, heq⟩)
            · exact .inr ⟨⟨hfresh, fun h => heq h.2⟩, hi, hcs.resolve_left heq⟩

/-- The marks so far: reachable nodes, closed up to the nodes still stacked. -/
structure Flooding (succs : Nat → List Nat) (n root : Nat) (seen : List Bool)
    (stack : List Nat) : Prop where
  length : seen.length = n
  start : seen[root]?.getD false = true
  reaches : ∀ i, seen[i]?.getD false = true → Reaches root (Edge succs n) i
  bound : ∀ i ∈ stack, seen[i]?.getD false = true
  closed : ∀ i, seen[i]?.getD false = true →
    i ∈ stack ∨ ∀ c ∈ succs i, c < n → seen[c]?.getD false = true

theorem lt_of_getD {i : Nat} (h : l[i]?.getD false = true) : i < l.length := by
  by_contra hi
  rw [List.getElem?_eq_none (by omega)] at h
  cases h

theorem Flooding.next {root b : Nat} {stack : List Nat} (h : Flooding succs n root seen (b :: stack)) :
    Flooding succs n root ((succs b).foldl (mark n) (seen, stack)).1
      ((succs b).foldl (mark n) (seen, stack)).2 := by
  have hm := foldl_mark_marked (s := (seen, stack)) h.length (succs b)
  have hb := h.bound b List.mem_cons_self
  refine ⟨hm.length.trans h.length, (hm.seen root).mpr (.inl h.start), ?_, ?_, ?_⟩
  · intro i hi
    rcases (hm.seen i).mp hi with hi | ⟨hn, hi⟩
    · exact h.reaches i hi
    · have hlt := lt_of_getD hb
      exact (h.reaches b hb).step ⟨h.length ▸ hlt, hn, hi⟩
  · intro i hi
    rw [hm.seen]
    rcases (hm.stack i).mp hi with hi | ⟨-, hn, hi⟩
    · exact .inl (h.bound i (List.mem_cons_of_mem _ hi))
    · exact .inr ⟨hn, hi⟩
  · intro i hi
    rw [hm.stack]
    by_cases hold : seen[i]?.getD false = true
    · rcases h.closed i hold with hmem | hcl
      · rcases List.mem_cons.mp hmem with rfl | hmem
        · exact .inr fun c hc hn => (hm.seen c).mpr (.inr ⟨hn, hc⟩)
        · exact .inl (.inl hmem)
      · exact .inr fun c hc hn => (hm.seen c).mpr (.inl (hcl c hc hn))
    · rcases (hm.seen i).mp hi with hi | hi
      · exact absurd hi hold
      · exact .inl (.inr ⟨by simpa using hold, hi⟩)

theorem flood_spec {root fuel : Nat} {stack : List Nat} (h : Flooding succs n root seen stack)
    (hfuel : seen.count false + stack.length < fuel) :
    ∃ marks, flood succs n fuel seen stack = some marks ∧ Flooding succs n root marks [] := by
  induction fuel generalizing seen stack with
  | zero => omega
  | succ fuel ih =>
      cases stack with
      | nil => exact ⟨seen, rfl, h⟩
      | cons b stack =>
          have hw := (foldl_mark_marked (s := (seen, stack)) h.length (succs b)).weight
          refine ih h.next ?_
          simp only [List.length_cons] at hfuel hw
          omega

theorem Flooding.mem_iff {root i : Nat} (h : Flooding succs n root seen []) :
    seen[i]?.getD false = true ↔ Reaches root (Edge succs n) i := by
  refine ⟨h.reaches i, ?_⟩
  rintro ⟨done, hw⟩
  induction hw with
  | root => exact h.start
  | @step done b c hw e ih =>
      rcases h.closed b ih with hnil | hcl
      · cases hnil
      · exact hcl c e.2.2 e.2.1

theorem reachableFrom_spec {root : Nat} (hroot : root < n) :
    ∃ marks, reachableFrom succs n root = some marks ∧ marks.length = n ∧
      ∀ i : Nat, marks[i]?.getD false = true ↔ Reaches root (Edge succs n) i := by
  have hlen : root < (List.replicate n false).length := by simpa using hroot
  have hrep : ∀ i : Nat, (List.replicate n false)[i]?.getD false = false := by
    intro i
    rw [List.getElem?_replicate]
    split <;> rfl
  have hset : ∀ i : Nat, ((List.replicate n false).set root true)[i]?.getD false = true ↔ i = root := by
    intro i
    rw [getD_set hlen, hrep]
    by_cases hi : i = root <;> simp [hi]
  have hcount := count_false_set hlen (hrep root)
  have hstart : Flooding succs n root ((List.replicate n false).set root true) [root] := by
    refine ⟨by simp, (hset root).mpr rfl, ?_, ?_, ?_⟩
    · intro i hi
      rw [(hset i).mp hi]
      exact ⟨[], .root⟩
    · intro i hi
      exact (hset i).mpr (List.mem_singleton.mp hi)
    · intro i hi
      exact .inl (List.mem_singleton.mpr ((hset i).mp hi))
  have hfuel : ((List.replicate n false).set root true).count false + [root].length < n + 1 := by
    simp only [List.count_replicate_self, List.length_singleton] at hcount ⊢
    omega
  obtain ⟨marks, heq, hdone⟩ := flood_spec hstart hfuel
  exact ⟨marks, heq, hdone.length, fun i => hdone.mem_iff⟩

end Flood

section Tables

abbrev Table := List (List Bool)

def Table.row (t : Table) (b : Nat) : List Bool := t[b]?.getD []

def Table.holds (t : Table) (b i : Nat) : Bool := (t.row b)[i]?.getD false

variable (preds : Nat → List Nat) (root n : Nat)

/-- What every predecessor of a node holds, and the node itself. -/
def meetRow (t : Table) (b : Nat) : List Bool :=
  ((List.range n).map fun i => (preds b).all fun p => t.holds p i).set b true

def relax (s : Table × Bool) (b : Nat) : Table × Bool :=
  if b = root ∨ preds b = [] then s
  else if meetRow preds n s.1 b ≠ s.1.row b then (s.1.set b (meetRow preds n s.1 b), true)
  else s

def sweep (t : Table) : Table × Bool := (List.range n).foldl (relax preds root n) (t, false)

/-- Sweep until nothing changes. -/
def settle : Nat → Table → Option Table
  | 0, _ => none
  | fuel + 1, t =>
      if (sweep preds root n t).2 then settle fuel (sweep preds root n t).1
      else some (sweep preds root n t).1

def fullTable : Table :=
  (List.replicate n (List.replicate n true)).set root
    ((List.range n).map fun i => decide (i = root))

def dominatorTable : Option Table := settle preds root n (n * n + 1) (fullTable root n)

variable {preds root n}

variable {t : Table}

theorem holds_set {b c i : Nat} {r : List Bool} (hb : b < t.length) :
    Table.holds (t.set b r) c i = if c = b then r[i]?.getD false else t.holds c i := by
  simp only [Table.holds, Table.row]
  rw [List.getElem?_set]
  by_cases h : b = c
  · subst h
    simp [hb]
  · simp [h, Ne.symm h]

theorem length_meetRow : (meetRow preds n t b).length = n := by
  simp [meetRow]

theorem meetRow_getD {b i : Nat} (hb : b < n) :
    (meetRow preds n t b)[i]?.getD false = true ↔
      i = b ∨ i < n ∧ ∀ p ∈ preds b, t.holds p i = true := by
  rw [meetRow, getD_set (by simpa using hb)]
  by_cases hi : i = b
  · simp [hi]
  · simp only [hi, if_false, false_or]
    rw [List.getElem?_map]
    by_cases hn : i < n
    · simp [hn]
    · rw [List.getElem?_eq_none (by simpa using hn)]
      simp [hn]

theorem count_true_le {r s : List Bool} (hlen : r.length = s.length)
    (hle : ∀ i : Nat, r[i]?.getD false = true → s[i]?.getD false = true) :
    r.count true ≤ s.count true ∧ (r ≠ s → r.count true < s.count true) := by
  induction r generalizing s with
  | nil =>
      cases s with
      | nil => simp
      | cons y s => cases hlen
  | cons x r ih =>
      cases s with
      | nil => cases hlen
      | cons y s =>
          have hhead : x = true → y = true := by simpa using hle 0
          obtain ⟨htail, hlt⟩ := ih (s := s) (by simpa using hlen) fun i h => by
            simpa using hle (i + 1) (by simpa using h)
          cases x with
          | true =>
              have hy := hhead rfl
              subst hy
              refine ⟨by simpa using htail, fun hne => ?_⟩
              have := hlt (by simpa using hne)
              simpa using this
          | false =>
              cases y with
              | true =>
                  refine ⟨by simp only [List.count_cons]; simp; omega, fun _ => ?_⟩
                  simp only [List.count_cons]
                  simp
                  omega
              | false =>
                  refine ⟨by simpa using htail, fun hne => ?_⟩
                  have := hlt (by simpa using hne)
                  simpa using this

def Table.weight (t : Table) : Nat := (t.map (List.count true)).sum

theorem weight_set_lt {r : List Bool} (hb : b < t.length) (h : r.count true < (t.row b).count true) :
    Table.weight (t.set b r) < t.weight := by
  induction t generalizing b with
  | nil => cases hb
  | cons x t ih =>
      cases b with
      | zero =>
          simp only [Table.row, List.getElem?_cons_zero, Option.getD_some] at h
          simp only [Table.weight, List.set_cons_zero, List.map_cons, List.sum_cons]
          omega
      | succ b =>
          have := ih (b := b) (by simpa using hb) (by simpa [Table.row] using h)
          simp only [Table.weight, List.set_cons_succ, List.map_cons, List.sum_cons] at this ⊢
          omega

theorem weight_le (hrows : ∀ r ∈ t, r.length = n) : t.weight ≤ t.length * n := by
  induction t with
  | nil => simp [Table.weight]
  | cons x t ih =>
      have hx : x.count true ≤ n := hrows x List.mem_cons_self ▸ List.count_le_length
      have := ih fun r hr => hrows r (List.mem_cons_of_mem _ hr)
      simp only [Table.weight, List.map_cons, List.sum_cons, List.length_cons] at this ⊢
      rw [Nat.succ_mul]
      omega

/-- A table on its way down: above dominance, and no sweep raises a row. -/
structure Descending (preds : Nat → List Nat) (root n : Nat) (t : Table) : Prop where
  length : t.length = n
  rows : ∀ r ∈ t, r.length = n
  rootRow : ∀ i, t.holds root i = true → i = root
  lowers : ∀ b < n, b ≠ root → preds b ≠ [] → ∀ i,
    (meetRow preds n t b)[i]?.getD false = true → t.holds b i = true
  above : ∀ b d, b < n → d < n → Dominates root (fun p c => p ∈ preds c) d b → t.holds b d = true

/-- The rows of these nodes no longer change. -/
def Settled (preds : Nat → List Nat) (root n : Nat) (bs : List Nat) (t : Table) : Prop :=
  ∀ b ∈ bs, b ≠ root → preds b ≠ [] → meetRow preds n t b = t.row b

theorem Descending.row_mem (h : Descending preds root n t) (hb : b < n) :
    t.row b ∈ t := by
  rw [Table.row, List.getElem?_eq_getElem (h.length ▸ hb), Option.getD_some]
  exact List.getElem_mem _

theorem Descending.set (hbound : ∀ b, ∀ p ∈ preds b, p < n) (h : Descending preds root n t) (hb : b < n)
    (hroot : b ≠ root) (hp : preds b ≠ []) :
    Descending preds root n (t.set b (meetRow preds n t b)) := by
  have hlt : b < t.length := h.length.symm ▸ hb
  have hdown : ∀ c i, Table.holds (t.set b (meetRow preds n t b)) c i = true →
      t.holds c i = true := by
    intro c i
    rw [holds_set hlt]
    split
    case isTrue hc =>
      subst hc
      exact h.lowers c hb hroot hp i
    case isFalse => exact id
  refine ⟨by simp [h.length], ?_, ?_, ?_, ?_⟩
  · intro r hr
    rcases List.mem_or_eq_of_mem_set hr with hr | rfl
    · exact h.rows r hr
    · exact length_meetRow
  · intro i hi
    exact h.rootRow i (hdown root i hi)
  · intro c hc hcr hcp i hi
    have hold : (meetRow preds n t c)[i]?.getD false = true := by
      rw [meetRow_getD hc] at hi ⊢
      rcases hi with hi | ⟨hn, hi⟩
      · exact .inl hi
      · exact .inr ⟨hn, fun p hp => hdown p i (hi p hp)⟩
    rw [holds_set hlt]
    split
    case isTrue hcb => exact hcb ▸ hold
    case isFalse => exact h.lowers c hc hcr hcp i hold
  · intro c d hc hd hdom
    rw [holds_set hlt]
    split
    case isFalse => exact h.above c d hc hd hdom
    case isTrue hcb =>
      subst hcb
      rw [meetRow_getD hc]
      by_cases hdc : d = c
      · exact .inl hdc
      · exact .inr ⟨hd, fun p hp => h.above p d (hbound c p hp) hd (hdom.pred hp hdc)⟩

/-- One node: nothing to do, or a strictly lighter table and the flag. -/
theorem Descending.relax (hbound : ∀ b, ∀ p ∈ preds b, p < n) (h : Descending preds root n t)
    (hb : b < n) (c : Bool) :
    (relax preds root n (t, c) b = (t, c) ∧ Settled preds root n [b] t) ∨
      (relax preds root n (t, c) b).2 = true ∧
      (relax preds root n (t, c) b).1.weight < t.weight ∧
      Descending preds root n (relax preds root n (t, c) b).1 := by
  unfold FlowGraph.relax
  split
  case isTrue hskip =>
    refine .inl ⟨rfl, fun b' hb' hroot hp => ?_⟩
    rw [List.mem_singleton.mp hb'] at hroot hp
    exact absurd hskip (not_or.mpr ⟨hroot, hp⟩)
  case isFalse hskip =>
    obtain ⟨hroot, hp⟩ := not_or.mp hskip
    split
    case isTrue hne =>
      refine .inr ⟨rfl, ?_, h.set hbound hb hroot hp⟩
      refine weight_set_lt (h.length.symm ▸ hb) ?_
      refine (count_true_le ?_ fun i hi => h.lowers b hb hroot hp i hi).2 hne
      rw [length_meetRow, h.rows _ (h.row_mem hb)]
    case isFalse heq =>
      refine .inl ⟨rfl, fun b' hb' _ _ => ?_⟩
      rw [List.mem_singleton.mp hb']
      exact not_not.mp heq

theorem Descending.foldl_relax (hbound : ∀ b, ∀ p ∈ preds b, p < n) {c : Bool} {bs : List Nat}
    (h : Descending preds root n t) (hbs : ∀ b ∈ bs, b < n) :
    (bs.foldl (FlowGraph.relax preds root n) (t, c) = (t, c) ∧ Settled preds root n bs t) ∨
      (bs.foldl (FlowGraph.relax preds root n) (t, c)).2 = true ∧
      (bs.foldl (FlowGraph.relax preds root n) (t, c)).1.weight < t.weight ∧
      Descending preds root n (bs.foldl (FlowGraph.relax preds root n) (t, c)).1 := by
  induction bs generalizing t c with
  | nil => exact .inl ⟨rfl, fun b hb => by cases hb⟩
  | cons b bs ih =>
      have hb := hbs b List.mem_cons_self
      have hbs' : ∀ b ∈ bs, b < n := fun b hb => hbs b (List.mem_cons_of_mem _ hb)
      rw [List.foldl_cons]
      rcases h.relax hbound hb c with ⟨heq, hset⟩ | ⟨hflag, hlt, hdesc⟩
      · rw [heq]
        rcases ih (c := c) h hbs' with ⟨hrest, hsets⟩ | hrest
        · refine .inl ⟨hrest, fun b' hb' => ?_⟩
          rcases List.mem_cons.mp hb' with rfl | hb'
          · exact hset b' (List.mem_singleton.mpr rfl)
          · exact hsets b' hb'
        · exact .inr hrest
      · generalize FlowGraph.relax preds root n (t, c) b = s at hflag hlt hdesc
        obtain ⟨t', c'⟩ := s
        subst hflag
        rcases ih (c := true) hdesc hbs' with ⟨hrest, -⟩ | ⟨hflag', hlt', hdesc'⟩
        · rw [hrest]
          exact .inr ⟨rfl, hlt, hdesc⟩
        · exact .inr ⟨hflag', lt_trans hlt' hlt, hdesc'⟩

theorem Descending.settle (hbound : ∀ b, ∀ p ∈ preds b, p < n) {fuel : Nat}
    (h : Descending preds root n t) (hfuel : t.weight < fuel) :
    ∃ t', settle preds root n fuel t = some t' ∧ Descending preds root n t' ∧
      Settled preds root n (List.range n) t' := by
  induction fuel generalizing t with
  | zero => omega
  | succ fuel ih =>
      have hrange : ∀ b ∈ List.range n, b < n := fun b hb => List.mem_range.mp hb
      unfold FlowGraph.settle sweep
      rcases h.foldl_relax hbound (c := false) hrange with ⟨heq, hset⟩ | ⟨hflag, hlt, hdesc⟩
      · rw [heq]
        exact ⟨t, rfl, h, hset⟩
      · rw [hflag, if_pos rfl]
        exact ih hdesc (by omega)

theorem descending_fullTable (hroot : root < n) :
    Descending preds root n (fullTable root n) := by
  have hlt : root < (List.replicate n (List.replicate n true)).length := by simpa using hroot
  have hfull : ∀ b i : Nat, b < n → i < n →
      Table.holds (List.replicate n (List.replicate n true)) b i = true := by
    intro b i hb hi
    simp [Table.holds, Table.row, hb, hi]
  have hrow : ∀ i : Nat, ((List.range n).map fun i => decide (i = root))[i]?.getD false = true ↔
      i = root := by
    intro i
    by_cases hi : i < n
    · simp [List.getElem?_range hi]
    · rw [List.getElem?_eq_none (by simpa using hi)]
      simp only [Option.getD_none, Bool.false_eq_true, false_iff]
      omega
  refine ⟨by simp [fullTable], ?_, ?_, ?_, ?_⟩
  · intro r hr
    rcases List.mem_or_eq_of_mem_set hr with hr | rfl
    · rw [(List.mem_replicate.mp hr).2, List.length_replicate]
    · simp
  · intro i
    rw [fullTable, holds_set hlt, if_pos rfl, hrow]
    exact id
  · intro b hb hne _ i hi
    rw [fullTable, holds_set hlt, if_neg hne]
    rw [meetRow_getD hb] at hi
    exact hfull b i hb (by rcases hi with rfl | hi; exacts [hb, hi.1])
  · intro b d hb hd hdom
    rw [fullTable, holds_set hlt]
    split
    case isTrue hbr =>
      subst hbr
      exact (hrow d).mpr (dominates_root hdom)
    case isFalse => exact hfull b d hb hd

/-- The iteration ends, and what it ends with is dominance along walks. -/
theorem dominatorTable_spec (hbound : ∀ b, ∀ p ∈ preds b, p < n ∧ b < n) (hroot : root < n) :
    ∃ t, dominatorTable preds root n = some t ∧
      ∀ b d, b < n → d < n →
        (t.holds b d = true ↔ Dominates root (fun p c => p ∈ preds c) d b) := by
  have hstart : Descending preds root n (fullTable root n) := descending_fullTable hroot
  have hweight := weight_le hstart.rows
  rw [hstart.length] at hweight
  obtain ⟨t, heq, hdesc, hset⟩ :=
    hstart.settle (fun b p hp => (hbound b p hp).1) (Nat.lt_succ_of_le hweight)
  refine ⟨t, heq, fun b d hb hd => ⟨fun h => ?_, hdesc.above b d hb hd⟩⟩
  refine dominates_of_closed (D := fun b d => t.holds b d = true) hdesc.rootRow ?_ h
  intro p b d hp hne hbd
  have hb := (hbound b p hp).2
  have hrow := hset b (List.mem_range.mpr hb) hne (List.ne_nil_of_mem hp)
  rw [Table.holds, ← hrow, meetRow_getD hb] at hbd
  rcases hbd with hbd | ⟨-, hall⟩
  · exact .inl hbd
  · exact .inr (hall p hp)

end Tables

end Slag.FlowGraph
