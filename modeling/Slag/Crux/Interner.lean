import Slag.Crux.Rope
import Slag.Crux.Value
import Slag.Lib.AssocList
import Slag.Lib.Machine
import Mathlib.Data.List.ReduceOption

/-!
The string interner: one append-only table that the threads share under a lock,
and the memos each thread keeps of it. A call is cut where it takes the lock,
so that other threads' calls come in between.
-/

namespace Slag.Crux

open AssocList

abbrev AtomId := Nat

structure Interner where
  map : List (JsString × AtomId) := []
  atoms : List JsString := []

namespace Interner

/-- An id is a `u32`. -/
def intern (i : Interner) (units : JsString) : AtomId × Interner :=
  match get? i.map units with
  | some id => (id, i)
  | none =>
      let id := i.atoms.length % 2 ^ 32
      (id, ⟨(units, id) :: i.map, i.atoms ++ [units]⟩)

/-- An id that is out of range panics. -/
def lookup (i : Interner) (id : AtomId) : Option JsString := i.atoms[id]?

end Interner

def memoCap : Nat := 64

def indexAtomMemoCap : Nat := 65536

/-- The memos of a thread, last entry first. -/
structure Memos where
  lookups : List (AtomId × JsString) := []
  interns : List (JsString × AtomId) := []
  indices : List (Nat × AtomId) := []

namespace Memos

def pushIntern (m : Memos) (units : JsString) (id : AtomId) : Memos :=
  let entries := (units, id) :: m.interns
  { m with interns := if memoCap < entries.length then [] else entries }

def pushLookup (m : Memos) (id : AtomId) (text : JsString) : Memos :=
  let entries := (id, text) :: m.lookups
  { m with lookups := if memoCap < entries.length then [] else entries }

/-- The memo of indices is cleared before the insertion. -/
def insertIndex (m : Memos) (index : Nat) (id : AtomId) : Memos :=
  { m with indices := (index, id) :: if indexAtomMemoCap ≤ m.indices.length then [] else m.indices }

end Memos

namespace Interning

inductive Call where
  | intern (units : JsString)
  | internUtf8 (text : List Char)
  | indexAtom (index : Nat)
  | lookup (id : AtomId)

/-- What a call comes to. -/
inductive Event where
  | interned (units : JsString) (id : AtomId)
  | indexed (index : Nat) (id : AtomId)
  | looked (id : AtomId) (text : JsString)
  | panicked (id : AtomId)
deriving DecidableEq, Repr

/-- What a thread is in the midst of: a string or an id that no memo holds, on
the way to the lock, or an answer on the way back, with whether a memo lacks
it, and the index it is asked for. -/
inductive Pending where
  | idle
  | indexHit (index : Nat) (id : AtomId)
  | missed (units : JsString) (index : Option Nat)
  | got (units : JsString) (id : AtomId) (fresh : Bool) (index : Option Nat)
  | sought (id : AtomId)
  | found (id : AtomId) (text : JsString) (fresh : Bool)

inductive Move where
  | call (c : Call)
  | lock
  | finish

structure State (τ : Type) where
  interner : Interner
  memos : τ → Memos
  pending : τ → Pending

variable {τ : Type} [DecidableEq τ]

def start : State τ := ⟨{}, fun _ => {}, fun _ => .idle⟩

namespace State

def setPending (s : State τ) (t : τ) (p : Pending) : State τ :=
  { s with pending := Function.update s.pending t p }

def setMemos (s : State τ) (t : τ) (m : Memos) : State τ :=
  { s with memos := Function.update s.memos t m }

end State

/-- `intern`, up to the lock. -/
def beginIntern (m : Memos) (units : JsString) (index : Option Nat) : Pending :=
  match get? m.interns units with
  | some id => .got units id false index
  | none => .missed units index

/-- A call, up to the lock. -/
def begin (m : Memos) : Call → Pending
  | .intern units => beginIntern m units none
  | .internUtf8 text => beginIntern m (Rope.JsString.encodeUtf16 text) none
  | .indexAtom index =>
      match get? m.indices index with
      | some id => .indexHit index id
      | none => beginIntern m (indexText index) (some index)
  | .lookup id =>
      match get? m.lookups id with
      | some text => .found id text false
      | none => .sought id

/-- A call, from the lock on: what it leaves in the memos, and returns. -/
def finish (m : Memos) : Pending → Memos × Option Event
  | .indexHit index id => (m, some (.indexed index id))
  | .got units id fresh index =>
      let m := if fresh then m.pushIntern units id else m
      match index with
      | some index => (m.insertIndex index id, some (.indexed index id))
      | none => (m, some (.interned units id))
  | .found id text fresh => (if fresh then m.pushLookup id text else m, some (.looked id text))
  | .idle | .missed .. | .sought _ => (m, none)

/-- A thread moves; a move that is not its turn changes nothing. -/
def step (s : State τ) (move : τ × Move) : State τ × Option Event :=
  let t := move.1
  match move.2, s.pending t with
  | .call c, .idle => (s.setPending t (begin (s.memos t) c), none)
  | .lock, .missed units index =>
      let r := s.interner.intern units
      ({ s with interner := r.2 }.setPending t (.got units r.1 true index), none)
  | .lock, .sought id =>
      match s.interner.lookup id with
      | some text => (s.setPending t (.found id text true), none)
      | none => (s.setPending t .idle, some (.panicked id))
  | .finish, .indexHit .. | .finish, .got .. | .finish, .found .. =>
      let r := finish (s.memos t) (s.pending t)
      ((s.setMemos t r.1).setPending t .idle, r.2)
  | _, _ => (s, none)

/-- The id, and the string it is taken for. -/
def Event.names : Event → Option (AtomId × JsString)
  | .interned units id => some (id, units)
  | .indexed index id => some (id, indexText index)
  | .looked id text => some (id, text)
  | .panicked _ => none

/-- Answers name one string by one id, an id that was answered is never out of
range, and who has called is answered once it had the lock. -/
structure Faithful (s : State τ) (log : List (Option Event)) : Prop where
  bijective : ∀ e ∈ log.reduceOption, ∀ e' ∈ log.reduceOption, ∀ i a j b,
    e.names = some (i, a) → e'.names = some (j, b) → (i = j ↔ a = b)
  kept : ∀ e ∈ log.reduceOption, ∀ i a, e.names = some (i, a) → ∀ moves,
    .panicked i ∉ (Machine.run step s moves).2.reduceOption
  answered : ∀ t, s.pending t ≠ .idle →
    ∃ e, some e ∈ (Machine.run step s [(t, .lock), (t, .finish)]).2

section Soundness

variable {s : State τ} {i : Interner} {atoms : List JsString}

/-- The table is one to one. -/
def Interner.Sound (i : Interner) : Prop :=
  ∀ units id, get? i.map units = some id ↔ i.atoms[id]? = some units

def Memos.Sound (atoms : List JsString) (m : Memos) : Prop :=
  (∀ e ∈ m.lookups, atoms[e.1]? = some e.2) ∧ (∀ e ∈ m.interns, atoms[e.2]? = some e.1) ∧
    ∀ e ∈ m.indices, atoms[e.2]? = some (indexText e.1)

def Pending.Sound (atoms : List JsString) : Pending → Prop
  | .indexHit index id => atoms[id]? = some (indexText index)
  | .missed units index => ∀ n, index = some n → units = indexText n
  | .got units id _ index => atoms[id]? = some units ∧ ∀ n, index = some n → units = indexText n
  | .found id text _ => atoms[id]? = some text
  | .idle | .sought _ => True

structure Sound (s : State τ) : Prop where
  interner : Interner.Sound s.interner
  memos : ∀ t, Memos.Sound s.interner.atoms (s.memos t)
  pending : ∀ t, Pending.Sound s.interner.atoms (s.pending t)

def Event.Sound (atoms : List JsString) (e : Event) : Prop :=
  ∀ i a, e.names = some (i, a) → atoms[i]? = some a

omit [DecidableEq τ] in
theorem start_sound : Sound (start : State τ) where
  interner units id := by
    refine ⟨nofun, fun h => ?_⟩
    cases h
  memos t := ⟨nofun, nofun, nofun⟩
  pending t := trivial

variable {id : AtomId} {units : JsString} {m : Memos} {p : Pending}

theorem getElem?_grown {old new : List JsString} (h : old <+: new) (hid : old[id]? = some units) :
    new[id]? = some units := by
  obtain ⟨added, rfl⟩ := h
  rw [List.getElem?_append_left (List.getElem?_eq_some_iff.mp hid).1]
  exact hid

/-- Interning adds at the end at most, and answers where the string is. -/
theorem intern_spec (h : Interner.Sound i) (units : JsString)
    (hsmall : (i.intern units).2.atoms.length < 2 ^ 32) :
    Interner.Sound (i.intern units).2 ∧
      (i.intern units).2.atoms[(i.intern units).1]? = some units := by
  unfold Interner.intern at hsmall ⊢
  cases hget : get? i.map units with
  | some id => exact ⟨h, (h units id).mp hget⟩
  | none =>
      simp only [hget, List.length_append, List.length_singleton] at hsmall ⊢
      have hid : i.atoms.length % 2 ^ 32 = i.atoms.length := Nat.mod_eq_of_lt (by omega)
      rw [hid]
      refine ⟨fun other id => ?_, List.getElem?_concat_length⟩
      rw [get?_cons]
      rcases Nat.lt_trichotomy id i.atoms.length with hlt | rfl | hgt
      · rw [List.getElem?_append_left hlt, ← h]
        split
        · rename_i heq
          subst heq
          rw [hget]
          exact ⟨fun heq => absurd (Option.some.inj heq) (Nat.ne_of_gt hlt), nofun⟩
        · exact Iff.rfl
      · rw [List.getElem?_concat_length]
        split
        · rename_i heq
          rw [heq]
          exact iff_of_true rfl rfl
        · rename_i hne
          refine ⟨fun hold => ?_, fun heq => absurd (Option.some.inj heq) hne⟩
          have hlt := (List.getElem?_eq_some_iff.mp ((h _ _).mp hold)).1
          exact absurd hlt (Nat.lt_irrefl _)
      · rw [List.getElem?_eq_none (by rw [List.length_append, List.length_singleton]; omega)]
        refine ⟨fun hold => ?_, nofun⟩
        split at hold
        · exact absurd (Option.some.inj hold) (Nat.ne_of_lt hgt)
        · have hlt := (List.getElem?_eq_some_iff.mp ((h _ _).mp hold)).1
          exact absurd hlt (Nat.not_lt.mpr (Nat.le_of_lt hgt))

theorem intern_grows (i : Interner) (units : JsString) : i.atoms <+: (i.intern units).2.atoms := by
  unfold Interner.intern
  split
  · exact List.prefix_rfl
  · exact List.prefix_append _ _

theorem Memos.Sound.grown {grown : List JsString} (h : Memos.Sound atoms m) (hgrown : atoms <+: grown) :
    Memos.Sound grown m :=
  ⟨fun e he => getElem?_grown hgrown (h.1 e he), fun e he => getElem?_grown hgrown (h.2.1 e he),
    fun e he => getElem?_grown hgrown (h.2.2 e he)⟩

theorem Pending.Sound.grown {grown : List JsString} (h : Pending.Sound atoms p)
    (hgrown : atoms <+: grown) : Pending.Sound grown p := by
  cases p with
  | indexHit | found => exact getElem?_grown hgrown h
  | got => exact ⟨getElem?_grown hgrown h.1, h.2⟩
  | missed | idle | sought => exact h

/-- A memo answers what the table holds. -/
theorem mem_of_get? {α β : Type} [DecidableEq α] {l : List (α × β)} {k : α} {v : β}
    (h : get? l k = some v) : (k, v) ∈ l := by
  obtain ⟨i, -, hi⟩ := get?_eq_some h
  exact List.mem_of_getElem? hi

theorem beginIntern_sound (h : Memos.Sound atoms m) (units : JsString) {index : Option Nat}
    (hindex : ∀ n, index = some n → units = indexText n) :
    Pending.Sound atoms (beginIntern m units index) := by
  unfold beginIntern
  split
  · rename_i id hget
    exact ⟨h.2.1 _ (mem_of_get? hget), hindex⟩
  · exact hindex

theorem begin_sound (h : Memos.Sound atoms m) (c : Call) :
    Pending.Sound atoms (begin m c) := by
  cases c with
  | intern units => exact beginIntern_sound h units nofun
  | internUtf8 text => exact beginIntern_sound h _ nofun
  | indexAtom index =>
      simp only [begin]
      split
      · rename_i id hget
        exact h.2.2 _ (mem_of_get? hget)
      · refine beginIntern_sound h _ fun n hn => ?_
        rw [Option.some.inj hn]
  | lookup id =>
      simp only [begin]
      split
      · rename_i text hget
        exact h.1 _ (mem_of_get? hget)
      · trivial

theorem pushIntern_sound (h : Memos.Sound atoms m) (hid : atoms[id]? = some units) :
    Memos.Sound atoms (m.pushIntern units id) := by
  refine ⟨h.1, ?_, h.2.2⟩
  unfold Memos.pushIntern
  dsimp only
  split
  · exact nofun
  · exact List.forall_mem_cons.mpr ⟨hid, h.2.1⟩

theorem pushLookup_sound (h : Memos.Sound atoms m) (hid : atoms[id]? = some units) :
    Memos.Sound atoms (m.pushLookup id units) := by
  refine ⟨?_, h.2⟩
  unfold Memos.pushLookup
  dsimp only
  split
  · exact nofun
  · exact List.forall_mem_cons.mpr ⟨hid, h.1⟩

theorem insertIndex_sound (h : Memos.Sound atoms m) {index : Nat}
    (hid : atoms[id]? = some (indexText index)) : Memos.Sound atoms (m.insertIndex index id) := by
  refine ⟨h.1, h.2.1, List.forall_mem_cons.mpr ⟨hid, ?_⟩⟩
  split
  · exact nofun
  · exact h.2.2

theorem finish_sound (h : Memos.Sound atoms m) (hp : Pending.Sound atoms p) :
    Memos.Sound atoms (finish m p).1 ∧
      ∀ e ∈ (finish m p).2, Event.Sound atoms e := by
  cases p with
  | indexHit index id =>
      refine ⟨h, fun e he i a hname => ?_⟩
      cases he
      cases hname
      exact hp
  | got units id fresh index =>
      have hm : Memos.Sound atoms (if fresh then m.pushIntern units id else m) := by
        cases fresh with
        | true => exact pushIntern_sound h hp.1
        | false => exact h
      cases index with
      | none =>
          refine ⟨hm, fun e he i a hname => ?_⟩
          cases he
          cases hname
          exact hp.1
      | some n =>
          have hid : atoms[id]? = some (indexText n) := hp.2 n rfl ▸ hp.1
          refine ⟨insertIndex_sound hm hid, fun e he i a hname => ?_⟩
          cases he
          cases hname
          exact hid
  | found id text fresh =>
      refine ⟨?_, fun e he i a hname => ?_⟩
      · cases fresh with
        | true => exact pushLookup_sound h hp
        | false => exact h
      · cases he
        cases hname
        exact hp
  | idle | missed | sought => exact ⟨h, nofun⟩

theorem Sound.setPending (h : Sound s) (t : τ) (hp : Pending.Sound s.interner.atoms p) :
    Sound (s.setPending t p) := by
  refine ⟨h.interner, h.memos, fun t' => ?_⟩
  by_cases ht : t' = t
  · simp only [State.setPending, ht, Function.update_self]
    exact hp
  · simp only [State.setPending, Function.update_of_ne ht]
    exact h.pending t'

theorem Sound.setMemos (h : Sound s) (t : τ) (hm : Memos.Sound s.interner.atoms m) :
    Sound (s.setMemos t m) := by
  refine ⟨h.interner, fun t' => ?_, h.pending⟩
  by_cases ht : t' = t
  · simp only [State.setMemos, ht, Function.update_self]
    exact hm
  · simp only [State.setMemos, Function.update_of_ne ht]
    exact h.memos t'

/-- What a step can do. -/
theorem step_cases (s : State τ) (t : τ) (move : Move) :
    (∃ c, move = .call c ∧ step s (t, move) = (s.setPending t (begin (s.memos t) c), none)) ∨
    (∃ units index, s.pending t = .missed units index ∧ step s (t, move) =
      ({ s with interner := (s.interner.intern units).2 }.setPending t
        (.got units (s.interner.intern units).1 true index), none)) ∨
    (∃ id text, s.interner.lookup id = some text ∧
      step s (t, move) = (s.setPending t (.found id text true), none)) ∨
    (∃ id, s.interner.lookup id = none ∧
      step s (t, move) = (s.setPending t .idle, some (.panicked id))) ∨
    step s (t, move) = ((s.setMemos t (finish (s.memos t) (s.pending t)).1).setPending t .idle,
      (finish (s.memos t) (s.pending t)).2) ∨
    step s (t, move) = (s, none) := by
  cases move with
  | call c =>
      cases hp : s.pending t with
      | idle => exact .inl ⟨c, rfl, by simp only [step, hp]⟩
      | indexHit | missed | got | sought | found =>
          exact .inr (.inr (.inr (.inr (.inr (by simp only [step, hp])))))
  | lock =>
      cases hp : s.pending t with
      | missed units index => exact .inr (.inl ⟨units, index, rfl, by simp only [step, hp]⟩)
      | sought id =>
          cases htext : s.interner.lookup id with
          | some text =>
              exact .inr (.inr (.inl ⟨id, text, htext, by simp only [step, hp, htext]⟩))
          | none =>
              exact .inr (.inr (.inr (.inl ⟨id, htext, by simp only [step, hp, htext]⟩)))
      | idle | indexHit | got | found =>
          exact .inr (.inr (.inr (.inr (.inr (by simp only [step, hp])))))
  | finish =>
      cases hp : s.pending t with
      | indexHit | got | found =>
          exact .inr (.inr (.inr (.inr (.inl (by simp only [step, hp])))))
      | idle | missed | sought =>
          exact .inr (.inr (.inr (.inr (.inr (by simp only [step, hp])))))

/-- The table is append-only. -/
theorem step_grows (s : State τ) (move : τ × Move) :
    s.interner.atoms <+: (step s move).1.interner.atoms := by
  obtain ⟨t, move⟩ := move
  rcases step_cases s t move with ⟨_, -, h⟩ | ⟨units, _, -, h⟩ | ⟨_, _, -, h⟩ | ⟨_, -, h⟩ | h | h <;>
    rw [h]
  · exact List.prefix_rfl
  · exact intern_grows s.interner units
  · exact List.prefix_rfl
  · exact List.prefix_rfl
  · exact List.prefix_rfl

theorem step_sound (h : Sound s) (move : τ × Move)
    (hsmall : (step s move).1.interner.atoms.length < 2 ^ 32) :
    Sound (step s move).1 ∧ ∀ e ∈ (step s move).2, Event.Sound (step s move).1.interner.atoms e := by
  obtain ⟨t, move⟩ := move
  rcases step_cases s t move with ⟨c, -, heq⟩ | ⟨units, index, hmissed, heq⟩ | ⟨id, text, htext, heq⟩ |
    ⟨id, -, heq⟩ | heq | heq <;> rw [heq] at hsmall ⊢
  · exact ⟨h.setPending t (begin_sound (h.memos t) c), nofun⟩
  · obtain ⟨hsound, hid⟩ := intern_spec h.interner units hsmall
    have hgrown := intern_grows s.interner units
    have hpending := h.pending t
    rw [hmissed] at hpending
    have hnext : Sound { s with interner := (s.interner.intern units).2 } :=
      ⟨hsound, fun t' => (h.memos t').grown hgrown, fun t' => (h.pending t').grown hgrown⟩
    exact ⟨hnext.setPending t ⟨hid, hpending⟩, nofun⟩
  · exact ⟨h.setPending t htext, nofun⟩
  · refine ⟨h.setPending t trivial, fun e he i a hname => ?_⟩
    cases he
    cases hname
  · obtain ⟨hmemos, hevents⟩ := finish_sound (h.memos t) (h.pending t)
    exact ⟨(h.setMemos t hmemos).setPending t trivial, hevents⟩
  · exact ⟨h, nofun⟩

theorem run_grows (moves : List (τ × Move)) (s : State τ) :
    s.interner.atoms <+: (Machine.run step s moves).1.interner.atoms := by
  induction moves generalizing s with
  | nil => exact List.prefix_rfl
  | cons move moves ih => exact (step_grows s move).trans (ih _)

/-- Every answer of a run is what the table says at its end. -/
theorem run_sound (h : Sound s) (moves : List (τ × Move))
    (hsmall : (Machine.run step s moves).1.interner.atoms.length < 2 ^ 32) :
    Sound (Machine.run step s moves).1 ∧ ∀ e ∈ (Machine.run step s moves).2.reduceOption,
      Event.Sound (Machine.run step s moves).1.interner.atoms e := by
  induction moves generalizing s with
  | nil => exact ⟨h, nofun⟩
  | cons move moves ih =>
      have hgrown := run_grows moves (step s move).1
      obtain ⟨hnext, hevent⟩ := step_sound h move (Nat.lt_of_le_of_lt hgrown.length_le hsmall)
      obtain ⟨hlast, hevents⟩ := ih hnext hsmall
      refine ⟨hlast, fun e he => ?_⟩
      rw [Machine.run, List.reduceOption_mem_iff] at he
      rcases List.mem_cons.mp he with heq | hmem
      · exact fun i a hname => getElem?_grown hgrown (hevent e heq.symm i a hname)
      · exact hevents e (List.reduceOption_mem_iff.mpr hmem)

theorem finish_ne_panicked (m : Memos) (p : Pending) (id : AtomId) :
    (finish m p).2 ≠ some (.panicked id) := by
  cases p with
  | got _ _ _ index =>
      cases index with
      | none => exact nofun
      | some n => exact nofun
  | idle | indexHit | missed | sought | found => exact nofun

/-- Who was called is answered at its next two turns. -/
theorem turn_answers {t : τ} (h : s.pending t ≠ .idle) :
    ∃ e, some e ∈ (Machine.run step s [(t, .lock), (t, .finish)]).2 := by
  cases hp : s.pending t with
  | idle => exact absurd hp h
  | indexHit index id => exact ⟨.indexed index id, by simp [Machine.run, step, hp, finish]⟩
  | missed units index =>
      cases index with
      | none =>
          exact ⟨.interned units (s.interner.intern units).1,
            by simp [Machine.run, step, hp, finish, State.setPending]⟩
      | some n =>
          exact ⟨.indexed n (s.interner.intern units).1,
            by simp [Machine.run, step, hp, finish, State.setPending]⟩
  | got units id fresh index =>
      cases index with
      | none => exact ⟨.interned units id, by simp [Machine.run, step, hp, finish]⟩
      | some n => exact ⟨.indexed n id, by simp [Machine.run, step, hp, finish]⟩
  | sought id =>
      cases htext : s.interner.lookup id with
      | some text =>
          exact ⟨.looked id text,
            by simp [Machine.run, step, hp, htext, finish, State.setPending]⟩
      | none => exact ⟨.panicked id, by simp [Machine.run, step, hp, htext]⟩
  | found id text fresh => exact ⟨.looked id text, by simp [Machine.run, step, hp, finish]⟩

/-- An id of the table is never out of range. -/
theorem run_kept (moves : List (τ × Move)) {s : State τ} {text : JsString}
    (h : s.interner.atoms[id]? = some text) :
    .panicked id ∉ (Machine.run step s moves).2.reduceOption := by
  induction moves generalizing s with
  | nil => exact nofun
  | cons move moves ih =>
      intro he
      rw [Machine.run, List.reduceOption_mem_iff] at he
      rcases List.mem_cons.mp he with heq | hmem
      · obtain ⟨t, move⟩ := move
        rcases step_cases s t move with ⟨_, -, hs⟩ | ⟨_, _, -, hs⟩ | ⟨_, _, -, hs⟩ | ⟨_, hnone, hs⟩ |
          hs | hs <;> rw [hs] at heq
        · cases heq
        · cases heq
        · cases heq
        · cases heq
          rw [Interner.lookup, h] at hnone
          cases hnone
        · exact absurd heq.symm (finish_ne_panicked _ _ _)
        · cases heq
      · exact ih (getElem?_grown (step_grows s move) h) (List.reduceOption_mem_iff.mpr hmem)

end Soundness

/-- Whatever the threads do in whatever order, as long as the ids last. -/
theorem interner_faithful (moves : List (τ × Move))
    (hsmall : (Machine.run step (start : State τ) moves).1.interner.atoms.length < 2 ^ 32) :
    Faithful (Machine.run step start moves).1 (Machine.run step start moves).2 := by
  obtain ⟨hsound, hevents⟩ := run_sound start_sound moves hsmall
  refine ⟨fun e he e' he' i a j b hname hname' => ?_, fun e he i a hname moves => ?_,
    fun t ht => turn_answers ht⟩
  · have ha := hevents e he i a hname
    have hb := hevents e' he' j b hname'
    constructor
    · rintro rfl
      exact Option.some.inj (ha.symm.trans hb)
    · rintro rfl
      have hi := (hsound.interner a i).mpr ha
      have hj := (hsound.interner a j).mpr hb
      exact Option.some.inj (hi.symm.trans hj)
  · exact run_kept moves (hevents e he i a hname)

/-- Two threads that intern one string at once, and one looks it up. -/
def race : List (Bool × Move) :=
  [(true, .call (.intern [0x61])), (false, .call (.internUtf8 ['a'])), (false, .lock),
    (true, .lock), (true, .finish), (false, .finish), (true, .call (.lookup 0)), (true, .lock),
    (true, .finish), (false, .call (.indexAtom 7)), (false, .lock), (false, .finish)]

theorem race_faithful : (Machine.run step (start : State Bool) race).2.reduceOption =
    [.interned [0x61] 0, .interned [0x61] 0, .looked 0 [0x61], .indexed 7 1] ∧
    Faithful (Machine.run step (start : State Bool) race).1 (Machine.run step start race).2 :=
  ⟨by decide, interner_faithful race (by decide)⟩

end Interning

end Slag.Crux
