import Slag.V8.RoundTrip

/-!
What becomes of a failed read. `strict` reports every failure to the top, and
says whether it happened inside an array element; the readers follow it as long
as none does. A strict read that succeeds reads the same from more bytes, so a
proper prefix of a serialized value fails.
-/

namespace Slag.V8

/-- Where a part failed to decode. -/
inductive Fault
  | outside
  | inElement
deriving DecidableEq, Repr

/-- Nothing is accepted with a part missing. -/
def strict : Policy Fault where
  bad := .outside
  element m := fun s =>
    match m s with
    | (.ok v, s) => (.ok (some v), s)
    | (.error _, s) => (.error .inElement, s)

section Relates

variable {F F' : Type} {P : Policy F} {P' : Policy F'} {engine : Engine}
  {R : ∀ {α : Type}, Read F α → Read F' α → Prop}

/-- A relation between the steps of two readers that is kept by all they are
made of. -/
structure Relates (P : Policy F) (P' : Policy F')
    (R : ∀ {α : Type}, Read F α → Read F' α → Prop) : Prop where
  ret {α : Type} (a : α) : R (pure a) (pure a)
  bind {α β : Type} {m : Read F α} {m' : Read F' α} {k : α → Read F β} {k' : α → Read F' β} :
    R m m' → (∀ a, R (k a) (k' a)) → R (m >>= k) (m' >>= k')
  malformed {α : Type} : R (malformed P : Read F α) (malformed P')
  take (length : Nat) : R (take P length) (take P' length)
  reserve : R (reserve P) (reserve P')
  fill (id : Nat) (v : Value) : R (fill id v) (fill id v)
  alloc (o : Obj) : R (alloc o) (alloc o)
  update (ref : Ref) (change : Obj → Obj) : R (update ref change) (update ref change)
  referenced (id : Nat) : R (referenced P id) (referenced P' id)
  asBuffer (v : Value) : R (asBuffer P v) (asBuffer P' v)
  element {m : Read F Value} {m' : Read F' Value} : R m m' → R (P.element m) (P'.element m')

/-- Readers that branch alike. -/
theorem rel_ite {α : Type} {c : Prop} [Decidable c] {a b : Read F α} {a' b' : Read F' α}
    (ha : R a a') (hb : R b b') : R (if c then a else b) (if c then a' else b') := by
  by_cases hc : c
  · rw [if_pos hc, if_pos hc]
    exact ha
  · rw [if_neg hc, if_neg hc]
    exact hb

namespace Relates

variable (h : Relates P P' R)

include h

theorem expect {α : Type} (o : Option α) : R (expect P o) (expect P' o) := by
  cases o with
  | none => exact h.malformed
  | some a => exact h.ret a

theorem takeU8 : R (takeU8 P) (takeU8 P') := h.bind (h.take 1) fun _ => h.ret _

theorem takeU32 : R (takeU32 P) (takeU32 P') := h.bind (h.take 4) fun _ => h.ret _

theorem takeU64 : R (takeU64 P) (takeU64 P') := h.bind (h.take 8) fun _ => h.ret _

theorem takeUnits (count : Nat) : R (takeUnits P count) (takeUnits P' count) := by
  induction count with
  | zero => exact h.ret []
  | succ count ih => exact h.bind (h.take 2) fun _ => h.bind ih fun _ => h.ret _

theorem takeWords (count : Nat) : R (takeWords P count) (takeWords P' count) := by
  induction count with
  | zero => exact h.ret []
  | succ count ih => exact h.bind h.takeU64 fun _ => h.bind ih fun _ => h.ret _

theorem begin (o : Obj) : R (begin P o) (begin P' o) :=
  h.bind h.reserve fun _ => h.bind (h.alloc o) fun _ => h.bind (h.fill _ _) fun _ => h.ret _

theorem finish (id : Nat) (o : Obj) : R (finish id o) (finish id o) :=
  h.bind (h.alloc o) fun _ => h.bind (h.fill _ _) fun _ => h.ret _

theorem repeatRead {step : Nat → Read F Unit} {step' : Nat → Read F' Unit}
    (hstep : ∀ index, R (step index) (step' index)) (index count : Nat) :
    R (repeatRead step index count) (repeatRead step' index count) := by
  induction count generalizing index with
  | zero => exact h.ret ()
  | succ count ih => exact h.bind (hstep index) fun _ => ih (index + 1)

section Containers

variable {nested : Read F Value} {nested' : Read F' Value} (hnested : R nested nested')

theorem readArray {element : Read F (Option Value)} {element' : Read F' (Option Value)}
    (helement : R element element') : R (readArray P element) (readArray P' element') := by
  refine h.bind h.takeU32 fun length => h.bind (h.begin _) fun ref =>
    h.bind (h.update ref _) fun _ => h.bind ?_ fun _ => h.ret _
  refine h.repeatRead (fun index => h.bind helement fun item => ?_) 0 length
  cases item with
  | none => exact h.ret ()
  | some v => exact h.update ref _

include hnested

theorem readObject : R (readObject P nested) (readObject P' nested') := by
  refine h.bind h.takeU32 fun count => h.bind (h.begin _) fun ref => h.bind ?_ fun _ => h.ret _
  exact h.repeatRead (fun _ => h.bind hnested fun key => h.bind hnested fun entry =>
    h.bind (h.expect _) fun name => h.update ref _) 0 count

theorem readMap : R (readMap P nested) (readMap P' nested') := by
  refine h.bind h.takeU32 fun count => h.bind (h.begin _) fun ref => h.bind ?_ fun _ => h.ret _
  exact h.repeatRead (fun _ => h.bind hnested fun key => h.bind hnested fun entry =>
    h.update ref _) 0 count

theorem readSet : R (readSet P nested) (readSet P' nested') := by
  refine h.bind h.takeU32 fun count => h.bind (h.begin _) fun ref => h.bind ?_ fun _ => h.ret _
  exact h.repeatRead (fun _ => h.bind hnested fun element => h.update ref _) 0 count

theorem readRegExp : R (readRegExp P engine nested) (readRegExp P' engine nested') :=
  h.bind h.reserve fun _ => h.bind hnested fun _ => h.bind hnested fun _ =>
    h.bind (h.expect _) fun _ => h.finish _ _

theorem readView : R (readView P nested) (readView P' nested') :=
  h.bind h.reserve fun _ => h.bind h.takeU8 fun _ => h.bind h.takeU32 fun _ =>
    h.bind h.takeU32 fun _ => h.bind hnested fun _ => h.bind (h.asBuffer _) fun _ =>
      h.bind (h.expect _) fun _ => rel_ite (h.finish _ _) h.malformed

end Containers

theorem readRegistered (registered : Nat → Option Value) :
    R (readRegistered P registered) (readRegistered P' registered) :=
  h.bind h.reserve fun _ => h.bind h.takeU32 fun _ => h.bind (h.expect _) fun _ =>
    h.bind (h.fill _ _) fun _ => h.ret _

/-- Readers of as much fuel, or of more where running out is below everything. -/
theorem readWithTag {f f' : Nat}
    (hfuel : f = f' ∨ f ≤ f' ∧ ∀ m' : Read F' Value, R (V8.malformed P) m') (tag : UInt8) :
    R (readWithTag P engine f tag) (readWithTag P' engine f' tag) := by
  induction f generalizing f' tag with
  | zero =>
      rcases hfuel with rfl | ⟨-, hbottom⟩
      · exact h.malformed
      · exact hbottom _
  | succ f ih =>
      obtain ⟨f', rfl⟩ : ∃ k, f' = k + 1 := by
        rcases hfuel with rfl | ⟨hle, -⟩
        · exact ⟨f, rfl⟩
        · exact ⟨f' - 1, by omega⟩
      have hnext : f = f' ∨ f ≤ f' ∧ ∀ m' : Read F' Value, R (V8.malformed P) m' := by
        rcases hfuel with heq | ⟨hle, hbottom⟩
        · exact .inl (Nat.succ.inj heq)
        · exact .inr ⟨Nat.le_of_succ_le_succ hle, hbottom⟩
      have hnested := h.bind h.takeU8 fun tag => ih hnext tag
      have helement := h.bind h.takeU8 fun tag =>
        rel_ite (c := tag = tagHole) (h.ret none) (h.element (ih hnext tag))
      rw [V8.readWithTag, V8.readWithTag]
      refine rel_ite (h.ret _) (rel_ite (h.ret _) (rel_ite (h.ret _) (rel_ite (h.ret _) (rel_ite ?_ (rel_ite ?_
        (rel_ite ?_ (rel_ite ?_ (rel_ite (h.readArray helement) (rel_ite (h.readObject hnested)
        (rel_ite (h.readMap hnested) (rel_ite (h.readSet hnested) (rel_ite ?_
        (rel_ite (h.readRegExp hnested) (rel_ite ?_ (rel_ite (h.readRegistered _)
        (rel_ite (h.readRegistered _) (rel_ite (h.readView hnested)
        (rel_ite ?_ h.malformed))))))))))))))))))
      · exact h.bind h.takeU64 fun _ => h.ret _
      · exact h.bind h.takeU32 fun _ => h.bind (h.takeUnits _) fun _ => h.ret _
      · exact h.bind h.takeU8 fun _ => h.bind h.takeU32 fun _ => h.bind (h.takeWords _) fun _ =>
          h.ret _
      · exact h.bind h.takeU32 h.referenced
      · exact h.bind h.reserve fun _ => h.bind h.takeU64 fun _ => h.finish _ _
      · exact h.bind h.reserve fun _ => h.bind h.takeU32 fun _ => h.bind (h.take _) fun _ =>
          h.finish _ _
      · exact h.bind h.reserve fun _ => h.malformed

theorem readHeader : R (readHeader P) (readHeader P') :=
  h.bind h.takeU8 fun _ => rel_ite (h.bind h.malformed fun _ => h.bind h.takeU8 fun _ =>
    rel_ite h.malformed (h.ret _)) (h.bind h.takeU8 fun _ => rel_ite h.malformed (h.ret _))

/-- A header and so many values. -/
theorem readAll {f f' : Nat}
    (hfuel : f = f' ∨ f ≤ f' ∧ ∀ m' : Read F' Value, R (V8.malformed P) m') (count : Nat) :
    R (V8.readHeader P >>= fun _ => readValues P engine f count)
      (V8.readHeader P' >>= fun _ => readValues P' engine f' count) := by
  refine h.bind h.readHeader fun _ => ?_
  induction count with
  | zero => exact h.ret []
  | succ count ih =>
      exact h.bind (h.bind h.takeU8 fun tag => h.readWithTag hfuel tag) fun _ =>
        h.bind ih fun _ => h.ret _

end Relates

end Relates

section Follows

variable {α β : Type}

/-- The readers do what the strict ones do, up to a failure inside an element. -/
def Follows (m : Read Unit α) (m' : Read Fault α) : Prop := ∀ s,
  match m' s with
  | (.ok a, s') => m s = (.ok a, s')
  | (.error .outside, s') => m s = (.error (), s')
  | (.error .inElement, _) => True

theorem Follows.bind {m : Read Unit α} {m' : Read Fault α} {k : α → Read Unit β}
    {k' : α → Read Fault β} (h : Follows m m') (hk : ∀ a, Follows (k a) (k' a)) :
    Follows (m >>= k) (m' >>= k') := by
  intro s
  have hs := h s
  match hm : m' s with
  | (.ok a, s') =>
      rw [hm] at hs
      rw [bind_ok hm, bind_ok (k := k) hs]
      exact hk a s'
  | (.error .outside, s') =>
      rw [hm] at hs
      rw [bind_error hm]
      exact bind_error hs
  | (.error .inElement, s') =>
      rw [bind_error hm]
      trivial

theorem follows_expect (o : Option α) : Follows (expect asWritten o) (expect strict o) := by
  cases o with
  | none => exact fun _ => rfl
  | some a => exact fun _ => rfl

theorem follows_element {m : Read Unit Value} {m' : Read Fault Value} (h : Follows m m') :
    Follows (asWritten.element m) (strict.element m') := by
  intro s
  have hs := h s
  simp only [strict, asWritten]
  rcases hm : m' s with ⟨e | a, s'⟩
  · trivial
  · rw [hm] at hs
    have hs : m s = (.ok a, s') := hs
    rw [hs]

theorem relates_follows : Relates asWritten strict Follows where
  ret _ _ := rfl
  bind := Follows.bind
  malformed _ := rfl
  take length := by
    intro s
    simp only [take]
    by_cases h : length ≤ s.rest.length
    · rw [if_pos h, if_pos h]
    · rw [if_neg h, if_neg h]
      rfl
  reserve := by
    intro s
    simp only [reserve]
    by_cases h : s.memo.length < 2 ^ 32
    · rw [if_pos h, if_pos h]
    · rw [if_neg h, if_neg h]
      rfl
  fill _ _ _ := rfl
  alloc _ _ := rfl
  update _ _ _ := rfl
  referenced _ s := follows_expect _ s
  asBuffer _ s := follows_expect _ s
  element := follows_element

end Follows

section Extends

variable {α β : Type}

/-- The reader with more bytes at the end. -/
def Reader.more (s : Reader) (extra : Bytes) : Reader := { s with rest := s.rest ++ extra }

/-- What succeeds on some bytes succeeds with more after them, and leaves those. -/
def Extends (m m' : Read Fault α) : Prop := ∀ s extra a s',
  m s = (.ok a, s') → m' (s.more extra) = (.ok a, s'.more extra)

theorem Extends.bind {m m' : Read Fault α} {k k' : α → Read Fault β} (h : Extends m m')
    (hk : ∀ a, Extends (k a) (k' a)) : Extends (m >>= k) (m' >>= k') := by
  intro s extra b s' hs
  match hm : m s with
  | (.ok a, s₁) =>
      rw [bind_ok hm] at hs
      rw [bind_ok (h s extra a s₁ hm)]
      exact hk a s₁ extra b s' hs
  | (.error e, s₁) =>
      rw [bind_error hm] at hs
      cases hs

theorem extends_expect (o : Option α) : Extends (expect strict o) (expect strict o) := by
  intro s extra a s' h
  cases o with
  | none => cases h
  | some b =>
      cases h
      rfl

theorem extends_element {m m' : Read Fault Value} (h : Extends m m') :
    Extends (strict.element m) (strict.element m') := by
  intro s extra a s' hs
  simp only [strict] at hs
  match hm : m s with
  | (.ok v, s₁) =>
      simp only [hm] at hs
      cases hs
      simp only [strict, h s extra v _ hm]
  | (.error e, s₁) =>
      simp only [hm] at hs
      cases hs

theorem relates_extends : Relates strict strict Extends where
  ret _ := by
    rintro s extra a s' ⟨⟩
    rfl
  bind := Extends.bind
  malformed := by
    rintro α s extra a s' ⟨⟩
  take length := by
    intro s extra a s' h
    rw [take] at h
    by_cases hle : length ≤ s.rest.length
    · rw [if_pos hle] at h
      cases h
      have hmore : length ≤ (s.rest ++ extra).length := by
        rw [List.length_append]
        exact Nat.le_add_right_of_le hle
      refine (if_pos hmore).trans ?_
      change (Except.ok ((s.rest ++ extra).take length),
        Reader.mk ((s.rest ++ extra).drop length) s.memo s.heap) = _
      rw [List.take_append_of_le_length hle, List.drop_append_of_le_length hle]
      rfl
    · rw [if_neg hle] at h
      cases h
  reserve := by
    intro s extra a s' h
    rw [reserve] at h
    by_cases hroom : s.memo.length < 2 ^ 32
    · rw [if_pos hroom] at h
      cases h
      exact if_pos hroom
    · rw [if_neg hroom] at h
      cases h
  fill _ _ := by
    rintro s extra a s' ⟨⟩
    rfl
  alloc _ := by
    rintro s extra a s' ⟨⟩
    rfl
  update _ _ := by
    rintro s extra a s' ⟨⟩
    rfl
  referenced _ := fun s => extends_expect _ s
  asBuffer _ := fun s => extends_expect _ s
  element := extends_element

end Extends

/-- The header and one value, with every failure reported. -/
def readStrict (engine : Engine) (f : Nat) : Read Fault (List Value) :=
  readHeader strict >>= fun _ => readValues strict engine f 1

/-- Where the first part of a stream that does not decode is, if there is one. -/
def failure (engine : Engine) (heap : Heap) (bytes : Bytes) : Option Fault :=
  match readStrict engine (bytes.length + 1) (.start bytes heap) with
  | (.ok _, _) => none
  | (.error e, _) => some e

theorem readValue_of_failure {engine : Engine} {heap : Heap} {bytes : Bytes}
    (h : failure engine heap bytes = some .outside) : readValue engine heap bytes = none := by
  have hfollows : Follows
      (readHeader asWritten >>= fun _ => readValues asWritten engine (bytes.length + 1) 1)
      (readStrict engine (bytes.length + 1)) := relates_follows.readAll (.inl rfl) 1
  have hs := hfollows (.start bytes heap)
  rw [failure] at h
  match hstrict : readStrict engine (bytes.length + 1) (.start bytes heap) with
  | (.ok a, s') =>
      rw [hstrict] at h
      cases h
  | (.error e, s') =>
      rw [hstrict] at h hs
      cases h
      have hread : deserialize engine heap bytes 1 = (none, s') := by
        rw [deserialize, show _ = _ from hs]
      rw [readValue, hread]
      rfl

/-- A proper prefix of a serialized value does not decode. -/
theorem failure_of_part {engine : Engine} (g : Graph engine) (hone : g.values.length = 1)
    {bytes part : Bytes} (h : g.serialized = some bytes) (hpart : part <+: bytes)
    (hne : part ≠ bytes) (heap' : Heap) : failure engine heap' part ≠ none := by
  intro hnone
  obtain ⟨extra, rfl⟩ := hpart
  have hkeeps : strict.Keeps := by
    intro m s v s' h
    simp only [strict, h]
  obtain ⟨numbers, values', b', hread, -⟩ :=
    g.read_serialized hkeeps h heap' (Nat.le_succ (part ++ extra).length)
  rw [hone] at hread
  rw [failure] at hnone
  match hstrict : readStrict engine (part.length + 1) (.start part heap') with
  | (.error e, s') =>
      rw [hstrict] at hnone
      cases hnone
  | (.ok a, s') =>
      have hle : part.length + 1 ≤ (part ++ extra).length + 1 := by
        rw [List.length_append]
        omega
      have hextends : Extends (readStrict engine (part.length + 1))
          (readStrict engine ((part ++ extra).length + 1)) :=
        relates_extends.readAll (.inr ⟨hle, fun _ => by rintro s extra a s' ⟨⟩⟩) 1
      have hmore := hextends _ extra a s' hstrict
      have hrest : s'.rest ++ extra = [] := by
        have heq := hread.symm.trans hmore
        exact (congrArg (fun r => r.2.rest) heq).symm
      have hextra := (List.append_eq_nil_iff.mp hrest).2
      rw [hextra, List.append_nil] at hne
      exact hne rfl

/-- A stream with a part that does not decode is refused, and a proper prefix of
a serialized value has one, unless the first such part is in an array element. -/
theorem malformed_rejected (engine : Engine) :
    (∀ heap bytes, failure engine heap bytes ≠ none →
      failure engine heap bytes ≠ some .inElement → readValue engine heap bytes = none) ∧
    ∀ (g : Graph engine) bytes part heap, g.values.length = 1 →
      g.serialized = some bytes → part <+: bytes → part ≠ bytes →
      failure engine heap part ≠ some .inElement → readValue engine heap part = none := by
  have hgeneral : ∀ heap bytes, failure engine heap bytes ≠ none →
      failure engine heap bytes ≠ some .inElement → readValue engine heap bytes = none := by
    intro heap bytes hnone helement
    match hfailure : failure engine heap bytes with
    | none => exact absurd hfailure hnone
    | some .inElement => exact absurd hfailure helement
    | some .outside => exact readValue_of_failure hfailure
  refine ⟨hgeneral, ?_⟩
  intro g bytes part heap hone h hpart hne helement
  exact hgeneral heap part (failure_of_part g hone h hpart hne heap) helement

/-- A Map from itself to a number. -/
def selfKeyed : Graph Graph.bare :=
  .ofHeap [.map [(.object 0, .number (.box 0))]] [.object 0] (by simp)
    (by simp [Obj.Lawful, Obj.children, Obj.items, List.reduceOption, normalizeKey])

theorem selfKeyed_part_rejected :
    readValue Graph.bare [] [0xFF, 1, 0x0B, 1, 0, 0, 0, 8, 0, 0, 0, 0, 5, 0, 0] = none ∧
      readValue Graph.bare [] [0xFF, 1, 0x0B, 1, 0, 0, 0, 8, 1, 0, 0, 0, 1] = none := by
  constructor
  · exact (malformed_rejected Graph.bare).2 selfKeyed
      [0xFF, 1, 0x0B, 1, 0, 0, 0, 8, 0, 0, 0, 0, 5, 0, 0, 0, 0, 0, 0, 0, 0] _ [] rfl (by decide)
      (by decide) (by decide) (by decide)
  · exact (malformed_rejected Graph.bare).1 [] _ (by decide) (by decide)

/-- An array of one number. -/
def oneElement : Graph Graph.bare :=
  .ofHeap [.array [some (.number (.box 0))]] [.object 0] (by simp)
    (by simp [Obj.Lawful, Obj.children, Obj.items, List.reduceOption])

/-- Cut after the tag of its element, the array is accepted with a hole. -/
theorem oneElement_part_accepted :
    oneElement.serialized = some [0xFF, 1, 9, 1, 0, 0, 0, 5, 0, 0, 0, 0, 0, 0, 0, 0] ∧
      failure Graph.bare [] [0xFF, 1, 9, 1, 0, 0, 0, 5] = some .inElement ∧
      readValue Graph.bare [] [0xFF, 1, 9, 1, 0, 0, 0, 5] = some (.object 0) ∧
      (deserialize Graph.bare [] [0xFF, 1, 9, 1, 0, 0, 0, 5] 1).2.heap = [.array [none]] := by
  decide

end Slag.V8
