import Mathlib.Data.List.Basic

/-!
Computations over a state that may fail and keep what they changed when they do.
-/

namespace Slag

/-- The outcome, and the state in either case. -/
def Fallible (S ε α : Type) : Type :=
  S → Except ε α × S

namespace Fallible

variable {S ε α β : Type}

instance : Monad (Fallible S ε) where
  pure a := fun s => (.ok a, s)
  bind x f := fun s =>
    match x s with
    | (.ok a, s) => f a s
    | (.error e, s) => (.error e, s)

def fail (e : ε) : Fallible S ε α :=
  fun s => (.error e, s)

def update (f : S → S) : Fallible S ε Unit :=
  fun s => (.ok (), f s)

def step (f : S → Except ε α × S) : Fallible S ε α :=
  f

/-- A computation that is chosen by the state. -/
def withState (f : S → Fallible S ε α) : Fallible S ε α :=
  fun s => f s s

/-- A part that only reads the state. -/
def read (f : S → Except ε α) : Fallible S ε α :=
  fun s => (f s, s)

/-- The same computation with other errors. -/
def mapFailure {δ : Type} (f : ε → δ) (x : Fallible S ε α) : Fallible S δ α :=
  fun s => ((x s).1.mapError f, (x s).2)

variable {x : Fallible S ε α} {f : α → Fallible S ε β} {s : S} {a : α} {e : ε} {l : List α}

theorem bind_ok {s s' : S} (h : x s = (.ok a, s')) : (x >>= f) s = f a s' := by
  change (match x s with | (.ok a, s) => f a s | (.error e, s) => (.error e, s)) = _
  rw [h]

theorem bind_error {s s' : S} (h : x s = (.error e, s')) : (x >>= f) s = (.error e, s') := by
  change (match x s with | (.ok a, s) => f a s | (.error e, s) => (.error e, s)) = _
  rw [h]

theorem bind_read_ok {f : S → Except ε α} {g : α → Fallible S ε β} (h : f s = .ok a) :
    (read f >>= g) s = g a s :=
  bind_ok (congrArg (·, s) h)

theorem bind_read_error {f : S → Except ε α} {g : α → Fallible S ε β} (h : f s = .error e) :
    (read f >>= g) s = (.error e, s) :=
  bind_error (congrArg (·, s) h)

instance : LawfulMonad (Fallible S ε) := by
  refine LawfulMonad.mk' _ (fun x => ?_) (fun _ _ => rfl) (fun x f g => ?_)
  · funext s
    change (match x s with | (.ok a, s) => (.ok a, s) | (.error e, s) => (.error e, s)) = x s
    rcases x s with ⟨r, s'⟩
    cases r <;> rfl
  · funext s
    change (match (match x s with | (.ok a, s) => f a s | (.error e, s) => (.error e, s)) with
        | (.ok b, s) => g b s | (.error e, s) => (.error e, s)) =
      (match x s with | (.ok a, s) => (f a >>= g) s | (.error e, s) => (.error e, s))
    rcases x s with ⟨r, s'⟩
    cases r <;> rfl

/-- A computation ends in one of two ways. -/
theorem cases (x : Fallible S ε α) (s : S) :
    (∃ a s', x s = (.ok a, s')) ∨ ∃ e s', x s = (.error e, s') := by
  cases h : x s with
  | mk r s' =>
      cases r with
      | ok a => exact .inl ⟨a, s', rfl⟩
      | error e => exact .inr ⟨e, s', rfl⟩

theorem forM_cons (f : α → Fallible S ε Unit) (a : α) (l : List α) :
    (a :: l).forM f = f a >>= fun _ => l.forM f :=
  rfl

/-- A computation that ends with a change of the state. -/
theorem bind_update_ok {g : α → S → S} {s s' : S} (h : (x >>= fun a => update (g a)) s = (.ok (), s')) :
    ∃ a s₁, x s = (.ok a, s₁) ∧ s' = g a s₁ := by
  rcases Fallible.cases x s with ⟨a, s₁, hx⟩ | ⟨e, s₁, hx⟩
  · rw [bind_ok hx] at h
    exact ⟨a, s₁, hx, (Prod.mk.inj h).2.symm⟩
  · rw [bind_error hx] at h
    cases (Prod.mk.inj h).1

theorem bind_update_error {g : α → S → S} {s s' : S}
    (h : (x >>= fun a => update (g a)) s = (.error e, s')) : x s = (.error e, s') := by
  rcases Fallible.cases x s with ⟨a, s₁, hx⟩ | ⟨e', s₁, hx⟩
  · rw [bind_ok hx] at h
    cases (Prod.mk.inj h).1
  · rw [bind_error hx] at h
    cases h
    exact hx

/-- Each round of a loop that goes through counts. -/
theorem forM_counts {P : Nat → S → Prop} {f : α → Fallible S ε Unit}
    (hf : ∀ a n s s', P n s → f a s = (.ok (), s') → P (n + 1) s') {n : Nat} {s s' : S} (h : P n s)
    (hrun : l.forM f s = (.ok (), s')) : P (n + l.length) s' := by
  induction l generalizing n s with
  | nil =>
      cases hrun
      exact h
  | cons a l ih =>
      rw [forM_cons] at hrun
      rcases Fallible.cases (f a) s with ⟨⟨⟩, s₁, hfirst⟩ | ⟨e, s₁, hfirst⟩
      · rw [bind_ok hfirst] at hrun
        have hrest := ih (hf a n s s₁ h hfirst) hrun
        rwa [Nat.add_assoc, Nat.add_comm 1] at hrest
      · rw [bind_error hfirst] at hrun
        cases (Prod.mk.inj hrun).1

/-- A loop goes through, or fails at one of its elements. -/
theorem forM_cases (f : α → Fallible S ε Unit) (l : List α) (s : S) :
    (∃ s', l.forM f s = (.ok (), s')) ∨ ∃ before a after s₁ e s', l = before ++ a :: after ∧
      before.forM f s = (.ok (), s₁) ∧ f a s₁ = (.error e, s') ∧ l.forM f s = (.error e, s') := by
  induction l generalizing s with
  | nil => exact .inl ⟨s, rfl⟩
  | cons a l ih =>
      rcases Fallible.cases (f a) s with ⟨⟨⟩, s₁, h⟩ | ⟨e, s₁, h⟩
      · rw [forM_cons, bind_ok h]
        rcases ih s₁ with ⟨s', hrest⟩ | ⟨before, b, after, s₂, e, s', rfl, hbefore, hb, hrest⟩
        · exact .inl ⟨s', hrest⟩
        · refine .inr ⟨a :: before, b, after, s₂, e, s', rfl, ?_, hb, hrest⟩
          rw [forM_cons, bind_ok h, hbefore]
      · refine .inr ⟨[], a, l, s, e, s₁, rfl, rfl, h, ?_⟩
        rw [forM_cons, bind_error h]

/-- An invariant of the state that also a failure keeps. -/
def Keeps (P : S → Prop) (x : Fallible S ε α) : Prop :=
  ∀ s, P s → P (x s).2

namespace Keeps

variable {P : S → Prop}

theorem pure (a : α) : Keeps P (Pure.pure a : Fallible S ε α) :=
  fun _ h => h

theorem fail (e : ε) : Keeps P (Fallible.fail e : Fallible S ε α) :=
  fun _ h => h

theorem read (f : S → Except ε α) : Keeps P (Fallible.read f) :=
  fun _ h => h

theorem update {f : S → S} (hf : ∀ s, P s → P (f s)) : Keeps P (Fallible.update f : Fallible S ε Unit) :=
  hf

theorem mapFailure {δ : Type} {f : ε → δ} (hx : Keeps P x) :
    Keeps P (x.mapFailure f) :=
  hx

theorem bind (hx : Keeps P x) (hf : ∀ a, Keeps P (f a)) : Keeps P (x >>= f) := by
  intro s hs
  have hafter := hx s hs
  rcases Fallible.cases x s with ⟨a, s', h⟩ | ⟨e, s', h⟩
  · rw [h] at hafter
    rw [bind_ok h]
    exact hf a s' hafter
  · rw [h] at hafter
    rw [bind_error h]
    exact hafter

theorem foldlM {f : β → α → Fallible S ε β} (hf : ∀ b, ∀ a ∈ l, Keeps P (f b a)) (b : β) :
    Keeps P (l.foldlM f b) := by
  induction l generalizing b with
  | nil => exact pure b
  | cons a l ih =>
      rw [List.foldlM_cons]
      refine bind (hf b a List.mem_cons_self) fun b' => ih (fun b a' ha' => ?_) b'
      exact hf b a' (List.mem_cons_of_mem _ ha')

theorem forM {f : α → Fallible S ε Unit} (hf : ∀ a ∈ l, Keeps P (f a)) :
    Keeps P (l.forM f) := by
  induction l with
  | nil => exact pure ()
  | cons a l ih =>
      refine bind (hf a List.mem_cons_self) fun _ => ih fun a' ha' => ?_
      exact hf a' (List.mem_cons_of_mem _ ha')

theorem mapM (hf : ∀ a ∈ l, Keeps P (f a)) :
    Keeps P (l.mapM f) := by
  induction l with
  | nil => exact pure []
  | cons a l ih =>
      rw [List.mapM_cons]
      refine bind (hf a List.mem_cons_self) fun b => bind (ih fun a' ha' => ?_) fun _ => pure _
      exact hf a' (List.mem_cons_of_mem _ ha')

end Keeps

/-- From the states of `P`, either outcome is in a state related by `R`, and a
result is one of `Q`. -/
def Runs (R : S → S → Prop) (P : S → Prop) (x : Fallible S ε α) (Q : α → S → Prop) : Prop :=
  ∀ s, P s → R s (x s).2 ∧ ∀ a, (x s).1 = .ok a → Q a (x s).2

namespace Runs

variable {R : S → S → Prop} {P : S → Prop} {Q : α → S → Prop}

theorem pure (hR : ∀ s, P s → R s s) (hQ : ∀ s, P s → Q a s) :
    Runs R P (Pure.pure a : Fallible S ε α) Q := by
  refine fun s hs => ⟨hR s hs, fun a' ha' => ?_⟩
  cases ha'
  exact hQ s hs

theorem fail (hR : ∀ s, P s → R s s) : Runs R P (Fallible.fail e : Fallible S ε α) Q :=
  fun s hs => ⟨hR s hs, nofun⟩

theorem read {f : S → Except ε α} (hR : ∀ s, P s → R s s) (hQ : ∀ s a, P s → f s = .ok a → Q a s) :
    Runs R P (Fallible.read f) Q :=
  fun s hs => ⟨hR s hs, fun a ha => hQ s a hs ha⟩

/-- Where a run ends. -/
theorem ends {s s' : S} {r : Except ε α} (h : Runs R P x Q) (hs : P s) (hrun : x s = (r, s')) :
    R s s' := by
  have hR := (h s hs).1
  rwa [hrun] at hR

theorem imp {P' : S → Prop} {Q' : α → S → Prop} (h : Runs R P x Q) (hP : ∀ s, P' s → P s)
    (hQ : ∀ a s, Q a s → Q' a s) : Runs R P' x Q' :=
  fun s hs => ⟨(h s (hP s hs)).1, fun a ha => hQ a _ ((h s (hP s hs)).2 a ha)⟩

/-- What the relation keeps may be assumed throughout. -/
theorem frame {F : S → Prop} (h : Runs R P x Q) (hF : ∀ s s', R s s' → F s → F s') :
    Runs R (fun s => P s ∧ F s) x (fun a s => Q a s ∧ F s) :=
  fun s hs => ⟨(h s hs.1).1, fun a ha => ⟨(h s hs.1).2 a ha, hF s _ (h s hs.1).1 hs.2⟩⟩

theorem mapFailure {δ : Type} {f : ε → δ} (h : Runs R P x Q) :
    Runs R P (x.mapFailure f) Q := by
  refine fun s hs => ⟨(h s hs).1, fun a ha => (h s hs).2 a ?_⟩
  simp only [Fallible.mapFailure] at ha
  cases hx : (x s).1 with
  | error e => simp [hx, Except.mapError] at ha
  | ok b =>
      simp only [hx, Except.mapError] at ha
      cases ha
      rfl

theorem withState {f : S → Fallible S ε α} (h : ∀ s, P s → Runs R (fun s' => s' = s) (f s) Q) :
    Runs R P (Fallible.withState f) Q :=
  fun s hs => h s hs s rfl

variable (trans : ∀ s s' s'', R s s' → R s' s'' → R s s'')

include trans

theorem bind {Q' : β → S → Prop} (hx : Runs R P x Q) (hf : ∀ a, Runs R (Q a) (f a) Q') :
    Runs R P (x >>= f) Q' := by
  intro s hs
  obtain ⟨hR, hQ⟩ := hx s hs
  rcases Fallible.cases x s with ⟨a, s', h⟩ | ⟨e, s', h⟩
  · rw [h] at hR hQ
    rw [bind_ok h]
    obtain ⟨hR', hQ'⟩ := hf a s' (hQ a rfl)
    exact ⟨trans _ _ _ hR hR', hQ'⟩
  · rw [h] at hR
    rw [bind_error h]
    exact ⟨hR, nofun⟩

/-- An invariant of a loop, over the elements still to come. -/
theorem foldlM {I : β → S → Prop} {f : β → α → Fallible S ε β} (hrefl : ∀ b s, I b s → R s s)
    (hf : ∀ b, ∀ a ∈ l, Runs R (I b) (f b a) I) (b : β) :
    Runs R (I b) (l.foldlM f b) I := by
  induction l generalizing b with
  | nil => exact pure (hrefl b) fun _ h => h
  | cons a l ih =>
      rw [List.foldlM_cons]
      refine bind trans (hf b a List.mem_cons_self) fun b' => ih (fun b a' ha' => ?_) b'
      exact hf b a' (List.mem_cons_of_mem _ ha')

/-- An invariant of a loop over the elements already gone through. -/
theorem forM {I : S → Prop} {f : α → Fallible S ε Unit} (hrefl : ∀ s, I s → R s s)
    (hf : ∀ a ∈ l, Runs R I (f a) fun _ => I) : Runs R I (l.forM f) fun _ => I := by
  induction l with
  | nil => exact pure hrefl fun _ h => h
  | cons a l ih =>
      rw [forM_cons]
      exact bind trans (hf a List.mem_cons_self) fun _ => ih fun a' ha' =>
        hf a' (List.mem_cons_of_mem _ ha')

/-- Results that stay what they are while the loop goes on. -/
theorem mapM {Q : α → β → S → Prop} (hrefl : ∀ s, P s → R s s)
    (hstable : ∀ a b s s', R s s' → Q a b s → Q a b s')
    (hf : ∀ a ∈ l, Runs R P (f a) fun b s => P s ∧ Q a b s) :
    Runs R P (l.mapM f) fun bs s => P s ∧ List.Forall₂ (fun a b => Q a b s) l bs := by
  induction l with
  | nil =>
      rw [List.mapM_nil]
      exact pure hrefl fun s hs => ⟨hs, .nil⟩
  | cons a l ih =>
      rw [List.mapM_cons]
      refine bind trans (hf a List.mem_cons_self) fun b => ?_
      refine bind trans (frame (ih fun a' ha' => hf a' (List.mem_cons_of_mem _ ha')) (hstable a b))
        fun bs => ?_
      exact pure (fun s hs => hrefl s hs.1.1) fun s hs => ⟨hs.1.1, .cons hs.2 hs.1.2⟩

end Runs

/-- An invariant that a computation keeps from the states of `fit` alone; one
that succeeds keeps it. -/
structure KeepsWhen (P fit : S → Prop) (x : Fallible S ε α) : Prop where
  iff : ∀ s, P s → (P (x s).2 ↔ fit s)
  ok : ∀ s a s', P s → x s = (.ok a, s') → P s'

/-- The steps of a fold that is run up to each of them are all of `fit`. -/
def StepsFit (fit : β → α → S → Prop) (f : β → α → Fallible S ε β) (l : List α) (b : β) (s : S) :
    Prop :=
  ∀ before a after, l = before ++ a :: after → ∀ b' s', before.foldlM f b s = (.ok b', s') → fit b' a s'

theorem stepsFit_cons {fit : β → α → S → Prop} {f : β → α → Fallible S ε β} {b : β} :
    StepsFit fit f (a :: l) b s ↔
      fit b a s ∧ ∀ b' s', f b a s = (.ok b', s') → StepsFit fit f l b' s' := by
  constructor
  · intro h
    refine ⟨h [] a l rfl b s rfl, fun b' s' hfirst before a' after hl b'' s'' hrun => ?_⟩
    refine h (a :: before) a' after (by rw [hl, List.cons_append]) b'' s'' ?_
    rw [List.foldlM_cons, bind_ok hfirst, hrun]
  · intro ⟨hfirst, hrest⟩ before a' after hl b'' s'' hrun
    cases before with
    | nil =>
        obtain ⟨rfl, rfl⟩ := List.cons.inj hl
        obtain ⟨hb, rfl⟩ := Prod.mk.inj hrun
        cases hb
        exact hfirst
    | cons a₀ before =>
        obtain ⟨rfl, rfl⟩ := List.cons.inj hl
        rw [List.foldlM_cons] at hrun
        rcases Fallible.cases (f b a) s with ⟨b', s', h⟩ | ⟨e, s', h⟩
        · rw [bind_ok h] at hrun
          exact hrest b' s' h before a' after rfl b'' s'' hrun
        · rw [bind_error h] at hrun
          cases (Prod.mk.inj hrun).1

namespace KeepsWhen

variable {P fit : S → Prop}

theorem of_keeps (h : Keeps P x) : KeepsWhen P (fun _ => True) x where
  iff := fun s hs => ⟨fun _ => trivial, fun _ => h s hs⟩
  ok := fun s a s' hs hx => by
    have hafter := h s hs
    rwa [hx] at hafter

theorem bind {next : α → S → Prop} (hx : KeepsWhen P fit x) (hf : ∀ a, KeepsWhen P (next a) (f a)) :
    KeepsWhen P (fun s => fit s ∧ ∀ a s', x s = (.ok a, s') → next a s') (x >>= f) := by
  constructor
  · intro s hs
    have hfit := hx.iff s hs
    rcases Fallible.cases x s with ⟨a, s', h⟩ | ⟨e, s', h⟩
    · have hs' := hx.ok s a s' hs h
      rw [h] at hfit
      rw [bind_ok h, (hf a).iff s' hs']
      constructor
      · intro hnext
        refine ⟨hfit.1 hs', fun a' s'' h' => ?_⟩
        obtain ⟨ha, rfl⟩ := Prod.mk.inj (h.symm.trans h')
        cases ha
        exact hnext
      · exact fun hboth => hboth.2 a s' h
    · rw [h] at hfit
      rw [bind_error h, hfit]
      refine ⟨fun hs' => ⟨hs', fun a s'' h' => ?_⟩, fun hboth => hboth.1⟩
      cases (Prod.mk.inj (h.symm.trans h')).1
  · intro s b s' hs hrun
    rcases Fallible.cases x s with ⟨a, s'', h⟩ | ⟨e, s'', h⟩
    · rw [bind_ok h] at hrun
      exact (hf a).ok s'' b s' (hx.ok s a s'' hs h) hrun
    · rw [bind_error h] at hrun
      cases (Prod.mk.inj hrun).1

theorem foldlM {f : β → α → Fallible S ε β} {fit : β → α → S → Prop}
    (hf : ∀ b a, KeepsWhen P (fit b a) (f b a)) (l : List α) (b : β) :
    KeepsWhen P (StepsFit fit f l b) (l.foldlM f b) := by
  induction l generalizing b with
  | nil =>
      have hnil : ∀ s, StepsFit fit f ([] : List α) b s := by
        intro s before a after hl
        simp at hl
      exact ⟨fun s hs => ⟨fun _ => hnil s, fun _ => hs⟩, (of_keeps (Keeps.pure b)).ok⟩
  | cons a l ih =>
      rw [List.foldlM_cons]
      have hboth := (hf b a).bind fun b' => ih b'
      exact ⟨fun s hs => (hboth.iff s hs).trans stepsFit_cons.symm, hboth.ok⟩

end KeepsWhen

end Fallible

end Slag
