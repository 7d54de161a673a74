import Mathlib.Logic.Relation

/-!
A search in depth that settles each node on the way out and counts a node of the
path it is on as a dead end. Every node has items in an order, ends and further
nodes, and the first that leads to an end decides.
-/

namespace Slag.Settling

open Relation (ReflTransGen)

/-- What a node meets. -/
inductive Item (V : Type) where
  | hit
  | node (v : V)
  deriving DecidableEq, Repr

variable {V : Type} (items : V → List (Item V))

def Edge (v w : V) : Prop :=
  .node w ∈ items v

def Reaches (v : V) : Prop :=
  ∃ w, ReflTransGen (Edge items) v w ∧ .hit ∈ items w

/-- An item that leads to an end and not back to the path. -/
def Live (path : List V) : Item V → Prop
  | .hit => True
  | .node w => Reaches items w ∧ w ∉ path

/-- The first of the items of a node that is live. -/
def First (path : List V) (v : V) (item : Item V) : Prop :=
  ∃ before after, items v = before ++ item :: after ∧ Live items path item ∧
    ∀ i ∈ before, ¬ Live items path i

/-- Following the first live item from each node there is an end, or a node that was
settled before; the nodes on the way. -/
inductive Walk (settled : List V) : List V → V → List V → Prop where
  | hit {path : List V} {v : V} : First items (v :: path) v .hit → Walk settled path v [v]
  | settled {path : List V} {v w : V} : First items (v :: path) v (.node w) → w ∈ settled →
      Walk settled path v [v]
  | next {path : List V} {v w : V} {walk : List V} : First items (v :: path) v (.node w) →
      w ∉ settled → Walk settled (v :: path) w walk → Walk settled path v (v :: walk)

/-- The walks from the roots in order, from those of them that reach an end and are not
settled yet, all succeed; the nodes that are settled. -/
inductive Settles : List V → List V → Prop where
  | nil : Settles [] []
  | skip {roots settled : List V} {v : V} : Settles roots settled → ¬ Reaches items v ∨ v ∈ settled →
      Settles (roots ++ [v]) settled
  | walk {roots settled walk : List V} {v : V} : Settles roots settled → Reaches items v →
      v ∉ settled → Walk items settled [] v walk → Settles (roots ++ [v]) (walk ++ settled)

variable {items}

theorem Reaches.of_path {v w : V} (hpath : ReflTransGen (Edge items) v w) (h : Reaches items w) :
    Reaches items v := by
  obtain ⟨e, he, hhit⟩ := h
  exact ⟨e, hpath.trans he, hhit⟩

theorem First.unique {path : List V} {v : V} {i j : Item V} (hi : First items path v i)
    (hj : First items path v j) : i = j := by
  obtain ⟨before, after, heq, hlive, hdead⟩ := hi
  obtain ⟨before', after', heq', hlive', hdead'⟩ := hj
  rw [heq] at heq'
  rcases List.append_eq_append_iff.mp heq' with ⟨l, hl, hr⟩ | ⟨l, hl, hr⟩
  · cases l with
    | nil => exact (List.cons.inj hr).1
    | cons a l =>
        obtain ⟨rfl, -⟩ := List.cons.inj hr
        exact absurd hlive (hdead' _ (by simp [hl]))
  · cases l with
    | nil => exact (List.cons.inj hr).1.symm
    | cons a l =>
        obtain ⟨rfl, -⟩ := List.cons.inj hr
        exact absurd hlive' (hdead _ (by simp [hl]))

/-- A walk goes on from the first live item, and there is one. -/
theorem Walk.inv {settled path walk : List V} {v : V} (h : Walk items settled path v walk) :
    First items (v :: path) v .hit ∨ ∃ w, First items (v :: path) v (.node w) ∧
      (w ∈ settled ∨ ∃ walk, Walk items settled (v :: path) w walk) := by
  cases h with
  | hit h => exact .inl h
  | settled h hw => exact .inr ⟨_, h, .inl hw⟩
  | next h _ hwalk => exact .inr ⟨_, h, .inr ⟨_, hwalk⟩⟩

theorem Walk.unique {settled path walk walk' : List V} {v : V} (h : Walk items settled path v walk)
    (h' : Walk items settled path v walk') : walk = walk' := by
  induction h generalizing walk' with
  | hit hfirst =>
      cases h' with
      | hit _ => rfl
      | settled hfirst' _ => cases hfirst.unique hfirst'
      | next hfirst' _ _ => cases hfirst.unique hfirst'
  | settled hfirst hw =>
      cases h' with
      | hit _ => rfl
      | settled _ _ => rfl
      | next hfirst' hw' _ =>
          cases hfirst.unique hfirst'
          exact absurd hw hw'
  | next hfirst hw _ ih =>
      cases h' with
      | hit hfirst' => cases hfirst.unique hfirst'
      | settled hfirst' hw' =>
          cases hfirst.unique hfirst'
          exact absurd hw' hw
      | next hfirst' _ hwalk' =>
          cases hfirst.unique hfirst'
          rw [ih hwalk']

theorem Settles.inv {roots settled : List V} {v : V} (h : Settles items (roots ++ [v]) settled) :
    ∃ before, Settles items roots before ∧
      ((¬ Reaches items v ∨ v ∈ before) ∧ settled = before ∨
        ∃ walk, Reaches items v ∧ v ∉ before ∧ Walk items before [] v walk ∧
          settled = walk ++ before) := by
  generalize hroots : roots ++ [v] = all at h
  cases h with
  | nil => simp at hroots
  | skip h hskip =>
      obtain ⟨rfl, hv⟩ := List.append_inj' hroots rfl
      cases hv
      exact ⟨_, h, .inl ⟨hskip, rfl⟩⟩
  | walk h hreaches hnot hwalk =>
      obtain ⟨rfl, hv⟩ := List.append_inj' hroots rfl
      cases hv
      exact ⟨_, h, .inr ⟨_, hreaches, hnot, hwalk, rfl⟩⟩

theorem Settles.unique {roots settled settled' : List V} (h : Settles items roots settled)
    (h' : Settles items roots settled') : settled = settled' := by
  induction h generalizing settled' with
  | nil =>
      generalize hroots : ([] : List V) = all at h'
      cases h' with
      | nil => rfl
      | skip _ _ => simp at hroots
      | walk _ _ _ _ => simp at hroots
  | skip h hskip ih =>
      obtain ⟨before, hbefore, ⟨-, rfl⟩ | ⟨walk, hreaches, hnot, -, -⟩⟩ := h'.inv
      · exact ih hbefore
      · rw [ih hbefore] at hskip
        rcases hskip with hskip | hskip
        · exact absurd hreaches hskip
        · exact absurd hskip hnot
  | walk h hreaches hnot hwalk ih =>
      obtain ⟨before, hbefore, ⟨hskip, -⟩ | ⟨walk, -, -, hwalk', rfl⟩⟩ := h'.inv
      · rw [ih hbefore] at hnot
        rcases hskip with hskip | hskip
        · exact absurd hreaches hskip
        · exact absurd hskip hnot
      · rw [ih hbefore] at hwalk ⊢
        rw [hwalk.unique hwalk']

end Slag.Settling
