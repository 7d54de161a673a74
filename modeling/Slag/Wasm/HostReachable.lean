import Slag.Lib.Settling
import Slag.Wasm.Bodies
import Slag.Wasm.World
import Mathlib.Data.Finset.Card

/-!
Which bodies of a module reach a host function through direct calls. The search
settles a body on the way out, so a body that is left while the callee that leads on
is still on the path is settled as one that does not.
-/

namespace Slag.Wasm

open Relation (ReflTransGen)
open Settling (Item Edge Reaches Live First Walk Settles)

inductive Visit where
  | unvisited | onPath | resolved
  deriving DecidableEq, Repr

structure Search where
  state : List Visit
  result : List Bool
  deriving DecidableEq, Repr

/-! ## The states of a search -/

namespace Search

def enter (s : Search) (defined : Nat) : Search :=
  { s with state := s.state.set defined .onPath }

def settle (s : Search) (defined : Nat) (reachable : Bool) : Search :=
  ⟨s.state.set defined .resolved, s.result.set defined reachable⟩

/-- The bodies that no search was at. -/
def unvisited (s : Search) : Finset Nat :=
  (Finset.range s.state.length).filter fun v => s.state[v]? = some .unvisited

end Search

/-- What a search leaves of the states there were: only bodies of `T` that were not
visited change, and they are settled. -/
structure After (T : Nat → Prop) (s s' : Search) : Prop where
  states : s'.state.length = s.state.length
  results : s'.result.length = s.result.length
  onPath : ∀ u : Nat, s'.state[u]? = some .onPath ↔ s.state[u]? = some .onPath
  resolved : ∀ u : Nat, s.state[u]? = some .resolved →
    s'.state[u]? = some .resolved ∧ s'.result[u]? = s.result[u]?
  frame : ∀ u : Nat, ¬ T u → s'.state[u]? = s.state[u]? ∧ s'.result[u]? = s.result[u]?

variable {v : Nat} {reachable : Bool}

namespace After

variable {T T' : Nat → Prop} {s s' s'' : Search}

theorem refl (T : Nat → Prop) (s : Search) : After T s s :=
  ⟨rfl, rfl, fun _ => Iff.rfl, fun _ h => ⟨h, rfl⟩, fun _ _ => ⟨rfl, rfl⟩⟩

theorem trans (h : After T s s') (h' : After T s' s'') : After T s s'' where
  states := h'.states.trans h.states
  results := h'.results.trans h.results
  onPath := fun u => (h'.onPath u).trans (h.onPath u)
  resolved := fun u hu => by
    obtain ⟨hstate, hresult⟩ := h.resolved u hu
    obtain ⟨hstate', hresult'⟩ := h'.resolved u hstate
    exact ⟨hstate', hresult'.trans hresult⟩
  frame := fun u hu =>
    ⟨(h'.frame u hu).1.trans (h.frame u hu).1, (h'.frame u hu).2.trans (h.frame u hu).2⟩

theorem mono (h : After T s s') (hT : ∀ u, T u → T' u) : After T' s s' :=
  { h with frame := fun u hu => h.frame u fun hu' => hu (hT u hu') }

theorem unvisited (h : After T s s') {u : Nat} (hu : s'.state[u]? = some .unvisited) :
    s.state[u]? = some .unvisited := by
  cases hs : s.state[u]? with
  | none =>
      rw [List.getElem?_eq_none_iff, ← h.states] at hs
      rw [List.getElem?_eq_none_iff.mpr hs] at hu
      cases hu
  | some visit =>
      cases visit with
      | unvisited => rfl
      | onPath =>
          rw [(h.onPath u).mpr hs] at hu
          cases hu
      | resolved =>
          rw [(h.resolved u hs).1] at hu
          cases hu

theorem card_le (h : After T s s') : s'.unvisited.card ≤ s.unvisited.card := by
  refine Finset.card_le_card fun u hu => ?_
  rw [Search.unvisited, Finset.mem_filter, Finset.mem_range] at hu ⊢
  exact ⟨h.states ▸ hu.1, h.unvisited hu.2⟩

/-- Between entering a body and settling it. -/
theorem of_enter (hv : s.state[v]? = some .unvisited) (h : After T (s.enter v) s') (hT : T v) :
    After T s (s'.settle v reachable) where
  states := by simpa [Search.settle, Search.enter] using h.states
  results := by simpa [Search.settle, Search.enter] using h.results
  onPath := fun u => by
    have hlt := (List.getElem?_eq_some_iff.mp hv).1
    have hu := h.onPath u
    rcases eq_or_ne v u with rfl | hne
    · have hlt' : v < s'.state.length := by rw [h.states]; simpa [Search.enter] using hlt
      simp [Search.settle, hlt', hv]
    · rw [Search.enter, List.getElem?_set_ne hne] at hu
      rw [Search.settle, List.getElem?_set_ne hne]
      exact hu
  resolved := fun u hu => by
    have hne : v ≠ u := by
      rintro rfl
      rw [hv] at hu
      cases hu
    have hafter := h.resolved u (by rw [Search.enter, List.getElem?_set_ne hne]; exact hu)
    rw [Search.settle, List.getElem?_set_ne hne, List.getElem?_set_ne hne]
    exact hafter
  frame := fun u hu => by
    have hne : v ≠ u := by
      rintro rfl
      exact hu hT
    have hafter := h.frame u hu
    rw [Search.enter, List.getElem?_set_ne hne] at hafter
    rw [Search.settle, List.getElem?_set_ne hne, List.getElem?_set_ne hne]
    exact hafter

end After

variable {s : Search}

theorem Search.card_enter (hv : s.state[v]? = some .unvisited) :
    (s.enter v).unvisited.card < s.unvisited.card := by
  have hlt := (List.getElem?_eq_some_iff.mp hv).1
  refine Finset.card_lt_card (Finset.ssubset_iff_subset_ne.mpr ⟨fun u hu => ?_, fun heq => ?_⟩)
  · rw [Search.unvisited, Finset.mem_filter, Finset.mem_range] at hu ⊢
    rcases eq_or_ne v u with rfl | hne
    · exact ⟨hlt, hv⟩
    · rw [Search.enter, List.getElem?_set_ne hne, List.length_set] at hu
      exact hu
  · have hmem : v ∈ s.unvisited := by
      rw [Search.unvisited, Finset.mem_filter, Finset.mem_range]
      exact ⟨hlt, hv⟩
    rw [← heq, Search.unvisited, Finset.mem_filter] at hmem
    simp [Search.enter, hlt] at hmem

/-! ## The search -/

/-- What the search reads: the host functions, the flags of the instances there are
already, and the new instance's module and function index space. -/
structure Callees where
  hostFuncs : List HostFunc
  hostReachable : List (List Bool)
  module : Module
  funcs : List FuncTarget

def callee : Instr → Option Nat
  | .call index | .returnCall index => some index
  | _ => none

namespace Callees

variable (c : Callees)

def imported : Nat := c.module.importedFuncs.length

def body (defined : Nat) : List Instr :=
  ((c.module.bodies[defined]?).map FuncBody.body).getD []

/-- An import that is a host function with a token, or is itself flagged. -/
def parks (index : Nat) : Bool :=
  match c.funcs[index]? with
  | some (.host id) => (c.hostFuncs[id]?).any fun host => host.token.isSome
  | some (.owned inst defined) =>
      ((c.hostReachable[inst]?).bind fun flags => flags[defined]?).getD false
  | none => false

/-- The loop over a body's instructions, with the search of the bodies they call. -/
def scan (visit : Nat → Search → Option (Bool × Search)) :
    List Instr → Search → Option (Bool × Search)
  | [], s => some (false, s)
  | instr :: rest, s =>
      match callee instr with
      | none => scan visit rest s
      | some index =>
          if index < c.imported then
            if c.parks index then some (true, s) else scan visit rest s
          else
            match visit (index - c.imported) s with
            | some (false, s) => scan visit rest s
            | answer => answer

/-- No answer where the fuel is too little or an index is out of range. -/
def hostReachableOf : Nat → Nat → Search → Option (Bool × Search)
  | 0, _, _ => none
  | fuel + 1, defined, s =>
      match s.state[defined]? with
      | none => none
      | some .resolved => (s.result[defined]?).map (·, s)
      -- A back edge contributes nothing.
      | some .onPath => some (false, s)
      | some .unvisited =>
          (scan c (hostReachableOf fuel) (c.body defined)
            { s with state := s.state.set defined .onPath }).map fun (reachable, s) =>
              (reachable, ⟨s.state.set defined .resolved, s.result.set defined reachable⟩)

def start : Search :=
  ⟨List.replicate c.module.bodies.length .unvisited, List.replicate c.module.bodies.length false⟩

/-- The search from each of the bodies in turn. -/
def searchFrom (fuel : Nat) (roots : List Nat) : Option Search :=
  roots.foldlM (fun s defined => (c.hostReachableOf fuel defined s).map Prod.snd) c.start

def hostReachableBodies : Option (List Bool) :=
  (c.searchFrom (c.module.bodies.length + 1) (List.range c.module.bodies.length)).map Search.result

/-! ## Reachability -/

def Calls (defined other : Nat) : Prop :=
  ∃ index, (.call index ∈ c.body defined ∨ .returnCall index ∈ c.body defined) ∧
    c.imported ≤ index ∧ other = index - c.imported

/-- A host function with a token, or a function of an earlier instance whose flag is
true. -/
def Parks (index : Nat) : Prop :=
  (∃ id host token, c.funcs[index]? = some (.host id) ∧ c.hostFuncs[id]? = some host ∧
    host.token = some token) ∨
    ∃ inst defined flags, c.funcs[index]? = some (.owned inst defined) ∧
      c.hostReachable[inst]? = some flags ∧ flags[defined]? = some true

def CallsHost (defined : Nat) : Prop :=
  ∃ index, (.call index ∈ c.body defined ∨ .returnCall index ∈ c.body defined) ∧
    index < c.imported ∧ c.Parks index

/-- A path of direct calls leads to a host. -/
def ReachesHost (defined : Nat) : Prop :=
  ∃ last, ReflTransGen c.Calls defined last ∧ c.CallsHost last

/-! ## The calls of a body as items -/

def item (instr : Instr) : Option (Item Nat) :=
  match callee instr with
  | none => none
  | some index =>
      if index < c.imported then if c.parks index then some .hit else none
      else some (.node (index - c.imported))

def items (defined : Nat) : List (Item Nat) :=
  (c.body defined).filterMap c.item

variable {c}

theorem parks_iff (index : Nat) : c.parks index = true ↔ c.Parks index := by
  unfold parks Parks
  cases c.funcs[index]? with
  | none => simp
  | some target =>
      cases target with
      | host id => simp [Option.any_eq_true, Option.isSome_iff_exists]
      | owned inst defined => cases h : c.hostReachable[inst]? <;> simp [h, Option.getD_eq_iff]

theorem callee_eq_some {instr : Instr} {index : Nat} :
    callee instr = some index ↔ instr = .call index ∨ instr = .returnCall index := by
  cases instr <;> simp [callee]

theorem exists_callee {l : List Instr} {P : Nat → Prop} :
    (∃ instr ∈ l, ∃ index, callee instr = some index ∧ P index) ↔
      ∃ index, (.call index ∈ l ∨ .returnCall index ∈ l) ∧ P index := by
  constructor
  · rintro ⟨instr, hmem, index, hcallee, hP⟩
    rcases callee_eq_some.mp hcallee with rfl | rfl
    · exact ⟨index, .inl hmem, hP⟩
    · exact ⟨index, .inr hmem, hP⟩
  · rintro ⟨index, hmem | hmem, hP⟩
    · exact ⟨_, hmem, index, rfl, hP⟩
    · exact ⟨_, hmem, index, rfl, hP⟩

variable {defined : Nat} {visit : Nat → Search → Option (Bool × Search)} {T : Nat → Prop} {r : Bool}

theorem mem_items {i : Item Nat} : i ∈ c.items defined ↔
    ∃ instr ∈ c.body defined, ∃ index, callee instr = some index ∧
      (index < c.imported ∧ c.parks index = true ∧ i = .hit ∨
        c.imported ≤ index ∧ i = .node (index - c.imported)) := by
  rw [items, List.mem_filterMap]
  refine exists_congr fun instr => and_congr_right fun _ => ?_
  rw [item]
  cases callee instr with
  | none => simp
  | some index =>
      rcases Nat.lt_or_ge index c.imported with hlt | hge
      · cases hparks : c.parks index <;> simp [hlt, hparks, eq_comm (a := i)]
      · simp [hge, hge.not_gt, eq_comm (a := i)]

theorem hit_mem : .hit ∈ c.items defined ↔ c.CallsHost defined := by
  rw [mem_items, exists_callee, CallsHost]
  simp [parks_iff]

theorem edge_iff {defined other : Nat} : Edge c.items defined other ↔ c.Calls defined other := by
  rw [Edge, mem_items, exists_callee, Calls]
  simp

theorem reaches_iff (defined : Nat) : Reaches c.items defined ↔ c.ReachesHost defined := by
  have hedge : Edge c.items = c.Calls := by
    funext v w
    exact propext edge_iff
  rw [Reaches, ReachesHost, hedge]
  simp only [hit_mem]

/-! ## The search over items -/

def scanItems (visit : Nat → Search → Option (Bool × Search)) :
    List (Item Nat) → Search → Option (Bool × Search)
  | [], s => some (false, s)
  | .hit :: _, s => some (true, s)
  | .node other :: rest, s =>
      match visit other s with
      | some (false, s) => scanItems visit rest s
      | answer => answer

theorem scan_eq (visit : Nat → Search → Option (Bool × Search)) (l : List Instr) (s : Search) :
    c.scan visit l s = scanItems visit (l.filterMap c.item) s := by
  induction l generalizing s with
  | nil => rfl
  | cons instr rest ih =>
      rw [scan, List.filterMap_cons, item]
      cases callee instr with
      | none => exact ih s
      | some index =>
          dsimp only
          split
          · split
            · rfl
            · exact ih s
          · rw [scanItems]
            cases visit (index - c.imported) s with
            | none => rfl
            | some answer =>
                obtain ⟨reachable, s'⟩ := answer
                cases reachable with
                | false => exact ih s'
                | true => rfl

theorem hostReachableOf_unvisited {fuel v : Nat} (h : s.state[v]? = some .unvisited) :
    c.hostReachableOf (fuel + 1) v s =
      (scanItems (c.hostReachableOf fuel) (c.items v) (s.enter v)).map fun (reachable, s) =>
        (reachable, s.settle v reachable) := by
  rw [hostReachableOf, h]
  dsimp only
  rw [scan_eq]
  rfl

/-! ## The search ends -/

section total

variable {n : Nat} (hclosed : ∀ v w, Edge c.items v w → w < n)

/-- Every search of a body, from states with few bodies left, has an answer. -/
def Answers (c : Callees) (n : Nat) (visit : Nat → Search → Option (Bool × Search)) (left : Nat) :
    Prop :=
  ∀ v s, v < n → s.state.length = n → s.result.length = n → s.unvisited.card < left →
    ∃ reachable s', visit v s = some (reachable, s') ∧
      After (ReflTransGen (Edge c.items) v) s s' ∧
      (s.state[v]? ≠ some .onPath → s'.state[v]? = some .resolved)

theorem scanItems_answers {left : Nat} (hvisit : Answers c n visit left) (l : List (Item Nat))
    (s : Search) (hl : ∀ w, .node w ∈ l → w < n ∧ ∀ u, ReflTransGen (Edge c.items) w u → T u)
    (hstates : s.state.length = n) (hresults : s.result.length = n) (hleft : s.unvisited.card < left) :
    ∃ reachable s', scanItems visit l s = some (reachable, s') ∧ After T s s' := by
  induction l generalizing s with
  | nil => exact ⟨false, s, rfl, After.refl _ _⟩
  | cons i rest ih =>
      cases i with
      | hit => exact ⟨true, s, rfl, After.refl _ _⟩
      | node w =>
          obtain ⟨hw, hT⟩ := hl w List.mem_cons_self
          obtain ⟨reachable, s', hrun, hafter, -⟩ := hvisit w s hw hstates hresults hleft
          rw [scanItems, hrun]
          cases reachable with
          | true => exact ⟨true, s', rfl, hafter.mono hT⟩
          | false =>
              obtain ⟨reachable, s'', hrest, hafter'⟩ :=
                ih s' (fun w hw => hl w (List.mem_cons_of_mem _ hw)) (hafter.states.trans hstates)
                  (hafter.results.trans hresults) (hafter.card_le.trans_lt hleft)
              exact ⟨reachable, s'', hrest, (hafter.mono hT).trans hafter'⟩

include hclosed

theorem hostReachableOf_answers (fuel : Nat) : Answers c n (c.hostReachableOf fuel) fuel := by
  induction fuel with
  | zero => exact fun v s _ _ _ hleft => absurd hleft (Nat.not_lt_zero _)
  | succ fuel ih =>
      intro v s hv hstates hresults hleft
      cases hs : s.state[v]? with
      | none =>
          rw [List.getElem?_eq_none_iff] at hs
          omega
      | some visit =>
          cases visit with
          | onPath =>
              rw [hostReachableOf, hs]
              exact ⟨false, s, rfl, After.refl _ _, fun h => absurd rfl h⟩
          | resolved =>
              rw [hostReachableOf, hs]
              have hget := List.getElem?_eq_getElem (hresults.symm ▸ hv : v < s.result.length)
              dsimp only
              rw [hget]
              exact ⟨_, s, rfl, After.refl _ _, fun _ => hs⟩
          | unvisited =>
              have hcard := Search.card_enter hs
              have hlength : (s.enter v).state.length = n := by simpa [Search.enter] using hstates
              obtain ⟨reachable, s', hrun, hafter⟩ :=
                scanItems_answers ih (T := ReflTransGen (Edge c.items) v) (c.items v) (s.enter v)
                  (fun w hw => ⟨hclosed v w hw, fun u hu => .head hw hu⟩) hlength hresults (by omega)
              rw [hostReachableOf_unvisited hs, hrun]
              refine ⟨reachable, s'.settle v reachable, rfl, hafter.of_enter hs .refl, fun _ => ?_⟩
              have hlt : v < s'.state.length := by rw [hafter.states, hlength]; exact hv
              simp [Search.settle, hlt]

end total

/-! ## What is settled as reaching a host does -/

def Sound (c : Callees) (s : Search) : Prop :=
  ∀ v : Nat, s.result[v]? = some true → Reaches c.items v

def SoundVisit (c : Callees) (visit : Nat → Search → Option (Bool × Search)) : Prop :=
  ∀ v s reachable s', visit v s = some (reachable, s') → c.Sound s →
    (reachable = true → Reaches c.items v) ∧ c.Sound s'

theorem scanItems_sound (hvisit : SoundVisit c visit) (l : List (Item Nat))
    (hl : ∀ i ∈ l, i ∈ c.items v) {s s' : Search} (h : scanItems visit l s = some (reachable, s'))
    (hs : c.Sound s) :
    (reachable = true → Reaches c.items v) ∧ c.Sound s' := by
  induction l generalizing s with
  | nil =>
      cases h
      exact ⟨nofun, hs⟩
  | cons i rest ih =>
      have hi := hl i List.mem_cons_self
      cases i with
      | hit =>
          cases h
          exact ⟨fun _ => ⟨v, .refl, hi⟩, hs⟩
      | node w =>
          rw [scanItems] at h
          cases hw : visit w s with
          | none =>
              rw [hw] at h
              cases h
          | some answer =>
              obtain ⟨r, s₁⟩ := answer
              obtain ⟨hreaches, hs₁⟩ := hvisit w s r s₁ hw hs
              rw [hw] at h
              cases r with
              | true =>
                  cases h
                  exact ⟨fun _ => (hreaches rfl).of_path (.single hi), hs₁⟩
              | false => exact ih (fun i hi => hl i (List.mem_cons_of_mem _ hi)) h hs₁

theorem hostReachableOf_sound (fuel : Nat) : SoundVisit c (c.hostReachableOf fuel) := by
  induction fuel with
  | zero => exact fun v s reachable s' h => nomatch h
  | succ fuel ih =>
      intro v s reachable s' h hs
      cases hv : s.state[v]? with
      | none =>
          rw [hostReachableOf, hv] at h
          cases h
      | some visit =>
          cases visit with
          | onPath =>
              rw [hostReachableOf, hv] at h
              cases h
              exact ⟨nofun, hs⟩
          | resolved =>
              rw [hostReachableOf, hv] at h
              obtain ⟨r, hr, heq⟩ := Option.map_eq_some_iff.mp h
              cases heq
              exact ⟨fun htrue => hs v (htrue ▸ hr), hs⟩
          | unvisited =>
              rw [hostReachableOf_unvisited hv] at h
              obtain ⟨⟨r, s₁⟩, hscan, heq⟩ := Option.map_eq_some_iff.mp h
              cases heq
              obtain ⟨hreaches, hs₁⟩ := scanItems_sound ih (c.items v) (fun _ hi => hi) hscan hs
              refine ⟨hreaches, fun u hu => ?_⟩
              rw [Search.settle] at hu
              rcases eq_or_ne v u with rfl | hne
              · rw [List.getElem?_set_self'] at hu
                obtain ⟨_, _, htrue⟩ := Option.map_eq_some_iff.mp hu
                exact hreaches htrue
              · rw [List.getElem?_set_ne hne] at hu
                exact hs₁ u hu

/-! ## What is settled as not reaching a host -/

/-- The search is on a path, and of the bodies that reach a host those of `settled` are
flagged and the others were not visited or are on the path. -/
structure Fits (c : Callees) (settled path : List Nat) (s : Search) : Prop where
  onPath : ∀ u : Nat, s.state[u]? = some .onPath ↔ u ∈ path
  resolved : ∀ u : Nat, Reaches c.items u → (s.state[u]? = some .resolved ↔ u ∈ settled)
  right : ∀ u ∈ settled, s.result[u]? = some true
  sound : c.Sound s

/-- A body that reaches a host is settled as one that does not. -/
def Missed (c : Callees) (s : Search) : Prop :=
  ∃ u : Nat, Reaches c.items u ∧ s.state[u]? = some .resolved ∧ s.result[u]? = some false

theorem Missed.after {s s' : Search} (h : c.Missed s) (hafter : After T s s') :
    c.Missed s' := by
  obtain ⟨u, hreaches, hstate, hresult⟩ := h
  obtain ⟨hstate', hresult'⟩ := hafter.resolved u hstate
  exact ⟨u, hreaches, hstate', hresult'.trans hresult⟩

namespace Fits

variable {settled path walk : List Nat} {s s' : Search} {v : Nat}

theorem enter (h : c.Fits settled path s) (hv : s.state[v]? = some .unvisited) :
    c.Fits settled (v :: path) (s.enter v) where
  onPath := fun u => by
    rw [Search.enter, List.mem_cons]
    rcases eq_or_ne v u with rfl | hne
    · simp [(List.getElem?_eq_some_iff.mp hv).1]
    · rw [List.getElem?_set_ne hne, h.onPath u]
      simp [hne.symm]
  resolved := fun u hu => by
    rw [Search.enter, ← h.resolved u hu]
    rcases eq_or_ne v u with rfl | hne
    · rw [hv]
      simp [(List.getElem?_eq_some_iff.mp hv).1]
    · rw [List.getElem?_set_ne hne]
  right := h.right
  sound := h.sound

theorem settle (h : c.Fits (walk ++ settled) (v :: path) s) (hreaches : Reaches c.items v)
    (hpath : v ∉ path) (hstates : v < s.state.length) (hresults : v < s.result.length) :
    c.Fits (v :: walk ++ settled) path (s.settle v true) where
  onPath := fun u => by
    rw [Search.settle]
    rcases eq_or_ne v u with rfl | hne
    · simp [hstates, hpath]
    · rw [List.getElem?_set_ne hne, h.onPath u, List.mem_cons]
      simp [hne.symm]
  resolved := fun u hu => by
    rw [Search.settle, List.cons_append, List.mem_cons, ← h.resolved u hu]
    rcases eq_or_ne v u with rfl | hne
    · simp [hstates]
    · rw [List.getElem?_set_ne hne]
      simp [hne.symm]
  right := fun u hu => by
    rw [Search.settle]
    rcases eq_or_ne v u with rfl | hne
    · simp [hresults]
    · rw [List.getElem?_set_ne hne]
      exact h.right u ((List.mem_cons.mp hu).resolve_left hne.symm)
  sound := fun u hu => by
    rw [Search.settle] at hu
    rcases eq_or_ne v u with rfl | hne
    · exact hreaches
    · rw [List.getElem?_set_ne hne] at hu
      exact h.sound u hu

/-- The search of a body that reaches no host leaves the others as they are. -/
theorem after (h : c.Fits settled path s) (hv : ¬ Reaches c.items v)
    (hafter : After (ReflTransGen (Edge c.items) v) s s') (hsound : c.Sound s') :
    c.Fits settled path s' := by
  have hframe : ∀ u : Nat, Reaches c.items u →
      s'.state[u]? = s.state[u]? ∧ s'.result[u]? = s.result[u]? :=
    fun u hu => hafter.frame u fun hpath => hv (hu.of_path hpath)
  constructor
  case onPath => exact fun u => (hafter.onPath u).trans (h.onPath u)
  case resolved => exact fun u hu => by rw [(hframe u hu).1, h.resolved u hu]
  case right =>
    intro u hu
    rw [(hframe u (h.sound u (h.right u hu))).2, h.right u hu]
  case sound => exact hsound

end Fits

section follows

variable {n : Nat} (hclosed : ∀ v w, Edge c.items v w → w < n)
include hclosed

theorem hostReachableOf_dead {fuel w : Nat} {settled path : List Nat} {s s' : Search} (hw : w < n)
    (hstates : s.state.length = n) (hresults : s.result.length = n) (hleft : s.unvisited.card < fuel)
    (h : c.Fits settled path s) (hdead : ¬ Live c.items path (.node w))
    (hrun : c.hostReachableOf fuel w s = some (r, s')) :
    r = false ∧ c.Fits settled path s' := by
  by_cases hpath : w ∈ path
  · cases fuel with
    | zero => cases hrun
    | succ fuel =>
        rw [hostReachableOf, (h.onPath w).mpr hpath] at hrun
        cases hrun
        exact ⟨rfl, h⟩
  · have hnot : ¬ Reaches c.items w := fun hreaches => hdead ⟨hreaches, hpath⟩
    obtain ⟨r', s'', hrun', hafter, -⟩ :=
      hostReachableOf_answers hclosed fuel w s hw hstates hresults hleft
    rw [hrun] at hrun'
    cases hrun'
    obtain ⟨hreaches, hsound⟩ := hostReachableOf_sound fuel w s r s' hrun h.sound
    refine ⟨?_, h.after hnot hafter hsound⟩
    cases r with
    | false => rfl
    | true => exact absurd (hreaches rfl) hnot

/-- The search of a body that reaches a host walks from live item to live item. -/
def Follows (c : Callees) (n fuel : Nat) : Prop :=
  ∀ v s settled path r s', v < n → s.state.length = n → s.result.length = n →
    s.unvisited.card < fuel → c.Fits settled path s → Reaches c.items v → v ∉ settled → v ∉ path →
    c.hostReachableOf fuel v s = some (r, s') →
    (∃ walk, Walk c.items settled path v walk ∧ r = true ∧ c.Fits (walk ++ settled) path s') ∨
      (¬ ∃ walk, Walk c.items settled path v walk) ∧ c.Missed s'

theorem scanItems_follows {fuel : Nat} (ih : Follows c n fuel) {settled path : List Nat}
    (before l : List (Item Nat)) {s s' : Search} (hitems : c.items v = before ++ l)
    (hdead : ∀ i ∈ before, ¬ Live c.items (v :: path) i) (hstates : s.state.length = n)
    (hresults : s.result.length = n) (hleft : s.unvisited.card < fuel)
    (h : c.Fits settled (v :: path) s) (hrun : scanItems (c.hostReachableOf fuel) l s = some (r, s')) :
    (∃ walk, Walk c.items settled path v (v :: walk) ∧ r = true ∧
        c.Fits (walk ++ settled) (v :: path) s') ∨
      (¬ ∃ walk, Walk c.items settled path v walk) ∧ (c.Missed s' ∨ r = false) := by
  induction l generalizing before s with
  | nil =>
      cases hrun
      refine .inr ⟨fun ⟨walk, hwalk⟩ => ?_, .inr rfl⟩
      -- A walk would go on from an item of the body.
      have hnone : ∀ i, ¬ First c.items (v :: path) v i := by
        rintro i ⟨first, last, heq, hlive, -⟩
        rw [hitems, List.append_nil] at heq
        exact hdead i (by rw [heq]; simp) hlive
      rcases hwalk.inv with hfirst | ⟨w, hfirst, -⟩
      · exact hnone _ hfirst
      · exact hnone _ hfirst
  | cons i rest ihrest =>
      by_cases hlive : Live c.items (v :: path) i
      · have hfirst : First c.items (v :: path) v i := ⟨before, rest, hitems, hlive, hdead⟩
        cases i with
        | hit =>
            cases hrun
            exact .inl ⟨[], .hit hfirst, rfl, h⟩
        | node w =>
            have hw : w < n := hclosed v w (by rw [Edge, hitems]; simp)
            obtain ⟨hreaches, hpath⟩ := hlive
            obtain ⟨r₁, s₁, hvisit, hafter, -⟩ :=
              hostReachableOf_answers hclosed fuel w s hw hstates hresults hleft
            rw [scanItems, hvisit] at hrun
            by_cases hsettled : w ∈ settled
            · cases fuel with
              | zero => cases hvisit
              | succ fuel =>
                  rw [hostReachableOf, (h.resolved w hreaches).mpr hsettled, h.right w hsettled] at hvisit
                  cases hvisit
                  cases hrun
                  exact .inl ⟨[], .settled hfirst hsettled, rfl, h⟩
            · rcases ih w s settled (v :: path) r₁ s₁ hw hstates hresults hleft h hreaches hsettled
                hpath hvisit with ⟨walk, hwalk, rfl, hfits⟩ | ⟨hnone, hmissed⟩
              · cases hrun
                exact .inl ⟨walk, .next hfirst hsettled hwalk, rfl, hfits⟩
              · refine .inr ⟨fun ⟨walk, hwalk⟩ => ?_, .inl ?_⟩
                · rcases hwalk.inv with hfirst' | ⟨w', hfirst', hcases⟩
                  · cases hfirst.unique hfirst'
                  · cases hfirst.unique hfirst'
                    exact hcases.elim hsettled hnone
                · cases r₁ with
                  | true =>
                      cases hrun
                      exact hmissed
                  | false =>
                      obtain ⟨r', s'', hrest, hafter'⟩ :=
                        scanItems_answers (hostReachableOf_answers hclosed fuel)
                          (T := fun _ => True) rest s₁
                          (fun w hw => ⟨hclosed v w (by rw [Edge, hitems]; simp [hw]),
                            fun _ _ => trivial⟩)
                          (hafter.states.trans hstates) (hafter.results.trans hresults)
                          (hafter.card_le.trans_lt hleft)
                      dsimp only at hrun
                      rw [hrest] at hrun
                      cases hrun
                      exact hmissed.after hafter'
      · cases i with
        | hit => exact absurd trivial hlive
        | node w =>
            have hw : w < n := hclosed v w (by rw [Edge, hitems]; simp)
            obtain ⟨r₁, s₁, hvisit, hafter, -⟩ :=
              hostReachableOf_answers hclosed fuel w s hw hstates hresults hleft
            obtain ⟨rfl, hfits⟩ :=
              hostReachableOf_dead hclosed hw hstates hresults hleft h hlive hvisit
            rw [scanItems, hvisit] at hrun
            refine ihrest (before ++ [.node w]) (by rw [hitems]; simp) ?_
              (hafter.states.trans hstates) (hafter.results.trans hresults)
              (hafter.card_le.trans_lt hleft) hfits hrun
            intro i hi
            rcases List.mem_append.mp hi with hi | hi
            · exact hdead i hi
            · rw [List.mem_singleton.mp hi]
              exact hlive

theorem hostReachableOf_follows (fuel : Nat) : Follows c n fuel := by
  induction fuel with
  | zero => exact fun v s _ _ _ _ _ _ _ hleft => absurd hleft (Nat.not_lt_zero _)
  | succ fuel ih =>
      intro v s settled path r s' hv hstates hresults hleft h hreaches hsettled hpath hrun
      have hunvisited : s.state[v]? = some .unvisited := by
        cases hs : s.state[v]? with
        | none =>
            rw [List.getElem?_eq_none_iff] at hs
            omega
        | some visit =>
            cases visit with
            | unvisited => rfl
            | onPath => exact absurd ((h.onPath v).mp hs) hpath
            | resolved => exact absurd ((h.resolved v hreaches).mp hs) hsettled
      have hcard := Search.card_enter hunvisited
      have hlength : (s.enter v).state.length = n := by simpa [Search.enter] using hstates
      rw [hostReachableOf_unvisited hunvisited] at hrun
      obtain ⟨⟨r₁, s₁⟩, hscan, heq⟩ := Option.map_eq_some_iff.mp hrun
      cases heq
      obtain ⟨r', s'', hscan', hafter⟩ :=
        scanItems_answers (hostReachableOf_answers hclosed fuel) (T := fun _ => True) (c.items v)
          (s.enter v) (fun w hw => ⟨hclosed v w hw, fun _ _ => trivial⟩) hlength hresults (by omega)
      rw [hscan] at hscan'
      cases hscan'
      have hlt : v < s₁.state.length := by rw [hafter.states, hlength]; exact hv
      have hlt' : v < s₁.result.length := by rw [hafter.results]; exact hresults ▸ hv
      rcases scanItems_follows hclosed ih [] (c.items v) rfl nofun hlength hresults (by omega)
        (h.enter hunvisited) hscan with ⟨walk, hwalk, rfl, hfits⟩ | ⟨hnone, hmissed⟩
      · exact .inl ⟨v :: walk, hwalk, rfl, hfits.settle hreaches hpath hlt hlt'⟩
      · refine .inr ⟨hnone, ?_⟩
        rcases hmissed with ⟨u, hu, hstate, hresult⟩ | rfl
        · have hne : v ≠ u := by
            rintro rfl
            rw [(hafter.onPath v).mpr (((h.enter hunvisited).onPath v).mpr List.mem_cons_self)] at hstate
            cases hstate
          refine ⟨u, hu, ?_, ?_⟩
          · rw [Search.settle, List.getElem?_set_ne hne, hstate]
          · rw [Search.settle, List.getElem?_set_ne hne, hresult]
        · exact ⟨v, hreaches, by simp [Search.settle, hlt], by simp [Search.settle, hlt']⟩

end follows

/-! ## The searches from all bodies -/

theorem start_unvisited (u : Nat) (visit : Visit) (h : c.start.state[u]? = some visit) :
    visit = .unvisited := by
  rw [start, List.getElem?_replicate] at h
  split at h <;> cases h
  rfl

theorem start_sound : c.Sound c.start := by
  intro u hu
  rw [start, List.getElem?_replicate] at hu
  split at hu <;> cases hu

theorem start_fits : c.Fits [] [] c.start := by
  constructor
  case onPath =>
    intro u
    constructor
    · intro h
      cases start_unvisited u _ h
    · exact nofun
  case resolved =>
    intro u _
    constructor
    · intro h
      cases start_unvisited u _ h
    · exact nofun
  case right => exact nofun
  case sound => exact start_sound

/-- The states between the searches from two roots. -/
structure Between (c : Callees) (roots : List Nat) (s : Search) : Prop where
  states : s.state.length = c.module.bodies.length
  results : s.result.length = c.module.bodies.length
  away : ∀ u : Nat, s.state[u]? ≠ some .onPath
  visited : ∀ v ∈ roots, s.state[v]? = some .resolved
  sound : c.Sound s
  walks : (∃ settled, Settles c.items roots settled ∧ c.Fits settled [] s) ∨
    (¬ ∃ settled, Settles c.items roots settled) ∧ c.Missed s

theorem card_unvisited_le (s : Search) : s.unvisited.card ≤ s.state.length := by
  have hle := Finset.card_filter_le (Finset.range s.state.length)
    fun v => s.state[v]? = some .unvisited
  rwa [Finset.card_range] at hle

theorem Between.next {roots : List Nat} {s s' : Search}
    (hclosed : ∀ v w, Edge c.items v w → w < c.module.bodies.length) (h : c.Between roots s)
    (hv : v < c.module.bodies.length)
    (hrun : c.hostReachableOf (c.module.bodies.length + 1) v s = some (r, s')) :
    c.Between (roots ++ [v]) s' := by
  have hleft : s.unvisited.card < c.module.bodies.length + 1 :=
    Nat.lt_succ_of_le ((card_unvisited_le s).trans h.states.le)
  obtain ⟨r', s'', hrun', hafter, hresolved⟩ :=
    hostReachableOf_answers hclosed _ v s hv h.states h.results hleft
  rw [hrun] at hrun'
  cases hrun'
  obtain ⟨-, hsound⟩ := hostReachableOf_sound _ v s r s' hrun h.sound
  constructor
  case states => exact hafter.states.trans h.states
  case results => exact hafter.results.trans h.results
  case away => exact fun u hu => h.away u ((hafter.onPath u).mp hu)
  case sound => exact hsound
  case visited =>
    intro u hu
    rcases List.mem_append.mp hu with hu | hu
    · exact (hafter.resolved u (h.visited u hu)).1
    · rw [List.mem_singleton.mp hu]
      exact hresolved (h.away v)
  case walks =>
    rcases h.walks with ⟨settled, hsettles, hfits⟩ | ⟨hnone, hmissed⟩
    · by_cases hskip : ¬ Reaches c.items v ∨ v ∈ settled
      · refine .inl ⟨settled, .skip hsettles hskip, ?_⟩
        rcases hskip with hnot | hmem
        · exact hfits.after hnot hafter hsound
        · have hstate := (hfits.resolved v (hfits.sound v (hfits.right v hmem))).mpr hmem
          rw [hostReachableOf, hstate, hfits.right v hmem] at hrun
          cases hrun
          exact hfits
      · obtain ⟨hreaches, hnot⟩ := not_or.mp hskip
        rcases hostReachableOf_follows hclosed _ v s settled [] r s' hv h.states h.results hleft hfits
          (not_not.mp hreaches) hnot List.not_mem_nil hrun with
          ⟨walk, hwalk, -, hfits'⟩ | ⟨hnowalk, hmissed⟩
        · exact .inl ⟨_, .walk hsettles (not_not.mp hreaches) hnot hwalk, hfits'⟩
        · refine .inr ⟨?_, hmissed⟩
          rintro ⟨settled', hsettles'⟩
          obtain ⟨before, hbefore, ⟨hskip', -⟩ | ⟨walk, -, -, hwalk, -⟩⟩ := hsettles'.inv
          · rw [← hsettles.unique hbefore] at hskip'
            exact hskip hskip'
          · rw [← hsettles.unique hbefore] at hwalk
            exact hnowalk ⟨walk, hwalk⟩
    · refine .inr ⟨?_, hmissed.after hafter⟩
      rintro ⟨settled', hsettles'⟩
      obtain ⟨before, hbefore, -⟩ := hsettles'.inv
      exact hnone ⟨before, hbefore⟩

theorem searchFrom_between (hclosed : ∀ v w, Edge c.items v w → w < c.module.bodies.length)
    (roots : List Nat) (hroots : ∀ v ∈ roots, v < c.module.bodies.length) :
    ∃ s, c.searchFrom (c.module.bodies.length + 1) roots = some s ∧ c.Between roots s := by
  induction roots using List.reverseRecOn with
  | nil =>
      refine ⟨c.start, rfl, ?_⟩
      constructor
      case states => exact List.length_replicate
      case results => exact List.length_replicate
      case away =>
        intro u hu
        cases start_unvisited u _ hu
      case visited => exact nofun
      case sound => exact start_sound
      case walks => exact .inl ⟨[], .nil, start_fits⟩
  | append_singleton roots v ih =>
      obtain ⟨s, hsearch, hs⟩ := ih fun u hu => hroots u (List.mem_append_left _ hu)
      have hv := hroots v (List.mem_append_right _ List.mem_cons_self)
      obtain ⟨r, s', hrun, -⟩ := hostReachableOf_answers hclosed _ v s hv hs.states hs.results
        (Nat.lt_succ_of_le ((card_unvisited_le s).trans hs.states.le))
      refine ⟨s', ?_, hs.next hclosed hv hrun⟩
      unfold searchFrom at hsearch ⊢
      rw [List.foldlM_append, hsearch]
      change ((c.hostReachableOf _ v s).map Prod.snd).bind some = some s'
      rw [hrun]
      rfl

/-! ## Valid modules -/

theorem lt_of_funcAt {s : Spaces} {index : Nat} {ty : FuncType} (h : s.funcAt index = .ok ty) :
    index < s.funcs.length := by
  rw [Spaces.funcAt, Spaces.lookup] at h
  cases hget : s.funcs[index]? with
  | none =>
      rw [hget] at h
      cases h
  | some _ => exact (List.getElem?_eq_some_iff.mp hget).1

theorem edge_lt (h : validate c.module = .ok ()) (v w : Nat) (hedge : Edge c.items v w) :
    w < c.module.bodies.length := by
  obtain ⟨index, hmem, hge, rfl⟩ := edge_iff.mp hedge
  obtain ⟨instr, hinstr, hcallee⟩ : ∃ instr ∈ c.body v, callee instr = some index := by
    rcases hmem with hmem | hmem
    · exact ⟨_, hmem, rfl⟩
    · exact ⟨_, hmem, rfl⟩
  rw [body] at hinstr
  cases hbody : c.module.bodies[v]? with
  | none => simp [hbody] at hinstr
  | some code =>
      rw [hbody] at hinstr
      obtain ⟨s, signature, hchecked⟩ := checked_of_validate h hbody
      obtain ⟨pc, hpc⟩ := List.getElem?_of_mem hinstr
      obtain ⟨machine, machine', -, hstep, -⟩ := hchecked.before_step hpc
      obtain ⟨-, htypes, hfuncs⟩ := buildSpaces_spec hchecked.spaces
      obtain ⟨-, hcode⟩ := (validate_spec h).choose_spec.2
      have hfound : index < s.funcs.length := by
        rcases callee_eq_some.mp hcallee with rfl | rfl
        · obtain ⟨ty, hty, -⟩ := bind_eq_ok.mp hstep
          exact lt_of_funcAt hty
        · obtain ⟨ty, hty, -⟩ := bind_eq_ok.mp hstep
          exact lt_of_funcAt hty
      rw [← hfuncs.length_eq, htypes, List.length_append] at hfound
      have hbodies : c.module.bodies.length = c.module.functions.length := by
        unfold validateCode at hcode
        split at hcode
        · cases hcode
        · rename_i hlen
          exact not_not.mp hlen
      rw [imported] at hge ⊢
      omega

/-- The flags are exact where every walk from a body that reaches a host succeeds. -/
theorem hostReachableBodies_iff (c : Callees) (h : validate c.module = .ok ()) :
    ∃ flags, c.hostReachableBodies = some flags ∧ flags.length = c.module.bodies.length ∧
      ((∀ defined, defined < c.module.bodies.length →
          (flags[defined]? = some true ↔ c.ReachesHost defined)) ↔
        ∃ settled, Settles c.items (List.range c.module.bodies.length) settled) := by
  obtain ⟨s, hsearch, hs⟩ :=
    searchFrom_between (edge_lt h) (List.range c.module.bodies.length) fun v => List.mem_range.mp
  refine ⟨s.result, by rw [hostReachableBodies, hsearch]; rfl, hs.results, ?_⟩
  rcases hs.walks with ⟨settled, hsettles, hfits⟩ | ⟨hnone, u, hreaches, hstate, hresult⟩
  · refine ⟨fun _ => ⟨settled, hsettles⟩, fun _ defined hlt => ?_⟩
    rw [← reaches_iff]
    refine ⟨hfits.sound defined, fun hreaches => ?_⟩
    have hstate := hs.visited defined (List.mem_range.mpr hlt)
    exact hfits.right defined ((hfits.resolved defined hreaches).mp hstate)
  · refine ⟨fun hexact => ?_, fun hsettles => absurd hsettles hnone⟩
    have hlt : u < c.module.bodies.length := by
      rw [← hs.states]
      exact (List.getElem?_eq_some_iff.mp hstate).1
    rw [(hexact u hlt).mpr ((reaches_iff u).mp hreaches)] at hresult
    cases hresult

/-- Two bodies that call each other; the first then calls a host function. -/
def cycle : Callees where
  hostFuncs := [⟨⟨[], []⟩, some 0⟩]
  hostReachable := []
  module := {
    types := [⟨true, [], .func ⟨[], []⟩⟩]
    recGroups := [1]
    imports := [.func 0]
    functions := [0, 0]
    bodies := [⟨[], [.call 2, .call 0, .end_]⟩, ⟨[], [.call 1, .end_]⟩] }
  funcs := [.host 0, .owned 0 0, .owned 0 1]

theorem cycle_flags :
    ∃ flags, cycle.hostReachableBodies = some flags ∧ flags.length = cycle.module.bodies.length ∧
      ((∀ defined, defined < cycle.module.bodies.length →
          (flags[defined]? = some true ↔ cycle.ReachesHost defined)) ↔
        ∃ settled, Settles cycle.items (List.range cycle.module.bodies.length) settled) :=
  hostReachableBodies_iff cycle (by decide +kernel)

/-- The second body is left while the first is on the path. -/
theorem cycle_missed :
    validate cycle.module = .ok () ∧ cycle.hostReachableBodies = some [true, false] ∧
      cycle.ReachesHost 1 := by
  refine ⟨by decide +kernel, by decide +kernel, 0, .single ⟨1, .inl ?_, ?_, rfl⟩, 0, .inl ?_, ?_, ?_⟩
  · exact List.mem_cons_self
  · decide
  · exact List.mem_cons_of_mem _ List.mem_cons_self
  · decide
  · exact .inl ⟨0, ⟨⟨[], []⟩, some 0⟩, 0, rfl, rfl, rfl⟩

end Callees

end Slag.Wasm
