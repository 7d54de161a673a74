import Slag.Crux.Rope

/-!
What a string stands for, and the law of its representations: lengths, inline
sizes, windows and caches agree with it, whatever has been read before.
-/

namespace Slag.Rope

/-- The content of a box. -/
inductive Denotes (heap : Heap) : Handle → Units → Prop
  | flat {h : Handle} {units : Units} : heap[h]? = some (.flat units) → Denotes heap h units
  | small {h : Handle} {len : Nat} {units : Units} :
      heap[h]? = some (.small len units) → Denotes heap h (units.take len)
  | consString {h left right : Handle} {len : Nat} {cached : Option Units} {a b : Units} :
      heap[h]? = some (.consString left right len cached) →
      Denotes heap left a → Denotes heap right b → Denotes heap h (a ++ b)
  | rope {h : Handle} {left right : Option Handle} {len : Nat} {cached : Option Units}
      {a b : Units} : heap[h]? = some (.rope left right len cached) →
      (∀ x, left = some x → Denotes heap x a) → (left = none → a = []) →
      (∀ x, right = some x → Denotes heap x b) → (right = none → b = []) →
      Denotes heap h (a ++ b)
  | sliced {h parent : Handle} {offset len : Nat} {cached : Option Units} {units : Units} :
      heap[h]? = some (.sliced parent offset len cached) →
      Denotes heap parent units → Denotes heap h ((units.drop offset).take len)

/-- The box's own fields agree with its content. -/
def JsString.Sound (heap : Heap) (units : Units) : JsString → Prop
  | .flat _ => True
  | .small len buf => len ≤ smallStringCap ∧ buf.length = smallStringCap
  | .consString _ _ _ cached | .rope _ _ _ cached => ∀ flat, cached = some flat → flat = units
  | .sliced parent offset len cached => ∃ whole, Denotes heap parent whole ∧
      offset + len ≤ whole.length ∧ ∀ flat, cached = some flat → flat = whole

def Heap.Lawful (heap : Heap) : Prop :=
  ∀ (h : Handle) s, heap[h]? = some s → ∃ units, Denotes heap h units ∧ s.len = units.length ∧
    s.Sound heap units

/-- More boxes, and more in the caches. -/
def Heap.Extends (heap heap' : Heap) : Prop :=
  ∀ (h : Handle) s, heap[h]? = some s → ∃ s', heap'[h]? = some s' ∧ s'.clone = s.clone

variable {heap heap' : Heap} {h : Handle} {units : Units}

namespace Heap

theorem Extends.refl (heap : Heap) : heap.Extends heap := fun _ s hs => ⟨s, hs, rfl⟩

theorem Extends.trans {heap'' : Heap} (h : heap.Extends heap') (h' : heap'.Extends heap'') :
    heap.Extends heap'' := by
  intro x s hs
  obtain ⟨s', hs', heq⟩ := h x s hs
  obtain ⟨s'', hs'', heq'⟩ := h' x s' hs'
  exact ⟨s'', hs'', heq'.trans heq⟩

theorem extends_append (heap : Heap) (s : JsString) : heap.Extends (heap ++ [s]) := by
  intro x t ht
  have hlt := (List.getElem?_eq_some_iff.mp ht).1
  exact ⟨t, by rw [List.getElem?_append_left hlt, ht], rfl⟩

theorem clone_fill (s : JsString) (units : Units) : (s.fill units).clone = s.clone := by
  cases s with
  | flat _ | small _ _ => rfl
  | consString _ _ _ cached | rope _ _ _ cached | sliced _ _ _ cached =>
      cases cached with
      | none => rfl
      | some _ => rfl

theorem extends_modify (heap : Heap) (h : Handle) (units : Units) :
    heap.Extends (heap.modify h (JsString.fill units)) := by
  intro x s hs
  rw [List.getElem?_modify, hs]
  by_cases hx : h = x
  · exact ⟨s.fill units, by simp [hx], clone_fill s units⟩
  · exact ⟨s, by simp [hx], rfl⟩

end Heap

variable {s : JsString} {len : Nat}

namespace JsString

theorem clone_flat (h : s.clone = .flat units) : s = .flat units := by
  cases s with
  | flat _ | small _ _ => exact h
  | consString _ _ _ _ | rope _ _ _ _ | sliced _ _ _ _ => cases h

theorem clone_small (h : s.clone = .small len units) :
    s = .small len units := by
  cases s with
  | flat _ | small _ _ => exact h
  | consString _ _ _ _ | rope _ _ _ _ | sliced _ _ _ _ => cases h

variable {cached : Option Units}

theorem clone_consString {left right : Handle} (h : s.clone = (consString left right len cached).clone) :
    ∃ cached', s = .consString left right len cached' := by
  cases s with
  | consString _ _ _ c =>
      cases h
      exact ⟨c, rfl⟩
  | flat _ | small _ _ | rope _ _ _ _ | sliced _ _ _ _ => cases h

theorem clone_rope {left right : Option Handle} (h : s.clone = (rope left right len cached).clone) :
    ∃ cached', s = .rope left right len cached' := by
  cases s with
  | rope _ _ _ c =>
      cases h
      exact ⟨c, rfl⟩
  | flat _ | small _ _ | consString _ _ _ _ | sliced _ _ _ _ => cases h

theorem clone_sliced {parent : Handle} {offset len : Nat}
    (h : s.clone = (sliced parent offset len cached).clone) :
    ∃ cached', s = .sliced parent offset len cached' := by
  cases s with
  | sliced _ _ _ c =>
      cases h
      exact ⟨c, rfl⟩
  | flat _ | small _ _ | consString _ _ _ _ | rope _ _ _ _ => cases h

end JsString

/-- What a box stands for does not change. -/
theorem Denotes.extend (hd : Denotes heap h units) (he : heap.Extends heap') :
    Denotes heap' h units := by
  induction hd with
  | flat hs =>
      obtain ⟨s', hs', heq⟩ := he _ _ hs
      exact .flat (JsString.clone_flat heq ▸ hs')
  | small hs =>
      obtain ⟨s', hs', heq⟩ := he _ _ hs
      exact .small (JsString.clone_small heq ▸ hs')
  | consString hs _ _ iha ihb =>
      obtain ⟨s', hs', heq⟩ := he _ _ hs
      obtain ⟨c, rfl⟩ := JsString.clone_consString heq
      exact .consString hs' iha ihb
  | rope hs _ hl _ hr iha ihb =>
      obtain ⟨s', hs', heq⟩ := he _ _ hs
      obtain ⟨c, rfl⟩ := JsString.clone_rope heq
      exact .rope hs' iha hl ihb hr
  | sliced hs _ ih =>
      obtain ⟨s', hs', heq⟩ := he _ _ hs
      obtain ⟨c, rfl⟩ := JsString.clone_sliced heq
      exact .sliced hs' ih

theorem Denotes.unique {units' : Units} (hd : Denotes heap h units) (hd' : Denotes heap h units') :
    units = units' := by
  induction hd generalizing units' with
  | flat hs =>
      cases hd' with
      | flat hs' => cases hs.symm.trans hs'; rfl
      | small hs' | consString hs' _ _ | rope hs' _ _ _ _ | sliced hs' _ => cases hs.symm.trans hs'
  | small hs =>
      cases hd' with
      | small hs' => cases hs.symm.trans hs'; rfl
      | flat hs' | consString hs' _ _ | rope hs' _ _ _ _ | sliced hs' _ => cases hs.symm.trans hs'
  | consString hs _ _ iha ihb =>
      cases hd' with
      | consString hs' ha hb =>
          cases hs.symm.trans hs'
          rw [iha ha, ihb hb]
      | flat hs' | small hs' | rope hs' _ _ _ _ | sliced hs' _ => cases hs.symm.trans hs'
  | @rope h left right len cached a b hs _ hl _ hr iha ihb =>
      cases hd' with
      | rope hs' ha hl' hb hr' =>
          cases hs.symm.trans hs'
          congr 1
          · cases left with
            | none => rw [hl rfl, hl' rfl]
            | some x => exact iha x rfl (ha x rfl)
          · cases right with
            | none => rw [hr rfl, hr' rfl]
            | some x => exact ihb x rfl (hb x rfl)
      | flat hs' | small hs' | consString hs' _ _ | sliced hs' _ => cases hs.symm.trans hs'
  | sliced hs _ ih =>
      cases hd' with
      | sliced hs' hp =>
          cases hs.symm.trans hs'
          rw [ih hp]
      | flat hs' | small hs' | consString hs' _ _ | rope hs' _ _ _ _ => cases hs.symm.trans hs'

theorem JsString.Sound.extend (hs : s.Sound heap units) (he : heap.Extends heap') :
    s.Sound heap' units := by
  cases s with
  | flat _ | small _ _ | consString _ _ _ _ | rope _ _ _ _ => exact hs
  | sliced parent offset len cached =>
      obtain ⟨whole, hw, hlen, hc⟩ := hs
      exact ⟨whole, hw.extend he, hlen, hc⟩

namespace Heap

theorem Lawful.append (hl : heap.Lawful) (hd : Denotes (heap ++ [s]) heap.length units)
    (hlen : s.len = units.length) (hs : s.Sound (heap ++ [s]) units) : Heap.Lawful (heap ++ [s]) := by
  intro x t ht
  have hext := extends_append heap s
  by_cases hx : x < heap.length
  · rw [List.getElem?_append_left hx] at ht
    obtain ⟨u, hu, hlu, hsu⟩ := hl x t ht
    exact ⟨u, hu.extend hext, hlu, hsu.extend hext⟩
  · have hlt := (List.getElem?_eq_some_iff.mp ht).1
    rw [List.length_append, List.length_singleton] at hlt
    obtain rfl : x = heap.length := Nat.le_antisymm (Nat.lt_succ_iff.mp hlt) (Nat.not_lt.mp hx)
    rw [List.getElem?_concat_length] at ht
    obtain rfl := Option.some.inj ht
    exact ⟨units, hd, hlen, hs⟩

/-- A cache may be filled with what it is for. -/
theorem Lawful.fill (hl : heap.Lawful) {flat : Units} (hs : heap[h]? = some s)
    (hd : Denotes heap h units) (hsound : (s.fill flat).Sound heap units) :
    Heap.Lawful (heap.modify h (JsString.fill flat)) := by
  intro x t ht
  have hext := extends_modify heap h flat
  rw [List.getElem?_modify] at ht
  by_cases hx : h = x
  · subst hx
    obtain ⟨u, hu, hlu, -⟩ := hl h s hs
    obtain rfl : s.fill flat = t := by simpa [hs] using ht
    obtain rfl := hd.unique hu
    refine ⟨units, hu.extend hext, ?_, hsound.extend hext⟩
    rw [← hlu]
    cases s with
    | flat _ | small _ _ => rfl
    | consString _ _ _ cached | rope _ _ _ cached | sliced _ _ _ cached =>
        cases cached with
        | none => rfl
        | some _ => rfl
  · have ht : heap[x]? = some t := by simpa [hx] using ht
    obtain ⟨u, hu, hlu, hsu⟩ := hl x t ht
    exact ⟨u, hu.extend hext, hlu, hsu.extend hext⟩

end Heap

section Reading

/-- The worklist passes over a box, and the content of the box is out. -/
def Flattens (heap : Heap) (h : Handle) (units : Units) : Prop :=
  ∃ cost, ∀ heap₁, heap.Extends heap₁ → heap₁.Lawful →
    ∃ heap₂, heap₁.Extends heap₂ ∧ heap₂.Lawful ∧ heap₂.length = heap₁.length ∧
      ∀ fuel stack acc, ∃ rest ≥ fuel, flattenInto (fuel + cost) heap₁ (h :: stack) acc =
        flattenInto rest heap₂ stack (acc ++ units)

/-- With enough fuel a read answers the content. -/
def Reads (heap : Heap) (h : Handle) (units : Units) : Prop :=
  ∃ cost, ∀ heap₁, heap.Extends heap₁ → heap₁.Lawful →
    ∃ heap₂, heap₁.Extends heap₂ ∧ heap₂.Lawful ∧ heap₂.length = heap₁.length ∧
      ∀ fuel ≥ cost, asSlice fuel heap₁ h = some (heap₂, units)

theorem window_eq {offset len : Nat} (h : offset + len ≤ units.length) :
    window units offset len = some ((units.drop offset).take len) := if_pos h

theorem window_small {buf : Units} (hlen : len ≤ smallStringCap) (hbuf : buf.length = smallStringCap) :
    window buf 0 len = some (buf.take len) := by
  rw [window_eq (by omega), List.drop_zero]

/-- An append node or a rope. -/
def JsString.IsNode : JsString → Prop
  | .consString .. | .rope .. => True
  | _ => False

theorem JsString.isNode_clone {s s' : JsString} (heq : s'.clone = s.clone) (hs : s.IsNode) :
    s'.IsNode := by
  cases s with
  | flat _ | small _ _ | sliced _ _ _ _ => cases hs
  | consString _ _ _ _ =>
      obtain ⟨c, rfl⟩ := clone_consString heq
      trivial
  | rope _ _ _ _ =>
      obtain ⟨c, rfl⟩ := clone_rope heq
      trivial

theorem JsString.IsNode.sound_fill (hn : s.IsNode) (hs : s.Sound heap units) :
    (s.fill units).Sound heap units := by
  cases s with
  | flat _ | small _ _ | sliced _ _ _ _ => cases hn
  | consString _ _ _ cached | rope _ _ _ cached =>
      cases cached with
      | none => exact fun flat hflat => (Option.some.inj hflat).symm
      | some _ => exact hs

theorem asSlice_node (hn : s.IsNode) (hs : heap[h]? = some s) (fuel : Nat) :
    asSlice (fuel + 1) heap h = s.cache.elim
      ((flattenInto fuel heap [h] []).map fun r => (r.1.modify h (JsString.fill r.2), r.2))
      fun flat => some (heap, flat) := by
  cases s with
  | flat _ | small _ _ | sliced _ _ _ _ => cases hn
  | consString _ _ _ cached | rope _ _ _ cached =>
      rw [asSlice, hs]
      cases cached with
      | none =>
          dsimp only [JsString.cache, Option.elim_none]
          cases flattenInto fuel heap [h] [] with
          | none => rfl
          | some r => rfl
      | some flat => rfl

theorem Flattens.reads (hf : Flattens heap h units) (hd : Denotes heap h units) (hs : heap[h]? = some s)
    (hnode : s.IsNode) : Reads heap h units := by
  obtain ⟨cost, hf⟩ := hf
  refine ⟨cost + 2, fun heap₁ he hl => ?_⟩
  obtain ⟨s', hs', heq⟩ := he h s hs
  obtain ⟨u, hu, -, hsound⟩ := hl h s' hs'
  obtain rfl := (hd.extend he).unique hu
  have hnode' := JsString.isNode_clone heq hnode
  cases hcache : s'.cache with
  | some flat =>
      have hflat : flat = units := by
        cases s' with
        | flat _ | small _ _ | sliced _ _ _ _ => cases hnode'
        | consString _ _ _ _ | rope _ _ _ _ => exact hsound flat hcache
      refine ⟨heap₁, .refl heap₁, hl, rfl, fun fuel hfuel => ?_⟩
      obtain ⟨fuel, rfl⟩ : ∃ k, fuel = k + 1 := ⟨fuel - 1, by omega⟩
      rw [asSlice_node hnode' hs', hcache, Option.elim_some, hflat]
  | none =>
      obtain ⟨heap₂, he₂, hl₂, hlen₂, hrun⟩ := hf heap₁ he hl
      obtain ⟨s₂, hs₂, heq₂⟩ := he₂ h s' hs'
      obtain ⟨u₂, hu₂, -, hsound₂⟩ := hl₂ h s₂ hs₂
      obtain rfl := (hu.extend he₂).unique hu₂
      have hsound₂ := (JsString.isNode_clone heq₂ hnode').sound_fill hsound₂
      refine ⟨heap₂.modify h (JsString.fill units), he₂.trans (Heap.extends_modify heap₂ h units),
        hl₂.fill hs₂ hu₂ hsound₂, by rw [List.length_modify, hlen₂], fun fuel hfuel => ?_⟩
      obtain ⟨fuel, rfl⟩ : ∃ k, fuel = k + 1 + cost + 1 := ⟨fuel - cost - 2, by omega⟩
      obtain ⟨rest, hrest, heq⟩ := hrun (fuel + 1) [] []
      obtain ⟨rest, rfl⟩ : ∃ k, rest = k + 1 := ⟨rest - 1, by omega⟩
      rw [asSlice_node hnode' hs', hcache, Option.elim_none, heq]
      rfl

/-- The content of the children one after another. -/
theorem flattens_pair {left right : Option Handle} {a b : Units}
    (ha : ∀ x, left = some x → Flattens heap x a) (hla : left = none → a = [])
    (hb : ∀ x, right = some x → Flattens heap x b) (hrb : right = none → b = []) :
    ∃ cost, ∀ heap₁, heap.Extends heap₁ → heap₁.Lawful →
      ∃ heap₂, heap₁.Extends heap₂ ∧ heap₂.Lawful ∧ heap₂.length = heap₁.length ∧
        ∀ fuel stack acc, ∃ rest ≥ fuel,
          flattenInto (fuel + cost) heap₁ (left.toList ++ right.toList ++ stack) acc =
            flattenInto rest heap₂ stack (acc ++ (a ++ b)) := by
  have hone : ∀ (x : Option Handle) (u : Units), (∀ y, x = some y → Flattens heap y u) →
      (x = none → u = []) → ∃ cost, ∀ heap₁, heap.Extends heap₁ → heap₁.Lawful →
        ∃ heap₂, heap₁.Extends heap₂ ∧ heap₂.Lawful ∧ heap₂.length = heap₁.length ∧
          ∀ fuel stack acc, ∃ rest ≥ fuel,
            flattenInto (fuel + cost) heap₁ (x.toList ++ stack) acc =
              flattenInto rest heap₂ stack (acc ++ u) := by
    intro x u hx hnone
    cases x with
    | none =>
        refine ⟨0, fun heap₁ _ hl => ⟨heap₁, .refl heap₁, hl, rfl, fun fuel stack acc =>
          ⟨fuel, Nat.le_refl fuel, ?_⟩⟩⟩
        rw [hnone rfl, List.append_nil]
        rfl
    | some y => exact hx y rfl
  obtain ⟨costa, hfa⟩ := hone left a ha hla
  obtain ⟨costb, hfb⟩ := hone right b hb hrb
  refine ⟨costb + costa, fun heap₁ he hl => ?_⟩
  obtain ⟨heap₂, he₂, hl₂, hlen₂, hrun₂⟩ := hfa heap₁ he hl
  obtain ⟨heap₃, he₃, hl₃, hlen₃, hrun₃⟩ := hfb heap₂ (he.trans he₂) hl₂
  refine ⟨heap₃, he₂.trans he₃, hl₃, hlen₃.trans hlen₂, fun fuel stack acc => ?_⟩
  obtain ⟨rest₂, hrest₂, heq₂⟩ := hrun₂ (fuel + costb) (right.toList ++ stack) acc
  obtain ⟨rest₃, hrest₃, heq₃⟩ := hrun₃ (rest₂ - costb) stack (acc ++ a)
  rw [Nat.sub_add_cancel (by omega)] at heq₃
  refine ⟨rest₃, by omega, ?_⟩
  rw [List.append_assoc, ← Nat.add_assoc, heq₂, heq₃, List.append_assoc]

/-- The read of a view's parent, which a flat parent answers by its buffer. -/
theorem Reads.parent {parent : Handle} {whole : Units} (hr : Reads heap parent whole)
    (hd : Denotes heap parent whole) : ∃ cost, ∀ heap₁, heap.Extends heap₁ → heap₁.Lawful →
      ∃ heap₂, heap₁.Extends heap₂ ∧ heap₂.Lawful ∧ heap₂.length = heap₁.length ∧
        ∀ fuel ≥ cost, (heap₁.flatUnits parent).elim (asSlice fuel heap₁ parent)
          (fun units => some (heap₁, units)) = some (heap₂, whole) := by
  obtain ⟨cost, hread⟩ := hr
  refine ⟨cost, fun heap₁ he hl => ?_⟩
  obtain ⟨heap₂, he₂, hl₂, hlen₂, hrun⟩ := hread heap₁ he hl
  cases hflat : heap₁.flatUnits parent with
  | none => exact ⟨heap₂, he₂, hl₂, hlen₂, hrun⟩
  | some units =>
      have hs : heap₁[parent]? = some (.flat units) := by
        unfold Heap.flatUnits at hflat
        split at hflat
        · rename_i hs
          rw [hs, Option.some.inj hflat]
        · cases hflat
      obtain rfl := (Denotes.flat hs).unique (hd.extend he)
      exact ⟨heap₁, .refl heap₁, hl, rfl, fun fuel _ => rfl⟩

theorem Denotes.reads (hd : Denotes heap h units) : Flattens heap h units ∧ Reads heap h units := by
  induction hd with
  | @flat h units hs =>
      have hsame : ∀ heap₁, heap.Extends heap₁ → heap₁[h]? = some (.flat units) := by
        intro heap₁ he
        obtain ⟨s', hs', heq⟩ := he _ _ hs
        exact JsString.clone_flat heq ▸ hs'
      constructor
      · refine ⟨1, fun heap₁ he hl => ⟨heap₁, .refl heap₁, hl, rfl, fun fuel stack acc =>
          ⟨fuel, Nat.le_refl fuel, ?_⟩⟩⟩
        rw [flattenInto, hsame heap₁ he]
      · refine ⟨1, fun heap₁ he hl => ⟨heap₁, .refl heap₁, hl, rfl, fun fuel hfuel => ?_⟩⟩
        obtain ⟨fuel, rfl⟩ : ∃ k, fuel = k + 1 := ⟨fuel - 1, by omega⟩
        rw [asSlice, hsame heap₁ he]
  | @small h len buf hs =>
      have hsame : ∀ heap₁, heap.Extends heap₁ → heap₁.Lawful →
          heap₁[h]? = some (.small len buf) ∧ window buf 0 len = some (buf.take len) := by
        intro heap₁ he hl
        obtain ⟨s', hs', heq⟩ := he _ _ hs
        obtain rfl := JsString.clone_small heq
        obtain ⟨-, -, -, hlen, hbuf⟩ := hl h _ hs'
        exact ⟨hs', window_small hlen hbuf⟩
      constructor
      · refine ⟨1, fun heap₁ he hl => ⟨heap₁, .refl heap₁, hl, rfl, fun fuel stack acc =>
          ⟨fuel, Nat.le_refl fuel, ?_⟩⟩⟩
        obtain ⟨hs', hwindow⟩ := hsame heap₁ he hl
        rw [flattenInto, hs']
        dsimp only
        rw [hwindow]
        rfl
      · refine ⟨1, fun heap₁ he hl => ⟨heap₁, .refl heap₁, hl, rfl, fun fuel hfuel => ?_⟩⟩
        obtain ⟨hs', hwindow⟩ := hsame heap₁ he hl
        obtain ⟨fuel, rfl⟩ : ∃ k, fuel = k + 1 := ⟨fuel - 1, by omega⟩
        rw [asSlice, hs']
        dsimp only
        rw [hwindow]
        rfl
  | @consString h left right len cached a b hs hda hdb iha ihb =>
      have hf : Flattens heap h (a ++ b) := by
        obtain ⟨cost, hpair⟩ := @flattens_pair heap (some left) (some right) a b
          (fun _ hx => Option.some.inj hx ▸ iha.1) nofun
          (fun _ hx => Option.some.inj hx ▸ ihb.1) nofun
        refine ⟨cost + 1, fun heap₁ he hl => ?_⟩
        obtain ⟨heap₂, he₂, hl₂, hlen₂, hrun⟩ := hpair heap₁ he hl
        refine ⟨heap₂, he₂, hl₂, hlen₂, fun fuel stack acc => ?_⟩
        obtain ⟨s', hs', heq⟩ := he _ _ hs
        obtain ⟨c, rfl⟩ := JsString.clone_consString heq
        obtain ⟨rest, hrest, hrest'⟩ := hrun fuel stack acc
        refine ⟨rest, hrest, ?_⟩
        rw [← Nat.add_assoc, flattenInto, hs']
        exact hrest'
      exact ⟨hf, hf.reads (.consString hs hda hdb) hs trivial⟩
  | @rope h left right len cached a b hs hda hla hdb hrb iha ihb =>
      have hf : Flattens heap h (a ++ b) := by
        obtain ⟨cost, hpair⟩ := flattens_pair (fun x hx => (iha x hx).1) hla
          (fun x hx => (ihb x hx).1) hrb
        refine ⟨cost + 1, fun heap₁ he hl => ?_⟩
        obtain ⟨heap₂, he₂, hl₂, hlen₂, hrun⟩ := hpair heap₁ he hl
        refine ⟨heap₂, he₂, hl₂, hlen₂, fun fuel stack acc => ?_⟩
        obtain ⟨s', hs', heq⟩ := he _ _ hs
        obtain ⟨c, rfl⟩ := JsString.clone_rope heq
        obtain ⟨rest, hrest, hrest'⟩ := hrun fuel stack acc
        refine ⟨rest, hrest, ?_⟩
        rw [← Nat.add_assoc, flattenInto, hs']
        exact hrest'
      exact ⟨hf, hf.reads (.rope hs hda hla hdb hrb) hs trivial⟩
  | @sliced h parent offset len cached whole hs hdp ih =>
      obtain ⟨cost, hread⟩ := ih.2
      have hcell : ∀ heap₁, heap.Extends heap₁ → heap₁.Lawful → ∃ cached',
          heap₁[h]? = some (.sliced parent offset len cached') ∧
          window whole offset len = some ((whole.drop offset).take len) ∧
          ∀ flat, cached' = some flat → flat = whole := by
        intro heap₁ he hl
        obtain ⟨s', hs', heq⟩ := he _ _ hs
        obtain ⟨c, rfl⟩ := JsString.clone_sliced heq
        obtain ⟨-, -, -, whole', hw, hlen, hc⟩ := hl h _ hs'
        obtain rfl := (hdp.extend he).unique hw
        exact ⟨c, hs', window_eq hlen, hc⟩
      constructor
      · refine ⟨cost + 1, fun heap₁ he hl => ?_⟩
        obtain ⟨c, hs', hwindow, -⟩ := hcell heap₁ he hl
        obtain ⟨heap₂, he₂, hl₂, hlen₂, hrun⟩ := hread heap₁ he hl
        refine ⟨heap₂, he₂, hl₂, hlen₂, fun fuel stack acc =>
          ⟨fuel + cost, Nat.le_add_right fuel cost, ?_⟩⟩
        rw [← Nat.add_assoc, flattenInto, hs']
        dsimp only
        rw [hrun _ (Nat.le_add_left cost fuel), Option.bind_eq_bind, Option.bind_some]
        dsimp only
        rw [hwindow]
        rfl
      · obtain ⟨cost, hparent⟩ := ih.2.parent hdp
        refine ⟨cost + 1, fun heap₁ he hl => ?_⟩
        obtain ⟨c, hs', hwindow, hcached⟩ := hcell heap₁ he hl
        cases c with
        | some flat =>
            obtain rfl := hcached flat rfl
            refine ⟨heap₁, .refl heap₁, hl, rfl, fun fuel hfuel => ?_⟩
            obtain ⟨fuel, rfl⟩ : ∃ k, fuel = k + 1 := ⟨fuel - 1, by omega⟩
            rw [asSlice, hs']
            dsimp only
            rw [hwindow]
            rfl
        | none =>
            obtain ⟨heap₂, he₂, hl₂, hlen₂, hrun⟩ := hparent heap₁ he hl
            have hwhole := hdp.extend (he.trans he₂)
            obtain ⟨c₂, hs₂, -, hc₂⟩ := hcell heap₂ (he.trans he₂) hl₂
            obtain ⟨-, -, -, whole', hw, hlen, -⟩ := hl₂ h _ hs₂
            obtain rfl := hwhole.unique hw
            refine ⟨heap₂.modify h (JsString.fill whole),
              he₂.trans (Heap.extends_modify heap₂ h whole), ?_,
              by rw [List.length_modify, hlen₂], fun fuel hfuel => ?_⟩
            · refine hl₂.fill hs₂ (.sliced hs₂ hwhole) ?_
              cases c₂ with
              | none => exact ⟨whole, hwhole, hlen, fun flat hflat => (Option.some.inj hflat).symm⟩
              | some flat => exact ⟨whole, hwhole, hlen, hc₂⟩
            · obtain ⟨fuel, rfl⟩ : ∃ k, fuel = k + 1 := ⟨fuel - 1, by omega⟩
              rw [asSlice, hs']
              dsimp only
              rw [hrun fuel (by omega), Option.bind_eq_bind, Option.bind_some]
              dsimp only
              rw [hwindow]
              rfl

end Reading

end Slag.Rope
