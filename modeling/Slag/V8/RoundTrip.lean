import Mathlib.Data.List.Perm.Subperm
import Slag.V8.ReadBack

/-!
The round trip. The walk succeeds on a graph whose sizes fit the format, and
what it wrote is read back as an isomorphic graph, with each date clipped.
-/

namespace Slag.V8

open LittleEndian

variable {write : List Ref → Value → Option Written} {r : Ref}

section Numbering

variable {heap : Heap} {engine : Engine} {among : Ref → Prop} {transfers : Ref → Option Nat}
  {numbers numbers' : List Ref} {bytes : Bytes}

/-- The objects numbered so far. -/
structure Numbered (among : Ref → Prop) (numbers : List Ref) : Prop where
  nodup : numbers.Nodup
  among : ∀ r ∈ numbers, among r

theorem numbered_nil (among : Ref → Prop) : Numbered among [] where
  nodup := List.nodup_nil
  among _ hr := absurd hr List.not_mem_nil

/-- A writer that only gives the next numbers. -/
def Numbers (among : Ref → Prop) (write : List Ref → Value → Option Written) : Prop :=
  ∀ numbers v numbers' bytes, write numbers v = some (numbers', bytes) → v.Within among →
    Numbered among numbers → numbers <+: numbers' ∧ Numbered among numbers'

theorem Numbered.push (h : Numbered among numbers) (hr : among r) (hnew : r ∉ numbers) :
    Numbered among (numbers ++ [r]) where
  nodup := nodup_snoc h.nodup hnew
  among x hx := by
    rcases List.mem_append.mp hx with hx | hx
    · exact h.among x hx
    · rw [List.mem_singleton.mp hx]
      exact hr

theorem Numbers.items (h : Numbers among write) {items : List (Option Value)}
    (hitems : ∀ v, some v ∈ items → v.Within among)
    (hwrite : writeItems write numbers items = some (numbers', bytes))
    (hnumbered : Numbered among numbers) : numbers <+: numbers' ∧ Numbered among numbers' := by
  induction items generalizing numbers bytes with
  | nil =>
      cases hwrite
      exact ⟨List.prefix_rfl, hnumbered⟩
  | cons item items ih =>
      have hlater : ∀ v, some v ∈ items → v.Within among := fun v hv =>
        hitems v (List.mem_cons_of_mem _ hv)
      cases item with
      | none =>
          obtain ⟨rest, hrest, -⟩ := writeItems_hole hwrite
          exact ih hlater hrest hnumbered
      | some v =>
          obtain ⟨numbers₁, first, rest, hfirst, hrest, -⟩ := writeItems_cons hwrite
          obtain ⟨hgrow, hnumbered₁⟩ := h _ _ _ _ hfirst (hitems v (List.mem_cons_self ..)) hnumbered
          obtain ⟨hgrow', hnumbered'⟩ := ih hlater hrest hnumbered₁
          exact ⟨hgrow.trans hgrow', hnumbered'⟩

theorem Numbers.object (h : Numbers among write) {o : Obj}
    (hchildren : ∀ v ∈ o.children, v.Within among)
    (hwrite : writeObject transfers write numbers r o = some (numbers', bytes))
    (hnumbered : Numbered among numbers) : numbers <+: numbers' ∧ Numbered among numbers' := by
  have hitems : ∀ v, some v ∈ o.items → v.Within among := fun v hv => within_of_item hchildren hv
  cases o with
  | array _ | plain _ | map _ | set _ =>
      obtain ⟨rest, hrest, -⟩ := writeContainer_eq_some hwrite
      exact h.items hitems hrest hnumbered
  | date _ =>
      cases hwrite
      exact ⟨List.prefix_rfl, hnumbered⟩
  | regExp _ _ =>
      obtain ⟨_, _, -, -, rfl, -⟩ := writeObject_regExp hwrite
      exact ⟨List.prefix_rfl, hnumbered⟩
  | arrayBuffer content =>
      rw [writeObject] at hwrite
      cases ht : transfers r with
      | some id =>
          simp only [ht] at hwrite
          cases hwrite
          exact ⟨List.prefix_rfl, hnumbered⟩
      | none =>
          simp only [ht] at hwrite
          obtain ⟨length, _, hwrite⟩ := Option.bind_eq_some_iff.mp hwrite
          cases hwrite
          exact ⟨List.prefix_rfl, hnumbered⟩
  | view kind offset length buffer =>
      obtain ⟨rest, -, -, hbuffer, -⟩ := writeObject_view hwrite
      exact h _ _ _ _ hbuffer (hchildren _ (List.mem_singleton_self _)) hnumbered
  | uncloneable => cases hwrite

theorem numbers_writeValue (hclosed : Closed heap engine among) (fuel : Nat) :
    Numbers among (writeValue heap transfers fuel) := by
  induction fuel with
  | zero =>
      intro numbers v numbers' bytes hwrite
      cases hwrite
  | succ fuel ih =>
      intro numbers v numbers' bytes hwrite hwithin hnumbered
      cases v with
      | undefined | null | number _ =>
          cases hwrite
          exact ⟨List.prefix_rfl, hnumbered⟩
      | boolean c =>
          cases c <;>
          · cases hwrite
            exact ⟨List.prefix_rfl, hnumbered⟩
      | string _ | bigInt _ =>
          obtain ⟨_, _, hwrite⟩ := Option.map_eq_some_iff.mp hwrite
          cases hwrite
          exact ⟨List.prefix_rfl, hnumbered⟩
      | object r =>
          rcases writeValue_object hwrite with ⟨id, -, rfl, -⟩ | ⟨hr, -, o, hget, hobject⟩
          · exact ⟨List.prefix_rfl, hnumbered⟩
          · have hamong := hwithin r rfl
            obtain ⟨o', hget', -, hchildren⟩ := hclosed r hamong
            rw [hget] at hget'
            cases hget'
            obtain ⟨hgrow, hnumbered'⟩ := ih.object hchildren hobject (hnumbered.push hamong hr)
            exact ⟨(List.prefix_append _ _).trans hgrow, hnumbered'⟩

end Numbering

section Success

variable {heap : Heap} {engine : Engine} {among : Ref → Prop} {numbers : List Ref} {fuel : Nat}

theorem Numbered.length_le (hclosed : Closed heap engine among) (h : Numbered among numbers) :
    numbers.length ≤ heap.length := by
  have hsub : numbers ⊆ List.range heap.length := by
    intro r hr
    obtain ⟨o, hget, -⟩ := hclosed r (h.among r hr)
    obtain ⟨hlt, -⟩ := List.getElem?_eq_some_iff.mp hget
    exact List.mem_range.mpr hlt
  have hle := (List.Nodup.subperm h.nodup hsub).length_le
  rwa [List.length_range] at hle

/-- A writer that has room for the objects that are left. -/
def Succeeds (heap : Heap) (among : Ref → Prop) (fuel : Nat)
    (write : List Ref → Value → Option Written) : Prop :=
  ∀ numbers v, v.Within among → v.Sized → Numbered among numbers →
    heap.length < fuel + numbers.length → ∃ numbers' bytes, write numbers v = some (numbers', bytes)

theorem word_some {n : Nat} (h : n < 2 ^ 32) : word n = some (put 4 n) := if_pos h

theorem putString_some {units : Units} (h : units.length < 2 ^ 32) :
    ∃ bytes, putString units = some bytes := by
  rw [putString, word_some h]
  exact ⟨_, rfl⟩

theorem Succeeds.items (h : Succeeds heap among fuel write) (hnumbers : Numbers among write)
    {items : List (Option Value)} (hitems : ∀ v, some v ∈ items → v.Within among ∧ v.Sized)
    (hnumbered : Numbered among numbers) (hfuel : heap.length < fuel + numbers.length) :
    ∃ numbers' bytes, writeItems write numbers items = some (numbers', bytes) := by
  induction items generalizing numbers with
  | nil => exact ⟨numbers, [], rfl⟩
  | cons item items ih =>
      have hlater : ∀ v, some v ∈ items → v.Within among ∧ v.Sized := fun v hv =>
        hitems v (List.mem_cons_of_mem _ hv)
      cases item with
      | none =>
          obtain ⟨numbers', bytes, hrest⟩ := ih hlater hnumbered hfuel
          refine ⟨numbers', tagHole :: bytes, ?_⟩
          rw [writeItems, hrest]
          rfl
      | some v =>
          obtain ⟨hwithin, hsized⟩ := hitems v (List.mem_cons_self ..)
          obtain ⟨numbers₁, first, hfirst⟩ := h _ v hwithin hsized hnumbered hfuel
          obtain ⟨hgrow, hnumbered₁⟩ := hnumbers _ _ _ _ hfirst hwithin hnumbered
          have hle := hgrow.length_le
          obtain ⟨numbers', bytes, hrest⟩ := ih hlater hnumbered₁ (by omega)
          refine ⟨numbers', first ++ bytes, ?_⟩
          rw [writeItems, hfirst]
          simp only [Option.bind_eq_bind, Option.bind_some, hrest]
          rfl

theorem Succeeds.object (h : Succeeds heap among fuel write) (hnumbers : Numbers among write) {o : Obj}
    (hlawful : o.Lawful heap engine) (hsized : o.Sized) (hchildren : ∀ v ∈ o.children, v.Within among)
    (hnumbered : Numbered among numbers) (hfuel : heap.length < fuel + numbers.length) :
    ∃ numbers' bytes, writeObject noTransfers write numbers r o = some (numbers', bytes) := by
  have hitem {v : Value} (hv : some v ∈ o.items) : v.Within among := within_of_item hchildren hv
  cases o with
  | array _ | plain _ | map _ | set _ =>
      obtain ⟨numbers', bytes, hwrite⟩ :=
        h.items hnumbers (fun v hv => ⟨hitem hv, hsized v hv⟩) hnumbered hfuel
      rw [writeObject, writeContainer, hwrite]
      exact ⟨_, _, rfl⟩
  | date _ => exact ⟨_, _, rfl⟩
  | regExp _ _ =>
      obtain ⟨first, hfirst⟩ := putString_some hsized.1
      obtain ⟨second, hsecond⟩ := putString_some hsized.2
      rw [writeObject, hfirst, hsecond]
      exact ⟨_, _, rfl⟩
  | arrayBuffer _ =>
      rw [writeObject, word_some hsized]
      exact ⟨_, _, rfl⟩
  | view _ _ _ buffer =>
      have hbuffer := hchildren (.object buffer) (List.mem_singleton_self _)
      obtain ⟨numbers', bytes, hwrite⟩ := h numbers _ hbuffer trivial hnumbered hfuel
      rw [writeObject, word_some hsized.1, word_some hsized.2, Option.bind_eq_bind,
        Option.bind_some, Option.bind_eq_bind, Option.bind_some, hwrite]
      exact ⟨_, _, rfl⟩
  | uncloneable => exact hlawful.elim

theorem succeeds_writeValue (hclosed : Closed heap engine among) (hheap : heap.length ≤ 2 ^ 32)
    (hsized : ∀ r, among r → ∀ o, heap[r]? = some o → o.Sized) (fuel : Nat) :
    Succeeds heap among fuel (writeValue heap noTransfers fuel) := by
  induction fuel with
  | zero =>
      intro numbers v _ _ hnumbered hfuel
      have hle := hnumbered.length_le hclosed
      omega
  | succ fuel ih =>
      intro numbers v hwithin hv hnumbered hfuel
      cases v with
      | undefined | null | number _ => exact ⟨_, _, rfl⟩
      | boolean c => cases c <;> exact ⟨_, _, rfl⟩
      | string units =>
          obtain ⟨bytes, hput⟩ := putString_some hv
          rw [writeValue, hput]
          exact ⟨_, _, rfl⟩
      | bigInt n =>
          have hv : (Nat.digits (2 ^ 64) n.natAbs).length < 2 ^ 32 := hv
          rw [writeValue, writeBigInt, word_some hv]
          exact ⟨_, _, rfl⟩
      | object r =>
          have hamong := hwithin r rfl
          obtain ⟨o, hget, hlawful, hchildren⟩ := hclosed r hamong
          rw [writeValue]
          cases hidx : numbers.idxOf? r with
          | some id => exact ⟨_, _, rfl⟩
          | none =>
              have hnew := List.idxOf?_eq_none_iff.mp hidx
              have hpush := hnumbered.push hamong hnew
              have hle := hpush.length_le hclosed
              rw [List.length_append, List.length_singleton] at hle
              have hroom : numbers.length < 2 ^ 32 := by omega
              simp only [if_pos hroom, hget, Option.bind_some]
              refine ih.object (numbers_writeValue hclosed fuel) hlawful (hsized r hamong o hget)
                hchildren hpush ?_
              rw [List.length_append, List.length_singleton]
              omega

end Success

variable {bytes : Bytes}

section Read

variable {F : Type} {P : Policy F} {engine : Engine} {heap : Heap} {among : Ref → Prop}

theorem readHeader_at (b : Built) (rest : Bytes) :
    readHeader P (b.at (headerTag :: wireFormatVersion :: rest)) = (.ok (), b.at rest) := by
  rw [readHeader, bind_ok (takeU8_at P b _ _)]
  exact bind_ok (takeU8_at P b _ _)

theorem reads_readValues {f : Nat}
    (hmirrors : Mirrors heap (Value.Within among) f write (readInner P engine f)) {values : List Value}
    (hvalues : ∀ v ∈ values, v.Within among) {numbers numbers' : List Ref} {b : Built}
    (hwrite : writeItems write numbers (values.map some) = some (numbers', bytes))
    (hsize : bytes.length ≤ f) (hlinked : Linked heap numbers b) :
    Reads heap (fun _ => True) numbers b (readValues P engine f values.length) bytes numbers'
      fun b' values' => List.Forall₂ (Value.Same (Corresponds numbers' b')) values values' := by
  induction values generalizing numbers b bytes with
  | nil =>
      cases hwrite
      exact fun rest => ⟨[], b, rfl, hlinked, .refl, .nil⟩
  | cons v values ih =>
      obtain ⟨numbers₁, first, later, hfirst, hlater, rfl⟩ := writeItems_cons hwrite
      rw [List.length_append] at hsize
      intro rest
      obtain ⟨w, b₁, hread, hlinked₁, hgrown₁, hw⟩ := hmirrors _ _ _ _ _ hfirst
        (hvalues v (List.mem_cons_self ..)) (by omega) hlinked (later ++ rest)
      obtain ⟨ws, b₂, hread₂, hlinked₂, hgrown₂, hws⟩ :=
        ih (fun u hu => hvalues u (List.mem_cons_of_mem _ hu)) hlater (by omega) hlinked₁ rest
      refine ⟨w :: ws, b₂, ?_, hlinked₂, hgrown₁.trans hgrown₂ hlinked₁ (fun _ _ => trivial),
        .cons (hw.mono fun _ _ => hgrown₂.corresponds) hws⟩
      rw [List.append_assoc, List.length_cons, readValues, bind_ok hread, bind_ok hread₂]
      rfl

end Read

namespace Graph

variable {engine : Engine} (g : Graph engine)

/-- The objects of the graph. -/
abbrev Objects (ref : Ref) : Prop := Reachable g.heap g.values ref

theorem closed : Closed g.heap engine g.Objects := by
  intro r hr
  obtain ⟨o, hget, hlawful⟩ := g.lawful r hr
  refine ⟨o, hget, hlawful, ?_⟩
  rintro v hv r' rfl
  exact .child hr hget hv

theorem within {v : Value} (hv : v ∈ g.values) : v.Within g.Objects := by
  rintro r rfl
  exact .root hv

/-- What the serializer releases after the header and a call for each value. -/
def serialized : Option Bytes := serialize g.heap noTransfers g.values

theorem mem_of_item {values : List Value} {v : Value} (h : some v ∈ values.map some) :
    v ∈ values := by
  obtain ⟨u, hu, h⟩ := List.mem_map.mp h
  cases h
  exact hu

theorem serialized_isSome (h : g.Sized) : ∃ bytes, g.serialized = some bytes := by
  have hsucceeds := succeeds_writeValue g.closed h.heap (fun r hr => h.objects r hr)
    (g.heap.length + 1)
  have hitems : ∀ v, some v ∈ g.values.map some → v.Within g.Objects ∧ v.Sized := fun v hv =>
    ⟨g.within (mem_of_item hv), h.values v (mem_of_item hv)⟩
  obtain ⟨numbers', bytes, hwrite⟩ := hsucceeds.items (numbers_writeValue g.closed _) hitems
    (numbered_nil _) (Nat.lt_succ_self _)
  refine ⟨headerTag :: wireFormatVersion :: bytes, ?_⟩
  rw [serialized, serialize, writeValues, hwrite]
  rfl

theorem read_serialized {F : Type} {P : Policy F} (hP : P.Keeps) (h : g.serialized = some bytes)
    (heap' : Heap) {f : Nat} (hf : bytes.length ≤ f) :
    ∃ numbers values' b', (do readHeader P; readValues P engine f g.values.length : Read F _)
        (.start bytes heap') = (.ok values', b'.at []) ∧ Linked g.heap numbers b' ∧
      Grown g.heap (fun _ => True) [] ⟨[], heap'⟩ numbers b' ∧
      (∀ r ∈ numbers, g.Objects r) ∧
      List.Forall₂ (Value.Same (Corresponds numbers b')) g.values values' := by
  obtain ⟨⟨numbers, body⟩, hwrite, h⟩ := Option.bind_eq_some_iff.mp h
  cases h
  have hvalues : ∀ v ∈ g.values, v.Within g.Objects := fun v hv => g.within hv
  have hnumbered := ((numbers_writeValue g.closed _).items
    (fun v hv => g.within (mem_of_item hv)) hwrite (numbered_nil _)).2
  simp only [List.length_cons] at hf
  obtain ⟨values', b', hread, hlinked, hgrown, hsame⟩ :=
    reads_readValues (mirrors_readInner hP g.closed (g.heap.length + 1) f) hvalues hwrite
      (by omega) (linked_nil heap') []
  refine ⟨numbers, values', b', ?_, hlinked, hgrown, hnumbered.among, hsame⟩
  rw [List.append_nil] at hread
  exact (bind_ok (readHeader_at ⟨[], heap'⟩ body)).trans hread

/-- So many calls of `read_value` succeed, take all the bytes, and yield a graph
isomorphic to the one that was written. -/
def RoundTrips (heap' : Heap) (bytes : Bytes) : Prop :=
  ∃ values' s, deserialize engine heap' bytes g.values.length = (some values', s) ∧
    s.rest = [] ∧ Isomorphic g.heap g.values s.heap values'

/-- Every date holds a time that TimeClip leaves as it is. -/
def Clipped : Prop := ∀ r time, g.Objects r → g.heap[r]? = some (.date time) →
  SameTime time (timeClip time)

theorem keeps_asWritten : asWritten.Keeps := by
  intro m s v s' h
  simp only [asWritten, h]

theorem timeClip_box (time : UInt64) : timeClip (Double.box time).val = timeClip time := by
  by_cases h : time.toNat / 2 ^ 48 = 0x7FF8
  · have hmagnitude : 0x433EB208C2DC0000 < time.toNat % 2 ^ 63 := by
      have := time.toNat_lt
      omega
    have hbox : Double.box time = ⟨0x7FF9000000000000, by decide⟩ := dif_pos h
    have hclip : timeClip time = 0x7FF8000000000000 := if_pos hmagnitude
    rw [hbox, hclip]
    rfl
  · have hbox : Double.box time = ⟨time, h⟩ := dif_neg h
    rw [hbox]

/-- What the deserializer answers for what the serializer released. -/
theorem deserialize_serialized (h : g.serialized = some bytes) (heap' : Heap) :
    ∃ numbers values' b', deserialize engine heap' bytes g.values.length =
        (some values', b'.at []) ∧ Linked g.heap numbers b' ∧
      (∀ r ∈ numbers, g.Objects r) ∧
      (∀ r t, Corresponds numbers b' r t → ∃ o o', g.heap[r]? = some o ∧ b'.heap[t]? = some o' ∧
        o.Same ReadTime (Corresponds numbers b') o') ∧
      List.Forall₂ (Value.Same (Corresponds numbers b')) g.values values' := by
  obtain ⟨numbers, values', b', hread, hlinked, hgrown, hnumbers, hsame⟩ :=
    g.read_serialized keeps_asWritten h heap' (Nat.le_succ bytes.length)
  refine ⟨numbers, values', b', ?_, hlinked, hnumbers, ?_, hsame⟩
  · rw [deserialize, hread]
  · rintro r t ⟨id, hr, ht⟩
    exact (hgrown.fresh id r t (Nat.zero_le _) hr ht).2

theorem roundTrips_of_clipped (h : g.serialized = some bytes) (heap' : Heap) (hclipped : g.Clipped) :
    g.RoundTrips heap' bytes := by
  obtain ⟨numbers, values', b', hread, hlinked, hnumbers, hobjects, hvalues⟩ :=
    g.deserialize_serialized h heap'
  refine ⟨values', b'.at [], hread, rfl, Corresponds numbers b', hlinked.functional,
    hlinked.oneToOne, ?_, hvalues⟩
  intro r t hc
  obtain ⟨o, o', hget, hget', hsame⟩ := hobjects r t hc
  refine ⟨o, o', hget, hget', ?_⟩
  cases hsame with
  | array h => exact .array h
  | plain h => exact .plain h
  | map h => exact .map h
  | set h => exact .set h
  | regExp => exact .regExp
  | arrayBuffer => exact .arrayBuffer
  | view h => exact .view h
  | @date time time' htime =>
      obtain ⟨id, hr, -⟩ := hc
      rw [htime, timeClip_box]
      exact .date (hclipped r time (hnumbers r (List.mem_of_getElem? hr)) hget)

/-- Two links from the same values to the same ones agree on every object. -/
theorem linked_both {heap' : Heap} {values' : List Value} {link link' : Ref → Ref → Prop}
    {time time' : UInt64 → UInt64 → Prop} (hobjects : ∀ r t, link r t →
      ∃ o o', g.heap[r]? = some o ∧ heap'[t]? = some o' ∧ o.Same time link o')
    (hobjects' : ∀ r t, link' r t →
      ∃ o o', g.heap[r]? = some o ∧ heap'[t]? = some o' ∧ o.Same time' link' o')
    (hvalues : List.Forall₂ (Value.Same link) g.values values')
    (hvalues' : List.Forall₂ (Value.Same link') g.values values') (hr : g.Objects r) :
    ∃ t, link r t ∧ link' r t := by
  induction hr with
  | root hmem =>
      obtain ⟨w, hw, hw'⟩ := exists_of_forall₂ (forall₂_both hvalues hvalues') hmem
      cases hw.and hw' with
      | primitive h => cases h
      | object h => exact ⟨_, h⟩
  | child _ hget hmem ih =>
      obtain ⟨t, ht, ht'⟩ := ih
      obtain ⟨o₁, o₁', hget₁, hget₁', hsame⟩ := hobjects _ t ht
      obtain ⟨o₂, o₂', hget₂, hget₂', hsame'⟩ := hobjects' _ t ht'
      rw [hget] at hget₁ hget₂
      rw [hget₁'] at hget₂'
      cases hget₁
      cases hget₂
      cases hget₂'
      exact (hsame.and hsame').child hmem

theorem clipped_of_roundTrips (h : g.serialized = some bytes) {heap' : Heap}
    (htrips : g.RoundTrips heap' bytes) : g.Clipped := by
  obtain ⟨values', s, hread, -, link, -, -, hlink, hvalues⟩ := htrips
  obtain ⟨numbers, values₂, b', hread₂, -, -, hobjects, hvalues₂⟩ :=
    g.deserialize_serialized h heap'
  rw [hread] at hread₂
  cases hread₂
  intro r time hr hget
  obtain ⟨t, ht, ht'⟩ := g.linked_both hlink hobjects hvalues hvalues₂ hr
  obtain ⟨o₁, o₁', hget₁, hget₁', hsame⟩ := hlink r t ht
  obtain ⟨o₂, o₂', hget₂, hget₂', hsame'⟩ := hobjects r t ht'
  rw [hget] at hget₁ hget₂
  cases hget₁
  cases hget₂
  cases hget₁'.symm.trans hget₂'
  cases hsame.and hsame' with
  | date htime =>
      rw [← timeClip_box, ← htime.2]
      exact htime.1

/-- A graph whose sizes fit is written, and what was written is read back as it
was exactly when its dates are clipped. -/
theorem roundTrips_iff_clipped :
    (g.Sized → ∃ bytes, g.serialized = some bytes) ∧
    ∀ bytes, g.serialized = some bytes → ∀ heap', g.RoundTrips heap' bytes ↔ g.Clipped :=
  ⟨g.serialized_isSome, fun _ h heap' =>
    ⟨g.clipped_of_roundTrips h, g.roundTrips_of_clipped h heap'⟩⟩

/-- A heap whose objects are all lawful and refer to each other. -/
def ofHeap (heap : Heap) (values : List Value)
    (hvalues : ∀ r, .object r ∈ values → r < heap.length)
    (hheap : ∀ o ∈ heap, o.Lawful heap engine ∧ ∀ r, .object r ∈ o.children → r < heap.length) :
    Graph engine where
  heap := heap
  values := values
  lawful ref href := by
    have hlt : ref < heap.length := by
      cases href with
      | root hmem => exact hvalues ref hmem
      | child _ hget hmem => exact (hheap _ (List.mem_of_getElem? hget)).2 ref hmem
    exact ⟨heap[ref], List.getElem?_eq_getElem hlt, (hheap _ (List.getElem_mem hlt)).1⟩

/-- No RegExp can be made and nothing is transferred. -/
def bare : Engine := ⟨fun _ _ => none, fun _ => none, fun _ => none⟩

/-- An array that holds itself, a hole, a date, and a Map with the array for a
key; the date is a value too. -/
def cyclic : Graph bare :=
  ofHeap [.array [some (.object 0), none, some (.object 1), some (.object 2)],
    .date 0x3FF0000000000000, .map [(.object 0, .object 1)]] [.object 0, .object 1]
    (by simp)
    (by simp [Obj.Lawful, Obj.children, Obj.items, List.reduceOption, normalizeKey])

theorem cyclic_roundTrips : cyclic.RoundTrips [] [0xFF, 1, 9, 4, 0, 0, 0, 8, 0, 0, 0, 0, 0,
    0x0D, 0, 0, 0, 0, 0, 0, 0xF0, 0x3F, 0x0B, 1, 0, 0, 0, 8, 0, 0, 0, 0, 8, 1, 0, 0, 0,
    8, 1, 0, 0, 0] := by
  refine (cyclic.roundTrips_iff_clipped.2 _ (by decide) []).mpr ?_
  intro r time _ hget
  match r with
  | 0 => cases hget
  | 1 =>
      cases hget
      decide
  | 2 => cases hget
  | r + 3 => cases hget

/-- A date made with the time 1.5. -/
def unclipped : Graph bare := ofHeap [.date 0x3FF8000000000000] [.object 0] (by simp)
  (by simp [Obj.Lawful, Obj.children, Obj.items, List.reduceOption])

theorem unclipped_not_roundTrips :
    unclipped.serialized = some [0xFF, 1, 0x0D, 0, 0, 0, 0, 0, 0, 0xF8, 0x3F] ∧
      ¬ unclipped.RoundTrips [] [0xFF, 1, 0x0D, 0, 0, 0, 0, 0, 0, 0xF8, 0x3F] := by
  have hbytes : unclipped.serialized = some [0xFF, 1, 0x0D, 0, 0, 0, 0, 0, 0, 0xF8, 0x3F] := by
    decide
  refine ⟨hbytes, fun h => ?_⟩
  have hclipped := unclipped.clipped_of_roundTrips hbytes h 0 0x3FF8000000000000
    (.root (List.mem_singleton_self _)) rfl
  revert hclipped
  decide

end Graph

end Slag.V8
