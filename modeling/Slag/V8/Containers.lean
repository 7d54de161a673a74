import Mathlib.Data.List.TakeWhile
import Slag.V8.Mirror

/-!
Each container is read back: its number comes first, then its parts one after
another, and the object that is built has them in their order.
-/

namespace Slag.V8

open LittleEndian

/-- An element that was read is kept. -/
def Policy.Keeps {F : Type} (P : Policy F) : Prop :=
  ∀ m s v s', m s = (.ok v, s') → P.element m s = (.ok (some v), s')

variable {F α β γ : Type} {P : Policy F} {heap : Heap} {within : Value → Prop} {size : Nat}
  {write : List Ref → Value → Option Written} {nested : Read F Value}
  {numbers numbers' : List Ref} {b b' : Built} {r n : Ref} {o o₀ : Obj} {bytes : Bytes}

def Built.reserved (b : Built) : Built := ⟨b.memo ++ [none], b.heap⟩

theorem reserve_at (hlinked : Linked heap numbers b) (hroom : numbers.length < 2 ^ 32)
    (rest : Bytes) : reserve P (b.at rest) = (.ok numbers.length, b.reserved.at rest) := by
  rw [← hlinked.length] at hroom ⊢
  exact if_pos hroom

theorem set_reserved (xs : List (Option Value)) (v : Value) :
    (xs ++ [none]).set xs.length (some v) = xs ++ [some v] := by
  rw [List.set_append_right _ _ (Nat.le_refl _), Nat.sub_self]
  rfl

theorem finish_at (hlinked : Linked heap numbers b) (o : Obj) (rest : Bytes) :
    finish numbers.length o (b.reserved.at rest : Reader) =
      ((.ok (.object b.heap.length), (b.extend [b.heap.length] [o]).at rest) :
        Except F Value × Reader) := by
  change (Except.ok (Value.object b.heap.length),
    Reader.mk rest ((b.memo ++ [none]).set numbers.length _) (b.heap ++ [o])) = _
  rw [← hlinked.length, set_reserved]
  rfl

theorem begin_at (hlinked : Linked heap numbers b) (hroom : numbers.length < 2 ^ 32) (o : Obj)
    (rest : Bytes) :
    begin P o (b.at rest) = (.ok b.heap.length, (b.extend [b.heap.length] [o]).at rest) := by
  rw [begin, bind_ok (reserve_at hlinked hroom rest)]
  change (Except.ok b.heap.length,
    Reader.mk rest ((b.memo ++ [none]).set numbers.length _) (b.heap ++ [o])) = _
  rw [← hlinked.length, set_reserved]
  rfl

/-- A length that is set at once is the length of what was begun. -/
theorem begin_update (o : Obj) (change : Obj → Obj) (k : Ref → Read F α) :
    (begin P o >>= fun ref => update ref change >>= fun _ => k ref) = begin P (change o) >>= k := by
  funext s
  by_cases hroom : s.memo.length < 2 ^ 32
  · have hreserve : reserve P s = (.ok s.memo.length, { s with memo := s.memo ++ [none] }) :=
      if_pos hroom
    have hbegin (o : Obj) : begin P o s = (.ok s.heap.length,
        ⟨s.rest, (s.memo ++ [none]).set s.memo.length (some (.object s.heap.length)),
          s.heap ++ [o]⟩) := by
      rw [begin, bind_ok hreserve]
      rfl
    have hmodify : (s.heap ++ [o]).modify s.heap.length change = s.heap ++ [change o] := by
      rw [List.modify_eq_take_drop, List.take_left, List.drop_left]
      rfl
    rw [bind_ok (hbegin o), bind_ok (hbegin (change o)), ← hmodify]
    rfl
  · have hreserve : reserve P s = (.error P.bad, s) := if_neg hroom
    have hbegin (o : Obj) : begin P o s = (.error P.bad, s) := bind_error hreserve
    rw [bind_error (hbegin o), bind_error (hbegin (change o))]

variable {G : Type} {v : Value} {entries : List (Value × Value)} {elements : List Value}

/-- The number comes first, the parts are read after it one by one. -/
theorem reads_container (encode : G → List (Option Value))
    (inv : (Ref → Ref → Prop) → List G → Obj → Prop) (step : Ref → Nat → Read F Unit) (o₀ : Obj)
    (all : List G) (hlinked : Linked heap numbers b) (hr : r ∉ numbers)
    (hroom : numbers.length < 2 ^ 32) (hget : heap[r]? = some o)
    (hbuffer : ∀ bytes, o ≠ .arrayBuffer bytes)
    (hwrite : writeItems write (numbers ++ [r]) (all.flatMap encode) = some (numbers', bytes))
    (hsize : bytes.length ≤ size) (hinit : ∀ link, inv link [] o₀)
    (hdone : ∀ link o', inv link all o' → o.Same ReadTime link o')
    (hstep : ∀ n read g unread, read ++ g :: unread = all → ∀ numbers b numbers' bytes o,
      writeItems write numbers (encode g) = some (numbers', bytes) → bytes.length ≤ size →
      Linked heap numbers b → b.heap[n]? = some o → inv (Corresponds numbers b) read o →
      Reads heap (· ≠ n) numbers b (step n read.length) bytes numbers' fun b' _ =>
        ∃ o', b'.heap[n]? = some o' ∧ inv (Corresponds numbers' b') (read ++ [g]) o') :
    Reads heap (fun _ => True) numbers b
      (begin P o₀ >>= fun ref => repeatRead (step ref) 0 all.length >>= fun _ =>
        pure (.object ref)) bytes numbers'
      fun b' w => (Value.object r).Same (Corresponds numbers' b') w := by
  intro rest
  have hpush : Linked heap (numbers ++ [r]) (b.extend [b.heap.length] [o₀]) := by
    refine hlinked.push hr hroom fun bytes hbytes => ?_
    rw [hget] at hbytes
    exact absurd (Option.some.inj hbytes) (hbuffer bytes)
  have hstart : (b.extend [b.heap.length] [o₀]).heap[b.heap.length]? = some o₀ :=
    List.getElem?_concat_length
  obtain ⟨_, b', hread, hlinked', hgrown, o', ho', hinv⟩ :=
    reads_repeatRead (hstep b.heap.length) all [] rfl hwrite hsize hpush hstart (hinit _) rest
  refine ⟨.object b.heap.length, b', ?_, hlinked',
    hgrown.close hlinked hget ho' (hdone _ o' hinv), ?_⟩
  · rw [bind_ok (begin_at hlinked hroom o₀ _)]
    exact bind_ok hread
  · exact .object (hgrown.corresponds (corresponds_push hlinked))

/-- The object at `n` takes up what was read beside it. -/
theorem Grown.settle (h : Grown heap (fun _ => True) numbers b numbers' b')
    (hlinked' : Linked heap numbers' b') (ho : b.heap[n]? = some o)
    (hbuffer : ∀ bytes, o ≠ .arrayBuffer bytes) (change : Obj → Obj) :
    Linked heap numbers' (b'.update n change) ∧
      Grown heap (· ≠ n) numbers b numbers' (b'.update n change) ∧
      (b'.update n change).heap[n]? = some (change o) := by
  obtain ⟨hlt, -⟩ := List.getElem?_eq_some_iff.mp ho
  have ho' : b'.heap[n]? = some o := by rw [h.frame n hlt trivial, ho]
  refine ⟨hlinked'.update ho' hbuffer change, ?_, getElem?_update ho' change⟩
  refine (h.weaken fun _ _ _ => trivial).trans (.update change) hlinked' ?_
  rintro t ht rfl
  exact absurd hlt (Nat.not_lt.mpr ht)

theorem Mirrors.single (hmirrors : Mirrors heap within size write nested) (hv : within v)
    (hlinked : Linked heap numbers b)
    (hwrite : writeItems write numbers [some v] = some (numbers', bytes)) (hsize : bytes.length ≤ size) :
    Reads heap (fun _ => True) numbers b nested bytes numbers' fun b' w =>
      v.Same (Corresponds numbers' b') w := by
  obtain ⟨numbers₁, first, later, hfirst, hlater, rfl⟩ := writeItems_cons hwrite
  cases hlater
  rw [List.append_nil] at hsize ⊢
  exact hmirrors _ _ _ _ _ hfirst hv hsize hlinked

/-- Two values in turn. -/
theorem Mirrors.pair (hmirrors : Mirrors heap within size write nested) {k v : Value}
    (hk : within k) (hv : within v) (hlinked : Linked heap numbers b)
    (hwrite : writeItems write numbers [some k, some v] = some (numbers', bytes))
    (hsize : bytes.length ≤ size) (rest : Bytes) :
    ∃ (w w' : Value) (b₁ b₂ : Built) (rest₁ : Bytes), nested (b.at (bytes ++ rest)) = (.ok w, b₁.at rest₁) ∧
      nested (b₁.at rest₁) = (.ok w', b₂.at rest) ∧ Linked heap numbers' b₂ ∧
      Grown heap (fun _ => True) numbers b numbers' b₂ ∧
      k.Same (Corresponds numbers' b₂) w ∧ v.Same (Corresponds numbers' b₂) w' := by
  obtain ⟨numbers₁, first, later, hfirst, hlater, rfl⟩ := writeItems_cons hwrite
  obtain ⟨numbers₂, second, last, hsecond, hlast, rfl⟩ := writeItems_cons hlater
  cases hlast
  rw [List.append_nil] at hsize ⊢
  rw [List.length_append] at hsize
  obtain ⟨w, b₁, hread, hlinked₁, hgrown₁, hw⟩ :=
    hmirrors _ _ _ _ _ hfirst hk (by omega) hlinked (second ++ rest)
  obtain ⟨w', b₂, hread₂, hlinked₂, hgrown₂, hw'⟩ :=
    hmirrors _ _ _ _ _ hsecond hv (by omega) hlinked₁ rest
  refine ⟨w, w', b₁, b₂, second ++ rest, ?_, hread₂, hlinked₂,
    hgrown₁.trans hgrown₂ hlinked₁ (fun _ _ => trivial),
    hw.mono fun _ _ => hgrown₂.corresponds, hw'⟩
  rw [List.append_assoc]
  exact hread

theorem mapSet_snoc {key v : Value} (hnew : ∀ e ∈ entries, sameValueZero e.1 key = false)
    (hnormal : normalizeKey key = key) :
    mapSet entries key v = entries ++ [(key, v)] := by
  have hany : ¬ (entries.any fun e => sameValueZero e.1 key) := by
    rw [List.any_eq_true]
    rintro ⟨e, he, hsame⟩
    rw [hnew e he] at hsame
    cases hsame
  rw [mapSet, if_neg hany, hnormal]

theorem setAdd_snoc (hnew : ∀ e ∈ elements, sameValueZero e v = false) (hnormal : normalizeKey v = v) :
    setAdd elements v = elements ++ [v] := by
  have hany : ¬ (elements.any fun e => sameValueZero e v) := by
    rw [List.any_eq_true]
    rintro ⟨e, he, hsame⟩
    rw [hnew e he] at hsame
    cases hsame
  rw [setAdd, if_neg hany, hnormal]

theorem defineEntry_snoc {entries : List (Units × Value)} {key : Units}
    (hnew : ∀ e ∈ entries, e.1 ≠ key ∧ keyBefore e.1 key) :
    defineEntry entries key v = entries ++ [(key, v)] := by
  have hany : ¬ (entries.any fun e => e.1 = key) := by
    rw [List.any_eq_true]
    rintro ⟨e, he, hsame⟩
    exact (hnew e he).1 (of_decide_eq_true hsame)
  have hbefore : ∀ e ∈ entries, keyBefore e.1 key = true := fun e he => (hnew e he).2
  rw [defineEntry, if_neg hany, List.takeWhile_eq_self_iff.mpr hbefore,
    List.dropWhile_eq_nil_iff.mpr hbefore]

/-- What holds between an earlier part and a later one, at the part being read. -/
theorem rel_of_pairwise {R : G → G → Prop} {all read unread : List G} {g : G} (h : all.Pairwise R)
    (hall : read ++ g :: unread = all) : ∀ e ∈ read, R e g := by
  subst hall
  intro e he
  exact (List.pairwise_append.mp h).2.2 e he g (List.mem_cons_self ..)

theorem mem_of_split {all read unread : List G} {g : G} (hall : read ++ g :: unread = all) :
    g ∈ all := by
  rw [← hall]
  exact List.mem_append_right _ (List.mem_cons_self ..)

/-- The built parts stand apart from a new one as the read ones do. -/
theorem forall_built {G H : Type} {S : G → H → Prop} {A : G → Prop} {B : H → Prop}
    {read : List G} {built : List H} (h : List.Forall₂ S read built) (ha : ∀ e ∈ read, A e)
    (hab : ∀ e e', S e e' → A e → B e') : ∀ e' ∈ built, B e' := by
  induction h with
  | nil => exact fun _ he => absurd he (List.not_mem_nil)
  | @cons e e' read built hs _ ih =>
      intro x hx
      rcases List.mem_cons.mp hx with rfl | hx
      · exact hab e _ hs (ha e (List.mem_cons_self ..))
      · exact ih (fun y hy => ha y (List.mem_cons_of_mem _ hy)) x hx

theorem forall₂_snoc {G H : Type} {S : G → H → Prop} {read : List G} {built : List H} {g : G}
    {x : H} (h : List.Forall₂ S read built) (hx : S g x) :
    List.Forall₂ S (read ++ [g]) (built ++ [x]) :=
  List.rel_append h (.cons hx .nil)

section Kinds

variable (hlinked : Linked heap numbers b) (hr : r ∉ numbers) (hroom : numbers.length < 2 ^ 32)
  (hmirrors : Mirrors heap within size write nested)

include hlinked hr hroom hmirrors

theorem reads_readMap (hget : heap[r]? = some (.map entries)) (hcount : 2 * entries.length < 2 ^ 32)
    (hkeys : entries.Pairwise fun e e' => sameValueZero e.1 e'.1 = false)
    (hnormal : ∀ e ∈ entries, normalizeKey e.1 = e.1) (hwithin : ∀ e ∈ entries, within e.1 ∧ within e.2)
    (hwrite : writeItems write (numbers ++ [r]) (Obj.items (.map entries)) =
      some (numbers', bytes)) (hsize : bytes.length ≤ size) :
    Reads heap (fun _ => True) numbers b (readMap P nested) (put 4 entries.length ++ bytes)
      numbers' fun b' w => (Value.object r).Same (Corresponds numbers' b') w := by
  intro rest
  rw [List.append_assoc, readMap, bind_ok (takeU32_at P b (by omega) _)]
  refine reads_container (fun e => [some e.1, some e.2])
    (fun link read o => ∃ built, o = .map built ∧
      List.Forall₂ (fun e e' => e.1.Same link e'.1 ∧ e.2.Same link e'.2) read built)
    (fun ref _ => do
      let key ← nested
      let entry ← nested
      update ref (Obj.mapSet key entry)) (.map []) entries hlinked hr hroom hget
    (fun _ h => by cases h) hwrite hsize (fun _ => ⟨[], rfl, .nil⟩) ?_ ?_ rest
  · rintro link _ ⟨built, rfl, hbuilt⟩
    exact .map hbuilt
  · rintro n read e unread hall numbers₁ b₁ numbers₂ bytes₁ _ hwrite₁ hsize₁ hlinked₁ ho₁
      ⟨built, rfl, hbuilt⟩ rest₁
    have hmem := mem_of_split hall
    obtain ⟨w, w', _, b₂, rest₂, hkey, hentry, hlinked₂, hgrown₂, hw, hw'⟩ :=
      hmirrors.pair (hwithin e hmem).1 (hwithin e hmem).2 hlinked₁ hwrite₁ hsize₁ rest₁
    obtain ⟨hlinked₃, hgrown₃, ho₃⟩ := hgrown₂.settle hlinked₂ ho₁ (fun _ h => by cases h)
      (Obj.mapSet w w')
    have hbuilt₂ := hbuilt.imp fun e e' (h : _ ∧ _) =>
      And.intro (h.1.mono fun _ _ => hgrown₂.corresponds) (h.2.mono fun _ _ => hgrown₂.corresponds)
    have hapart := forall_built hbuilt₂ (rel_of_pairwise hkeys hall) fun e₁ e₁' h happart =>
      (sameValueZero_same hlinked₂.functional hlinked₂.oneToOne h.1 hw).trans happart
    refine ⟨(), _, ?_, hlinked₃, hgrown₃, _, ho₃, built ++ [(w, w')], ?_, ?_⟩
    · rw [bind_ok hkey, bind_ok hentry]
      rfl
    · rw [Obj.mapSet, mapSet_snoc hapart (normalizeKey_same hw (hnormal e hmem))]
    · exact forall₂_snoc hbuilt₂ ⟨hw, hw'⟩

theorem reads_readSet (hget : heap[r]? = some (.set elements)) (hcount : 2 * elements.length < 2 ^ 32)
    (hkeys : elements.Pairwise fun e e' => sameValueZero e e' = false)
    (hnormal : ∀ e ∈ elements, normalizeKey e = e) (hwithin : ∀ e ∈ elements, within e)
    (hwrite : writeItems write (numbers ++ [r]) (Obj.items (.set elements)) =
      some (numbers', bytes)) (hsize : bytes.length ≤ size) :
    Reads heap (fun _ => True) numbers b (readSet P nested) (put 4 elements.length ++ bytes)
      numbers' fun b' w => (Value.object r).Same (Corresponds numbers' b') w := by
  intro rest
  have hitems : elements.flatMap (fun e => [some e]) = Obj.items (.set elements) :=
    List.flatMap_pure_eq_map some elements
  rw [← hitems] at hwrite
  rw [List.append_assoc, readSet, bind_ok (takeU32_at P b (by omega) _)]
  refine reads_container (fun e => [some e])
    (fun link read o => ∃ built, o = .set built ∧ List.Forall₂ (Value.Same link) read built)
    (fun ref _ => do
      let element ← nested
      update ref (Obj.setAdd element)) (.set []) elements hlinked hr hroom hget
    (fun _ h => by cases h) hwrite hsize (fun _ => ⟨[], rfl, .nil⟩) ?_ ?_ rest
  · rintro link _ ⟨built, rfl, hbuilt⟩
    exact .set hbuilt
  · rintro n read e unread hall numbers₁ b₁ numbers₂ bytes₁ _ hwrite₁ hsize₁ hlinked₁ ho₁
      ⟨built, rfl, hbuilt⟩ rest₁
    have hmem := mem_of_split hall
    obtain ⟨w, b₂, hread, hlinked₂, hgrown₂, hw⟩ :=
      hmirrors.single (hwithin e hmem) hlinked₁ hwrite₁ hsize₁ rest₁
    obtain ⟨hlinked₃, hgrown₃, ho₃⟩ := hgrown₂.settle hlinked₂ ho₁ (fun _ h => by cases h)
      (Obj.setAdd w)
    have hbuilt₂ := hbuilt.imp fun e e' (h : Value.Same _ e e') =>
      h.mono fun _ _ => hgrown₂.corresponds
    have hapart := forall_built hbuilt₂ (rel_of_pairwise hkeys hall) fun e₁ e₁' h happart =>
      (sameValueZero_same hlinked₂.functional hlinked₂.oneToOne h hw).trans happart
    refine ⟨(), _, ?_, hlinked₃, hgrown₃, _, ho₃, built ++ [w], ?_, ?_⟩
    · rw [bind_ok hread]
      rfl
    · rw [Obj.setAdd, setAdd_snoc hapart (normalizeKey_same hw (hnormal e hmem))]
    · exact forall₂_snoc hbuilt₂ hw

theorem reads_readObject {entries : List (Units × Value)} (hget : heap[r]? = some (.plain entries))
    (hcount : entries.length < 2 ^ 32)
    (hkeys : entries.Pairwise fun e e' => e.1 ≠ e'.1 ∧ keyBefore e.1 e'.1)
    (hwithin : ∀ e ∈ entries, within (.string e.1) ∧ within e.2)
    (hwrite : writeItems write (numbers ++ [r]) (Obj.items (.plain entries)) =
      some (numbers', bytes)) (hsize : bytes.length ≤ size) :
    Reads heap (fun _ => True) numbers b (readObject P nested) (put 4 entries.length ++ bytes)
      numbers' fun b' w => (Value.object r).Same (Corresponds numbers' b') w := by
  intro rest
  rw [List.append_assoc, readObject, bind_ok (takeU32_at P b hcount _)]
  refine reads_container (fun e => [some (.string e.1), some e.2])
    (fun link read o => ∃ built, o = .plain built ∧
      List.Forall₂ (fun e e' => e.1 = e'.1 ∧ e.2.Same link e'.2) read built)
    (fun ref _ => do
      let key ← nested
      let entry ← nested
      let name ← expect P key.asName
      update ref (Obj.define name entry)) (.plain []) entries hlinked hr hroom hget
    (fun _ h => by cases h) hwrite hsize (fun _ => ⟨[], rfl, .nil⟩) ?_ ?_ rest
  · rintro link _ ⟨built, rfl, hbuilt⟩
    exact .plain hbuilt
  · rintro n read e unread hall numbers₁ b₁ numbers₂ bytes₁ _ hwrite₁ hsize₁ hlinked₁ ho₁
      ⟨built, rfl, hbuilt⟩ rest₁
    have hmem := mem_of_split hall
    obtain ⟨w, w', _, b₂, rest₂, hkey, hentry, hlinked₂, hgrown₂, hw, hw'⟩ :=
      hmirrors.pair (hwithin e hmem).1 (hwithin e hmem).2 hlinked₁ hwrite₁ hsize₁ rest₁
    cases hw
    obtain ⟨hlinked₃, hgrown₃, ho₃⟩ := hgrown₂.settle hlinked₂ ho₁ (fun _ h => by cases h)
      (Obj.define e.1 w')
    have hbuilt₂ := hbuilt.imp fun e e' (h : _ ∧ _) =>
      And.intro h.1 (h.2.mono fun _ _ => hgrown₂.corresponds)
    have hbefore := forall_built hbuilt₂ (rel_of_pairwise hkeys hall)
      (B := fun e' => e'.1 ≠ e.1 ∧ keyBefore e'.1 e.1) fun e₁ e₁' h hbefore => by
        rw [← h.1]
        exact hbefore
    refine ⟨(), _, ?_, hlinked₃, hgrown₃, _, ho₃, built ++ [(e.1, w')], ?_, ?_⟩
    · rw [bind_ok hkey, bind_ok hentry]
      rfl
    · rw [Obj.define, defineEntry_snoc hbefore]
    · exact forall₂_snoc hbuilt₂ ⟨rfl, hw'⟩

omit hmirrors

theorem reads_readArray {element : Read F (Option Value)} {elements : List (Option Value)}
    (hhole : ∀ b rest, element (Built.at b (tagHole :: rest)) = (.ok none, b.at rest))
    (hmirrors : Mirrors heap within size write nested)
    (hpresent : ∀ numbers v numbers' bytes, write numbers v = some (numbers', bytes) →
      ∀ b rest w s', nested (Built.at b (bytes ++ rest)) = (.ok w, s') →
        element (b.at (bytes ++ rest)) = (.ok (some w), s'))
    (hget : heap[r]? = some (.array elements)) (hcount : elements.length < 2 ^ 32)
    (hwithin : ∀ v, some v ∈ elements → within v)
    (hwrite : writeItems write (numbers ++ [r]) (Obj.items (.array elements)) =
      some (numbers', bytes)) (hsize : bytes.length ≤ size) :
    Reads heap (fun _ => True) numbers b (readArray P element) (put 4 elements.length ++ bytes)
      numbers' fun b' w => (Value.object r).Same (Corresponds numbers' b') w := by
  intro rest
  have hitems : elements.flatMap (fun item => [item]) = Obj.items (.array elements) :=
    List.flatMap_singleton' elements
  rw [← hitems] at hwrite
  rw [List.append_assoc, readArray, bind_ok (takeU32_at P b hcount _), begin_update]
  refine reads_container (fun item => [item])
    (fun link read o => ∃ built,
      o = .array (built ++ List.replicate (elements.length - read.length) none) ∧
      List.Forall₂ (Option.Rel (Value.Same link)) read built) _
    (.array (List.replicate elements.length none)) elements hlinked hr hroom hget
    (fun _ h => by cases h) hwrite hsize (fun _ => ⟨[], rfl, .nil⟩) ?_ ?_ rest
  · rintro link _ ⟨built, rfl, hbuilt⟩
    rw [Nat.sub_self, List.replicate_zero, List.append_nil]
    exact .array hbuilt
  · rintro n read item unread hall numbers₁ b₁ numbers₂ bytes₁ _ hwrite₁ hsize₁ hlinked₁ ho₁
      ⟨built, rfl, hbuilt⟩ rest₁
    have hholes : List.replicate (elements.length - read.length) (none : Option Value) =
        none :: List.replicate (elements.length - (read ++ [item]).length) none := by
      rw [← List.replicate_succ, ← hall]
      congr 1
      simp only [List.length_append, List.length_cons, List.length_nil]
      omega
    rw [hholes] at ho₁
    cases item with
    | none =>
        obtain ⟨later, hlater, rfl⟩ := writeItems_hole hwrite₁
        cases hlater
        refine ⟨(), b₁, ?_, hlinked₁, .refl, _, ho₁, built ++ [none], ?_,
          forall₂_snoc hbuilt .none⟩
        · exact bind_ok (hhole b₁ rest₁)
        · rw [List.append_assoc]
          rfl
    | some v =>
        have hmem := hwithin v (mem_of_split hall)
        obtain ⟨w, b₂, hread, hlinked₂, hgrown₂, hw⟩ :=
          hmirrors.single hmem hlinked₁ hwrite₁ hsize₁ rest₁
        obtain ⟨hlinked₃, hgrown₃, ho₃⟩ := hgrown₂.settle hlinked₂ ho₁ (fun _ h => by cases h)
          (Obj.setElement read.length w)
        have hbuilt₂ := hbuilt.imp fun e e' (h : Option.Rel _ e e') =>
          optionSame_mono (fun _ _ => hgrown₂.corresponds) h
        refine ⟨(), _, ?_, hlinked₃, hgrown₃, _, ho₃, built ++ [some w], ?_,
          forall₂_snoc hbuilt₂ (.some hw)⟩
        · obtain ⟨numbers₃, first, later, hfirst, hlater, rfl⟩ := writeItems_cons hwrite₁
          cases hlater
          rw [List.append_nil] at hread ⊢
          exact bind_ok (hpresent _ _ _ _ hfirst _ _ _ _ hread)
        · rw [Obj.setElement, List.set_append_right _ _ (Nat.le_of_eq hbuilt.length_eq.symm),
            hbuilt.length_eq, Nat.sub_self, List.append_assoc]
          rfl

end Kinds

end Slag.V8
