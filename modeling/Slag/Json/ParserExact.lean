import Slag.Json.Made

/-!
The parser accepts the texts of the grammar, and makes what they denote.
-/

namespace Slag.Json

open Crux AssocList

variable {l r : Text} {number : Text → F64}

/-! What a derivation leaves is shorter. -/

variable {ts : List Tree} {m : JsString × Tree} {ms : List (JsString × Tree)} {s : JsString}
  {c : UInt16} {t : Tree} {records : Bool} {heap : Heap} {values : List Value} {turns : Nat}

variable {τ : Type} {V : Text → Tree → Text → Prop} {l' : Text} {v : Value}

theorem Elements.mono {V W : Text → Tree → Text → Prop} (h : Elements V l ts r)
    (hVW : ∀ l, ∀ t ∈ ts, ∀ r, V l t r → W l t r) : Elements W l ts r := by
  induction h with
  | last h₁ hv h₂ => exact .last h₁ (hVW _ _ List.mem_cons_self _ hv) h₂
  | more h₁ hv h₂ _ ih =>
      exact .more h₁ (hVW _ _ List.mem_cons_self _ hv) h₂
        (ih fun l t ht r => hVW l t (List.mem_cons_of_mem _ ht) r)

theorem Member.mono {V W : Text → Tree → Text → Prop} (h : Member V m l r)
    (hVW : ∀ l r, V l m.2 r → W l m.2 r) : Member W m l r := by
  cases h with
  | mk h₁ hk h₂ h₃ hv => exact .mk h₁ hk h₂ h₃ (hVW _ _ hv)

theorem Members.mono {V W : Text → Tree → Text → Prop} (h : Members V l ms r)
    (hVW : ∀ l, ∀ m ∈ ms, ∀ r, V l m.2 r → W l m.2 r) :
    Members W l ms r := by
  induction h with
  | last hm h₁ => exact .last (hm.mono fun l r => hVW l _ List.mem_cons_self r) h₁
  | more hm h₁ _ ih =>
      exact .more (hm.mono fun l r => hVW l _ List.mem_cons_self r) h₁
        (ih fun l m h r => hVW l m (List.mem_cons_of_mem _ h) r)

/-- The opening brackets and braces of a text. -/
def opens (l : Text) : Nat := l.countP fun c => c = uLbrack || c = uLbrace

theorem opens_cons_le (c : UInt16) (l : Text) : opens l ≤ opens (c :: l) :=
  (List.sublist_cons_self c l).countP_le

theorem opens_append (l m : Text) : opens (l ++ m) = opens l + opens m := List.countP_append

theorem Ws.opens_le (h : Ws l r) : opens r ≤ opens l := by
  induction h with
  | nil => exact Nat.le_refl _
  | cons _ _ ih => exact Nat.le_trans ih (opens_cons_le _ _)

theorem Chars.measured (h : Chars l s r) :
    r.length < l.length ∧ opens r ≤ opens l := by
  induction h with
  | done => exact ⟨Nat.lt_succ_self _, opens_cons_le _ _⟩
  | unit _ _ _ _ ih => exact ⟨Nat.lt_succ_of_lt ih.1, Nat.le_trans ih.2 (opens_cons_le _ _)⟩
  | escape _ _ ih =>
      exact ⟨Nat.lt_succ_of_lt (Nat.lt_succ_of_lt ih.1),
        Nat.le_trans ih.2 (Nat.le_trans (opens_cons_le _ _) (opens_cons_le _ _))⟩
  | @hex a b c d _ _ _ _ l _ _ _ _ _ _ _ ih =>
      refine ⟨?_, Nat.le_trans ih.2 ?_⟩
      · simp only [List.length_cons]
        omega
      · have hsplit := opens_append [uBslash, uU, a, b, c, d] l
        exact Nat.le_trans (Nat.le_add_left _ _) hsplit.ge

theorem JString.measured (h : JString l s r) :
    r.length < l.length ∧ opens r ≤ opens l := by
  cases h with
  | mk h => exact ⟨Nat.lt_succ_of_lt h.measured.1, Nat.le_trans h.measured.2 (opens_cons_le _ _)⟩

/-- A value takes units, and has an opening bracket for each level; a short text has
no long array. -/
structure Measured (l : Text) (t : Tree) (r : Text) : Prop where
  length_lt : r.length < l.length
  opens_le : t.nesting + opens r ≤ opens l
  fits : l.length ≤ maxArrayLength → t.ArraysFit

theorem Elements.measured (h : Elements Measured l ts r) :
    ts.length + r.length ≤ l.length ∧ r.length < l.length ∧
      Tree.nestingAll ts + opens r ≤ opens l ∧
      (l.length ≤ maxArrayLength → ∀ t ∈ ts, t.ArraysFit) := by
  induction h with
  | last h₁ hv h₂ =>
      have hlt := hv.length_lt
      have hle₁ := h₁.length_le
      have hle₂ := h₂.length_le
      have ho := hv.opens_le
      have ho₁ := h₁.opens_le
      have ho₂ := Nat.le_trans (opens_cons_le _ _) h₂.opens_le
      simp only [List.length_cons, List.length_nil, Tree.nestingAll, Nat.max_zero] at hle₂ ⊢
      refine ⟨by omega, by omega, by omega, fun hl t ht => ?_⟩
      rw [List.mem_singleton.mp ht]
      exact hv.fits (by omega)
  | more h₁ hv h₂ _ ih =>
      have hlt := hv.length_lt
      have hle₁ := h₁.length_le
      have hle₂ := h₂.length_le
      have ho := hv.opens_le
      have ho₁ := h₁.opens_le
      have ho₂ := Nat.le_trans (opens_cons_le _ _) h₂.opens_le
      obtain ⟨ih₁, ih₂, ih₃, ih₄⟩ := ih
      simp only [List.length_cons, Tree.nestingAll] at hle₂ ⊢
      exact ⟨by omega, by omega, by omega, fun hl =>
        List.forall_mem_cons.mpr ⟨hv.fits (by omega), ih₄ (by omega)⟩⟩

theorem Member.measured (h : Member Measured m l r) : Measured l m.2 r := by
  cases h with
  | mk h₁ hk h₂ h₃ hv =>
      have hle₁ := h₁.length_le
      have hk := hk.measured
      have hle₂ := h₂.length_le
      have hle₃ := h₃.length_le
      have hlt := hv.length_lt
      have ho := hv.opens_le
      have ho₁ := h₁.opens_le
      have ho₂ := Nat.le_trans (opens_cons_le _ _) h₂.opens_le
      have ho₃ := h₃.opens_le
      simp only [List.length_cons] at hle₂
      exact ⟨by omega, by dsimp only; omega, fun hl => hv.fits (by omega)⟩

theorem Members.measured (h : Members Measured l ms r) :
    r.length < l.length ∧ Tree.nestingMembers ms + opens r ≤ opens l ∧
      (l.length ≤ maxArrayLength → ∀ m ∈ ms, m.2.ArraysFit) := by
  induction h with
  | last hm h₁ =>
      have hm := hm.measured
      have hlt := hm.length_lt
      have hle := h₁.length_le
      have ho := hm.opens_le
      have ho₁ := Nat.le_trans (opens_cons_le _ _) h₁.opens_le
      simp only [List.length_cons, Tree.nestingMembers, Nat.max_zero] at hle ⊢
      refine ⟨by omega, by omega, fun hl n hn => ?_⟩
      rw [List.mem_singleton.mp hn]
      exact hm.fits hl
  | more hm h₁ _ ih =>
      have hm := hm.measured
      have hlt := hm.length_lt
      have hle := h₁.length_le
      have ho := hm.opens_le
      have ho₁ := Nat.le_trans (opens_cons_le _ _) h₁.opens_le
      obtain ⟨ih₁, ih₂, ih₃⟩ := ih
      simp only [List.length_cons, Tree.nestingMembers] at hle ⊢
      exact ⟨by omega, by omega, fun hl => List.forall_mem_cons.mpr ⟨hm.fits hl, ih₃ (by omega)⟩⟩

theorem opens_open (h : c = uLbrack ∨ c = uLbrace) (l : Text) :
    opens (c :: l) = opens l + 1 := by
  refine List.countP_cons_of_pos ?_
  obtain rfl | rfl := h <;> decide

theorem JValue.measured (h : JValue number l t r) : Measured l t r := by
  obtain ⟨n, hn⟩ : ∃ n, t.nesting < n := ⟨_, Nat.lt_succ_self _⟩
  induction n generalizing l t r with
  | zero => cases hn
  | succ n ih =>
      cases h with
      | null | trueValue | falseValue =>
          refine ⟨?_, ?_, fun _ => by constructor⟩
          · rw [List.length_append]
            exact Nat.lt_add_of_pos_left (by decide)
          · show 0 + opens _ ≤ _
            rw [opens_append, Nat.zero_add]
            exact Nat.le_add_left _ _
      | string h => exact ⟨h.measured.1, by simpa [Tree.nesting] using h.measured.2, fun _ => .string⟩
      | number h =>
          refine ⟨?_, ?_, fun _ => .number⟩
          · obtain ⟨c, v, rfl, -⟩ := h.first
            simp only [List.length_append, List.length_cons]
            omega
          · show 0 + opens _ ≤ _
            rw [opens_append, Nat.zero_add]
            exact Nat.le_add_left _ _
      | emptyArray h =>
          have hle := h.length_le
          have ho := Nat.le_trans (opens_cons_le _ _) h.opens_le
          refine ⟨Nat.lt_succ_of_lt hle, ?_, fun _ => .array (Nat.zero_le _) (List.forall_mem_nil _)⟩
          rw [opens_open (.inl rfl), Tree.nesting, Tree.nestingAll]
          omega
      | emptyObject h =>
          have hle := h.length_le
          have ho := Nat.le_trans (opens_cons_le _ _) h.opens_le
          refine ⟨Nat.lt_succ_of_lt hle, ?_, fun _ => .object (List.forall_mem_nil _)⟩
          rw [opens_open (.inr rfl), Tree.nesting, Tree.nestingMembers]
          omega
      | array h =>
          obtain ⟨hlen, hlt, ho, hfit⟩ :=
            (h.mono fun _ _ ht _ hv => ih hv (nesting_lt_of_mem hn ht)).measured
          refine ⟨Nat.lt_succ_of_lt hlt, ?_, fun hl => .array ?_ (hfit (Nat.le_of_succ_le hl))⟩
          · rw [opens_open (.inl rfl), Tree.nesting]
            omega
          · exact Nat.le_trans (Nat.le_of_add_right_le hlen) (Nat.le_of_succ_le hl)
      | object h =>
          obtain ⟨hlt, ho, hfit⟩ :=
            (h.mono fun _ _ hm _ hv => ih hv (nesting_lt_of_member hn hm)).measured
          refine ⟨Nat.lt_succ_of_lt hlt, ?_, fun hl => .object (hfit (Nat.le_of_succ_le hl))⟩
          rw [opens_open (.inr rfl), Tree.nesting]
          omega

theorem JValue.length_lt (h : JValue number l t r) : r.length < l.length :=
  h.measured.length_lt

theorem JsonText.fits (h : JsonText number l t) (hl : l.length ≤ maxArrayLength) :
    t.ArraysFit := by
  cases h with
  | mk h₁ hv _ => exact hv.measured.fits (Nat.le_trans h₁.length_le hl)

/-! How a value starts, and where one stops. -/

theorem digit_ne {c d : UInt16} (hc : isDigit c = true) (hd : isDigit d = false) : c ≠ d := by
  rintro rfl
  rw [hc] at hd
  cases hd

theorem digit_not_ws (h : isDigit c = true) : isWs c = false := by
  unfold isWs
  simp [digit_ne h (d := uSpace) (by decide), digit_ne h (d := uTab) (by decide),
    digit_ne h (d := uNl) (by decide), digit_ne h (d := uCr) (by decide)]

theorem JValue.first (h : JValue number l t r) :
    ∃ c l', l = c :: l' ∧ isWs c = false ∧ c ≠ uRbrack := by
  cases h with
  | null | trueValue | falseValue => exact ⟨_, _, rfl, by decide⟩
  | string h =>
      cases h with
      | mk _ => exact ⟨_, _, rfl, by decide⟩
  | number h =>
      obtain ⟨c, v, rfl, rfl | hc⟩ := h.first
      · exact ⟨_, _, rfl, by decide⟩
      · exact ⟨_, _, rfl, digit_not_ws hc, digit_ne hc (by decide)⟩
  | emptyArray _ | array _ | emptyObject _ | object _ => exact ⟨_, _, rfl, by decide⟩

theorem Elements.start (h : Elements (JValue number) l ts r) :
    ∃ c l', skipWs l = c :: l' ∧ c ≠ uRbrack ∧ Elements (JValue number) (c :: l') ts r := by
  cases h with
  | last h₁ hv h₂ =>
      obtain ⟨c, l', rfl, hws, hc⟩ := hv.first
      exact ⟨c, l', h₁.skip hws, hc, .last .nil hv h₂⟩
  | more h₁ hv h₂ h =>
      obtain ⟨c, l', rfl, hws, hc⟩ := hv.first
      exact ⟨c, l', h₁.skip hws, hc, .more .nil hv h₂ h⟩

theorem Member.start (h : Member V m l r) :
    ∃ l', skipWs l = uQuote :: l' ∧ Member V m (uQuote :: l') r := by
  cases h with
  | mk h₁ hk h₂ h₃ hv =>
      cases hk with
      | mk hk => exact ⟨_, h₁.skip (by decide), .mk .nil (.mk hk) h₂ h₃ hv⟩

theorem Members.start (h : Members V l ms r) :
    ∃ l', skipWs l = uQuote :: l' ∧ Members V (uQuote :: l') ms r := by
  cases h with
  | last hm h₁ =>
      obtain ⟨l', hl, hm⟩ := hm.start
      exact ⟨l', hl, .last hm h₁⟩
  | more hm h₁ h =>
      obtain ⟨l', hl, hm⟩ := hm.start
      exact ⟨l', hl, .more hm h₁ h⟩

theorem Ws.stops (h : Ws l (c :: r)) (hc : Stops [c]) : Stops l := by
  cases h with
  | nil => exact hc
  | @cons d l r hd h =>
      intro e he
      cases he
      simp only [isWs, Bool.or_eq_true, decide_eq_true_eq] at hd
      obtain ((rfl | rfl) | rfl) | rfl := hd <;> decide

theorem Ws.trans {m : Text} (h : Ws l m) (h' : Ws m r) : Ws l r := by
  induction h with
  | nil => exact h'
  | cons hc _ ih => exact .cons hc (ih h')

theorem Elements.after {V : Text → τ → Text → Prop} {m : Text} {ts : List τ} (h : Elements V m ts r)
    (hws : Ws l m) : Elements V l ts r := by
  cases h with
  | last h₁ hv h₂ => exact .last (hws.trans h₁) hv h₂
  | more h₁ hv h₂ h => exact .more (hws.trans h₁) hv h₂ h

theorem Member.after {V : Text → τ → Text → Prop} {m : JsString × τ} (h : Member V m l' r)
    (hws : Ws l l') : Member V m l r := by
  cases h with
  | mk h₁ hk h₂ h₃ hv => exact .mk (hws.trans h₁) hk h₂ h₃ hv

theorem Members.after {V : Text → τ → Text → Prop} {m : Text} {ms : List (JsString × τ)}
    (h : Members V m ms r) (hws : Ws l m) : Members V l ms r := by
  cases h with
  | last hm h₁ => exact .last (hm.after hws) h₁
  | more hm h₁ h => exact .more (hm.after hws) h₁ h

/-! The parser reads every value of the grammar. -/

section Complete

variable {host : Host} {bound : Nat} {parse : ParseValue}

variable {base : Nat}

theorem forall₂_concat {α β : Type} {R : α → β → Prop} {as : List α} {bs : List β} {a : α} {b : β}
    (h : List.Forall₂ R as bs) (hab : R a b) : List.Forall₂ R (as ++ [a]) (bs ++ [b]) :=
  List.rel_append h (.cons hab .nil)

variable {us : List Tree}

/-- An object that is being made after `heap₀`. -/
structure Making (proto : Option ObjId) (heap₀ heap : Heap) (vs : List Value)
    (ms : List (JsString × Tree)) : Prop where
  pre : heap₀ <+: heap
  cell : heap[heap₀.length]? = some (.plain (objectOf proto ((keys ms).zip vs)))
  made : List.Forall₂ (Made proto (heap₀.length + 1) heap) vs (ms.map Prod.snd)

namespace Making

variable {proto : Option ObjId} {heap₀ heap heap' : Heap} {vs : List Value}
  {ms : List (JsString × Tree)}

theorem start (heap : Heap) : Making host.objectProto heap (heap ++ [host.ordinaryObject]) [] [] :=
  ⟨List.prefix_append _ _, List.getElem?_concat_length, .nil⟩

theorem length_lt (h : Making proto heap₀ heap vs ms) : heap₀.length < heap.length :=
  (List.getElem?_eq_some_iff.mp h.cell).1

theorem extend (h : Making proto heap₀ heap vs ms) (hheap : heap <+: heap') :
    Making proto heap₀ heap' vs ms := by
  refine ⟨h.pre.trans hheap, ?_, h.made.imp fun _ _ hv => hv.extend hheap⟩
  obtain ⟨rest, rfl⟩ := hheap
  exact (List.getElem?_append_left h.length_lt).trans h.cell

/-- One more member. -/
theorem create (h : Making proto heap₀ heap vs ms) {k : JsString}
    (hv : Made proto (heap₀.length + 1) heap v t) :
    ∃ heap', createDataPropertyOrThrow heap heap₀.length k v = .ok heap' ∧
      Making proto heap₀ heap' (vs ++ [v]) (ms ++ [(k, t)]) := by
  have hlen : (keys ms).length = vs.length := by
    rw [h.made.length_eq, List.length_map, List.length_map]
  have hdata := (dataOnly_objectOf proto ((keys ms).zip vs)).createData (.string k) v
  have hzip : (keys (ms ++ [(k, t)])).zip (vs ++ [v]) = (keys ms).zip vs ++ [(k, v)] := by
    rw [keys, List.map_append, List.zip_append hlen]
    rfl
  have hkeep : ∀ i, heap₀.length + 1 ≤ i → ∀ c, heap[i]? = some c → ∀ c',
      (heap.set heap₀.length c')[i]? = some c := by
    intro i hi c hc c'
    rw [List.getElem?_set_ne (by omega), hc]
  refine ⟨heap.set heap₀.length (.plain (member (objectOf proto ((keys ms).zip vs)) (k, v))), ?_, ?_, ?_, ?_⟩
  · unfold createDataPropertyOrThrow
    rw [h.cell]
    dsimp only
    rw [← Prod.mk.eta (p := PlainObject.createData _ _ _), hdata.1]
    rfl
  · obtain ⟨rest, rfl⟩ := h.pre
    exact ⟨_, (List.set_append_right _ _ (Nat.le_refl _)).symm⟩
  · rw [List.getElem?_set_self h.length_lt, hzip, objectOf_append]
  · rw [List.map_append]
    exact forall₂_concat
      (h.made.imp fun _ _ hu => hu.mono (Nat.le_refl _) fun i hi c hc => hkeep i hi c hc _)
      (hv.mono (Nat.le_refl _) fun i hi c hc => hkeep i hi c hc _)

theorem object (h : Making proto heap₀ heap vs ms) :
    Made proto heap₀.length heap (.object heap₀.length) (.object ms) :=
  .object (Nat.le_refl _) h.cell
    (h.made.imp fun _ _ hv => hv.mono (Nat.le_succ _) fun _ _ _ hc => hc)

end Making

variable {vs : List Value}

end Complete

/-! What the parser reads is in the grammar. -/

section Sound

variable {host : Host} {parse : ParseValue}

def Sound (host : Host) (parse : ParseValue) : Prop :=
  ∀ (heap : Heap) (l : Text) (record : ParseRecord) (heap' : Heap) (r : Text),
    parse heap l = .ok (record, heap', r) →
    ∃ l₁ t, Ws l l₁ ∧ JValue host.numberValue l₁ t r ∧ t.ArraysFit

variable {heap' : Heap} {record : ParseRecord}

theorem Chars.suffix (h : Chars l s r) : ∃ w, l = w ++ r := by
  induction h with
  | done => exact ⟨[uQuote], rfl⟩
  | unit _ _ _ _ ih =>
      obtain ⟨w, rfl⟩ := ih
      exact ⟨_ :: w, rfl⟩
  | escape _ _ ih =>
      obtain ⟨w, rfl⟩ := ih
      exact ⟨_ :: _ :: w, rfl⟩
  | hex _ _ _ _ _ ih =>
      obtain ⟨w, rfl⟩ := ih
      exact ⟨_ :: _ :: _ :: _ :: _ :: _ :: w, rfl⟩

theorem JString.suffix (h : JString l s r) : ∃ w, l = w ++ r := by
  cases h with
  | mk h =>
      obtain ⟨w, rfl⟩ := h.suffix
      exact ⟨uQuote :: w, rfl⟩

theorem Primitive.fits (h : Primitive t v) : t.ArraysFit := by
  cases h <;> constructor

end Sound

end Slag.Json
