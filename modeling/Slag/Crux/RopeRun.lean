import Slag.Crux.RopeLaw

/-!
Runs of calls on strings. As long as the length of every concatenation is a
machine word, each call answers a string that stands for what it should, and
the law of the representations holds in every state reached.
-/

namespace Slag.Rope

/-- What the answer of a call should stand for. -/
def Call.Means (heap : Heap) (units : Units) : Call → Prop
  | .fromUtf16 source => units = source
  | .fromUtf8 text => units = JsString.encodeUtf16 text
  | .concat left right => ∃ a b, Denotes heap left a ∧ Denotes heap right b ∧ units = a ++ b
  | .concatUnits left right => ∃ a, Denotes heap left a ∧ units = a ++ right
  | .concatUnitsLeft left right => ∃ b, Denotes heap right b ∧ units = left ++ b
  | .sliceView parent from_ to_ =>
      ∃ whole, Denotes heap parent whole ∧ units = (whole.drop from_).take (to_ - from_)
  | .clone h | .ownedOf h | .asSlice h => Denotes heap h units

/-- The result of a call, whatever fuel it is given from some amount on. -/
def Call.Answers (c : Call) (heap heap' : Heap) (h : Handle) : Prop :=
  ∃ cost, ∀ fuel ≥ cost, c.run fuel heap = some (heap', h)

/-- The states that calls lead to, each call meeting a condition. -/
inductive Reached (guard : Heap → Call → Prop) : Heap → Prop
  | start : Reached guard []
  | call {heap heap' : Heap} {c : Call} {h : Handle} : Reached guard heap → c.Valid heap →
      guard heap c → c.Answers heap heap' h → Reached guard heap'

/-- A call keeps the law and means what it should. -/
def Call.Correct (c : Call) (heap : Heap) : Prop :=
  ∃ heap' h units, c.Answers heap heap' h ∧ heap'.Lawful ∧ Denotes heap' h units ∧
    c.Means heap units

variable {heap heap' : Heap} {h : Handle} {units : Units}

theorem getElem?_append_length (heap : Heap) (s : JsString) :
    (heap ++ [s])[heap.length]? = some s := List.getElem?_concat_length

variable {left right : Handle}

namespace Heap

theorem Lawful.denotes (hl : heap.Lawful) (hh : h < heap.length) :
    ∃ units, Denotes heap h units ∧ heap.len h = units.length := by
  obtain ⟨units, hd, hlen, -⟩ := hl h heap[h] (List.getElem?_eq_getElem hh)
  refine ⟨units, hd, ?_⟩
  rw [Heap.len, List.getElem?_eq_getElem hh, Option.map_some, Option.getD_some, hlen]

/-- A read of a box of a lawful state. -/
theorem Lawful.read (hl : heap.Lawful) (hd : Denotes heap h units) :
    ∃ cost heap', heap.Extends heap' ∧ heap'.Lawful ∧ heap'.length = heap.length ∧
      ∀ fuel ≥ cost, Rope.asSlice fuel heap h = some (heap', units) := by
  obtain ⟨cost, hread⟩ := hd.reads.2
  obtain ⟨heap', he, hl', hlen, hrun⟩ := hread heap (.refl heap) hl
  exact ⟨cost, heap', he, hl', hlen, hrun⟩

/-- Two reads, one after the other. -/
theorem Lawful.read_pair {a b : Units} (hl : heap.Lawful) (ha : Denotes heap left a)
    (hb : Denotes heap right b) :
    ∃ cost heap₁ heap₂, heap.Extends heap₂ ∧ heap₂.Lawful ∧
      ∀ fuel ≥ cost, Rope.asSlice fuel heap left = some (heap₁, a) ∧
        Rope.asSlice fuel heap₁ right = some (heap₂, b) := by
  obtain ⟨cost₁, heap₁, he₁, hl₁, -, hrun₁⟩ := hl.read ha
  obtain ⟨cost₂, heap₂, he₂, hl₂, -, hrun₂⟩ := hl₁.read (hb.extend he₁)
  refine ⟨max cost₁ cost₂, heap₁, heap₂, he₁.trans he₂, hl₂, fun fuel hfuel => ?_⟩
  exact ⟨hrun₁ fuel (by omega), hrun₂ fuel (by omega)⟩

end Heap

section Leaves

theorem lawful_flat (hl : heap.Lawful) (units : Units) :
    Heap.Lawful (heap ++ [.flat units]) ∧ Denotes (heap ++ [.flat units]) heap.length units := by
  have hd : Denotes (heap ++ [.flat units]) heap.length units :=
    .flat (getElem?_append_length heap _)
  exact ⟨hl.append hd rfl trivial, hd⟩

theorem lawful_inline (hl : heap.Lawful) (hlen : units.length ≤ smallStringCap) :
    Heap.Lawful (heap ++ [.inline units]) ∧
      Denotes (heap ++ [.inline units]) heap.length units := by
  have hd := Denotes.small (getElem?_append_length heap (.inline units))
  rw [List.take_left] at hd
  refine ⟨hl.append hd rfl ⟨hlen, ?_⟩, hd⟩
  rw [List.length_append, List.length_replicate]
  omega

theorem lawful_fromUtf16 (hl : heap.Lawful) (units : Units) :
    Heap.Lawful (heap ++ [.fromUtf16 units]) ∧
      Denotes (heap ++ [.fromUtf16 units]) heap.length units := by
  by_cases hlen : units.length ≤ smallStringCap
  · rw [JsString.fromUtf16, if_pos hlen]
    exact lawful_inline hl hlen
  · rw [JsString.fromUtf16, if_neg hlen]
    exact lawful_flat hl units

theorem fillInline_spec {buf : Units} (hbuf : buf.length ≤ smallStringCap) (units : Units) :
    JsString.fillInline buf units =
      if (buf ++ units).length ≤ smallStringCap then some (buf ++ units) else none := by
  induction units generalizing buf with
  | nil => rw [JsString.fillInline, List.append_nil, if_pos hbuf]
  | cons unit units ih =>
      rw [JsString.fillInline]
      by_cases hfull : smallStringCap ≤ buf.length
      · rw [if_pos hfull, if_neg]
        rw [List.length_append, List.length_cons]
        omega
      · have hnext : (buf ++ [unit]).length ≤ smallStringCap := by
          rw [List.length_append, List.length_singleton]
          omega
        rw [if_neg hfull, ih hnext, List.append_assoc, List.singleton_append]

theorem lawful_fromUtf8 (hl : heap.Lawful) (text : List Char) :
    Heap.Lawful (heap ++ [.fromUtf8 text]) ∧
      Denotes (heap ++ [.fromUtf8 text]) heap.length (JsString.encodeUtf16 text) := by
  rw [JsString.fromUtf8, fillInline_spec (Nat.zero_le _), List.nil_append]
  by_cases hlen : (JsString.encodeUtf16 text).length ≤ smallStringCap
  · rw [if_pos hlen]
    exact lawful_inline hl hlen
  · rw [if_neg hlen]
    exact lawful_flat hl _

/-- A copied concatenation: inline when it is short, else flat. -/
theorem lawful_copied (hl : heap.Lawful) {a b : Units} {len : Nat}
    (hlen : len = a.length + b.length) :
    (len ≤ concatFlatThreshold → inlinePair a b len = some (.inline (a ++ b)) ∧
      Heap.Lawful (heap ++ [.inline (a ++ b)]) ∧
      Denotes (heap ++ [.inline (a ++ b)]) heap.length (a ++ b)) := by
  intro hle
  have hsmall : (a ++ b).length ≤ smallStringCap := by
    rw [List.length_append, ← hlen]
    exact hle
  exact ⟨if_pos ⟨hlen.symm, hle⟩, lawful_inline hl hsmall⟩

end Leaves

section Calls

theorem lawful_rope (hl : heap.Lawful) {a b : Units} (ha : Denotes heap left a)
    (hb : Denotes heap right b) :
    Heap.Lawful (heap ++ [.rope (some left) (some right) (a.length + b.length) none]) ∧
      Denotes (heap ++ [.rope (some left) (some right) (a.length + b.length) none]) heap.length
        (a ++ b) := by
  have he := Heap.extends_append heap (.rope (some left) (some right) (a.length + b.length) none)
  have hcell := getElem?_append_length heap (.rope (some left) (some right) (a.length + b.length) none)
  have ha' := ha.extend he
  have hb' := hb.extend he
  have hd := Denotes.rope hcell (fun x hx => by cases hx; exact ha') nofun
    (fun x hx => by cases hx; exact hb') nofun
  exact ⟨hl.append hd List.length_append.symm nofun, hd⟩

theorem lawful_consString (hl : heap.Lawful) {a b : Units} (ha : Denotes heap left a)
    (hb : Denotes heap right b) :
    Heap.Lawful (heap ++ [.consString left right (a.length + b.length) none]) ∧
      Denotes (heap ++ [.consString left right (a.length + b.length) none]) heap.length
        (a ++ b) := by
  have he := Heap.extends_append heap (.consString left right (a.length + b.length) none)
  have hd := Denotes.consString (getElem?_append_length heap _) (ha.extend he) (hb.extend he)
  exact ⟨hl.append hd List.length_append.symm nofun, hd⟩

theorem correct_concat (hl : heap.Lawful) (hleft : left < heap.length) (hright : right < heap.length)
    (hfits : heap.len left + heap.len right < wordSize) :
    Call.Correct (.concat left right) heap := by
  obtain ⟨a, ha, hla⟩ := hl.denotes hleft
  obtain ⟨b, hb, hlb⟩ := hl.denotes hright
  suffices h : ∃ heap' h, Call.Answers (.concat left right) heap heap' h ∧ heap'.Lawful ∧
      Denotes heap' h (a ++ b) by
    obtain ⟨heap', h, hrun, hl', hd⟩ := h
    exact ⟨heap', h, a ++ b, hrun, hl', hd, a, b, ha, hb, rfl⟩
  have hlen : (heap.len left + heap.len right) % wordSize = a.length + b.length := by
    rw [Nat.mod_eq_of_lt hfits, hla, hlb]
  by_cases hb0 : heap.len right = 0
  · obtain rfl : b = [] := List.length_eq_zero_iff.mp (hlb.symm.trans hb0)
    rw [List.append_nil]
    refine ⟨heap, left, ⟨0, fun fuel _ => ?_⟩, hl, ha⟩
    simp only [Call.run, Rope.concat, hb0, if_true, Option.pure_def]
  by_cases ha0 : heap.len left = 0
  · obtain rfl : a = [] := List.length_eq_zero_iff.mp (hla.symm.trans ha0)
    rw [List.nil_append]
    refine ⟨heap, right, ⟨0, fun fuel _ => ?_⟩, hl, hb⟩
    simp only [Call.run, Rope.concat, hb0, ha0, if_true, if_false, Option.pure_def]
  obtain ⟨cost, heap₁, heap₂, he, hl₂, hreads⟩ := hl.read_pair ha hb
  by_cases hshort : a.length + b.length ≤ concatFlatThreshold
  · obtain ⟨hpair, hl', hd⟩ := lawful_copied hl₂ rfl hshort
    refine ⟨heap₂ ++ [.inline (a ++ b)], heap₂.length, ⟨cost, fun fuel hfuel => ?_⟩, hl', hd⟩
    obtain ⟨hrun₁, hrun₂⟩ := hreads fuel hfuel
    simp only [Call.run, Rope.concat, hb0, ha0, if_false, hlen, hshort, if_true, hrun₁, hrun₂, hpair,
      Option.bind_eq_bind, Option.bind_some, Option.pure_def, Heap.alloc]
  by_cases hleaf : (heap.isLeaf left && heap.isLeaf right) = true
  · by_cases hmerge : a.length + b.length ≤ 128
    · obtain ⟨hl', hd⟩ := lawful_flat hl₂ (a ++ b)
      refine ⟨heap₂ ++ [.flat (a ++ b)], heap₂.length, ⟨cost, fun fuel hfuel => ?_⟩, hl', hd⟩
      obtain ⟨hrun₁, hrun₂⟩ := hreads fuel hfuel
      simp only [Call.run, Rope.concat, hb0, ha0, if_false, hlen, hshort, hleaf, hmerge, if_true,
        hrun₁, hrun₂, Option.bind_eq_bind, Option.bind_some, Option.pure_def, Heap.alloc]
    · obtain ⟨hl', hd⟩ := lawful_rope hl ha hb
      refine ⟨_, heap.length, ⟨0, fun fuel _ => ?_⟩, hl', hd⟩
      simp only [Call.run, Rope.concat, hb0, ha0, if_false, hlen, hshort, hleaf, hmerge, if_true,
        Option.pure_def, Heap.alloc]
  · obtain ⟨hl', hd⟩ := lawful_consString hl ha hb
    refine ⟨_, heap.length, ⟨0, fun fuel _ => ?_⟩, hl', hd⟩
    simp only [Call.run, Rope.concat, hb0, ha0, if_false, hlen, hshort, hleaf, Bool.false_eq_true,
      Option.pure_def, Heap.alloc]

theorem correct_concatUnits (hl : heap.Lawful) {right : Units} (hleft : left < heap.length)
    (hfits : heap.len left + right.length < wordSize) :
    Call.Correct (.concatUnits left right) heap := by
  obtain ⟨a, ha, hla⟩ := hl.denotes hleft
  suffices h : ∃ heap' h, Call.Answers (.concatUnits left right) heap heap' h ∧ heap'.Lawful ∧
      Denotes heap' h (a ++ right) by
    obtain ⟨heap', h, hrun, hl', hd⟩ := h
    exact ⟨heap', h, a ++ right, hrun, hl', hd, a, ha, rfl⟩
  have hlen : (a.length + right.length) % wordSize = a.length + right.length :=
    Nat.mod_eq_of_lt (hla ▸ hfits)
  by_cases hempty : right.isEmpty = true
  · obtain rfl : right = [] := List.isEmpty_iff.mp hempty
    rw [List.append_nil]
    exact ⟨heap, left, ⟨0, fun fuel _ => rfl⟩, hl, ha⟩
  obtain ⟨cost, heap₁, -, hl₁, -, hread⟩ := hl.read ha
  by_cases hshort : a.length + right.length ≤ concatFlatThreshold
  · obtain ⟨hpair, hl', hd⟩ := lawful_copied hl₁ rfl hshort
    refine ⟨heap₁ ++ [.inline (a ++ right)], heap₁.length, ⟨cost, fun fuel hfuel => ?_⟩, hl', hd⟩
    simp only [Call.run, Rope.concatUnits, hempty, if_false, hread fuel hfuel, hlen, hshort, if_true,
      hpair, Bool.false_eq_true, Option.bind_eq_bind, Option.bind_some, Option.pure_def, Heap.alloc]
  · obtain ⟨hl', hd⟩ := lawful_flat hl₁ (a ++ right)
    refine ⟨heap₁ ++ [.flat (a ++ right)], heap₁.length, ⟨cost, fun fuel hfuel => ?_⟩, hl', hd⟩
    simp only [Call.run, Rope.concatUnits, hempty, if_false, hread fuel hfuel, hlen, hshort,
      Bool.false_eq_true, Option.bind_eq_bind, Option.bind_some, Option.pure_def, Heap.alloc]

theorem correct_concatUnitsLeft (hl : heap.Lawful) {left : Units} (hright : right < heap.length)
    (hfits : heap.len right + left.length < wordSize) :
    Call.Correct (.concatUnitsLeft left right) heap := by
  obtain ⟨b, hb, hlb⟩ := hl.denotes hright
  suffices h : ∃ heap' h, Call.Answers (.concatUnitsLeft left right) heap heap' h ∧
      heap'.Lawful ∧ Denotes heap' h (left ++ b) by
    obtain ⟨heap', h, hrun, hl', hd⟩ := h
    exact ⟨heap', h, left ++ b, hrun, hl', hd, b, hb, rfl⟩
  have hlen : (left.length + b.length) % wordSize = left.length + b.length := by
    rw [Nat.add_comm, ← hlb]
    exact Nat.mod_eq_of_lt hfits
  by_cases hempty : left.isEmpty = true
  · obtain rfl : left = [] := List.isEmpty_iff.mp hempty
    exact ⟨heap, right, ⟨0, fun fuel _ => rfl⟩, hl, hb⟩
  obtain ⟨cost, heap₁, -, hl₁, -, hread⟩ := hl.read hb
  by_cases hshort : left.length + b.length ≤ concatFlatThreshold
  · obtain ⟨hpair, hl', hd⟩ := lawful_copied hl₁ rfl hshort
    refine ⟨heap₁ ++ [.inline (left ++ b)], heap₁.length, ⟨cost, fun fuel hfuel => ?_⟩, hl', hd⟩
    simp only [Call.run, Rope.concatUnitsLeft, hempty, if_false, hread fuel hfuel, hlen, hshort,
      if_true, hpair, Bool.false_eq_true, Option.bind_eq_bind, Option.bind_some, Option.pure_def,
      Heap.alloc]
  · obtain ⟨hl', hd⟩ := lawful_flat hl₁ (left ++ b)
    refine ⟨heap₁ ++ [.flat (left ++ b)], heap₁.length, ⟨cost, fun fuel hfuel => ?_⟩, hl', hd⟩
    simp only [Call.run, Rope.concatUnitsLeft, hempty, if_false, hread fuel hfuel, hlen, hshort,
      Bool.false_eq_true, Option.bind_eq_bind, Option.bind_some, Option.pure_def, Heap.alloc]

theorem correct_sliceView (hl : heap.Lawful) {parent : Handle} {from_ to_ : Nat}
    (hparent : parent < heap.length) (hle : from_ ≤ to_) (hto : to_ ≤ heap.len parent) :
    Call.Correct (.sliceView parent from_ to_) heap := by
  obtain ⟨whole, hw, hlw⟩ := hl.denotes hparent
  have hwindow := @window_eq whole from_ (to_ - from_) (by omega)
  suffices h : ∃ heap' h, Call.Answers (.sliceView parent from_ to_) heap heap' h ∧
      heap'.Lawful ∧ Denotes heap' h ((whole.drop from_).take (to_ - from_)) by
    obtain ⟨heap', h, hrun, hl', hd⟩ := h
    exact ⟨heap', h, _, hrun, hl', hd, whole, hw, rfl⟩
  by_cases hshort : to_ - from_ ≤ smallStringCap
  · obtain ⟨cost, heap₁, -, hl₁, -, hread⟩ := hl.read hw
    obtain ⟨hl', hd⟩ := lawful_fromUtf16 hl₁ ((whole.drop from_).take (to_ - from_))
    refine ⟨_, heap₁.length, ⟨cost, fun fuel hfuel => ?_⟩, hl', hd⟩
    simp only [Call.run, Rope.sliceView, hshort, if_true, hread fuel hfuel, hwindow,
      Option.bind_eq_bind, Option.bind_some, Option.pure_def, Heap.alloc]
  · have he := Heap.extends_append heap (.sliced parent from_ (to_ - from_) none)
    have hd := Denotes.sliced (getElem?_append_length heap _) (hw.extend he)
    have hlen : to_ - from_ = ((whole.drop from_).take (to_ - from_)).length := by
      rw [List.length_take, List.length_drop]
      omega
    refine ⟨_, heap.length, ⟨0, fun fuel _ => ?_⟩,
      hl.append hd hlen ⟨whole, hw.extend he, by omega, nofun⟩, hd⟩
    simp only [Call.run, Rope.sliceView, hshort, if_false, Option.pure_def, Heap.alloc]

/-- A box with the children of another stands for the same. -/
theorem Denotes.copy {s s' : JsString} {x : Handle} (hd : Denotes heap h units)
    (hs : heap[h]? = some s) (hx : heap[x]? = some s') (heq : s'.clone = s.clone) :
    Denotes heap x units := by
  cases hd with
  | flat hs' =>
      cases hs.symm.trans hs'
      exact .flat (JsString.clone_flat heq ▸ hx)
  | small hs' =>
      cases hs.symm.trans hs'
      exact .small (JsString.clone_small heq ▸ hx)
  | consString hs' ha hb =>
      cases hs.symm.trans hs'
      obtain ⟨c, rfl⟩ := JsString.clone_consString heq
      exact .consString hx ha hb
  | rope hs' ha hla hb hrb =>
      cases hs.symm.trans hs'
      obtain ⟨c, rfl⟩ := JsString.clone_rope heq
      exact .rope hx ha hla hb hrb
  | sliced hs' hw =>
      cases hs.symm.trans hs'
      obtain ⟨c, rfl⟩ := JsString.clone_sliced heq
      exact .sliced hx hw

/-- A copy of a box, its cache empty or right. -/
theorem lawful_copy {s s' : JsString} (hl : heap.Lawful) (hd : Denotes heap h units)
    (hs : heap[h]? = some s) (heq : s'.clone = s.clone) (hlen : s'.len = s.len)
    (hcache : s'.cache = none ∨ s'.cache = s.cache) :
    Heap.Lawful (heap ++ [s']) ∧ Denotes (heap ++ [s']) heap.length units := by
  have he := Heap.extends_append heap s'
  obtain ⟨u, hu, hlu, hsound⟩ := hl h s hs
  obtain rfl := hd.unique hu
  have hlt := (List.getElem?_eq_some_iff.mp hs).1
  have hs' : (heap ++ [s'])[h]? = some s := by rw [List.getElem?_append_left hlt, hs]
  have hd' := (hd.extend he).copy hs' (getElem?_append_length heap s') heq
  refine ⟨hl.append hd' (hlen.trans hlu) ?_, hd'⟩
  have hsound := hsound.extend he
  cases s with
  | flat u =>
      obtain rfl := JsString.clone_flat heq
      exact hsound
  | small len buf =>
      obtain rfl := JsString.clone_small heq
      exact hsound
  | consString left right len cached =>
      obtain ⟨c, rfl⟩ := JsString.clone_consString heq
      intro flat hflat
      rcases hcache with hnone | hsame
      · rw [JsString.cache, hflat] at hnone
        cases hnone
      · exact hsound flat (hsame.symm.trans hflat)
  | rope left right len cached =>
      obtain ⟨c, rfl⟩ := JsString.clone_rope heq
      intro flat hflat
      rcases hcache with hnone | hsame
      · rw [JsString.cache, hflat] at hnone
        cases hnone
      · exact hsound flat (hsame.symm.trans hflat)
  | sliced parent offset len cached =>
      obtain ⟨c, rfl⟩ := JsString.clone_sliced heq
      obtain ⟨whole, hw, hin, hc⟩ := hsound
      refine ⟨whole, hw, hin, fun flat hflat => ?_⟩
      rcases hcache with hnone | hsame
      · rw [JsString.cache, hflat] at hnone
        cases hnone
      · exact hc flat (hsame.symm.trans hflat)

theorem clone_clone (s : JsString) : s.clone.clone = s.clone := by cases s <;> rfl

theorem len_clone (s : JsString) : s.clone.len = s.len := by cases s <;> rfl

theorem cache_clone (s : JsString) : s.clone.cache = none := by cases s <;> rfl

theorem correct_clone (hl : heap.Lawful) (hh : h < heap.length) :
    Call.Correct (.clone h) heap := by
  obtain ⟨units, hd, -⟩ := hl.denotes hh
  have hs := List.getElem?_eq_getElem hh
  obtain ⟨hl', hd'⟩ := lawful_copy hl hd hs (clone_clone heap[h]) (len_clone heap[h])
    (.inl (cache_clone heap[h]))
  refine ⟨_, heap.length, units, ⟨0, fun fuel _ => ?_⟩, hl', hd', hd⟩
  simp only [Call.run, hs, Option.map_some, Heap.alloc]

/-- An owned copy of a node is the node with its cache. -/
theorem owned_eq {s : JsString} (hs : s.isLeaf = false) :
    s.cache.elim s.clone (JsString.fill · s.clone) = s := by
  cases s with
  | flat _ | small _ _ => cases hs
  | consString _ _ _ cached | rope _ _ _ cached | sliced _ _ _ cached =>
      cases cached with
      | none => rfl
      | some _ => rfl

theorem isLeaf_of_clone {s s' : JsString} (heq : s'.clone = s.clone) : s'.isLeaf = s.isLeaf := by
  cases s with
  | flat u => rw [JsString.clone_flat heq]
  | small len buf => rw [JsString.clone_small heq]
  | consString _ _ _ _ =>
      obtain ⟨c, rfl⟩ := JsString.clone_consString heq
      rfl
  | rope _ _ _ _ =>
      obtain ⟨c, rfl⟩ := JsString.clone_rope heq
      rfl
  | sliced _ _ _ _ =>
      obtain ⟨c, rfl⟩ := JsString.clone_sliced heq
      rfl

theorem correct_ownedOf (hl : heap.Lawful) (hh : h < heap.length) :
    Call.Correct (.ownedOf h) heap := by
  obtain ⟨units, hd, -⟩ := hl.denotes hh
  have hs := List.getElem?_eq_getElem hh
  cases hleaf : heap[h].isLeaf with
  | true =>
      obtain ⟨hl', hd'⟩ := lawful_copy hl hd hs rfl rfl (.inr rfl)
      refine ⟨_, heap.length, units, ⟨0, fun fuel _ => ?_⟩, hl', hd', hd⟩
      simp only [Call.run, Rope.ownedOf, hs, Option.bind_eq_bind, Option.bind_some, hleaf, if_true,
        Option.pure_def, Heap.alloc]
  | false =>
      obtain ⟨cost, heap₁, he, hl₁, -, hread⟩ := hl.read hd
      obtain ⟨s₁, hs₁, heq⟩ := he h _ hs
      have hleaf₁ : s₁.isLeaf = false := (isLeaf_of_clone heq).trans hleaf
      obtain ⟨hl', hd'⟩ := lawful_copy hl₁ (hd.extend he) hs₁ rfl rfl (.inr rfl)
      refine ⟨_, heap₁.length, units, ⟨cost, fun fuel hfuel => ?_⟩, hl', hd', hd⟩
      simp only [Call.run, Rope.ownedOf, hs, Option.bind_eq_bind, Option.bind_some, hleaf, if_false,
        Bool.false_eq_true, hread fuel hfuel, hs₁, owned_eq hleaf₁, Option.pure_def, Heap.alloc]

theorem correct_asSlice (hl : heap.Lawful) (hh : h < heap.length) :
    Call.Correct (.asSlice h) heap := by
  obtain ⟨units, hd, -⟩ := hl.denotes hh
  obtain ⟨cost, heap₁, he, hl₁, -, hread⟩ := hl.read hd
  refine ⟨heap₁, h, units, ⟨cost, fun fuel hfuel => ?_⟩, hl₁, hd.extend he, hd⟩
  simp only [Call.run, hread fuel hfuel, Option.map_some]

theorem Heap.Lawful.correct (hl : heap.Lawful) (c : Call) (hvalid : c.Valid heap)
    (hfits : c.Fits heap) : c.Correct heap := by
  cases c with
  | fromUtf16 source =>
      obtain ⟨hl', hd⟩ := lawful_fromUtf16 hl source
      exact ⟨_, heap.length, source, ⟨0, fun _ _ => rfl⟩, hl', hd, rfl⟩
  | fromUtf8 text =>
      obtain ⟨hl', hd⟩ := lawful_fromUtf8 hl text
      exact ⟨_, heap.length, _, ⟨0, fun _ _ => rfl⟩, hl', hd, rfl⟩
  | concat left right => exact correct_concat hl hvalid.1 hvalid.2 hfits
  | concatUnits left right => exact correct_concatUnits hl hvalid hfits
  | concatUnitsLeft left right => exact correct_concatUnitsLeft hl hvalid hfits
  | sliceView parent from_ to_ => exact correct_sliceView hl hvalid.1 hvalid.2.1 hvalid.2.2
  | clone h => exact correct_clone hl hvalid
  | ownedOf h => exact correct_ownedOf hl hvalid
  | asSlice h => exact correct_asSlice hl hvalid

theorem Call.Answers.unique {c : Call} {heap₁ heap₂ : Heap} {h₁ h₂ : Handle}
    (h : c.Answers heap heap₁ h₁) (h' : c.Answers heap heap₂ h₂) : heap₁ = heap₂ := by
  obtain ⟨cost, hrun⟩ := h
  obtain ⟨cost', hrun'⟩ := h'
  have heq := (hrun (max cost cost') (by omega)).symm.trans (hrun' (max cost cost') (by omega))
  exact congrArg Prod.fst (Option.some.inj heq)

end Calls

/-- The law in a state: every string has a content that its length and its
reads agree with, and every call that fits answers what it should. -/
def Heap.Upholds (heap : Heap) : Prop :=
  heap.Lawful ∧
  (∀ h < heap.length, ∃ units, Denotes heap h units ∧ heap.len h = units.length ∧
    ∃ cost heap', heap'.Lawful ∧ ∀ fuel ≥ cost, asSlice fuel heap h = some (heap', units)) ∧
  ∀ c : Call, c.Valid heap → c.Fits heap → c.Correct heap

theorem Heap.Lawful.upholds (hl : heap.Lawful) : heap.Upholds := by
  refine ⟨hl, fun h hh => ?_, hl.correct⟩
  obtain ⟨units, hd, hlen⟩ := hl.denotes hh
  obtain ⟨cost, heap', -, hl', -, hread⟩ := hl.read hd
  exact ⟨units, hd, hlen, cost, heap', hl', hread⟩

theorem Reached.lawful (hr : Reached (fun heap c => c.Fits heap) heap) : heap.Lawful := by
  induction hr with
  | start => exact fun h s hs => by cases hs
  | call _ hvalid hfits hrun ih =>
      obtain ⟨heap'', h', units, hrun', hl', -, -⟩ := ih.correct _ hvalid hfits
      rwa [hrun.unique hrun']

/-- In every run whose concatenations have lengths that are machine words, the
law of the representations holds. -/
theorem reached_upholds (hr : Reached (fun heap c => c.Fits heap) heap) : heap.Upholds :=
  hr.lawful.upholds

theorem reached_upholds_view : Heap.Upholds [.flat (List.replicate 65 97),
    .rope (some 0) (some 0) 130 none, .sliced 1 10 30 none] := by
  refine reached_upholds (.call (.call (.call .start (c := .fromUtf16 (List.replicate 65 97))
    trivial trivial ⟨0, fun _ _ => rfl⟩) (c := .concat 0 0) (h := 1) ?_ ?_ ⟨0, fun _ _ => rfl⟩)
    (c := .sliceView 1 10 40) (h := 2) ?_ trivial ⟨0, fun _ _ => rfl⟩)
  · exact ⟨by decide, by decide⟩
  · show 65 + 65 < 2 ^ 64
    omega
  · exact ⟨by decide, by decide, by decide⟩

section Doubling

/-- Nothing looks at the sum of the lengths when a long string is appended. -/
theorem concat_long {a b : Units} (ha : Denotes heap left a) (hb : Denotes heap right b)
    (hleft : heap.len left ≠ 0) (hright : heap.len right ≠ 0)
    (hlong : 128 < (heap.len left + heap.len right) % wordSize) :
    ∃ s : JsString, Call.Answers (.concat left right) heap (heap ++ [s]) heap.length ∧
      s.len = (heap.len left + heap.len right) % wordSize ∧
      Denotes (heap ++ [s]) heap.length (a ++ b) := by
  have hshort : ¬ (heap.len left + heap.len right) % wordSize ≤ concatFlatThreshold := by
    unfold concatFlatThreshold
    omega
  have hmerge : ¬ (heap.len left + heap.len right) % wordSize ≤ 128 := Nat.not_le.mpr hlong
  by_cases hleaf : (heap.isLeaf left && heap.isLeaf right) = true
  · have he := Heap.extends_append heap
      (.rope (some left) (some right) ((heap.len left + heap.len right) % wordSize) none)
    have ha' := ha.extend he
    have hb' := hb.extend he
    have hcell := getElem?_append_length heap
      (.rope (some left) (some right) ((heap.len left + heap.len right) % wordSize) none)
    refine ⟨_, ⟨0, fun fuel _ => ?_⟩, rfl, .rope hcell
      (fun x hx => by cases hx; exact ha') nofun (fun x hx => by cases hx; exact hb') nofun⟩
    simp only [Call.run, Rope.concat, hleft, hright, if_false, hshort, hmerge, hleaf, if_true,
      Option.pure_def, Heap.alloc]
  · have he := Heap.extends_append heap
      (.consString left right ((heap.len left + heap.len right) % wordSize) none)
    refine ⟨_, ⟨0, fun fuel _ => ?_⟩, rfl,
      .consString (getElem?_append_length heap _) (ha.extend he) (hb.extend he)⟩
    simp only [Call.run, Rope.concat, hleft, hright, if_false, hshort, hleaf, Bool.false_eq_true,
      Option.pure_def, Heap.alloc]

theorem doubled (n : Nat) (hn : n ≤ 58) : ∃ heap : Heap, Reached (fun _ _ => True) heap ∧
    heap.length = n + 1 ∧ heap.len n = 65 * 2 ^ n % wordSize ∧
    ∃ units, Denotes heap n units ∧ units.length = 65 * 2 ^ n := by
  induction n with
  | zero =>
      refine ⟨[.flat (List.replicate 65 97)], .call .start (c := .fromUtf16 (List.replicate 65 97))
        trivial trivial ⟨0, fun _ _ => rfl⟩, rfl, rfl, _, .flat rfl, ?_⟩
      exact List.length_replicate
  | succ n ih =>
      obtain ⟨heap, hreached, hlen, hn', units, hd, hunits⟩ := ih (by omega)
      have hle : 2 ^ n ≤ 2 ^ 57 := Nat.pow_le_pow_right (by omega) (by omega)
      have hpos : 1 ≤ 2 ^ n := Nat.one_le_two_pow
      have hword : wordSize = 2 ^ 64 := rfl
      have hnlen : heap.len n = 65 * 2 ^ n := by
        rw [hn', Nat.mod_eq_of_lt (by omega)]
      have hsum : heap.len n + heap.len n = 65 * 2 ^ (n + 1) := by
        rw [hnlen, Nat.pow_succ]
        omega
      -- the last doubling is the one whose length is no machine word any more
      have hlong : 128 < (heap.len n + heap.len n) % wordSize := by
        rw [hnlen, hword]
        by_cases hlast : n = 57
        · subst hlast
          decide
        · have hle : 2 ^ n ≤ 2 ^ 56 := Nat.pow_le_pow_right (by omega) (by omega)
          rw [Nat.mod_eq_of_lt (by omega)]
          omega
      obtain ⟨s, hrun, hs, hd'⟩ := concat_long hd hd (by omega) (by omega) hlong
      have hin : n < heap.length := hlen ▸ Nat.lt_succ_self n
      have hvalid : Call.Valid heap (.concat n n) := ⟨hin, hin⟩
      refine ⟨heap ++ [s], .call hreached hvalid trivial hrun, ?_, ?_, units ++ units,
        hlen ▸ hd', ?_⟩
      · rw [List.length_append, List.length_singleton, hlen]
      · rw [Heap.len, ← hlen, getElem?_append_length, Option.map_some, Option.getD_some, hs, hsum,
          hlen]
      · rw [List.length_append, hunits, Nat.pow_succ]
        omega

/-- Fifty-eight doublings of a string of 65 units lose its length. -/
theorem doubled_not_upholds : ¬ ∀ heap, Reached (fun _ _ => True) heap → heap.Upholds := by
  intro hall
  obtain ⟨heap, hreached, hlen, hcount, units, hd, hunits⟩ := doubled 58 (Nat.le_refl 58)
  obtain ⟨units', hd', hlen', -⟩ := (hall heap hreached).2.1 58 (by omega)
  rw [hd'.unique hd, hcount, hunits] at hlen'
  revert hlen'
  decide

end Doubling

end Slag.Rope
