import Slag.V8.Containers

/-!
Whatever is written is read back: by induction on the walk, every value is read
as one that corresponds to it.
-/

namespace Slag.V8

open LittleEndian

/-- No buffer has been prepared for transfer. -/
abbrev noTransfers : Ref → Option Nat := fun _ => none

theorem getElem?_of_idxOf? {numbers : List Ref} {r id : Nat} (h : numbers.idxOf? r = some id) :
    numbers[id]? = some r := by
  obtain ⟨hlt, heq, -⟩ := List.findIdx?_eq_some_iff_getElem.mp h
  rw [List.getElem?_eq_getElem hlt, eq_of_beq heq]

theorem getElem?_of_concat {numbers : List Ref} {r r' id : Nat}
    (h : (numbers ++ [r])[id]? = some r') (hne : r' ≠ r) : numbers[id]? = some r' := by
  rcases Nat.lt_or_ge id numbers.length with hlt | hge
  · rwa [List.getElem?_append_left hlt] at h
  · rw [List.getElem?_append_right hge] at h
    have hmem := List.mem_of_getElem? h
    exact absurd (List.mem_singleton.mp hmem) hne

variable {content : Bytes} {r : Ref} {o : Obj} {f : Nat}

section Writer

variable {heap : Heap} {transfers : Ref → Option Nat} {fuel : Nat} {numbers numbers' : List Ref}
  {bytes : Bytes}

/-- An object is a reference to its number, or gets the next one. -/
theorem writeValue_object
    (h : writeValue heap transfers (fuel + 1) numbers (.object r) = some (numbers', bytes)) :
    (∃ id : Nat, numbers[id]? = some r ∧ numbers' = numbers ∧ bytes = tagReference :: put 4 id) ∨
    (r ∉ numbers ∧ numbers.length < 2 ^ 32 ∧ ∃ o, heap[r]? = some o ∧
      writeObject transfers (writeValue heap transfers fuel) (numbers ++ [r]) r o =
        some (numbers', bytes)) := by
  rw [writeValue] at h
  cases hidx : numbers.idxOf? r with
  | some id =>
      simp only [hidx] at h
      cases h
      exact .inl ⟨id, getElem?_of_idxOf? hidx, rfl, rfl⟩
  | none =>
      simp only [hidx] at h
      by_cases hroom : numbers.length < 2 ^ 32
      · rw [if_pos hroom] at h
        obtain ⟨o, ho, h⟩ := Option.bind_eq_some_iff.mp h
        exact .inr ⟨List.idxOf?_eq_none_iff.mp hidx, hroom, o, ho, h⟩
      · rw [if_neg hroom] at h
        cases h

variable {write : List Ref → Value → Option Written}

theorem writeContainer_eq_some {tag : UInt8} {count : Nat}
    (h : writeContainer write numbers tag count o = some (numbers', bytes)) :
    ∃ rest, writeItems write numbers o.items = some (numbers', rest) ∧
      bytes = tag :: (put 4 count ++ rest) := by
  obtain ⟨⟨numbers₁, rest⟩, hitems, h⟩ := Option.bind_eq_some_iff.mp h
  cases h
  exact ⟨rest, hitems, rfl⟩

theorem writeObject_regExp {source flags : Units}
    (h : writeObject transfers write numbers r (.regExp source flags) = some (numbers', bytes)) :
    ∃ first second, putString source = some first ∧ putString flags = some second ∧
      numbers' = numbers ∧ bytes = tagRegExp :: (first ++ second) := by
  obtain ⟨first, hfirst, h⟩ := Option.bind_eq_some_iff.mp h
  obtain ⟨second, hsecond, h⟩ := Option.bind_eq_some_iff.mp h
  cases h
  exact ⟨first, second, hfirst, hsecond, rfl, rfl⟩

theorem writeObject_arrayBuffer
    (h : writeObject noTransfers write numbers r (.arrayBuffer content) = some (numbers', bytes)) :
    content.length < 2 ^ 32 ∧ numbers' = numbers ∧
      bytes = tagArrayBuffer :: (put 4 content.length ++ content) := by
  obtain ⟨length, hword, h⟩ := Option.bind_eq_some_iff.mp h
  obtain ⟨hlt, rfl⟩ := word_eq_some hword
  cases h
  exact ⟨hlt, rfl, rfl⟩

theorem writeObject_view {r buffer : Ref} {kind : Option ElementType} {offset length : Nat}
    (h : writeObject transfers write numbers r (.view kind offset length buffer) =
      some (numbers', bytes)) :
    ∃ rest, offset < 2 ^ 32 ∧ length < 2 ^ 32 ∧
      write numbers (.object buffer) = some (numbers', rest) ∧
      bytes = tagArrayBufferView :: elementKind kind ::
        (put 4 offset ++ (put 4 length ++ rest)) := by
  obtain ⟨first, hfirst, h⟩ := Option.bind_eq_some_iff.mp h
  obtain ⟨second, hsecond, h⟩ := Option.bind_eq_some_iff.mp h
  obtain ⟨⟨numbers₁, rest⟩, hbuffer, h⟩ := Option.bind_eq_some_iff.mp h
  obtain ⟨hoffset, rfl⟩ := word_eq_some hfirst
  obtain ⟨hlength, rfl⟩ := word_eq_some hsecond
  cases h
  refine ⟨rest, hoffset, hlength, hbuffer, ?_⟩
  simp only [List.cons_append, List.nil_append, List.append_assoc]

/-- What is written starts with a tag, and not with the one for a hole. -/
theorem writeObject_tag (h : writeObject transfers write numbers r o = some (numbers', bytes)) :
    ∃ tag rest, bytes = tag :: rest ∧ tag ≠ tagHole := by
  cases o with
  | array _ | plain _ | map _ | set _ =>
      obtain ⟨_, _, rfl⟩ := writeContainer_eq_some h
      exact ⟨_, _, rfl, by decide⟩
  | date _ =>
      cases h
      exact ⟨_, _, rfl, by decide⟩
  | regExp _ _ =>
      obtain ⟨_, _, _, _, _, rfl⟩ := writeObject_regExp h
      exact ⟨_, _, rfl, by decide⟩
  | arrayBuffer content =>
      rw [writeObject] at h
      cases ht : transfers r with
      | some id =>
          simp only [ht] at h
          cases h
          exact ⟨_, _, rfl, by decide⟩
      | none =>
          simp only [ht] at h
          obtain ⟨length, _, h⟩ := Option.bind_eq_some_iff.mp h
          cases h
          exact ⟨_, _, rfl, by decide⟩
  | view _ _ _ _ =>
      obtain ⟨_, _, _, _, rfl⟩ := writeObject_view h
      exact ⟨_, _, rfl, by decide⟩
  | uncloneable => cases h

theorem writeValue_tag {v : Value}
    (h : writeValue heap transfers fuel numbers v = some (numbers', bytes)) :
    ∃ tag rest, bytes = tag :: rest ∧ tag ≠ tagHole := by
  cases fuel with
  | zero => cases h
  | succ fuel =>
      cases v with
      | undefined | null | number _ =>
          cases h
          exact ⟨_, _, rfl, by decide⟩
      | boolean b =>
          cases b <;>
          · cases h
            exact ⟨_, _, rfl, by decide⟩
      | string units =>
          obtain ⟨_, hput, h⟩ := Option.map_eq_some_iff.mp h
          cases h
          rw [(putString_eq_some hput).2]
          exact ⟨_, _, rfl, by decide⟩
      | bigInt n =>
          obtain ⟨_, hput, h⟩ := Option.map_eq_some_iff.mp h
          cases h
          rw [(writeBigInt_eq_some hput).2]
          exact ⟨_, _, rfl, by decide⟩
      | object r =>
          rcases writeValue_object h with ⟨id, -, -, rfl⟩ | ⟨-, -, o, -, h⟩
          · exact ⟨_, _, rfl, by decide⟩
          · exact writeObject_tag h

end Writer

variable {bytes : Bytes}

section Leaves

variable {F : Type} {P : Policy F} {engine : Engine} {heap : Heap} {numbers : List Ref} {b : Built}
  {r : Ref}

theorem readInner_at (f : Nat) (b : Built) (tag : UInt8) (rest : Bytes) :
    readInner P engine f (b.at (tag :: rest)) = readWithTag P engine f tag (b.at rest) :=
  bind_ok (takeU8_at P b tag rest)

theorem readInner_reference {id : Nat} {t : Ref} (hid : id < 2 ^ 32)
    (ht : b.memo[id]? = some (some (.object t))) (f : Nat) (rest : Bytes) :
    readInner P engine (f + 1) (b.at (tagReference :: put 4 id ++ rest)) =
      (.ok (.object t), b.at rest) := by
  rw [List.cons_append, readInner_at]
  change (takeU32 P >>= referenced P) _ = _
  rw [bind_ok (takeU32_at P b hid rest)]
  change expect P (b.memo[id]?.join) _ = _
  rw [ht]
  rfl

theorem readWithTag_string (f : Nat) :
    readWithTag P engine (f + 1) tagString = readString P := by
  rw [readWithTag]
  simp only [show tagString ≠ tagUndefined by decide, show tagString ≠ tagNull by decide,
    show tagString ≠ tagTrue by decide, show tagString ≠ tagFalse by decide,
    show tagString ≠ tagNumber by decide, if_false, if_true]

theorem readWithTag_bigInt (f : Nat) :
    readWithTag P engine (f + 1) tagBigInt = readBigInt P := by
  rw [readWithTag]
  simp only [show tagBigInt ≠ tagUndefined by decide, show tagBigInt ≠ tagNull by decide,
    show tagBigInt ≠ tagTrue by decide, show tagBigInt ≠ tagFalse by decide,
    show tagBigInt ≠ tagNumber by decide, show tagBigInt ≠ tagString by decide, if_false, if_true]

theorem readInner_string {units : Units} (h : putString units = some bytes) (f : Nat) (b : Built)
    (rest : Bytes) :
    readInner P engine (f + 1) (b.at (bytes ++ rest)) = (.ok (.string units), b.at rest) := by
  obtain ⟨hlt, rfl⟩ := putString_eq_some h
  rw [List.cons_append, readInner_at]
  rw [readWithTag_string]
  exact readString_at P b hlt rest

variable (hlinked : Linked heap numbers b) (hr : r ∉ numbers) (hroom : numbers.length < 2 ^ 32)

include hlinked hr hroom

/-- An object that is numbered, read and filled in. -/
theorem reads_leaf {m : Read F Value} {o d : Obj} (hget : heap[r]? = some o)
    (hbuffer : ∀ content, o = .arrayBuffer content → d = .arrayBuffer content)
    (hsame : ∀ link, o.Same ReadTime link d)
    (hm : ∀ rest, m (b.at (bytes ++ rest)) = finish numbers.length d (b.reserved.at rest)) :
    Reads heap (fun _ => True) numbers b m bytes (numbers ++ [r]) fun b' w =>
      (Value.object r).Same (Corresponds (numbers ++ [r]) b') w := by
  intro rest
  refine ⟨.object b.heap.length, b.extend [b.heap.length] [d], ?_, ?_, ?_, ?_⟩
  · rw [hm rest, finish_at hlinked]
  · refine hlinked.push hr hroom fun content hcontent => hbuffer content ?_
    exact Option.some.inj (hget.symm.trans hcontent)
  · exact .push hlinked hget (hsame _)
  · exact .object (corresponds_push hlinked)

theorem reads_readDate {time : UInt64} (hget : heap[r]? = some (.date time)) :
    Reads heap (fun _ => True) numbers b (readDate P) (put 8 time.toNat) (numbers ++ [r])
      fun b' w => (Value.object r).Same (Corresponds (numbers ++ [r]) b') w := by
  refine reads_leaf (d := .date (timeClip (Double.box time).val)) hlinked hr hroom hget
    (fun _ h => by cases h) (fun _ => .date rfl) fun rest => ?_
  rw [readDate, bind_ok (reserve_at hlinked hroom _),
    bind_ok (takeU64_at P b.reserved time.toNat_lt rest), UInt64.ofNat_toNat]

theorem reads_readArrayBuffer (hget : heap[r]? = some (.arrayBuffer content))
    (hlt : content.length < 2 ^ 32) :
    Reads heap (fun _ => True) numbers b (readArrayBuffer P)
      (put 4 content.length ++ content) (numbers ++ [r])
      fun b' w => (Value.object r).Same (Corresponds (numbers ++ [r]) b') w := by
  refine reads_leaf (d := .arrayBuffer content) hlinked hr hroom hget
    (fun _ h => h) (fun _ => .arrayBuffer) fun rest => ?_
  rw [List.append_assoc, readArrayBuffer, bind_ok (reserve_at hlinked hroom _),
    bind_ok (takeU32_at P b.reserved hlt _), bind_ok (take_at P b.reserved content rest)]

theorem reads_readRegExp {source flags : Units} {first second : Bytes}
    (hget : heap[r]? = some (.regExp source flags))
    (hregExp : engine.regExp (.string source) (.string flags) = some (source, flags))
    (hfirst : putString source = some first) (hsecond : putString flags = some second) :
    Reads heap (fun _ => True) numbers b (readRegExp P engine (readInner P engine (f + 1)))
      (first ++ second) (numbers ++ [r])
      fun b' w => (Value.object r).Same (Corresponds (numbers ++ [r]) b') w := by
  refine reads_leaf (d := .regExp source flags) hlinked hr hroom hget
    (fun _ h => by cases h) (fun _ => .regExp) fun rest => ?_
  rw [List.append_assoc, readRegExp, bind_ok (reserve_at hlinked hroom _),
    bind_ok (readInner_string hfirst f b.reserved _),
    bind_ok (readInner_string hsecond f b.reserved _), hregExp]
  rfl

end Leaves

section View

variable {F : Type} {P : Policy F} {engine : Engine} {heap : Heap} {numbers numbers' : List Ref}
  {b : Built} {r buffer : Ref} {kind : Option ElementType} {offset length : Nat}

@[simp] theorem elementConstructor_elementKind (kind : Option ElementType) :
    elementConstructor (elementKind kind) = some kind := by
  cases kind with
  | none => rfl
  | some type => cases type <;> rfl

/-- The checks of a view pass, and it is made. -/
theorem readView_at (hlinked : Linked heap numbers b) (hroom : numbers.length < 2 ^ 32)
    (hoffset : offset < 2 ^ 32) (hlength : length < 2 ^ 32) {nested : Read F Value} {t : Ref}
    {content bytes rest : Bytes} {b' : Built}
    (hnested : nested (b.reserved.at (bytes ++ rest)) = (.ok (.object t), b'.at rest))
    (hcontent : b'.heap[t]? = some (.arrayBuffer content))
    (hfits : viewFits kind offset length content.length) :
    readView P nested (b.at (elementKind kind ::
      (put 4 offset ++ (put 4 length ++ bytes)) ++ rest)) =
      finish numbers.length (.view kind offset length t) (b'.at rest) := by
  have hbuffer : asBuffer P (.object t) (b'.at rest) = (.ok (t, content.length), b'.at rest) := by
    have hheap : (b'.at rest).heap = b'.heap := rfl
    simp only [asBuffer, Reader.bufferLength, hheap, hcontent]
    rfl
  rw [List.cons_append, List.append_assoc, List.append_assoc, readView,
    bind_ok (reserve_at hlinked hroom _), bind_ok (takeU8_at P b.reserved _ _),
    bind_ok (takeU32_at P b.reserved hoffset _), bind_ok (takeU32_at P b.reserved hlength _),
    bind_ok hnested, bind_ok hbuffer, elementConstructor_elementKind]
  exact congrFun (if_pos hfits) _

/-- A view over a buffer that has been read. -/
theorem reads_readView_known (hlinked : Linked heap numbers b) (hr : r ∉ numbers)
    (hroom : numbers.length < 2 ^ 32) (hoffset : offset < 2 ^ 32) (hlength : length < 2 ^ 32)
    (hget : heap[r]? = some (.view kind offset length buffer))
    (hcontent : heap[buffer]? = some (.arrayBuffer content))
    (hfits : viewFits kind offset length content.length) {id f : Nat} (hid : numbers[id]? = some buffer) :
    Reads heap (fun _ => True) numbers b (readView P (readInner P engine (f + 1)))
      (elementKind kind :: (put 4 offset ++ (put 4 length ++ tagReference :: put 4 id)))
      (numbers ++ [r])
      fun b' w => (Value.object r).Same (Corresponds (numbers ++ [r]) b') w := by
  intro rest
  obtain ⟨hidlt, -⟩ := List.getElem?_eq_some_iff.mp hid
  obtain ⟨t, ht⟩ := hlinked.filled id hidlt
  have hc : Corresponds numbers b buffer t := ⟨id, hid, ht⟩
  have hmemo : b.reserved.memo[id]? = some (some (.object t)) :=
    getElem?_some_of_isPrefix (List.prefix_append _ _) ht
  have hnested : readInner P engine (f + 1) (b.reserved.at (tagReference :: put 4 id ++ rest)) =
      (.ok (.object t), b.reserved.at rest) :=
    readInner_reference (Nat.lt_of_lt_of_le hidlt hlinked.room) hmemo f rest
  have hread := readView_at (P := P) hlinked hroom hoffset hlength hnested
    (hlinked.buffers buffer t content hc hcontent) hfits
  refine ⟨_, _, hread.trans (finish_at hlinked _ rest), ?_, ?_, ?_⟩
  · refine hlinked.push hr hroom fun bytes hbytes => ?_
    rw [hget] at hbytes
    cases hbytes
  · refine .push hlinked hget (.view ?_)
    exact hc.mono (List.prefix_append _ _) (List.prefix_append _ _)
  · exact .object (corresponds_push hlinked)

/-- A view's buffer that is read while the view has only its number. -/
def Built.reservedBuffer (b : Built) (content : Bytes) : Built :=
  ⟨b.memo ++ [none] ++ [some (.object b.heap.length)], b.heap ++ [.arrayBuffer content]⟩

theorem readArrayBuffer_at (b : Built) (hroom : b.memo.length < 2 ^ 32)
    (hsize : content.length < 2 ^ 32) (rest : Bytes) :
    readArrayBuffer P (b.at (put 4 content.length ++ (content ++ rest))) =
      (.ok (.object b.heap.length), (b.extend [b.heap.length] [.arrayBuffer content]).at rest) := by
  have hreserve (rest : Bytes) :
      reserve P (b.at rest) = (.ok b.memo.length, b.reserved.at rest) := if_pos hroom
  rw [readArrayBuffer, bind_ok (hreserve _), bind_ok (takeU32_at P b.reserved hsize _),
    bind_ok (take_at P b.reserved content rest)]
  change (Except.ok (Value.object b.heap.length),
    Reader.mk rest ((b.memo ++ [none]).set b.memo.length _) (b.heap ++ [_])) = _
  rw [set_reserved]
  rfl

theorem finish_reservedBuffer (b : Built) (content : Bytes) (o : Obj) (rest : Bytes) :
    finish b.memo.length o ((b.reservedBuffer content).at rest) =
      ((.ok (.object (b.heap.length + 1)), (b.extend [b.heap.length + 1, b.heap.length]
        [.arrayBuffer content, o]).at rest) : Except F Value × Reader) := by
  have hlength : (b.heap ++ [Obj.arrayBuffer content]).length = b.heap.length + 1 :=
    List.length_append
  change (Except.ok (Value.object (b.heap ++ [Obj.arrayBuffer content]).length),
    Reader.mk rest ((b.memo ++ [none] ++ [some (Value.object b.heap.length)]).set b.memo.length
      (some (Value.object (b.heap ++ [Obj.arrayBuffer content]).length)))
      (b.heap ++ [.arrayBuffer content] ++ [o])) = _
  rw [hlength, List.append_assoc b.memo, List.append_assoc b.heap,
    List.set_append_right _ _ (Nat.le_refl _), Nat.sub_self]
  rfl

theorem newTargets_swap (b : Built) (r r' : Ref) (o o' : Obj) :
    NewTargets b [r, r'] [b.heap.length + 1, b.heap.length] [o, o'] where
  length := rfl
  nodup := by simp
  range t ht := by
    rcases List.mem_cons.mp ht with rfl | ht
    · exact ⟨Nat.le_succ _, Nat.lt_succ_self _⟩
    · rw [List.mem_singleton] at ht
      subst ht
      exact ⟨Nat.le_refl _, Nat.lt_add_of_pos_right (Nat.succ_pos 1)⟩

/-- A view whose buffer is read with it: the view has the first number and the
buffer the second, and the buffer is allocated first. -/
theorem reads_readView_new (hlinked : Linked heap numbers b) (hr : r ∉ numbers)
    (hroom : numbers.length < 2 ^ 32) (hoffset : offset < 2 ^ 32) (hlength : length < 2 ^ 32)
    (hget : heap[r]? = some (.view kind offset length buffer))
    (hcontent : heap[buffer]? = some (.arrayBuffer content))
    (hfits : viewFits kind offset length content.length) (hnew : buffer ∉ numbers ++ [r])
    (hroom' : (numbers ++ [r]).length < 2 ^ 32) (hsize : content.length < 2 ^ 32) :
    Reads heap (fun _ => True) numbers b (readView P (readInner P engine (f + 1)))
      (elementKind kind :: (put 4 offset ++ (put 4 length ++
        tagArrayBuffer :: (put 4 content.length ++ content))))
      (numbers ++ [r, buffer])
      fun b' w => (Value.object r).Same (Corresponds (numbers ++ [r, buffer]) b') w := by
  intro rest
  have hnested : readInner P engine (f + 1) (b.reserved.at
      (tagArrayBuffer :: (put 4 content.length ++ content) ++ rest)) =
      (.ok (.object b.heap.length), (b.reservedBuffer content).at rest) := by
    have hreserved : b.reserved.memo.length < 2 ^ 32 := by
      change (b.memo ++ [none]).length < _
      rw [List.length_append, hlinked.length]
      rwa [List.length_append] at hroom'
    rw [List.cons_append, List.append_assoc, readInner_at]
    exact readArrayBuffer_at b.reserved hreserved hsize rest
  have hread := readView_at (P := P) hlinked hroom hoffset hlength hnested
    List.getElem?_concat_length hfits
  have hfinish : finish numbers.length (.view kind offset length b.heap.length)
      ((b.reservedBuffer content).at rest) =
      ((.ok (.object (b.heap.length + 1)), (b.extend [b.heap.length + 1, b.heap.length]
        [.arrayBuffer content, .view kind offset length b.heap.length]).at rest) :
        Except F Value × Reader) := by
    rw [← hlinked.length]
    exact finish_reservedBuffer b content _ rest
  have htargets : NewTargets b [r, buffer] [b.heap.length + 1, b.heap.length]
      [.arrayBuffer content, .view kind offset length b.heap.length] := newTargets_swap ..
  have hnumbers : numbers ++ [r, buffer] = numbers ++ [r] ++ [buffer] :=
    (List.append_assoc numbers [r] [buffer]).symm
  have hlinked' : Linked heap (numbers ++ [r, buffer]) (b.extend
      [b.heap.length + 1, b.heap.length]
      [.arrayBuffer content, .view kind offset length b.heap.length]) := by
    refine hlinked.extend ?_ ?_ htargets ?_
    · rw [hnumbers, List.length_append]
      exact hroom'
    · rw [hnumbers]
      exact nodup_snoc (nodup_snoc hlinked.nodup hr) hnew
    · intro k r' t bytes hk ht hr'
      match k with
      | 0 =>
          cases hk
          rw [hget] at hr'
          cases hr'
      | 1 =>
          cases hk
          cases ht
          rw [hcontent] at hr'
          cases hr'
          rw [List.getElem?_append_right (Nat.le_refl _), Nat.sub_self]
          rfl
      | k + 2 => cases hk
  have hc (k : Nat) (r' t : Ref) (hk : [r, buffer][k]? = some r')
      (ht : [b.heap.length + 1, b.heap.length][k]? = some t) :
      Corresponds (numbers ++ [r, buffer]) (b.extend [b.heap.length + 1, b.heap.length]
        [.arrayBuffer content, .view kind offset length b.heap.length]) r' t := by
    refine ⟨numbers.length + k, ?_, extend_memo_eq_some.mpr (.inr ⟨?_, ?_⟩)⟩
    · rw [List.getElem?_append_right (Nat.le_add_right _ _), Nat.add_sub_cancel_left, hk]
    · rw [hlinked.length]
      exact Nat.le_add_right _ _
    · rw [hlinked.length, Nat.add_sub_cancel_left, ht]
  refine ⟨_, _, hread.trans hfinish, hlinked', .extend hlinked htargets ?_,
    .object (hc 0 r _ rfl rfl)⟩
  intro k r' t hk ht
  match k with
  | 0 =>
      cases hk
      cases ht
      refine ⟨_, _, hget, ?_, .view (hc 1 buffer _ rfl rfl)⟩
      rw [List.getElem?_append_right (Nat.le_add_right _ _), Nat.add_sub_cancel_left]
      rfl
  | 1 =>
      cases hk
      cases ht
      refine ⟨_, _, hcontent, ?_, .arrayBuffer⟩
      rw [List.getElem?_append_right (Nat.le_refl _), Nat.sub_self]
      rfl
  | k + 2 => cases hk

end View

/-- A value whose object, if it is one, is among some. -/
def Value.Within (among : Ref → Prop) (v : Value) : Prop := ∀ r, v = .object r → among r

/-- Some objects with all they refer to, each lawful. -/
def Closed (heap : Heap) (engine : Engine) (among : Ref → Prop) : Prop :=
  ∀ r, among r → ∃ o, heap[r]? = some o ∧ o.Lawful heap engine ∧
    ∀ v ∈ o.children, v.Within among

section ReadBack

variable {F : Type} {P : Policy F} {engine : Engine} {heap : Heap} {among : Ref → Prop}

theorem within_of_item (ho : ∀ v ∈ o.children, v.Within among) {v : Value} (hv : some v ∈ o.items) :
    v.Within among := by
  refine ho v ?_
  cases o with
  | view _ _ _ _ => exact absurd hv (List.not_mem_nil)
  | array _ | plain _ | map _ | set _ | date _ | regExp _ _ | arrayBuffer _ | uncloneable =>
      exact List.reduceOption_mem_iff.mpr hv

/-- The element reader keeps what the value reader reads. -/
theorem readElement_present (hP : P.Keeps) (htag : ∃ tag rest, bytes = tag :: rest ∧ tag ≠ tagHole)
    (b : Built) (rest : Bytes) (w : Value) (s' : Reader)
    (h : readInner P engine f (b.at (bytes ++ rest)) = (.ok w, s')) :
    (takeU8 P >>= fun tag => if tag = tagHole then pure none
      else P.element (readWithTag P engine f tag)) (b.at (bytes ++ rest)) = (.ok (some w), s') := by
  obtain ⟨tag, bytes, rfl, hne⟩ := htag
  rw [List.cons_append, readInner_at] at h
  rw [List.cons_append, bind_ok (takeU8_at P b tag _), if_neg hne]
  exact hP _ _ _ _ h

theorem Reads.tagged {numbers numbers' : List Ref} {b : Built} {tag : UInt8}
    {post : Built → Value → Prop}
    (h : Reads heap (fun _ => True) numbers b (readWithTag P engine f tag) bytes numbers' post) :
    Reads heap (fun _ => True) numbers b (readInner P engine f) (tag :: bytes) numbers' post := by
  intro rest
  rw [List.cons_append, readInner_at]
  exact h rest

/-- An object that is written for the first time. -/
theorem reads_object (hP : P.Keeps) {fuel f : Nat}
    (hmirrors : Mirrors heap (Value.Within among) f (writeValue heap noTransfers fuel)
      (readInner P engine f)) {numbers numbers' : List Ref} {b : Built}
    (hlinked : Linked heap numbers b) (hr : r ∉ numbers) (hroom : numbers.length < 2 ^ 32)
    (hget : heap[r]? = some o) (hlawful : o.Lawful heap engine)
    (hchildren : ∀ v ∈ o.children, v.Within among)
    (hobject : writeObject noTransfers (writeValue heap noTransfers fuel) (numbers ++ [r]) r o =
      some (numbers', bytes)) (hsize : bytes.length ≤ f + 1) :
    Reads heap (fun _ => True) numbers b (readInner P engine (f + 1)) bytes numbers' fun b' w =>
      (Value.object r).Same (Corresponds numbers' b') w := by
  have hitem {v : Value} (hv : some v ∈ o.items) : v.Within among := within_of_item hchildren hv
  cases o with
  | array elements =>
      obtain ⟨rest, hitems, rfl⟩ := writeContainer_eq_some hobject
      simp only [List.length_cons, List.length_append] at hsize
      refine Reads.tagged (reads_readArray hlinked hr hroom (fun b rest => ?_) hmirrors ?_ hget
        hlawful (fun v hv => hitem hv) hitems (by omega))
      · exact bind_ok (takeU8_at P b tagHole rest)
      · intro _ _ _ _ hwrite
        exact readElement_present hP (writeValue_tag hwrite)
  | plain entries =>
      obtain ⟨rest, hitems, rfl⟩ := writeContainer_eq_some hobject
      simp only [List.length_cons, List.length_append] at hsize
      refine Reads.tagged (reads_readObject hlinked hr hroom hmirrors hget hlawful.1 hlawful.2
        (fun e he => ⟨hitem ?_, hitem ?_⟩) hitems (by omega))
      · exact List.mem_flatMap.mpr ⟨e, he, List.mem_cons_self ..⟩
      · exact List.mem_flatMap.mpr ⟨e, he, List.mem_cons_of_mem _ (List.mem_cons_self ..)⟩
  | map entries =>
      obtain ⟨rest, hitems, rfl⟩ := writeContainer_eq_some hobject
      simp only [List.length_cons, List.length_append] at hsize
      obtain ⟨hcount, hkeys, hnormal⟩ := hlawful
      refine Reads.tagged (reads_readMap hlinked hr hroom hmirrors hget hcount hkeys hnormal
        (fun e he => ⟨hitem ?_, hitem ?_⟩) hitems (by omega))
      · exact List.mem_flatMap.mpr ⟨e, he, List.mem_cons_self ..⟩
      · exact List.mem_flatMap.mpr ⟨e, he, List.mem_cons_of_mem _ (List.mem_cons_self ..)⟩
  | set elements =>
      obtain ⟨rest, hitems, rfl⟩ := writeContainer_eq_some hobject
      simp only [List.length_cons, List.length_append] at hsize
      obtain ⟨hcount, hkeys, hnormal⟩ := hlawful
      exact Reads.tagged (reads_readSet hlinked hr hroom hmirrors hget hcount hkeys hnormal
        (fun e he => hitem (List.mem_map_of_mem he)) hitems (by omega))
  | date time =>
      cases hobject
      exact Reads.tagged (reads_readDate hlinked hr hroom hget)
  | regExp source flags =>
      obtain ⟨first, second, hfirst, hsecond, rfl, rfl⟩ := writeObject_regExp hobject
      obtain ⟨f, rfl⟩ : ∃ k, f = k + 1 := by
        rw [(putString_eq_some hfirst).2, List.cons_append, List.length_cons,
          List.length_cons] at hsize
        exact ⟨f - 1, by omega⟩
      exact Reads.tagged (reads_readRegExp hlinked hr hroom hget hlawful hfirst hsecond)
  | arrayBuffer content =>
      obtain ⟨hlt, rfl, rfl⟩ := writeObject_arrayBuffer hobject
      exact Reads.tagged (reads_readArrayBuffer hlinked hr hroom hget hlt)
  | view kind offset length buffer =>
      obtain ⟨rest, hoffset, hlength, hwrite, rfl⟩ := writeObject_view hobject
      obtain ⟨content, hcontent, hfits⟩ := hlawful
      have hne : r ≠ buffer := by
        rintro rfl
        rw [hget] at hcontent
        cases hcontent
      obtain ⟨f, rfl⟩ : ∃ k, f = k + 1 := by
        simp only [List.length_cons, List.length_append, length_put] at hsize
        exact ⟨f - 1, by omega⟩
      cases fuel with
      | zero => cases hwrite
      | succ fuel =>
          rcases writeValue_object hwrite with ⟨id, hid, rfl, rfl⟩ | ⟨hnew, hroom', o, hget', hbuffer⟩
          · refine Reads.tagged (reads_readView_known hlinked hr hroom hoffset hlength hget hcontent
              hfits ?_)
            exact getElem?_of_concat hid hne.symm
          · rw [hcontent] at hget'
            cases hget'
            obtain ⟨hlt, rfl, rfl⟩ := writeObject_arrayBuffer hbuffer
            rw [List.append_assoc]
            exact Reads.tagged (reads_readView_new hlinked hr hroom hoffset hlength hget hcontent
              hfits hnew hroom' hlt)
  | uncloneable => exact hlawful.elim

theorem mirrors_readInner (hP : P.Keeps) (hclosed : Closed heap engine among) (fuel f : Nat) :
    Mirrors heap (Value.Within among) f (writeValue heap noTransfers fuel) (readInner P engine f) := by
  induction fuel generalizing f with
  | zero =>
      intro numbers b v numbers' bytes hwrite
      cases hwrite
  | succ fuel ih =>
      intro numbers b v numbers' bytes hwrite hwithin hsize hlinked
      -- the tag takes a byte, so there is fuel for a level
      obtain ⟨f, rfl⟩ : ∃ k, f = k + 1 := by
        obtain ⟨tag, rest, rfl, -⟩ := writeValue_tag hwrite
        rw [List.length_cons] at hsize
        exact ⟨f - 1, by omega⟩
      cases v with
      | undefined =>
          cases hwrite
          exact fun rest => ⟨.undefined, b, rfl, hlinked, .refl, .primitive rfl⟩
      | null =>
          cases hwrite
          exact fun rest => ⟨.null, b, rfl, hlinked, .refl, .primitive rfl⟩
      | boolean c =>
          cases c with
          | false =>
              cases hwrite
              exact fun rest => ⟨.boolean false, b, rfl, hlinked, .refl, .primitive rfl⟩
          | true =>
              cases hwrite
              exact fun rest => ⟨.boolean true, b, rfl, hlinked, .refl, .primitive rfl⟩
      | number n =>
          cases hwrite
          intro rest
          refine ⟨.number n, b, ?_, hlinked, .refl, .primitive rfl⟩
          rw [List.cons_append, readInner_at]
          change (takeU64 P >>= fun bits => pure (Value.number (.box (.ofNat bits)))) _ = _
          rw [bind_ok (takeU64_at P b n.val.toNat_lt rest), UInt64.ofNat_toNat, box_val]
          rfl
      | string units =>
          obtain ⟨bytes, hput, hwrite⟩ := Option.map_eq_some_iff.mp hwrite
          cases hwrite
          exact fun rest => ⟨.string units, b, readInner_string hput f b rest, hlinked,
            .refl, .primitive rfl⟩
      | bigInt n =>
          obtain ⟨bytes, hput, hwrite⟩ := Option.map_eq_some_iff.mp hwrite
          cases hwrite
          obtain ⟨hlt, rfl⟩ := writeBigInt_eq_some hput
          intro rest
          refine ⟨.bigInt n, b, ?_, hlinked, .refl, .primitive rfl⟩
          rw [List.cons_append, readInner_at]
          rw [readWithTag_bigInt]
          exact readBigInt_at P b hlt rest
      | object r =>
          rcases writeValue_object hwrite with ⟨id, hid, rfl, rfl⟩ | ⟨hr, hroom, o, hget, hobject⟩
          · intro rest
            obtain ⟨hidlt, -⟩ := List.getElem?_eq_some_iff.mp hid
            obtain ⟨t, ht⟩ := hlinked.filled id hidlt
            refine ⟨.object t, b, ?_, hlinked, .refl, .object ⟨id, hid, ht⟩⟩
            exact readInner_reference (Nat.lt_of_lt_of_le hidlt hlinked.room) ht f rest
          · obtain ⟨o', hget', hlawful, hchildren⟩ := hclosed r (hwithin r rfl)
            rw [hget] at hget'
            cases hget'
            exact reads_object hP (ih f) hlinked hr hroom hget hlawful hchildren hobject hsize

end ReadBack

end Slag.V8
