import Slag.Wasm.Bulk

/-!
The bulk instructions trap where a range is too long, with the store as it was;
otherwise the range gets what the source was before, and nothing else changes.
-/

namespace Slag.Wasm.Linking.Bulk

open Fallible (bind_ok)

/-! ## Ranges of vectors -/

variable {at_ : Nat} {wide : Bool} {v : Value} {storage : StorageType}

variable {dst i len n : Nat}

section Vectors

variable {α : Type} {e : Exec}

theorem checkedAdd_eq {a b : Nat} (h : a + b < 2 ^ 64) : checkedAdd a b = some (a + b) :=
  if_pos h

theorem any_checkedAdd {n a b : Nat} (h : n < 2 ^ 64 ∨ a + b < 2 ^ 64) :
    (checkedAdd a b).any (· ≤ n) = decide (a + b ≤ n) := by
  unfold checkedAdd
  split
  · rfl
  · have hlarge : ¬ a + b ≤ n := by omega
    rw [decide_eq_false hlarge]
    rfl

theorem all_checkedAdd {n a b : Nat} (h : n < 2 ^ 64 ∨ a + b < 2 ^ 64) :
    (checkedAdd a b).all (n < ·) = decide (n < a + b) := by
  unfold checkedAdd
  split
  · rfl
  · have hlarge : n < a + b := by omega
    rw [decide_eq_true hlarge]
    rfl

variable {l : List α}

theorem length_patch {l new : List α} (h : at_ + new.length ≤ l.length) :
    (patch l at_ new).length = l.length := by
  simp only [patch, List.length_append, List.length_take, List.length_drop]
  omega

/-- In the range there are the new elements, and the old ones elsewhere. -/
theorem getElem?_patch {l new : List α} (h : at_ + new.length ≤ l.length) (i : Nat) :
    (patch l at_ new)[i]? = if at_ ≤ i ∧ i < at_ + new.length then new[i - at_]? else l[i]? := by
  have hlength : (l.take at_).length = at_ := by
    rw [List.length_take]
    omega
  unfold patch
  split
  · rename_i hin
    rw [List.append_assoc, List.getElem?_append_right (by omega), hlength,
      List.getElem?_append_left (by omega)]
  · rename_i hout
    rcases Nat.lt_or_ge i at_ with hlt | hge
    · rw [List.append_assoc, List.getElem?_append_left (by omega), List.getElem?_take_of_lt hlt]
    · have hlengths : (l.take at_ ++ new).length = at_ + new.length := by
        rw [List.length_append, hlength]
      rw [List.getElem?_append_right (by omega), hlengths, List.getElem?_drop]
      congr 1
      omega

theorem patch_nil (l : List α) (at_ : Nat) : patch l at_ [] = l := by
  rw [patch, List.append_nil, List.length_nil, Nat.add_zero, List.take_append_drop]

/-- One element more is one more write. -/
theorem set_patch {l new : List α} (a : α) (h : at_ + new.length < l.length) :
    (patch l at_ new).set (at_ + new.length) a = patch l at_ (new ++ [a]) := by
  have hmore : at_ + (new ++ [a]).length ≤ l.length := by
    simp only [List.length_append, List.length_singleton]
    omega
  apply List.ext_getElem?
  intro i
  rw [List.getElem?_set, getElem?_patch h.le, getElem?_patch hmore, length_patch h.le]
  simp only [List.length_append, List.length_singleton]
  rcases Nat.lt_trichotomy i (at_ + new.length) with hlt | rfl | hgt
  · rw [if_neg (by omega)]
    by_cases hge : at_ ≤ i
    · rw [if_pos ⟨hge, hlt⟩, if_pos ⟨hge, by omega⟩, List.getElem?_append_left (by omega)]
    · rw [if_neg (by omega), if_neg (by omega)]
  · rw [if_pos rfl, if_pos h, if_pos ⟨by omega, by omega⟩, List.getElem?_append_right (by omega)]
    simp
  · rw [if_neg (by omega), if_neg (by omega), if_neg (by omega)]

variable {start : Nat}

theorem slice_eq (h : start + len ≤ l.length) :
    slice l start (start + len) e = (.ok ((l.drop start).take len), e) := by
  rw [slice, if_pos ⟨Nat.le_add_right _ _, h⟩, Nat.add_sub_cancel_left]
  rfl

theorem length_range (h : start + len ≤ l.length) :
    ((l.drop start).take len).length = len := by
  rw [List.length_take, List.length_drop]
  omega

theorem copyFromSlice_eq {l source : List α} (h : start + len ≤ l.length) (hlen : source.length = len) :
    copyFromSlice l start (start + len) source e = (.ok (patch l start source), e) := by
  rw [copyFromSlice, if_pos ⟨Nat.le_add_right _ _, h, by omega⟩]
  rfl

theorem fill_eq {a : α} (h : start + len ≤ l.length) :
    fill l start (start + len) a e = (.ok (patch l start (List.replicate len a)), e) := by
  rw [fill, if_pos ⟨Nat.le_add_right _ _, h⟩, Nat.add_sub_cancel_left]
  rfl

theorem copyWithin_eq (h : start + len ≤ l.length) (hdst : dst + len ≤ l.length) :
    copyWithin l start (start + len) dst e = (.ok (patch l dst ((l.drop start).take len)), e) := by
  rw [copyWithin, Nat.add_sub_cancel_left, if_pos ⟨Nat.le_add_right _ _, h, hdst⟩]
  rfl

end Vectors

/-! ## Operands and cells -/

section Cells

variable {stack : List Value} {s : Store}

/-- An operand of the type of addresses. -/
inductive IsAddr : Bool → Nat → Value → Prop where
  | i32 (v : BitVec 32) : IsAddr false v.toNat (.i32 v)
  | i64 (v : BitVec 64) : IsAddr true v.toNat (.i64 v)

/-- The memory of an instance at an index, and whether its addresses are wide. -/
structure HasMemory (s : Store) (inst memory : Nat) (cell : Nat) (wide : Bool) (bytes : List UInt8) :
    Prop where
  linked : ∃ linked, s.instances[inst]? = some linked ∧ linked.memories[memory]? = some cell
  type : ∃ ty, s.memoryTypes[cell]? = some ty ∧ ty.memory64 = wide
  value : ∃ m, s.memories[cell]? = some m ∧ m.value.bytes = bytes

structure HasTable (s : Store) (inst table : Nat) (cell : Nat) (wide : Bool) (elements : List RefValue) :
    Prop where
  linked : ∃ linked, s.instances[inst]? = some linked ∧ linked.tables[table]? = some cell
  type : ∃ ty, s.tableTypes[cell]? = some ty ∧ ty.table64 = wide
  value : ∃ t, s.tables[cell]? = some t ∧ t.value.elements = elements

/-- The bytes of a data segment, none where it was dropped. -/
def HasData (s : Store) (inst data : Nat) (bytes : List UInt8) : Prop :=
  ∃ linked segment, s.instances[inst]? = some linked ∧ linked.dataSegments[data]? = some segment ∧
    segment.getD [] = bytes

def HasElements (s : Store) (inst elem : Nat) (items : List RefValue) : Prop :=
  ∃ linked segment, s.instances[inst]? = some linked ∧ linked.elementSegments[elem]? = some segment ∧
    segment.getD [] = items

/-- The lengths of vectors are sizes. -/
structure Sized (s : Store) : Prop where
  memories : ∀ m ∈ s.memories, m.value.bytes.length < 2 ^ 64
  tables : ∀ t ∈ s.tables, t.value.elements.length < 2 ^ 64

theorem index_eq {α : Type} {l : List α} {a : α} {e : Exec} (h : l[i]? = some a) :
    index l i e = (.ok a, e) := by
  rw [index, h]
  rfl

theorem indexed_eq {α : Type} {f : Store → List α} {a : α} (h : (f s)[i]? = some a) :
    indexed f i ⟨stack, s⟩ = (.ok a, ⟨stack, s⟩) :=
  index_eq h

theorem popAddr_eq (h : IsAddr wide n v) :
    popWide wide ⟨v :: stack, s⟩ = (.ok n, ⟨stack, s⟩) := by
  cases h with
  | i32 v => rfl
  | i64 v => rfl

namespace HasMemory

variable {inst memory cell : Nat} {wide : Bool} {bytes : List UInt8}

theorem memCell_eq (h : HasMemory s inst memory cell wide bytes) :
    memCell inst memory ⟨stack, s⟩ = (.ok cell, ⟨stack, s⟩) := by
  obtain ⟨linked, hlinked, hcell⟩ := h.linked
  rw [memCell, bind_ok (indexed_eq hlinked), hcell]
  rfl

theorem memoryIs64_eq (h : HasMemory s inst memory cell wide bytes) :
    memoryIs64 inst memory ⟨stack, s⟩ = (.ok wide, ⟨stack, s⟩) := by
  obtain ⟨ty, hty, rfl⟩ := h.type
  rw [memoryIs64, bind_ok h.memCell_eq, bind_ok (indexed_eq hty)]
  rfl

theorem popMemAddr_eq (h : HasMemory s inst memory cell wide bytes) (hv : IsAddr wide n v) :
    popMemAddr inst memory ⟨v :: stack, s⟩ = (.ok n, ⟨stack, s⟩) := by
  rw [popMemAddr, bind_ok h.memoryIs64_eq, popAddr_eq hv]

theorem bytesOf_eq (h : HasMemory s inst memory cell wide bytes) :
    bytesOf cell ⟨stack, s⟩ = (.ok bytes, ⟨stack, s⟩) := by
  obtain ⟨m, hm, rfl⟩ := h.value
  rw [bytesOf, bind_ok (indexed_eq hm)]
  rfl

theorem length_lt (h : HasMemory s inst memory cell wide bytes) (hs : Sized s) :
    bytes.length < 2 ^ 64 := by
  obtain ⟨m, hm, rfl⟩ := h.value
  exact hs.memories m (List.mem_of_getElem? hm)

end HasMemory

namespace HasTable

variable {inst table cell : Nat} {wide : Bool} {elements : List RefValue}

theorem tableCell_eq (h : HasTable s inst table cell wide elements) :
    tableCell inst table ⟨stack, s⟩ = (.ok cell, ⟨stack, s⟩) := by
  obtain ⟨linked, hlinked, hcell⟩ := h.linked
  rw [tableCell, bind_ok (indexed_eq hlinked), hcell]
  rfl

theorem tableIs64_eq (h : HasTable s inst table cell wide elements) :
    tableIs64 inst table ⟨stack, s⟩ = (.ok wide, ⟨stack, s⟩) := by
  obtain ⟨ty, hty, rfl⟩ := h.type
  rw [tableIs64, bind_ok h.tableCell_eq, bind_ok (indexed_eq hty)]
  rfl

theorem popTableAddr_eq (h : HasTable s inst table cell wide elements) (hv : IsAddr wide n v) :
    popTableAddr inst table ⟨v :: stack, s⟩ = (.ok n, ⟨stack, s⟩) := by
  rw [popTableAddr, bind_ok h.tableIs64_eq, popAddr_eq hv]

theorem elementsOf_eq (h : HasTable s inst table cell wide elements) :
    elementsOf cell ⟨stack, s⟩ = (.ok elements, ⟨stack, s⟩) := by
  obtain ⟨t, ht, rfl⟩ := h.value
  rw [elementsOf, bind_ok (indexed_eq ht)]
  rfl

theorem length_lt (h : HasTable s inst table cell wide elements) (hs : Sized s) :
    elements.length < 2 ^ 64 := by
  obtain ⟨t, ht, rfl⟩ := h.value
  exact hs.tables t (List.mem_of_getElem? ht)

end HasTable

theorem popI32_cons (v : BitVec 32) : popI32 ⟨.i32 v :: stack, s⟩ = (.ok v.toNat, ⟨stack, s⟩) := rfl

theorem pop_cons (v : Value) : pop ⟨v :: stack, s⟩ = (.ok v, ⟨stack, s⟩) := rfl

theorem popArray_cons (message : String) (id : Nat) :
    popArray message ⟨.ref (.array id) :: stack, s⟩ = (.ok id, ⟨stack, s⟩) := rfl

theorem popArrayRef_cons (id : Nat) :
    popArrayRef ⟨.ref (.array id) :: stack, s⟩ = (.ok id, ⟨stack, s⟩) := rfl

theorem add_toNat_lt (a b : BitVec 32) : a.toNat + b.toNat < 2 ^ 64 := by omega

end Cells

/-- Where the ranges fit, the instruction leaves one store; otherwise it traps and
leaves the store as it was. -/
structure AllOrNothing (op : Step Unit) (stack rest : List Value) (s : Store) (fits : Prop)
    (after : Store) : Prop where
  runs : fits → op ⟨stack, s⟩ = (.ok (), ⟨rest, after⟩)
  traps : ¬ fits → ∃ t, op ⟨stack, s⟩ = (.error (.fail (.trap t)), ⟨rest, s⟩)

namespace AllOrNothing

variable {op f : Step Unit} {stack rest : List Value} {s after : Store} {fits : Prop} {t : Trap}

theorem of_then {b : Bool} (hstart : op ⟨stack, s⟩ = (if b then f else trap t) ⟨rest, s⟩)
    (hfits : b = true ↔ fits) (hbody : fits → f ⟨rest, s⟩ = (.ok (), ⟨rest, after⟩)) :
    AllOrNothing op stack rest s fits after where
  runs := fun h => by rw [hstart, if_pos (hfits.mpr h), hbody h]
  traps := fun h => ⟨t, by rw [hstart, if_neg (mt hfits.mp h)]; rfl⟩

theorem of_else {b : Bool} (hstart : op ⟨stack, s⟩ = (if b then trap t else f) ⟨rest, s⟩)
    (hfits : b = false ↔ fits) (hbody : fits → f ⟨rest, s⟩ = (.ok (), ⟨rest, after⟩)) :
    AllOrNothing op stack rest s fits after where
  runs := fun h => by rw [hstart, hfits.mpr h]; exact hbody h
  traps := fun h => ⟨t, by rw [hstart, Bool.eq_true_of_not_eq_false (mt hfits.mp h)]; rfl⟩

theorem of_else₂ {p q : Prop} [Decidable p] [Decidable q] {u : Trap}
    (hstart : op ⟨stack, s⟩ = (if p then trap t else if q then trap u else f) ⟨rest, s⟩)
    (hfits : fits ↔ ¬ p ∧ ¬ q) (hbody : fits → f ⟨rest, s⟩ = (.ok (), ⟨rest, after⟩)) :
    AllOrNothing op stack rest s fits after where
  runs := fun h => by
    obtain ⟨hp, hq⟩ := hfits.mp h
    rw [hstart, if_neg hp, if_neg hq, hbody h]
  traps := fun h => by
    by_cases hp : p
    · exact ⟨t, by rw [hstart, if_pos hp]; rfl⟩
    · have hq : q := by
        by_contra hq
        exact h (hfits.mpr ⟨hp, hq⟩)
      exact ⟨u, by rw [hstart, if_neg hp, if_pos hq]; rfl⟩

end AllOrNothing

/-! ## Writes of ranges -/

section Ranges

variable {α : Type} {l source : List α} {rest : List Value} {s : Store} {dst src len : Nat}
  (set : List α → Store → Store)

theorem copyFrom_eq (hdst : dst + len ≤ l.length) (hsrc : src + len ≤ source.length) :
    (do let part ← slice source src (src + len)
        let l ← copyFromSlice l dst (dst + len) part
        write (set l) : Step Unit) ⟨rest, s⟩ =
      (.ok (), ⟨rest, set (patch l dst ((source.drop src).take len)) s⟩) := by
  rw [bind_ok (slice_eq hsrc), bind_ok (copyFromSlice_eq hdst (length_range hsrc))]
  rfl

theorem copySame_eq (hdst : dst + len ≤ l.length) (hsrc : src + len ≤ l.length) :
    (do let l ← copyWithin l src (src + len) dst
        write (set l) : Step Unit) ⟨rest, s⟩ =
      (.ok (), ⟨rest, set (patch l dst ((l.drop src).take len)) s⟩) := by
  rw [bind_ok (copyWithin_eq hsrc hdst)]
  rfl

theorem fillWith_eq {a : α} (hdst : dst + len ≤ l.length) :
    (do let l ← fill l dst (dst + len) a
        write (set l) : Step Unit) ⟨rest, s⟩ =
      (.ok (), ⟨rest, set (patch l dst (List.replicate len a)) s⟩) := by
  rw [bind_ok (fill_eq hdst)]
  rfl

variable {stack : List Value} {op : Step Unit}

/-- A part of a segment is written into a vector. -/
theorem AllOrNothing.init (t : Trap) (hl : l.length < 2 ^ 64) (hsum : src + len < 2 ^ 64)
    (hstart : op ⟨stack, s⟩ = (if (checkedAdd dst len).any (· ≤ l.length) &&
        (checkedAdd src len).any (· ≤ source.length) then do
        let part ← slice source src (src + len)
        let l ← copyFromSlice l dst (dst + len) part
        write (set l)
      else trap t : Step Unit) ⟨rest, s⟩) :
    AllOrNothing op stack rest s (dst + len ≤ l.length ∧ src + len ≤ source.length)
      (set (patch l dst ((source.drop src).take len)) s) := by
  refine .of_then hstart ?_ fun h => copyFrom_eq set h.1 h.2
  rw [any_checkedAdd (.inl hl), any_checkedAdd (.inr hsum), Bool.and_eq_true, decide_eq_true_iff,
    decide_eq_true_iff]

/-- A range of a vector is written into another or into the same one. -/
theorem AllOrNothing.copy (t : Trap) (same : Prop) [Decidable same] (hsame : same → l = source)
    (hl : l.length < 2 ^ 64) (hsource : source.length < 2 ^ 64)
    (hstart : op ⟨stack, s⟩ = (if (checkedAdd dst len).all (l.length < ·) ||
        (checkedAdd src len).all (source.length < ·) then trap t
      else if same then do
        let l ← copyWithin l src (src + len) dst
        write (set l)
      else do
        let part ← slice source src (src + len)
        let l ← copyFromSlice l dst (dst + len) part
        write (set l) : Step Unit) ⟨rest, s⟩) :
    AllOrNothing op stack rest s (dst + len ≤ l.length ∧ src + len ≤ source.length)
      (set (patch l dst ((source.drop src).take len)) s) := by
  refine .of_else hstart ?_ fun h => ?_
  · rw [all_checkedAdd (.inl hl), all_checkedAdd (.inl hsource), Bool.or_eq_false_iff,
      decide_eq_false_iff_not, decide_eq_false_iff_not, Nat.not_lt, Nat.not_lt]
  · split
    · obtain rfl := hsame ‹_›
      exact copySame_eq set h.1 h.2
    · exact copyFrom_eq set h.1 h.2

theorem AllOrNothing.fill (t : Trap) {a : α} (hl : l.length < 2 ^ 64)
    (hstart : op ⟨stack, s⟩ = (if (checkedAdd dst len).all (l.length < ·) then trap t
      else do
        let l ← Bulk.fill l dst (dst + len) a
        write (set l) : Step Unit) ⟨rest, s⟩) :
    AllOrNothing op stack rest s (dst + len ≤ l.length) (set (patch l dst (List.replicate len a)) s) := by
  refine .of_else hstart ?_ (fillWith_eq set)
  rw [all_checkedAdd (.inl hl), decide_eq_false_iff_not, Nat.not_lt]

end Ranges

/-! ## Memories -/

variable {bytes : List UInt8}

section Memories

variable {inst : Nat} {s : Store} (hs : Sized s) {rest : List Value}
include hs

theorem memoryInit_spec {data memory cell : Nat} {bytes source : List UInt8}
    (hmemory : HasMemory s inst memory cell wide bytes) (hdata : HasData s inst data source)
    (hv : IsAddr wide dst v) (src len : BitVec 32) :
    AllOrNothing (memoryInit inst data memory) (.i32 len :: .i32 src :: v :: rest) rest s
      (dst + len.toNat ≤ bytes.length ∧ src.toNat + len.toNat ≤ source.length)
      (setBytes cell (patch bytes dst ((source.drop src.toNat).take len.toNat)) s) := by
  obtain ⟨linked, segment, hlinked, hsegment, rfl⟩ := hdata
  refine .init (setBytes cell) .outOfBoundsMemoryAccess (hmemory.length_lt hs) (add_toNat_lt _ _) ?_
  rw [memoryInit, bind_ok (popI32_cons len), bind_ok (popI32_cons src),
    bind_ok hmemory.memCell_eq, bind_ok (hmemory.popMemAddr_eq hv), bind_ok (indexed_eq hlinked),
    hsegment]
  dsimp only
  rw [bind_ok hmemory.bytesOf_eq]

theorem memoryCopy_spec {dstMemory srcMemory dstCell srcCell : Nat} {dstWide srcWide : Bool}
    {dstBytes srcBytes : List UInt8} {dst src len : Nat} {vDst vSrc vLen : Value}
    (hdst : HasMemory s inst dstMemory dstCell dstWide dstBytes)
    (hsrc : HasMemory s inst srcMemory srcCell srcWide srcBytes) (hvDst : IsAddr dstWide dst vDst)
    (hvSrc : IsAddr srcWide src vSrc) (hvLen : IsAddr (dstWide && srcWide) len vLen) :
    AllOrNothing (memoryCopy inst dstMemory srcMemory) (vLen :: vSrc :: vDst :: rest) rest s
      (dst + len ≤ dstBytes.length ∧ src + len ≤ srcBytes.length)
      (setBytes dstCell (patch dstBytes dst ((srcBytes.drop src).take len)) s) := by
  have hwide : memoriesAre64 inst dstMemory srcMemory ⟨vLen :: vSrc :: vDst :: rest, s⟩ =
      (.ok (dstWide && srcWide), ⟨vLen :: vSrc :: vDst :: rest, s⟩) := by
    rw [memoriesAre64, bind_ok hdst.memoryIs64_eq]
    cases dstWide with
    | false => rfl
    | true => exact hsrc.memoryIs64_eq
  refine .copy (setBytes dstCell) .outOfBoundsMemoryAccess (dstCell = srcCell) ?_
    (hdst.length_lt hs) (hsrc.length_lt hs) ?_
  · rintro rfl
    obtain ⟨m, hm, rfl⟩ := hdst.value
    obtain ⟨m', hm', rfl⟩ := hsrc.value
    cases hm.symm.trans hm'
    rfl
  · rw [memoryCopy, bind_ok hwide, bind_ok (popAddr_eq hvLen), bind_ok (hsrc.popMemAddr_eq hvSrc),
      bind_ok (hdst.popMemAddr_eq hvDst), bind_ok hdst.memCell_eq, bind_ok hsrc.memCell_eq,
      bind_ok hdst.bytesOf_eq, bind_ok hsrc.bytesOf_eq]

theorem memoryFill_spec {memory cell : Nat} {vDst vLen : Value}
    (hmemory : HasMemory s inst memory cell wide bytes) (hvDst : IsAddr wide dst vDst)
    (hvLen : IsAddr wide len vLen) (value : BitVec 32) :
    AllOrNothing (memoryFill inst memory) (vLen :: .i32 value :: vDst :: rest) rest s
      (dst + len ≤ bytes.length)
      (setBytes cell (patch bytes dst (List.replicate len (UInt8.ofNat value.toNat))) s) := by
  refine .fill (setBytes cell) .outOfBoundsMemoryAccess (hmemory.length_lt hs) ?_
  rw [memoryFill, bind_ok hmemory.memCell_eq, bind_ok (hmemory.popMemAddr_eq hvLen),
    bind_ok (popI32_cons value), bind_ok (hmemory.popMemAddr_eq hvDst), bind_ok hmemory.bytesOf_eq]

end Memories

/-! ## Tables -/

section Tables

variable {inst : Nat} {s : Store} (hs : Sized s) {rest : List Value}
include hs

theorem tableInit_spec {elem table cell : Nat} {elements source : List RefValue}
    (htable : HasTable s inst table cell wide elements) (helem : HasElements s inst elem source)
    (hv : IsAddr wide dst v) (src len : BitVec 32) :
    AllOrNothing (tableInit inst elem table) (.i32 len :: .i32 src :: v :: rest) rest s
      (dst + len.toNat ≤ elements.length ∧ src.toNat + len.toNat ≤ source.length)
      (setElements cell (patch elements dst ((source.drop src.toNat).take len.toNat)) s) := by
  obtain ⟨linked, segment, hlinked, hsegment, rfl⟩ := helem
  refine .init (setElements cell) .outOfBoundsTableAccess (htable.length_lt hs) (add_toNat_lt _ _) ?_
  rw [tableInit, bind_ok (popI32_cons len), bind_ok (popI32_cons src),
    bind_ok (htable.popTableAddr_eq hv), bind_ok htable.tableCell_eq, bind_ok (indexed_eq hlinked),
    hsegment]
  dsimp only
  rw [bind_ok htable.elementsOf_eq]

theorem tableCopy_spec {dstTable srcTable dstCell srcCell : Nat} {dstWide srcWide : Bool}
    {dstElements srcElements : List RefValue} {dst src len : Nat} {vDst vSrc vLen : Value}
    (hdst : HasTable s inst dstTable dstCell dstWide dstElements)
    (hsrc : HasTable s inst srcTable srcCell srcWide srcElements) (hvDst : IsAddr dstWide dst vDst)
    (hvSrc : IsAddr srcWide src vSrc) (hvLen : IsAddr (dstWide && srcWide) len vLen) :
    AllOrNothing (tableCopy inst dstTable srcTable) (vLen :: vSrc :: vDst :: rest) rest s
      (dst + len ≤ dstElements.length ∧ src + len ≤ srcElements.length)
      (setElements dstCell (patch dstElements dst ((srcElements.drop src).take len)) s) := by
  have hwide : tablesAre64 inst dstTable srcTable ⟨vLen :: vSrc :: vDst :: rest, s⟩ =
      (.ok (dstWide && srcWide), ⟨vLen :: vSrc :: vDst :: rest, s⟩) := by
    rw [tablesAre64, bind_ok hdst.tableIs64_eq]
    cases dstWide with
    | false => rfl
    | true => exact hsrc.tableIs64_eq
  refine .copy (setElements dstCell) .outOfBoundsTableAccess (dstCell = srcCell) ?_
    (hdst.length_lt hs) (hsrc.length_lt hs) ?_
  · rintro rfl
    obtain ⟨t, ht, rfl⟩ := hdst.value
    obtain ⟨t', ht', rfl⟩ := hsrc.value
    cases ht.symm.trans ht'
    rfl
  · rw [tableCopy, bind_ok hwide, bind_ok (popAddr_eq hvLen), bind_ok (hsrc.popTableAddr_eq hvSrc),
      bind_ok (hdst.popTableAddr_eq hvDst), bind_ok hdst.tableCell_eq, bind_ok hsrc.tableCell_eq,
      bind_ok hdst.elementsOf_eq, bind_ok hsrc.elementsOf_eq]

theorem tableFill_spec {table cell : Nat} {elements : List RefValue} {vDst vLen : Value}
    (htable : HasTable s inst table cell wide elements) (hvDst : IsAddr wide dst vDst)
    (hvLen : IsAddr wide len vLen) (value : RefValue) :
    AllOrNothing (tableFill inst table) (vLen :: .ref value :: vDst :: rest) rest s
      (dst + len ≤ elements.length)
      (setElements cell (patch elements dst (List.replicate len value)) s) := by
  refine .fill (setElements cell) .outOfBoundsTableAccess (htable.length_lt hs) ?_
  rw [tableFill, bind_ok (htable.popTableAddr_eq hvLen), bind_ok (pop_cons _)]
  dsimp only
  rw [bind_ok (htable.popTableAddr_eq hvDst), bind_ok htable.tableCell_eq,
    bind_ok htable.elementsOf_eq]

end Tables

/-! ## Elements from bytes -/

/-- The value that bytes of the width of a storage type are, the lowest first. -/
def readCell (storage : StorageType) (bytes : List UInt8) : Value :=
  match storage with
  | .i8 | .i16 | .i32 => .i32 (BitVec.ofNat 32 (LittleEndian.get bytes))
  | .i64 => .i64 (BitVec.ofNat 64 (LittleEndian.get bytes))
  | .f32 => .f32 (BitVec.ofNat 32 (LittleEndian.get bytes))
  | .f64 => .f64 (BitVec.ofNat 64 (LittleEndian.get bytes))
  | .v128 => .v128 (BitVec.ofNat 128 (LittleEndian.get bytes))
  | .ref _ => .ref .null

theorem gather_from {bits : Nat} (bytes : List UInt8) (k : Nat) (acc : BitVec bits)
    (hacc : acc.toNat < 2 ^ (8 * k)) (hbits : 8 * (k + bytes.length) ≤ bits) :
    ((bytes.zipIdx k).foldl
      (fun acc p => acc ||| BitVec.ofNat bits p.1.toNat <<< (8 * p.2 % bits)) acc).toNat =
      acc.toNat + 2 ^ (8 * k) * LittleEndian.get bytes := by
  induction bytes generalizing k acc with
  | nil => simp [LittleEndian.get]
  | cons b bytes ih =>
      rw [List.length_cons] at hbits
      have hbyte := b.toNat_lt
      have hmod : 8 * k % bits = 8 * k := Nat.mod_eq_of_lt (by omega)
      have hpow : 2 ^ (8 * k) * 2 ^ 8 ≤ 2 ^ bits := by
        rw [← pow_add]
        exact Nat.pow_le_pow_right (by decide) (by omega)
      have hshift : b.toNat * 2 ^ (8 * k) < 2 ^ bits := by nlinarith
      have hsmall : b.toNat < 2 ^ bits := by nlinarith [Nat.two_pow_pos (8 * k)]
      have hor : (acc ||| BitVec.ofNat bits b.toNat <<< (8 * k % bits)).toNat =
          acc.toNat + 2 ^ (8 * k) * b.toNat := by
        rw [hmod, BitVec.toNat_or, BitVec.toNat_shiftLeft, BitVec.toNat_ofNat, Nat.mod_eq_of_lt hsmall,
          Nat.shiftLeft_eq, Nat.mod_eq_of_lt hshift, Nat.or_comm, Nat.mul_comm,
          ← Nat.two_pow_add_eq_or_of_lt hacc]
        omega
      rw [List.zipIdx_cons, List.foldl_cons, ih (k + 1) _ (by
        rw [hor, Nat.mul_succ, pow_add]
        nlinarith) (by omega), hor, LittleEndian.get]
      rw [Nat.mul_succ, pow_add]
      ring

theorem gather_eq {bits : Nat} (h : 8 * bytes.length ≤ bits) :
    gather bits bytes = BitVec.ofNat bits (LittleEndian.get bytes) := by
  have hsum := gather_from bytes 0 (0 : BitVec bits) (by simp) (by omega)
  have hzero : (0 : BitVec bits).toNat = 0 := by simp
  rw [hzero, Nat.mul_zero, pow_zero, Nat.one_mul, Nat.zero_add] at hsum
  apply BitVec.eq_of_toNat_eq
  rw [BitVec.toNat_ofNat, ← hsum, Nat.mod_eq_of_lt (BitVec.isLt _)]
  rfl

theorem get_lt (bytes : List UInt8) : LittleEndian.get bytes < 256 ^ bytes.length := by
  induction bytes with
  | nil => decide
  | cons b bytes ih =>
      have hbyte := b.toNat_lt
      rw [LittleEndian.get, List.length_cons, pow_succ]
      omega

theorem dataElement_eq {width : Nat} (hwidth : storageWidth storage = some width)
    (h : at_ + width ≤ bytes.length) :
    dataElement storage bytes at_ = some (readCell storage ((bytes.drop at_).take width)) := by
  have hlength := length_range h
  have hnarrow : width ≤ 8 → (gather 64 ((bytes.drop at_).take width)).setWidth 32 =
      BitVec.ofNat 32 (LittleEndian.get ((bytes.drop at_).take width)) := by
    intro hle
    rw [gather_eq (by omega), BitVec.setWidth_ofNat_of_le (by decide)]
  have hwhole : ∀ {bits : Nat}, 8 * width ≤ bits → gather bits ((bytes.drop at_).take width) =
      BitVec.ofNat bits (LittleEndian.get ((bytes.drop at_).take width)) := by
    intro bits hle
    exact gather_eq (by omega)
  cases storage <;> cases hwidth <;> refine (if_pos h).trans (congrArg some ?_)
  case i8 | i16 | i32 => exact congrArg Value.i32 (hnarrow (by decide))
  case f32 => exact congrArg Value.f32 (hnarrow (by decide))
  case i64 => exact congrArg Value.i64 (hwhole (by decide))
  case f64 => exact congrArg Value.f64 (hwhole (by decide))
  case v128 => exact congrArg Value.v128 (hwhole (by decide))

theorem and_mask {w : BitVec 32} {k : Nat} (hk : k < 32) (h : w.toNat < 2 ^ k) :
    w &&& BitVec.ofNat 32 (2 ^ k - 1) = w := by
  have hpow : 2 ^ k < 2 ^ 32 := Nat.pow_lt_pow_right (by decide) hk
  apply BitVec.eq_of_toNat_eq
  rw [BitVec.toNat_and, BitVec.toNat_ofNat, Nat.mod_eq_of_lt (by omega), Nat.and_two_pow_sub_one_eq_mod,
    Nat.mod_eq_of_lt h]

/-- What is read from bytes is kept as it is. -/
theorem wrapCell_readCell (h : storageWidth storage = some bytes.length) :
    wrapCell storage (readCell storage bytes) = .ok (readCell storage bytes) := by
  have hget := get_lt bytes
  have hnarrow : ∀ k < 32, 256 ^ bytes.length = 2 ^ k →
      (BitVec.ofNat 32 (LittleEndian.get bytes)).toNat < 2 ^ k := by
    intro k _ hpow
    rw [BitVec.toNat_ofNat, ← hpow]
    exact (Nat.mod_le _ _).trans_lt hget
  cases storage with
  | i8 =>
      have hone : bytes.length = 1 := (Option.some.inj h).symm
      rw [hone] at hnarrow
      exact congrArg (fun w => Except.ok (Value.i32 w)) (and_mask (by decide) (hnarrow 8 (by decide) rfl))
  | i16 =>
      have htwo : bytes.length = 2 := (Option.some.inj h).symm
      rw [htwo] at hnarrow
      exact congrArg (fun w => Except.ok (Value.i32 w)) (and_mask (by decide) (hnarrow 16 (by decide) rfl))
  | i32 | i64 | f32 | f64 | v128 => rfl
  | ref r => cases h

/-! ## Arrays -/

/-- An array object and its cells. -/
def HasArray (s : Store) (id : Nat) (cells : List Value) : Prop :=
  ∃ object, s.objects[id]? = some object ∧ object.data = .array cells

/-- The declared storage of an array object. -/
def HasStorage (s : Store) (id : Nat) (storage : StorageType) : Prop :=
  ∃ object owner field, s.objects[id]? = some object ∧ s.instances[object.owner]? = some owner ∧
    arrayElementType owner.module object.ty = .ok field ∧ field.ty = storage

section Arrays

variable {s : Store} {stack rest : List Value} {id : Nat} {cells : List Value}

theorem arrayCells_eq (h : HasArray s id cells) (message : String) :
    arrayCells id message ⟨stack, s⟩ = (.ok cells, ⟨stack, s⟩) := by
  obtain ⟨object, hobject, hdata⟩ := h
  rw [arrayCells, bind_ok (indexed_eq hobject), hdata]
  rfl

theorem gcArrayLen_eq (h : HasArray s id cells) :
    gcArrayLen id ⟨stack, s⟩ = (.ok cells.length, ⟨stack, s⟩) := by
  rw [gcArrayLen, bind_ok (arrayCells_eq h _)]
  rfl

theorem gcArrayStorage_eq (h : HasStorage s id storage) :
    gcArrayStorage id ⟨stack, s⟩ = (.ok storage, ⟨stack, s⟩) := by
  obtain ⟨object, owner, field, hobject, howner, hfield, rfl⟩ := h
  rw [gcArrayStorage, bind_ok (indexed_eq hobject), bind_ok (indexed_eq howner), hfield]
  rfl

theorem HasArray.setArray (h : HasArray s id cells) (cells' : List Value) :
    HasArray (setArray id cells' s) id cells' := by
  obtain ⟨object, hobject, -⟩ := h
  refine ⟨{ object with data := .array cells' }, ?_, rfl⟩
  rw [Bulk.setArray, List.getElem?_modify_eq, hobject]
  rfl

theorem setArray_self (h : HasArray s id cells) : setArray id cells s = s := by
  obtain ⟨object, hobject, hdata⟩ := h
  have hobjects : s.objects.modify id (fun o => { o with data := .array cells }) = s.objects := by
    apply List.ext_getElem?
    intro i
    rw [List.getElem?_modify]
    rcases eq_or_ne id i with rfl | hne
    · rw [hobject, ← hdata]
      simp
    · simp [hne]
  rw [setArray, hobjects]

theorem setArray_setArray (cells cells' : List Value) :
    setArray id cells' (setArray id cells s) = setArray id cells' s := by
  have hobjects : (s.objects.modify id fun o => { o with data := .array cells }).modify id
      (fun o => { o with data := .array cells' }) =
      s.objects.modify id fun o => { o with data := .array cells' } := by
    apply List.ext_getElem?
    intro i
    rw [List.getElem?_modify, List.getElem?_modify, List.getElem?_modify]
    rcases eq_or_ne id i with rfl | hne
    · cases s.objects[id]? <;> simp
    · simp [hne]
  simp only [setArray, hobjects]

theorem setCell_eq (h : HasArray s id cells) (hi : i < cells.length) (v : Value) :
    setCell id i v ⟨stack, s⟩ = (.ok (), ⟨stack, setArray id (cells.set i v) s⟩) := by
  rw [setCell, bind_ok (arrayCells_eq h _), if_pos hi]
  rfl

variable (stack) in
/-- Writing elements one after the other writes the range. -/
theorem forM_setCell (h : HasArray s id cells) (d : Nat) {l : List Value}
    (hlen : d + l.length ≤ cells.length) {f : Nat → Step Unit}
    (hf : ∀ (i : Nat) v s', l[i]? = some v →
      f i ⟨stack, s'⟩ = setCell id (d + i) v ⟨stack, s'⟩) :
    (List.range l.length).forM f ⟨stack, s⟩ = (.ok (), ⟨stack, setArray id (patch cells d l) s⟩) := by
  suffices hprefix : ∀ n ≤ l.length, (List.range n).forM f ⟨stack, s⟩ =
      (.ok (), ⟨stack, setArray id (patch cells d (l.take n)) s⟩) by
    have hall := hprefix l.length (Nat.le_refl _)
    rwa [List.take_length] at hall
  intro n
  induction n with
  | zero =>
      intro _
      rw [List.take_zero, patch_nil, setArray_self h]
      rfl
  | succ n ih =>
      intro hn
      have hlength : (l.take n).length = n := by
        rw [List.length_take]
        omega
      have hget := List.getElem?_eq_getElem (show n < l.length from hn)
      have hone : (List.range (n + 1)).forM f = (List.range n).forM f >>= fun _ => f n := by
        rw [List.range_succ]
        simp only [List.forM_eq_forM, List.forM_append, List.forM_cons, List.forM_nil, bind_pure_unit]
      have hset := set_patch l[n] (show d + (l.take n).length < cells.length by omega)
      rw [hlength] at hset
      have hpatch : (patch cells d (l.take n)).length = cells.length :=
        length_patch (by omega)
      rw [hone, bind_ok (ih (by omega)), hf n l[n] _ hget,
        setCell_eq (h.setArray _) (by rw [hpatch]; omega), setArray_setArray, hset,
        List.take_append_getElem]

theorem arrayFill_spec (h : HasArray s id cells) (hstorage : HasStorage s id storage) {v cell : Value}
    (hcell : wrapCell storage v = .ok cell) (start n : BitVec 32) :
    AllOrNothing arrayFill (.i32 n :: v :: .i32 start :: .ref (.array id) :: rest) rest s
      (start.toNat + n.toNat ≤ cells.length)
      (setArray id (patch cells start.toNat (List.replicate n.toNat cell)) s) := by
  refine AllOrNothing.of_else (t := .outOfBoundsArrayAccess)
    (b := decide (cells.length < start.toNat + n.toNat)) ?start ?fits
    fun h => fillWith_eq (setArray id) h
  case start =>
    have hwrap : wrap storage v ⟨rest, s⟩ = (.ok cell, ⟨rest, s⟩) := by
      rw [wrap, hcell]
      rfl
    rw [arrayFill, bind_ok (popI32_cons n), bind_ok (pop_cons v),
      bind_ok (popI32_cons start), bind_ok (popArray_cons _ id),
      bind_ok (gcArrayStorage_eq hstorage), bind_ok hwrap,
      bind_ok (arrayCells_eq h _), checkedAdd_eq (add_toNat_lt _ _)]
    simp only [decide_eq_true_iff]
  case fits => rw [decide_eq_false_iff_not, Nat.not_lt]

theorem arrayCopy_spec {src dst : Nat} {srcCells dstCells : List Value} (hsrc : HasArray s src srcCells)
    (hdst : HasArray s dst dstCells) (srcOffset dstOffset n : BitVec 32) :
    AllOrNothing arrayCopy
      (.i32 n :: .i32 srcOffset :: .ref (.array src) :: .i32 dstOffset :: .ref (.array dst) :: rest) rest s
      (dstOffset.toNat + n.toNat ≤ dstCells.length ∧ srcOffset.toNat + n.toNat ≤ srcCells.length)
      (setArray dst (patch dstCells dstOffset.toNat
        ((srcCells.drop srcOffset.toNat).take n.toNat)) s) := by
  refine AllOrNothing.of_else (t := .outOfBoundsArrayAccess)
    (b := decide (srcCells.length < srcOffset.toNat + n.toNat ∨
      dstCells.length < dstOffset.toNat + n.toNat))
    (f := do
      let values ← slice (← arrayCells src "array.copy of non-array") srcOffset.toNat
        (srcOffset.toNat + n.toNat)
      let cells ← arrayCells dst "array.copy of non-array"
      let cells ← copyFromSlice cells dstOffset.toNat (dstOffset.toNat + n.toNat) values
      write (setArray dst cells)) ?start ?fits ?body
  case start =>
    rw [arrayCopy, bind_ok (popI32_cons n), bind_ok (popI32_cons srcOffset),
      bind_ok (popArrayRef_cons src), bind_ok (popI32_cons dstOffset),
      bind_ok (popArrayRef_cons dst), bind_ok (gcArrayLen_eq hsrc),
      bind_ok (gcArrayLen_eq hdst), checkedAdd_eq (add_toNat_lt _ _),
      checkedAdd_eq (add_toNat_lt _ _)]
    simp only [decide_eq_true_iff]
  case fits =>
    rw [decide_eq_false_iff_not]
    omega
  case body =>
    intro h
    rw [bind_ok (arrayCells_eq hsrc _), bind_ok (slice_eq h.2),
      bind_ok (arrayCells_eq hdst _),
      bind_ok (copyFromSlice_eq h.1 (length_range h.2))]
    rfl

/-- One round of the loop of `array.init_data`. -/
def initDataCell (id : Nat) (storage : StorageType) (bytes : List UInt8) (dst src width i : Nat) :
    Step Unit :=
  match dataElement storage bytes (src + i * width) with
  | none => unsupported "array.init_data element read"
  | some value => do setCell id (dst + i) (← wrap storage value)

theorem arrayInitData_spec {inst data : Nat} (h : HasArray s id cells)
    (hstorage : HasStorage s id storage) {width : Nat} (hwidth : storageWidth storage = some width)
    (hdata : HasData s inst data bytes) (src dst n : BitVec 32) :
    AllOrNothing (arrayInitData inst data)
      (.i32 n :: .i32 src :: .i32 dst :: .ref (.array id) :: rest) rest s
      (dst.toNat + n.toNat ≤ cells.length ∧ src.toNat + n.toNat * width ≤ bytes.length)
      (setArray id (patch cells dst.toNat ((List.range n.toNat).map fun i =>
        readCell storage ((bytes.drop (src.toNat + i * width)).take width))) s) := by
  obtain ⟨linked, segment, hlinked, hsegment, rfl⟩ := hdata
  have hle : width ≤ 16 := by cases storage <;> cases hwidth <;> decide
  have hmul : n.toNat * width < 2 ^ 64 := by nlinarith [n.isLt]
  have hend : (checkedMul n.toNat width).bind (checkedAdd src.toNat) =
      some (src.toNat + n.toNat * width) := by
    have hsum : src.toNat + n.toNat * width < 2 ^ 64 := by nlinarith [n.isLt, src.isLt]
    rw [checkedMul, if_pos hmul]
    exact checkedAdd_eq hsum
  refine AllOrNothing.of_else₂ (t := .outOfBoundsArrayAccess) (u := .outOfBoundsMemoryAccess)
    (p := cells.length < dst.toNat + n.toNat)
    (q := (segment.getD []).length < src.toNat + n.toNat * width)
    (f := (List.range n.toNat).forM
      (initDataCell id storage (segment.getD []) dst.toNat src.toNat width)) ?start (by omega) ?body
  case start =>
    rw [arrayInitData, bind_ok (popI32_cons n), bind_ok (popI32_cons src),
      bind_ok (popI32_cons dst), bind_ok (popArrayRef_cons id),
      bind_ok (gcArrayStorage_eq hstorage), hwidth]
    dsimp only
    rw [bind_ok (gcArrayLen_eq h), checkedAdd_eq (add_toNat_lt _ _)]
    dsimp only
    split
    · rfl
    · rw [bind_ok (indexed_eq hlinked), bind_ok (index_eq hsegment), hend]
      rfl
  case body =>
    rintro ⟨hdst, hsrc⟩
    have hlength : ((List.range n.toNat).map fun i =>
        readCell storage (((segment.getD []).drop (src.toNat + i * width)).take width)).length = n.toNat := by
      rw [List.length_map, List.length_range]
    have hloop := forM_setCell rest h dst.toNat
      (l := (List.range n.toNat).map fun i =>
        readCell storage (((segment.getD []).drop (src.toNat + i * width)).take width))
      (f := initDataCell id storage (segment.getD []) dst.toNat src.toNat width) (by omega) ?_
    · rwa [hlength] at hloop
    · intro i v s' hv
      rw [List.getElem?_map] at hv
      obtain ⟨i', hi, rfl⟩ := Option.map_eq_some_iff.mp hv
      obtain ⟨hlt, heq⟩ := List.getElem?_eq_some_iff.mp hi
      rw [List.getElem_range] at heq
      subst heq
      rw [List.length_range] at hlt
      have hfit : src.toNat + i * width + width ≤ (segment.getD []).length := by nlinarith
      have hlen : storageWidth storage =
          some (((segment.getD []).drop (src.toNat + i * width)).take width).length := by
        rw [length_range hfit, hwidth]
      have hwrap := wrapCell_readCell hlen
      rw [initDataCell, dataElement_eq hwidth hfit]
      dsimp only
      rw [wrap, hwrap]
      rfl

theorem arrayInitElem_spec {inst elem : Nat} {items : List RefValue} (h : HasArray s id cells)
    (helem : HasElements s inst elem items) (src dst n : BitVec 32) :
    AllOrNothing (arrayInitElem inst elem)
      (.i32 n :: .i32 src :: .i32 dst :: .ref (.array id) :: rest) rest s
      (dst.toNat + n.toNat ≤ cells.length ∧ src.toNat + n.toNat ≤ items.length)
      (setArray id (patch cells dst.toNat (((items.drop src.toNat).take n.toNat).map .ref)) s) := by
  obtain ⟨linked, segment, hlinked, hsegment, rfl⟩ := helem
  refine AllOrNothing.of_else₂ (t := .outOfBoundsArrayAccess) (u := .outOfBoundsTableAccess)
    (p := cells.length < dst.toNat + n.toNat) (q := (segment.getD []).length < src.toNat + n.toNat)
    (f := (List.range n.toNat).forM fun i => do
      setCell id (dst.toNat + i) (.ref (← index (segment.getD []) (src.toNat + i))))
    ?start (by omega) ?body
  case start =>
    rw [arrayInitElem, bind_ok (popI32_cons n), bind_ok (popI32_cons src),
      bind_ok (popI32_cons dst), bind_ok (popArrayRef_cons id),
      bind_ok (gcArrayLen_eq h), checkedAdd_eq (add_toNat_lt _ _)]
    dsimp only
    split
    · rfl
    · rw [bind_ok (indexed_eq hlinked), bind_ok (index_eq hsegment),
        checkedAdd_eq (add_toNat_lt _ _)]
  case body =>
    rintro ⟨hdst, hsrc⟩
    have hlength : ((((segment.getD []).drop src.toNat).take n.toNat).map Value.ref).length = n.toNat := by
      rw [List.length_map, length_range hsrc]
    have hloop := forM_setCell rest h dst.toNat
      (l := (((segment.getD []).drop src.toNat).take n.toNat).map .ref)
      (f := fun i => do setCell id (dst.toNat + i) (.ref (← index (segment.getD []) (src.toNat + i))))
      (by omega) ?_
    · rwa [hlength] at hloop
    · intro i v s' hv
      rw [List.getElem?_map] at hv
      obtain ⟨r, hr, rfl⟩ := Option.map_eq_some_iff.mp hv
      have hlt := (List.getElem?_eq_some_iff.mp hr).1
      rw [length_range hsrc] at hlt
      rw [List.getElem?_take_of_lt hlt, List.getElem?_drop] at hr
      rw [bind_ok (index_eq hr)]

end Arrays

/-! ## All of them -/

/-- For every operands of the types of the instructions, in any of the two widths. -/
structure BulkOperations (s : Store) (inst : Nat) : Prop where
  memoryInit : ∀ {data memory cell : Nat} {wide : Bool} {bytes source : List UInt8} {dst : Nat}
    {v : Value} {rest : List Value}, HasMemory s inst memory cell wide bytes →
    HasData s inst data source → IsAddr wide dst v → ∀ src len : BitVec 32,
      AllOrNothing (memoryInit inst data memory) (.i32 len :: .i32 src :: v :: rest) rest s
        (dst + len.toNat ≤ bytes.length ∧ src.toNat + len.toNat ≤ source.length)
        (setBytes cell (patch bytes dst ((source.drop src.toNat).take len.toNat)) s)
  memoryCopy : ∀ {dstMemory srcMemory dstCell srcCell : Nat} {dstWide srcWide : Bool}
    {dstBytes srcBytes : List UInt8} {dst src len : Nat} {vDst vSrc vLen : Value} {rest : List Value},
    HasMemory s inst dstMemory dstCell dstWide dstBytes →
    HasMemory s inst srcMemory srcCell srcWide srcBytes → IsAddr dstWide dst vDst →
    IsAddr srcWide src vSrc → IsAddr (dstWide && srcWide) len vLen →
      AllOrNothing (memoryCopy inst dstMemory srcMemory) (vLen :: vSrc :: vDst :: rest) rest s
        (dst + len ≤ dstBytes.length ∧ src + len ≤ srcBytes.length)
        (setBytes dstCell (patch dstBytes dst ((srcBytes.drop src).take len)) s)
  memoryFill : ∀ {memory cell : Nat} {wide : Bool} {bytes : List UInt8} {dst len : Nat}
    {vDst vLen : Value} {rest : List Value}, HasMemory s inst memory cell wide bytes →
    IsAddr wide dst vDst → IsAddr wide len vLen → ∀ value : BitVec 32,
      AllOrNothing (memoryFill inst memory) (vLen :: .i32 value :: vDst :: rest) rest s
        (dst + len ≤ bytes.length)
        (setBytes cell (patch bytes dst (List.replicate len (UInt8.ofNat value.toNat))) s)
  tableInit : ∀ {elem table cell : Nat} {wide : Bool} {elements source : List RefValue} {dst : Nat}
    {v : Value} {rest : List Value}, HasTable s inst table cell wide elements →
    HasElements s inst elem source → IsAddr wide dst v → ∀ src len : BitVec 32,
      AllOrNothing (tableInit inst elem table) (.i32 len :: .i32 src :: v :: rest) rest s
        (dst + len.toNat ≤ elements.length ∧ src.toNat + len.toNat ≤ source.length)
        (setElements cell (patch elements dst ((source.drop src.toNat).take len.toNat)) s)
  tableCopy : ∀ {dstTable srcTable dstCell srcCell : Nat} {dstWide srcWide : Bool}
    {dstElements srcElements : List RefValue} {dst src len : Nat} {vDst vSrc vLen : Value}
    {rest : List Value}, HasTable s inst dstTable dstCell dstWide dstElements →
    HasTable s inst srcTable srcCell srcWide srcElements → IsAddr dstWide dst vDst →
    IsAddr srcWide src vSrc → IsAddr (dstWide && srcWide) len vLen →
      AllOrNothing (tableCopy inst dstTable srcTable) (vLen :: vSrc :: vDst :: rest) rest s
        (dst + len ≤ dstElements.length ∧ src + len ≤ srcElements.length)
        (setElements dstCell (patch dstElements dst ((srcElements.drop src).take len)) s)
  tableFill : ∀ {table cell : Nat} {wide : Bool} {elements : List RefValue} {dst len : Nat}
    {vDst vLen : Value} {rest : List Value}, HasTable s inst table cell wide elements →
    IsAddr wide dst vDst → IsAddr wide len vLen → ∀ value : RefValue,
      AllOrNothing (tableFill inst table) (vLen :: .ref value :: vDst :: rest) rest s
        (dst + len ≤ elements.length)
        (setElements cell (patch elements dst (List.replicate len value)) s)
  arrayFill : ∀ {id : Nat} {cells : List Value} {storage : StorageType} {v cell : Value}
    {rest : List Value}, HasArray s id cells → HasStorage s id storage →
    wrapCell storage v = .ok cell → ∀ start n : BitVec 32,
      AllOrNothing arrayFill (.i32 n :: v :: .i32 start :: .ref (.array id) :: rest) rest s
        (start.toNat + n.toNat ≤ cells.length)
        (setArray id (patch cells start.toNat (List.replicate n.toNat cell)) s)
  arrayCopy : ∀ {src dst : Nat} {srcCells dstCells rest : List Value}, HasArray s src srcCells →
    HasArray s dst dstCells → ∀ srcOffset dstOffset n : BitVec 32,
      AllOrNothing arrayCopy
        (.i32 n :: .i32 srcOffset :: .ref (.array src) :: .i32 dstOffset :: .ref (.array dst) :: rest)
        rest s
        (dstOffset.toNat + n.toNat ≤ dstCells.length ∧ srcOffset.toNat + n.toNat ≤ srcCells.length)
        (setArray dst (patch dstCells dstOffset.toNat
          ((srcCells.drop srcOffset.toNat).take n.toNat)) s)
  arrayInitData : ∀ {id data width : Nat} {cells rest : List Value} {bytes : List UInt8}
    {storage : StorageType}, HasArray s id cells → HasStorage s id storage →
    storageWidth storage = some width → HasData s inst data bytes → ∀ src dst n : BitVec 32,
      AllOrNothing (arrayInitData inst data)
        (.i32 n :: .i32 src :: .i32 dst :: .ref (.array id) :: rest) rest s
        (dst.toNat + n.toNat ≤ cells.length ∧ src.toNat + n.toNat * width ≤ bytes.length)
        (setArray id (patch cells dst.toNat ((List.range n.toNat).map fun i =>
          readCell storage ((bytes.drop (src.toNat + i * width)).take width))) s)
  arrayInitElem : ∀ {id elem : Nat} {cells rest : List Value} {items : List RefValue},
    HasArray s id cells → HasElements s inst elem items → ∀ src dst n : BitVec 32,
      AllOrNothing (arrayInitElem inst elem)
        (.i32 n :: .i32 src :: .i32 dst :: .ref (.array id) :: rest) rest s
        (dst.toNat + n.toNat ≤ cells.length ∧ src.toNat + n.toNat ≤ items.length)
        (setArray id (patch cells dst.toNat (((items.drop src.toNat).take n.toNat).map .ref)) s)
  patched : ∀ {α : Type} {l new : List α} {at_ : Nat}, at_ + new.length ≤ l.length → ∀ i : Nat,
    (patch l at_ new)[i]? = if at_ ≤ i ∧ i < at_ + new.length then new[i - at_]? else l[i]?

theorem bulk_allOrNothing {s : Store} (hs : Sized s) (inst : Nat) : BulkOperations s inst := by
  constructor
  case memoryInit => exact fun hmemory hdata hv => memoryInit_spec hs hmemory hdata hv
  case memoryCopy => exact fun hdst hsrc hvDst hvSrc => memoryCopy_spec hs hdst hsrc hvDst hvSrc
  case memoryFill => exact fun hmemory hvDst hvLen => memoryFill_spec hs hmemory hvDst hvLen
  case tableInit => exact fun htable helem hv => tableInit_spec hs htable helem hv
  case tableCopy => exact fun hdst hsrc hvDst hvSrc => tableCopy_spec hs hdst hsrc hvDst hvSrc
  case tableFill => exact fun htable hvDst hvLen => tableFill_spec hs htable hvDst hvLen
  case arrayFill => exact fun h hstorage hcell => arrayFill_spec h hstorage hcell
  case arrayCopy => exact fun hsrc hdst => arrayCopy_spec hsrc hdst
  case arrayInitData => exact fun h hstorage hwidth hdata => arrayInitData_spec h hstorage hwidth hdata
  case arrayInitElem => exact fun h helem => arrayInitElem_spec h helem
  case patched => exact fun h i => getElem?_patch h i

def fourBytes : Store :=
  { Store.empty with
    instances := [{
      module := {}
      funcs := []
      tags := []
      depthLimit := 0
      tables := []
      globals := []
      memories := [0]
      elementSegments := []
      dataSegments := [] }]
    memoryTypes := [⟨⟨0, none, false⟩, false⟩]
    memories := [⟨⟨⟨0, none, false⟩, false⟩, ⟨[1, 2, 3, 4], none, false⟩⟩] }

theorem fourBytes_sized : Sized fourBytes := by
  constructor
  · intro m hm
    rw [List.mem_singleton.mp hm]
    decide
  · intro t ht
    exact absurd ht List.not_mem_nil

theorem fourBytes_memory : HasMemory fourBytes 0 0 0 false [1, 2, 3, 4] :=
  ⟨⟨_, rfl, rfl⟩, ⟨_, rfl, rfl⟩, ⟨_, rfl, rfl⟩⟩

/-- A copy within one memory, to bytes it reads. -/
theorem fourBytes_overlap :
    memoryCopy 0 0 0 ⟨[.i32 3, .i32 0, .i32 1], fourBytes⟩ =
      (.ok (), ⟨[], setBytes 0 [1, 1, 2, 3] fourBytes⟩) :=
  ((bulk_allOrNothing fourBytes_sized 0).memoryCopy fourBytes_memory fourBytes_memory (.i32 1) (.i32 0)
    (.i32 3)).runs (by decide)

end Slag.Wasm.Linking.Bulk
