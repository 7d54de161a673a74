import Slag.Jit.NarrowFacts

/-!
Where the values of a body come from: what can bring a slot something that is
no Number, or no int32. Nothing that narrowing flags is reached by it.
-/

namespace Slag.Jit

/-- A slot of the frame, or a value of the graph. -/
inductive Place
  | slot (slot : Nat)
  | value (v : ValueId)

/-- The places that certain instructions reach, through stores and loads and
the operations that pass on what they take. What no store and no instruction
makes is reached as well. -/
inductive Function.Reached (f : Function) (origin passes : Inst → Prop) : Place → Prop
  | unstored {slot : Nat} (h : ∀ inst ∈ f.insts, ∀ v, inst.storeOf ≠ some (slot, v)) :
      Reached f origin passes (.slot slot)
  | store {inst : Inst} {slot : Nat} {v : ValueId} (hin : inst ∈ f.insts)
      (hs : inst.storeOf = some (slot, v)) (h : Reached f origin passes (.value v)) :
      Reached f origin passes (.slot slot)
  | load {inst : Inst} {slot : Nat} {v : ValueId} (hin : inst ∈ f.insts) (hr : inst.result = some v)
      (hop : inst.op = .frameLoad) (himm : inst.imm = .slot slot)
      (h : Reached f origin passes (.slot slot)) : Reached f origin passes (.value v)
  | param {v : ValueId} (h : ∀ inst ∈ f.insts, inst.result ≠ some v) :
      Reached f origin passes (.value v)
  | origin {inst : Inst} {v : ValueId} (hin : inst ∈ f.insts) (hr : inst.result = some v)
      (h : origin inst) : Reached f origin passes (.value v)
  | operand {inst : Inst} {v a : ValueId} (hin : inst ∈ f.insts) (hr : inst.result = some v)
      (hp : passes inst) (ha : a ∈ inst.args) (h : Reached f origin passes (.value a)) :
      Reached f origin passes (.value v)

namespace Narrow

/-- Nothing tells that the instruction yields a Number. -/
def Foreign (inst : Inst) : Prop :=
  match inst.op with
  | .const => isNumberConst inst.imm = false
  | .guardType => inst.ty.isNumeric = false
  | .frameLoad => ∀ slot, inst.imm ≠ .slot slot
  | op => isIntOp op = false ∧ ((isNumberOp op || isBitOp op) = false ∨ inst.args = [])

/-- What the body leaves in the place need not be a Number. -/
def NotNumber (f : Function) : Place → Prop :=
  f.Reached Foreign fun inst => (isNumberOp inst.op || isBitOp inst.op) = true

/-- Arithmetic takes the value. -/
def Taken (f : Function) (v : ValueId) : Prop :=
  ∃ inst ∈ f.insts, isArith inst.op = true ∧ v ∈ inst.args

/-- Arithmetic takes the value, or a load of a slot it is stored to. -/
def Worked (f : Function) (v : ValueId) : Prop :=
  Taken f v ∨ ∃ store ∈ f.insts, ∃ slot, store.storeOf = some (slot, v) ∧
    ∃ load ∈ f.insts, load.op = .frameLoad ∧ load.imm = .slot slot ∧
      ∃ r, load.result = some r ∧ Taken f r

/-- Nothing tells that the instruction yields an int32, or nothing works on it. -/
def ForeignInt (f : Function) (inst : Inst) : Prop :=
  isIntOp inst.op = false ∧ (∃ v, inst.result = some v ∧ ¬ Worked f v) ∨
  match inst.op with
  | .const => isIntConst inst.imm = false
  | .frameLoad => ∀ slot, inst.imm ≠ .slot slot
  | op => isIntOp op = false ∧ ((isBitOp op && op != .ushr) = false ∨ inst.args = [] ∨
      ∃ a ∈ inst.args, NotNumber f (.value a))

/-- What the body leaves in the place need not be an int32 that is worked on. -/
def NotInt (f : Function) : Place → Prop := f.Reached (ForeignInt f) fun _ => False

section Marks

variable {f : Function} {insts : List Inst} {l arith slotArith : Flags} {v : ValueId} {slot : Nat}

theorem flag_mark {i j : Nat} (h : flag (mark l i) j = true) : j = i ∨ flag l j = true := by
  rw [mark, flag_set] at h
  split at h
  · rename_i hj
    exact .inl hj.1
  · exact .inr h

theorem foldl_mark {vs : List ValueId} (h : flag (vs.foldl mark l) v = true) :
    v ∈ vs ∨ flag l v = true := by
  induction vs generalizing l with
  | nil => exact .inr h
  | cons u vs ih =>
      rcases ih h with hmem | hflag
      · exact .inl (List.mem_cons_of_mem _ hmem)
      · refine (flag_mark hflag).imp_left fun heq => ?_
        rw [heq]
        exact List.mem_cons_self

theorem foldl_markOperands (h : flag (insts.foldl markOperands l) v = true) :
    (∃ inst ∈ insts, isArith inst.op = true ∧ v ∈ inst.args) ∨ flag l v = true := by
  induction insts generalizing l with
  | nil => exact .inr h
  | cons inst insts ih =>
      rcases ih h with ⟨other, hin, hother⟩ | hflag
      · exact .inl ⟨other, List.mem_cons_of_mem _ hin, hother⟩
      · unfold markOperands at hflag
        split at hflag
        · rename_i hop
          exact (foldl_mark hflag).imp_left fun hmem => ⟨inst, List.mem_cons_self, hop, hmem⟩
        · exact .inr hflag

theorem foldl_markLoad (h : flag (insts.foldl (markLoad arith) l) slot = true) :
    (∃ inst ∈ insts, inst.op = .frameLoad ∧ inst.imm = .slot slot ∧
      ∃ r, inst.result = some r ∧ flag arith r = true) ∨ flag l slot = true := by
  induction insts generalizing l with
  | nil => exact .inr h
  | cons inst insts ih =>
      rcases ih h with ⟨other, hin, hother⟩ | hflag
      · exact .inl ⟨other, List.mem_cons_of_mem _ hin, hother⟩
      · unfold markLoad at hflag
        split at hflag
        · rename_i slot' r hop himm hr
          split at hflag
          · rename_i harith
            refine (flag_mark hflag).imp_left fun heq => ?_
            exact ⟨inst, List.mem_cons_self, hop, heq ▸ himm, r, hr, harith⟩
          · exact .inr hflag
        · exact .inr hflag

theorem foldl_markStore (h : flag (insts.foldl (markStore slotArith) l) v = true) :
    (∃ inst ∈ insts, ∃ slot, inst.storeOf = some (slot, v) ∧ flag slotArith slot = true) ∨
      flag l v = true := by
  induction insts generalizing l with
  | nil => exact .inr h
  | cons inst insts ih =>
      rcases ih h with ⟨other, hin, hother⟩ | hflag
      · exact .inl ⟨other, List.mem_cons_of_mem _ hin, hother⟩
      · unfold markStore at hflag
        split at hflag
        · rename_i slot u hstore
          split at hflag
          · rename_i hslot
            refine (flag_mark hflag).imp_left fun heq => ?_
            exact ⟨inst, List.mem_cons_self, slot, heq ▸ hstore, hslot⟩
          · exact .inr hflag
        · exact .inr hflag

theorem worked_of_flag {values slots : Nat} (h : flag (arithUses f values slots) v = true) :
    Worked f v := by
  have htaken : ∀ {r : ValueId},
      flag (f.insts.foldl markOperands (List.replicate values false)) r = true → Taken f r := by
    intro r hr
    refine (foldl_markOperands hr).resolve_right fun hnone => ?_
    rw [flag_replicate_false] at hnone
    cases hnone
  rcases foldl_markStore h with ⟨store, hin, slot, hstore, hslot⟩ | hflag
  · rcases foldl_markLoad hslot with ⟨load, hload, hop, himm, r, hr, hflag⟩ | hnone
    · exact .inr ⟨store, hin, slot, hstore, load, hload, hop, himm, r, hr, htaken hflag⟩
    · rw [flag_replicate_false] at hnone
      cases hnone
  · exact .inl (htaken hflag)

end Marks

section Reached

variable {f : Function} {φ : Facts} {origin passes : Inst → Prop} {values slots : Flags}
variable {p : Place}

def flagged (values slots : Flags) : Place → Bool
  | .slot slot => flag slots slot
  | .value v => flag values v

/-- Flags that rest on each other are not reached by what they do not rest on. -/
theorem not_flagged
    (hslots : ∀ slot, flag slots slot = true →
      (∃ inst ∈ f.insts, ∃ v, inst.storeOf = some (slot, v)) ∧
        ∀ inst ∈ f.insts, ∀ v, inst.storeOf = some (slot, v) → flag values v = true)
    (hdefs : ∀ v, flag values v = true → ∃ inst ∈ f.insts, inst.result = some v)
    (hinsts : ∀ inst ∈ f.insts, ∀ v, inst.result = some v → flag values v = true →
      (∀ slot, inst.op = .frameLoad → inst.imm = .slot slot → flag slots slot = true) ∧
        ¬ origin inst ∧ (passes inst → ∀ a ∈ inst.args, flag values a = true))
    (h : f.Reached origin passes p) : flagged values slots p = false := by
  refine Bool.eq_false_iff.mpr fun hflag => ?_
  induction h with
  | unstored hnone =>
      obtain ⟨inst, hin, v, hs⟩ := (hslots _ hflag).1
      exact hnone inst hin v hs
  | store hin hs _ ih => exact ih ((hslots _ hflag).2 _ hin _ hs)
  | load hin hr hop himm _ ih => exact ih ((hinsts _ hin _ hr hflag).1 _ hop himm)
  | param hnone =>
      obtain ⟨inst, hin, hr⟩ := hdefs _ hflag
      exact hnone inst hin hr
  | origin hin hr horigin => exact (hinsts _ hin _ hr hflag).2.1 horigin
  | operand hin hr hp ha _ ih => exact ih ((hinsts _ hin _ hr hflag).2.2 hp _ ha)

theorem slotFlag_spec {imm : Imm} (h : slotFlag slots imm = true) :
    ∃ slot, imm = .slot slot ∧ flag slots slot = true := by
  cases imm with
  | slot slot => exact ⟨slot, rfl, h⟩
  | _ => cases h

theorem allFlagged_spec {inst : Inst} (h : allFlagged values inst = true) :
    inst.args ≠ [] ∧ ∀ a ∈ inst.args, flag values a = true := by
  obtain ⟨hne, hall⟩ := Bool.and_eq_true_iff.mp h
  refine ⟨fun hnil => ?_, List.all_eq_true.mp hall⟩
  rw [hnil] at hne
  cases hne

theorem NotNumber.not_flagged (hφ : Justified f φ) (h : NotNumber f p) :
    flagged φ.values φ.slotNumeric p = false := by
  refine Narrow.not_flagged hφ.slotNumeric hφ.valueDefs (fun inst hin v hr hflag => ?_) h
  have hnum := hφ.values inst hin v hr hflag
  refine ⟨fun slot hop himm => ?_, fun hforeign => ?_, fun hop a ha => ?_⟩
  · unfold isNumericInst at hnum
    rw [hop, himm] at hnum
    exact hnum
  · unfold Foreign at hforeign
    unfold isNumericInst at hnum
    split at hforeign
    · rename_i hop
      rw [hop] at hnum
      exact absurd (hforeign.symm.trans hnum) Bool.false_ne_true
    · rename_i hop
      rw [hop] at hnum
      exact absurd (hforeign.symm.trans hnum) Bool.false_ne_true
    · rename_i hop
      rw [hop] at hnum
      obtain ⟨slot, himm, -⟩ := slotFlag_spec hnum
      exact hforeign slot himm
    · obtain ⟨hint, hform⟩ := hforeign
      split at hnum
      · contradiction
      · contradiction
      · contradiction
      · rw [hint, Bool.or_false] at hnum
        obtain ⟨hop, hall⟩ := Bool.and_eq_true_iff.mp hnum
        rcases hform with hnone | hnil
        · exact absurd (hnone.symm.trans hop) Bool.false_ne_true
        · exact (allFlagged_spec hall).1 hnil
  · unfold isNumericInst at hnum
    split at hnum
    · rename_i hconst
      rw [hconst] at hop
      cases hop
    · rename_i hguard
      rw [hguard] at hop
      cases hop
    · rename_i hload
      rw [hload] at hop
      cases hop
    · have hint : isIntOp inst.op = false := by
        cases hcase : inst.op <;> rw [hcase] at hop <;> first | rfl | cases hop
      rw [hint, Bool.or_false] at hnum
      exact (allFlagged_spec (Bool.and_eq_true_iff.mp hnum).2).2 a ha

theorem NotInt.not_flagged (hφ : Justified f φ) (h : NotInt f p) :
    flagged φ.ints φ.slotInt p = false := by
  refine Narrow.not_flagged hφ.slotInt hφ.intDefs (fun inst hin v hr hflag => ?_) h
  have hint := hφ.ints inst hin v hr hflag
  refine ⟨fun slot hop himm => ?_, fun hforeign => ?_, False.elim⟩
  · unfold isIntInst at hint
    rw [hop, himm] at hint
    exact hint
  · rcases hforeign with ⟨hop, u, hu, hidle⟩ | hforeign
    · obtain rfl := Option.some.inj (hr.symm.trans hu)
      rcases hφ.used inst hin v hr hflag with hused | hint
      · exact hidle (worked_of_flag hused)
      · exact absurd (hop.symm.trans hint) Bool.false_ne_true
    · unfold isIntInst at hint
      split at hforeign
      · rename_i hop
        rw [hop] at hint
        exact absurd (hforeign.symm.trans hint) Bool.false_ne_true
      · rename_i hop
        rw [hop] at hint
        obtain ⟨slot, himm, -⟩ := slotFlag_spec hint
        exact hforeign slot himm
      · obtain ⟨hnone, hform⟩ := hforeign
        split at hint
        · contradiction
        · contradiction
        · rw [hnone, Bool.or_false] at hint
          obtain ⟨hop, hall⟩ := Bool.and_eq_true_iff.mp hint
          obtain ⟨hne, hargs⟩ := allFlagged_spec hall
          rcases hform with hbit | hnil | ⟨a, ha, hother⟩
          · exact absurd (hbit.symm.trans hop) Bool.false_ne_true
          · exact hne hnil
          · exact absurd ((hother.not_flagged hφ).symm.trans (hargs a ha)) Bool.false_ne_true

end Reached

end Narrow

end Slag.Jit
