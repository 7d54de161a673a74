import Slag.Jit.Narrow
import Slag.Jit.Values
import Slag.Lib.Returns

/-!
The facts narrowing finds: the search for them ends, and each fact rests on
facts of the operands, or of all that is stored to a slot.
-/

namespace Slag.Jit

open FlowGraph

variable {inst : Inst} {f : Function}

theorem Function.mem_insts :
    inst ∈ f.insts ↔ ∃ (b : BlockId) (i : Nat), (f.block b).insts[i]? = some inst := by
  constructor
  · intro h
    obtain ⟨block, hblock, hinst⟩ := List.mem_flatMap.mp h
    obtain ⟨b, -, rfl⟩ := Function.block_of_mem hblock
    exact ⟨b, List.mem_iff_getElem?.mp hinst⟩
  · rintro ⟨b, i, hi⟩
    exact List.mem_flatMap.mpr ⟨_, Function.block_mem (Function.lt_of_inst hi),
      List.mem_of_getElem? hi⟩

theorem Function.Loose.results_nodup (hf : f.Loose) :
    (f.insts.filterMap Inst.result).Nodup := by
  have hsub : (f.insts.filterMap Inst.result).Sublist (f.sites.map Site.value) := by
    rw [Function.sites_values, Function.insts, List.filterMap_flatMap]
    exact Function.sublist_flatMap fun block => List.sublist_append_right _ _
  exact hsub.nodup hf.single

theorem Function.Loose.result_lt (hf : f.Loose) (h : inst ∈ f.insts) {r : ValueId}
    (hr : inst.result = some r) : r < f.valueCount := by
  obtain ⟨b, i, hi⟩ := Function.mem_insts.mp h
  have hknown := hf.known _ (site_of_result (Function.lt_of_inst hi) hi hr)
  exact hknown

namespace Narrow

section Flags

variable {a b c l : Flags} {i j n : Nat} {x : Bool}

theorem flag_set : flag (l.set i x) j = if j = i ∧ i < l.length then x else flag l j := by
  unfold flag
  by_cases hi : i < l.length
  · rw [getD_set hi]
    by_cases hj : j = i
    · rw [if_pos hj, if_pos ⟨hj, hi⟩]
    · rw [if_neg hj, if_neg fun h => hj h.1]
  · rw [List.set_eq_of_length_le (Nat.not_lt.mp hi), if_neg fun h => hi h.2]

theorem flag_replicate_false : flag (List.replicate n false) i = false := by
  unfold flag
  rw [List.getElem?_replicate]
  split <;> rfl

theorem flag_replicate_true : flag (List.replicate n true) i = decide (i < n) := by
  unfold flag
  rw [List.getElem?_replicate]
  split
  · rename_i h
    exact (decide_eq_true h).symm
  · rename_i h
    exact (decide_eq_false h).symm

theorem lt_of_flag (h : flag l i = true) : i < l.length := FlowGraph.lt_of_getD h

/-- Every flag of the first is one of the second. -/
structure Below (a b : Flags) : Prop where
  length : a.length = b.length
  flags : ∀ i, flag a i = true → flag b i = true

theorem Below.refl (a : Flags) : Below a a := ⟨rfl, fun _ => id⟩

theorem Below.set (h : Below a b) {y : Bool} (hxy : x = true → y = true) :
    Below (a.set i x) (b.set i y) := by
  refine ⟨by rw [List.length_set, List.length_set, h.length], fun j => ?_⟩
  rw [flag_set, flag_set, h.length]
  split
  · exact hxy
  · exact h.flags j

/-- Flags below others are the same or fewer. -/
theorem Below.count (h : Below a b) :
    a.count true ≤ b.count true ∧ (a ≠ b → a.count true < b.count true) :=
  FlowGraph.count_true_le h.length h.flags

theorem Below.all {values values' : Flags} (h : Below values values')
    (hall : allFlagged values inst = true) : allFlagged values' inst = true := by
  obtain ⟨hne, hargs⟩ := Bool.and_eq_true_iff.mp hall
  refine Bool.and_eq_true_iff.mpr ⟨hne, List.all_eq_true.mpr fun v hv => ?_⟩
  exact h.flags v (List.all_eq_true.mp hargs v hv)

theorem Below.slot {slots slots' : Flags} (h : Below slots slots') {imm : Imm}
    (hs : slotFlag slots imm = true) : slotFlag slots' imm = true := by
  cases imm with
  | slot slot => exact h.flags slot hs
  | _ => cases hs

theorem numeric_mono {slots slots' values values' : Flags} (hs : Below slots slots')
    (hv : Below values values') (h : isNumericInst slots inst values = true) :
    isNumericInst slots' inst values' = true := by
  revert h
  unfold isNumericInst
  split
  · exact id
  · exact id
  · exact hs.slot
  · simp only [Bool.or_eq_true, Bool.and_eq_true]
    exact Or.imp_left fun h => ⟨h.1, hv.all h.2⟩

theorem int_mono {values values' slots slots' : Flags} (hv : Below values values')
    (hs : Below slots slots') (h : isIntInst values slots inst = true) :
    isIntInst values' slots' inst = true := by
  revert h
  unfold isIntInst
  split
  · exact id
  · exact hs.slot
  · simp only [Bool.or_eq_true, Bool.and_eq_true]
    exact Or.imp_left fun h => ⟨h.1, hv.all h.2⟩

end Flags

section ValueFlags

variable {p q : Inst → Flags → Bool} {f : Function} {l l' : Flags} {insts : List Inst}

def stepFlag (p : Inst → Flags → Bool) (l : Flags) (inst : Inst) : Flags :=
  match inst.result with
  | some r => l.set r (p inst l)
  | none => l

theorem length_stepFlag (inst : Inst) : (stepFlag p l inst).length = l.length := by
  unfold stepFlag
  split
  · exact List.length_set
  · rfl

theorem foldlM_setFlag (h : ∀ inst ∈ insts, ∀ r, inst.result = some r → r < l.length) :
    insts.foldlM (setFlag p) l = .ok (insts.foldl (stepFlag p) l) := by
  induction insts generalizing l with
  | nil => rfl
  | cons inst insts ih =>
      obtain ⟨hinst, hinsts⟩ := List.forall_mem_cons.mp h
      have hone : setFlag p l inst = .ok (stepFlag p l inst) := by
        unfold setFlag stepFlag
        cases hr : inst.result with
        | none => rfl
        | some r => exact if_pos (hinst r hr)
      rw [List.foldlM_cons, hone, ok_bind, List.foldl_cons]
      refine ih ?_
      rw [length_stepFlag]
      exact hinsts

/-- Flags that rest on each other. -/
structure Supported (p : Inst → Flags → Bool) (insts : List Inst) (l l' : Flags) : Prop where
  length : l'.length = l.length
  grows : ∀ v, flag l v = true → flag l' v = true
  other : ∀ v, v ∉ insts.filterMap Inst.result → flag l' v = flag l v
  holds : ∀ inst ∈ insts, ∀ r, inst.result = some r → flag l' r = true → p inst l' = true

theorem foldl_stepFlag (hp : ∀ inst a b, Below a b → p inst a = true → p inst b = true)
    (hnd : (insts.filterMap Inst.result).Nodup)
    (hclear : ∀ v ∈ insts.filterMap Inst.result, flag l v = false) :
    Supported p insts l (insts.foldl (stepFlag p) l) := by
  induction insts generalizing l with
  | nil => exact ⟨rfl, fun _ => id, fun _ _ => rfl, fun _ h => absurd h List.not_mem_nil⟩
  | cons inst insts ih =>
      rw [List.foldl_cons]
      cases hr : inst.result with
      | none =>
          rw [List.filterMap_cons_none hr] at hnd hclear
          have hsame : stepFlag p l inst = l := by
            unfold stepFlag
            rw [hr]
          rw [hsame]
          obtain ⟨hlen, hgrows, hother, hholds⟩ := ih hnd hclear
          refine ⟨hlen, hgrows, ?_, List.forall_mem_cons.mpr ⟨?_, hholds⟩⟩
          · rw [List.filterMap_cons_none hr]
            exact hother
          · intro r hr'
            rw [hr] at hr'
            cases hr'
      | some r =>
          rw [List.filterMap_cons_some hr] at hnd hclear
          obtain ⟨hnot, hnd⟩ := List.nodup_cons.mp hnd
          obtain ⟨hr₀, hclear⟩ := List.forall_mem_cons.mp hclear
          have hsame : stepFlag p l inst = l.set r (p inst l) := by
            unfold stepFlag
            rw [hr]
          rw [hsame]
          have hclear' : ∀ v ∈ insts.filterMap Inst.result, flag (l.set r (p inst l)) v = false := by
            intro v hv
            rw [flag_set, if_neg]
            · exact hclear v hv
            · rintro ⟨rfl, -⟩
              exact hnot hv
          obtain ⟨hlen, hgrows, hother, hholds⟩ := ih hnd hclear'
          have hup : ∀ v, flag l v = true →
              flag (insts.foldl (stepFlag p) (l.set r (p inst l))) v = true := by
            intro v hv
            refine hgrows v ?_
            rw [flag_set, if_neg]
            · exact hv
            · rintro ⟨rfl, -⟩
              rw [hr₀] at hv
              cases hv
          have hlen' := hlen.trans List.length_set
          refine ⟨hlen', hup, fun v hv => ?_, List.forall_mem_cons.mpr ⟨?_, hholds⟩⟩
          · rw [List.filterMap_cons_some hr, List.mem_cons, not_or] at hv
            rw [hother v hv.2, flag_set, if_neg fun h => hv.1 h.1]
          · intro r' hr' hflag
            rw [hr] at hr'
            cases hr'
            rw [hother r hnot, flag_set] at hflag
            split at hflag
            · exact hp inst l _ ⟨hlen'.symm, hup⟩ hflag
            · rw [hr₀] at hflag
              cases hflag

theorem foldl_stepFlag_mono (hpq : ∀ inst a b, Below a b → p inst a = true → q inst b = true)
    (h : Below l l') : Below (insts.foldl (stepFlag p) l) (insts.foldl (stepFlag q) l') := by
  induction insts generalizing l l' with
  | nil => exact h
  | cons inst insts ih =>
      refine ih ?_
      unfold stepFlag
      split
      · exact h.set (hpq inst l l' h)
      · exact h

/-- The flags of the values, without the checks of the tables. -/
def flagsOf (p : Inst → Flags → Bool) (f : Function) : Flags :=
  f.insts.foldl (stepFlag p) (List.replicate f.valueCount false)

theorem valueFlags_eq (hf : f.Loose) : valueFlags p f = .ok (flagsOf p f) := by
  refine foldlM_setFlag fun inst hinst r hr => ?_
  rw [List.length_replicate]
  exact hf.result_lt hinst hr

theorem flagsOf_supported (hf : f.Loose)
    (hp : ∀ inst a b, Below a b → p inst a = true → p inst b = true) :
    Supported p f.insts (List.replicate f.valueCount false) (flagsOf p f) :=
  foldl_stepFlag hp hf.results_nodup fun _ _ => flag_replicate_false

theorem flagsOf_mono (hpq : ∀ inst a b, Below a b → p inst a = true → q inst b = true) :
    Below (flagsOf p f) (flagsOf q f) := foldl_stepFlag_mono hpq (.refl _)

end ValueFlags

section Slots

variable {f : Function} {values values' : Flags} {slots : Nat}

theorem foldl_noteStore (values : Flags) (insts : List Inst) {s : Flags × Flags} (hlen : s.1.length = slots)
    (hlen' : s.2.length = slots) {slot : Nat} (hslot : slot < slots) :
    (flag (insts.foldl (noteStore values) s).1 slot = true ↔
      flag s.1 slot = true ∨ ∃ inst ∈ insts, ∃ v, inst.storeOf = some (slot, v)) ∧
    (flag (insts.foldl (noteStore values) s).2 slot = true ↔
      flag s.2 slot = true ∧ ∀ inst ∈ insts, ∀ v, inst.storeOf = some (slot, v) →
        flag values v = true) := by
  induction insts generalizing s with
  | nil => simp
  | cons inst insts ih =>
      rw [List.foldl_cons]
      cases hstore : inst.storeOf with
      | none =>
          have hsame : noteStore values s inst = s := by
            unfold noteStore
            rw [hstore]
          rw [hsame]
          obtain ⟨hstored, hall⟩ := ih hlen hlen'
          simp only [hstored, hall, List.mem_cons, exists_eq_or_imp, forall_eq_or_imp, hstore,
            reduceCtorEq, exists_false, false_or, false_imp_iff, implies_true, true_and, and_self]
      | some e =>
          obtain ⟨slot', v⟩ := e
          have hsame : noteStore values s inst =
              (s.1.set slot' true, s.2.set slot' (flag s.2 slot' && flag values v)) := by
            unfold noteStore
            rw [hstore]
          rw [hsame]
          obtain ⟨hstored, hall⟩ := ih (s := (s.1.set slot' true,
            s.2.set slot' (flag s.2 slot' && flag values v))) (by rw [List.length_set]; exact hlen)
              (by rw [List.length_set]; exact hlen')
          rw [hstored, hall, flag_set, flag_set, hlen, hlen']
          simp only [List.mem_cons, exists_eq_or_imp, forall_eq_or_imp, hstore, Option.some.injEq,
            Prod.mk.injEq]
          by_cases heq : slot = slot'
          · subst heq
            simp only [hslot, and_self, if_true, true_or, true_and, exists_eq', forall_eq',
              Bool.and_eq_true, and_assoc]
            exact ⟨⟨fun _ => .inr trivial, fun _ => trivial⟩, trivial⟩
          · have hne : ¬ (slot = slot' ∧ slot' < slots) := fun h => heq h.1
            have hne' : ∀ w, ¬ (slot' = slot ∧ v = w) := fun w h => heq h.1.symm
            simp only [if_neg hne, hne', exists_false, false_or, false_imp_iff, implies_true,
              true_and]

theorem slotFlags_iff {slot : Nat} : flag (slotFlags f values slots) slot = true ↔
    slot < slots ∧ (∃ inst ∈ f.insts, ∃ v, inst.storeOf = some (slot, v)) ∧
      ∀ inst ∈ f.insts, ∀ v, inst.storeOf = some (slot, v) → flag values v = true := by
  by_cases hslot : slot < slots
  · obtain ⟨hstored, hall⟩ := foldl_noteStore values f.insts
      (s := (List.replicate slots false, List.replicate slots true)) List.length_replicate
      List.length_replicate hslot
    rw [flag_replicate_false] at hstored
    rw [flag_replicate_true, decide_eq_true hslot] at hall
    have hget : flag (slotFlags f values slots) slot =
        (flag (f.insts.foldl (noteStore values)
          (List.replicate slots false, List.replicate slots true)).1 slot &&
        flag (f.insts.foldl (noteStore values)
          (List.replicate slots false, List.replicate slots true)).2 slot) := by
      rw [slotFlags, flag, List.getElem?_map, List.getElem?_range hslot]
      rfl
    rw [hget, Bool.and_eq_true, hstored, hall]
    simp only [Bool.false_eq_true, false_or, true_and, hslot]
  · have hnone : flag (slotFlags f values slots) slot = false := by
      rw [slotFlags, flag, List.getElem?_eq_none]
      · rfl
      · rw [List.length_map, List.length_range]
        exact Nat.not_lt.mp hslot
    rw [hnone]
    exact ⟨nofun, fun h => absurd h.1 hslot⟩

theorem length_slotFlags : (slotFlags f values slots).length = slots := by
  rw [slotFlags, List.length_map, List.length_range]

theorem slotFlags_mono (h : Below values values') :
    Below (slotFlags f values slots) (slotFlags f values' slots) := by
  refine ⟨length_slotFlags.trans length_slotFlags.symm, fun slot hs => ?_⟩
  obtain ⟨hslot, hstored, hall⟩ := slotFlags_iff.mp hs
  exact slotFlags_iff.mpr ⟨hslot, hstored, fun inst hi v hv => h.flags v (hall inst hi v hv)⟩

end Slots

section Restricting

variable {f : Function} {ints ints' : Flags} {slots : Nat}

/-- The flag of a value is withdrawn. -/
def Withdrawn (arith : Flags) (insts : List Inst) (v : ValueId) : Prop :=
  ∃ inst ∈ insts, inst.result = some v ∧ flag arith v = false ∧ isIntOp inst.op = false

theorem foldl_withdraw (arith : Flags) (insts : List Inst) (ints : Flags) :
    (insts.foldl (withdraw arith) ints).length = ints.length ∧
    ∀ v, flag (insts.foldl (withdraw arith) ints) v = true ↔
      flag ints v = true ∧ ¬ Withdrawn arith insts v := by
  induction insts generalizing ints with
  | nil =>
      refine ⟨rfl, fun v => ?_⟩
      have hnone : ¬ Withdrawn arith [] v := fun ⟨_, h, _⟩ => absurd h List.not_mem_nil
      exact ⟨fun h => ⟨h, hnone⟩, And.left⟩
  | cons inst insts ih =>
      rw [List.foldl_cons]
      obtain ⟨hlen, hmem⟩ := ih (withdraw arith ints inst)
      have hone : (withdraw arith ints inst).length = ints.length ∧
          ∀ v, flag (withdraw arith ints inst) v = true ↔ flag ints v = true ∧
            ¬ (inst.result = some v ∧ flag arith v = false ∧ isIntOp inst.op = false) := by
        unfold withdraw
        cases hr : inst.result with
        | none => exact ⟨rfl, fun v => ⟨fun h => ⟨h, nofun⟩, And.left⟩⟩
        | some r =>
            dsimp only
            split
            · rename_i hcond
              simp only [Bool.and_eq_true, Bool.not_eq_true'] at hcond
              refine ⟨List.length_set, fun v => ?_⟩
              rw [flag_set]
              by_cases hv : v = r
              · subst hv
                rw [if_pos ⟨rfl, lt_of_flag hcond.1.1⟩]
                exact ⟨nofun, fun h => absurd ⟨rfl, hcond.1.2, hcond.2⟩ h.2⟩
              · rw [if_neg fun h => hv h.1]
                exact ⟨fun h => ⟨h, fun h' => hv (Option.some.inj h'.1).symm⟩, And.left⟩
            · rename_i hcond
              refine ⟨rfl, fun v => ⟨fun h => ⟨h, ?_⟩, And.left⟩⟩
              rintro ⟨hv, harith, hop⟩
              cases hv
              rw [h, harith, hop] at hcond
              exact hcond rfl
      refine ⟨hlen.trans hone.1, fun v => ?_⟩
      rw [hmem, hone.2, and_assoc]
      refine and_congr_right fun _ => ?_
      rw [← not_or]
      refine not_congr ?_
      simp only [Withdrawn, List.mem_cons, exists_eq_or_imp]

theorem restrict_iff {v : ValueId} : flag (restrictIntToArithUse f ints slots) v = true ↔
    flag ints v = true ∧ ¬ Withdrawn (arithUses f ints.length slots) f.insts v :=
  (foldl_withdraw _ _ _).2 v

theorem restrict_mono (h : Below ints ints') :
    Below (restrictIntToArithUse f ints slots) (restrictIntToArithUse f ints' slots) := by
  refine ⟨?_, fun v hv => ?_⟩
  · exact (foldl_withdraw _ _ _).1.trans (h.length.trans (foldl_withdraw _ _ _).1.symm)
  · obtain ⟨hv, hkept⟩ := restrict_iff.mp hv
    refine restrict_iff.mpr ⟨h.flags v hv, ?_⟩
    rw [← h.length]
    exact hkept

end Restricting

section Search

variable {f : Function} {slotNumeric slotInt slotNumeric' slotInt' : Flags} {φ : Facts}

def valuesOf (f : Function) (slotNumeric : Flags) : Flags := flagsOf (isNumericInst slotNumeric) f

def intsOf (f : Function) (slotNumeric slotInt : Flags) : Flags :=
  restrictIntToArithUse f
    (flagsOf (fun inst _ => isIntInst (valuesOf f slotNumeric) slotInt inst) f) (slotCount f)

def factsOf (f : Function) (slotNumeric slotInt : Flags) : Facts :=
  ⟨valuesOf f slotNumeric, intsOf f slotNumeric slotInt, slotNumeric, slotInt⟩

theorem sweep_eq (hf : f.Loose) : sweep f slotNumeric slotInt =
    .ok (factsOf f slotNumeric slotInt, slotFlags f (valuesOf f slotNumeric) (slotCount f),
      slotFlags f (intsOf f slotNumeric slotInt) (slotCount f)) := by
  rw [sweep, valueNumerics, valueFlags_eq hf, ok_bind, valueInts, valueFlags_eq hf, ok_bind]
  rfl

theorem valuesOf_mono (h : Below slotNumeric slotNumeric') :
    Below (valuesOf f slotNumeric) (valuesOf f slotNumeric') :=
  flagsOf_mono fun _ _ _ hv => numeric_mono h hv

theorem intsOf_mono (h : Below slotNumeric slotNumeric') (h' : Below slotInt slotInt') :
    Below (intsOf f slotNumeric slotInt) (intsOf f slotNumeric' slotInt') :=
  restrict_mono (flagsOf_mono fun _ _ _ _ => int_mono (valuesOf_mono h) h')

/-- No store speaks against the flags of the slots. -/
structure Fixed (f : Function) (φ : Facts) : Prop where
  facts : φ = factsOf f φ.slotNumeric φ.slotInt
  numeric : slotFlags f φ.values (slotCount f) = φ.slotNumeric
  int : slotFlags f φ.ints (slotCount f) = φ.slotInt

theorem facts_spec (hf : f.Loose) : ∃ φ, facts f = .ok φ ∧ Fixed f φ := by
  have hsettle : ∀ fuel slotNumeric slotInt,
      Below (slotFlags f (valuesOf f slotNumeric) (slotCount f)) slotNumeric →
      Below (slotFlags f (intsOf f slotNumeric slotInt) (slotCount f)) slotInt →
      slotNumeric.count true + slotInt.count true < fuel →
      ∃ φ, settle f fuel slotNumeric slotInt = .ok φ ∧ Fixed f φ := by
    intro fuel
    induction fuel with
    | zero => exact fun _ _ _ _ hlt => absurd hlt (Nat.not_lt_zero _)
    | succ fuel ih =>
        intro slotNumeric slotInt hnumeric hint hlt
        rw [settle, sweep_eq hf, ok_bind]
        dsimp only
        split
        · rename_i hfixed
          exact ⟨_, rfl, rfl, hfixed.1, hfixed.2⟩
        · rename_i hchanged
          refine ih _ _ (slotFlags_mono (valuesOf_mono hnumeric))
            (slotFlags_mono (intsOf_mono hnumeric hint)) ?_
          have hle := hnumeric.count
          have hle' := hint.count
          rcases not_and_or.mp hchanged with hne | hne
          · have hless := hle.2 hne
            omega
          · have hless := hle'.2 hne
            omega
  have htop : ∀ values, Below (slotFlags f values (slotCount f))
      (List.replicate (slotCount f) true) := by
    intro values
    refine ⟨length_slotFlags.trans List.length_replicate.symm, fun slot hs => ?_⟩
    rw [flag_replicate_true]
    exact decide_eq_true (slotFlags_iff.mp hs).1
  refine hsettle _ _ _ (htop _) (htop _) ?_
  rw [List.count_replicate_self]
  omega

/-- Each fact rests on others. -/
structure Justified (f : Function) (φ : Facts) : Prop where
  values : ∀ inst ∈ f.insts, ∀ r, inst.result = some r → flag φ.values r = true →
    isNumericInst φ.slotNumeric inst φ.values = true
  ints : ∀ inst ∈ f.insts, ∀ r, inst.result = some r → flag φ.ints r = true →
    isIntInst φ.values φ.slotInt inst = true
  used : ∀ inst ∈ f.insts, ∀ r, inst.result = some r → flag φ.ints r = true →
    flag (arithUses f f.valueCount (slotCount f)) r = true ∨ isIntOp inst.op = true
  valueDefs : ∀ v, flag φ.values v = true → ∃ inst ∈ f.insts, inst.result = some v
  intDefs : ∀ v, flag φ.ints v = true → ∃ inst ∈ f.insts, inst.result = some v
  slotNumeric : ∀ slot, flag φ.slotNumeric slot = true →
    (∃ inst ∈ f.insts, ∃ v, inst.storeOf = some (slot, v)) ∧
      ∀ inst ∈ f.insts, ∀ v, inst.storeOf = some (slot, v) → flag φ.values v = true
  slotInt : ∀ slot, flag φ.slotInt slot = true →
    (∃ inst ∈ f.insts, ∃ v, inst.storeOf = some (slot, v)) ∧
      ∀ inst ∈ f.insts, ∀ v, inst.storeOf = some (slot, v) → flag φ.ints v = true

theorem Fixed.justified (hf : f.Loose) (h : Fixed f φ) : Justified f φ := by
  obtain ⟨values, ints, slotNumeric, slotInt⟩ := φ
  obtain ⟨hfacts, hnumeric, hint⟩ := h
  dsimp only at hfacts hnumeric hint
  obtain ⟨rfl, rfl, -, -⟩ := Facts.mk.inj hfacts
  have hvalues := flagsOf_supported (p := isNumericInst slotNumeric) hf
    fun _ _ _ hv => numeric_mono (.refl _) hv
  have hints := flagsOf_supported
    (p := fun inst _ => isIntInst (valuesOf f slotNumeric) slotInt inst) hf fun _ _ _ _ => id
  have hdefs : ∀ {p : Inst → Flags → Bool} {v : ValueId},
      Supported p f.insts (List.replicate f.valueCount false) (flagsOf p f) →
      flag (flagsOf p f) v = true → ∃ inst ∈ f.insts, inst.result = some v := by
    intro p v hs hv
    by_contra hnone
    rw [hs.other v fun hmem => hnone (List.mem_filterMap.mp hmem), flag_replicate_false] at hv
    cases hv
  refine ⟨hvalues.holds, fun inst hi r hr hflag => ?_, fun inst hi r hr hflag => ?_,
    fun v hv => hdefs hvalues hv, fun v hv => hdefs hints (restrict_iff.mp hv).1,
    fun slot hs => ?_, fun slot hs => ?_⟩
  · exact hints.holds inst hi r hr (restrict_iff.mp hflag).1
  · have hkept := (restrict_iff.mp hflag).2
    rw [hints.length, List.length_replicate] at hkept
    by_contra hnot
    rw [not_or, Bool.not_eq_true, Bool.not_eq_true] at hnot
    exact hkept ⟨inst, hi, hr, hnot⟩
  · exact (slotFlags_iff.mp (hnumeric.symm ▸ hs)).2
  · exact (slotFlags_iff.mp (hint.symm ▸ hs)).2

end Search

end Narrow

end Slag.Jit
