import Slag.Jit.Evaluates
import Slag.Jit.Fold
import Slag.Jit.Reshape
import Slag.Jit.Values
import Slag.Lib.Returns

/-!
Folding ends, keeps a graph verified, touches no instruction but those it
folds, and goes through the same states in every run.
-/

namespace Slag.Jit

open Crux

namespace Fold

variable {A : Ieee} {f g : Function} {b : BlockId}

/-- Types that are set, one for each of the values. -/
theorem setTypes_spec {l : List (ValueId × Ty)} (hnd : (l.map Prod.fst).Nodup)
    (hlt : ∀ e ∈ l, e.1 < f.valueCount) : ∃ g, l.foldlM setType f = .ok g ∧ g.blocks = f.blocks ∧
      g.valueCount = f.valueCount ∧ (∀ e ∈ l, g.valueTypes[e.1]? = some e.2) ∧
      ∀ v, v ∉ l.map Prod.fst → g.valueTypes[v]? = f.valueTypes[v]? := by
  induction l generalizing f with
  | nil => exact ⟨f, rfl, rfl, rfl, nofun, fun _ _ => rfl⟩
  | cons e l ih =>
      obtain ⟨he, hl⟩ := List.forall_mem_cons.mp hlt
      obtain ⟨hnot, hnd⟩ := List.nodup_cons.mp hnd
      have hcount : (f.setValueType e.1 e.2).valueCount = f.valueCount := List.length_set
      obtain ⟨g, hg, hblocks, hvalues, hset, hkeep⟩ := ih hnd (hcount ▸ hl)
      refine ⟨g, ?_, hblocks, hvalues.trans hcount, List.forall_mem_cons.mpr ⟨?_, hset⟩, ?_⟩
      · rw [List.foldlM_cons, setType, if_pos he]
        exact hg
      · rw [hkeep e.1 hnot]
        exact List.getElem?_set_self he
      · intro v hv
        rw [List.map_cons, List.mem_cons, not_or] at hv
        rw [hkeep v hv.2]
        exact List.getElem?_set_ne (Ne.symm hv.1)

/-- The blocks of the graph are those of the other, folded. -/
def Folded (A : Ieee) (f g : Function) : Prop := g.blocks = f.blocks.map (foldBlock A)

theorem Folded.block (h : Folded A f g) (b : BlockId) : g.block b = foldBlock A (f.block b) := by
  simp only [Function.block]
  rw [h, List.getElem?_map]
  cases f.blocks[b]? with
  | none => rfl
  | some block => rfl

theorem Folded.count (h : Folded A f g) : g.blockCount = f.blockCount := by
  rw [Function.blockCount, h]
  exact List.length_map _

theorem Folded.reshapes (h : Folded A f g) : f.Reshapes g := by
  refine ⟨h.count, fun b => ?_, fun b => ?_⟩
  · rw [h.block b]
    rfl
  · rw [h.block b]
    rfl

variable {v : ValueId} {c : ConstVal} {inst : Inst}

theorem mem_retypes {ty : Ty} (h : (v, ty) ∈ retypes A f) :
    ∃ (b : BlockId) (i : Nat) (inst : Inst) (c : ConstVal),
      (f.block b).insts[i]? = some inst ∧ foldInst A (f.block b) inst = some c ∧
      inst.result = some v ∧ c.ty = ty := by
  obtain ⟨block, hblock, hmem⟩ := List.mem_flatMap.mp h
  obtain ⟨b, -, rfl⟩ := Function.block_of_mem hblock
  obtain ⟨inst, hinst, heq⟩ := List.mem_filterMap.mp hmem
  obtain ⟨i, hi⟩ := List.mem_iff_getElem?.mp hinst
  obtain ⟨c, hc, hret⟩ := Option.bind_eq_some_iff.mp heq
  obtain ⟨r, hr, hpair⟩ := Option.map_eq_some_iff.mp hret
  cases hpair
  exact ⟨b, i, inst, c, hi, hc, hr, rfl⟩

theorem retypes_mem {i : Nat} (hi : (f.block b).insts[i]? = some inst)
    (hc : foldInst A (f.block b) inst = some c) (hr : inst.result = some v) :
    (v, c.ty) ∈ retypes A f := by
  refine List.mem_flatMap.mpr ⟨_, f.block_mem (Function.lt_of_inst hi), ?_⟩
  refine List.mem_filterMap.mpr ⟨inst, List.mem_of_getElem? hi, ?_⟩
  rw [hc, hr]
  rfl

theorem retypes_nodup (hf : f.WellFormed) : ((retypes A f).map Prod.fst).Nodup := by
  have hsub : ((retypes A f).map Prod.fst).Sublist (f.sites.map Site.value) := by
    rw [Function.sites_values, retypes, List.map_flatMap]
    refine Function.sublist_flatMap fun block => ?_
    rw [List.map_filterMap]
    refine List.Sublist.trans ?_ (List.sublist_append_right _ _)
    refine Function.sublist_filterMap fun inst => ?_
    cases foldInst A block inst with
    | none => exact .inl rfl
    | some c =>
        right
        cases hr : inst.result with
        | none => rfl
        | some r => rfl
  exact hsub.nodup hf.single

/-- An instruction of the folded block. -/
theorem foldBlock_inst {block : Block} {i : Nat} {inst' : Inst}
    (hi : (foldBlock A block).insts[i]? = some inst') : ∃ inst, block.insts[i]? = some inst ∧
      inst' = (foldInst A block inst).elim inst (Inst.become inst) := by
  rw [foldBlock, List.getElem?_map] at hi
  obtain ⟨inst, hinst, rfl⟩ := Option.map_eq_some_iff.mp hi
  exact ⟨inst, hinst, rfl⟩

theorem elim_result {block : Block} :
    ((foldInst A block inst).elim inst (Inst.become inst)).result = inst.result := by
  cases foldInst A block inst <;> rfl

theorem Folded.defines (h : Folded A f g) (b : BlockId) (v : ValueId) (pos : Option Nat) :
    (g.block b).Defines v pos ↔ (f.block b).Defines v pos := by
  rw [h.block b]
  cases pos with
  | none => rfl
  | some i =>
      constructor
      · rintro ⟨inst', hi', hr⟩
        obtain ⟨inst, hi, rfl⟩ := foldBlock_inst hi'
        exact ⟨inst, hi, elim_result.symm.trans hr⟩
      · rintro ⟨inst, hi, hr⟩
        refine ⟨(foldInst A (f.block b) inst).elim inst (Inst.become inst), ?_,
          elim_result.trans hr⟩
        rw [foldBlock, List.getElem?_map, hi]
        rfl

theorem Folded.uses (h : Folded A f g) {b : BlockId} {u : Nat × ValueId}
    (hu : u ∈ (g.block b).uses) : u ∈ (f.block b).uses := by
  obtain ⟨pos, v⟩ := u
  rw [h.block b] at hu
  rcases mem_uses.mp hu with ⟨inst', hi', hv⟩ | ⟨hpos, term, hterm, hv⟩
  · obtain ⟨inst, hi, rfl⟩ := foldBlock_inst hi'
    refine mem_uses.mpr (.inl ⟨inst, hi, ?_⟩)
    cases hfold : foldInst A (f.block b) inst with
    | none => rwa [hfold] at hv
    | some c =>
        rw [hfold] at hv
        cases hv
  · have hlen : (foldBlock A (f.block b)).insts.length = (f.block b).insts.length :=
      List.length_map _
    exact mem_uses.mpr (.inr ⟨hpos.trans hlen, term, hterm, hv⟩)

theorem pass_spec (hf : f.WellFormed) : ∃ g, pass A f =
      .ok (f.blocks.any fun block => block.insts.any fun inst => (foldInst A block inst).isSome, g) ∧
    Folded A f g ∧ g.WellFormed := by
  have hlt : ∀ e ∈ retypes A f, e.1 < (f.mapBlocks (foldBlock A)).valueCount := by
    rintro ⟨v, ty⟩ he
    obtain ⟨b, i, inst, c, hi, -, hr, -⟩ := mem_retypes he
    exact hf.known _ (mem_sites.mpr ⟨Function.lt_of_inst hi, inst, hi, hr⟩ : (⟨v, b, some i⟩ : Site) ∈ _)
  obtain ⟨g, hg, hblocks, hvalues, hset, hkeep⟩ := setTypes_spec (retypes_nodup hf) hlt
  have hfolded : Folded A f g := hblocks
  have hshape := hfolded.reshapes
  have hsites : ∀ s, s ∈ g.sites ↔ s ∈ f.sites := by
    intro s
    rw [mem_sites, mem_sites, hfolded.count, hfolded.defines]
  refine ⟨g, bind_eq_ok.mpr ⟨g, hg, rfl⟩, hfolded, hf.reshape hshape ?_ ?_ ?_ ?_⟩
  · have hsame : g.sites.map Site.value = f.sites.map Site.value := by
      rw [Function.sites_values, Function.sites_values, hblocks, Function.mapBlocks,
        List.flatMap_map]
      refine List.flatMap_congr fun block _ => ?_
      rw [foldBlock, List.filterMap_map]
      refine congrArg _ (List.filterMap_congr fun inst _ => elim_result)
    rw [hsame]
    exact hf.single
  · intro s hs
    rw [hvalues]
    exact hf.known s ((hsites s).mp hs)
  · intro b inst' hinst' r hr
    obtain ⟨i, hi'⟩ := List.mem_iff_getElem?.mp hinst'
    rw [hfolded.block b] at hi'
    obtain ⟨inst, hi, rfl⟩ := foldBlock_inst hi'
    have hr' : inst.result = some r := elim_result.symm.trans hr
    cases hfold : foldInst A (f.block b) inst with
    | some c => exact hset _ (retypes_mem hi hfold hr')
    | none =>
        have hnot : r ∉ (retypes A f).map Prod.fst := by
          intro hmem
          obtain ⟨⟨v, ty⟩, hv, rfl⟩ := List.mem_map.mp hmem
          obtain ⟨c, j, other, k, hj, hk, hrj, -⟩ := mem_retypes hv
          obtain ⟨rfl, rfl, rfl⟩ := hf.inst_eq hi hj hr' hrj
          rw [hfold] at hk
          cases hk
        rw [hkeep r hnot]
        exact hf.types _ (f.block_mem (Function.lt_of_inst hi)) inst (List.mem_of_getElem? hi) r hr'
  · intro b u hu done hw
    rw [hshape.walk] at hw
    obtain ⟨s, hs, hval, hbefore⟩ := hf.defined b done hw u (hfolded.uses hu)
    exact ⟨s, (hsites s).mpr hs, hval, hbefore⟩

section Termination

def isOpen (inst : Inst) : Bool := inst.op != .const

/-- The instructions that are no constants yet. -/
def pending (blocks : List Block) : Nat := (blocks.map fun block => block.insts.countP isOpen).sum

theorem foldInst_open {block : Block} (h : foldInst A block inst = some c) : isOpen inst = true := by
  refine bne_iff_ne.mpr fun hop => ?_
  rw [foldInst, if_pos (.inl hop)] at h
  cases h

theorem countP_foldBlock (block : Block) :
    (foldBlock A block).insts.countP isOpen ≤ block.insts.countP isOpen ∧
    (block.insts.any (fun inst => (foldInst A block inst).isSome) = true →
      (foldBlock A block).insts.countP isOpen < block.insts.countP isOpen) := by
  have hlist : ∀ insts : List Inst,
      (insts.map fun inst => (foldInst A block inst).elim inst (Inst.become inst)).countP isOpen ≤
        insts.countP isOpen ∧
      (insts.any (fun inst => (foldInst A block inst).isSome) = true →
        (insts.map fun inst => (foldInst A block inst).elim inst (Inst.become inst)).countP isOpen <
          insts.countP isOpen) := by
    intro insts
    induction insts with
    | nil => exact ⟨Nat.le_refl _, nofun⟩
    | cons inst insts ih =>
        obtain ⟨hle, hlt⟩ := ih
        rw [List.map_cons, List.countP_cons, List.countP_cons, List.any_cons, Bool.or_eq_true]
        cases hfold : foldInst A block inst with
        | some c =>
            have hconst : isOpen (Inst.become inst c) = false := rfl
            rw [Option.elim_some, foldInst_open hfold, hconst, if_pos rfl, if_neg Bool.false_ne_true]
            exact ⟨Nat.le_succ_of_le hle, fun _ => Nat.lt_succ_of_le hle⟩
        | none =>
            rw [Option.elim_none]
            refine ⟨Nat.add_le_add_right hle _, fun h => ?_⟩
            rcases h with h | h
            · cases h
            · exact Nat.add_lt_add_right (hlt h) _
  exact hlist block.insts

theorem pending_foldBlock (blocks : List Block) :
    pending (blocks.map (foldBlock A)) ≤ pending blocks ∧
    (blocks.any (fun block => block.insts.any fun inst => (foldInst A block inst).isSome) = true →
      pending (blocks.map (foldBlock A)) < pending blocks) := by
  induction blocks with
  | nil => exact ⟨Nat.le_refl _, nofun⟩
  | cons block blocks ih =>
      obtain ⟨hle, hlt⟩ := ih
      obtain ⟨hle', hlt'⟩ := countP_foldBlock (A := A) block
      simp only [pending, List.map_cons, List.sum_cons, List.any_cons, Bool.or_eq_true] at hle hlt ⊢
      refine ⟨Nat.add_le_add hle' hle, fun h => ?_⟩
      rcases h with h | h
      · exact Nat.add_lt_add_of_lt_of_le (hlt' h) hle
      · exact Nat.add_lt_add_of_le_of_lt hle' (hlt h)

theorem pending_le (f : Function) : pending f.blocks ≤ f.instCount := by
  unfold pending Function.instCount
  induction f.blocks with
  | nil => exact Nat.le_refl _
  | cons block blocks ih =>
      simp only [List.map_cons, List.sum_cons]
      exact Nat.add_le_add List.countP_le_length ih

/-- One sweep of the pass. -/
structure Step (A : Ieee) (f g : Function) : Prop where
  before : f.WellFormed
  after : g.WellFormed
  folded : Folded A f g

/-- Folding returns, after some number of sweeps. -/
theorem run_spec (hf : f.WellFormed) : ∃ r, run A f = .ok r ∧
    Relation.TransGen (Step A) f r.2 := by
  have hloop : ∀ fuel changed (f : Function), f.WellFormed → pending f.blocks < fuel →
      ∃ r, loop A fuel changed f = .ok r ∧ Relation.TransGen (Step A) f r.2 := by
    intro fuel
    induction fuel with
    | zero => exact fun _ _ _ h => absurd h (Nat.not_lt_zero _)
    | succ fuel ih =>
        intro changed f hf hfuel
        obtain ⟨g, hpass, hfolded, hg⟩ := pass_spec (A := A) hf
        have hstep : Step A f g := ⟨hf, hg, hfolded⟩
        rw [loop, hpass, ok_bind]
        dsimp only
        split
        · rename_i hany
          have hless := (pending_foldBlock f.blocks).2 hany
          rw [← hfolded] at hless
          obtain ⟨r, hr, hsteps⟩ := ih true g hg (by omega)
          exact ⟨r, hr, .head hstep hsteps⟩
        · exact ⟨_, rfl, .single hstep⟩
  exact hloop _ _ f hf (Nat.lt_succ_of_le (pending_le f))

end Termination

section Meaning

variable {ω : Type} {C : Realm ω} {R : Runtime Value ω} {s₀ s : Machine Value ω}
variable {done : List BlockId} {i : Nat}

/-- The value of the language a constant is. -/
def ConstVal.value : ConstVal → Value
  | num x => .number x
  | bool b => .boolean b

theorem constant_value (h : Inst.constant inst = some c) :
    inst.op = .const ∧ inst.imm.constant = some c.value := by
  unfold Inst.constant at h
  split at h
  · rename_i hop himm
    cases h
    exact ⟨hop, by rw [himm]; rfl⟩
  · rename_i hop himm
    cases h
    exact ⟨hop, by rw [himm]; rfl⟩
  · rename_i hop himm
    cases h
    exact ⟨hop, by rw [himm]; rfl⟩
  · cases h

section Operators

variable {w : ω} {x y : F64} {a b : Bool}

theorem looselyEqual_booleans : C.looselyEqualPrimitive (.boolean a) (.boolean b) = (a == b) := by
  have hunboolean : ∀ c, F64.HasInt (F64.ofNat 1) 1 ∧ Realm.unboolean (.boolean c) =
      .number (if c then .ofNat 1 else .zero) := by
    intro c
    refine ⟨F64.hasInt_ofNat (by decide), ?_⟩
    cases c <;> rfl
  obtain ⟨hone, ha⟩ := hunboolean a
  obtain ⟨-, hb⟩ := hunboolean b
  unfold Realm.looselyEqualPrimitive
  rw [ha, hb]
  cases a <;> cases b
  · exact F64.eq_int F64.hasInt_zero F64.hasInt_zero
  · exact F64.eq_int F64.hasInt_zero hone
  · exact F64.eq_int hone F64.hasInt_zero
  · exact F64.eq_int hone hone

theorem apply_lessThan : C.applyBinary .lessThan (.number x) (.number y) w =
    (some (.boolean (F64.lt x y)), w) :=
  congrArg (fun r => (some (Value.boolean r), w)) (Realm.lessNumber_true x y)

theorem apply_greaterThan : C.applyBinary .greaterThan (.number x) (.number y) w =
    (some (.boolean (F64.lt y x)), w) :=
  congrArg (fun r => (some (Value.boolean r), w)) (Realm.lessNumber_true y x)

theorem apply_lessEqual : C.applyBinary .lessEqual (.number x) (.number y) w =
    (some (.boolean (F64.le x y)), w) :=
  congrArg (fun r => (some (Value.boolean r), w)) (Realm.lessNumber_false y x)

theorem apply_greaterEqual : C.applyBinary .greaterEqual (.number x) (.number y) w =
    (some (.boolean (F64.le y x)), w) :=
  congrArg (fun r => (some (Value.boolean r), w)) (Realm.lessNumber_false x y)

theorem apply_equal : C.applyBinary .equal (.boolean a) (.boolean b) w =
    (some (.boolean (a == b)), w) :=
  congrArg (fun r => (some (Value.boolean r), w)) looselyEqual_booleans

theorem apply_strictEqual : C.applyBinary .strictEqual (.boolean a) (.boolean b) w =
    (some (.boolean (a == b)), w) := by
  cases a <;> cases b <;> rfl

end Operators

variable {os : List (Option ConstVal)}

/-- An operation that is folded looks at constants in front only, and evaluates
to the constant it comes to, whatever else it is given. -/
theorem compute_evaluates {op : Op} (h : compute C.ieee op os = some c) :
    ∃ (cs : List ConstVal) (rest : List (Option ConstVal)),
      os = cs.map some ++ rest ∧ ∀ R, Evaluates C R → ∀ ty imm more w,
        R.exec op ty imm (cs.map ConstVal.value ++ more) w = .next c.value [] w := by
  have hbinary : ∀ {o : BinaryOp} {a b c : ConstVal}, Lift.binaryOp o = some op →
      (∀ w, C.applyBinary o a.value b.value w = (some c.value, w)) →
      ∀ R, Evaluates C R → ∀ ty imm more w,
        R.exec op ty imm ([a, b].map ConstVal.value ++ more) w = .next c.value [] w := by
    intro o a b c ho happly R hR ty imm more w
    rw [List.map_cons, List.map_cons, List.map_nil]
    exact ((hR.binary o op ho imm).2 ty a.value b.value more w).trans
      (congrArg Outcome.ofEval (happly w))
  have hunary : ∀ {o : UnaryOp} {a c : ConstVal}, Lift.unaryOp o = some op →
      (∀ w, C.evalUnary o a.value w = (some c.value, w)) →
      ∀ R, Evaluates C R → ∀ ty imm more w,
        R.exec op ty imm ([a].map ConstVal.value ++ more) w = .next c.value [] w := by
    intro o a c ho happly R hR ty imm more w
    rw [List.map_cons, List.map_nil]
    exact ((hR.unary o op ho imm).2 ty a.value more w).trans (congrArg Outcome.ofEval (happly w))
  unfold compute at h
  split at h
  · cases h
    exact ⟨[_, _], _, rfl, hbinary (o := .add) rfl fun _ => rfl⟩
  · cases h
    exact ⟨[_, _], _, rfl, hbinary (o := .sub) rfl fun _ => rfl⟩
  · cases h
    exact ⟨[_, _], _, rfl, hbinary (o := .mul) rfl fun _ => rfl⟩
  · cases h
    exact ⟨[_, _], _, rfl, hbinary (o := .div) rfl fun _ => rfl⟩
  · cases h
    exact ⟨[_, _], _, rfl, hbinary (o := .lessThan) rfl fun _ => apply_lessThan⟩
  · cases h
    exact ⟨[_, _], _, rfl, hbinary (o := .lessEqual) rfl fun _ => apply_lessEqual⟩
  · cases h
    exact ⟨[_, _], _, rfl, hbinary (o := .greaterThan) rfl fun _ => apply_greaterThan⟩
  · cases h
    exact ⟨[_, _], _, rfl, hbinary (o := .greaterEqual) rfl fun _ => apply_greaterEqual⟩
  · cases h
    exact ⟨[_, _], _, rfl, hbinary (o := .equal) rfl fun _ => rfl⟩
  · cases h
    exact ⟨[_, _], _, rfl, hbinary (o := .equal) rfl fun _ => apply_equal⟩
  · cases h
    exact ⟨[_, _], _, rfl, hbinary (o := .strictEqual) rfl fun _ => rfl⟩
  · cases h
    exact ⟨[_, _], _, rfl, hbinary (o := .strictEqual) rfl fun _ => apply_strictEqual⟩
  · cases h
    exact ⟨[_], _, rfl, hunary (o := .minus) rfl fun _ => rfl⟩
  · cases h
    exact ⟨[_], _, rfl, hunary (o := .not) rfl fun _ => rfl⟩
  · cases h

theorem compute_access {op : Op} (h : compute A op os = some c) :
    op ≠ .frameLoad ∧ op ≠ .frameStore := by
  refine ⟨?_, ?_⟩
  · rintro rfl
    cases h
  · rintro rfl
    cases h

theorem isAccess_of_op (hload : inst.op ≠ .frameLoad) (hstore : inst.op ≠ .frameStore) :
    inst.isAccess = false := by
  unfold Inst.isAccess
  split
  · contradiction
  · contradiction
  · rfl

theorem exec_constant (hR : Evaluates C R) (hc : Inst.constant inst = some c) :
    s.exec R inst = (true, s.assign inst.result.toList [c.value]) := by
  obtain ⟨hop, himm⟩ := constant_value hc
  refine Machine.exec_quiet (isAccess_of_op ?_ ?_) ?_
  · rw [hop]
    exact nofun
  · rw [hop]
    exact nofun
  · rw [hop]
    exact (hR.const inst.imm c.value himm).2 inst.ty _ _

/-- In a state of a run the constants before the position have their values. -/
theorem at_constants (hR : Evaluates C R) (hf : f.WellFormed)
    (hat : Function.At R f s₀ done b i s) : ∀ k < i, ∀ inst, (f.block b).insts[k]? = some inst →
      ∀ r c, inst.result = some r → Inst.constant inst = some c → s.env r = c.value := by
  induction hat with
  | start => exact fun k hk => absurd hk (Nat.not_lt_zero k)
  | edge => exact fun k hk => absurd hk (Nat.not_lt_zero k)
  | @exec done b i s s' now hat hi hexec ih =>
      intro k hk inst hk' r c hr hc
      rcases Nat.lt_succ_iff_lt_or_eq.mp hk with hlt | rfl
      · have hne : now.result ≠ some r := by
          intro hnow
          obtain ⟨-, rfl, -⟩ := hf.inst_eq hk' hi hr hnow
          exact Nat.lt_irrefl _ hlt
        rw [Machine.exec_env hexec hne]
        exact ih k hlt inst hk' r c hr hc
      · rw [hi] at hk'
        cases hk'
        rw [exec_constant hR hc, hr] at hexec
        cases hexec
        rw [Option.toList_some, Machine.assign_single, Function.update_self]

/-- A constant operand has its value where it is used. -/
theorem operand (hR : Evaluates C R) (hf : f.WellFormed) (hat : Function.At R f s₀ done b i s)
    (huse : (i, v) ∈ (f.block b).uses) (hc : constValue (f.block b) v = some c) :
    s.env v = c.value := by
  obtain ⟨inst, hfind, hinst⟩ := Option.bind_eq_some_iff.mp hc
  have hr : inst.result = some v := by
    have hfound := List.find?_some hfind
    exact of_decide_eq_true hfound
  obtain ⟨k, hk⟩ := List.mem_iff_getElem?.mp (List.mem_of_find?_eq_some hfind)
  have hsite : (⟨v, b, some k⟩ : Site) ∈ f.sites :=
    mem_sites.mpr ⟨Function.lt_of_inst hk, inst, hk, hr⟩
  obtain ⟨walk, hw⟩ := hf.reachable b (Function.lt_of_inst hk)
  obtain ⟨fresh, hw, hnot, -⟩ := hw.first
  rcases hf.loose.defined b _ huse _ hsite rfl fresh hw with hmem | ⟨-, hpos⟩
  · exact absurd hmem hnot
  · exact at_constants hR hf hat k (hpos k rfl) inst hk v c hr hinst

theorem map_operands {env : ValueId → Value} {p : ValueId → Option ConstVal} {vs : List ValueId}
    {cs : List ConstVal} (h : vs.map p = cs.map some)
    (henv : ∀ v ∈ vs, ∀ c, p v = some c → env v = c.value) :
    vs.map env = cs.map ConstVal.value := by
  induction vs generalizing cs with
  | nil =>
      cases cs with
      | nil => rfl
      | cons c cs => cases h
  | cons v vs ih =>
      cases cs with
      | nil => cases h
      | cons c cs =>
          obtain ⟨hv, hvs⟩ := List.cons.inj h
          obtain ⟨hhead, htail⟩ := List.forall_mem_cons.mp henv
          rw [List.map_cons, List.map_cons, hhead c hv, ih hvs htail]

theorem foldInst_compute {block : Block} (h : foldInst A block inst = some c) :
    compute A inst.op (inst.args.map (constValue block)) = some c := by
  unfold foldInst at h
  split at h
  · cases h
  · exact h

/-- A folded instruction does what it did. -/
theorem exec_folded (hR : Evaluates C R) (hf : f.WellFormed) (hat : Function.At R f s₀ done b i s)
    (hi : (f.block b).insts[i]? = some inst) (hfold : foldInst C.ieee (f.block b) inst = some c) :
    s.exec R (Inst.become inst c) = s.exec R inst ∧
      R.exec inst.op inst.ty inst.imm (s.args R inst) s.world = .next c.value [] s.world := by
  have hcompute := foldInst_compute hfold
  obtain ⟨cs, rest, hops, hexec⟩ := compute_evaluates hcompute
  obtain ⟨front, back, hargs, hfront, -⟩ := List.map_eq_append_iff.mp hops
  have henv : front.map s.env = cs.map ConstVal.value := by
    refine map_operands hfront fun v hv c' hc' => operand hR hf hat ?_ hc'
    refine mem_uses.mpr (.inl ⟨inst, hi, ?_⟩)
    rw [hargs]
    exact List.mem_append_left _ hv
  have hrun : R.exec inst.op inst.ty inst.imm (s.args R inst) s.world =
      .next c.value [] s.world := by
    rw [Machine.args, hargs, List.map_append, henv, List.append_assoc]
    exact hexec R hR _ _ _ _
  obtain ⟨hload, hstore⟩ := compute_access hcompute
  have hconst : Inst.constant (Inst.become inst c) = some c := by
    cases c <;> rfl
  refine ⟨?_, hrun⟩
  rw [exec_constant hR hconst, Machine.exec_quiet (isAccess_of_op hload hstore) hrun]
  rfl

theorem Step.lockstep (hR : Evaluates C R) (h : Step C.ieee f g) (s₀ : Machine Value ω) :
    Function.Lockstep R f g s₀ where
  params := h.folded.reshapes.params
  length b := by
    rw [h.folded.block b]
    exact List.length_map _
  exec done b i s inst inst' hat hi hi' := by
    rw [h.folded.block b] at hi'
    obtain ⟨old, hold, rfl⟩ := foldBlock_inst hi'
    rw [hi] at hold
    cases hold
    cases hfold : foldInst C.ieee (f.block b) inst with
    | none => rfl
    | some c => exact (exec_folded hR h.before hat hi hfold).1
  leave done b s hat := by
    rw [h.folded.block b]
    rfl

/-- The instructions after some sweeps: an instruction is left as it is, or, no
guard, it has become a constant, which it comes to in every run, with no effect. -/
structure Folds (A : Ieee) (f g : Function) : Prop where
  params : ∀ b, (g.block b).params = (f.block b).params
  length : ∀ b, (g.block b).insts.length = (f.block b).insts.length
  insts : ∀ (b : BlockId) (i : Nat) (inst : Inst), (f.block b).insts[i]? = some inst →
    (g.block b).insts[i]? = some inst ∨ inst.isGuard = false ∧ ∃ c,
      (g.block b).insts[i]? = some (Inst.become inst c) ∧
      ∀ (ω : Type) (C : Realm ω) (R : Runtime Value ω) (s₀ : Machine Value ω)
        (done : List BlockId) (s : Machine Value ω), C.ieee = A → Evaluates C R →
        Function.At R f s₀ done b i s →
        R.exec inst.op inst.ty inst.imm (s.args R inst) s.world = .next c.value [] s.world

theorem compute_guard (h : compute A inst.op os = some c) : inst.isGuard = false := by
  unfold Inst.isGuard
  split
  · rename_i hop
    rw [hop] at h
    cases h
  · rename_i hop
    rw [hop] at h
    cases h
  · rename_i hop
    rw [hop] at h
    cases h
  · rfl

theorem Step.folds (h : Step A f g) : Folds A f g where
  params := h.folded.reshapes.params
  length b := by
    rw [h.folded.block b]
    exact List.length_map _
  insts b i inst hi := by
    rw [h.folded.block b, foldBlock, List.getElem?_map, hi, Option.map_some]
    cases hfold : foldInst A (f.block b) inst with
    | none => exact .inl rfl
    | some c =>
        refine .inr ⟨compute_guard (foldInst_compute hfold), c, rfl, ?_⟩
        rintro ω C R s₀ done s rfl hR hat
        exact (exec_folded hR h.before hat hi hfold).2

theorem steps_lockstep (hR : Evaluates C R) (h : Relation.TransGen (Step C.ieee) f g)
    (s₀ : Machine Value ω) : Function.Lockstep R f g s₀ := by
  induction h with
  | single h => exact h.lockstep hR s₀
  | tail _ h ih => exact ih.trans (h.lockstep hR s₀)

theorem steps_folds (h : Relation.TransGen (Step A) f g) : Folds A f g := by
  induction h with
  | single h => exact h.folds
  | @tail g g' hsteps h ih =>
      refine ⟨fun b => (h.folds.params b).trans (ih.params b),
        fun b => (h.folds.length b).trans (ih.length b), fun b i inst hi => ?_⟩
      rcases ih.insts b i inst hi with hsame | ⟨hguard, c, hconst, hquiet⟩
      · rcases h.folds.insts b i inst hsame with hsame | ⟨hguard, c, hconst, hquiet⟩
        · exact .inl hsame
        · refine .inr ⟨hguard, c, hconst, ?_⟩
          rintro ω C R s₀ done s rfl hR hat
          exact hquiet ω C R s₀ done s rfl hR ((steps_lockstep hR hsteps s₀).at_of_first hat)
      · refine .inr ⟨hguard, c, ?_, hquiet⟩
        have hnone : foldInst A (g.block b) (Inst.become inst c) = none := if_pos (.inl rfl)
        rw [h.folded.block b, foldBlock, List.getElem?_map, hconst, Option.map_some, hnone]
        rfl

end Meaning

end Fold

end Slag.Jit
