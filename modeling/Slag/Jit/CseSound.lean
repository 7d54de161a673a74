import Slag.Jit.Cse
import Slag.Lib.Returns

/-!
Elimination keeps a graph verified, and its runs as they are, entry by entry, as
long as they use no value that was merged with the zero of the other sign: the
comparison of payloads takes the two zeros for one number.
-/

namespace Slag.Jit

open FlowGraph

/-- Two payloads with the zeros of the two signs. -/
def Imm.OtherZero (x y : Imm) : Prop :=
  (x = .float .zero ∧ y = .float .negZero) ∨ (x = .float .negZero ∧ y = .float .zero)

theorem Imm.eq_of_same {x y : Imm} (h : x.same y = true) (hzeros : ¬ x.OtherZero y) : x = y := by
  unfold Imm.same at h
  split at h
  · rename_i a b
    rcases F64.eq_iff.mp h with ⟨-, heq⟩ | ⟨ha | ha, hb | hb⟩
    · rw [heq]
    · rw [ha, hb]
    · exact absurd (.inl ⟨congrArg _ ha, congrArg _ hb⟩) hzeros
    · exact absurd (.inr ⟨congrArg _ ha, congrArg _ hb⟩) hzeros
    · rw [ha, hb]
  · exact of_decide_eq_true h

namespace Cse

/-- The available computation an instruction is merged with. -/
def found (st : State) (inst : Inst) : Option Available :=
  (retained st.avail inst).find? fun a =>
    a.op = inst.op ∧ a.imm.same inst.imm ∧ a.args = inst.args.map (use st.subst)

/-- The states of the scan: what it knows before the instruction at a position
of a block. -/
inductive ScansTo (f : Function) : BlockId → Nat → State → Prop
  | start : ScansTo f 0 0 ⟨List.replicate f.valueCount none, [], false⟩
  | inst {b : BlockId} {i : Nat} {st st' : State} {inst : Inst} (h : ScansTo f b i st)
      (hi : (f.block b).insts[i]? = some inst) (hv : visit st inst = .ok st') :
      ScansTo f b (i + 1) st'
  | block {b : BlockId} {st : State} (h : ScansTo f b (f.block b).insts.length st) :
      ScansTo f (b + 1) 0 { st with avail := [] }

/-- What a scanned instruction does to the state. -/
inductive Visited (st : State) (inst : Inst) : State → Prop
  | keep : Visited st inst { st with avail := retained st.avail inst }
  | merge {r : ValueId} {a : Available} (hr : inst.result = some r) (he : eligible inst = true)
      (ha : found st inst = some a) :
      Visited st inst ⟨st.subst.set r (some a.value), retained st.avail inst, true⟩
  | push {r : ValueId} (hr : inst.result = some r) (he : eligible inst = true) :
      Visited st inst { st with avail := retained st.avail inst ++
        [⟨inst.op, inst.imm, inst.args.map (use st.subst), r, inst.op = .frameLoad⟩] }

/-- The uses of one value are to become uses of the other. -/
abbrev Subst.Links (subst : Subst) (v w : ValueId) : Prop := subst[v]? = some (some w)

/-- What the scan knows at a position: links lead from a value to an earlier
one of the same block that has no link, and an available computation is that of
an instruction before the position. -/
structure Scanned (f : Function) (b : BlockId) (i : Nat) (st : State) : Prop where
  length : st.subst.length = f.valueCount
  links : ∀ v w, st.subst.Links v w → ∃ d j k, ⟨w, d, some j⟩ ∈ f.sites ∧
    ⟨v, d, some k⟩ ∈ f.sites ∧ j < k ∧ (d < b ∨ d = b ∧ k < i)
  ends : ∀ v w, st.subst.Links v w → st.subst[w]? = some none
  avail : ∀ a ∈ st.avail, ∃ k inst, k < i ∧ (f.block b).insts[k]? = some inst ∧
    inst.result = some a.value ∧ inst.op = a.op ∧ inst.imm = a.imm ∧
    a.isLoad = decide (inst.op = .frameLoad) ∧ st.subst[a.value]? = some none ∧
    ∀ x ∈ a.args, f.Avail b k x

variable {f : Function} {b : BlockId} {i : Nat} {st st' : State} {inst : Inst}

variable {a : Available} {v : ValueId} {subst : Subst}

theorem found_spec (h : found st inst = some a) : a ∈ retained st.avail inst ∧
    a.op = inst.op ∧ a.imm.same inst.imm = true ∧ a.args = inst.args.map (use st.subst) := by
  have hkey := List.find?_some h
  rw [decide_eq_true_eq] at hkey
  exact ⟨List.mem_of_find?_eq_some h, hkey⟩

theorem resolveOne_eq (hv : v < subst.length) (hends : ∀ v w, subst.Links v w → subst[w]? = some none) :
    resolveOne subst v = .ok (use subst v) := by
  have hpos : 0 < subst.length := Nat.lt_of_le_of_lt (Nat.zero_le _) hv
  obtain ⟨n, hn⟩ := Nat.exists_eq_add_one_of_ne_zero (Nat.ne_of_gt hpos)
  rw [resolveOne, resolveFrom, use, List.getElem?_eq_getElem hv]
  cases hlink : subst[v] with
  | none => rfl
  | some w =>
      have hend := hends v w (by rw [Subst.Links, List.getElem?_eq_getElem hv, hlink])
      dsimp only
      rw [hn, resolveFrom, hend]
      rfl

theorem mem_retained {avail : List Available} : a ∈ retained avail inst ↔
    a ∈ avail ∧ (a.isLoad = true → inst.effects.mayClobberReadsOf (.read .slots) = false) := by
  unfold retained
  cases inst.effects.mayClobberReadsOf (.read .slots) with
  | false => simp
  | true => simp [List.mem_filter]

theorem Scanned.value_site (h : Scanned f b i st) (hb : b < f.blockCount) (ha : a ∈ st.avail) :
    ∃ k, k < i ∧ (⟨a.value, b, some k⟩ : Site) ∈ f.sites := by
  obtain ⟨k, inst, hk, hi, hr, -⟩ := h.avail a ha
  exact ⟨k, hk, site_of_result hb hi hr⟩

/-- What a use is redirected to is available there. -/
theorem Scanned.avail_use (hf : f.Loose) (h : Scanned f b i st) {c : BlockId} {pos : Nat}
    (hv : f.Avail c pos v) : f.Avail c pos (use st.subst v) := by
  unfold use
  cases hlink : st.subst[v]? with
  | none => exact hv
  | some link =>
      cases link with
      | none => exact hv
      | some w =>
          obtain ⟨d, j, k, hw, hv', hlt, -⟩ := h.links v w hlink
          intro s hs hval done hwalk
          obtain rfl : s = ⟨w, d, some j⟩ := site_unique hf.single hs hw hval
          rcases hv _ hv' rfl done hwalk with hmem | ⟨hd, hpos⟩
          · exact .inl hmem
          · refine .inr ⟨hd, fun m hm => ?_⟩
            cases hm
            exact Nat.lt_trans hlt (hpos k rfl)

/-- An available computation names no value that is defined later in the block. -/
theorem Scanned.untouched (hf : f.Loose) (h : Scanned f b i st) (hi : (f.block b).insts[i]? = some inst)
    (ha : a ∈ st.avail) :
    inst.result ≠ some a.value ∧ ∀ x ∈ a.args, inst.result ≠ some x := by
  have hb := Function.lt_of_inst hi
  obtain ⟨k, inst', hk, hi', hr', -, -, -, -, hav⟩ := h.avail a ha
  refine ⟨fun hr => ?_, fun x hx hr => ?_⟩
  · have hpos := (site_eq hf (site_of_result hb hi' hr') (site_of_result hb hi hr)).2
    cases hpos
    exact Nat.lt_irrefl _ hk
  · exact Nat.lt_asymm hk (not_avail_self hf (hav x hx) (site_of_result hb hi hr))

theorem visit_spec (hf : f.Loose) (h : Scanned f b i st) (hi : (f.block b).insts[i]? = some inst) :
    ∃ st', visit st inst = .ok st' ∧ Visited st inst st' := by
  unfold visit
  dsimp only
  cases hr : inst.result with
  | none => exact ⟨_, rfl, .keep⟩
  | some r =>
      dsimp only
      cases he : eligible inst with
      | false => exact ⟨_, rfl, .keep⟩
      | true =>
          have hargs : inst.args.mapM (resolveOne st.subst) = .ok (inst.args.map (use st.subst)) := by
            refine mapM_eq_ok fun v hv => resolveOne_eq ?_ h.ends
            rw [h.length]
            exact hf.small b (i, v) (mem_uses.mpr (.inl ⟨inst, hi, hv⟩))
          rw [if_pos rfl, hargs, ok_bind]
          unfold record
          dsimp only
          split
          · rename_i a hfind
            have hmem := (mem_retained.mp (found_spec hfind).1).1
            have hsite := site_of_result (Function.lt_of_inst hi) hi hr
            have hne : a.value ≠ r := fun heq => (h.untouched hf hi hmem).1 (heq ▸ hr)
            have hlt : r < st.subst.length := h.length ▸ hf.known _ hsite
            rw [if_neg hne, if_pos hlt]
            exact ⟨_, rfl, .merge hr he hfind⟩
          · exact ⟨_, rfl, .push hr he⟩

/-- The value an instruction defines has no link before it, and nothing is
linked to it. -/
theorem Scanned.unlinked (hf : f.Loose) (h : Scanned f b i st)
    (hi : (f.block b).insts[i]? = some inst) {r : ValueId} (hr : inst.result = some r) :
    st.subst[r]? = some none ∧ ∀ v, ¬ st.subst.Links v r := by
  have hsite := site_of_result (Function.lt_of_inst hi) hi hr
  have hlt : r < st.subst.length := h.length ▸ hf.known _ hsite
  refine ⟨?_, ?_⟩
  · cases hlink : st.subst[r]? with
    | none => exact absurd (List.getElem?_eq_none_iff.mp hlink) (Nat.not_le.mpr hlt)
    | some link =>
        cases link with
        | none => rfl
        | some w =>
            obtain ⟨d, j, k, -, hrd, -, hbefore⟩ := h.links r w hlink
            obtain ⟨rfl, hpos⟩ := site_eq hf hrd hsite
            cases hpos
            rcases hbefore with hbefore | ⟨-, hbefore⟩
            · exact absurd hbefore (Nat.lt_irrefl _)
            · exact absurd hbefore (Nat.lt_irrefl _)
  · intro v hlink
    obtain ⟨d, j, k, hrd, -, hlt, hbefore⟩ := h.links v r hlink
    obtain ⟨rfl, hpos⟩ := site_eq hf hrd hsite
    cases hpos
    rcases hbefore with hbefore | ⟨-, hbefore⟩
    · exact Nat.lt_irrefl _ hbefore
    · exact Nat.lt_asymm hbefore hlt

theorem Scanned.visited (hf : f.Loose) (h : Scanned f b i st)
    (hi : (f.block b).insts[i]? = some inst) (hv : Visited st inst st') :
    Scanned f b (i + 1) st' := by
  have hb := Function.lt_of_inst hi
  have hlinks : ∀ v w, st.subst.Links v w → ∃ d j k, (⟨w, d, some j⟩ : Site) ∈ f.sites ∧
      (⟨v, d, some k⟩ : Site) ∈ f.sites ∧ j < k ∧ (d < b ∨ d = b ∧ k < i + 1) := by
    intro v w hlink
    obtain ⟨d, j, k, hw, hv, hlt, hbefore⟩ := h.links v w hlink
    exact ⟨d, j, k, hw, hv, hlt, hbefore.imp_right fun h => ⟨h.1, Nat.lt_succ_of_lt h.2⟩⟩
  have hkept : ∀ a ∈ retained st.avail inst, ∃ k inst, k < i ∧ (f.block b).insts[k]? = some inst ∧
      inst.result = some a.value ∧ inst.op = a.op ∧ inst.imm = a.imm ∧
      a.isLoad = decide (inst.op = .frameLoad) ∧ st.subst[a.value]? = some none ∧
      ∀ x ∈ a.args, f.Avail b k x :=
    fun a ha => h.avail a (mem_retained.mp ha).1
  cases hv with
  | keep =>
      refine ⟨h.length, hlinks, h.ends, fun a ha => ?_⟩
      obtain ⟨k, inst', hk, hrest⟩ := hkept a ha
      exact ⟨k, inst', Nat.lt_succ_of_lt hk, hrest⟩
  | @merge r a hr he hfound =>
      have ha := (found_spec hfound).1
      have hsite := site_of_result hb hi hr
      have hlt : r < st.subst.length := h.length ▸ hf.known _ hsite
      have hset : ∀ v : ValueId, (st.subst.set r (some a.value))[v]? =
          if v = r then some (some a.value) else st.subst[v]? := by
        intro v
        rw [List.getElem?_set]
        by_cases hvr : v = r
        · simp [hvr, hlt]
        · simp [hvr, Ne.symm hvr]
      have hvalue_ne : ∀ a' ∈ retained st.avail inst, a'.value ≠ r := by
        rintro a' ha' rfl
        exact (h.untouched hf hi (mem_retained.mp ha').1).1 hr
      refine ⟨?_, ?_, ?_, ?_⟩
      · rw [List.length_set]
        exact h.length
      · intro v w hlink
        rw [Subst.Links, hset] at hlink
        split at hlink
        · rename_i hvr
          cases hlink
          obtain ⟨k, hk, hvalue⟩ := h.value_site hb (mem_retained.mp ha).1
          exact ⟨b, k, i, hvalue, hvr ▸ hsite, hk, .inr ⟨rfl, Nat.lt_succ_self i⟩⟩
        · exact hlinks v w hlink
      · intro v w hlink
        rw [Subst.Links, hset] at hlink
        rw [hset]
        split at hlink
        · cases hlink
          rw [if_neg (hvalue_ne a ha)]
          obtain ⟨k, inst', -, -, -, -, -, -, hnone, -⟩ := hkept a ha
          exact hnone
        · have hwr : w ≠ r := by
            rintro rfl
            exact (h.unlinked hf hi hr).2 v hlink
          rw [if_neg hwr]
          exact h.ends v w hlink
      · intro a' ha'
        obtain ⟨k, inst', hk, hi', hr', hop', himm', hload, hnone, hav⟩ := hkept a' ha'
        refine ⟨k, inst', Nat.lt_succ_of_lt hk, hi', hr', hop', himm', hload, ?_, hav⟩
        rw [hset, if_neg (hvalue_ne a' ha')]
        exact hnone
  | @push r hr he =>
      refine ⟨h.length, hlinks, h.ends, fun a ha => ?_⟩
      rcases List.mem_append.mp ha with ha | ha
      · obtain ⟨k, inst', hk, hrest⟩ := hkept a ha
        exact ⟨k, inst', Nat.lt_succ_of_lt hk, hrest⟩
      · obtain rfl := List.mem_singleton.mp ha
        refine ⟨i, inst, Nat.lt_succ_self i, hi, hr, rfl, rfl, rfl, (h.unlinked hf hi hr).1, ?_⟩
        intro x hx
        obtain ⟨v, hv, rfl⟩ := List.mem_map.mp hx
        have huse : (i, v) ∈ (f.block b).uses := mem_uses.mpr (.inl ⟨inst, hi, hv⟩)
        exact h.avail_use hf (hf.defined b _ huse)

theorem ScansTo.scanned (hf : f.Loose) (h : ScansTo f b i st) : Scanned f b i st := by
  induction h with
  | start =>
      have hnone : ∀ v w, ¬ Subst.Links (List.replicate f.valueCount none) v w := by
        intro v w hlink
        rw [Subst.Links, List.getElem?_replicate] at hlink
        split at hlink <;> cases hlink
      exact ⟨List.length_replicate, fun v w hlink => absurd hlink (hnone v w),
        fun v w hlink => absurd hlink (hnone v w), fun a ha => absurd ha List.not_mem_nil⟩
  | inst h hi hv ih =>
      obtain ⟨st', hst', hvisited⟩ := visit_spec hf ih hi
      rw [hv] at hst'
      cases hst'
      exact ih.visited hf hi hvisited
  | @block b st h ih =>
      refine ⟨ih.length, ?_, ih.ends, fun a ha => absurd ha List.not_mem_nil⟩
      intro v w hlink
      obtain ⟨d, j, k, hw, hv, hlt, hbefore⟩ := ih.links v w hlink
      refine ⟨d, j, k, hw, hv, hlt, .inl ?_⟩
      rcases hbefore with hbefore | ⟨rfl, -⟩
      · exact Nat.lt_succ_of_lt hbefore
      · exact Nat.lt_succ_self _

/-- The scan comes to the end of a block. -/
theorem ScansTo.insts (hf : f.Loose) {before insts : List Inst}
    (hinsts : (f.block b).insts = before ++ insts) (h : ScansTo f b before.length st) :
    ∃ st', insts.foldlM visit st = .ok st' ∧ ScansTo f b (f.block b).insts.length st' := by
  induction insts generalizing before st with
  | nil =>
      rw [hinsts, List.append_nil]
      exact ⟨st, rfl, h⟩
  | cons inst insts ih =>
      have hi : (f.block b).insts[before.length]? = some inst := by
        rw [hinsts, List.getElem?_append_right (Nat.le_refl _), Nat.sub_self]
        rfl
      obtain ⟨st', hvisit, -⟩ := visit_spec hf (h.scanned hf) hi
      have hnext := h.inst hi hvisit
      rw [← List.length_concat (a := inst)] at hnext
      obtain ⟨st'', hrest, hend⟩ := ih (by rw [hinsts, List.concat_append]) hnext
      exact ⟨st'', bind_eq_ok.mpr ⟨st', hvisit, hrest⟩, hend⟩

/-- The scan comes to its end. -/
theorem ScansTo.blocks (hf : f.Loose) {before blocks : List Block} (hblocks : f.blocks = before ++ blocks)
    (h : ScansTo f before.length 0 { st with avail := [] }) :
    ∃ st', blocks.foldlM visitBlock st = .ok st' ∧
      ScansTo f f.blockCount 0 { st' with avail := [] } := by
  induction blocks generalizing before st with
  | nil =>
      refine ⟨st, rfl, ?_⟩
      rw [Function.blockCount, hblocks, List.append_nil]
      exact h
  | cons block blocks ih =>
      have hblock : f.block before.length = block := by
        rw [Function.block, hblocks, List.getElem?_append_right (Nat.le_refl _), Nat.sub_self]
        rfl
      have hinsts : (f.block before.length).insts = [] ++ (f.block before.length).insts := rfl
      obtain ⟨st', hvisit, hend⟩ := h.insts hf hinsts
      rw [hblock] at hvisit
      have hnext := hend.block
      rw [← List.length_concat (a := block)] at hnext
      obtain ⟨st'', hrest, hlast⟩ := ih (by rw [hblocks, List.concat_append]) hnext
      exact ⟨st'', bind_eq_ok.mpr ⟨st', hvisit, hrest⟩, hlast⟩

/-- The scan merges the definition of a value with an available computation. -/
structure Merge (f : Function) (v : ValueId) (b : BlockId) (i : Nat) (st : State) (inst : Inst)
    (a : Available) : Prop where
  scan : ScansTo f b i st
  here : (f.block b).insts[i]? = some inst
  result : inst.result = some v
  eligible : eligible inst = true
  found : found st inst = some a

/-- A value found to be that of an available computation, at its definition. -/
def Merged (f : Function) (v w : ValueId) : Prop :=
  ∃ b i st inst a, Merge f v b i st inst a ∧ a.value = w

/-- A value merged with a computation whose payload is the zero of the other sign. -/
def Confused (f : Function) (v : ValueId) : Prop :=
  ∃ b i st inst a, Merge f v b i st inst a ∧ a.imm.OtherZero inst.imm

theorem ScansTo.merged (hf : f.Loose) (h : ScansTo f b i st) {v w : ValueId}
    (hlink : st.subst.Links v w) : Merged f v w := by
  induction h with
  | start =>
      rw [Subst.Links, List.getElem?_replicate] at hlink
      split at hlink <;> cases hlink
  | @inst b i st st' inst h hi hv ih =>
      obtain ⟨st'', hst'', hvisited⟩ := visit_spec hf (h.scanned hf) hi
      rw [hv] at hst''
      cases hst''
      cases hvisited with
      | keep => exact ih hlink
      | push => exact ih hlink
      | @merge r a hr he hfound =>
          by_cases hvr : r = v
          · subst hvr
            have hlt : r < st.subst.length :=
              (h.scanned hf).length ▸ hf.known _ (site_of_result (Function.lt_of_inst hi) hi hr)
            rw [Subst.Links, List.getElem?_set_self hlt] at hlink
            cases hlink
            exact ⟨b, i, st, inst, a, ⟨h, hi, hr, he, hfound⟩, rfl⟩
          · rw [Subst.Links, List.getElem?_set_ne hvr] at hlink
            exact ih hlink
  | block h ih => exact ih hlink

theorem use_eq (subst : Subst) (v : ValueId) :
    use subst v = v ∨ subst.Links v (use subst v) := by
  unfold use Subst.Links
  cases hlink : subst[v]? with
  | none => exact .inl rfl
  | some link =>
      cases link with
      | none => exact .inl rfl
      | some w => exact .inr rfl

/-- Chains of links are of length one, so there is nothing left to resolve. -/
theorem resolve_eq (hlt : ∀ v w, subst.Links v w → w < subst.length)
    (hends : ∀ v w, subst.Links v w → subst[w]? = some none) : resolve subst = .ok subst := by
  unfold resolve
  induction List.range subst.length with
  | nil => rfl
  | cons i is ih =>
      rw [List.foldlM_cons]
      refine bind_eq_ok.mpr ⟨subst, ?_, ih⟩
      cases hlink : subst[i]? with
      | none => rfl
      | some link =>
          cases link with
          | none => rfl
          | some w =>
              have huse : use subst w = w := by rw [use, hends i w hlink]; rfl
              have hset : subst.set i (some w) = subst := by
                obtain ⟨hi, hget⟩ := List.getElem?_eq_some_iff.mp hlink
                rw [← hget]
                exact List.set_getElem_self hi
              dsimp only
              rw [resolveOne_eq (hlt i w hlink) hends, huse, ok_bind, hset]
              rfl

/-- Elimination returns, and what it returns is as it was or has its uses
redirected along merges. -/
theorem run_spec (hf : f.Loose) : ∃ r : Bool × Function, run f = .ok r ∧ (r.2 = f ∨
    ∃ h : ValueId → ValueId, r.2 = f.mapUses h ∧ ∀ v, h v = v ∨ Merged f v (h v)) := by
  have hblocks : f.blocks = [] ++ f.blocks := rfl
  have hstart : ScansTo f ([] : List Block).length 0
      { (⟨List.replicate f.valueCount none, [], false⟩ : State) with avail := [] } := .start
  obtain ⟨st, hscan, hend⟩ := ScansTo.blocks hf hblocks hstart
  have hs := hend.scanned hf
  rw [run, hscan, ok_bind]
  cases hchanged : st.changed with
  | false => exact ⟨_, rfl, .inl rfl⟩
  | true =>
      have hlt : ∀ v w, st.subst.Links v w → w < st.subst.length := by
        intro v w hlink
        obtain ⟨d, j, k, hw, -⟩ := hs.links v w hlink
        exact hs.length ▸ hf.known _ hw
      have hsmall : ∀ block ∈ f.blocks, ∀ u ∈ block.uses, u.2 < st.subst.length := by
        intro block hblock u hu
        obtain ⟨b, hb, rfl⟩ := List.getElem_of_mem hblock
        have hget : f.block b = f.blocks[b] := by
          rw [Function.block, List.getElem?_eq_getElem hb]
          rfl
        rw [hs.length]
        exact hf.small b u (hget ▸ hu)
      rw [if_pos rfl, resolve_eq hlt hs.ends, ok_bind, rewriteUses, if_pos hsmall]
      refine ⟨_, rfl, .inr ⟨use st.subst, rfl, fun v => ?_⟩⟩
      exact (use_eq st.subst v).imp_right (hend.merged hf)

/-- The value a merge leads to is defined before the other, in the same block. -/
theorem Merged.sites (hf : f.Loose) {v w : ValueId} (h : Merged f v w) :
    ∃ d j k, (⟨w, d, some j⟩ : Site) ∈ f.sites ∧ (⟨v, d, some k⟩ : Site) ∈ f.sites ∧ j < k := by
  obtain ⟨b, i, st, inst, a, ⟨hscan, hi, hr, -, hfound⟩, rfl⟩ := h
  have hb := Function.lt_of_inst hi
  have ha := (found_spec hfound).1
  obtain ⟨k, hk, hvalue⟩ := (hscan.scanned hf).value_site hb (mem_retained.mp ha).1
  exact ⟨b, k, i, hvalue, site_of_result hb hi hr, hk⟩

theorem Merged.definedAt (hf : f.WellFormed) {v w : ValueId} (h : Merged f v w) {pos : Nat}
    (hv : f.DefinedAt b pos v) : f.DefinedAt b pos w := by
  obtain ⟨d, j, k, hw, hvd, hlt⟩ := h.sites hf.loose
  intro done hwalk
  refine ⟨_, hw, rfl, ?_⟩
  obtain ⟨s, hs, hval, hbefore⟩ := hv done hwalk
  obtain rfl : s = ⟨v, d, some k⟩ := site_unique hf.single hs hvd hval
  rcases hbefore with hmem | ⟨hd, hpos⟩
  · exact .inl hmem
  · refine .inr ⟨hd, fun m hm => ?_⟩
    cases hm
    exact Nat.lt_trans hlt (hpos k rfl)

section Runs

variable {ν ω : Type} {R : Runtime ν ω} {s₀ s s' : Machine ν ω} {value : Op → Imm → List ν → ν}
variable {done : List BlockId}

/-- The computation is what the state has as its value. -/
def Available.Valid (value : Op → Imm → List ν → ν) (s : Machine ν ω) (a : Available) : Prop :=
  (a.isLoad = true → ∀ slot, a.imm = .slot slot → s.env a.value = s.frame slot) ∧
    (a.isLoad = false → s.env a.value = value a.op a.imm (a.args.map s.env))

/-- In a state of a run values that are merged, and not with the wrong zero, are
equal where they are available, and what the scan holds available is valid. -/
structure Agrees (value : Op → Imm → List ν → ν) (f : Function) (b : BlockId) (i : Nat)
    (s : Machine ν ω) : Prop where
  merged : ∀ v w, Merged f v w → ¬ Confused f v → f.Avail b i v → s.env w = s.env v
  avail : ∀ st, ScansTo f b i st → ∀ a ∈ st.avail, a.Valid value s

theorem ScansTo.fresh (h : ScansTo f b 0 st) : st.avail = [] := by
  cases h with
  | start => rfl
  | block => rfl

theorem isGuard_of_notMem (h : inst.op ∉ [Op.check, .tdzCheck, .guardType, .guardCallee]) :
    inst.isGuard = false := by
  unfold Inst.isGuard
  split
  · rename_i hop
    rw [hop] at h
    exact absurd List.mem_cons_self h
  · rename_i hop
    rw [hop] at h
    exact absurd (List.mem_cons_of_mem _ (List.mem_cons_of_mem _ List.mem_cons_self)) h
  · rename_i hop
    rw [hop] at h
    simp at h
  · rfl

/-- What an eligible instruction does in a state of a run. -/
theorem exec_eligible (hh : f.Honest R s₀ value) (hat : Function.At R f s₀ done b i s)
    (hi : (f.block b).insts[i]? = some inst) (he : eligible inst = true) :
    ∃ x, s.exec R inst = (true, s.assign inst.result.toList [x]) ∧
      (inst.op = .frameLoad → ∀ slot, inst.imm = .slot slot → x = s.frame slot) ∧
      (inst.op ≠ .frameLoad → x = value inst.op inst.imm (inst.args.map s.env)) := by
  simp only [eligible, decide_eq_true_eq] at he
  obtain ⟨hguard, hkind⟩ := he
  have hmem := List.mem_of_getElem? hi
  by_cases hload : inst.op = .frameLoad
  · obtain ⟨slot, himm⟩ := hh.access b inst hmem hload
    refine ⟨_, Machine.exec_load hload himm, ?_, fun hne => absurd hload hne⟩
    intro _ slot' hslot
    rw [himm] at hslot
    cases hslot
    rfl
  · have hpure := hkind.resolve_left hload
    obtain ⟨hcall, hargs⟩ := hh.pure_args hmem hpure hload
    have hquiet := hh.quiet done b i s inst hat hi hpure (isGuard_of_notMem hguard)
    refine ⟨_, Machine.exec_quiet hcall hquiet, fun h => absurd h hload, fun _ => ?_⟩
    rw [hargs]

theorem Available.Valid.exec (hv : a.Valid value s) {ok : Bool} (hexec : s.exec R inst = (ok, s'))
    (hvalue : inst.result ≠ some a.value) (hargs : ∀ x ∈ a.args, inst.result ≠ some x)
    (hframe : a.isLoad = true → s'.frame = s.frame) : a.Valid value s' := by
  have hsame := Machine.exec_env hexec hvalue
  refine ⟨fun hload slot himm => ?_, fun hload => ?_⟩
  · rw [hsame, hframe hload]
    exact hv.1 hload slot himm
  · have henv : a.args.map s'.env = a.args.map s.env :=
      List.map_congr_left fun x hx => Machine.exec_env hexec (hargs x hx)
    rw [hsame, henv]
    exact hv.2 hload

/-- No instruction of the position uses a confused value. -/
def CarefulAt (f : Function) (b : BlockId) (i : Nat) : Prop :=
  ∀ v, (i, v) ∈ (f.block b).uses → ¬ Confused f v

/-- No step of a run uses a confused value. -/
def Careful (R : Runtime ν ω) (f : Function) (s₀ : Machine ν ω) : Prop :=
  ∀ done b i s, Function.At R f s₀ done b i s → CarefulAt f b i

/-- Redirected arguments have the values of the arguments. -/
theorem Agrees.args (hf : f.Loose) (h : Agrees value f b i s) (hc : CarefulAt f b i)
    (hscan : ScansTo f b i st) (hi : (f.block b).insts[i]? = some inst) :
    (inst.args.map (use st.subst)).map s.env = inst.args.map s.env := by
  rw [List.map_map]
  refine List.map_congr_left fun v hv => ?_
  rcases use_eq st.subst v with huse | hlink
  · exact congrArg s.env huse
  · have huse : (i, v) ∈ (f.block b).uses := mem_uses.mpr (.inl ⟨inst, hi, hv⟩)
    exact h.merged v _ (hscan.merged hf hlink) (hc v huse) (hf.defined b _ huse)

/-- A merged instruction comes to the value of the computation it is merged with. -/
theorem Agrees.merge (hf : f.Loose) (hh : f.Honest R s₀ value) (hc : CarefulAt f b i)
    (hat : Function.At R f s₀ done b i s) (hexec : s.exec R inst = (true, s'))
    (h : Agrees value f b i s) (hmerge : Merge f v b i st inst a) (hv : ¬ Confused f v) :
    s'.env a.value = s'.env v := by
  obtain ⟨hscan, hi, hr, he, hfound⟩ := id hmerge
  obtain ⟨ha, hop, himm, hargs⟩ := found_spec hfound
  have hav := (mem_retained.mp ha).1
  obtain ⟨x, hrun, hload, hpure⟩ := exec_eligible hh hat hi he
  have hvalid := h.avail st hscan a hav
  obtain ⟨n, first, hn, hfirst, hfirstr, hfirstop, hfirstimm, hisload, -⟩ :=
    (hscan.scanned hf).avail a hav
  have himm' : a.imm = inst.imm :=
    Imm.eq_of_same himm fun hzeros => hv ⟨_, _, _, _, _, hmerge, hzeros⟩
  rw [Machine.exec_env hexec ((hscan.scanned hf).untouched hf hi hav).1]
  rw [hrun, hr] at hexec
  cases hexec
  have hx : ((s.assign (some v).toList [x]).env v : ν) = x := by
    rw [Option.toList_some, Machine.assign_single, Function.update_self]
  rw [hx]
  by_cases hfl : inst.op = .frameLoad
  · obtain ⟨slot, hslot⟩ := hh.access _ inst (List.mem_of_getElem? hi) hfl
    have hal : a.isLoad = true := by
      rw [hisload, hfirstop, hop, hfl]
      rfl
    rw [hload hfl slot hslot]
    exact hvalid.1 hal slot (himm'.trans hslot)
  · have hal : a.isLoad = false := by
      rw [hisload, hfirstop, hop]
      exact decide_eq_false hfl
    rw [hvalid.2 hal, hpure hfl, hargs, h.args hf hc hscan hi, hop, himm']

/-- A computation that becomes available is what the state has as its value. -/
theorem Agrees.push (hf : f.Loose) (hh : f.Honest R s₀ value) (hc : CarefulAt f b i)
    (hat : Function.At R f s₀ done b i s) (hi : (f.block b).insts[i]? = some inst)
    (hexec : s.exec R inst = (true, s')) (h : Agrees value f b i s) (hscan : ScansTo f b i st)
    (hr : inst.result = some v) (he : eligible inst = true) : Available.Valid value s'
      ⟨inst.op, inst.imm, inst.args.map (use st.subst), v, inst.op = .frameLoad⟩ := by
  obtain ⟨x, hrun, hload, hpure⟩ := exec_eligible hh hat hi he
  rw [hrun, hr] at hexec
  cases hexec
  have hx : ((s.assign (some v).toList [x]).env v : ν) = x := by
    rw [Option.toList_some, Machine.assign_single, Function.update_self]
  refine ⟨fun hfl slot hslot => ?_, fun hfl => ?_⟩
  · rw [hx]
    exact hload (of_decide_eq_true hfl) slot hslot
  · have hargs : (inst.args.map (use st.subst)).map (s.assign (some v).toList [x]).env =
        (inst.args.map (use st.subst)).map s.env := by
      refine List.map_congr_left fun y hy => ?_
      refine Machine.assign_env_of_notMem ?_
      rw [Option.toList_some, List.mem_singleton]
      rintro rfl
      obtain ⟨u, hu, rfl⟩ := List.mem_map.mp hy
      have huse := (hscan.scanned hf).avail_use hf
        (hf.defined b _ (mem_uses.mpr (.inl ⟨inst, hi, hu⟩)))
      exact Nat.lt_irrefl _
        (not_avail_self hf huse (site_of_result (Function.lt_of_inst hi) hi hr))
    dsimp only
    rw [hargs, hx, hpure (of_decide_eq_false hfl), h.args hf hc hscan hi]

/-- Only a merged instruction comes to the value of another; any other leaves
what is known of the values as it is. -/
theorem Agrees.exec (hf : f.Loose) (hh : f.Honest R s₀ value) (hc : CarefulAt f b i)
    (hat : Function.At R f s₀ done b i s) (hi : (f.block b).insts[i]? = some inst)
    (hexec : s.exec R inst = (true, s')) (h : Agrees value f b i s) :
    Agrees value f b (i + 1) s' := by
  have hb := Function.lt_of_inst hi
  refine ⟨fun v w hvw hv' hv => ?_, fun st' hscan' a ha => ?_⟩
  · by_cases hr : inst.result = some v
    · obtain ⟨c, m, st, inst', a, hmerge, rfl⟩ := hvw
      obtain ⟨-, hi', hr', -⟩ := id hmerge
      obtain ⟨hcb, hpos⟩ := site_eq hf (site_of_result (Function.lt_of_inst hi') hi' hr')
        (site_of_result hb hi hr)
      subst hcb
      cases hpos
      rw [hi] at hi'
      cases hi'
      exact h.merge hf hh hc hat hexec hmerge hv'
    · obtain ⟨d, j, k, hws, hvs, hlt⟩ := hvw.sites hf
      have hne : inst.result ≠ some w := by
        intro hrw
        obtain ⟨rfl, hpos⟩ := site_eq hf hws (site_of_result hb hi hrw)
        cases hpos
        exact Nat.lt_irrefl _ (Nat.lt_of_lt_of_le hlt
          (Nat.lt_succ_iff.mp (not_avail_self hf hv hvs)))
      have hbefore : f.Avail b i v := by
        refine hv.before fun inst' hi' => ?_
        rw [hi] at hi'
        cases hi'
        exact hr
      rw [Machine.exec_env hexec hne, Machine.exec_env hexec hr]
      exact h.merged v w hvw hv' hbefore
  · cases hscan' with
    | @inst _ _ st _ inst' hscan hi' hvisit =>
        rw [hi] at hi'
        cases hi'
        have hs := hscan.scanned hf
        obtain ⟨st'', hst'', hvisited⟩ := visit_spec hf hs hi
        rw [hvisit] at hst''
        cases hst''
        have hkept : ∀ a ∈ retained st.avail inst, a.Valid value s' := by
          intro a ha
          obtain ⟨hmem, hclobber⟩ := mem_retained.mp ha
          obtain ⟨hvalue, hargs⟩ := hs.untouched hf hi hmem
          refine (h.avail st hscan a hmem).exec hexec hvalue hargs fun hload => ?_
          exact Machine.exec_frame hexec
            (hh.slots b inst (List.mem_of_getElem? hi) (hclobber hload))
        cases hvisited with
        | keep => exact hkept a ha
        | merge => exact hkept a ha
        | @push r hr he =>
            rcases List.mem_append.mp ha with ha | ha
            · exact hkept a ha
            · obtain rfl := List.mem_singleton.mp ha
              exact h.push hf hh hc hat hi hexec hscan hr he

/-- Merged values are equal all along a careful run. -/
theorem agrees_at (hf : f.WellFormed) (hh : f.Honest R s₀ value) (hc : Careful R f s₀)
    (hat : Function.At R f s₀ done b i s) : Agrees value f b i s := by
  have hloose := hf.loose
  induction hat with
  | start =>
      refine ⟨fun v w hvw hv' hv => ?_, fun st hscan a ha => ?_⟩
      · obtain ⟨d, j, k, -, hvs, -⟩ := hvw.sites hloose
        rcases hv _ hvs rfl [] .root with hmem | ⟨-, hpos⟩
        · cases hmem
        · exact absurd (hpos k rfl) (Nat.not_lt_zero k)
      · rw [hscan.fresh] at ha
        cases ha
  | exec hat hi hexec ih => exact ih.exec hloose hh (hc _ _ _ _ hat) hat hi hexec
  | @edge done b target s values hat hleave ih =>
      obtain ⟨t, hterm, args, he, -⟩ := Term.leave_goto hleave
      have hedge := hloose.edge (hat.lt hloose) hterm he
      refine ⟨fun v w hvw hv' hv => ?_, fun st hscan a ha => ?_⟩
      · obtain ⟨d, j, k, hws, hvs, -⟩ := hvw.sites hloose
        have hparam : ∀ {u : ValueId} {m : Nat}, (⟨u, d, some m⟩ : Site) ∈ f.sites →
            u ∉ (f.block target).params := by
          intro u m hu hmem
          have hsite : (⟨u, target, none⟩ : Site) ∈ f.sites := mem_sites.mpr ⟨hedge.2.1, hmem⟩
          cases (site_eq hloose hu hsite).2
        rw [Machine.assign_env_of_notMem (hparam hws), Machine.assign_env_of_notMem (hparam hvs)]
        exact ih.merged v w hvw hv' (hv.across hedge (hparam hvs))
      · rw [hscan.fresh] at ha
        cases ha

end Runs

end Cse

namespace Cse

/-- Elimination gives a verified graph with the runs of the first, entry by entry. -/
def Preserves (f : Function) : Prop :=
  ∃ r, run f = .ok r ∧ verify r.2 = .ok () ∧
    ∀ (ν ω : Type) (R : Runtime ν ω) (s₀ : Machine ν ω) (value : Op → Imm → List ν → ν),
      f.Honest R s₀ value → ∀ fuel, r.2.runBlocks R fuel s₀ = f.runBlocks R fuel s₀

/-- Elimination returns a verified graph, which has the careful runs of the first. -/
theorem cse_preserves (f : Function) (hv : verify f = .ok ()) :
    ∃ r, run f = .ok r ∧ verify r.2 = .ok () ∧
      ∀ (ν ω : Type) (R : Runtime ν ω) (s₀ : Machine ν ω) (value : Op → Imm → List ν → ν),
        f.Honest R s₀ value → Careful R f s₀ → ∀ fuel,
          r.2.runBlocks R fuel s₀ = f.runBlocks R fuel s₀ := by
  have hf := (verify_ok_iff f).mp hv
  obtain ⟨r, hrun, hr⟩ := run_spec hf.loose
  refine ⟨r, hrun, ?_⟩
  rcases hr with hr | ⟨h, hr, hlink⟩
  · rw [hr]
    exact ⟨hv, fun _ _ _ _ _ _ _ _ => rfl⟩
  · rw [hr]
    refine ⟨(verify_ok_iff _).mpr (hf.mapUses fun b u hu done hw => ?_), ?_⟩
    · have hu' : f.DefinedAt b u.1 u.2 := fun done hw => hf.defined b done hw u hu
      rcases hlink u.2 with hsame | hmerged
      · rw [hsame]
        exact hu' done hw
      · exact hmerged.definedAt hf hu' done hw
    · intro ν ω R s₀ value hh hc fuel
      refine Function.mapUses_runFrom fuel ?_ .start
      intro done b i s hat v hu
      rcases hlink v with hsame | hmerged
      · exact congrArg s.env hsame
      · exact (agrees_at hf hh hc hat).merged v _ hmerged (hc _ _ _ _ hat v hu)
          (hf.loose.defined b _ hu)

/-- A block with both zeros, which returns the second. -/
def zeros : Function where
  blocks := [⟨[], [⟨.const, [], some 0, .number, Op.const.defaultEffects, .float .zero⟩,
    ⟨.const, [], some 1, .number, Op.const.defaultEffects, .float .negZero⟩], some (.ret (some 1))⟩]
  valueTypes := [.number, .number]
  entry_lt := Nat.zero_lt_one

/-- Every operation yields its own payload. -/
def payloads : Runtime Imm Unit where
  reads _ _ := []
  binds _ _ := []
  exec _ _ imm _ world := .next imm [] world
  truthy _ := true

theorem zeros_honest (s₀ : Machine Imm Unit) :
    zeros.Honest payloads s₀ fun _ imm _ => imm where
  access := by
    intro b inst hmem hop
    match b, hmem with
    | 0, hmem =>
        rcases List.mem_cons.mp hmem with rfl | hmem
        · cases hop
        · obtain rfl := List.mem_singleton.mp hmem
          cases hop
    | b + 1, hmem => cases hmem
  slots := by
    intro b inst hmem hclobber
    match b, hmem with
    | 0, hmem =>
        rcases List.mem_cons.mp hmem with rfl | hmem
        · rfl
        · obtain rfl := List.mem_singleton.mp hmem
          rfl
    | b + 1, hmem => cases hmem
  reads := by
    intro b inst hmem hpure
    match b, hmem with
    | 0, hmem =>
        rcases List.mem_cons.mp hmem with rfl | hmem
        · rfl
        · obtain rfl := List.mem_singleton.mp hmem
          rfl
    | b + 1, hmem => cases hmem
  quiet := fun _ _ _ _ _ _ _ _ _ => rfl

theorem zeros_merged : verify zeros = .ok () ∧ ¬ Preserves zeros := by
  refine ⟨by decide, ?_⟩
  rintro ⟨r, hrun, -, hsame⟩
  have hruns := hsame Imm Unit payloads ⟨fun _ => .none, fun _ => .none, ()⟩ _ (zeros_honest _) 1
  obtain rfl := Except.ok.inj hrun
  have hvalues := congrArg Prod.snd hruns
  cases hvalues

/-- A block that loads a slot twice. -/
def twice : Function where
  blocks := [⟨[], [⟨.const, [], some 0, .number, Op.const.defaultEffects, .float (.infinity false)⟩,
    ⟨.frameStore, [0], none, .never, Op.frameStore.defaultEffects, .slot 0⟩,
    ⟨.frameLoad, [], some 1, .unknown, Op.frameLoad.defaultEffects, .slot 0⟩,
    ⟨.frameLoad, [], some 2, .unknown, Op.frameLoad.defaultEffects, .slot 0⟩,
    ⟨.strictEq, [1, 2], some 3, .bool, Op.strictEq.defaultEffects, .none⟩], some (.ret (some 3))⟩]
  valueTypes := [.number, .unknown, .unknown, .bool]
  entry_lt := Nat.zero_lt_one

example : ∃ g, run twice = .ok (true, g) ∧ (g.block 0).insts[4]? =
    some ⟨.strictEq, [1, 1], some 3, .bool, Op.strictEq.defaultEffects, .none⟩ := ⟨_, rfl, rfl⟩

theorem twice_preserved : Preserves twice := by
  have hzeros : ∀ (b i : Nat) (inst : Inst), (twice.block b).insts[i]? = some inst →
      inst.imm ≠ .float .zero ∧ inst.imm ≠ .float .negZero := by
    intro b i inst hi
    cases b with
    | zero =>
        have hall : ∀ inst ∈ (twice.block 0).insts,
            inst.imm ≠ .float .zero ∧ inst.imm ≠ .float .negZero := by decide
        exact hall inst (List.mem_of_getElem? hi)
    | succ b => cases hi
  obtain ⟨r, hrun, hverify, hsame⟩ := cse_preserves twice (by decide)
  refine ⟨r, hrun, hverify, fun ν ω R s₀ value hh => hsame ν ω R s₀ value hh ?_⟩
  rintro done b i s - v - ⟨c, k, st, inst, a, hmerge, ⟨-, himm⟩ | ⟨-, himm⟩⟩
  · exact (hzeros c k inst hmerge.here).2 himm
  · exact (hzeros c k inst hmerge.here).1 himm

end Cse

end Slag.Jit
