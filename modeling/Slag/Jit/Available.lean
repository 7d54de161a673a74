import Slag.Jit.VerifyExact

/-!
Values that are there when control comes to a point, whatever way it took. A
`Loose` graph is what is left of a well-formed one when edges may pass more
arguments than their targets take, and when a use may name a value that is not
defined anywhere.
-/

namespace Slag.Jit

open FlowGraph

/-- The block defines the value there. -/
def Block.Defines (block : Block) (v : ValueId) : Option Nat → Prop
  | none => v ∈ block.params
  | some i => ∃ inst, block.insts[i]? = some inst ∧ inst.result = some v

theorem mem_sites {f : Function} {s : Site} :
    s ∈ f.sites ↔ s.block < f.blockCount ∧ (f.block s.block).Defines s.value s.pos := by
  obtain ⟨v, b, pos⟩ := s
  have hblock : ∀ block, f.blocks[b]? = some block ↔ b < f.blockCount ∧ f.block b = block := by
    intro block
    rw [List.getElem?_eq_some_iff, Function.block]
    constructor
    · rintro ⟨hb, hget⟩
      exact ⟨hb, by rw [List.getElem?_eq_getElem hb]; exact hget⟩
    · rintro ⟨hb, hget⟩
      have hb' : b < f.blocks.length := hb
      rw [List.getElem?_eq_getElem hb'] at hget
      exact ⟨hb', hget⟩
  have hin : ∀ (block : Block) (c : BlockId), (⟨v, b, pos⟩ : Site) ∈ block.sites c ↔
      c = b ∧ block.Defines v pos := by
    intro block c
    simp only [Block.sites, List.mem_append, List.mem_map, List.mem_filterMap, instSite,
      Option.map_eq_some_iff, Prod.exists, List.mk_mem_zipIdx_iff_getElem?, Site.mk.injEq]
    constructor
    · rintro (⟨p, hp, rfl, rfl, rfl⟩ | ⟨inst, i, hi, r, hr, rfl, rfl, rfl⟩)
      · exact ⟨rfl, hp⟩
      · exact ⟨rfl, inst, hi, hr⟩
    · rintro ⟨rfl, hdef⟩
      cases pos with
      | none => exact .inl ⟨v, hdef, rfl, rfl, rfl⟩
      | some i =>
          obtain ⟨inst, hi, hr⟩ := hdef
          exact .inr ⟨inst, i, hi, v, hr, rfl, rfl, rfl⟩
  simp only [Function.sites, List.mem_flatMap, Prod.exists, List.mk_mem_zipIdx_iff_getElem?, hin]
  constructor
  · rintro ⟨block, c, hget, rfl, hdef⟩
    obtain ⟨hb, rfl⟩ := (hblock block).mp hget
    exact ⟨hb, hdef⟩
  · rintro ⟨hb, hdef⟩
    exact ⟨f.block b, b, (hblock _).mpr ⟨hb, rfl⟩, rfl, hdef⟩

theorem mem_uses {block : Block} {pos : Nat} {v : ValueId} : (pos, v) ∈ block.uses ↔
    (∃ inst, block.insts[pos]? = some inst ∧ v ∈ inst.args) ∨
      pos = block.insts.length ∧ ∃ term, block.term = some term ∧ v ∈ term.uses := by
  simp only [Block.uses, List.mem_append, List.mem_flatMap, List.mem_map, Prod.mk.injEq,
    Prod.exists, List.mk_mem_zipIdx_iff_getElem?]
  refine or_congr ?_ ?_
  · constructor
    · rintro ⟨inst, i, hi, a, ha, rfl, rfl⟩
      exact ⟨inst, hi, ha⟩
    · rintro ⟨inst, hi, hv⟩
      exact ⟨inst, pos, hi, v, hv, rfl, rfl⟩
  · cases block.term with
    | none => simp
    | some term => simp [and_comm, eq_comm]

namespace Function

/-- Every definition of the value comes before the point on every walk to it. -/
def Avail (f : Function) (b : BlockId) (pos : Nat) (v : ValueId) : Prop :=
  ∀ s ∈ f.sites, s.value = v → ∀ done, f.Walk done b → s.Before done b pos

structure Loose (f : Function) : Prop where
  entry : (f.block f.entry).params = []
  single : (f.sites.map Site.value).Nodup
  terminated : ∀ b < f.blockCount, (f.block b).term ≠ none
  reachable : ∀ b < f.blockCount, Reaches f.entry f.Edge b
  edges : ∀ b < f.blockCount, ∀ term, (f.block b).term = some term → ∀ e ∈ term.edges,
    e.1 < f.blockCount ∧ (f.block e.1).params.length ≤ e.2.length
  defined : ∀ b, ∀ u ∈ (f.block b).uses, f.Avail b u.1 u.2
  known : ∀ s ∈ f.sites, s.value < f.valueCount
  small : ∀ b, ∀ u ∈ (f.block b).uses, u.2 < f.valueCount

variable {f : Function} {b : BlockId} {pos : Nat} {v : ValueId}

theorem block_mem (hb : b < f.blockCount) : f.block b ∈ f.blocks := by
  have hb' : b < f.blocks.length := hb
  rw [Function.block, List.getElem?_eq_getElem hb', Option.getD_some]
  exact List.getElem_mem hb'

theorem lt_of_mem_uses {u : Nat × ValueId} (hu : u ∈ (f.block b).uses) : b < f.blockCount := by
  by_contra hb
  have hnone : f.blocks[b]? = none := List.getElem?_eq_none (Nat.not_lt.mp hb)
  rw [Function.block, hnone] at hu
  cases hu

theorem WellFormed.loose (h : f.WellFormed) : f.Loose where
  entry := h.entry
  single := h.single
  terminated b hb := h.terminated _ (block_mem hb)
  reachable := h.reachable
  edges b hb term hterm e he := by
    obtain ⟨hlt, hlen⟩ := h.edges _ (block_mem hb) term hterm e he
    exact ⟨hlt, Nat.le_of_eq hlen.symm⟩
  defined b u hu s hs hv done hw := by
    obtain ⟨t, ht, htv, hbefore⟩ := h.defined b done hw u hu
    have hst : s = t := site_unique h.single hs ht (hv.trans htv.symm)
    rw [hst]
    exact hbefore
  known := h.known
  small b u hu := by
    obtain ⟨done, hw⟩ := h.reachable b (lt_of_mem_uses hu)
    obtain ⟨t, ht, htv, -⟩ := h.defined b done hw u hu
    exact htv ▸ h.known t ht

end Function

theorem Site.Before.mono {s : Site} {done : List BlockId} {b : BlockId} {i j : Nat}
    (h : s.Before done b i) (hij : i ≤ j) : s.Before done b j := by
  rcases h with h | ⟨hb, h⟩
  · exact .inl h
  · exact .inr ⟨hb, fun k hk => Nat.lt_of_lt_of_le (h k hk) hij⟩

namespace Function

variable {f : Function} {b d : BlockId} {i j : Nat} {v : ValueId}

/-- What is available at a point is available at every point after it. -/
theorem Avail.later (h : f.Avail d i v)
    (hd : ∀ done, f.Walk done b → d ∈ done ∨ d = b ∧ i ≤ j) : f.Avail b j v := by
  intro s hs hv done hw
  rcases hd done hw with hmem | ⟨rfl, hij⟩
  · obtain ⟨earlier, hw', -, hsub⟩ := hw.before hmem
    rcases h s hs hv earlier hw' with hb | ⟨hb, -⟩
    · exact .inl (hsub hb)
    · exact .inl (hb ▸ hmem)
  · exact (h s hs hv done hw).mono hij

/-- Before an instruction that does not define it. -/
theorem Avail.before (h : f.Avail b (i + 1) v)
    (hne : ∀ inst, (f.block b).insts[i]? = some inst → inst.result ≠ some v) : f.Avail b i v := by
  intro s hs hv done hw
  rcases h s hs hv done hw with hmem | ⟨rfl, hpos⟩
  · exact .inl hmem
  · refine .inr ⟨rfl, fun k hk => ?_⟩
    have hle := Nat.lt_succ_iff.mp (hpos k hk)
    refine Nat.lt_of_le_of_ne hle ?_
    rintro rfl
    have hdef := (mem_sites.mp hs).2
    rw [hk, hv] at hdef
    obtain ⟨inst, hi, hr⟩ := hdef
    exact hne inst hi hr

/-- Before an edge into a block that does not have it as a parameter. -/
theorem Avail.across {c : BlockId} (h : f.Avail c 0 v) (he : f.Edge b c)
    (hne : v ∉ (f.block c).params) : f.Avail b (f.block b).insts.length v := by
  intro s hs hv done hw
  rcases h s hs hv (b :: done) (.step hw he) with hmem | ⟨hc, hpos⟩
  · rcases List.mem_cons.mp hmem with heq | hmem
    · refine .inr ⟨heq, fun k hk => ?_⟩
      have hdef := (mem_sites.mp hs).2
      rw [hk, heq] at hdef
      obtain ⟨inst, hi, -⟩ := hdef
      exact (List.getElem?_eq_some_iff.mp hi).1
    · exact .inl hmem
  · have hdef := (mem_sites.mp hs).2
    rw [hc, hv] at hdef
    cases hp : s.pos with
    | none =>
        rw [hp] at hdef
        exact absurd hdef hne
    | some k => exact absurd (hpos k hp) (Nat.not_lt_zero k)

/-- Two definitions cannot each be available where the other one is made; `t`
is an instruction's. -/
theorem Avail.acyclic {s t : Site} (hs : s ∈ f.sites) (ht : t ∈ f.sites)
    (htpos : t.pos = some j) (hreach : Reaches f.entry f.Edge s.block)
    (hst : f.Avail t.block j s.value) (hts : f.Avail s.block (s.pos.getD 0) t.value) : False := by
  obtain ⟨done, hw⟩ := hreach
  obtain ⟨fresh, hw, hfresh, -⟩ := hw.first
  rcases hts t ht rfl fresh hw with hmem | ⟨hb, hlt⟩
  · obtain ⟨earlier, hw', -, hsub⟩ := hw.before hmem
    rcases hst s hs rfl earlier hw' with hs' | ⟨hs', -⟩
    · exact hfresh (hsub hs')
    · exact hfresh (hs' ▸ hmem)
  · have hj := hlt j htpos
    rw [hb] at hst
    rcases hst s hs rfl fresh hw with hs' | ⟨-, hs'⟩
    · exact hfresh hs'
    · cases hp : s.pos with
      | none =>
          rw [hp, Option.getD_none] at hj
          exact Nat.not_lt_zero j hj
      | some i =>
          rw [hp, Option.getD_some] at hj
          exact Nat.lt_asymm hj (hs' i hp)

end Function

section Sites

variable {f : Function} {b : BlockId} {i : Nat} {inst : Inst}

/-- The values defined by instructions are told apart by where. -/
theorem site_eq (hf : f.Loose) {v : ValueId} {c d : BlockId} {j k : Option Nat}
    (h : (⟨v, c, j⟩ : Site) ∈ f.sites) (h' : (⟨v, d, k⟩ : Site) ∈ f.sites) : c = d ∧ j = k := by
  have heq := site_unique hf.single h h' rfl
  exact ⟨congrArg Site.block heq, congrArg Site.pos heq⟩

theorem site_of_result (hb : b < f.blockCount) (hi : (f.block b).insts[i]? = some inst)
    {r : ValueId} (hr : inst.result = some r) : (⟨r, b, some i⟩ : Site) ∈ f.sites :=
  mem_sites.mpr ⟨hb, inst, hi, hr⟩

/-- A value available at a position is not one that is defined there or after. -/
theorem not_avail_self (hf : f.Loose) {v : ValueId} {k : Nat} (h : f.Avail b i v)
    (hs : (⟨v, b, some k⟩ : Site) ∈ f.sites) : k < i := by
  obtain ⟨done, hw⟩ := hf.reachable b (mem_sites.mp hs).1
  obtain ⟨fresh, hw, hnot, -⟩ := hw.first
  rcases h _ hs rfl fresh hw with hmem | ⟨-, hpos⟩
  · exact absurd hmem hnot
  · exact hpos k rfl

/-- Where a value is available its operands are. -/
theorem Function.Avail.operand (hf : f.Loose) {v a : ValueId} (h : f.Avail b i v) {d : BlockId}
    {k : Nat} (hk : (f.block d).insts[k]? = some inst) (hd : d < f.blockCount)
    (hv : inst.result = some v) (ha : a ∈ inst.args) : f.Avail b i a := by
  have huse : f.Avail d k a := hf.defined d _ (mem_uses.mpr (.inl ⟨inst, hk, ha⟩))
  refine huse.later fun done hw => ?_
  rcases h _ (site_of_result hd hk hv) rfl done hw with hmem | ⟨hdb, hlt⟩
  · exact .inl hmem
  · exact .inr ⟨hdb, Nat.le_of_lt (hlt k rfl)⟩

end Sites

end Slag.Jit
