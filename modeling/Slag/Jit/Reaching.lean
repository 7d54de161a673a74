import Slag.Jit.Mem2reg
import Slag.Jit.VerifyExact
import Slag.Lib.MustAnalysis

/-!
The dataflow of stores that promotion rests on: it ends with the least solution of its
equations, which is what every path has passed only where no cycle is in the way.
-/

namespace Slag.Jit.Mem2reg

open FlowGraph

section StoreReach

variable {f : Function} {slot : Nat} {r : Reach} {b : BlockId}

/-- Nothing changes at a block any more. -/
def Reach.SettledAt (f : Function) (slot : Nat) (r : Reach) (b : BlockId) : Prop :=
  r.into[b]? = some (reachInto f r.out b) ∧
    r.out[b]? = some (reachInto f r.out b || blockStores f b slot)

/-- The dataflow while it runs: it only ever claims what it could claim again. -/
structure Reach.Growing (f : Function) (slot : Nat) (r : Reach) : Prop where
  into : r.into.length = f.blockCount
  out : r.out.length = f.blockCount
  claims : ∀ b, r.out[b]?.getD false = true →
    (reachInto f r.out b || blockStores f b slot) = true

theorem reachInto_mono {out out' : List Bool}
    (h : ∀ p : Nat, out[p]?.getD false = true → out'[p]?.getD false = true)
    (hb : reachInto f out b = true) : reachInto f out' b = true := by
  unfold reachInto at hb ⊢
  split at hb
  · cases hb
  · rename_i hskip
    rw [if_neg hskip]
    rw [List.all_eq_true] at hb ⊢
    exact fun p hp => h p (hb p hp)

theorem Reach.growing_start (f : Function) (slot : Nat) : (Reach.start f).Growing f slot := by
  refine ⟨?_, ?_, ?_⟩
  · rw [Reach.start, List.length_set, List.length_replicate]
  · rw [Reach.start, List.length_replicate]
  · intro b hb
    simp only [Reach.start, List.getElem?_replicate] at hb
    split at hb <;> cases hb

theorem reachBlock_settled (h : r.SettledAt f slot b) (c : Bool) :
    reachBlock f slot (r, c) b = (r, c) := by
  simp only [reachBlock, h.1, h.2, ne_eq, not_true_eq_false, or_self, if_false]

theorem reachBlock_changed (h : ¬ r.SettledAt f slot b) (c : Bool) :
    reachBlock f slot (r, c) b = (⟨r.into.set b (reachInto f r.out b),
      r.out.set b (reachInto f r.out b || blockStores f b slot)⟩, true) := by
  refine if_pos ?_
  by_contra hsame
  simp only [ne_eq, not_or, not_not] at hsame
  exact h ⟨hsame.1.symm, hsame.2.symm⟩

/-- The claim at a block only ever grows. -/
theorem Reach.Growing.set (h : r.Growing f slot) (hb : b < f.blockCount) :
    Reach.Growing f slot ⟨r.into.set b (reachInto f r.out b),
      r.out.set b (reachInto f r.out b || blockStores f b slot)⟩ ∧
    (r.out[b]? = some (reachInto f r.out b || blockStores f b slot) ∨
      (r.out.set b (reachInto f r.out b || blockStores f b slot)).count false + 1 =
        r.out.count false) := by
  have hout : b < r.out.length := h.out ▸ hb
  have hgrow : ∀ p : Nat, r.out[p]?.getD false = true →
      (r.out.set b (reachInto f r.out b || blockStores f b slot))[p]?.getD false = true := by
    intro p hp
    rw [getD_set hout]
    split
    · rename_i hpb
      exact h.claims b (hpb ▸ hp)
    · exact hp
  have hmono : ∀ c, (reachInto f r.out c || blockStores f c slot) = true →
      (reachInto f (r.out.set b (reachInto f r.out b || blockStores f b slot)) c ||
        blockStores f c slot) = true := by
    intro c hc
    rw [Bool.or_eq_true] at hc ⊢
    exact hc.imp_left (reachInto_mono hgrow)
  refine ⟨⟨?_, ?_, ?_⟩, ?_⟩
  · rw [List.length_set, h.into]
  · rw [List.length_set, h.out]
  · intro c hc
    rw [getD_set hout] at hc
    split at hc
    · rename_i hcb
      exact hmono c (hcb ▸ hc)
    · exact hmono c (h.claims c hc)
  · cases hrout : reachInto f r.out b || blockStores f b slot with
    | false =>
        left
        cases hold : r.out[b]?.getD false with
        | true =>
            rw [h.claims b hold] at hrout
            cases hrout
        | false =>
            rw [List.getElem?_eq_getElem hout] at hold ⊢
            exact congrArg some hold
    | true =>
        cases hold : r.out[b]?.getD false with
        | true =>
            left
            rw [List.getElem?_eq_getElem hout] at hold ⊢
            exact congrArg some hold
        | false => exact .inr (count_false_set hout hold)

/-- A sweep over some blocks: if it changes no claim then it leaves the notes
about their entries as the claims have them. -/
theorem Reach.Growing.sweep (h : r.Growing f slot) {bs : List BlockId}
    (hbs : ∀ b ∈ bs, b < f.blockCount) (c : Bool) :
    (bs.foldl (reachBlock f slot) (r, c)).1.Growing f slot ∧
    (((bs.foldl (reachBlock f slot) (r, c)).1.out = r.out ∧
      (∀ b ∈ bs, (bs.foldl (reachBlock f slot) (r, c)).1.SettledAt f slot b) ∧
      ∀ b, r.into[b]? = some (reachInto f r.out b) →
        (bs.foldl (reachBlock f slot) (r, c)).1.into[b]? = some (reachInto f r.out b)) ∨
      (bs.foldl (reachBlock f slot) (r, c)).1.out.count false < r.out.count false) ∧
    (bs.foldl (reachBlock f slot) (r, c)).1.out.count false ≤ r.out.count false := by
  induction bs generalizing r c with
  | nil => exact ⟨h, .inl ⟨rfl, nofun, fun _ => id⟩, Nat.le_refl _⟩
  | cons b bs ih =>
      obtain ⟨hb, hbs⟩ := List.forall_mem_cons.mp hbs
      rw [List.foldl_cons]
      by_cases hset : r.SettledAt f slot b
      · rw [reachBlock_settled hset]
        obtain ⟨hgrow, hcases, hle⟩ := ih h hbs c
        refine ⟨hgrow, hcases.imp_left ?_, hle⟩
        rintro ⟨hout, hall, hkeep⟩
        refine ⟨hout, List.forall_mem_cons.mpr ⟨⟨?_, ?_⟩, hall⟩, hkeep⟩
        · rw [hout]
          exact hkeep b hset.1
        · rw [hout]
          exact hset.2
      · rw [reachBlock_changed hset]
        obtain ⟨hnext, hclaim⟩ := h.set hb
        obtain ⟨hgrow, hcases, hle⟩ := ih hnext hbs true
        rcases hclaim with hclaim | hclaim
        · have hsame : r.out.set b (reachInto f r.out b || blockStores f b slot) = r.out := by
            obtain ⟨hlt, hget⟩ := List.getElem?_eq_some_iff.mp hclaim
            rw [← hget]
            exact List.set_getElem_self hlt
          rw [hsame] at hgrow hcases hle ⊢
          refine ⟨hgrow, hcases.imp_left ?_, hle⟩
          rintro ⟨hout, hall, hkeep⟩
          have hinto : b < r.into.length := h.into ▸ hb
          have hnote := hkeep b (List.getElem?_set_self hinto)
          refine ⟨hout, List.forall_mem_cons.mpr ⟨⟨?_, ?_⟩, hall⟩, fun c hc => hkeep c ?_⟩
          · rw [hout]
            exact hnote
          · rw [hout]
            exact hclaim
          · rw [List.getElem?_set]
            split
            · rename_i hbc
              rw [hbc]
            · exact hc
        · dsimp only at hle hcases
          refine ⟨hgrow, .inr ?_, ?_⟩ <;> omega

theorem foldl_reachBlock_settled {bs : List BlockId} (h : ∀ b ∈ bs, r.SettledAt f slot b)
    (c : Bool) : bs.foldl (reachBlock f slot) (r, c) = (r, c) := by
  induction bs with
  | nil => rfl
  | cons b bs ih =>
      obtain ⟨hb, hbs⟩ := List.forall_mem_cons.mp h
      rw [List.foldl_cons, reachBlock_settled hb]
      exact ih hbs

theorem foldl_reachBlock_flag {bs : List BlockId} {c : Bool}
    (h : (bs.foldl (reachBlock f slot) (r, c)).2 = false) :
    c = false ∧ (bs.foldl (reachBlock f slot) (r, c)).1 = r ∧
      ∀ b ∈ bs, r.SettledAt f slot b := by
  induction bs generalizing r c with
  | nil => exact ⟨h, rfl, nofun⟩
  | cons b bs ih =>
      rw [List.foldl_cons] at h ⊢
      by_cases hset : r.SettledAt f slot b
      · rw [reachBlock_settled hset] at h ⊢
        obtain ⟨hc, hr, hall⟩ := ih h
        exact ⟨hc, hr, List.forall_mem_cons.mpr ⟨hset, hall⟩⟩
      · rw [reachBlock_changed hset] at h
        cases (ih h).1

/-- The block stores the slot. -/
abbrev Stores (f : Function) (slot : Nat) (b : BlockId) : Prop := blockStores f b slot = true

/-- A block is only claimed where the equations give it in finitely many steps. -/
def Reach.Founded (f : Function) (slot : Nat) (r : Reach) : Prop :=
  ∀ b : Nat, r.out[b]?.getD false = true →
    Stores f slot b ∨ FlowGraph.Founded f.entry f.Edge (Stores f slot) b

theorem Reach.Founded.reachInto (h : r.Founded f slot) (hb : reachInto f r.out b = true) :
    FlowGraph.Founded f.entry f.Edge (Stores f slot) b := by
  unfold Mem2reg.reachInto at hb
  split at hb
  · cases hb
  · rename_i hskip
    obtain ⟨hentry, hpreds⟩ := not_or.1 hskip
    obtain ⟨p, hp⟩ := List.exists_mem_of_ne_nil _ hpreds
    refine .mk hentry ⟨p, mem_predsOf.1 hp⟩ fun p e hstores => ?_
    exact (h p (List.all_eq_true.1 hb p (mem_predsOf.2 e))).resolve_left hstores

theorem Reach.Founded.set (h : r.Founded f slot) (b : BlockId) :
    Reach.Founded f slot ⟨r.into.set b (Mem2reg.reachInto f r.out b),
      r.out.set b (Mem2reg.reachInto f r.out b || blockStores f b slot)⟩ := by
  intro c hc
  by_cases hb : b < r.out.length
  · rw [getD_set hb] at hc
    split at hc
    · rename_i hcb
      rw [hcb]
      rcases Bool.or_eq_true_iff.1 hc with hinto | hstores
      · exact Or.inr (h.reachInto hinto)
      · exact Or.inl hstores
    · exact h c hc
  · rw [List.set_eq_of_length_le (Nat.not_lt.1 hb)] at hc
    exact h c hc

theorem Reach.Founded.sweep (h : r.Founded f slot) (bs : List BlockId) (c : Bool) :
    (bs.foldl (reachBlock f slot) (r, c)).1.Founded f slot := by
  induction bs generalizing r c with
  | nil => exact h
  | cons b bs ih =>
      rw [List.foldl_cons]
      by_cases hset : r.SettledAt f slot b
      · rw [reachBlock_settled hset]
        exact ih h c
      · rw [reachBlock_changed hset]
        exact ih (h.set b) true

theorem reachLoop_ends {fuel : Nat} (h : r.Growing f slot) (hfounded : r.Founded f slot)
    (hfuel : 2 * r.out.count false + 1 < fuel) :
    ∃ r' : Reach, reachLoop f slot fuel r = .ok r'.into ∧ r'.Growing f slot ∧
      r'.Founded f slot ∧ ∀ b < f.blockCount, r'.SettledAt f slot b := by
  induction hc : r.out.count false using Nat.strong_induction_on generalizing r fuel with
  | _ count ih =>
      have hrange : ∀ b ∈ List.range f.blockCount, b < f.blockCount :=
        fun b hb => List.mem_range.mp hb
      obtain ⟨fuel, rfl⟩ : ∃ k, fuel = k + 1 := ⟨fuel - 1, by omega⟩
      obtain ⟨hgrow, hcases, -⟩ := h.sweep hrange false
      rw [reachLoop]
      cases hflag : ((List.range f.blockCount).foldl (reachBlock f slot) (r, false)).2 with
      | false =>
          obtain ⟨-, hsame, hall⟩ := foldl_reachBlock_flag hflag
          refine ⟨r, ?_, h, hfounded, fun b hb => hall b (List.mem_range.mpr hb)⟩
          simp only [Bool.false_eq_true, if_false, hsame]
      | true =>
          simp only [if_true]
          rcases hcases with ⟨-, hall, -⟩ | hlt
          · -- no claim changed, so the next sweep changes nothing at all
            obtain ⟨fuel, rfl⟩ : ∃ k, fuel = k + 1 := ⟨fuel - 1, by omega⟩
            refine ⟨_, ?_, hgrow, hfounded.sweep _ _, fun b hb => hall b (List.mem_range.mpr hb)⟩
            rw [reachLoop, foldl_reachBlock_settled hall]
            rfl
          · exact ih _ (hc ▸ hlt) hgrow (hfounded.sweep _ _) (by omega) rfl

/-- The dataflow ends with the least solution of its equations. -/
theorem storeReach_least (f : Function) (slot : Nat) : ∃ into, storeReach f slot = .ok into ∧
    ∀ b : Nat, into[b]?.getD false = true ↔
      FlowGraph.Founded f.entry f.Edge (Stores f slot) b := by
  have hcount : (Reach.start f).out.count false ≤ f.blockCount := by
    have := @List.count_le_length _ _ false (Reach.start f).out
    rwa [(Reach.growing_start f slot).out] at this
  have hstart : (Reach.start f).Founded f slot := by
    intro b hb
    simp only [Reach.start, List.getElem?_replicate] at hb
    split at hb <;> cases hb
  obtain ⟨r, hr, hgrow, hfounded, hall⟩ :=
    @reachLoop_ends f slot _ (2 * f.blockCount + 3) (Reach.growing_start f slot) hstart (by omega)
  refine ⟨r.into, hr, fun b => ⟨fun hb => ?_, fun hb => ?_⟩⟩
  · have hlt : b < f.blockCount := by
      rw [← hgrow.into]
      exact lt_of_getD hb
    rw [(hall b hlt).1, Option.getD_some] at hb
    exact hfounded.reachInto hb
  · induction hb with
    | @mk b hentry hpred _ ih =>
        obtain ⟨p, e⟩ := hpred
        have hskip : ¬(b = f.entry ∨ predecessors f b = []) := by
          rintro (h | h)
          · exact hentry h
          · exact List.ne_nil_of_mem (mem_predsOf.2 e) h
        rw [(hall b e.2.1).1, Option.getD_some, reachInto, if_neg hskip, List.all_eq_true]
        intro p hp
        have e := mem_predsOf.1 hp
        rw [(hall p e.1).2, Option.getD_some, Bool.or_eq_true]
        by_cases hstores : Stores f slot p
        · exact Or.inr hstores
        · have hinto := ih p e hstores
          rw [(hall p e.1).1, Option.getD_some] at hinto
          exact Or.inl hinto

/-- The dataflow tells the blocks that every path enters past a store just when no cycle without
stores has such a block. -/
theorem storeReach_exact_iff {f : Function} (hreach : ∀ b < f.blockCount, Reaches f.entry f.Edge b)
    (slot : Nat) : ∃ into, storeReach f slot = .ok into ∧
      ((∀ b < f.blockCount, into[b]?.getD false = true ↔
          Assigned f.entry f.Edge (Stores f slot) b) ↔
        ∀ c, Relation.TransGen (Quiet f.Edge (Stores f slot)) c c →
          ¬Assigned f.entry f.Edge (Stores f slot) c) := by
  obtain ⟨into, hinto, hleast⟩ := storeReach_least f slot
  refine ⟨into, hinto, ?_⟩
  simp only [hleast]
  exact founded_exact_iff (fun _ _ e => e.1) hreach

/-- A store of slot 0, then a loop that leaves it alone. -/
def storeThenLoop : Function where
  blocks := [⟨[], [⟨.frameStore, [0], none, .unknown, Op.frameStore.defaultEffects, .slot 0⟩],
    some (.jump 1 [])⟩, ⟨[], [], some (.branch 0 1 [] 2 [])⟩, ⟨[], [], some (.ret none)⟩]
  valueTypes := [.unknown]
  entry_lt := by decide

theorem storeThenLoop_reachable :
    ∀ b < storeThenLoop.blockCount, Reaches storeThenLoop.entry storeThenLoop.Edge b := by
  have henter : storeThenLoop.Edge 0 1 := ⟨by decide, by decide, by decide⟩
  have hleave : storeThenLoop.Edge 1 2 := ⟨by decide, by decide, by decide⟩
  intro b hb
  match b, hb with
  | 0, _ => exact ⟨[], .root⟩
  | 1, _ => exact ⟨_, Walk.root.step henter⟩
  | 2, _ => exact ⟨_, (Walk.root.step henter).step hleave⟩

theorem storeReach_exact_iff_loop :
    (∀ b < storeThenLoop.blockCount, Reaches storeThenLoop.entry storeThenLoop.Edge b) ∧
    ∃ into, storeReach storeThenLoop 1 = .ok into ∧
      ((∀ b < storeThenLoop.blockCount, into[b]?.getD false = true ↔
          Assigned storeThenLoop.entry storeThenLoop.Edge (Stores storeThenLoop 1) b) ↔
        ∀ c, Relation.TransGen (Quiet storeThenLoop.Edge (Stores storeThenLoop 1)) c c →
          ¬Assigned storeThenLoop.entry storeThenLoop.Edge (Stores storeThenLoop 1) c) :=
  ⟨storeThenLoop_reachable, storeReach_exact_iff storeThenLoop_reachable 1⟩

/-- The loop is entered past the store only, and the dataflow does not say so. -/
theorem storeReach_inexact : ¬∀ (f : Function) (slot : Nat),
    (∀ b < f.blockCount, Reaches f.entry f.Edge b) → ∃ into, storeReach f slot = .ok into ∧
      ∀ b < f.blockCount, into[b]?.getD false = true ↔
        Assigned f.entry f.Edge (Stores f slot) b := by
  intro h
  obtain ⟨into, hinto, hexact⟩ := h storeThenLoop 0 storeThenLoop_reachable
  have hresult : storeReach storeThenLoop 0 = .ok [false, false, false] := by decide
  rw [hresult] at hinto
  cases hinto
  have hassigned : Assigned storeThenLoop.entry storeThenLoop.Edge (Stores storeThenLoop 0) 1 :=
    assigned_of_root (by decide) (by decide)
  have := (hexact 1 (by decide)).2 hassigned
  cases this

end StoreReach

end Slag.Jit.Mem2reg
