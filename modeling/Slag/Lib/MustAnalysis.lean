import Mathlib.Logic.Relation
import Slag.Lib.FlowGraph

/-!
What every walk from the root has passed, and its least fixpoint: the two differ where
nodes that pass nothing form a cycle.
-/

namespace Slag.FlowGraph

open Relation

section Must

variable {β : Type*} (root : β) (edge : β → β → Prop) (passes : β → Prop)

/-- Every walk to the node has left one that passes. -/
def Assigned (b : β) : Prop := ∀ done, Walk root edge done b → ∃ p ∈ done, passes p

/-- An edge from a node that does not pass. -/
def Quiet (p b : β) : Prop := edge p b ∧ ¬passes p

/-- The least solution of the equations over predecessors. -/
inductive Founded : β → Prop
  | mk {b : β} : b ≠ root → (∃ p, edge p b) → (∀ p, edge p b → ¬passes p → Founded p) → Founded b

end Must

variable {β : Type*} {root : β} {edge : β → β → Prop} {passes : β → Prop} {b c : β}

theorem Founded.assigned (h : Founded root edge passes b) : Assigned root edge passes b := by
  induction h with
  | @mk b hne _ _ ih =>
      intro done hw
      cases hw with
      | root => exact absurd rfl hne
      | @step done p b hw e =>
          by_cases hp : passes p
          · exact ⟨p, List.mem_cons_self, hp⟩
          · obtain ⟨q, hq, hpasses⟩ := ih p e hp done hw
            exact ⟨q, List.mem_cons_of_mem p hq, hpasses⟩

theorem Walk.root_mem {done : List β} (h : Walk root edge done b) : b = root ∨ root ∈ done := by
  induction h with
  | root => exact Or.inl rfl
  | step _ _ ih =>
      rcases ih with rfl | hroot
      · exact Or.inr List.mem_cons_self
      · exact Or.inr (List.mem_cons_of_mem _ hroot)

theorem assigned_of_root (h : passes root) (hb : b ≠ root) : Assigned root edge passes b := by
  intro done hw
  exact ⟨root, hw.root_mem.resolve_left hb, h⟩

/-- The least solution cannot go around a cycle. -/
theorem Founded.not_cycle (h : Founded root edge passes b) :
    ¬TransGen (Quiet edge passes) b b := by
  induction h with
  | @mk b _ _ _ ih =>
      intro hcycle
      obtain ⟨p, hpath, e, hp⟩ := TransGen.tail'_iff.1 hcycle
      exact ih p e hp (TransGen.head' ⟨e, hp⟩ hpath)

/-- A walk that passes nothing, continued by quiet edges. -/
theorem quiet_walk {done : List β} (hw : Walk root edge done c) (hdone : ∀ p ∈ done, ¬passes p)
    (h : ReflTransGen (Quiet edge passes) c b) :
    ∃ done, Walk root edge done b ∧ ∀ p ∈ done, ¬passes p := by
  induction h with
  | refl => exact ⟨done, hw, hdone⟩
  | tail _ hquiet ih =>
      obtain ⟨done, hw, hdone⟩ := ih
      exact ⟨_, hw.step hquiet.1, List.forall_mem_cons.2 ⟨hquiet.2, hdone⟩⟩

theorem Assigned.not_quiet (h : Assigned root edge passes b) :
    ¬ReflTransGen (Quiet edge passes) root b := by
  intro hquiet
  obtain ⟨done, hw, hdone⟩ := quiet_walk .root nofun hquiet
  obtain ⟨p, hp, hpasses⟩ := h done hw
  exact hdone p hp hpasses

/-- What leads quietly to an assigned node is assigned. -/
theorem Assigned.back (h : Assigned root edge passes b)
    (hquiet : ReflTransGen (Quiet edge passes) c b) : Assigned root edge passes c := by
  intro done hw
  by_contra hnone
  simp only [not_exists, not_and] at hnone
  obtain ⟨done', hw', hdone'⟩ := quiet_walk hw hnone hquiet
  obtain ⟨p, hp, hpasses⟩ := h done' hw'
  exact hdone' p hp hpasses

section Numbered

variable {n root : Nat} {R : Nat → Nat → Prop} {S : Nat → Prop}

theorem root_or_cycle_from (hbound : ∀ b, S b → b < n)
    (hback : ∀ b, S b → b = root ∨ ∃ p, S p ∧ R p b) {seen : List Nat} {b : Nat}
    (hnodup : seen.Nodup) (hseen : ∀ c ∈ seen, c < n ∧ TransGen R b c) (hb : S b) :
    ReflTransGen R root b ∨ ∃ c, TransGen R c c ∧ ReflTransGen R c b := by
  induction hk : n - seen.length using Nat.strong_induction_on generalizing seen b with
  | _ k ih =>
      by_cases hmem : b ∈ seen
      · exact Or.inr ⟨b, (hseen b hmem).2, .refl⟩
      · rcases hback b hb with rfl | ⟨p, hp, hpb⟩
        · exact Or.inl .refl
        · have hnodup' : (b :: seen).Nodup := List.nodup_cons.2 ⟨hmem, hnodup⟩
          have hlength : (b :: seen).length ≤ n := by
            have hsub : (b :: seen) ⊆ List.range n := by
              intro c hc
              apply List.mem_range.2
              rcases List.mem_cons.1 hc with rfl | hc
              · exact hbound c hb
              · exact (hseen c hc).1
            simpa using hnodup'.length_le_of_subset hsub
          have hstep := ih (n - (b :: seen).length) (by simp at hlength ⊢; omega) hnodup' ?_ hp rfl
          · rcases hstep with hroot | ⟨c, hcycle, hpath⟩
            · exact Or.inl (hroot.tail hpb)
            · exact Or.inr ⟨c, hcycle, hpath.tail hpb⟩
          · intro c hc
            rcases List.mem_cons.1 hc with rfl | hc
            · exact ⟨hbound c hb, .single hpb⟩
            · exact ⟨(hseen c hc).1, .head hpb (hseen c hc).2⟩

/-- Going back from a node one comes to the root, or around a cycle. -/
theorem root_or_cycle (hbound : ∀ b, S b → b < n)
    (hback : ∀ b, S b → b = root ∨ ∃ p, S p ∧ R p b) {b : Nat} (hb : S b) :
    ReflTransGen R root b ∨ ∃ c, TransGen R c c ∧ ReflTransGen R c b :=
  root_or_cycle_from hbound hback List.nodup_nil nofun hb

/-- The least solution is exact just when no quiet cycle is assigned. -/
theorem founded_exact_iff {edge : Nat → Nat → Prop} {passes : Nat → Prop}
    (hedge : ∀ p b, edge p b → p < n) (hreach : ∀ b < n, Reaches root edge b) :
    (∀ b < n, Founded root edge passes b ↔ Assigned root edge passes b) ↔
      ∀ c, TransGen (Quiet edge passes) c c → ¬Assigned root edge passes c := by
  constructor
  · intro hexact c hcycle hassigned
    obtain ⟨_, hquiet, -⟩ := TransGen.head'_iff.1 hcycle
    exact ((hexact c (hedge c _ hquiet.1)).2 hassigned).not_cycle hcycle
  · intro hcycles b hb
    refine ⟨Founded.assigned, fun hassigned => ?_⟩
    by_contra hnot
    have hback : ∀ b, b < n ∧ ¬Founded root edge passes b →
        b = root ∨ ∃ p, (p < n ∧ ¬Founded root edge passes p) ∧ Quiet edge passes p b := by
      rintro b ⟨hb, hnot⟩
      by_contra hnone
      simp only [not_or, not_exists, not_and] at hnone
      obtain ⟨hroot, hpreds⟩ := hnone
      obtain ⟨done, hw⟩ := hreach b hb
      have hpred : ∃ p, edge p b := by
        cases hw with
        | root => exact absurd rfl hroot
        | step _ e => exact ⟨_, e⟩
      refine hnot (.mk hroot hpred fun p e hp => ?_)
      by_contra hp'
      exact hpreds p ⟨hedge p b e, hp'⟩ ⟨e, hp⟩
    rcases root_or_cycle (fun b hb => hb.1) hback ⟨hb, hnot⟩ with hroot | ⟨c, hcycle, hpath⟩
    · exact hassigned.not_quiet hroot
    · exact hcycles c hcycle (hassigned.back hpath)

end Numbered

end Slag.FlowGraph
