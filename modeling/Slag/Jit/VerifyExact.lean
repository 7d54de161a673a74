import Slag.Jit.Verify

/-!
The verifier accepts exactly the well-formed graphs and always returns, as
long as the first pass does not look up the type of a result that is no value
of the function.
-/

namespace Slag.Jit

open FlowGraph

/-- The pass accepts, or refuses with an error of its own. -/
def Settles {α : Type} (r : Except Stop α) : Prop :=
  (∃ a, r = .ok a) ∨ ∃ e, r = .error (.refused e)

variable {α : Type} {defs : Defs} {f : Function} {dom : Table} {b : BlockId}

theorem Settles.ok {a : α} : Settles (.ok a) := .inl ⟨a, rfl⟩

theorem Settles.refused {e : Error} : Settles (.error (.refused e) : Except Stop α) :=
  .inr ⟨e, rfl⟩

theorem Settles.bind {α β : Type} {r : Except Stop α} {k : α → Except Stop β} (h : Settles r)
    (hk : ∀ a, r = .ok a → Settles (k a)) : Settles (r >>= k) := by
  rcases h with ⟨a, rfl⟩ | ⟨e, rfl⟩
  · exact hk a rfl
  · exact .refused

theorem bind_ok_iff {α β : Type} {r : Except Stop α} {k : α → Except Stop β} {b : β} :
    (r >>= k) = .ok b ↔ ∃ a, r = .ok a ∧ k a = .ok b := by
  cases r with
  | error e => simp [bind, Except.bind]
  | ok a => simp [bind, Except.bind]

theorem bind_unit_ok_iff {β : Type} {r : Except Stop Unit} {k : Unit → Except Stop β} {b : β} :
    (r >>= k) = .ok b ↔ r = .ok () ∧ k () = .ok b := by
  rw [bind_ok_iff]
  exact ⟨fun ⟨_, h⟩ => h, fun h => ⟨(), h⟩⟩

variable {g : α → Except Stop Unit} {s : Site} {block : Block}

theorem forM_ok_iff {l : List α} :
    l.forM g = .ok () ↔ ∀ a ∈ l, g a = .ok () := by
  induction l with
  | nil => simp [pure, Except.pure]
  | cons a l ih =>
      rw [show (a :: l).forM g = (g a >>= fun _ => l.forM g) from rfl, bind_unit_ok_iff,
        List.forall_mem_cons, ih]

theorem Settles.forM {l : List α} (h : ∀ a ∈ l, Settles (g a)) :
    Settles (l.forM g) := by
  induction l with
  | nil => exact .ok
  | cons a l ih =>
      rw [show (a :: l).forM g = (g a >>= fun _ => l.forM g) from rfl]
      refine (h a List.mem_cons_self).bind fun _ _ => ?_
      exact ih fun b hb => h b (List.mem_cons_of_mem _ hb)

/-- What a pass over the definitions has recorded. -/
structure Defs.Records (defs : Defs) (count : Nat) (sites : List Site) : Prop where
  blockLength : defs.block.length = count
  posLength : defs.pos.length = count
  defined : ∀ s ∈ sites,
    defs.block[s.value]? = some (some s.block) ∧ defs.pos[s.value]? = some s.pos
  undefined : ∀ v < count, v ∉ sites.map Site.value → defs.block[v]? = some .none

theorem Defs.records_none (count : Nat) : (Defs.none count).Records count [] := by
  refine ⟨by simp [Defs.none], by simp [Defs.none], by simp, ?_⟩
  intro v hv _
  simp [Defs.none, hv]

theorem Defs.Records.define {count : Nat} {sites : List Site} (h : defs.Records count sites)
    (v : ValueId) (b : BlockId) (pos : Option Nat) :
    (v < count ∧ v ∉ sites.map Site.value ∧
      ∃ defs', define defs v b pos = .ok defs' ∧ defs'.Records count (sites ++ [⟨v, b, pos⟩])) ∨
    (¬ (v < count ∧ v ∉ sites.map Site.value) ∧
      ∃ e, Jit.define defs v b pos = .error (.refused e)) := by
  by_cases hv : v < count
  · by_cases hmem : v ∈ sites.map Site.value
    · refine .inr ⟨fun hh => hh.2 hmem, .duplicateDefinition v, ?_⟩
      obtain ⟨s, hs, rfl⟩ := List.mem_map.mp hmem
      simp only [Jit.define, (h.defined s hs).1]
    · refine .inl ⟨hv, hmem, ⟨defs.block.set v (some b), defs.pos.set v pos⟩, ?_, ?_⟩
      · simp only [Jit.define, h.undefined v hv hmem]
      · refine ⟨by simp [h.blockLength], by simp [h.posLength], ?_, ?_⟩
        · intro s hs
          rcases List.mem_append.mp hs with hs | hs
          · have hne : v ≠ s.value := fun heq => hmem (heq ▸ List.mem_map_of_mem hs)
            rw [List.getElem?_set_ne hne, List.getElem?_set_ne hne]
            exact h.defined s hs
          · rw [List.mem_singleton.mp hs]
            simp [h.blockLength, h.posLength, hv]
        · intro w hw hnot
          simp only [List.map_append, List.mem_append, not_or, List.map_cons, List.map_nil,
            List.mem_singleton] at hnot
          rw [List.getElem?_set_ne (Ne.symm hnot.2)]
          exact h.undefined w hw hnot.1
  · refine .inr ⟨fun hh => hv hh.1, .valueOutOfRange v, ?_⟩
    simp only [Jit.define, List.getElem?_eq_none (h.blockLength ▸ Nat.le_of_not_lt hv)]

/-- The places the first pass visits, in its order. -/
inductive Visit
  | param (b : BlockId) (v : ValueId)
  | instruction (b : BlockId) (inst : Inst) (i : Nat)
  | terminator (b : BlockId) (term : Option Term)

namespace Visit

def site : Visit → Option Site
  | .param b v => some ⟨v, b, none⟩
  | .instruction b inst i => instSite b (inst, i)
  | .terminator _ _ => none

/-- The instruction's type is the table's, and the terminator is there. -/
def Sound (f : Function) : Visit → Prop
  | .param _ _ => True
  | .instruction _ inst _ => ∀ r, inst.result = some r → f.valueTypes[r]? = some inst.ty
  | .terminator _ term => term ≠ none

/-- An instruction whose result is no value of the function. -/
def Stray (f : Function) : Visit → Prop
  | .instruction _ inst _ => ∃ r, inst.result = some r ∧ f.valueCount ≤ r
  | .param _ _ | .terminator _ _ => False

def run (f : Function) (defs : Defs) : Visit → Except Stop Defs
  | .param b v => define defs v b none
  | .instruction b inst i => defineInst f b defs inst i
  | .terminator b term => terminated defs b term

end Visit

variable {v : Visit}

theorem Visit.not_stray (h : v.Sound f) : ¬ v.Stray f := by
  cases v with
  | param | terminator => exact id
  | instruction b inst i =>
      rintro ⟨r, hr, hge⟩
      have hlt : r < f.valueCount := (List.getElem?_eq_some_iff.mp (h r hr)).1
      exact absurd hge (Nat.not_le.mpr hlt)

def Block.visits (block : Block) (b : BlockId) : List Visit :=
  block.params.map (.param b) ++ block.insts.zipIdx.map (fun e => .instruction b e.1 e.2) ++
    [.terminator b block.term]

namespace Function

def visits (f : Function) : List Visit := f.blocks.zipIdx.flatMap fun e => e.1.visits e.2

/-- No violation among these places. -/
structure Clean (f : Function) (vs : List Visit) : Prop where
  sound : ∀ v ∈ vs, v.Sound f
  known : ∀ s ∈ vs.filterMap Visit.site, s.value < f.valueCount
  single : ((vs.filterMap Visit.site).map Site.value).Nodup

/-- The first violation the first pass comes to is an instruction whose result
is no value of the function. -/
def StraysFirst (f : Function) : Prop :=
  (f.block f.entry).params = [] ∧
    ∃ before v after, f.visits = before ++ v :: after ∧ v.Stray f ∧ f.Clean before

theorem Clean.before {vs ws : List Visit} (h : f.Clean (vs ++ ws)) :
    f.Clean vs := by
  refine ⟨fun v hv => h.sound v (List.mem_append_left _ hv), fun s hs => ?_, ?_⟩
  · refine h.known s ?_
    rw [List.filterMap_append]
    exact List.mem_append_left _ hs
  · have := h.single
    rw [List.filterMap_append, List.map_append] at this
    exact this.of_append_left

end Function

theorem foldlM_visits (f : Function) (defs : Defs) (block : Block) (b : BlockId) :
    (block.visits b).foldlM (Visit.run f) defs = defineBlock f defs block b := by
  simp only [Block.visits, List.foldlM_append, List.foldlM_map, List.foldlM_cons, List.foldlM_nil,
    bind_pure, defineBlock, bind_assoc, Visit.run]

theorem definitions_eq (f : Function) :
    definitions f = f.visits.foldlM (Visit.run f) (Defs.none f.valueCount) := by
  simp only [definitions, Function.visits]
  generalize Defs.none f.valueCount = defs
  induction f.blocks.zipIdx generalizing defs with
  | nil => rfl
  | cons e es ih =>
      simp only [List.foldlM_cons, List.flatMap_cons, List.foldlM_append, foldlM_visits, ih]

variable {before : List Visit}

theorem Function.clean_snoc (hc : f.Clean before) :
    f.Clean (before ++ [v]) ↔ v.Sound f ∧ ∀ s, v.site = some s →
      s.value < f.valueCount ∧ s.value ∉ (before.filterMap Visit.site).map Site.value := by
  have hsites : (before ++ [v]).filterMap Visit.site =
      before.filterMap Visit.site ++ v.site.toList := by
    rw [List.filterMap_append]
    cases hs : v.site <;> simp [hs]
  constructor
  · intro h
    refine ⟨h.sound v (by simp), fun s hs => ⟨h.known s ?_, ?_⟩⟩
    · rw [hsites, hs]
      simp
    · have hnodup := h.single
      rw [hsites, hs, List.map_append, List.nodup_append] at hnodup
      intro hmem
      exact hnodup.2.2 _ hmem _ (by simp) rfl
  · rintro ⟨hsound, hsite⟩
    refine ⟨?_, ?_, ?_⟩
    · intro w hw
      rcases List.mem_append.mp hw with hw | hw
      · exact hc.sound w hw
      · exact List.mem_singleton.mp hw ▸ hsound
    · intro s hs
      rw [hsites, List.mem_append, Option.mem_toList] at hs
      rcases hs with hs | hs
      · exact hc.known s hs
      · exact (hsite s hs).1
    · rw [hsites, List.map_append, List.nodup_append]
      refine ⟨hc.single, ?_, ?_⟩
      · cases v.site <;> simp
      · intro w hw w' hw' heq
        obtain ⟨s, hs, rfl⟩ := List.mem_map.mp hw'
        exact (hsite s (Option.mem_toList.mp hs)).2 (heq ▸ hw)

/-- A visit that only defines its site. -/
theorem visit_define {w : Visit} (h : defs.Records f.valueCount (before.filterMap Visit.site))
    (hc : f.Clean before) (hsite : w.site = some s) (hsound : w.Sound f) :
    (∃ defs', define defs s.value s.block s.pos = .ok defs' ∧
      defs'.Records f.valueCount ((before ++ [w]).filterMap Visit.site) ∧
      f.Clean (before ++ [w])) ∨
    (∃ e, define defs s.value s.block s.pos = .error (.refused e)) ∧ ¬ f.Clean (before ++ [w]) := by
  have hmap : (before ++ [w]).filterMap Visit.site = before.filterMap Visit.site ++ [s] := by
    simp [hsite]
  rcases h.define s.value s.block s.pos with ⟨hlt, hnew, defs', heq, hrec⟩ | ⟨hbad, hrefused⟩
  · refine .inl ⟨defs', heq, hmap ▸ hrec, (Function.clean_snoc hc).mpr ⟨hsound, ?_⟩⟩
    intro s' hs'
    rw [hsite, Option.some.injEq] at hs'
    exact hs' ▸ ⟨hlt, hnew⟩
  · refine .inr ⟨hrefused, fun hclean => hbad ?_⟩
    exact ((Function.clean_snoc hc).mp hclean).2 s hsite

/-- One visit: recorded, or a panic at a stray result, or a refusal. -/
theorem visit_spec (v : Visit) (h : defs.Records f.valueCount (before.filterMap Visit.site))
    (hc : f.Clean before) :
    (∃ defs', v.run f defs = .ok defs' ∧
      defs'.Records f.valueCount ((before ++ [v]).filterMap Visit.site) ∧
      f.Clean (before ++ [v])) ∨
    (v.run f defs = .error .panicked ∧ v.Stray f) ∨
    (∃ e, v.run f defs = .error (.refused e)) ∧ ¬ v.Stray f ∧ ¬ f.Clean (before ++ [v]) := by
  cases v with
  | param b v =>
      rcases visit_define h hc (w := .param b v) rfl trivial with hok | ⟨hrefused, hbad⟩
      · exact .inl hok
      · exact .inr (.inr ⟨hrefused, id, hbad⟩)
  | terminator b term =>
      cases term with
      | none =>
          refine .inr (.inr ⟨⟨_, rfl⟩, id, fun hclean => ?_⟩)
          exact ((Function.clean_snoc hc).mp hclean).1 rfl
      | some term =>
          have hsite : (Visit.terminator b (some term)).site = none := rfl
          refine .inl ⟨defs, rfl, by simpa [hsite] using h, ?_⟩
          exact (Function.clean_snoc hc).mpr ⟨nofun, nofun⟩
  | instruction b inst i =>
      cases hr : inst.result with
      | none =>
          have hsite : (Visit.instruction b inst i).site = none := by
            simp [Visit.site, instSite, hr]
          refine .inl ⟨defs, by simp [Visit.run, defineInst, hr], ?_, ?_⟩
          · simpa [hsite] using h
          · refine (Function.clean_snoc hc).mpr ⟨fun r h => by simp [hr] at h, fun s hs => ?_⟩
            rw [hsite] at hs
            cases hs
      | some r =>
          have hsite : (Visit.instruction b inst i).site = some ⟨r, b, some i⟩ := by
            simp [Visit.site, instSite, hr]
          cases ht : f.valueTypes[r]? with
          | none =>
              refine .inr (.inl ⟨by simp [Visit.run, defineInst, hr, ht], r, hr, ?_⟩)
              simpa [Function.valueCount] using ht
          | some table =>
              have hlt : r < f.valueCount := (List.getElem?_eq_some_iff.mp ht).1
              have hstray : ¬ (Visit.instruction b inst i).Stray f := by
                rintro ⟨r', hr', hge⟩
                rw [hr, Option.some.injEq] at hr'
                exact absurd hge (Nat.not_le.mpr (hr' ▸ hlt))
              by_cases hty : inst.ty = table
              · have hrun : (Visit.instruction b inst i).run f defs =
                    define defs r b (some i) := by
                  simp [Visit.run, defineInst, hr, ht, hty]
                have hsound : (Visit.instruction b inst i).Sound f := by
                  intro r' hr'
                  rw [hr, Option.some.injEq] at hr'
                  rw [← hr', ht, hty]
                rw [hrun]
                rcases visit_define h hc hsite hsound with hok | ⟨hrefused, hbad⟩
                · exact .inl hok
                · exact .inr (.inr ⟨hrefused, hstray, hbad⟩)
              · refine .inr (.inr ⟨⟨.typeMismatch r inst.ty table, ?_⟩, hstray, fun hclean => ?_⟩)
                · simp [Visit.run, defineInst, hr, ht, hty]
                · have := ((Function.clean_snoc hc).mp hclean).1 r hr
                  rw [ht, Option.some.injEq] at this
                  exact hty this.symm

/-- Some place of the list is a stray result, with nothing wrong before it. -/
def Function.StrayWithin (f : Function) (before vs : List Visit) : Prop :=
  ∃ mid v after, vs = mid ++ v :: after ∧ v.Stray f ∧ f.Clean (before ++ mid)

theorem visits_spec (vs : List Visit) (h : defs.Records f.valueCount (before.filterMap Visit.site))
    (hc : f.Clean before) :
    (∃ defs', vs.foldlM (Visit.run f) defs = .ok defs' ∧
      defs'.Records f.valueCount ((before ++ vs).filterMap Visit.site) ∧
      f.Clean (before ++ vs)) ∨
    (vs.foldlM (Visit.run f) defs = .error .panicked ∧ f.StrayWithin before vs) ∨
    (∃ e, vs.foldlM (Visit.run f) defs = .error (.refused e)) ∧ ¬ f.StrayWithin before vs ∧
      ¬ f.Clean (before ++ vs) := by
  induction vs generalizing defs before with
  | nil => exact .inl ⟨defs, rfl, by simpa using h, by simpa using hc⟩
  | cons v vs ih =>
      have happ : before ++ v :: vs = before ++ [v] ++ vs := by simp
      rw [List.foldlM_cons, happ]
      rcases visit_spec v h hc with ⟨defs', hrun, hrec, hclean⟩ | ⟨hrun, hstray⟩ |
        ⟨⟨e, hrun⟩, hstray, hbad⟩
      · rw [hrun]
        rcases ih hrec hclean with hok | ⟨hpanic, mid, w, after, hsplit, hw, hmid⟩ |
          ⟨hrefused, hno, hbad⟩
        · exact .inl hok
        · refine .inr (.inl ⟨hpanic, v :: mid, w, after, by rw [hsplit]; rfl, hw, ?_⟩)
          simpa using hmid
        · refine .inr (.inr ⟨hrefused, ?_, hbad⟩)
          rintro ⟨mid, w, after, hsplit, hw, hmid⟩
          cases mid with
          | nil =>
              -- the next place itself would be stray, but it was recorded
              obtain ⟨rfl, -⟩ := List.cons.inj hsplit
              exact Visit.not_stray ((Function.clean_snoc hc).mp hclean).1 hw
          | cons u mid =>
              obtain ⟨rfl, hrest⟩ := List.cons.inj hsplit
              exact hno ⟨mid, w, after, hrest, hw, by simpa using hmid⟩
      · rw [hrun]
        exact .inr (.inl ⟨rfl, [], v, vs, rfl, hstray, by simpa using hc⟩)
      · rw [hrun]
        refine .inr (.inr ⟨⟨e, rfl⟩, ?_, fun hclean => hbad hclean.before⟩)
        rintro ⟨mid, w, after, hsplit, hw, hmid⟩
        cases mid with
        | nil => exact hstray ((List.cons.inj hsplit).1 ▸ hw)
        | cons u mid =>
            obtain ⟨rfl, -⟩ := List.cons.inj hsplit
            have hlong : f.Clean (before ++ [v] ++ mid) := by simpa using hmid
            exact hbad hlong.before

theorem sites_eq (f : Function) : f.visits.filterMap Visit.site = f.sites := by
  simp only [Function.visits, Function.sites, List.filterMap_flatMap]
  congr 1
  funext e
  simp only [Block.visits, Block.sites, List.filterMap_append, List.filterMap_map]
  have hterm : [Visit.terminator e.2 e.1.term].filterMap Visit.site = [] := rfl
  have hparam : Visit.site ∘ Visit.param e.2 = some ∘ fun v => (⟨v, e.2, none⟩ : Site) := rfl
  rw [hterm, List.append_nil, hparam, List.filterMap_eq_map]
  rfl

theorem mem_visits :
    v ∈ f.visits ↔ ∃ (b : BlockId) (block : Block), f.blocks[b]? = some block ∧
      v ∈ block.visits b := by
  simp only [Function.visits, List.mem_flatMap, Prod.exists, List.mem_zipIdx_iff_getElem?]
  exact ⟨fun ⟨block, b, h⟩ => ⟨b, block, h⟩, fun ⟨b, block, h⟩ => ⟨block, b, h⟩⟩

/-- The first pass looks for exactly these violations. -/
theorem clean_visits_iff (f : Function) : f.Clean f.visits ↔
    (f.sites.map Site.value).Nodup ∧ (∀ s ∈ f.sites, s.value < f.valueCount) ∧
    (∀ block ∈ f.blocks, ∀ inst ∈ block.insts, ∀ r, inst.result = some r →
      f.valueTypes[r]? = some inst.ty) ∧ ∀ block ∈ f.blocks, block.term ≠ none := by
  constructor
  · intro h
    refine ⟨sites_eq f ▸ h.single, sites_eq f ▸ h.known, ?_, ?_⟩
    · intro block hblock inst hinst
      obtain ⟨b, hb⟩ := List.mem_iff_getElem?.mp hblock
      obtain ⟨i, hi⟩ := List.mem_iff_getElem?.mp hinst
      refine h.sound (.instruction b inst i) (mem_visits.mpr ⟨b, block, hb, ?_⟩)
      simp only [Block.visits, List.mem_append, List.mem_map]
      exact .inl (.inr ⟨(inst, i), List.mk_mem_zipIdx_iff_getElem?.mpr hi, rfl⟩)
    · intro block hblock
      obtain ⟨b, hb⟩ := List.mem_iff_getElem?.mp hblock
      exact h.sound (.terminator b block.term) (mem_visits.mpr ⟨b, block, hb, by
        simp [Block.visits]⟩)
  · rintro ⟨hsingle, hknown, htypes, hterm⟩
    refine ⟨fun v hv => ?_, (sites_eq f).symm ▸ hknown, (sites_eq f).symm ▸ hsingle⟩
    obtain ⟨b, block, hb, hmem⟩ := mem_visits.mp hv
    have hblock := List.mem_of_getElem? hb
    simp only [Block.visits, List.mem_append, List.mem_map, List.mem_singleton] at hmem
    rcases hmem with (⟨p, -, rfl⟩ | ⟨e, he, rfl⟩) | rfl
    · trivial
    · exact htypes block hblock e.1 (List.fst_mem_of_mem_zipIdx he)
    · exact hterm block hblock

theorem site_block_lt (h : s ∈ f.sites) : s.block < f.blockCount := by
  simp only [Function.sites, List.mem_flatMap, Prod.exists, List.mem_zipIdx_iff_getElem?] at h
  obtain ⟨block, b, hb, hs⟩ := h
  have heq : s.block = b := by
    simp only [Block.sites, List.mem_append, List.mem_map, List.mem_filterMap, instSite,
      Option.map_eq_some_iff] at hs
    rcases hs with ⟨p, -, rfl⟩ | ⟨e, -, r, -, rfl⟩ <;> rfl
  rw [heq]
  exact (List.getElem?_eq_some_iff.mp hb).1

theorem site_unique (h : (f.sites.map Site.value).Nodup) {s t : Site} (hs : s ∈ f.sites)
    (ht : t ∈ f.sites) (heq : s.value = t.value) : s = t :=
  List.inj_on_of_nodup_map h hs ht heq

/-- What the passes before the last have computed. -/
structure Function.Surveyed (f : Function) (defs : Defs) (dom : Table) : Prop where
  records : defs.Records f.valueCount f.sites
  single : (f.sites.map Site.value).Nodup
  reachable : ∀ b < f.blockCount, Reaches f.entry f.Edge b
  dominance : ∀ b d, b < f.blockCount → d < f.blockCount →
    (dom.holds b d = true ↔ Dominates f.entry f.Edge d b)

/-- The use of a value at a position is after its definition on every walk. -/
def Function.DefinedAt (f : Function) (b : BlockId) (pos : Nat) (v : ValueId) : Prop :=
  ∀ done, f.Walk done b → ∃ s ∈ f.sites, s.value = v ∧ s.Before done b pos

theorem checkUse_settles (defs : Defs) (dom : Table) (b : BlockId) (pos : Nat) (v : ValueId) :
    Settles (checkUse defs dom b pos v) := by
  unfold checkUse
  split
  · exact .refused
  · exact .refused
  · split
    · split
      · exact .ok
      · split
        · exact .ok
        · exact .refused
    · split
      · exact .ok
      · exact .refused

theorem Function.Surveyed.checkUse_recorded (h : f.Surveyed defs dom) (hs : s ∈ f.sites) (b : BlockId)
    (pos : Nat) :
    checkUse defs dom b pos s.value = .ok () ↔
      (s.block = b ∧ ∀ i, s.pos = some i → i < pos) ∨ s.block ≠ b ∧ dom.holds b s.block = true := by
  obtain ⟨hblock, hpos⟩ := h.records.defined s hs
  simp only [checkUse, hblock, hpos, Option.getD_some]
  by_cases hb : s.block = b
  · simp only [hb, if_true, true_and, ne_eq, not_true, false_and, or_false]
    cases s.pos with
    | none => simp
    | some i => simp
  · simp [hb]

theorem Function.Surveyed.checkUse_iff (h : f.Surveyed defs dom) (hb : b < f.blockCount) (pos : Nat)
    (v : ValueId) :
    checkUse defs dom b pos v = .ok () ↔ f.DefinedAt b pos v := by
  by_cases hv : ∃ s ∈ f.sites, s.value = v
  · obtain ⟨s, hs, rfl⟩ := hv
    rw [h.checkUse_recorded hs]
    constructor
    · rintro (⟨heq, hpos⟩ | ⟨hne, hdom⟩) done hw
      · exact ⟨s, hs, rfl, .inr ⟨heq, hpos⟩⟩
      · have hd := (h.dominance b s.block hb (site_block_lt hs)).mp hdom
        exact ⟨s, hs, rfl, .inl ((hd done hw).resolve_left hne)⟩
    · intro hdef
      have hbefore : ∀ done, f.Walk done b → s.Before done b pos := by
        intro done hw
        obtain ⟨t, ht, hval, hbef⟩ := hdef done hw
        exact site_unique h.single ht hs hval ▸ hbef
      by_cases heq : s.block = b
      · -- on a first visit the block itself is not behind the walk
        obtain ⟨done, hw⟩ := h.reachable b hb
        obtain ⟨fresh, hf, hnot, -⟩ := hw.first
        rcases hbefore fresh hf with hmem | hpos
        · exact absurd (heq ▸ hmem) hnot
        · exact .inl hpos
      · refine .inr ⟨heq, (h.dominance b s.block hb (site_block_lt hs)).mpr fun done hw => ?_⟩
        rcases hbefore done hw with hmem | hpos
        · exact .inr hmem
        · exact absurd hpos.1 heq
  · have hnot : v ∉ f.sites.map Site.value := by
      simpa only [List.mem_map] using hv
    constructor
    · intro hok
      by_cases hlt : v < f.valueCount
      · simp [checkUse, h.records.undefined v hlt hnot] at hok
      · have hnone : defs.block[v]? = none :=
          List.getElem?_eq_none (h.records.blockLength ▸ Nat.le_of_not_lt hlt)
        simp [checkUse, hnone] at hok
    · intro hdef
      obtain ⟨done, hw⟩ := h.reachable b hb
      obtain ⟨s, hs, hval, -⟩ := hdef done hw
      exact absurd ⟨s, hs, hval⟩ hv

theorem checkEdge_iff {source target : BlockId} {got : Nat} :
    checkEdge f source target got = .ok () ↔
      target < f.blockCount ∧ got = (f.block target).params.length := by
  unfold checkEdge
  split
  · simp only [reduceCtorEq, false_iff, not_and]
    intro hlt
    exact absurd hlt (Nat.not_lt.mpr ‹_›)
  · split
    · simp_all
    · simp_all

theorem checkEdge_settles (f : Function) (source target : BlockId) (got : Nat) :
    Settles (checkEdge f source target got) := by
  unfold checkEdge
  split
  · exact .refused
  · split
    · exact .refused
    · exact .ok

theorem checkUses_settles (defs : Defs) (dom : Table) (b : BlockId) (pos : Nat)
    (vs : List ValueId) : Settles (checkUses defs dom b pos vs) :=
  Settles.forM fun v _ => checkUse_settles defs dom b pos v

theorem checkTerm_settles (f : Function) (defs : Defs) (dom : Table) (b : BlockId) (pos : Nat)
    (term : Term) : Settles (checkTerm f defs dom b pos (some term)) := by
  cases term with
  | jump target args =>
      exact (checkEdge_settles ..).bind fun _ _ => checkUses_settles ..
  | branch cond thenBlock thenArgs elseBlock elseArgs =>
      refine (checkUse_settles ..).bind fun _ _ => (checkEdge_settles ..).bind fun _ _ => ?_
      refine (checkEdge_settles ..).bind fun _ _ => (checkUses_settles ..).bind fun _ _ => ?_
      exact checkUses_settles ..
  | ret value =>
      cases value with
      | none => exact .ok
      | some v => exact checkUse_settles ..
  | throw v => exact checkUse_settles ..
  | unreachable => exact .ok

theorem checkBlock_settles (f : Function) (defs : Defs) (dom : Table) (b : BlockId)
    (h : block.term ≠ none) : Settles (checkBlock f defs dom block b) := by
  refine (Settles.forM fun e _ => checkUses_settles ..).bind fun _ _ => ?_
  obtain ⟨term, hterm⟩ := Option.ne_none_iff_exists'.mp h
  rw [hterm]
  exact checkTerm_settles ..

namespace Function.Surveyed

variable {f : Function} {defs : Defs} {dom : Table}

theorem checkUses_iff (h : f.Surveyed defs dom) (hb : b < f.blockCount) (pos : Nat) (vs : List ValueId) :
    checkUses defs dom b pos vs = .ok () ↔ ∀ v ∈ vs, f.DefinedAt b pos v := by
  rw [checkUses, forM_ok_iff]
  exact forall₂_congr fun v _ => h.checkUse_iff hb pos v

theorem checkTerm_iff (h : f.Surveyed defs dom) (hb : b < f.blockCount) (pos : Nat) (term : Term) :
    checkTerm f defs dom b pos (some term) = .ok () ↔
      (∀ e ∈ term.edges, e.1 < f.blockCount ∧ e.2.length = (f.block e.1).params.length) ∧
      ∀ v ∈ term.uses, f.DefinedAt b pos v := by
  cases term with
  | jump target args =>
      simp [checkTerm, bind_unit_ok_iff, checkEdge_iff, h.checkUses_iff hb, Term.edges, Term.uses]
  | branch cond thenBlock thenArgs elseBlock elseArgs =>
      simp only [checkTerm, bind_unit_ok_iff, checkEdge_iff, h.checkUses_iff hb, h.checkUse_iff hb,
        Term.edges, Term.uses, List.mem_cons, List.not_mem_nil, or_false, forall_eq,
        List.mem_append, or_imp, forall_and]
      tauto
  | ret value =>
      cases value with
      | none => simp [checkTerm, Term.edges, Term.uses]
      | some v => simp [checkTerm, h.checkUse_iff hb, Term.edges, Term.uses]
  | throw v => simp [checkTerm, h.checkUse_iff hb, Term.edges, Term.uses]
  | unreachable => simp [checkTerm, Term.edges, Term.uses]

theorem checkBlock_iff (h : f.Surveyed defs dom) (hb : b < f.blockCount) {term : Term}
    (hterm : block.term = some term) :
    checkBlock f defs dom block b = .ok () ↔
      (∀ e ∈ term.edges, e.1 < f.blockCount ∧ e.2.length = (f.block e.1).params.length) ∧
      ∀ u ∈ block.uses, f.DefinedAt b u.1 u.2 := by
  rw [checkBlock, bind_unit_ok_iff, forM_ok_iff, hterm, h.checkTerm_iff hb]
  simp only [h.checkUses_iff hb, Block.uses, hterm, Option.elim_some]
  constructor
  · rintro ⟨hinsts, hedges, huses⟩
    refine ⟨hedges, fun u hu => ?_⟩
    rcases List.mem_append.mp hu with hu | hu
    · obtain ⟨e, he, hu⟩ := List.mem_flatMap.mp hu
      obtain ⟨v, hv, rfl⟩ := List.mem_map.mp hu
      exact hinsts e he v hv
    · obtain ⟨v, hv, rfl⟩ := List.mem_map.mp hu
      exact huses v hv
  · rintro ⟨hedges, huses⟩
    refine ⟨fun e he v hv => ?_, hedges, fun v hv => ?_⟩
    · refine huses (e.2, v) (List.mem_append_left _ (List.mem_flatMap.mpr ⟨e, he, ?_⟩))
      exact List.mem_map_of_mem hv
    · exact huses (block.insts.length, v) (List.mem_append_right _ (List.mem_map_of_mem hv))

end Function.Surveyed

theorem reachability_spec (f : Function) : Settles (reachability f) ∧
    (reachability f = .ok () ↔ ∀ b < f.blockCount, Reaches f.entry f.Edge b) := by
  have hentry : f.entry < f.blockCount := f.entry_lt
  obtain ⟨marks, heq, hlen, hmem⟩ := @reachableFrom_spec f.successors f.blockCount f.entry hentry
  have hreach : ∀ b < f.blockCount, marks[b]? = some true ↔ Reaches f.entry f.Edge b := by
    intro b hb
    rw [← hmem b, List.getElem?_eq_getElem (hlen.symm ▸ hb), Option.getD_some, Option.some.injEq]
  cases hfind : marks.findIdx? fun ok => !ok with
  | some b =>
      simp only [reachability, heq, hfind, reduceCtorEq, false_iff]
      refine ⟨.refused, ?_⟩
      obtain ⟨hlt, hb, -⟩ := List.findIdx?_eq_some_iff_getElem.mp hfind
      intro hall
      have htrue := (hreach b (hlen ▸ hlt)).mpr (hall b (hlen ▸ hlt))
      rw [List.getElem?_eq_getElem hlt, Option.some.injEq] at htrue
      simp [htrue] at hb
  | none =>
      simp only [reachability, heq, hfind, true_iff]
      refine ⟨.ok, ?_⟩
      intro b hb
      rw [← hreach b hb, List.getElem?_eq_getElem (hlen.symm ▸ hb), Option.some.injEq]
      have := List.findIdx?_eq_none_iff.mp hfind marks[b] (List.getElem_mem _)
      simpa using this

theorem dominators_spec (f : Function) : ∃ dom, dominators f = .ok dom ∧
    ∀ b d, b < f.blockCount → d < f.blockCount →
      (dom.holds b d = true ↔ Dominates f.entry f.Edge d b) := by
  have hedge : (fun p c => p ∈ predsOf f.successors f.blockCount c) = f.Edge := by
    funext p c
    exact propext mem_predsOf
  have hbound : ∀ b, ∀ p ∈ predsOf f.successors f.blockCount b,
      p < f.blockCount ∧ b < f.blockCount :=
    fun b p hp => ⟨(mem_predsOf.mp hp).1, (mem_predsOf.mp hp).2.1⟩
  have hentry : f.entry < f.blockCount := f.entry_lt
  obtain ⟨dom, heq, hdom⟩ := dominatorTable_spec hbound hentry
  rw [hedge] at hdom
  exact ⟨dom, by rw [dominators, heq], hdom⟩

/-- The last pass accepts exactly the graphs with matching edges and every use
after its definition. -/
theorem Function.Surveyed.checkBlocks_iff (h : f.Surveyed defs dom)
    (hterm : ∀ block ∈ f.blocks, block.term ≠ none) :
    (f.blocks.zipIdx.forM fun e => checkBlock f defs dom e.1 e.2) = .ok () ↔
      (∀ block ∈ f.blocks, ∀ term, block.term = some term → ∀ e ∈ term.edges,
        e.1 < f.blockCount ∧ e.2.length = (f.block e.1).params.length) ∧
      ∀ b done, f.Walk done b → ∀ u ∈ (f.block b).uses,
        ∃ s ∈ f.sites, s.value = u.2 ∧ s.Before done b u.1 := by
  have hblock : ∀ {b : BlockId} {block : Block}, f.blocks[b]? = some block →
      f.block b = block := by
    intro b block hb
    rw [Function.block, hb, Option.getD_some]
  have hlt : ∀ {b : BlockId} {block : Block}, f.blocks[b]? = some block → b < f.blockCount :=
    fun hb => (List.getElem?_eq_some_iff.mp hb).1
  rw [forM_ok_iff]
  constructor
  · intro hall
    have hok : ∀ (b : BlockId) (block : Block), f.blocks[b]? = some block →
        ∀ term, block.term = some term → _ := fun b block hb term ht =>
      (h.checkBlock_iff (hlt hb) ht).mp (hall (block, b) (List.mk_mem_zipIdx_iff_getElem?.mpr hb))
    constructor
    · intro block hmem term ht
      obtain ⟨b, hb⟩ := List.mem_iff_getElem?.mp hmem
      exact (hok b block hb term ht).1
    · intro b done hw u hu
      have hb : f.blocks[b]? = some (f.block b) := by
        cases hget : f.blocks[b]? with
        | some block => rw [hblock hget]
        | none =>
            rw [Function.block, hget] at hu
            cases hu
      obtain ⟨term, ht⟩ := Option.ne_none_iff_exists'.mp (hterm _ (List.mem_of_getElem? hb))
      exact (hok b _ hb term ht).2 u hu done hw
  · rintro ⟨hedges, huses⟩ ⟨block, b⟩ hmem
    have hb : f.blocks[b]? = some block := List.mk_mem_zipIdx_iff_getElem?.mp hmem
    obtain ⟨term, ht⟩ := Option.ne_none_iff_exists'.mp (hterm block (List.mem_of_getElem? hb))
    refine (h.checkBlock_iff (hlt hb) ht).mpr ⟨hedges block (List.mem_of_getElem? hb) term ht, ?_⟩
    intro u hu done hw
    exact huses b done hw u (hblock hb ▸ hu)

/-- The verifier returns, and accepts exactly the well-formed graphs. -/
def Function.VerifiesExactly (f : Function) : Prop :=
  Settles (verify f) ∧ (verify f = .ok () ↔ f.WellFormed)

theorem verify_eq (h : (f.block f.entry).params = []) :
    verify f = (definitions f >>= fun defs => reachability f >>= fun _ => dominators f >>= fun dom =>
      f.blocks.zipIdx.forM fun e => checkBlock f defs dom e.1 e.2) := by
  rw [verify, if_neg (not_not.mpr h)]

theorem verifiesExactly_of_clean (hentry : (f.block f.entry).params = [])
    (hdefs : definitions f = .ok defs) (hrec : defs.Records f.valueCount f.sites)
    (hclean : f.Clean f.visits) :
    f.VerifiesExactly := by
  obtain ⟨hsingle, hknown, htypes, hterm⟩ := (clean_visits_iff f).mp hclean
  obtain ⟨dom, hdom, hspec⟩ := dominators_spec f
  obtain ⟨hset, hreach⟩ := reachability_spec f
  rw [Function.VerifiesExactly, verify_eq hentry, hdefs]
  simp only [hdom, bind, Except.bind]
  constructor
  · refine hset.bind fun _ _ => Settles.forM fun e he => ?_
    exact checkBlock_settles _ _ _ _ (hterm _ (List.fst_mem_of_mem_zipIdx he))
  · constructor
    · intro hok
      obtain ⟨hr, hchecks⟩ := bind_unit_ok_iff.mp hok
      have hsurvey : f.Surveyed defs dom := ⟨hrec, hsingle, hreach.mp hr, hspec⟩
      obtain ⟨hedges, huses⟩ := (hsurvey.checkBlocks_iff hterm).mp hchecks
      exact ⟨hentry, hsingle, hknown, htypes, hterm, hreach.mp hr, hedges, huses⟩
    · intro hwf
      have hsurvey : f.Surveyed defs dom := ⟨hrec, hsingle, hwf.reachable, hspec⟩
      exact bind_unit_ok_iff.mpr ⟨hreach.mpr hwf.reachable,
        (hsurvey.checkBlocks_iff hterm).mpr ⟨hwf.edges, hwf.defined⟩⟩

theorem Function.WellFormed.clean (h : f.WellFormed) : f.Clean f.visits :=
  (clean_visits_iff f).mpr ⟨h.single, h.known, h.types, h.terminated⟩

theorem Function.Clean.not_straysFirst (h : f.Clean f.visits) :
    ¬ f.StraysFirst := by
  rintro ⟨-, before, v, after, hsplit, hv, -⟩
  have hmem : v ∈ f.visits := hsplit ▸ List.mem_append_right _ List.mem_cons_self
  exact Visit.not_stray (h.sound v hmem) hv

/-- Either the first pass panics at a stray result, or the verifier is exact. -/
theorem verify_cases (f : Function) :
    (f.StraysFirst ∧ verify f = .error .panicked) ∨ (¬ f.StraysFirst ∧ f.VerifiesExactly) := by
  by_cases hentry : (f.block f.entry).params = []
  · have hstart : f.Clean [] := ⟨by simp, by simp, by simp⟩
    have hwithin : f.StraysFirst ↔ f.StrayWithin [] f.visits := by
      simp only [Function.StraysFirst, Function.StrayWithin, hentry, true_and, List.nil_append]
    have hnone : (Defs.none f.valueCount).Records f.valueCount ([].filterMap Visit.site) :=
      Defs.records_none f.valueCount
    rcases visits_spec f.visits hnone hstart with
      ⟨defs, hrun, hrec, hclean⟩ | ⟨hrun, hstray⟩ | ⟨⟨e, hrun⟩, hstray, hbad⟩
    all_goals rw [← definitions_eq] at hrun
    · refine .inr ⟨hclean.not_straysFirst, verifiesExactly_of_clean hentry hrun ?_ hclean⟩
      rw [← sites_eq]
      exact hrec
    · refine .inl ⟨hwithin.mpr hstray, ?_⟩
      rw [verify_eq hentry, hrun]
      rfl
    · refine .inr ⟨fun h => hstray (hwithin.mp h), ?_, ?_⟩
      · rw [verify_eq hentry, hrun]
        exact .refused
      · rw [verify_eq hentry, hrun]
        exact iff_of_false nofun fun hwf => hbad hwf.clean
  · have hverify : verify f = .error (.refused (.entryHasParams (f.block f.entry).params.length)) := by
      rw [verify, if_pos hentry]
      rfl
    refine .inr ⟨fun h => hentry h.1, hverify ▸ .refused, ?_⟩
    rw [hverify]
    exact iff_of_false nofun fun hwf => hentry hwf.entry

theorem verify_ok_iff (f : Function) : verify f = .ok () ↔ f.WellFormed := by
  rcases verify_cases f with ⟨hstray, hpanic⟩ | ⟨-, -, hexact⟩
  · rw [hpanic]
    exact iff_of_false nofun fun hwf => hwf.clean.not_straysFirst hstray
  · exact hexact

/-- The verifier is exact and total unless the first violation it comes to is
a result that is no value of the function. -/
theorem verifiesExactly_iff (f : Function) : f.VerifiesExactly ↔ ¬ f.StraysFirst := by
  rcases verify_cases f with ⟨hstray, hpanic⟩ | ⟨hno, hexact⟩
  · refine iff_of_false ?_ (not_not.mpr hstray)
    rintro ⟨hsettles, -⟩
    rw [hpanic] at hsettles
    rcases hsettles with ⟨_, h⟩ | ⟨_, h⟩ <;> cases h
  · exact iff_of_true hexact hno

/-- One block that returns a constant whose id was never allocated. -/
def strayResult : Function where
  blocks := [⟨[], [⟨.const, [], some 0, .int, .pure, .int 1⟩], some (.ret (some 0))⟩]
  valueTypes := []
  entry_lt := by decide

theorem strayResult_not_verifiesExactly : ¬ strayResult.VerifiesExactly := by
  rintro ⟨hsettles, -⟩
  have hpanic : verify strayResult = .error .panicked := rfl
  rw [hpanic] at hsettles
  rcases hsettles with ⟨_, h⟩ | ⟨_, h⟩ <;> cases h

end Slag.Jit
