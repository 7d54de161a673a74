import Slag.Lib.Returns
import Slag.Wasm.Places

/-!
The store while an instance is made: what its constant expressions, segments and
declarations refer to is a place that was there, or the instance itself.
-/

namespace Slag.Wasm.Linking

open World (ExternVal InstantiateError)
open Slag.Answer (forall₂_exists_of_mem)

/-! ## Constant expressions -/

variable {instr : Instr}

section Consts

variable {Good : Place → Prop} {rt : Runtime} {m : Module} {self : Nat} {globals : List Value}

theorem okVal_num (v : NumValue) : OkVal Good v.value := by
  cases v <;> nofun

variable {ty : StorageType} {r : RefValue}

theorem wrapCell_ok {v cell : Value} (h : wrapCell ty v = .ok cell) (hv : OkVal Good v) :
    OkVal Good cell := by
  unfold wrapCell at h
  split at h <;> cases h
  · nofun
  · nofun
  · exact hv

theorem defaultStorage_ok {cell : Value} (h : defaultStorage ty = .ok cell) :
    OkVal Good cell := by
  unfold defaultStorage at h
  split at h
  all_goals first | (cases h; nofun) | skip
  split at h <;> cases h
  nofun

theorem popCells_ok {types : List StorageType} {cells stack cells' stack' : List Value}
    (h : popCells types cells stack = .ok (cells', stack')) (hcells : ∀ v ∈ cells, OkVal Good v)
    (hstack : ∀ v ∈ stack, OkVal Good v) :
    (∀ v ∈ cells', OkVal Good v) ∧ ∀ v ∈ stack', OkVal Good v := by
  induction types generalizing cells stack with
  | nil =>
      cases h
      exact ⟨hcells, hstack⟩
  | cons ty types ih =>
      cases stack with
      | nil => cases h
      | cons v stack =>
          obtain ⟨cell, hcell, h⟩ := bind_eq_ok.mp h
          have hv := List.forall_mem_cons.mp hstack
          exact ih h (List.forall_mem_cons.mpr ⟨wrapCell_ok hcell hv.1, hcells⟩) hv.2

theorem popConstI32_ok {stack stack' : List Value} {v : BitVec 32}
    (h : popConstI32 stack = .ok (v, stack')) (hstack : ∀ v ∈ stack, OkVal Good v) :
    ∀ v ∈ stack', OkVal Good v := by
  unfold popConstI32 at h
  split at h <;> cases h
  exact (List.forall_mem_cons.mp hstack).2

theorem unwrapExternal_ok (h : OkRef Good r) : OkRef Good (unwrapExternal r) := by
  unfold unwrapExternal
  split
  · nofun
  · nofun
  · exact h
  · exact h
  · exact h

theorem wrapExternal_ok {inner : ExternInner} (hinner : wrapExternal r = some inner) (h : OkRef Good r) :
    OkRef Good (.external inner) := by
  unfold wrapExternal at hinner
  split at hinner <;> cases hinner
  · nofun
  · nofun
  · exact h
  · exact h

theorem constStep_ok {stack stack' : List Value}
    (h : constStep rt self globals stack instr = .ok stack') (hstack : ∀ v ∈ stack, OkVal Good v)
    (hglobal : ∀ (index : Nat) v, instr = .globalGet index → globals[index]? = some v → OkVal Good v)
    (hfunc : ∀ index, instr = .refFunc index → Good (.inst self)) : ∀ v ∈ stack', OkVal Good v := by
  have hpush : ∀ {v : Value} {stack : List Value}, OkVal Good v → (∀ v ∈ stack, OkVal Good v) →
      ∀ w ∈ v :: stack, OkVal Good w :=
    fun hv hs => List.forall_mem_cons.mpr ⟨hv, hs⟩
  unfold constStep at h
  split at h
  · cases h
    exact hpush nofun hstack
  · cases h
    exact hpush nofun hstack
  · cases h
    exact hpush nofun hstack
  · cases h
    exact hpush nofun hstack
  · cases h
    exact hpush nofun hstack
  · split at h <;> cases h
    rename_i hv
    exact hpush (hglobal _ _ rfl hv) hstack
  · split at h
    · obtain ⟨v, -, h⟩ := bind_eq_ok.mp h
      cases h
      exact hpush (okVal_num v) fun w hw => hstack w (List.mem_of_mem_drop hw)
    · cases h
  · cases h
    exact hpush nofun hstack
  · cases h
    refine hpush (fun q hq => ?_) hstack
    cases hq
    exact hfunc _ rfl
  · split at h <;> cases h
    exact hpush nofun (List.forall_mem_cons.mp hstack).2
  · split at h <;> cases h
    exact hpush (unwrapExternal_ok (List.forall_mem_cons.mp hstack).1) (List.forall_mem_cons.mp hstack).2
  · split at h
    · cases h
      exact hpush nofun (List.forall_mem_cons.mp hstack).2
    · split at h <;> cases h
      rename_i hinner
      exact hpush (wrapExternal_ok hinner (List.forall_mem_cons.mp hstack).1)
        (List.forall_mem_cons.mp hstack).2
    · cases h
    · cases h
  · cases h

theorem constObject_ok {stack stack' : List Value} {object : GcObject}
    (h : constObject rt m self stack instr = some (.ok (object, stack')))
    (hstack : ∀ v ∈ stack, OkVal Good v) :
    (∀ v ∈ object.data.cells, OkVal Good v) ∧ ∀ v ∈ stack', OkVal Good v := by
  unfold constObject at h
  split at h
  · obtain ⟨fields, -, h⟩ := bind_eq_ok.mp (Option.some.inj h)
    obtain ⟨⟨cells, rest⟩, hpop, h⟩ := bind_eq_ok.mp h
    cases h
    exact popCells_ok hpop nofun hstack
  · obtain ⟨fields, -, h⟩ := bind_eq_ok.mp (Option.some.inj h)
    obtain ⟨cells, hcells, h⟩ := bind_eq_ok.mp h
    cases h
    have hdefaults : Returns (fun cells => ∀ v ∈ cells, OkVal Good v)
        (fields.mapM fun field => defaultStorage field.ty) :=
      Returns.mapM fun field _ v hv => defaultStorage_ok hv
    exact ⟨hdefaults cells hcells, hstack⟩
  · obtain ⟨field, -, h⟩ := bind_eq_ok.mp (Option.some.inj h)
    obtain ⟨⟨len, rest⟩, hlen, h⟩ := bind_eq_ok.mp h
    obtain ⟨⟨cells, rest'⟩, hpop, h⟩ := bind_eq_ok.mp h
    have hok := popCells_ok hpop nofun (popConstI32_ok hlen hstack)
    simp only at h
    split at h <;> cases h
    refine ⟨fun v hv => ?_, hok.2⟩
    obtain ⟨cell, hcell, hv⟩ := List.mem_flatMap.mp hv
    rw [List.eq_of_mem_replicate hv]
    exact hok.1 cell hcell
  · obtain ⟨field, -, h⟩ := bind_eq_ok.mp (Option.some.inj h)
    obtain ⟨⟨len, rest⟩, hlen, h⟩ := bind_eq_ok.mp h
    obtain ⟨cell, hcell, h⟩ := bind_eq_ok.mp h
    split at h <;> cases h
    refine ⟨fun v hv => ?_, popConstI32_ok hlen hstack⟩
    rw [List.eq_of_mem_replicate hv]
    exact defaultStorage_ok hcell
  · obtain ⟨field, -, h⟩ := bind_eq_ok.mp (Option.some.inj h)
    obtain ⟨⟨cells, rest⟩, hpop, h⟩ := bind_eq_ok.mp h
    cases h
    exact popCells_ok hpop nofun hstack
  · cases h

end Consts

/-- The tables a module imports. -/
def importedTables (m : Module) : List TableType :=
  m.imports.filterMap fun
    | .table ty => some ty
    | _ => none

def importedGlobals (m : Module) : List GlobalType :=
  m.imports.filterMap fun
    | .global ty => some ty
    | _ => none

/-- Instructions of constant expressions that make no reference of their own and
take none from the new instance. -/
def cleanInstr (m : Module) : Instr → Bool
  | .refFunc _ | .structNew _ | .structNewDefault _ | .arrayNew _ | .arrayNewDefault _
  | .arrayNewFixed _ _ => false
  | .globalGet index => decide (index < (importedGlobals m).length)
  | _ => true

def Clean (m : Module) (expr : List Instr) : Prop :=
  ∀ instr ∈ expr, cleanInstr m instr = true

variable {m : Module} {self : Nat}

theorem constObject_clean {rt : Runtime} {stack : List Value} (h : cleanInstr m instr = true) :
    constObject rt m self stack instr = none := by
  unfold constObject
  split
  all_goals first | rfl | simp [cleanInstr] at h

/-! ## One instantiation -/

section Stage

-- The store an instantiation starts from, and the places that are to be closed.
variable (s₀ : Store) (Live : Place → Prop)

/-- A place of the set that is there, or the instance to come. -/
def Known (s : Store) (p : Place) : Prop :=
  Live p ∧ (s.Has p ∨ p = .inst s₀.instances.length)

/-- What holds of the store until the instance is complete. -/
structure Stage (s : Store) : Prop where
  grows : ∀ p, s₀.Has p → s.Has p
  closed : Closed s Live (Known s₀ Live s)
  insts : ∀ i < s₀.instances.length, s.instances[i]? = s₀.instances[i]?

/-- The store has grown, and is at such a stage; the instance has its cells. -/
structure Extends (s s' : Store) : Prop where
  has : ∀ p, s.Has p → s'.Has p
  stage : Stage s₀ Live s'
  cells : ∀ l, s.instances[s₀.instances.length]? = some l →
    ∃ l', s'.instances[s₀.instances.length]? = some l' ∧ l'.tables = l.tables ∧ l'.globals = l.globals
  count : s'.instances.length = s.instances.length

/-- All new places are in the set. -/
def Full : Prop :=
  ∀ p, ¬ s₀.Has p → Live p

/-- No new place is in the set. -/
def Fresh : Prop :=
  ∀ p, Live p → s₀.Has p

/-- The global cells of an instance, or the imported ones of them. -/
def GlobalsKnown (m : Module) (cells : List Nat) (s : Store) : Prop :=
  ∀ (g c : Nat), cells[g]? = some c → Full s₀ Live ∨ g < (importedGlobals m).length →
    Known s₀ Live s (.global c)

def ValuesKnown (m : Module) (values : List Value) (s : Store) : Prop :=
  ∀ (g : Nat) v, values[g]? = some v → Full s₀ Live ∨ g < (importedGlobals m).length →
    OkVal (Known s₀ Live s) v

variable {s₀ Live}

variable {s s' : Store}

variable {p : Place} {cells : List Nat}

theorem Known.mono (h : Known s₀ Live s p) (hhas : ∀ p, s.Has p → s'.Has p) :
    Known s₀ Live s' p :=
  ⟨h.1, h.2.imp_left (hhas p)⟩

theorem OkVal.mono {v : Value} (h : OkVal (Known s₀ Live s) v) (hhas : ∀ p, s.Has p → s'.Has p) :
    OkVal (Known s₀ Live s') v :=
  fun q hq => (h q hq).mono hhas

theorem extends_trans (s s' s'' : Store) (h : Extends s₀ Live s s') (h' : Extends s₀ Live s' s'') :
    Extends s₀ Live s s'' := by
  refine ⟨fun p hp => h'.has p (h.has p hp), h'.stage, fun l hl => ?_, h'.count.trans h.count⟩
  obtain ⟨l', hl', htables, hglobals⟩ := h.cells l hl
  obtain ⟨l'', hl'', htables', hglobals'⟩ := h'.cells l' hl'
  exact ⟨l'', hl'', htables'.trans htables, hglobals'.trans hglobals⟩

theorem Stage.refl (h : Stage s₀ Live s) : Extends s₀ Live s s :=
  ⟨fun _ hp => hp, h, fun l hl => ⟨l, hl, rfl, rfl⟩, rfl⟩

/-- A step that leaves the instances alone. -/
theorem Stage.next (h : Stage s₀ Live s) (hhas : ∀ p, s.Has p → s'.Has p)
    (hclosed : Closed s' Live (Known s₀ Live s)) (hinsts : s'.instances = s.instances) :
    Extends s₀ Live s s' := by
  refine ⟨hhas, ⟨fun p hp => hhas p (h.grows p hp), ?_, fun i hi => ?_⟩, fun l hl => ⟨l, ?_, rfl, rfl⟩,
    congrArg List.length hinsts⟩
  · exact hclosed.mono (fun _ hp => hp) fun p hp => hp.mono hhas
  · rw [hinsts]
    exact h.insts i hi
  · rw [hinsts]
    exact hl

/-- A step that changes none of the places. -/
theorem Stage.same (h : Stage s₀ Live s) (s' : Store) (hinsts : s'.instances = s.instances)
    (htables : s'.tables = s.tables) (hglobals : s'.globals = s.globals)
    (hobjects : s'.objects = s.objects) (hexns : s'.exceptions = s.exceptions) :
    Extends s₀ Live s s' := by
  refine h.next (fun p hp => ?_) (h.closed.of_same hinsts htables hglobals hobjects hexns) hinsts
  cases p <;> simp only [Store.Has, hinsts, htables, hglobals, hobjects, hexns] at hp ⊢ <;> exact hp

theorem ValuesKnown.mono {values : List Value} (h : ValuesKnown s₀ Live m values s)
    (hhas : ∀ p, s.Has p → s'.Has p) :
    ValuesKnown s₀ Live m values s' :=
  fun g v hv hg => (h g v hv hg).mono hhas

theorem GlobalsKnown.mono (h : GlobalsKnown s₀ Live m cells s) (hhas : ∀ p, s.Has p → s'.Has p) :
    GlobalsKnown s₀ Live m cells s' :=
  fun g c hc hg => (h g c hc hg).mono hhas

theorem GlobalsKnown.values (hs : Stage s₀ Live s) (h : GlobalsKnown s₀ Live m cells s) :
    ValuesKnown s₀ Live m (globalValues s cells) s := by
  intro g v hv hg
  obtain ⟨c, hc, hv⟩ := Option.map_eq_some_iff.mp (List.getElem?_map .. ▸ hv)
  cases hl : s.globals[c]? with
  | none =>
      rw [hl] at hv
      cases hv
      nofun
  | some cell =>
      rw [hl] at hv
      cases hv
      exact hs.closed.global c cell (h g c hc hg).1 hl

variable (hmode : Full s₀ Live ∨ Fresh s₀ Live)

include hmode

/-- A new place is in the set only if all are. -/
theorem full_of_new (hs : Stage s₀ Live s) (hp : Live p) (hnew : ¬ s.Has p) :
    Full s₀ Live := by
  rcases hmode with h | h
  · exact h
  · exact absurd (hs.grows p (h p hp)) hnew

section Consts

variable {rt : Runtime} {m : Module} {values : List Value}

/-- The values of an expression so far. -/
def StackKnown (s₀ : Store) (Live : Place → Prop) (m : Module) (values : List Value)
    (expr : List Instr) (stack : List Value) (s : Store) : Prop :=
  (Stage s₀ Live s ∧ ValuesKnown s₀ Live m values s) ∧
    (Full s₀ Live ∨ Clean m expr → ∀ v ∈ stack, OkVal (Known s₀ Live s) v)

theorem constInstr_runs {expr : List Instr} (hinstr : instr ∈ expr) (stack : List Value) :
    Fallible.Runs (Extends s₀ Live) (StackKnown s₀ Live m values expr stack)
      (constInstr rt m s₀.instances.length values stack instr)
      (StackKnown s₀ Live m values expr) := by
  intro s ⟨⟨hs, hvalues⟩, hstack⟩
  unfold constInstr
  cases hobject : constObject rt m s₀.instances.length stack instr with
  | none =>
      refine ⟨hs.refl, fun stack' hstack' => ⟨⟨hs, hvalues⟩, fun htrack => ?_⟩⟩
      refine constStep_ok hstack' (hstack htrack) ?_ ?_
      · rintro index v rfl hv
        refine hvalues index v hv (htrack.imp_right fun hclean => ?_)
        exact of_decide_eq_true (hclean _ hinstr)
      · rintro index rfl
        rcases htrack with hfull | hclean
        · exact ⟨hfull _ (Nat.lt_irrefl _), .inr rfl⟩
        · exact absurd (hclean _ hinstr) (by simp [cleanInstr])
  | some allocated =>
      have hunclean : Full s₀ Live ∨ Clean m expr → Full s₀ Live := by
        refine fun htrack => htrack.elim id fun hclean => ?_
        rw [constObject_clean (hclean _ hinstr)] at hobject
        cases hobject
      cases allocated with
      | error e => exact ⟨hs.refl, nofun⟩
      | ok p =>
          obtain ⟨object, rest⟩ := p
          have hok : Full s₀ Live → _ := fun hfull => constObject_ok hobject (hstack (.inl hfull))
          have hnew : ¬ s.Has (.object s.objects.length) := Nat.lt_irrefl _
          have hext : Extends s₀ Live s { s with objects := s.objects ++ [object] } := by
            refine hs.next (fun p hp => ?_) ?_ rfl
            · cases p <;> simp only [Store.Has, List.length_append, List.length_singleton] at hp ⊢ <;> omega
            · exact hs.closed.pushObject fun hlive => (hok (full_of_new hmode hs hlive hnew)).1
          refine ⟨hext, fun stack' hstack' => ⟨⟨hext.stage, hvalues.mono hext.has⟩, fun htrack => ?_⟩⟩
          cases hstack'
          have hfull := hunclean htrack
          refine List.forall_mem_cons.mpr ⟨fun q hq => ?_, fun v hv => ((hok hfull).2 v hv).mono hext.has⟩
          have hq' : q = .object s.objects.length := by
            obtain ⟨owner, ty, data⟩ := object
            cases data <;> cases hq <;> rfl
          subst hq'
          refine ⟨hfull _ fun hhas => hnew (hs.grows _ hhas), .inl ?_⟩
          change s.objects.length < (s.objects ++ [object]).length
          simp

theorem evalConst_runs (expr : List Instr) :
    Fallible.Runs (Extends s₀ Live) (fun s => Stage s₀ Live s ∧ ValuesKnown s₀ Live m values s)
      (evalConst rt m s₀.instances.length expr values)
      (fun v s => (Stage s₀ Live s ∧ ValuesKnown s₀ Live m values s) ∧
        (Full s₀ Live ∨ Clean m expr → OkVal (Known s₀ Live s) v)) := by
  apply Fallible.Runs.mapFailure
  have hfold : Fallible.Runs (Extends s₀ Live) (StackKnown s₀ Live m values expr [])
      (expr.foldlM (constInstr rt m s₀.instances.length values) [])
      (StackKnown s₀ Live m values expr) :=
    Fallible.Runs.foldlM extends_trans (fun _ _ h => h.1.1.refl)
      (fun stack _ hinstr => constInstr_runs hmode hinstr stack) []
  refine Fallible.Runs.bind extends_trans (hfold.imp (fun s hs => ⟨hs, fun _ => nofun⟩)
    fun _ _ h => h) fun stack => ?_
  cases stack with
  | nil => exact Fallible.Runs.fail fun s hs => hs.1.1.refl
  | cons v stack =>
      refine Fallible.Runs.pure (fun s hs => hs.1.1.refl) fun s hs => ⟨hs.1, fun htrack => ?_⟩
      exact hs.2 htrack v List.mem_cons_self

theorem evalRefConst_runs (expr : List Instr) :
    Fallible.Runs (Extends s₀ Live) (fun s => Stage s₀ Live s ∧ ValuesKnown s₀ Live m values s)
      (evalRefConst rt m s₀.instances.length expr values)
      (fun r s => (Stage s₀ Live s ∧ ValuesKnown s₀ Live m values s) ∧
        (Full s₀ Live ∨ Clean m expr → OkRef (Known s₀ Live s) r)) := by
  refine Fallible.Runs.bind extends_trans (evalConst_runs hmode expr)
    fun v => ?_
  cases v with
  | ref r => exact Fallible.Runs.pure (fun s hs => hs.1.1.refl) fun s hs => hs
  | _ => exact Fallible.Runs.fail fun s hs => hs.1.1.refl

theorem evalItems_runs (items : List (List Instr)) :
    Fallible.Runs (Extends s₀ Live) (fun s => Stage s₀ Live s ∧ ValuesKnown s₀ Live m values s)
      (evalItems rt m s₀.instances.length items values)
      (fun refs s => (Stage s₀ Live s ∧ ValuesKnown s₀ Live m values s) ∧
        (Full s₀ Live ∨ (∀ expr ∈ items, Clean m expr) → ∀ r ∈ refs, OkRef (Known s₀ Live s) r)) := by
  refine (Fallible.Runs.mapM extends_trans (fun _ hs => hs.1.refl)
    (fun expr r s s' hext hr htrack q hq => (hr htrack q hq).mono hext.has)
    fun expr _ => evalRefConst_runs hmode expr).imp (fun _ hs => hs) ?_
  intro refs s ⟨hs, hrefs⟩
  refine ⟨hs, fun htrack r hr => ?_⟩
  obtain ⟨expr, hexpr, hr⟩ := forall₂_exists_of_mem hrefs hr
  exact hr (htrack.imp_right fun hclean => hclean expr hexpr)

end Consts

section Segments

variable {rt : Runtime} {m : Module} {linked : Linked}

variable {segment : ElementSegment}

omit hmode in
theorem initElement_ok (h : initElement rt m self segment s = (.ok (), s')) :
    ∃ plan s₁, planElement rt m self segment s = (.ok plan, s₁) ∧
      s' = pushElementSegment self (copyItems s₁ plan.1 plan.2) (keptItems segment plan.1) :=
  Fallible.bind_update_ok (g := fun (plan : List RefValue × Option (Nat × Nat)) s =>
    pushElementSegment self (copyItems s plan.1 plan.2) (keptItems segment plan.1)) h

variable {e : InstantiateError} {f : Linked → Linked}

omit hmode in
theorem initElement_failed (h : initElement rt m self segment s = (.error e, s')) :
    planElement rt m self segment s = (.error e, s') :=
  Fallible.bind_update_error (g := fun (plan : List RefValue × Option (Nat × Nat)) s =>
    pushElementSegment self (copyItems s plan.1 plan.2) (keptItems segment plan.1)) h

/-- The instance is in the store, with the cells it was given. -/
structure Placed (s₀ : Store) (Live : Place → Prop) (m : Module) (linked : Linked) (s : Store) : Prop
    where
  stage : Stage s₀ Live s
  there : ∃ l, s.instances[s₀.instances.length]? = some l ∧ l.tables = linked.tables ∧
    l.globals = linked.globals
  globals : GlobalsKnown s₀ Live m linked.globals s

omit hmode in
theorem Placed.mono (h : Placed s₀ Live m linked s) (hext : Extends s₀ Live s s') :
    Placed s₀ Live m linked s' := by
  obtain ⟨l, hl, htables, hglobals⟩ := h.there
  obtain ⟨l', hl', htables', hglobals'⟩ := hext.cells l hl
  exact ⟨hext.stage, ⟨l', hl', htables'.trans htables, hglobals'.trans hglobals⟩,
    h.globals.mono hext.has⟩

omit hmode in
theorem Placed.values (h : Placed s₀ Live m linked s) :
    ValuesKnown s₀ Live m (instanceGlobals s₀.instances.length s) s := by
  obtain ⟨l, hl, -, hglobals⟩ := h.there
  unfold instanceGlobals
  rw [hl, Option.map_some, Option.getD_some, hglobals]
  exact h.globals.values h.stage

/-- An active segment hands a reference of the new instance out when it copies
one into a table that the module imports. -/
def Handing (m : Module) (segment : ElementSegment) : Prop :=
  ∃ table offset, segment.mode = .active table offset ∧ table < (importedTables m).length ∧
    ∃ expr ∈ segment.init, ¬ Clean m expr

/-- What is known of the parts of a segment before they are copied. -/
structure Planned (s₀ : Store) (Live : Place → Prop) (m : Module) (linked : Linked)
    (segment : ElementSegment) (plan : List RefValue × Option (Nat × Nat)) (s : Store) : Prop where
  items : Full s₀ Live ∨ (∀ expr ∈ segment.init, Clean m expr) →
    ∀ r ∈ plan.1, OkRef (Known s₀ Live s) r
  target : ∀ cell start, plan.2 = some (cell, start) →
    ∃ table offset, segment.mode = .active table offset ∧ linked.tables[table]? = some cell

/-- Constant expressions of the instance. -/
theorem evalConst_placed {values : List Value} (expr : List Instr) :
    Fallible.Runs (Extends s₀ Live)
      (fun s => Placed s₀ Live m linked s ∧ ValuesKnown s₀ Live m values s)
      (evalConst rt m s₀.instances.length expr values)
      (fun _ s => Placed s₀ Live m linked s ∧ ValuesKnown s₀ Live m values s) :=
  ((evalConst_runs hmode expr).frame fun _ _ hext (h : Placed s₀ Live m linked _) =>
    h.mono hext).imp (fun _ h => ⟨⟨h.1.stage, h.2⟩, h.1⟩) fun _ _ h => ⟨h.2, h.1.1.2⟩

theorem planElement_runs (segment : ElementSegment) :
    Fallible.Runs (Extends s₀ Live) (Placed s₀ Live m linked)
      (planElement rt m s₀.instances.length segment)
      (fun plan s => Placed s₀ Live m linked s ∧ Planned s₀ Live m linked segment plan s) := by
  refine Fallible.Runs.bind extends_trans (Q := fun values s => Placed s₀ Live m linked s ∧
    ValuesKnown s₀ Live m values s) (Fallible.Runs.read (fun s h => h.stage.refl) ?_) fun values => ?_
  · intro s values h hvalues
    cases hvalues
    exact ⟨h, h.values⟩
  have hitems : Fallible.Runs (Extends s₀ Live)
      (fun s => Placed s₀ Live m linked s ∧ ValuesKnown s₀ Live m values s)
      (evalItems rt m s₀.instances.length segment.init values)
      (fun refs s => (Placed s₀ Live m linked s ∧ ValuesKnown s₀ Live m values s) ∧
        (Full s₀ Live ∨ (∀ expr ∈ segment.init, Clean m expr) →
          ∀ r ∈ refs, OkRef (Known s₀ Live s) r)) :=
    ((evalItems_runs hmode segment.init).frame fun _ _ hext (h : Placed s₀ Live m linked _) =>
      h.mono hext).imp (fun _ h => ⟨⟨h.1.stage, h.2⟩, h.1⟩) fun _ _ h => ⟨⟨h.2, h.1.1.2⟩, h.1.2⟩
  refine Fallible.Runs.bind extends_trans hitems fun items => ?_
  cases hsegment : segment.mode with
  | active table offset =>
      have hstable : ∀ s s', Extends s₀ Live s s' →
          ((Full s₀ Live ∨ (∀ expr ∈ segment.init, Clean m expr) →
            ∀ r ∈ items, OkRef (Known s₀ Live s) r)) →
          (Full s₀ Live ∨ (∀ expr ∈ segment.init, Clean m expr) →
            ∀ r ∈ items, OkRef (Known s₀ Live s') r) :=
        fun s s' hext h htrack r hr q hq => (h htrack r hr q hq).mono hext.has
      refine Fallible.Runs.bind extends_trans (Q := fun cell s => ((Placed s₀ Live m linked s ∧
        ValuesKnown s₀ Live m values s) ∧ (Full s₀ Live ∨ (∀ expr ∈ segment.init, Clean m expr) →
          ∀ r ∈ items, OkRef (Known s₀ Live s) r)) ∧ linked.tables[table]? = some cell)
        (Fallible.Runs.read (fun s h => h.1.1.stage.refl) ?_) fun cell => ?_
      · intro s cell h hcell
        obtain ⟨l, hl, htables, -⟩ := h.1.1.there
        rw [hl, Option.bind_some, htables] at hcell
        cases ht : linked.tables[table]? with
        | none => simp [ht] at hcell
        | some cell' =>
            rw [ht] at hcell
            cases hcell
            exact ⟨h, rfl⟩
      refine Fallible.Runs.bind extends_trans (((evalConst_placed hmode offset).frame hstable).frame
        (F := fun _ => linked.tables[table]? = some cell) fun _ _ _ h => h) fun offset' => ?_
      refine Fallible.Runs.bind extends_trans (Fallible.Runs.read (fun s h => h.1.1.1.stage.refl) fun s _ h _ => h)
        fun start => ?_
      refine Fallible.Runs.bind extends_trans (Fallible.Runs.read (fun s h => h.1.1.1.stage.refl) fun s _ h _ => h)
        fun size => ?_
      split
      · exact Fallible.Runs.fail fun s h => h.1.1.1.stage.refl
      · refine Fallible.Runs.pure (fun s h => h.1.1.1.stage.refl) fun s h => ⟨h.1.1.1, h.1.2, ?_⟩
        intro cell' start' htarget
        cases htarget
        exact ⟨table, offset, hsegment, h.2⟩
  | passive => exact Fallible.Runs.pure (fun s h => h.1.1.stage.refl) fun s h => ⟨h.1.1, h.2, nofun⟩
  | declarative => exact Fallible.Runs.pure (fun s h => h.1.1.stage.refl) fun s h => ⟨h.1.1, h.2, nofun⟩

omit hmode in
theorem mem_replaceRange {α : Type} {l items : List α} {start : Nat} {a : α}
    (h : a ∈ replaceRange l start items) : a ∈ l ∨ a ∈ items := by
  unfold replaceRange at h
  rcases List.mem_append.mp h with h | h
  · rcases List.mem_append.mp h with h | h
    · exact .inl (List.mem_of_mem_take h)
    · exact .inr h
  · exact .inl (List.mem_of_mem_drop h)

omit hmode in
theorem has_modify_inst {i : Nat} (h : s.Has p) :
    Store.Has { s with instances := s.instances.modify i f } p := by
  cases p <;> simp only [Store.Has, List.length_modify] at h ⊢ <;> exact h

omit hmode in
/-- The new instance keeps one more segment. -/
theorem Stage.modifySelf (h : Stage s₀ Live s)
    (hplaces : Full s₀ Live → ∀ linked, ∀ q ∈ (f linked).places,
      q ∈ linked.places ∨ Known s₀ Live s q)
    (hcells : ∀ linked, (f linked).tables = linked.tables ∧ (f linked).globals = linked.globals)
    (hmode : Full s₀ Live ∨ Fresh s₀ Live) :
    Extends s₀ Live s { s with instances := s.instances.modify s₀.instances.length f } := by
  refine ⟨fun p hp => has_modify_inst hp, ⟨fun p hp => has_modify_inst (h.grows p hp), ?_, ?_⟩, ?_,
    List.length_modify ..⟩
  · refine (h.closed.modifyInst fun hlive => hplaces ?_).mono (fun _ hp => hp)
      fun p hp => hp.mono fun p hp => has_modify_inst hp
    rcases hmode with hfull | hfresh
    · exact hfull
    · exact absurd (hfresh _ hlive) (Nat.lt_irrefl _)
  · intro i hi
    have hsame : (s.instances.modify s₀.instances.length f)[i]? = s.instances[i]? := by
      rw [List.getElem?_modify]
      simp [Nat.ne_of_gt hi]
    exact hsame.trans (h.insts i hi)
  · intro l hl
    refine ⟨f l, ?_, hcells l⟩
    have hsame : (s.instances.modify s₀.instances.length f)[s₀.instances.length]? = some (f l) := by
      rw [List.getElem?_modify, hl]
      simp
    exact hsame

theorem initElement_runs
    (hown : ∀ (t c : Nat), linked.tables[t]? = some c → (importedTables m).length ≤ t →
      ¬ s₀.Has (.table c)) (hsegment : Full s₀ Live ∨ ¬ Handing m segment) :
    Fallible.Runs (Extends s₀ Live) (Placed s₀ Live m linked)
      (initElement rt m s₀.instances.length segment) (fun _ => Placed s₀ Live m linked) := by
  refine Fallible.Runs.bind extends_trans (planElement_runs hmode segment) fun plan s ⟨hs, hplan⟩ => ?_
  obtain ⟨items, target⟩ := plan
  have hcopied : Extends s₀ Live s (copyItems s items target) := by
    cases target with
    | none => exact hs.stage.refl
    | some p =>
        obtain ⟨cell, start⟩ := p
        refine hs.stage.next (fun p hp => ?_) ?_ rfl
        · cases p <;> simp only [copyItems, Store.Has, List.length_modify] at hp ⊢ <;> exact hp
        · refine hs.stage.closed.modifyTable fun hlive t r hr => ?_
          refine (mem_replaceRange hr).imp_right fun hr => hplan.items ?_ r hr
          rcases hmode with hfull | hfresh
          · exact .inl hfull
          -- An old table that the module does not import is not one of the instance's.
          obtain ⟨table, offset, hactive, htable⟩ := hplan.target cell start rfl
          refine hsegment.imp_right fun hhanding expr hexpr => ?_
          by_contra hclean
          refine hhanding ⟨table, offset, hactive, ?_, expr, hexpr, hclean⟩
          exact Nat.lt_of_not_le fun hle => hown table cell htable hle (hfresh _ hlive)
  have hpushed : Extends s₀ Live (copyItems s items target)
      (pushElementSegment s₀.instances.length (copyItems s items target) (keptItems segment items)) := by
    refine hcopied.stage.modifySelf (fun hfull linked q hq => ?_) (fun _ => ⟨rfl, rfl⟩) hmode
    simp only [Linked.places, List.flatMap_append, List.mem_append] at hq ⊢
    rcases hq with hq | hq | hq
    · exact .inl (.inl hq)
    · exact .inl (.inr hq)
    · refine .inr ?_
      simp only [List.flatMap_cons, List.flatMap_nil, List.append_nil, List.mem_filterMap] at hq
      obtain ⟨r, hr, hq⟩ := hq
      have hr' : r ∈ items := by
        unfold keptItems at hr
        split at hr
        · exact hr
        · cases hr
      exact (hplan.items (.inl hfull) r hr' q hq).mono hcopied.has
  have hboth := extends_trans _ _ _ hcopied hpushed
  exact ⟨hboth, fun _ _ => hs.mono hboth⟩

/-- A segment that is not copied hands nothing out. -/
theorem initElement_error (hs : Placed s₀ Live m linked s)
    (h : initElement rt m s₀.instances.length segment s = (.error e, s')) : Extends s₀ Live s s' :=
  (planElement_runs hmode segment).ends hs (initElement_failed h)

theorem initData_runs (segment : DataSegment) :
    Fallible.Runs (Extends s₀ Live) (Placed s₀ Live m linked)
      (initData rt m s₀.instances.length segment) (fun _ => Placed s₀ Live m linked) := by
  have hplan : Fallible.Runs (Extends s₀ Live) (Placed s₀ Live m linked)
      (planData rt m s₀.instances.length segment) (fun _ => Placed s₀ Live m linked) := by
    unfold planData
    cases segment.mode with
    | passive => exact Fallible.Runs.pure (fun s h => h.stage.refl) fun s h => h
    | active memory offset =>
        refine Fallible.Runs.bind extends_trans (Fallible.Runs.read (fun s h => h.stage.refl) fun s _ h _ => h) fun cell => ?_
        refine Fallible.Runs.bind extends_trans (Q := fun values s => Placed s₀ Live m linked s ∧
          ValuesKnown s₀ Live m values s) (Fallible.Runs.read (fun s h => h.stage.refl) ?_) fun values => ?_
        · intro s values h hvalues
          cases hvalues
          exact ⟨h, h.values⟩
        refine Fallible.Runs.bind extends_trans (evalConst_placed hmode offset) fun offset' => ?_
        refine Fallible.Runs.bind extends_trans (Fallible.Runs.read (fun s h => h.1.stage.refl) fun s _ h _ => h) fun start => ?_
        refine Fallible.Runs.bind extends_trans (Fallible.Runs.read (fun s h => h.1.stage.refl) fun s _ h _ => h) fun size => ?_
        split
        · exact Fallible.Runs.fail fun s h => h.1.stage.refl
        · exact Fallible.Runs.pure (fun s h => h.1.stage.refl) fun s h => h.1
  refine Fallible.Runs.bind extends_trans hplan fun target s hs => ?_
  have hcopied : Extends s₀ Live s (copyBytes s segment.bytes target) := by
    cases target with
    | none => exact hs.stage.refl
    | some p =>
        refine hs.stage.next (fun p hp => ?_) ?_ rfl
        · cases p <;> exact hp
        · exact hs.stage.closed.of_same rfl rfl rfl rfl rfl
  have hpushed := hcopied.stage.modifySelf (f := fun linked : Linked => { linked with
    dataSegments := linked.dataSegments ++ [keptBytes segment] }) (fun _ _ q hq => .inl hq)
    (fun _ => ⟨rfl, rfl⟩) hmode
  have hboth := extends_trans _ _ _ hcopied hpushed
  exact ⟨hboth, fun _ _ => hs.mono hboth⟩

end Segments

section Allocate

variable {rt : Runtime} {m : Module} {links : Links}

/-- Imports are known from the start. -/
structure LinksKnown (s₀ : Store) (Live : Place → Prop) (links : Links) (s : Store) : Prop where
  stage : Stage s₀ Live s
  funcs : ∀ target ∈ links.funcs, ∀ p, targetPlace target = some p → Known s₀ Live s p
  tables : ∀ c ∈ links.tables, Known s₀ Live s (.table c)
  globals : ∀ c ∈ links.globals, Known s₀ Live s (.global c)

omit hmode in
theorem LinksKnown.mono (h : LinksKnown s₀ Live links s) (hext : Extends s₀ Live s s') :
    LinksKnown s₀ Live links s' where
  stage := hext.stage
  funcs := fun target ht p hp => (h.funcs target ht p hp).mono hext.has
  tables := fun c hc => (h.tables c hc).mono hext.has
  globals := fun c hc => (h.globals c hc).mono hext.has

omit hmode in
theorem LinksKnown.globalsKnown (h : LinksKnown s₀ Live links s) :
    GlobalsKnown s₀ Live m links.globals s :=
  fun _ c hc _ => h.globals c (List.mem_of_getElem? hc)

/-- Table cells: imported ones are known, the others are new. -/
def TablesKnown (s₀ : Store) (Live : Place → Prop) (m : Module) (tables : List Nat) (s : Store) : Prop :=
  ∀ (t c : Nat), tables[t]? = some c → (t < (importedTables m).length ∧ Known s₀ Live s (.table c)) ∨
    ((importedTables m).length ≤ t ∧ ¬ s₀.Has (.table c) ∧ s.Has (.table c))

variable {tables : List Nat}

omit hmode in
theorem TablesKnown.mono (h : TablesKnown s₀ Live m tables s) (hext : Extends s₀ Live s s') :
    TablesKnown s₀ Live m tables s' := by
  intro t c hc
  rcases h t c hc with ⟨ht, hknown⟩ | ⟨ht, hnew, hhas⟩
  · exact .inl ⟨ht, hknown.mono hext.has⟩
  · exact .inr ⟨ht, hnew, hext.has _ hhas⟩

omit hmode in
theorem declareTag_runs (tags : List Nat) (typeIndex : Nat) :
    Fallible.Runs (Extends s₀ Live) (LinksKnown s₀ Live links)
      (declareTag s₀.instances.length m tags typeIndex) (fun _ => LinksKnown s₀ Live links) := by
  unfold declareTag
  split
  · exact Fallible.Runs.fail fun s h => h.stage.refl
  · rename_i ty _
    intro s h
    have hext := h.stage.same { s with
      tags := s.tags ++ [⟨ty, some (s₀.instances.length, typeIndex)⟩] } rfl rfl rfl rfl rfl
    exact ⟨hext, fun _ _ => h.mono hext⟩

omit hmode in
theorem declareMemory_runs (memories : List Nat) (ty : MemType) :
    Fallible.Runs (Extends s₀ Live) (LinksKnown s₀ Live links) (declareMemory memories ty)
      (fun _ => LinksKnown s₀ Live links) := by
  intro s h
  unfold declareMemory
  have hext := h.stage.same { s with memoryTypes := s.memoryTypes ++ [ty] } rfl rfl rfl rfl rfl
  cases Memory.new ty.limits.min ty.limits.max ty.limits.shared with
  | error message => exact ⟨hext, nofun⟩
  | ok memory =>
      have hext' := hext.stage.same { s with
        memoryTypes := s.memoryTypes ++ [ty]
        memories := s.memories ++ [⟨ty, memory⟩] } rfl rfl rfl rfl rfl
      have hboth := extends_trans _ _ _ hext hext'
      exact ⟨hboth, fun _ _ => h.mono hboth⟩

theorem tableInit_runs (init : Option (List Instr)) :
    Fallible.Runs (Extends s₀ Live) (LinksKnown s₀ Live links)
      (tableInit rt m s₀.instances.length links.globals init)
      (fun r s => LinksKnown s₀ Live links s ∧ (Full s₀ Live → OkRef (Known s₀ Live s) r)) := by
  cases init with
  | none => exact Fallible.Runs.pure (fun s h => h.stage.refl) fun s h => ⟨h, fun _ => nofun⟩
  | some expr =>
      unfold tableInit
      refine Fallible.Runs.withState fun s h => ?_
      have hvalues : ValuesKnown s₀ Live m (globalValues s links.globals) s :=
        h.globalsKnown.values h.stage
      refine ((evalRefConst_runs hmode expr).frame fun _ _ hext (h : LinksKnown s₀ Live links _) =>
        h.mono hext).imp ?_ fun r s h => ⟨h.2, fun hfull => h.1.2 (.inl hfull)⟩
      rintro s' rfl
      exact ⟨⟨h.stage, hvalues⟩, h⟩

/-- The tables declared so far, the imported ones first. -/
structure TablesDeclared (s₀ : Store) (Live : Place → Prop) (m : Module) (links : Links)
    (tables : List Nat) (s : Store) : Prop where
  links : LinksKnown s₀ Live links s
  known : TablesKnown s₀ Live m tables s
  imported : (importedTables m).length ≤ tables.length

omit hmode in
theorem TablesDeclared.mono (h : TablesDeclared s₀ Live m links tables s) (hext : Extends s₀ Live s s') :
    TablesDeclared s₀ Live m links tables s' :=
  ⟨h.links.mono hext, h.known.mono hext, h.imported⟩

omit hmode in
theorem LinksKnown.tablesDeclared (h : LinksKnown s₀ Live links s)
    (htables : links.tables.length = (importedTables m).length) :
    TablesDeclared s₀ Live m links links.tables s := by
  refine ⟨h, fun t c hc => .inl ⟨?_, h.tables c (List.mem_of_getElem? hc)⟩, Nat.le_of_eq htables.symm⟩
  rw [← htables]
  exact lt_of_getElem? hc

structure GlobalsDeclared (s₀ : Store) (Live : Place → Prop) (m : Module) (globals : List Nat)
    (s : Store) : Prop where
  stage : Stage s₀ Live s
  known : GlobalsKnown s₀ Live m globals s
  imported : (importedGlobals m).length ≤ globals.length

omit hmode in
theorem GlobalsDeclared.mono {globals : List Nat} (h : GlobalsDeclared s₀ Live m globals s)
    (hext : Extends s₀ Live s s') :
    GlobalsDeclared s₀ Live m globals s' :=
  ⟨hext.stage, h.known.mono hext.has, h.imported⟩

theorem declareTable_runs (tables : List Nat) (decl : TableDecl) :
    Fallible.Runs (Extends s₀ Live) (TablesDeclared s₀ Live m links tables)
      (declareTable rt m s₀.instances.length links.globals tables decl)
      (TablesDeclared s₀ Live m links) := by
  refine Fallible.Runs.bind extends_trans (((tableInit_runs hmode decl.init).frame fun _ _ hext
    (h : TablesDeclared s₀ Live m links tables _) => h.mono hext).imp (fun _ h => ⟨h.links, h⟩)
      fun _ _ h => h) fun init s ⟨⟨h, hinit⟩, htables⟩ => ?_
  have hext := h.stage.same { s with tableTypes := s.tableTypes ++ [decl.ty] } rfl rfl rfl rfl rfl
  unfold TableInst.new
  by_cases hlimit : maxTableElements < decl.ty.limits.min
  · rw [if_pos hlimit]
    exact ⟨hext, nofun⟩
  · rw [if_neg hlimit]
    have hnew : ¬ s.Has (.table s.tables.length) := Nat.lt_irrefl _
    have hpush : Extends s₀ Live { s with tableTypes := s.tableTypes ++ [decl.ty] } { s with
        tableTypes := s.tableTypes ++ [decl.ty]
        tables := s.tables ++
          [⟨decl.ty, ⟨List.replicate decl.ty.limits.min init, decl.ty.limits.max⟩⟩] } := by
      refine hext.stage.next (fun p hp => ?_) (hext.stage.closed.pushTable fun hlive r hr => ?_) rfl
      · cases p <;> simp only [Store.Has, List.length_append, List.length_singleton] at hp ⊢ <;> omega
      · rw [List.eq_of_mem_replicate hr]
        exact fun q hq => (hinit (full_of_new hmode h.stage hlive hnew) q hq).mono hext.has
    have hboth := extends_trans _ _ _ hext hpush
    refine ⟨hboth, fun tables' htables' => ?_⟩
    cases htables'
    refine ⟨h.mono hboth, fun t c hc => ?_, ?_⟩
    · rcases Closed.getElem?_append_one hc with hc | ⟨rfl, rfl⟩
      · exact htables.known.mono hboth t c hc
      · refine .inr ⟨htables.imported, fun hhas => hnew (h.stage.grows _ hhas), ?_⟩
        change s.tables.length < (s.tables ++ [_]).length
        simp
    · rw [List.length_append]
      exact Nat.le_add_right_of_le htables.imported

theorem declareGlobal_runs (globals : List Nat) (decl : GlobalDecl) :
    Fallible.Runs (Extends s₀ Live) (GlobalsDeclared s₀ Live m globals)
      (declareGlobal rt m s₀.instances.length globals decl) (GlobalsDeclared s₀ Live m) := by
  have hvalue : Fallible.Runs (Extends s₀ Live) (GlobalsDeclared s₀ Live m globals)
      (Fallible.withState fun s =>
        evalConst rt m s₀.instances.length decl.init (globalValues s globals))
      (fun v s => (Stage s₀ Live s ∧ (Full s₀ Live → OkVal (Known s₀ Live s) v)) ∧
        GlobalsDeclared s₀ Live m globals s) := by
    refine Fallible.Runs.withState fun s h => ?_
    refine ((evalConst_runs hmode decl.init).frame fun _ _ hext
      (h : GlobalsDeclared s₀ Live m globals _) => h.mono hext).imp ?_
      fun v s h => ⟨⟨h.1.1.1, fun hfull => h.1.2 (.inl hfull)⟩, h.2⟩
    rintro s' rfl
    exact ⟨⟨h.stage, h.known.values h.stage⟩, h⟩
  refine Fallible.Runs.bind extends_trans hvalue fun v s ⟨⟨h, hv⟩, hglobals⟩ => ?_
  have hext := h.same { s with globalTypes := s.globalTypes ++ [decl.ty] } rfl rfl rfl rfl rfl
  have hnew : ¬ s.Has (.global s.globals.length) := Nat.lt_irrefl _
  have hpush : Extends s₀ Live { s with globalTypes := s.globalTypes ++ [decl.ty] } { s with
      globalTypes := s.globalTypes ++ [decl.ty]
      globals := s.globals ++ [⟨decl.ty, v⟩] } := by
    refine hext.stage.next (fun p hp => ?_) (hext.stage.closed.pushGlobal fun hlive q hq => ?_) rfl
    · cases p <;> simp only [Store.Has, List.length_append, List.length_singleton] at hp ⊢ <;> omega
    · exact (hv (full_of_new hmode h hlive hnew) q hq).mono hext.has
  have hboth := extends_trans _ _ _ hext hpush
  refine ⟨hboth, fun globals' hglobals' => ?_⟩
  cases hglobals'
  refine ⟨hboth.stage, fun g c hc htrack => ?_, ?_⟩
  · rcases Closed.getElem?_append_one hc with hc | ⟨rfl, rfl⟩
    · exact (hglobals.known g c hc htrack).mono hboth.has
    · have hfull : Full s₀ Live :=
        htrack.elim id fun hlt => absurd hlt (Nat.not_lt.mpr hglobals.imported)
      refine ⟨hfull _ fun hhas => hnew (h.grows _ hhas), .inl ?_⟩
      change s.globals.length < (s.globals ++ [_]).length
      simp
  · rw [List.length_append]
    exact Nat.le_add_right_of_le hglobals.imported

/-- What is known of an instance before it is in the store. -/
structure Allocated (s₀ : Store) (Live : Place → Prop) (m : Module) (linked : Linked) (s : Store) :
    Prop where
  stage : Stage s₀ Live s
  places : Full s₀ Live → ∀ q ∈ linked.places, Known s₀ Live s q
  globals : GlobalsKnown s₀ Live m linked.globals s
  own : ∀ (t c : Nat), linked.tables[t]? = some c → (importedTables m).length ≤ t →
    ¬ s₀.Has (.table c)
  module : linked.module = m
  elements : linked.elementSegments = []
  data : linked.dataSegments = []

theorem allocate_runs (htables : links.tables.length = (importedTables m).length)
    (hglobals : links.globals.length = (importedGlobals m).length) :
    Fallible.Runs (Extends s₀ Live) (LinksKnown s₀ Live links)
      (allocate rt m s₀.instances.length links) (Allocated s₀ Live m) := by
  have htags : Fallible.Runs (Extends s₀ Live) (LinksKnown s₀ Live links)
      (m.tags.foldlM (declareTag s₀.instances.length m) links.tags)
      fun _ => TablesDeclared s₀ Live m links links.tables :=
    (Fallible.Runs.foldlM extends_trans (fun _ _ h => h.stage.refl)
      (fun tags typeIndex _ => declareTag_runs tags typeIndex) links.tags).imp (fun _ h => h)
        fun _ _ h => h.tablesDeclared htables
  have hdeclared : Fallible.Runs (Extends s₀ Live) (TablesDeclared s₀ Live m links links.tables)
      (m.tables.foldlM (declareTable rt m s₀.instances.length links.globals) links.tables)
      (TablesDeclared s₀ Live m links) :=
    Fallible.Runs.foldlM extends_trans (fun _ _ h => h.links.stage.refl)
      (fun tables decl _ => declareTable_runs hmode tables decl) links.tables
  have hmemories : ∀ tables, Fallible.Runs (Extends s₀ Live) (TablesDeclared s₀ Live m links tables)
      (m.memories.foldlM declareMemory links.memories)
      fun _ => TablesDeclared s₀ Live m links tables := by
    intro tables
    refine ((Fallible.Runs.foldlM extends_trans (fun _ _ h => h.stage.refl)
      (fun memories ty _ => declareMemory_runs memories ty) links.memories).frame
        fun _ _ hext h => TablesDeclared.mono h hext).imp (fun _ h => ⟨h.links, h⟩) fun _ _ h => h.2
  have hown : ∀ tables, Fallible.Runs (Extends s₀ Live) (TablesDeclared s₀ Live m links tables)
      (m.globals.foldlM (declareGlobal rt m s₀.instances.length) links.globals)
      fun globals s => GlobalsDeclared s₀ Live m globals s ∧ TablesDeclared s₀ Live m links tables s := by
    intro tables
    refine ((Fallible.Runs.foldlM extends_trans (fun _ _ h => h.stage.refl)
      (fun globals decl _ => declareGlobal_runs hmode globals decl) links.globals).frame
        fun _ _ hext h => TablesDeclared.mono h hext).imp ?_ fun _ _ h => h
    exact fun s h => ⟨⟨h.links.stage, h.links.globalsKnown, Nat.le_of_eq hglobals.symm⟩, h⟩
  refine Fallible.Runs.bind extends_trans htags fun tags => ?_
  refine Fallible.Runs.bind extends_trans hdeclared fun tables => ?_
  refine Fallible.Runs.bind extends_trans (hmemories tables) fun memories => ?_
  refine Fallible.Runs.bind extends_trans (hown tables) fun globals => ?_
  refine Fallible.Runs.pure (fun s h => h.1.stage.refl) ?_
  rintro s ⟨⟨hstage, hglobals, -⟩, ⟨hlinks, htables, -⟩⟩
  refine ⟨hstage, fun hfull q hq => ?_, hglobals, fun t c hc ht => ?_, rfl, rfl, rfl⟩
  · simp only [Linked.places, List.flatMap_nil, List.append_nil, List.mem_append, List.mem_filterMap,
      List.mem_map] at hq
    rcases hq with (⟨target, htarget, hq⟩ | ⟨c, hc, rfl⟩) | ⟨c, hc, rfl⟩
    · rcases htarget with htarget | ⟨defined, -, rfl⟩
      · exact hlinks.funcs target htarget q hq
      · cases hq
        exact ⟨hfull _ (Nat.lt_irrefl _), .inr rfl⟩
    · obtain ⟨t, ht⟩ := List.getElem?_of_mem hc
      rcases htables t c ht with ⟨-, hknown⟩ | ⟨-, hnew, hhas⟩
      · exact hknown
      · exact ⟨hfull _ hnew, .inl hhas⟩
    · obtain ⟨g, hg⟩ := List.getElem?_of_mem hc
      exact hglobals g c hg (.inl hfull)
  · rcases htables t c hc with ⟨hlt, -⟩ | ⟨-, hnew, -⟩
    · exact absurd ht (Nat.not_le.mpr hlt)
    · exact hnew

end Allocate

end Stage

end Slag.Wasm.Linking
