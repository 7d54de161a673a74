import Slag.Wasm.Bodies
import Slag.Wasm.Stages

/-!
The segments of instances over runs of a host, instantiations that fail
included: which instances a host can reach, and that their code names no segment
the instance does not have.
-/

namespace Slag.Wasm.Linking

open World (ExternVal InstantiateError)

/-! ## Imports -/

variable {resolve : Nat → Option ExternVal} {segments : List ElementSegment}

section Imports

variable {s : Store} {m : Module} {Live : Place → Prop}

/-- The places an instance gets from its imports. -/
structure LinksIn (Live : Place → Prop) (links : Links) : Prop where
  funcs : ∀ target ∈ links.funcs, ∀ p, targetPlace target = some p → Live p
  tables : ∀ c ∈ links.tables, Live (.table c)
  globals : ∀ c ∈ links.globals, Live (.global c)

variable {links : Links} {desc : ImportDesc}

theorem LinksIn.known {Live' : Place → Prop} (h : LinksIn Live links) (hs : Stage s Live' s)
    (hknown : ∀ p, Live p → Known s Live' s p) : LinksKnown s Live' links s :=
  ⟨hs, fun t ht p hp => hknown p (h.funcs t ht p hp), fun c hc => hknown _ (h.tables c hc),
    fun c hc => hknown _ (h.globals c hc)⟩

variable {value : Option ExternVal}

theorem linkFunc_in (hclosed : Closed s Live Live) {typeIndex : Nat} {target : FuncTarget}
    (hvalue : ∀ v p, value = some v → externPlace v = some p → Live p)
    (h : s.world.linkFunc m typeIndex value = .ok target) {p : Place} (hp : targetPlace target = some p) :
    Live p := by
  unfold World.linkFunc at h
  split at h
  · cases h
  · cases World.checked_eq_ok h
    cases hp
  · rename_i inst index
    split at h
    · cases h
    · rename_i found hfound
      cases World.checked_eq_ok h
      obtain ⟨i, hi, htarget⟩ := Option.bind_eq_some_iff.mp hfound
      rw [Store.world, List.getElem?_map] at hi
      obtain ⟨linked, hlinked, rfl⟩ := Option.map_eq_some_iff.mp hi
      refine hclosed.inst inst linked (hvalue _ _ rfl rfl) hlinked p ?_
      simp only [Linked.places, List.mem_append, List.mem_filterMap]
      exact .inl (.inl (.inl ⟨_, List.mem_of_getElem? htarget, hp⟩))
  · cases h
  · cases h

theorem linkImport_in (hclosed : Closed s Live Live) {links links' : Links}
    (hvalue : ∀ v p, value = some v → externPlace v = some p → Live p)
    (h : linkImport s m links value desc = .ok links') (hlinks : LinksIn Live links) :
    LinksIn Live links' := by
  cases desc with
  | func typeIndex =>
      obtain ⟨target, htarget, h⟩ := bind_eq_ok.mp h
      cases h
      refine ⟨fun t ht p hp => ?_, hlinks.tables, hlinks.globals⟩
      rcases List.mem_append.mp ht with ht | ht
      · exact hlinks.funcs t ht p hp
      · cases List.mem_singleton.mp ht
        exact linkFunc_in hclosed hvalue htarget hp
  | table ty =>
      obtain ⟨cell, hcell, h⟩ := bind_eq_ok.mp h
      cases h
      refine ⟨hlinks.funcs, fun c hc => ?_, hlinks.globals⟩
      rcases List.mem_append.mp hc with hc | hc
      · exact hlinks.tables c hc
      · cases List.mem_singleton.mp hc
        unfold linkTable at hcell
        split at hcell
        · cases hcell
        · split at hcell <;> cases hcell
          exact hvalue _ _ rfl rfl
        · cases hcell
        · cases hcell
  | global ty =>
      obtain ⟨cell, hcell, h⟩ := bind_eq_ok.mp h
      cases h
      refine ⟨hlinks.funcs, hlinks.tables, fun c hc => ?_⟩
      rcases List.mem_append.mp hc with hc | hc
      · exact hlinks.globals c hc
      · cases List.mem_singleton.mp hc
        unfold linkGlobal at hcell
        split at hcell
        · cases hcell
        · split at hcell
          · cases hcell
          · split at hcell <;> cases hcell
            exact hvalue _ _ rfl rfl
        · cases hcell
        · cases hcell
  | memory ty =>
      obtain ⟨cell, hcell, h⟩ := bind_eq_ok.mp h
      cases h
      exact ⟨hlinks.funcs, hlinks.tables, hlinks.globals⟩
  | tag typeIndex =>
      obtain ⟨cell, hcell, h⟩ := bind_eq_ok.mp h
      cases h
      exact ⟨hlinks.funcs, hlinks.tables, hlinks.globals⟩

theorem linkImport_lengths {links links' : Links} (h : linkImport s m links value desc = .ok links') :
    links'.tables.length = links.tables.length + (importedTables { imports := [desc] }).length ∧
      links'.globals.length = links.globals.length + (importedGlobals { imports := [desc] }).length := by
  cases desc <;> obtain ⟨target, htarget, h⟩ := bind_eq_ok.mp h <;> cases h <;>
    simp [importedTables, importedGlobals]

/-- The links of a module are places of the set, one for each import. -/
theorem linkImports_in (hclosed : Closed s Live Live)
    (hresolve : ∀ k v p, resolve k = some v → externPlace v = some p → Live p)
    (h : linkImports s m resolve = .ok links) :
    LinksIn Live links ∧ links.tables.length = (importedTables m).length ∧
      links.globals.length = (importedGlobals m).length := by
  have hfold : ∀ (l : List (ImportDesc × Nat)) (links links' : Links), LinksIn Live links →
      l.foldlM (fun links p => linkImport s m links (resolve p.2) p.1) links = .ok links' →
      LinksIn Live links' ∧
        links'.tables.length =
          links.tables.length + (importedTables { imports := l.map Prod.fst }).length ∧
        links'.globals.length =
          links.globals.length + (importedGlobals { imports := l.map Prod.fst }).length := by
    intro l
    induction l with
    | nil =>
        intro links links' hlinks h
        cases h
        exact ⟨hlinks, rfl, rfl⟩
    | cons p l ih =>
        intro links links' hlinks h
        rw [List.foldlM_cons] at h
        obtain ⟨links₁, hfirst, h⟩ := bind_eq_ok.mp h
        obtain ⟨htables, hglobals⟩ := linkImport_lengths hfirst
        obtain ⟨hin, htables', hglobals'⟩ := ih links₁ links'
          (linkImport_in hclosed (fun v p hv hp => hresolve _ v p hv hp) hfirst hlinks) h
        refine ⟨hin, ?_, ?_⟩
        · rw [htables', htables, Nat.add_assoc, ← List.length_append, importedTables, importedTables,
            ← List.filterMap_append]
          rfl
        · rw [hglobals', hglobals, Nat.add_assoc, ← List.length_append, importedGlobals, importedGlobals,
            ← List.filterMap_append]
          rfl
  have hempty : LinksIn Live {} := ⟨by simp, by simp, by simp⟩
  obtain ⟨hin, htables, hglobals⟩ := hfold _ _ _ hempty h
  rw [List.zipIdx_map_fst] at htables hglobals
  exact ⟨hin, htables.trans (Nat.zero_add _), hglobals.trans (Nat.zero_add _)⟩

end Imports

/-! ## Segments of a new instance -/

variable {e : InstantiateError} {segment : DataSegment}

section Counts

variable {rt : Runtime} {m : Module} {self elements data : Nat} {s s' : Store}

/-- An instance of a module has so many segments. -/
def Counts (m : Module) (self elements data : Nat) (s : Store) : Prop :=
  ∃ linked, s.instances[self]? = some linked ∧ linked.module = m ∧
    linked.elementSegments.length = elements ∧ linked.dataSegments.length = data

theorem counts_ignoresObjects : IgnoresObjects (Counts m self elements data) :=
  fun _ _ h => h

theorem counts_initElement {segment : ElementSegment} (h : Counts m self elements data s)
    (hrun : initElement rt m self segment s = (.ok (), s')) :
    Counts m self (elements + 1) data s' := by
  obtain ⟨plan, s₁, hp, rfl⟩ := initElement_ok hrun
  have hplan : Counts m self elements data (planElement rt m self segment s).2 :=
    keeps_planElement counts_ignoresObjects segment s h
  rw [hp] at hplan
  obtain ⟨linked, hl, hm, he, hd⟩ := hplan
  have hl' : (copyItems s₁ plan.1 plan.2).instances[self]? = some linked := by
    cases plan.2 <;> exact hl
  refine ⟨{ linked with elementSegments := linked.elementSegments ++ [keptItems segment plan.1] },
    ?_, hm, ?_, hd⟩
  · simp only [pushElementSegment]
    rw [List.getElem?_modify, hl']
    simp
  · simp [he]

theorem counts_initElement_error {segment : ElementSegment} (h : Counts m self elements data s)
    (hrun : initElement rt m self segment s = (.error e, s')) :
    Counts m self elements data s' := by
  have hplan : Counts m self elements data (planElement rt m self segment s).2 :=
    keeps_planElement counts_ignoresObjects segment s h
  rwa [initElement_failed hrun] at hplan

theorem initData_failed (h : initData rt m self segment s = (.error e, s')) :
    planData rt m self segment s = (.error e, s') :=
  Fallible.bind_update_error (g := fun target s =>
    pushDataSegment self (copyBytes s segment.bytes target) (keptBytes segment)) h

theorem counts_initData (h : Counts m self elements data s)
    (hrun : initData rt m self segment s = (.ok (), s')) :
    Counts m self elements (data + 1) s' := by
  obtain ⟨target, s₁, hp, rfl⟩ := Fallible.bind_update_ok (g := fun target s =>
    pushDataSegment self (copyBytes s segment.bytes target) (keptBytes segment)) hrun
  have hplan : Counts m self elements data (planData rt m self segment s).2 :=
    keeps_planData counts_ignoresObjects segment s h
  rw [hp] at hplan
  obtain ⟨linked, hl, hm, he, hd⟩ := hplan
  have hl' : (copyBytes s₁ segment.bytes target).instances[self]? = some linked := by
    cases target <;> exact hl
  refine ⟨{ linked with dataSegments := linked.dataSegments ++ [keptBytes segment] }, ?_, hm, he, ?_⟩
  · simp only [pushDataSegment]
    rw [List.getElem?_modify, hl']
    simp
  · simp [hd]

theorem counts_initData_error (h : Counts m self elements data s)
    (hrun : initData rt m self segment s = (.error e, s')) :
    Counts m self elements data s' := by
  have hplan : Counts m self elements data (planData rt m self segment s).2 :=
    keeps_planData counts_ignoresObjects segment s h
  rwa [initData_failed hrun] at hplan

/-- One segment for each element of a list. -/
theorem counts_elements (h : Counts m self 0 0 s)
    (hrun : segments.forM (initElement rt m self) s = (.ok (), s')) :
    Counts m self segments.length 0 s' := by
  have hall := Fallible.forM_counts (P := fun n => Counts m self n 0)
    (fun _ _ _ _ h hrun => counts_initElement h hrun) h hrun
  rwa [Nat.zero_add] at hall

theorem counts_data {segments : List DataSegment} (h : Counts m self elements 0 s)
    (hrun : segments.forM (initData rt m self) s = (.ok (), s')) :
    Counts m self elements segments.length s' := by
  have hall := Fallible.forM_counts (P := fun n => Counts m self elements n)
    (fun _ _ _ _ h hrun => counts_initData h hrun) h hrun
  rwa [Nat.zero_add] at hall

end Counts

/-! ## Instantiations -/

/-- The items and the offset of a segment evaluate, and it is within its table. -/
def ElementFits (rt : Runtime) (m : Module) (self : Nat) (segment : ElementSegment) (s : Store) : Prop :=
  ∃ plan s', planElement rt m self segment s = (.ok plan, s')

def DataFits (rt : Runtime) (m : Module) (self : Nat) (segment : DataSegment) (s : Store) : Prop :=
  ∃ target s', planData rt m self segment s = (.ok target, s')

/-- Where a segment does not fit, none before it hands a reference of the
instance out, or the code names only segments before it. -/
structure SegmentsContained (rt : Runtime) (m : Module) (inst : Nat) (s : Store) : Prop where
  elements : ∀ before segment after s', m.elements = before ++ segment :: after →
    before.forM (initElement rt m inst) s = (.ok (), s') →
    ElementFits rt m inst segment s' ∨ (∀ e ∈ before, ¬ Handing m e) ∨ Covers m before.length 0
  data : ∀ before segment after s' s'', m.data = before ++ segment :: after →
    m.elements.forM (initElement rt m inst) s = (.ok (), s') →
    before.forM (initData rt m inst) s' = (.ok (), s'') →
    DataFits rt m inst segment s'' ∨ (∀ e ∈ m.elements, ¬ Handing m e) ∨
      Covers m m.elements.length before.length

def Op.Contained (rt : Runtime) (s : Store) : Op → Prop
  | .instantiate m resolve => ∀ links linked s', linkImports s m resolve = .ok links →
      allocate rt m s.instances.length links s = (.ok linked, s') →
      SegmentsContained rt m s.instances.length { s' with instances := s'.instances ++ [linked] }
  | _ => True

section Prepare

variable {s₀ s : Store} {Live : Place → Prop} {m : Module} {rt : Runtime}

/-- The set with all new places. -/
def withNew (s₀ : Store) (Live : Place → Prop) (p : Place) : Prop :=
  Live p ∨ ¬ s₀.Has p

theorem full_withNew : Full s₀ (withNew s₀ Live) :=
  fun _ hp => .inr hp

theorem Enclosed.stage (h : Enclosed s₀ Live) : Stage s₀ Live s₀ where
  grows := fun _ hp => hp
  closed := h.closed.mono (fun _ hp => hp) fun p hp => ⟨hp, .inl (h.has p hp)⟩
  insts := fun _ _ => rfl

theorem Enclosed.stage_withNew (h : Enclosed s₀ Live) : Stage s₀ (withNew s₀ Live) s₀ where
  grows := fun _ hp => hp
  closed := (h.closed.widen fun _ hp => hp).mono (fun _ hp => hp) fun p hp => ⟨.inl hp, .inl (h.has p hp)⟩
  insts := fun _ _ => rfl

/-- The old set is closed also at a later stage. -/
theorem Enclosed.of_stage (h : Enclosed s₀ Live) (hs : Stage s₀ Live s) : Enclosed s Live where
  has := fun p hp => hs.grows p (h.has p hp)
  closed := hs.closed.mono (fun _ hp => hp) fun _ hp => hp.1
  covered := by
    intro i linked hi hl
    rw [hs.insts i (h.has _ hi)] at hl
    exact h.covered i linked hi hl

/-- So is the set with what is new, once the new instance is there with the
segments its code names. -/
theorem Enclosed.of_stage_withNew (h : Enclosed s₀ Live) (hs : Stage s₀ (withNew s₀ Live) s)
    (hcount : s.instances.length = s₀.instances.length + 1) {elements data : Nat}
    (hcounts : Counts m s₀.instances.length elements data s) (hcovers : Covers m elements data) :
    Enclosed s fun p => withNew s₀ Live p ∧ s.Has p where
  has := fun _ hp => hp.2
  closed := by
    refine hs.closed.mono (fun _ hp => hp.1) fun p hp => ⟨hp.1, ?_⟩
    rcases hp.2 with hhas | rfl
    · exact hhas
    · change s₀.instances.length < s.instances.length
      omega
  covered := by
    intro i linked hi hl
    have hlt : i < s.instances.length := hi.2
    rcases Nat.lt_or_eq_of_le (Nat.le_of_lt_succ (hcount ▸ hlt)) with hlt | rfl
    · rw [hs.insts i hlt] at hl
      exact h.covered i linked (hi.1.resolve_right fun hn => hn hlt) hl
    · obtain ⟨l, hl', rfl, rfl, rfl⟩ := hcounts
      rw [hl'] at hl
      cases hl
      exact hcovers

variable {linked : Linked}

/-- The instance joins the store. -/
theorem Allocated.placed (h : Allocated s₀ Live m linked s)
    (hcount : s.instances.length = s₀.instances.length) (hmode : Full s₀ Live ∨ Fresh s₀ Live) :
    Placed s₀ Live m linked { s with instances := s.instances ++ [linked] } := by
  have hhas : ∀ p, s.Has p → Store.Has { s with instances := s.instances ++ [linked] } p := by
    intro p hp
    cases p <;> simp only [Store.Has, List.length_append, List.length_singleton] at hp ⊢ <;> omega
  refine ⟨⟨fun p hp => hhas p (h.stage.grows p hp), ?_, fun i hi => ?_⟩, ⟨linked, ?_, rfl, rfl⟩,
    h.globals.mono hhas⟩
  · refine (h.stage.closed.pushInst fun hlive => h.places ?_).mono (fun _ hp => hp)
      fun p hp => hp.mono hhas
    exact full_of_new hmode h.stage hlive (Nat.lt_irrefl _)
  · have hsame : (s.instances ++ [linked])[i]? = s.instances[i]? :=
      List.getElem?_append_left (hcount ▸ hi)
    exact hsame.trans (h.stage.insts i hi)
  · have hnew : (s.instances ++ [linked])[s.instances.length]? = some linked :=
      List.getElem?_concat_length ..
    exact hcount ▸ hnew

variable {s' : Store}

theorem ElementFits.initElement {segment : ElementSegment} {self : Nat}
    (h : ElementFits rt m self segment s) :
    initElement rt m self segment s ≠ (.error e, s') := by
  obtain ⟨plan, s₁, hplan⟩ := h
  intro hrun
  cases hplan.symm.trans (initElement_failed hrun)

theorem DataFits.initData {self : Nat} (h : DataFits rt m self segment s) :
    initData rt m self segment s ≠ (.error e, s') := by
  obtain ⟨target, s₁, hplan⟩ := h
  intro hrun
  cases hplan.symm.trans (initData_failed hrun)

section Segments

variable {linked : Linked} (hmode : Full s₀ Live ∨ Fresh s₀ Live)
  (hown : ∀ (t c : Nat), linked.tables[t]? = some c → (importedTables m).length ≤ t →
    ¬ s₀.Has (.table c))

include hmode

include hown in
theorem Placed.elements (h : Placed s₀ Live m linked s)
    (hsegments : Full s₀ Live ∨ ∀ e ∈ segments, ¬ Handing m e)
    (hrun : segments.forM (initElement rt m s₀.instances.length) s = (.ok (), s')) :
    Extends s₀ Live s s' :=
  (Fallible.Runs.forM extends_trans (fun _ h => h.stage.refl) fun e he =>
    initElement_runs hmode hown (hsegments.imp_right fun hs => hs e he)).ends h hrun

theorem Placed.data {segments : List DataSegment} (h : Placed s₀ Live m linked s)
    (hrun : segments.forM (initData rt m s₀.instances.length) s = (.ok (), s')) :
    Extends s₀ Live s s' :=
  (Fallible.Runs.forM extends_trans (fun _ h => h.stage.refl) fun e _ => initData_runs hmode e).ends h hrun

end Segments

/-- The segments of a new instance, gone through or not, leave a closed set;
if they are gone through, the instance is in it. -/
theorem segments_enclosed (henclosed : Enclosed s₀ Live)
    (hown : ∀ (t c : Nat), linked.tables[t]? = some c → (importedTables m).length ≤ t →
      ¬ s₀.Has (.table c)) (hold : Placed s₀ Live m linked s)
    (hnew : Placed s₀ (withNew s₀ Live) m linked s)
    (hcount : s.instances.length = s₀.instances.length + 1)
    (hcounts : Counts m s₀.instances.length 0 0 s)
    (hcontained : SegmentsContained rt m s₀.instances.length s)
    (hcovers : Covers m m.elements.length m.data.length) {r : Except InstantiateError Unit}
    (hrun : (m.elements.forM (initElement rt m s₀.instances.length) >>= fun _ =>
      m.data.forM (initData rt m s₀.instances.length)) s = (r, s')) :
    ∃ Live', (∀ p, Live p → Live' p) ∧ Enclosed s' Live' ∧
      (r = .ok () → Live' (.inst s₀.instances.length)) := by
  have hfresh : Full s₀ Live ∨ Fresh s₀ Live := .inr henclosed.has
  have hfull : Full s₀ (withNew s₀ Live) ∨ Fresh s₀ (withNew s₀ Live) := .inl full_withNew
  -- Nothing of the instance was handed out, or its code is covered.
  have hfailed : ∀ {s' : Store} {e d : Nat}, Stage s₀ Live s' ∨
      (Extends s₀ (withNew s₀ Live) s s' ∧ Counts m s₀.instances.length e d s' ∧ Covers m e d) →
      ∃ Live', (∀ p, Live p → Live' p) ∧ Enclosed s' Live' := by
    rintro s' e d (hstage | ⟨hext, hc, hcov⟩)
    · exact ⟨Live, fun _ hp => hp, henclosed.of_stage hstage⟩
    · refine ⟨_, fun p hp => ⟨.inl hp, ?_⟩,
        henclosed.of_stage_withNew hext.stage (hext.count.trans hcount) hc hcov⟩
      exact hext.stage.grows p (henclosed.has p hp)
  rcases Fallible.forM_cases (initElement rt m s₀.instances.length) m.elements s with
    ⟨s₁, hall⟩ | ⟨before, segment, rest, s₁, e, s₂, hlist, hbefore, hsegment, hall⟩
  · rw [Fallible.bind_ok hall] at hrun
    have hext := hnew.elements hfull hown (.inl full_withNew) hall
    have hcounts₁ := counts_elements hcounts hall
    rcases Fallible.forM_cases (initData rt m s₀.instances.length) m.data s₁ with
      ⟨s₂, hdata⟩ | ⟨before, segment, rest, s₂, e, s₃, hlist, hbefore, hsegment, hdata⟩
    · rw [hdata] at hrun
      cases hrun
      have hext₂ := extends_trans _ _ _ hext ((hnew.mono hext).data hfull hdata)
      have hcounts₂ := counts_data hcounts₁ hdata
      have hcount₂ := hext₂.count.trans hcount
      refine ⟨_, fun p hp => ⟨.inl hp, hext₂.stage.grows p (henclosed.has p hp)⟩,
        henclosed.of_stage_withNew hext₂.stage hcount₂ hcounts₂ hcovers, fun _ => ?_⟩
      refine ⟨.inr (Nat.lt_irrefl _), ?_⟩
      change s₀.instances.length < s'.instances.length
      omega
    · rw [hdata] at hrun
      cases hrun
      have hcase : Stage s₀ Live s' ∨ (Extends s₀ (withNew s₀ Live) s s' ∧
          Counts m s₀.instances.length m.elements.length before.length s' ∧
          Covers m m.elements.length before.length) := by
        rcases hcontained.data before segment rest s₁ s₂ hlist hall hbefore with
          hfits | hhanding | hcov
        · exact absurd hsegment hfits.initData
        · have hext' := hold.elements hfresh hown (.inr hhanding) hall
          have hext₂ := (hold.mono hext').data hfresh hbefore
          exact .inl ((initData_runs hfresh segment).ends ((hold.mono hext').mono hext₂) hsegment).stage
        · have hext₂ := (hnew.mono hext).data hfull hbefore
          have hext₃ := (initData_runs hfull segment).ends ((hnew.mono hext).mono hext₂) hsegment
          have hcounts₂ := counts_data hcounts₁ hbefore
          exact .inr ⟨extends_trans _ _ _ (extends_trans _ _ _ hext hext₂) hext₃,
            counts_initData_error hcounts₂ hsegment, hcov⟩
      obtain ⟨Live', hsub, henc⟩ := hfailed hcase
      exact ⟨Live', hsub, henc, nofun⟩
  · rw [Fallible.bind_error hall] at hrun
    cases hrun
    have hcase : Stage s₀ Live s' ∨ (Extends s₀ (withNew s₀ Live) s s' ∧
        Counts m s₀.instances.length before.length 0 s' ∧ Covers m before.length 0) := by
      rcases hcontained.elements before segment rest s₁ hlist hbefore with hfits | hhanding | hcov
      · exact absurd hsegment hfits.initElement
      · have hext := hold.elements hfresh hown (.inr hhanding) hbefore
        exact .inl (initElement_error hfresh (hold.mono hext) hsegment).stage
      · have hext := hnew.elements hfull hown (.inl full_withNew) hbefore
        have hext₂ := initElement_error hfull (hnew.mono hext) hsegment
        have hcounts₁ := counts_elements hcounts hbefore
        exact .inr ⟨extends_trans _ _ _ hext hext₂, counts_initElement_error hcounts₁ hsegment, hcov⟩
    obtain ⟨Live', hsub, henc⟩ := hfailed hcase
    exact ⟨Live', hsub, henc, nofun⟩

/-- What an instantiation leaves before its start function runs. -/
theorem prepare_enclosed (henclosed : Enclosed s₀ Live)
    (hresolve : ∀ k v p, resolve k = some v → externPlace v = some p → Live p)
    (hcontained : Op.Contained rt s₀ (.instantiate m resolve))
    (hcovers : Covers m m.elements.length m.data.length) {r : Except InstantiateError Nat}
    (hrun : prepare rt m resolve s₀ = (r, s')) :
    ∃ Live', (∀ p, Live p → Live' p) ∧ Enclosed s' Live' ∧ ∀ self, r = .ok self → Live' (.inst self) := by
  have hfresh : Full s₀ Live ∨ Fresh s₀ Live := .inr henclosed.has
  have hfull : Full s₀ (withNew s₀ Live) ∨ Fresh s₀ (withNew s₀ Live) := .inl full_withNew
  have hself : prepare rt m resolve s₀ = (Fallible.read (fun s => linkImports s m resolve) >>=
      fun links => allocate rt m s₀.instances.length links >>= fun linked =>
        initSegments rt m s₀.instances.length linked >>= fun _ => pure s₀.instances.length) s₀ := rfl
  rw [hself] at hrun
  cases hlinks : linkImports s₀ m resolve with
  | error e =>
      rw [Fallible.bind_read_error (f := fun s => linkImports s m resolve) (s := s₀) hlinks] at hrun
      cases hrun
      exact ⟨Live, fun _ hp => hp, henclosed, nofun⟩
  | ok links =>
      rw [Fallible.bind_read_ok (f := fun s => linkImports s m resolve) (s := s₀) hlinks] at hrun
      obtain ⟨hin, htables, hglobals⟩ := linkImports_in henclosed.closed hresolve hlinks
      obtain ⟨hext, hallocated⟩ := allocate_runs (m := m) hfresh htables hglobals s₀
        (hin.known henclosed.stage fun p hp => ⟨hp, .inl (henclosed.has p hp)⟩)
      obtain ⟨hext', hallocated'⟩ := allocate_runs (m := m) hfull htables hglobals s₀
        (hin.known henclosed.stage_withNew fun p hp => ⟨.inl hp, .inl (henclosed.has p hp)⟩)
      rcases Fallible.cases (allocate rt m s₀.instances.length links) s₀ with
        ⟨linked, s₁, halloc⟩ | ⟨e, s₁, halloc⟩
      · rw [Fallible.bind_ok halloc] at hrun
        rw [halloc] at hext hallocated hext' hallocated'
        have hplaced := (hallocated linked rfl).placed hext.count hfresh
        have hplaced' := (hallocated' linked rfl).placed hext'.count hfull
        have hcounts : Counts m s₀.instances.length 0 0
            { s₁ with instances := s₁.instances ++ [linked] } := by
          obtain ⟨-, -, -, -, hmodule, helements, hdata⟩ := hallocated linked rfl
          refine ⟨linked, ?_, hmodule, by rw [helements]; rfl, by rw [hdata]; rfl⟩
          have hlast : (s₁.instances ++ [linked])[s₁.instances.length]? = some linked :=
            List.getElem?_concat_length ..
          exact hext.count ▸ hlast
        have hcount : (s₁.instances ++ [linked]).length = s₀.instances.length + 1 := by
          rw [List.length_append, hext.count]
          rfl
        have hsegments := fun {r : Except InstantiateError Unit} {s' : Store}
            (hinit : initSegments rt m s₀.instances.length linked s₁ = (r, s')) =>
          segments_enclosed henclosed (hallocated linked rfl).own hplaced hplaced' hcount hcounts
            (hcontained links linked s₁ hlinks halloc) hcovers hinit
        rcases Fallible.cases (initSegments rt m s₀.instances.length linked) s₁ with
          ⟨⟨⟩, s₂, hinit⟩ | ⟨e, s₂, hinit⟩
        · rw [Fallible.bind_ok hinit] at hrun
          obtain ⟨hr, rfl⟩ := Prod.mk.inj hrun
          obtain ⟨Live', hsub, henc, hinst⟩ := hsegments hinit
          refine ⟨Live', hsub, henc, fun self hself => ?_⟩
          cases hr.trans hself
          exact hinst rfl
        · rw [Fallible.bind_error hinit] at hrun
          obtain ⟨hr, rfl⟩ := Prod.mk.inj hrun
          obtain ⟨Live', hsub, henc, -⟩ := hsegments hinit
          exact ⟨Live', hsub, henc, fun self hself => nomatch hr.trans hself⟩
      · rw [Fallible.bind_error halloc] at hrun
        rw [halloc] at hext
        obtain ⟨hr, rfl⟩ := Prod.mk.inj hrun
        exact ⟨Live, fun _ hp => hp, henclosed.of_stage hext.stage,
          fun self hself => nomatch hr.trans hself⟩

end Prepare

/-! ## Valid modules -/

section Valid

variable {m : Module} {sp : Spaces}

theorem dataIndex_lt (hspaces : sp.module = m) (hlimits : validateModuleLimits m = .ok ()) {index : Nat}
    (h : sp.dataIndex index = .ok ()) : index < m.data.length := by
  obtain ⟨-, hcount⟩ := bind_unit_eq_ok.mp hlimits
  unfold Spaces.dataIndex at h
  rw [hspaces] at h
  cases hdata : m.dataCount with
  | none => simp [hdata] at h
  | some count =>
      simp only [hdata, Option.any_some, ne_eq, decide_not, Bool.not_eq_true', decide_eq_false_iff_not]
        at h hcount
      split at hcount
      · cases hcount
      · split at h
        · omega
        · cases h

theorem elementTypeAt_lt (hspaces : sp.module = m) {index : Nat} {ty : RefType}
    (h : sp.elementTypeAt index = .ok ty) : index < m.elements.length := by
  unfold Spaces.elementTypeAt Spaces.lookup at h
  rw [hspaces] at h
  cases hty : (m.elements.map ElementSegment.ty)[index]? with
  | none => simp [hty] at h
  | some ty' =>
      have hlt := (List.getElem?_eq_some_iff.mp hty).1
      rwa [List.length_map] at hlt

/-- An instruction that passes its check names a segment of the module. -/
theorem access_of_step (hspaces : sp.module = m) (hlimits : validateModuleLimits m = .ok ())
    {signature : FuncType} {locals : List ValType} {machine machine' : Machine} {instr : Instr}
    (h : machine.step sp signature locals instr = .ok machine') :
    access m.elements.length m.data.length instr ≠ .outOfRange := by
  have hindex : ∀ {count index : Nat}, index < count → Access.index count index ≠ .outOfRange := by
    intro count index hlt
    rw [Access.index, if_pos hlt]
    nofun
  have hget : ∀ {trap : Trap} {count index : Nat}, Access.get trap count index ≠ .outOfRange := by
    intro trap count index
    unfold Access.get
    split <;> nofun
  cases instr
  case memoryInit | tableInit => exact hget
  case dataDrop index =>
      obtain ⟨types, htypes, -⟩ := bind_eq_ok.mp h
      obtain ⟨⟨⟩, hdata, -⟩ := bind_eq_ok.mp htypes
      exact hindex (dataIndex_lt hspaces hlimits hdata)
  case elemDrop index =>
      obtain ⟨types, htypes, -⟩ := bind_eq_ok.mp h
      obtain ⟨ty, helement, -⟩ := bind_eq_ok.mp htypes
      exact hindex (elementTypeAt_lt hspaces helement)
  case arrayNewData | arrayInitData =>
      obtain ⟨types, htypes, -⟩ := bind_eq_ok.mp h
      obtain ⟨field, -, htypes⟩ := bind_eq_ok.mp htypes
      dsimp only at htypes
      split at htypes
      · cases htypes
      · obtain ⟨⟨⟩, hdata, -⟩ := bind_eq_ok.mp htypes
        exact hindex (dataIndex_lt hspaces hlimits hdata)
  case arrayNewElem | arrayInitElem =>
      obtain ⟨types, htypes, -⟩ := bind_eq_ok.mp h
      obtain ⟨field, -, htypes⟩ := bind_eq_ok.mp htypes
      dsimp only at htypes
      split at htypes
      · obtain ⟨ty, helement, -⟩ := bind_eq_ok.mp htypes
        exact hindex (elementTypeAt_lt hspaces helement)
      · cases htypes
  all_goals nofun

/-- The code of a valid module names only its segments. -/
theorem covers_of_validate (h : validate m = .ok ()) : Covers m m.elements.length m.data.length := by
  intro body hbody instr hinstr
  obtain ⟨defined, hbody⟩ := List.getElem?_of_mem hbody
  obtain ⟨pc, hinstr⟩ := List.getElem?_of_mem hinstr
  obtain ⟨sp, hspaces, hlimits, -⟩ := validate_spec h
  obtain ⟨sp', signature, hchecked⟩ := checked_of_validate h hbody
  cases hspaces.symm.trans hchecked.spaces
  obtain ⟨machine, machine', -, hstep, -⟩ := hchecked.before_step hinstr
  exact access_of_step (buildSpaces_spec hspaces).1 hlimits hstep

end Valid

/-! ## Runs of a host -/

section Hosts

variable {rt : Runtime}

/-- No operation of a host whose failures are contained leads out. -/
theorem Host.Confined.apply {h : Host} (hconf : h.Confined) {op : Op} (hlegal : op.Legal rt h)
    (hcontained : op.Contained rt h.store) : (h.apply rt op).Confined := by
  obtain ⟨Live, hknown, hlive⟩ := hconf
  have hreach : ∀ p, h.Reach p → Live p := fun p hp => hlive.of_reach hknown hp
  cases op with
  | hostFunc ty token => exact ⟨Live, hreach, hlive.of_same rfl rfl rfl rfl rfl⟩
  | tag ty => exact ⟨Live, hreach, hlive.of_same rfl rfl rfl rfl rfl⟩
  | memory ty =>
      refine ⟨Live, hreach, ?_⟩
      change Enclosed (h.store.memory ty) Live
      unfold Store.memory
      split
      · exact hlive
      · exact hlive.of_same rfl rfl rfl rfl rfl
  | global ty value =>
      exact ⟨_, fun p hp => hp.imp_left (hreach p),
        hlive.global ty fun p hp => hreach p (hlegal p hp)⟩
  | table ty init =>
      exact ⟨_, fun p hp => hp.imp_left (hreach p),
        hlive.table ty fun p hp => hreach p (hlegal p hp)⟩
  | run effects => exact Confined.run ⟨Live, hknown, hlive⟩ hlegal
  | instantiate m resolve =>
      obtain ⟨hvalid, hresolve, hmoves⟩ := hlegal
      rcases Fallible.cases (prepare rt m resolve) h.store with ⟨self, s, hrun⟩ | ⟨e, s, hrun⟩
      · obtain ⟨Live', hsub, henc, hself⟩ := prepare_enclosed hlive
          (fun k v p hv hp => hreach p (hresolve k v p hv hp)) hcontained (covers_of_validate hvalid) hrun
        simp only [Host.apply, hrun]
        refine Confined.run ⟨Live', ?_, henc⟩ (hmoves self s hrun)
        rintro p (hp | rfl)
        · exact hsub p (hreach p hp)
        · exact hself self rfl
      · obtain ⟨Live', hsub, henc, -⟩ := prepare_enclosed hlive
          (fun k v p hv hp => hreach p (hresolve k v p hv hp)) hcontained (covers_of_validate hvalid) hrun
        simp only [Host.apply, hrun]
        exact ⟨Live', fun p hp => hsub p (hreach p hp), henc⟩

/-- The hosts after some operations, each of them legal and such as given. -/
inductive Host.Runs (rt : Runtime) (Such : Store → Op → Prop) : Host → Prop where
  | empty : Runs rt Such ⟨.empty, fun _ => False⟩
  | step {h : Host} {op : Op} : Runs rt Such h → op.Legal rt h → Such h.store op →
      Runs rt Such (h.apply rt op)

/-- Every instance that can be reached is there, and its instructions find their
segments or trap. -/
def Host.Safe (h : Host) : Prop :=
  ∀ i, h.Reach (.inst i) → ∃ linked, h.store.instances[i]? = some linked ∧ linked.Covered

theorem Host.Runs.confined {h : Host} (hruns : h.Runs rt (Op.Contained rt)) : h.Confined := by
  induction hruns with
  | empty => exact ⟨fun _ => False, fun _ hp => hp, fun _ h => h.elim,
      ⟨fun _ _ h => h.elim, fun _ _ h => h.elim, fun _ _ h => h.elim, fun _ _ h => h.elim,
        fun _ _ h => h.elim⟩, fun _ _ h => h.elim⟩
  | step _ hlegal hcontained ih => exact ih.apply hlegal hcontained

/-- Whatever a host does and whatever fails, the code it can get at finds the
segments it names, as long as failed instantiations are contained. -/
theorem safe_of_contained (rt : Runtime) (h : Host) (hruns : h.Runs rt (Op.Contained rt)) : h.Safe := by
  obtain ⟨Live, hknown, hlive⟩ := hruns.confined
  intro i hi
  have hin := hlive.of_reach hknown hi
  have hlt : i < h.store.instances.length := hlive.has _ hin
  exact ⟨_, List.getElem?_eq_getElem hlt, hlive.covered i _ hin (List.getElem?_eq_getElem hlt)⟩

end Hosts

/-! ## A segment that does not fit -/

def funcTable : TableType :=
  ⟨⟨true, .func⟩, ⟨1, none, false⟩, false⟩

/-- A module that copies its function into an imported table and then fails: its
memory has no room for its data segment. -/
def leaky (code : List Instr) : Module where
  types := [⟨true, [], .func ⟨[], []⟩⟩]
  imports := [.table funcTable]
  functions := [0]
  memories := [⟨⟨0, none, false⟩, false⟩]
  elements := [⟨⟨true, .func⟩, [[.refFunc 0]], .active 0 [.i32Const 0]⟩]
  data := [⟨[0], .active 0 [.i32Const 0]⟩]
  dataCount := some 1
  bodies := [⟨[], code⟩]

/-- The host that registers a table and instantiates the module with it. -/
def leakyHost (code : List Instr) : Host :=
  (Host.apply .idle ⟨.empty, fun _ => False⟩ (.table funcTable .null)).apply .idle
    (.instantiate (leaky code) fun _ => some (.table 0))

theorem leakyHost_runs {Such : Store → Op → Prop} {code : List Instr} (hvalid : validate (leaky code) = .ok ())
    (htable : Such .empty (.table funcTable .null))
    (hleaky : Such (Store.empty.table funcTable .null)
      (.instantiate (leaky code) fun _ => some (.table 0))) : (leakyHost code).Runs .idle Such := by
  refine .step (.step .empty nofun htable) ⟨hvalid, fun k v p hv hp => ?_, fun self s _ => ?_⟩ hleaky
  · cases hv
    cases hp
    exact ⟨_, .inr ⟨rfl, Nat.zero_lt_one⟩, .refl⟩
  · exact trivial

/-- Code that looks its segments up traps. -/
theorem looksUp_safe :
    (prepare .idle (leaky [.i32Const 0, .i32Const 0, .i32Const 0, .memoryInit 0 0])
      (fun _ => some (.table 0)) (Store.empty.table funcTable .null)).1 =
        .error (.trap .outOfBoundsMemoryAccess) ∧
    (leakyHost [.i32Const 0, .i32Const 0, .i32Const 0, .memoryInit 0 0]).Safe := by
  refine ⟨rfl, safe_of_contained .idle _ (leakyHost_runs rfl trivial fun links linked s' _ _ => ?_)⟩
  have hcovers : ∀ e d, Covers (leaky [.i32Const 0, .i32Const 0, .i32Const 0, .memoryInit 0 0]) e d := by
    intro e d body hbody instr hinstr
    cases List.mem_singleton.mp hbody
    simp only [List.mem_cons, List.not_mem_nil, or_false] at hinstr
    rcases hinstr with rfl | rfl | rfl | rfl <;> simp only [access, Access.get]
    · nofun
    · nofun
    · nofun
    · split <;> nofun
  exact ⟨fun before _ _ _ _ _ => .inr (.inr (hcovers _ _)),
    fun before _ _ _ _ _ _ _ => .inr (.inr (hcovers _ _))⟩

/-- Code that drops the segment by its index is reached by the table, and the
segment is not there. -/
theorem drops_unsafe :
    (leakyHost [.dataDrop 0]).Runs .idle (fun _ _ => True) ∧
    (prepare .idle (leaky [.dataDrop 0]) (fun _ => some (.table 0))
      (Store.empty.table funcTable .null)).1 = .error (.trap .outOfBoundsMemoryAccess) ∧
    ¬ (leakyHost [.dataDrop 0]).Safe := by
  refine ⟨leakyHost_runs rfl trivial trivial, rfl, fun hsafe => ?_⟩
  obtain ⟨linked, hlinked, hcovered⟩ := hsafe 0
    ⟨.table 0, ⟨_, .inr ⟨rfl, Nat.zero_lt_one⟩, .refl⟩, .single List.mem_cons_self⟩
  cases hlinked
  exact hcovered _ List.mem_cons_self _ List.mem_cons_self rfl

end Slag.Wasm.Linking
