import Slag.Wasm.Linking
import Slag.Wasm.Validate

/-!
The type arrays of the store beside its cells, over every sequence of
registrations and instantiations.
-/

namespace Slag.Wasm.Linking

open World (ExternVal InstantiateError)
open Fallible (Keeps KeepsWhen StepsFit)

/-- Every type array holds the declared types of the cells, in order. -/
structure Parallel (s : Store) : Prop where
  tables : s.tableTypes = s.tables.map Cell.ty
  memories : s.memoryTypes = s.memories.map Cell.ty
  globals : s.globalTypes = s.globals.map Cell.ty

/-! ## Steps that add no cells, or add them with their types -/

theorem map_ty_modify {τ α : Type} {cells : List (Cell τ α)} {f : α → α} {i : Nat} :
    (cells.modify i (Cell.map f)).map Cell.ty = cells.map Cell.ty := by
  apply List.ext_getElem?
  intro n
  simp only [List.getElem?_map, List.getElem?_modify]
  cases cells[n]? with
  | none => rfl
  | some cell =>
      simp only [Option.map_some]
      split <;> rfl

variable {s : Store}

theorem Parallel.perform (h : Parallel s) (effect : Effect) : Parallel (s.perform effect) := by
  cases effect with
  | setElement cell index r => exact ⟨h.tables.trans map_ty_modify.symm, h.memories, h.globals⟩
  | growTable cell count r => exact ⟨h.tables.trans map_ty_modify.symm, h.memories, h.globals⟩
  | setGlobal cell v => exact ⟨h.tables, h.memories, h.globals.trans map_ty_modify.symm⟩
  | setMemory cell f => exact ⟨h.tables, h.memories.trans map_ty_modify.symm, h.globals⟩
  | _ => exact ⟨h.tables, h.memories, h.globals⟩

theorem Parallel.run (h : Parallel s) (effects : List Effect) : Parallel (s.run effects) := by
  induction effects generalizing s with
  | nil => exact h
  | cons effect effects ih => exact ih (h.perform effect)

theorem keeps_declareTag {self : Nat} {m : Module} (tags : List Nat) (typeIndex : Nat) :
    Keeps Parallel (declareTag self m tags typeIndex) := by
  unfold declareTag
  split
  · exact Keeps.fail _
  · exact fun s h => ⟨h.tables, h.memories, h.globals⟩

variable {rt : Runtime} {m : Module} {self : Nat}

theorem parallel_ignoresObjects : IgnoresObjects Parallel :=
  fun _ _ h => ⟨h.tables, h.memories, h.globals⟩

theorem Parallel.addGlobal (h : Parallel s) (ty : GlobalType) (value : Value) :
    Parallel (s.global ty value) where
  tables := h.tables
  memories := h.memories
  globals := by
    simp only [Store.global, h.globals, List.map_append, List.map_cons, List.map_nil]

theorem keeps_declareGlobal (globals : List Nat) (decl : GlobalDecl) :
    Keeps Parallel (declareGlobal rt m self globals decl) := by
  refine Keeps.bind (fun s h => keeps_evalConst parallel_ignoresObjects decl.init _ s h) fun value s h => ?_
  exact h.addGlobal decl.ty value

theorem Parallel.copyItems (h : Parallel s) (items : List RefValue) (target : Option (Nat × Nat)) :
    Parallel (Linking.copyItems s items target) := by
  cases target with
  | none => exact h
  | some target => exact ⟨h.tables.trans map_ty_modify.symm, h.memories, h.globals⟩

theorem Parallel.copyBytes (h : Parallel s) (bytes : List UInt8) (target : Option (Nat × Nat)) :
    Parallel (Linking.copyBytes s bytes target) := by
  cases target with
  | none => exact h
  | some target => exact ⟨h.tables, h.memories.trans map_ty_modify.symm, h.globals⟩

theorem keeps_initElement (segment : ElementSegment) :
    Keeps Parallel (initElement rt m self segment) := by
  refine (keeps_planElement parallel_ignoresObjects segment).bind fun p => Keeps.update fun s h => ?_
  have hcopied := h.copyItems p.1 p.2
  exact ⟨hcopied.tables, hcopied.memories, hcopied.globals⟩

theorem keeps_initData (segment : DataSegment) : Keeps Parallel (initData rt m self segment) := by
  refine (keeps_planData parallel_ignoresObjects segment).bind fun target => Keeps.update fun s h => ?_
  have hcopied := h.copyBytes segment.bytes target
  exact ⟨hcopied.tables, hcopied.memories, hcopied.globals⟩

theorem keeps_runStart : Keeps Parallel (runStart rt m self) := by
  unfold runStart
  split
  · exact Keeps.pure _
  · exact (Keeps.read _).bind fun target s h => h.run _

theorem keeps_initSegments (linked : Linked) : Keeps Parallel (initSegments rt m self linked) := by
  refine Keeps.bind (Keeps.update fun s h => ⟨h.tables, h.memories, h.globals⟩) fun _ => ?_
  refine (Keeps.forM fun segment _ => keeps_initElement segment).bind fun _ => ?_
  exact Keeps.forM fun segment _ => keeps_initData segment

/-! ## Tables and memories -/

/-- A table whose initial element evaluates is not too large for the host. -/
def TableFits (rt : Runtime) (m : Module) (self : Nat) (globals : List Nat) (decl : TableDecl)
    (s : Store) : Prop :=
  ∀ init s', tableInit rt m self globals decl.init s = (.ok init, s') →
    decl.ty.limits.min ≤ maxTableElements

def MemoryFits (ty : MemType) : Prop :=
  ty.limits.min ≤ maxMemoryPages ∧
    (ty.limits.shared → ∀ max, ty.limits.max = some max → max ≤ maxMemoryPages)

theorem tableInst_new_cases (min : Nat) (max : Option Nat) (init : RefValue) :
    (min ≤ maxTableElements ∧ ∃ table, TableInst.new min max init = .ok table) ∨
      (¬ min ≤ maxTableElements ∧ ∃ message, TableInst.new min max init = .error message) := by
  unfold TableInst.new
  split
  · next h => exact .inr ⟨Nat.not_le.2 h, _, rfl⟩
  · next h => exact .inl ⟨Nat.not_lt.1 h, _, rfl⟩

theorem memory_new_cases (ty : MemType) :
    (MemoryFits ty ∧ ∃ memory, Memory.new ty.limits.min ty.limits.max ty.limits.shared = .ok memory) ∨
      (¬ MemoryFits ty ∧
        ∃ message, Memory.new ty.limits.min ty.limits.max ty.limits.shared = .error message) := by
  unfold Memory.new
  split
  · next h => exact .inr ⟨fun hfits => absurd hfits.1 (Nat.not_le.2 h), _, rfl⟩
  · next hmin =>
      split
      · next h =>
          refine .inr ⟨fun hfits => ?_, _, rfl⟩
          obtain ⟨hshared, hmax⟩ := h
          obtain ⟨hsome, hlt⟩ := (Option.any_eq_true_iff_get _ _).1 hmax
          have hle := hfits.2 hshared _ (Option.some_get hsome).symm
          exact absurd hle (Nat.not_le.2 (of_decide_eq_true hlt))
      · next h =>
          refine .inl ⟨⟨Nat.not_lt.1 hmin, fun hshared max hmax => ?_⟩, _, rfl⟩
          refine Nat.not_lt.1 fun hlt => h ⟨hshared, ?_⟩
          rw [hmax]
          exact decide_eq_true hlt

/-- One type too many. -/
theorem not_parallel_of_longer (h : Parallel s) (ty : TableType) :
    ¬ Parallel { s with tableTypes := s.tableTypes ++ [ty] } := by
  intro hafter
  have hlength := congrArg List.length hafter.tables
  simp [h.tables] at hlength

theorem not_parallel_of_longer_memories (h : Parallel s) (ty : MemType) :
    ¬ Parallel { s with memoryTypes := s.memoryTypes ++ [ty] } := by
  intro hafter
  have hlength := congrArg List.length hafter.memories
  simp [h.memories] at hlength

theorem Parallel.addTable (h : Parallel s) (ty : TableType) (table : TableInst) :
    Parallel { s with tableTypes := s.tableTypes ++ [ty], tables := s.tables ++ [⟨ty, table⟩] } where
  tables := by simp [h.tables]
  memories := h.memories
  globals := h.globals

theorem Parallel.addMemory (h : Parallel s) (ty : MemType) (memory : Memory) :
    Parallel { s with memoryTypes := s.memoryTypes ++ [ty], memories := s.memories ++ [⟨ty, memory⟩] }
    where
  tables := h.tables
  memories := by simp [h.memories]
  globals := h.globals

/-- What `declareTable` does once the initial element is there. -/
theorem keepsWhen_pushTable (tables : List Nat) (decl : TableDecl) (init : RefValue) :
    KeepsWhen Parallel (fun _ => decl.ty.limits.min ≤ maxTableElements) (do
      Fallible.update fun s => { s with tableTypes := s.tableTypes ++ [decl.ty] }
      match TableInst.new decl.ty.limits.min decl.ty.limits.max init with
      | .error message => Fallible.fail (.unlinkable message)
      | .ok table => fun s =>
          (.ok (tables ++ [s.tables.length]), { s with tables := s.tables ++ [⟨decl.ty, table⟩] }) :
        Build (List Nat)) := by
  rcases tableInst_new_cases decl.ty.limits.min decl.ty.limits.max init with
    ⟨hfits, table, hnew⟩ | ⟨hfits, message, hnew⟩
  · rw [hnew]
    constructor
    · exact fun s h => ⟨fun _ => hfits, fun _ => h.addTable decl.ty table⟩
    · intro s a s' h hrun
      obtain ⟨-, rfl⟩ := Prod.mk.inj hrun
      exact h.addTable decl.ty table
  · rw [hnew]
    constructor
    · exact fun s h => ⟨fun hafter => absurd hafter (not_parallel_of_longer h decl.ty), fun h => absurd h hfits⟩
    · intro s a s' h hrun
      cases (Prod.mk.inj hrun).1

theorem keepsWhen_declareTable (globals tables : List Nat) (decl : TableDecl) :
    KeepsWhen Parallel (TableFits rt m self globals decl)
      (declareTable rt m self globals tables decl) := by
  have hinit : Keeps Parallel (tableInit rt m self globals decl.init) :=
    keeps_tableInit parallel_ignoresObjects globals decl.init
  have hboth := (KeepsWhen.of_keeps hinit).bind (keepsWhen_pushTable tables decl)
  exact ⟨fun s h => (hboth.iff s h).trans (and_iff_right trivial), hboth.ok⟩

theorem keepsWhen_declareMemory (memories : List Nat) (ty : MemType) :
    KeepsWhen Parallel (fun _ => MemoryFits ty) (declareMemory memories ty) := by
  unfold declareMemory
  rcases memory_new_cases ty with ⟨hfits, memory, hnew⟩ | ⟨hfits, message, hnew⟩
  · rw [hnew]
    constructor
    · exact fun s h => ⟨fun _ => hfits, fun _ => h.addMemory ty memory⟩
    · intro s a s' h hrun
      obtain ⟨-, rfl⟩ := Prod.mk.inj hrun
      exact h.addMemory ty memory
  · rw [hnew]
    constructor
    · exact fun s h =>
        ⟨fun hafter => absurd hafter (not_parallel_of_longer_memories h ty), fun h => absurd h hfits⟩
    · intro s a s' h hrun
      cases (Prod.mk.inj hrun).1

theorem declareMemory_ne_error {memories : List Nat} {ty : MemType} {s s' : Store}
    {e : InstantiateError} (h : MemoryFits ty) : declareMemory memories ty s ≠ (.error e, s') := by
  unfold declareMemory
  rcases memory_new_cases ty with ⟨-, memory, hnew⟩ | ⟨hfits, -⟩
  · rw [hnew]
    intro hrun
    cases (Prod.mk.inj hrun).1
  · exact absurd h hfits

/-! ## An instantiation -/

/-- The sizes an instantiation comes to: every table whose initial element and
those before it evaluate, and every memory once the tables are there. -/
structure Fits (rt : Runtime) (m : Module) (inst : Nat) (links : Links) (s : Store) : Prop where
  tables : ∀ tags s', m.tags.foldlM (declareTag inst m) links.tags s = (.ok tags, s') →
    StepsFit (fun _ => TableFits rt m inst links.globals) (declareTable rt m inst links.globals)
      m.tables links.tables s'
  memories : ∀ tags s' tables s'', m.tags.foldlM (declareTag inst m) links.tags s = (.ok tags, s') →
    m.tables.foldlM (declareTable rt m inst links.globals) links.tables s' = (.ok tables, s'') →
    ∀ ty ∈ m.memories, MemoryFits ty

/-- A memory that is not come to follows one that does not fit. -/
theorem stepsFit_declareMemory (types : List MemType) (memories : List Nat) (s : Store)
    (h : Parallel s) :
    StepsFit (fun _ ty _ => MemoryFits ty) declareMemory types memories s ↔
      ∀ ty ∈ types, MemoryFits ty := by
  induction types generalizing memories s with
  | nil =>
      refine ⟨fun _ ty hty => absurd hty List.not_mem_nil, fun _ before a after hl => ?_⟩
      simp at hl
  | cons ty types ih =>
      have hkeeps := keepsWhen_declareMemory memories ty
      rw [Fallible.stepsFit_cons, List.forall_mem_cons]
      constructor
      · intro ⟨hfits, hrest⟩
        refine ⟨hfits, ?_⟩
        rcases Fallible.cases (declareMemory memories ty) s with ⟨b, s', hrun⟩ | ⟨e, s', hrun⟩
        · exact (ih b s' (hkeeps.ok s b s' h hrun)).1 (hrest b s' hrun)
        · exact absurd hrun (declareMemory_ne_error hfits)
      · intro ⟨hfits, hrest⟩
        exact ⟨hfits, fun b s' hrun => (ih b s' (hkeeps.ok s b s' h hrun)).2 hrest⟩

theorem keepsWhen_allocate (links : Links) :
    KeepsWhen Parallel (Fits rt m self links) (allocate rt m self links) := by
  have htags : Keeps Parallel (m.tags.foldlM (declareTag self m) links.tags) :=
    Keeps.foldlM (fun tags typeIndex _ => keeps_declareTag tags typeIndex) _
  have htables : KeepsWhen Parallel
      (StepsFit (fun _ => TableFits rt m self links.globals) (declareTable rt m self links.globals)
        m.tables links.tables)
      (m.tables.foldlM (declareTable rt m self links.globals) links.tables) :=
    KeepsWhen.foldlM (keepsWhen_declareTable links.globals) m.tables links.tables
  have hmemories := KeepsWhen.foldlM (keepsWhen_declareMemory) m.memories links.memories
  have hglobals : Keeps Parallel (m.globals.foldlM (declareGlobal rt m self) links.globals) :=
    Keeps.foldlM (fun globals decl _ => keeps_declareGlobal globals decl) _
  have hall := (KeepsWhen.of_keeps htags).bind fun tags => htables.bind fun tables =>
    hmemories.bind fun memories => (KeepsWhen.of_keeps hglobals).bind fun globals =>
      KeepsWhen.of_keeps (Keeps.pure (ε := InstantiateError) ({
        module := m
        funcs := links.funcs ++ (List.range m.functions.length).map (.owned self)
        tags := tags
        depthLimit := defaultDepthLimit
        tables := tables
        globals := globals
        memories := memories
        elementSegments := []
        dataSegments := [] } : Linked))
  refine ⟨fun s h => (hall.iff s h).trans ?_, hall.ok⟩
  constructor
  · intro ⟨_, hfits⟩
    refine ⟨fun tags s' hrun => (hfits tags s' hrun).1, fun tags s' tables s'' hrun hrun' => ?_⟩
    have hs' := (KeepsWhen.of_keeps htags).ok s tags s' h hrun
    have hs'' := htables.ok s' tables s'' hs' hrun'
    exact (stepsFit_declareMemory _ _ s'' hs'').1 ((hfits tags s' hrun).2 tables s'' hrun').1
  · intro hfits
    refine ⟨trivial, fun tags s' hrun => ⟨hfits.tables tags s' hrun, fun tables s'' hrun' => ?_⟩⟩
    have hs' := (KeepsWhen.of_keeps htags).ok s tags s' h hrun
    have hs'' := htables.ok s' tables s'' hs' hrun'
    refine ⟨(stepsFit_declareMemory _ _ s'' hs'').2 (hfits.memories tags s' tables s'' hrun hrun'), ?_⟩
    exact fun _ _ _ => ⟨trivial, fun _ _ _ => trivial⟩

/-- An instantiation whose imports link comes to no size over the limits. -/
def InstantiateFits (rt : Runtime) (m : Module) (resolve : Nat → Option ExternVal) (s : Store) :
    Prop :=
  ∀ links, linkImports s m resolve = .ok links → Fits rt m s.instances.length links s

theorem keepsWhen_prepare (resolve : Nat → Option ExternVal) :
    KeepsWhen Parallel (InstantiateFits rt m resolve) (prepare rt m resolve) := by
  have hsegments : ∀ self linked, KeepsWhen Parallel (fun _ => True) (initSegments rt m self linked) :=
    fun self linked => KeepsWhen.of_keeps (keeps_initSegments linked)
  have hallocate : ∀ self links, KeepsWhen Parallel (Fits rt m self links) (allocate rt m self links) :=
    fun self links => keepsWhen_allocate links
  have hall := fun self => (KeepsWhen.of_keeps (P := Parallel)
      (Keeps.read fun s : Store => linkImports s m resolve)).bind fun links =>
    (hallocate self links).bind fun linked => (hsegments self linked).bind fun _ =>
      KeepsWhen.of_keeps (Keeps.pure self)
  have hrun := (KeepsWhen.of_keeps (P := Parallel) (ε := InstantiateError)
    (Keeps.read fun s : Store => .ok s.instances.length)).bind hall
  refine ⟨fun s h => (hrun.iff s h).trans ?_, hrun.ok⟩
  constructor
  · intro ⟨_, hfits⟩ links hlinks
    exact ((hfits _ s rfl).2 links s (by rw [Fallible.read, hlinks])).1
  · intro hfits
    refine ⟨trivial, fun self s' hself => ⟨trivial, fun links s'' hlinks => ?_⟩⟩
    cases hself
    obtain ⟨hok, rfl⟩ := Prod.mk.inj hlinks
    exact ⟨hfits links hok, fun _ _ _ => ⟨trivial, fun _ _ _ => trivial⟩⟩

theorem keepsWhen_instantiate (resolve : Nat → Option ExternVal) :
    KeepsWhen Parallel (InstantiateFits rt m resolve) (instantiate rt m resolve) := by
  have hstart : ∀ self, KeepsWhen Parallel (fun _ => True) (runStart rt m self) :=
    fun _ => KeepsWhen.of_keeps keeps_runStart
  have hprepare : KeepsWhen Parallel (InstantiateFits rt m resolve) (prepare rt m resolve) :=
    keepsWhen_prepare resolve
  have hrun := hprepare.bind fun self =>
    (hstart self).bind fun _ => KeepsWhen.of_keeps (Keeps.pure self)
  refine ⟨fun s h => (hrun.iff s h).trans ⟨And.left, fun hfits => ⟨hfits, ?_⟩⟩, hrun.ok⟩
  exact fun _ _ _ => ⟨trivial, fun _ _ _ => trivial⟩

/-! ## Runs -/

/-- An instantiation comes to no size over the limits. -/
def Op.Fits (rt : Runtime) (s : Store) : Op → Prop
  | .instantiate m resolve => InstantiateFits rt m resolve s
  | _ => True

theorem parallel_apply_iff (h : Parallel s) (op : Op) :
    Parallel (op.apply rt s) ↔ op.Fits rt s := by
  cases op with
  | hostFunc ty token => exact ⟨fun _ => trivial, fun _ => ⟨h.tables, h.memories, h.globals⟩⟩
  | tag ty => exact ⟨fun _ => trivial, fun _ => ⟨h.tables, h.memories, h.globals⟩⟩
  | global ty value => exact ⟨fun _ => trivial, fun _ => h.addGlobal ty value⟩
  | memory ty =>
      refine ⟨fun _ => trivial, fun _ => ?_⟩
      simp only [Op.apply, Store.memory]
      split
      · exact h
      · exact h.addMemory ty _
  | table ty init =>
      refine ⟨fun _ => trivial, fun _ => ?_⟩
      simp only [Op.apply, Store.table]
      split
      · exact h
      · exact h.addTable ty _
  | instantiate m resolve => exact (keepsWhen_instantiate resolve).iff s h
  | run effects => exact ⟨fun _ => trivial, fun _ => h.run effects⟩

theorem parallel_empty : Parallel Store.empty :=
  ⟨rfl, rfl, rfl⟩

/-- A lookup by cell answers the type the cell was declared with. -/
structure Answers (s : Store) : Prop where
  table : ∀ cell, s.tableTypeOf cell = s.tables[cell]?.map fun t =>
    { t.ty with limits := { t.ty.limits with min := t.value.elements.length } }
  memory : ∀ cell, s.memoryTypeOf cell = s.memories[cell]?.map fun t =>
    { t.ty with limits := { t.ty.limits with min := t.value.pages } }
  global : ∀ cell : Nat, s.globalTypes[cell]? = s.globals[cell]?.map Cell.ty

theorem Parallel.answers (h : Parallel s) : Answers s where
  table := by
    intro cell
    unfold Store.tableTypeOf
    rw [h.tables, List.getElem?_map]
    cases s.tables[cell]? <;> rfl
  memory := by
    intro cell
    unfold Store.memoryTypeOf
    rw [h.memories, List.getElem?_map]
    cases s.memories[cell]? <;> rfl
  global := by
    intro cell
    rw [h.globals, List.getElem?_map]

theorem after_take_succ {ops : List Op} {n : Nat} {op : Op} (h : ops[n]? = some op) :
    after rt (ops.take (n + 1)) = op.apply rt (after rt (ops.take n)) := by
  rw [List.take_add_one, h]
  simp only [after, List.foldl_append, Option.toList_some, List.foldl_cons, List.foldl_nil]

/-- The type arrays stay parallel, and lookups answer, after every part of a
run exactly when no instantiation of it comes to a size over the limits. -/
theorem parallel_run_iff (rt : Runtime) (ops : List Op) :
    (∀ n, Parallel (after rt (ops.take n)) ∧ Answers (after rt (ops.take n))) ↔
      ∀ (n : Nat) (op : Op), ops[n]? = some op → op.Fits rt (after rt (ops.take n)) := by
  constructor
  · intro h n op hop
    rw [← parallel_apply_iff (h n).1, ← after_take_succ hop]
    exact (h (n + 1)).1
  · intro h n
    have hparallel : Parallel (after rt (ops.take n)) := by
      induction n with
      | zero => exact parallel_empty
      | succ n ih =>
          cases hop : ops[n]? with
          | none =>
              rw [List.take_add_one, hop]
              simpa using ih
          | some op =>
              rw [after_take_succ hop, parallel_apply_iff ih]
              exact h n op hop
    exact ⟨hparallel, hparallel.answers⟩

/-- A table one element over the limit. -/
def oversized : Module where
  tables := [⟨⟨⟨true, .func⟩, ⟨maxTableElements + 1, none, false⟩, false⟩, none⟩]

def externTable : TableType :=
  ⟨⟨true, .external⟩, ⟨1, none, false⟩, false⟩

/-- The oversized module is valid, its instantiation fails, and the type of its
table stays: the table a host registers next is looked up with it. -/
theorem oversized_shifts :
    validate oversized = .ok () ∧
      ¬ Parallel (after .idle [.instantiate oversized fun _ => none]) ∧
        (after .idle [.instantiate oversized fun _ => none, .table externTable .null]).tableTypeOf 0 =
          some { externTable with element := ⟨true, .func⟩ } := by
  refine ⟨by decide +kernel, fun h => ?_, by decide +kernel⟩
  have hlength := congrArg List.length h.tables
  revert hlength
  decide +kernel

end Slag.Wasm.Linking
