import Slag.Wasm.Bodies
import Slag.Wasm.ConstExpr
import Slag.Wasm.Linking

/-!
The values of constant expressions. A sequence that the validator typed evaluates to
one value of its type.
-/

namespace Slag.Wasm.Linking

open Slag.Answer (getElem?_of_isPrefix)

/-- The extended arithmetic of constant expressions, which wraps. -/
def constNum : NumOp → List Value → Option NumValue
  | .i32Add, [.i32 a, .i32 b] => some (.i32 (a + b))
  | .i32Sub, [.i32 a, .i32 b] => some (.i32 (a - b))
  | .i32Mul, [.i32 a, .i32 b] => some (.i32 (a * b))
  | .i64Add, [.i64 a, .i64 b] => some (.i64 (a + b))
  | .i64Sub, [.i64 a, .i64 b] => some (.i64 (a - b))
  | .i64Mul, [.i64 a, .i64 b] => some (.i64 (a * b))
  | _, _ => none

/-- A runtime for constant expressions, which contain no other instructions. -/
def constRuntime (others : NumOp → List Value → Except ExecFail NumValue) (reserves : Nat → Bool) :
    Runtime :=
  { Runtime.idle with
    execNum := fun op operands =>
      match constNum op operands with
      | some v => .ok v
      | none => others op operands
    reserves := reserves }

/-! ## Types of values -/

/-- The abstract type of what a reference refers to. -/
def abstractType : RefValue → Option HeapType
  | .null => none
  | .func _ => some .func
  | .external _ => some .external
  | .exn _ => some .exn
  | .host _ => some .any
  | .i31 _ => some .i31
  | .struct _ => some .struct
  | .array _ => some .array

/-- Whether the object of a reference is in the pool. -/
def Stored (objects : List GcObject) : RefValue → Prop
  | .struct id | .external (.struct id) => ∃ o cells, objects[id]? = some o ∧ o.data = .struct cells
  | .array id | .external (.array id) => ∃ o cells, objects[id]? = some o ∧ o.data = .array cells
  | _ => True

section

-- The modules of the instances, and the instance that evaluates.
variable (modules : Nat → Option Module) (m : Module) (self : Nat) (objects : List GcObject)

/-- The instance and the type index that a reference was made with. -/
def declaredType : RefValue → Option (Nat × Nat)
  | .func addr => do
      let owner ← modules addr.inst
      return (addr.inst, ← (owner.importedFuncs ++ owner.functions)[addr.index]?)
  | .struct id | .array id => objects[id]?.map fun o => (o.owner, o.ty)
  | _ => none

/-- The heap types of a reference that is not null, up to subtyping: its abstract type, the
type it was made with, and the types of the module that are equivalent to a supertype of
this one. -/
inductive HasHeap : RefValue → HeapType → Prop where
  | abs {r : RefValue} {h : HeapType} (habs : abstractType r = some h) : HasHeap r h
  | own {r : RefValue} {t : Nat} {st : SubType}
      (hdeclared : declaredType modules objects r = some (self, t)) (hst : m.types[t]? = some st)
      (hkind : abstractType r = some st.composite.kind) : HasHeap r (.type t)
  | leads {r : RefValue} {owner t x j : Nat} {mo : Module} {st : SubType}
      (hdeclared : declaredType modules objects r = some (owner, t)) (howner : modules owner = some mo)
      (hleads : Relation.ReflTransGen (Declares mo) t x) (hequivalent : Equivalent mo m x j)
      (hst : m.types[j]? = some st) (hkind : abstractType r = some st.composite.kind) :
      HasHeap r (.type j)

inductive HasType : Value → ValType → Prop where
  | i32 {v : BitVec 32} : HasType (.i32 v) .i32
  | i64 {v : BitVec 64} : HasType (.i64 v) .i64
  | f32 {bits : BitVec 32} : HasType (.f32 bits) .f32
  | f64 {bits : BitVec 64} : HasType (.f64 bits) .f64
  | v128 {bits : BitVec 128} : HasType (.v128 bits) .v128
  | null {heap : HeapType} : HasType (.ref .null) (.ref ⟨true, heap⟩)
  | ref {r : RefValue} {h : HeapType} {t : RefType} (hstored : Stored objects r)
      (hheap : HasHeap modules m self objects r h) (hbelow : HeapBelow m h t.heap) :
      HasType (.ref r) (.ref t)

/-- Evaluation ends with exactly one value of the type; or the allocator has refused to
make room for an array, which is a trap. -/
def Evaluates (rt : Runtime) (values : List Value) (expr : List Instr) (expected : ValType)
    (store : Store) : Prop :=
  (∃ v store', expr.foldlM (constInstr rt m self values) [] store = (.ok [v], store') ∧
      evalInstrs rt m self values expr store = (.ok v, store') ∧
      HasType modules m self store'.objects v expected) ∨
    (∃ count, rt.reserves count = false) ∧
      (evalInstrs rt m self values expr store).1 = .error (.trap .outOfBoundsMemoryAccess)

end

variable {types : List ValType} {stack : List Value}

section values

variable {modules : Nat → Option Module} {m : Module} {self : Nat} {objects objects' : List GcObject}

variable {r : RefValue} {h : HeapType} {v : Value} {ty : StorageType}

theorem HasHeap.over (hheap : HasHeap modules m self objects r h) :
    h.Over m := by
  cases hheap with
  | abs habs =>
      cases r <;> cases habs <;> exact nofun
  | own _ hst _ | leads _ _ _ _ hst _ =>
      intro x hx
      rw [List.mem_singleton.mp hx]
      exact (List.getElem?_eq_some_iff.mp hst).1

/-- The hierarchy of a heap type of a reference is that of its abstract type. -/
theorem HasHeap.top (hheap : HasHeap modules m self objects r h) :
    ∃ k, abstractType r = some k ∧ topHeap m h = topHeap m k := by
  cases hheap with
  | abs habs => exact ⟨h, habs, rfl⟩
  | own _ hst hkind | leads _ _ _ _ hst hkind => exact ⟨_, hkind, topHeap_type hst⟩

theorem HasType.i32_inv (h : HasType modules m self objects v .i32) : ∃ a, v = .i32 a := by
  cases h
  exact ⟨_, rfl⟩

theorem HasType.i64_inv (h : HasType modules m self objects v .i64) : ∃ a, v = .i64 a := by
  cases h
  exact ⟨_, rfl⟩

/-! ## A pool that grows -/

theorem Stored.mono (hgrows : objects <+: objects') (h : Stored objects r) :
    Stored objects' r := by
  have hobject : ∀ {id : Nat} {data : List Value → GcData},
      (∃ o cells, objects[id]? = some o ∧ o.data = data cells) →
        ∃ o cells, objects'[id]? = some o ∧ o.data = data cells := by
    rintro id data ⟨o, cells, ho, hdata⟩
    exact ⟨o, cells, getElem?_of_isPrefix hgrows ho, hdata⟩
  cases r with
  | struct id | array id => exact hobject h
  | external inner =>
      cases inner with
      | struct id | array id => exact hobject h
      | _ => trivial
  | _ => trivial

theorem declaredType_mono {p : Nat × Nat} (hgrows : objects <+: objects')
    (h : declaredType modules objects r = some p) : declaredType modules objects' r = some p := by
  cases r with
  | struct id | array id =>
      obtain ⟨o, ho, hp⟩ := Option.map_eq_some_iff.mp h
      exact Option.map_eq_some_iff.mpr ⟨o, getElem?_of_isPrefix hgrows ho, hp⟩
  | func addr => exact h
  | _ => cases h

theorem HasHeap.mono (hgrows : objects <+: objects') (hheap : HasHeap modules m self objects r h) :
    HasHeap modules m self objects' r h := by
  cases hheap with
  | abs habs => exact .abs habs
  | own hdeclared hst hkind => exact .own (declaredType_mono hgrows hdeclared) hst hkind
  | leads hdeclared howner hleads hequivalent hst hkind =>
      exact .leads (declaredType_mono hgrows hdeclared) howner hleads hequivalent hst hkind

theorem HasType.mono {t : ValType} (hgrows : objects <+: objects')
    (h : HasType modules m self objects v t) : HasType modules m self objects' v t := by
  cases h with
  | i32 => exact .i32
  | i64 => exact .i64
  | f32 => exact .f32
  | f64 => exact .f64
  | v128 => exact .v128
  | null => exact .null
  | ref hstored hheap hbelow => exact .ref (hstored.mono hgrows) (hheap.mono hgrows) hbelow

theorem forall₂_mono {values : List Value} (hgrows : objects <+: objects')
    (h : List.Forall₂ (HasType modules m self objects) values types) :
    List.Forall₂ (HasType modules m self objects') values types :=
  h.imp fun _ _ hv => hv.mono hgrows

/-! ## Subtyping -/

section subtyping

variable (hm : Scoped m)

include hm

theorem HasType.sub {a b : ValType} (h : HasType modules m self objects v a) (ha : a.Over m)
    (hb : b.Over m) (hbelow : ValBelow m a b) : HasType modules m self objects v b := by
  cases hbelow with
  | refl => exact h
  | @ref a b hnull hheap =>
      cases h with
      | null =>
          obtain ⟨nullable, heap⟩ := b
          obtain rfl : nullable = true := hnull rfl
          exact .null
      | ref hstored hhas hbelow => exact .ref hstored hhas (hbelow.trans hm hhas.over ha hb hheap)

theorem HasType.hierarchy {t : RefType} (h : HasType modules m self objects (.ref r) (.ref t))
    (ht : t.heap.Over m) (hr : r ≠ .null) :
    Stored objects r ∧ ∃ k, abstractType r = some k ∧ topHeap m k = topHeap m t.heap := by
  cases h with
  | null => exact absurd rfl hr
  | ref hstored hheap hbelow =>
      obtain ⟨k, hk, htop⟩ := hheap.top
      exact ⟨hstored, k, hk, htop.symm.trans (hbelow.top hm hheap.over ht)⟩

/-- An external reference is null or wraps one that is not. -/
theorem HasType.external_inv {nullable : Bool}
    (h : HasType modules m self objects v (.ref ⟨nullable, .external⟩)) :
    HasType modules m self objects (.ref .null) (.ref ⟨nullable, .external⟩) ∧ v = .ref .null ∨
      ∃ inner, v = .ref (.external inner) ∧ Stored objects (.external inner) := by
  cases v with
  | ref r =>
      by_cases hr : r = .null
      · subst hr
        exact .inl ⟨h, rfl⟩
      · obtain ⟨hstored, k, hk, htop⟩ := h.hierarchy hm nofun hr
        cases r with
        | external inner => exact .inr ⟨inner, rfl, hstored⟩
        | null => exact absurd rfl hr
        | _ =>
            cases hk
            cases htop
  | _ => cases h

theorem HasType.unwrap {nullable : Bool}
    (h : HasType modules m self objects v (.ref ⟨nullable, .external⟩)) :
    ∃ r, v = .ref r ∧ HasType modules m self objects (.ref (unwrapExternal r)) (.ref ⟨nullable, .any⟩) := by
  rcases h.external_inv hm with ⟨hnull, rfl⟩ | ⟨inner, rfl, hstored⟩
  · refine ⟨.null, rfl, ?_⟩
    cases hnull with
    | null => exact .null
    | ref _ hheap _ =>
        obtain ⟨k, hk, -⟩ := hheap.top
        cases hk
  · refine ⟨_, rfl, ?_⟩
    cases inner with
    | host n => exact .ref trivial (.abs rfl) (.abs rfl)
    | i31 a => exact .ref trivial (.abs rfl) (.abs rfl)
    | struct id => exact .ref hstored (.abs rfl) (.abs rfl)
    | array id => exact .ref hstored (.abs rfl) (.abs rfl)

/-- An internal reference is null or can be wrapped. -/
theorem HasType.wrap {t : RefType} (h : HasType modules m self objects v (.ref t)) (ht : t.heap.Over m)
    (hsub : HeapBelow m t.heap .any) :
    v = .ref .null ∧ t.nullable = true ∨ ∃ r inner, v = .ref r ∧ r ≠ .null ∧
      wrapExternal r = some inner ∧
      HasType modules m self objects (.ref (.external inner)) (.ref ⟨t.nullable, .external⟩) := by
  have hany : topHeap m t.heap = topHeap m .any := hsub.top hm ht nofun
  cases v with
  | ref r =>
      by_cases hr : r = .null
      · subst hr
        cases h with
        | null => exact .inl ⟨rfl, rfl⟩
        | ref _ hheap _ =>
            obtain ⟨k, hk, -⟩ := hheap.top
            cases hk
      · obtain ⟨hstored, k, hk, htop⟩ := h.hierarchy hm ht hr
        rw [hany] at htop
        refine .inr ⟨r, ?_⟩
        cases r with
        | host n => exact ⟨.host n, rfl, hr, rfl, .ref trivial (.abs rfl) (.abs rfl)⟩
        | i31 a => exact ⟨.i31 a, rfl, hr, rfl, .ref trivial (.abs rfl) (.abs rfl)⟩
        | struct id => exact ⟨.struct id, rfl, hr, rfl, .ref hstored (.abs rfl) (.abs rfl)⟩
        | array id => exact ⟨.array id, rfl, hr, rfl, .ref hstored (.abs rfl) (.abs rfl)⟩
        | null => exact absurd rfl hr
        | _ =>
            cases hk
            cases htop
  | _ => cases h

end subtyping

/-! ## Cells -/

theorem cell_of_hasType (h : HasType modules m self objects v ty.val ∨
    ty.val ≠ .i32) : ∃ cell, wrapCell ty v = .ok cell := by
  cases ty with
  | i8 | i16 =>
      rcases h with h | h
      · obtain ⟨a, rfl⟩ := h.i32_inv
        exact ⟨_, rfl⟩
      · exact absurd rfl h
  | _ => cases v <;> exact ⟨_, rfl⟩

theorem wrapCell_of_valSub {actual : ValType} (h : HasType modules m self objects v actual)
    (hsub : valSub m ty.val actual = true) :
    ∃ cell, wrapCell ty v = .ok cell := by
  apply cell_of_hasType
  by_cases hty : ty.val = .i32
  · rw [hty, valSub_i32] at hsub
    rw [of_decide_eq_true hsub] at h
    exact .inl (hty ▸ h)
  · exact .inr hty

theorem popConstSub_eq_ok {expected : ValType} {stack rest : List ValType}
    (h : popConstSub m stack expected = .ok rest) :
    ∃ actual, stack = actual :: rest ∧ valSub m expected actual = true := by
  cases stack with
  | nil => cases h
  | cons actual stack =>
      rw [popConstSub] at h
      split at h
      · rename_i hsub
        cases h
        exact ⟨actual, rfl, hsub⟩
      · cases h

/-- Cells can be popped where their types can. -/
theorem popCells_typed {types : List StorageType} {cells stack : List Value} {before rest : List ValType}
    (hstack : List.Forall₂ (HasType modules m self objects) stack before)
    (hpop : (types.map StorageType.val).foldlM (popConstSub m) before = .ok rest) :
    ∃ cells' stack', popCells types cells stack = .ok (cells', stack') ∧
      List.Forall₂ (HasType modules m self objects) stack' rest ∧ rest <:+ before := by
  induction types generalizing cells stack before with
  | nil =>
      cases hpop
      exact ⟨cells, stack, rfl, hstack, List.suffix_refl _⟩
  | cons ty types ih =>
      rw [List.map_cons, List.foldlM_cons] at hpop
      obtain ⟨middle, hfirst, hmore⟩ := bind_eq_ok.mp hpop
      obtain ⟨actual, rfl, hsub⟩ := popConstSub_eq_ok hfirst
      obtain ⟨v, below, hv, hbelow, rfl⟩ := List.forall₂_cons_right_iff.mp hstack
      obtain ⟨cell, hcell⟩ := wrapCell_of_valSub hv hsub
      obtain ⟨cells', stack', hrest, hstack', hsuffix⟩ := @ih (cell :: cells) _ _ hbelow hmore
      refine ⟨cells', stack', ?_, hstack', hsuffix.trans (List.suffix_cons _ _)⟩
      rw [popCells, hcell]
      exact hrest

theorem storage_default (h : isDefaultable ty.val = true) :
    ∃ cell, defaultStorage ty = .ok cell := by
  cases ty with
  | ref r =>
      refine ⟨.ref .null, ?_⟩
      have hnullable : r.nullable = true := h
      rw [defaultStorage, if_pos hnullable]
  | _ => exact ⟨_, rfl⟩

theorem cells_default {fields : List FieldType}
    (h : ∀ field ∈ fields, isDefaultable field.ty.val = true) :
    ∃ cells, (fields.mapM fun field => defaultStorage field.ty) = .ok cells := by
  induction fields with
  | nil => exact ⟨[], rfl⟩
  | cons field fields ih =>
      obtain ⟨hfirst, hrest⟩ := List.forall_mem_cons.mp h
      obtain ⟨cell, hcell⟩ := storage_default hfirst
      obtain ⟨cells, hcells⟩ := ih hrest
      refine ⟨cell :: cells, ?_⟩
      rw [List.mapM_cons, hcell, hcells]
      rfl

/-- The arithmetic of two operands of its type. -/
theorem constNum_ok {op : NumOp} (hop : extendedConstOp op = true) {a b : Value}
    (ha : HasType modules m self objects a (numOperand op))
    (hb : HasType modules m self objects b (numOperand op)) :
    ∃ v, constNum op [a, b] = some v ∧ HasType modules m self objects v.value (numOperand op) := by
  have h32 : numOperand op = .i32 → ∃ x y, a = .i32 x ∧ b = .i32 y := by
    intro hty
    rw [hty] at ha hb
    obtain ⟨x, rfl⟩ := ha.i32_inv
    obtain ⟨y, rfl⟩ := hb.i32_inv
    exact ⟨x, y, rfl, rfl⟩
  have h64 : numOperand op = .i64 → ∃ x y, a = .i64 x ∧ b = .i64 y := by
    intro hty
    rw [hty] at ha hb
    obtain ⟨x, rfl⟩ := ha.i64_inv
    obtain ⟨y, rfl⟩ := hb.i64_inv
    exact ⟨x, y, rfl, rfl⟩
  cases op with
  | i32Add | i32Sub | i32Mul =>
      obtain ⟨x, y, rfl, rfl⟩ := h32 rfl
      exact ⟨_, rfl, .i32⟩
  | i64Add | i64Sub | i64Mul =>
      obtain ⟨x, y, rfl, rfl⟩ := h64 rfl
      exact ⟨_, rfl, .i64⟩
  | _ => cases hop

end values

/-! ## One instruction -/

section evaluation

variable {modules : Nat → Option Module} {m : Module} {self : Nat} {rt : Runtime}
  {values : List Value} {store : Store}

variable {instr : Instr} {ty : Nat}

theorem constInstr_read (h : constObject rt m self stack instr = none) :
    constInstr rt m self values stack instr store = (constStep rt self values stack instr, store) := by
  rw [constInstr, h]
  rfl

theorem constInstr_alloc {stack rest : List Value} {object : GcObject}
    (h : constObject rt m self stack instr = some (.ok (object, rest))) :
    constInstr rt m self values stack instr store =
      (.ok (.ref (object.ref store.objects.length) :: rest),
        { store with objects := store.objects ++ [object] }) := by
  rw [constInstr, h]
  rfl

theorem constInstr_refused {e : ExecFail} (h : constObject rt m self stack instr = some (.error e)) :
    constInstr rt m self values stack instr store = (.error e, store) := by
  rw [constInstr, h]
  rfl

/-- The values have the types, in a pool that has grown; or there was no room for an array. -/
def Sound (modules : Nat → Option Module) (m : Module) (self : Nat) (rt : Runtime) (store : Store)
    (types : List ValType) (result : Except ExecFail (List Value) × Store) : Prop :=
  store.objects <+: result.2.objects ∧
    ((∃ values, result.1 = .ok values ∧
        List.Forall₂ (HasType modules m self result.2.objects) values types) ∨
      (∃ count, rt.reserves count = false) ∧ result.1 = .error (.trap .outOfBoundsMemoryAccess))

theorem Sound.read {stack stack' : List Value} (hobject : constObject rt m self stack instr = none)
    (hstep : constStep rt self values stack instr = .ok stack')
    (htypes : List.Forall₂ (HasType modules m self store.objects) stack' types) :
    Sound modules m self rt store types (constInstr rt m self values stack instr store) := by
  rw [constInstr_read hobject, hstep]
  exact ⟨List.prefix_refl _, .inl ⟨stack', rfl, htypes⟩⟩

def dataKind : GcData → HeapType
  | .struct _ => .struct
  | .array _ => .array

/-- A new object has the type it is made with. -/
theorem Sound.alloc {stack rest : List Value} {st : SubType} {data : GcData}
    (hobject : constObject rt m self stack instr = some (.ok (⟨self, ty, data⟩, rest)))
    (hst : m.types[ty]? = some st) (hkind : st.composite.kind = dataKind data)
    (htypes : List.Forall₂ (HasType modules m self store.objects) rest types) :
    Sound modules m self rt store (typedRef ty :: types)
      (constInstr rt m self values stack instr store) := by
  rw [constInstr_alloc hobject]
  have hgrows : store.objects <+: store.objects ++ [⟨self, ty, data⟩] := List.prefix_append _ _
  have hnew : (store.objects ++ [⟨self, ty, data⟩])[store.objects.length]? = some ⟨self, ty, data⟩ :=
    List.getElem?_concat_length
  refine ⟨hgrows, .inl ⟨_, rfl, .cons ?_ (forall₂_mono hgrows htypes)⟩⟩
  cases data with
  | struct cells =>
      refine .ref ⟨_, cells, hnew, rfl⟩ (.own ?_ hst (congrArg some hkind.symm)) (.abs (absSub_refl _))
      exact Option.map_eq_some_iff.mpr ⟨_, hnew, rfl⟩
  | array cells =>
      refine .ref ⟨_, cells, hnew, rfl⟩ (.own ?_ hst (congrArg some hkind.symm)) (.abs (absSub_refl _))
      exact Option.map_eq_some_iff.mpr ⟨_, hnew, rfl⟩

theorem Sound.refused {count : Nat}
    (hobject : constObject rt m self stack instr = some (.error (.trap .outOfBoundsMemoryAccess)))
    (hcount : rt.reserves count = false) :
    Sound modules m self rt store types (constInstr rt m self values stack instr store) := by
  rw [constInstr_refused hobject]
  exact ⟨List.prefix_refl _, .inr ⟨⟨count, hcount⟩, rfl⟩⟩

theorem structFields_eq_ok {s : Spaces} {fields : List FieldType} (h : s.structFields ty = .ok fields) :
    structFieldTypes s.module ty = .ok fields ∧ ∃ st, s.module.types[ty]? = some st ∧
      st.composite.kind = .struct := by
  rw [Spaces.structFields] at h
  split at h
  · cases h
  · rename_i st hst
    obtain ⟨isFinal, supertypes, composite⟩ := st
    cases composite with
    | struct fields' =>
        cases h
        rw [structFieldTypes, hst]
        exact ⟨rfl, _, rfl, rfl⟩
    | _ => cases h

theorem arrayField_eq_ok {s : Spaces} {field : FieldType} (h : s.arrayField ty = .ok field) :
    arrayElementType s.module ty = .ok field ∧ ∃ st, s.module.types[ty]? = some st ∧
      st.composite.kind = .array := by
  rw [Spaces.arrayField] at h
  split at h
  · cases h
  · rename_i st hst
    obtain ⟨isFinal, supertypes, composite⟩ := st
    cases composite with
    | array field' =>
        cases h
        rw [arrayElementType, hst]
        exact ⟨rfl, _, rfl, rfl⟩
    | _ => cases h

section typed

variable {s : Spaces} {visible : Nat} (hspaces : buildSpaces m = .ok s)

include hspaces

theorem scoped_of_buildSpaces : Scoped m := by
  obtain ⟨⟨⟩, hchecked, -⟩ := bind_eq_ok.mp hspaces
  exact Accepted.scoped ⟨_, hchecked⟩

/-- A function of the module, as a value of its declared type. -/
theorem hasType_func (hself : modules self = some m) {index ty : Nat} {objects : List GcObject}
    (hty : s.funcTypes[index]? = some ty) :
    HasType modules m self objects (.ref (.func ⟨self, index⟩)) (typedRef ty) := by
  obtain ⟨-, hfuncTypes, hfuncs⟩ := buildSpaces_spec hspaces
  obtain ⟨signature, -, hsignature⟩ := Answer.forall₂_getElem? hfuncs hty
  have hkind : ∃ st, m.types[ty]? = some st ∧ st.composite.kind = .func := by
    rw [typeAt] at hsignature
    split at hsignature
    · cases hsignature
    · rename_i st hst
      obtain ⟨isFinal, supertypes, composite⟩ := st
      cases composite with
      | func _ => exact ⟨_, hst, rfl⟩
      | _ => cases hsignature
  obtain ⟨st, hst, hkind⟩ := hkind
  have hdeclared : declaredType modules objects (.func ⟨self, index⟩) = some (self, ty) := by
    rw [declaredType, hself]
    rw [hfuncTypes] at hty
    dsimp only [Option.bind_eq_bind, Option.bind_some]
    rw [hty]
    rfl
  exact .ref trivial (.own hdeclared hst (congrArg some hkind.symm)) (.abs (absSub_refl _))

omit hspaces in
theorem typedRef_over {st : SubType} (hst : m.types[ty]? = some st) :
    (typedRef ty).Over m := by
  intro x hx
  rw [List.mem_singleton.mp hx]
  exact (List.getElem?_eq_some_iff.mp hst).1

theorem over_of_constTyped {types types' : List ValType} (h : ConstTyped s visible instr types types')
    (hglobals : ∀ global ∈ s.globals, global.value.Over m) (htypes : ∀ ty ∈ types, ty.Over m) :
    ∀ ty ∈ types', ty.Over m := by
  obtain ⟨hmodule, hfuncTypes, hfuncs⟩ := buildSpaces_spec hspaces
  have hpush : ∀ {ty : ValType} {rest : List ValType}, ty.Over m → rest <:+ types →
      ∀ ty' ∈ ty :: rest, ty'.Over m := by
    intro ty rest hty hsuffix ty' hty'
    rcases List.mem_cons.mp hty' with rfl | hrest
    · exact hty
    · exact htypes ty' (hsuffix.subset hrest)
  have hpopped : ∀ {popped before rest : List ValType},
      popped.foldlM (popConstSub s.module) before = .ok rest → rest <:+ before := by
    intro popped before rest hpop
    induction popped generalizing before with
    | nil =>
        cases hpop
        exact List.suffix_refl _
    | cons ty popped ih =>
        rw [List.foldlM_cons] at hpop
        obtain ⟨middle, hfirst, hmore⟩ := bind_eq_ok.mp hpop
        obtain ⟨actual, rfl, -⟩ := popConstSub_eq_ok hfirst
        exact (ih hmore).trans (List.suffix_cons _ _)
  cases h with
  | i32Const | i64Const | f32Const | f64Const | v128Const => exact hpush nofun (List.suffix_refl _)
  | refNull hheap => exact hpush (hmodule ▸ hheap) (List.suffix_refl _)
  | refFunc _ hty =>
      obtain ⟨signature, -, hsignature⟩ := Answer.forall₂_getElem? hfuncs hty
      refine hpush ?_ (List.suffix_refl _)
      rw [typeAt] at hsignature
      split at hsignature
      · cases hsignature
      · rename_i hst
        exact typedRef_over hst
  | globalGet _ hglobal => exact hpush (hglobals _ (List.mem_of_getElem? hglobal)) (List.suffix_refl _)
  | @num op stack hop =>
      refine hpush ?_ ((List.suffix_cons _ _).trans (List.suffix_cons _ _))
      rcases numOperand_cases op with h | h <;> rw [h] <;> exact nofun
  | refI31 | anyConvertExtern | externConvertAny _ => exact hpush nofun (List.suffix_cons _ _)
  | structNew hfields hpop =>
      obtain ⟨-, st, hst, -⟩ := structFields_eq_ok hfields
      exact hpush (typedRef_over (hmodule ▸ hst)) (hpopped hpop)
  | structNewDefault hfields _ =>
      obtain ⟨-, st, hst, -⟩ := structFields_eq_ok hfields
      exact hpush (typedRef_over (hmodule ▸ hst)) (List.suffix_refl _)
  | arrayNew hfield hpop =>
      obtain ⟨-, st, hst, -⟩ := arrayField_eq_ok hfield
      obtain ⟨actual, rfl, -⟩ := popConstSub_eq_ok hpop
      exact hpush (typedRef_over (hmodule ▸ hst))
        ((List.suffix_cons _ _).trans (List.suffix_cons _ _))
  | arrayNewDefault hfield _ =>
      obtain ⟨-, st, hst, -⟩ := arrayField_eq_ok hfield
      exact hpush (typedRef_over (hmodule ▸ hst)) (List.suffix_cons _ _)
  | arrayNewFixed hfield hpop =>
      obtain ⟨-, st, hst, -⟩ := arrayField_eq_ok hfield
      exact hpush (typedRef_over (hmodule ▸ hst)) (hpopped hpop)

/-- A typed instruction goes from values of the types before to values of the types after. -/
theorem constInstr_sound (hself : modules self = some m)
    {others : NumOp → List Value → Except ExecFail NumValue} {reserves : Nat → Bool}
    {instr : Instr} {stack : List Value} {types types' : List ValType}
    (hglobals : List.Forall₂ (HasType modules m self store.objects) values
      ((s.globals.take visible).map GlobalType.value))
    (hstack : List.Forall₂ (HasType modules m self store.objects) stack types)
    (hover : ∀ ty ∈ types, ty.Over m) (htyped : ConstTyped s visible instr types types') :
    Sound modules m self (constRuntime others reserves) store types'
      (constInstr (constRuntime others reserves) m self values stack instr store) := by
  have hm := scoped_of_buildSpaces hspaces
  obtain ⟨hmodule, -, -⟩ := buildSpaces_spec hspaces
  cases htyped with
  | i32Const => exact .read rfl rfl (.cons .i32 hstack)
  | i64Const => exact .read rfl rfl (.cons .i64 hstack)
  | f32Const => exact .read rfl rfl (.cons .f32 hstack)
  | f64Const => exact .read rfl rfl (.cons .f64 hstack)
  | v128Const => exact .read rfl rfl (.cons .v128 hstack)
  | refNull _ => exact .read rfl rfl (.cons .null hstack)
  | refFunc _ hty => exact .read rfl rfl (.cons (hasType_func hspaces hself hty) hstack)
  | @globalGet index global _ hindex hglobal =>
      have htype : ((s.globals.take visible).map GlobalType.value)[index]? = some global.value := by
        rw [List.getElem?_map, List.getElem?_take_of_lt hindex, hglobal]
        rfl
      obtain ⟨v, hv, hhas⟩ := Answer.forall₂_getElem? hglobals.flip htype
      refine .read rfl ?_ (.cons hhas hstack)
      rw [constStep, hv]
  | @num op _ hop =>
      obtain ⟨b, below, hb, hbelow, rfl⟩ := List.forall₂_cons_right_iff.mp hstack
      obtain ⟨a, rest, ha, hrest, rfl⟩ := List.forall₂_cons_right_iff.mp hbelow
      obtain ⟨v, hv, hhas⟩ := constNum_ok hop ha hb
      have hinputs : numInputs op = 2 := by
        cases op <;> first | rfl | cases hop
      have hexec : (constRuntime others reserves).execNum op ((b :: a :: rest).take 2).reverse =
          Except.ok v := by
        change (match constNum op [a, b] with | some v => Except.ok v | none => others op [a, b]) = _
        rw [hv]
      refine .read rfl ?_ (.cons hhas hrest)
      have hlength : 2 ≤ (b :: a :: rest).length := Nat.le_add_left 2 _
      rw [constStep, hinputs, if_pos hlength, hexec]
      rfl
  | refI31 =>
      obtain ⟨v, rest, hv, hrest, rfl⟩ := List.forall₂_cons_right_iff.mp hstack
      obtain ⟨a, rfl⟩ := hv.i32_inv
      exact .read rfl rfl (.cons (.ref trivial (.abs rfl) (.abs rfl)) hrest)
  | anyConvertExtern =>
      obtain ⟨v, rest, hv, hrest, rfl⟩ := List.forall₂_cons_right_iff.mp hstack
      obtain ⟨r, rfl, hunwrapped⟩ := hv.unwrap hm
      exact .read rfl rfl (.cons hunwrapped hrest)
  | @externConvertAny t _ hsub =>
      obtain ⟨v, rest, hv, hrest, rfl⟩ := List.forall₂_cons_right_iff.mp hstack
      rw [hmodule] at hsub
      have hbelow : HeapBelow m t.heap .any := heapBelow_of_heapSub (beq_iff_eq.mp hsub)
      rcases hv.wrap hm (hover _ List.mem_cons_self) hbelow with
        ⟨rfl, hnullable⟩ | ⟨r, inner, rfl, hr, hinner, hwrapped⟩
      · refine .read rfl rfl (.cons ?_ hrest)
        rw [hnullable]
        exact .null
      · refine .read rfl ?_ (.cons hwrapped hrest)
        cases r with
        | null => exact absurd rfl hr
        | _ =>
            rw [constStep, hinner]
            exact nofun
  | @structNew ty fields _ _ hfields hpop =>
      obtain ⟨htypes, st, hst, hkind⟩ := structFields_eq_ok hfields
      rw [hmodule] at htypes hst hpop
      have hcells : (fields.map fun field => field.ty.val).reverse =
          ((fields.map FieldType.ty).reverse).map StorageType.val := by
        rw [List.map_reverse, List.map_map]
        rfl
      rw [hcells] at hpop
      obtain ⟨cells, rest, hcells, hrest, -⟩ := popCells_typed hstack hpop
      have hobject : constObject (constRuntime others reserves) m self stack (.structNew ty) =
          some (.ok (⟨self, ty, .struct cells⟩, rest)) := by
        rw [constObject, htypes, ok_bind, hcells]
        rfl
      exact .alloc hobject hst hkind hrest
  | @structNewDefault ty fields _ hfields hdefault =>
      obtain ⟨htypes, st, hst, hkind⟩ := structFields_eq_ok hfields
      rw [hmodule] at htypes hst
      obtain ⟨cells, hcells⟩ := cells_default hdefault
      have hobject : constObject (constRuntime others reserves) m self stack (.structNewDefault ty) =
          some (.ok (⟨self, ty, .struct cells⟩, stack)) := by
        rw [constObject, htypes, ok_bind, hcells]
        rfl
      exact .alloc hobject hst hkind hstack
  | @arrayNew ty field _ _ hfield hpop =>
      obtain ⟨htype, st, hst, hkind⟩ := arrayField_eq_ok hfield
      rw [hmodule] at htype hst hpop
      obtain ⟨v, below, hv, hbelow, rfl⟩ := List.forall₂_cons_right_iff.mp hstack
      obtain ⟨len, rfl⟩ := hv.i32_inv
      have hone : ([field.ty].map StorageType.val).foldlM (popConstSub m) _ = .ok _ :=
        bind_eq_ok.mpr ⟨_, hpop, rfl⟩
      obtain ⟨cells, rest, hcells, hrest, -⟩ := popCells_typed hbelow hone
      cases hroom : reserves len.toNat with
      | true =>
          have hobject : constObject (constRuntime others reserves) m self (.i32 len :: below) (.arrayNew ty) =
              some (.ok (⟨self, ty, .array (cells.flatMap (List.replicate len.toNat))⟩, rest)) := by
            rw [constObject, htype, ok_bind, popConstI32, ok_bind]
            dsimp only
            rw [hcells, ok_bind]
            exact congrArg some (if_pos hroom)
          exact .alloc hobject hst hkind hrest
      | false =>
          refine .refused ?_ hroom
          rw [constObject, htype, ok_bind, popConstI32, ok_bind]
          dsimp only
          rw [hcells, ok_bind]
          exact congrArg some (if_neg (Bool.eq_false_iff.mp hroom))
  | @arrayNewDefault ty field _ hfield hdefault =>
      obtain ⟨htype, st, hst, hkind⟩ := arrayField_eq_ok hfield
      rw [hmodule] at htype hst
      obtain ⟨v, rest, hv, hrest, rfl⟩ := List.forall₂_cons_right_iff.mp hstack
      obtain ⟨len, rfl⟩ := hv.i32_inv
      obtain ⟨cell, hcell⟩ := storage_default hdefault
      cases hroom : reserves len.toNat with
      | true =>
          have hobject : constObject (constRuntime others reserves) m self (.i32 len :: rest)
              (.arrayNewDefault ty) = some (.ok (⟨self, ty, .array (List.replicate len.toNat cell)⟩, rest)) := by
            rw [constObject, htype, ok_bind, popConstI32, ok_bind]
            dsimp only
            rw [hcell, ok_bind]
            exact congrArg some (if_pos hroom)
          exact .alloc hobject hst hkind hrest
      | false =>
          refine .refused ?_ hroom
          rw [constObject, htype, ok_bind, popConstI32, ok_bind]
          dsimp only
          rw [hcell, ok_bind]
          exact congrArg some (if_neg (Bool.eq_false_iff.mp hroom))
  | @arrayNewFixed ty n field _ _ hfield hpop =>
      obtain ⟨htype, st, hst, hkind⟩ := arrayField_eq_ok hfield
      rw [hmodule] at htype hst hpop
      rw [← List.map_replicate] at hpop
      obtain ⟨cells, rest, hcells, hrest, -⟩ := popCells_typed hstack hpop
      have hobject : constObject (constRuntime others reserves) m self stack (.arrayNewFixed ty n) =
          some (.ok (⟨self, ty, .array cells⟩, rest)) := by
        rw [constObject, htype, ok_bind, hcells]
        rfl
      exact .alloc hobject hst hkind hrest

/-- So does a typed sequence. -/
theorem constInstrs_sound (hself : modules self = some m)
    (hover : ∀ global ∈ s.globals, global.value.Over m)
    {others : NumOp → List Value → Except ExecFail NumValue} {reserves : Nat → Bool}
    {expr : List Instr} {stack : List Value} {types types' : List ValType}
    (hglobals : List.Forall₂ (HasType modules m self store.objects) values
      ((s.globals.take visible).map GlobalType.value))
    (hstack : List.Forall₂ (HasType modules m self store.objects) stack types)
    (htypes : ∀ ty ∈ types, ty.Over m) (htyped : expr.foldlM (constType s visible) types = .ok types') :
    Sound modules m self (constRuntime others reserves) store types'
      (expr.foldlM (constInstr (constRuntime others reserves) m self values) stack store) := by
  induction expr generalizing stack types store with
  | nil =>
      cases htyped
      exact ⟨List.prefix_refl _, .inl ⟨stack, rfl, hstack⟩⟩
  | cons instr expr ih =>
      rw [List.foldlM_cons] at htyped
      obtain ⟨middle, hfirst, hrest⟩ := bind_eq_ok.mp htyped
      have hstep := constTyped_of_constType hfirst
      obtain ⟨hgrows, hone⟩ := @constInstr_sound modules m self values store s visible hspaces hself
        others reserves _ _ _ _ hglobals hstack htypes hstep
      rw [List.foldlM_cons]
      rcases hrun : constInstr (constRuntime others reserves) m self values stack instr store with ⟨r, store'⟩
      rw [hrun] at hgrows hone
      rcases hone with ⟨stack', rfl, hstack'⟩ | ⟨hcount, rfl⟩
      · rw [Fallible.bind_ok hrun]
        obtain ⟨hgrows', hmore⟩ := ih (forall₂_mono hgrows hglobals) hstack'
          (over_of_constTyped hspaces hstep hover htypes) hrest
        exact ⟨hgrows.trans hgrows', hmore⟩
      · rw [Fallible.bind_error hrun]
        exact ⟨hgrows, .inr ⟨hcount, rfl⟩⟩

theorem evaluates_of_validated (hself : modules self = some m)
    (hover : ∀ global ∈ s.globals, global.value.Over m)
    {others : NumOp → List Value → Except ExecFail NumValue} {reserves : Nat → Bool}
    {expr : List Instr} {expected : ValType} (hexpected : expected.Over m)
    (hglobals : List.Forall₂ (HasType modules m self store.objects) values
      ((s.globals.take visible).map GlobalType.value))
    (hvalid : validateConstExpr s visible expr expected = .ok ()) :
    Evaluates modules m self (constRuntime others reserves) values expr expected store := by
  obtain ⟨hmodule, -, -⟩ := buildSpaces_spec hspaces
  obtain ⟨actual, htype, hvalid⟩ := bind_eq_ok.mp hvalid
  obtain ⟨types, htyped, htype⟩ := bind_eq_ok.mp htype
  have hsub : valSub m expected actual = true := by
    obtain ⟨hsub, -⟩ := guard_eq_ok hvalid
    rw [hmodule] at hsub
    simpa using hsub
  obtain rfl : types = [actual] := by
    match types with
    | [] => cases htype
    | [_] =>
        cases htype
        rfl
    | _ :: _ :: _ => cases htype
  have hactual : actual.Over m := by
    -- Types stay within the module, from the empty stack on.
    have hrun : ∀ {expr : List Instr} {types types' : List ValType},
        expr.foldlM (constType s visible) types = .ok types' → (∀ ty ∈ types, ty.Over m) →
          ∀ ty ∈ types', ty.Over m := by
      intro expr types types' htyped htypes
      induction expr generalizing types with
      | nil =>
          cases htyped
          exact htypes
      | cons instr expr ih =>
          rw [List.foldlM_cons] at htyped
          obtain ⟨middle, hfirst, hrest⟩ := bind_eq_ok.mp htyped
          exact ih hrest (over_of_constTyped hspaces (constTyped_of_constType hfirst) hover htypes)
    exact hrun htyped nofun actual List.mem_cons_self
  obtain ⟨-, hresult⟩ := @constInstrs_sound modules m self values store s visible hspaces hself hover
    others reserves expr [] [] [actual] hglobals .nil nofun htyped
  rcases hrun : expr.foldlM (constInstr (constRuntime others reserves) m self values) [] store with
    ⟨r, store'⟩
  rw [hrun] at hresult
  rcases hresult with ⟨stack, rfl, hstack⟩ | ⟨hcount, rfl⟩
  · obtain ⟨v, rest, hv, hrest, rfl⟩ := List.forall₂_cons_right_iff.mp hstack
    cases hrest
    refine .inl ⟨v, store', hrun, ?_, ?_⟩
    · rw [evalInstrs, Fallible.bind_ok hrun]
      rfl
    · exact hv.sub (scoped_of_buildSpaces hspaces) hactual hexpected
        (valBelow_of_valSub (beq_iff_eq.mp hsub))
  · refine .inr ⟨hcount, ?_⟩
    rw [evalInstrs, Fallible.bind_error hrun]

end typed

end evaluation

/-! ## The two checks and the evaluation -/

/-- The two checks agree on a sequence of constant instructions, and what passes evaluates to
one value of its type, exactly where no reference to nothing external is converted or the
sequence is no body. -/
theorem constExpr_iff {m : Module} {s : Spaces} (hspaces : buildSpaces m = .ok s) (visible : Nat)
    {expr : List Instr} (hconst : ∀ instr ∈ expr, Constant s instr)
    (hover : ∀ global ∈ s.globals, global.value.Over m) {expected : ValType}
    (hexpected : expected.Over m) :
    ((validateConstExpr s visible expr expected = .ok () ↔
        validateAsBody s visible expr expected = .ok ()) ∧
      (validateConstExpr s visible expr expected = .ok () →
        ∀ (modules : Nat → Option Module) (self : Nat)
          (others : NumOp → List Value → Except ExecFail NumValue) (reserves : Nat → Bool)
          (values : List Value) (store : Store), modules self = some m →
          List.Forall₂ (HasType modules m self store.objects) values
            ((s.globals.take visible).map GlobalType.value) →
          Evaluates modules m self (constRuntime others reserves) values expr expected store)) ↔
      NoBareConvert s expr ∨ validateAsBody s visible expr expected ≠ .ok () := by
  rw [← agrees_iff hconst]
  constructor
  · exact And.left
  · intro hagrees
    refine ⟨hagrees, fun hvalid modules self others reserves values store hself hglobals => ?_⟩
    exact evaluates_of_validated hspaces hself hover hexpected hglobals hvalid

/-- A null of the external bottom is converted by the machine for bodies alone. -/
theorem constExpr_noExternal : buildSpaces {} = .ok ⟨{}, [], [], [], [], [], [], []⟩ ∧
    (∀ instr ∈ [Instr.refNull .noExternal, .anyConvertExtern],
      Constant ⟨{}, [], [], [], [], [], [], []⟩ instr) ∧
    ¬ (validateConstExpr ⟨{}, [], [], [], [], [], [], []⟩ 0 [.refNull .noExternal, .anyConvertExtern]
          (.ref ⟨true, .any⟩) = .ok () ↔
        validateAsBody ⟨{}, [], [], [], [], [], [], []⟩ 0 [.refNull .noExternal, .anyConvertExtern]
          (.ref ⟨true, .any⟩) = .ok ()) := by
  refine ⟨rfl, ?_, fun hagrees => ?_⟩
  · exact List.forall_mem_cons.mpr ⟨trivial, List.forall_mem_cons.mpr ⟨trivial, nofun⟩⟩
  · cases hagrees.mpr rfl

/-- A module with a struct of one field and an imported global. -/
def boxed : Module :=
  { types := [⟨true, [], .struct [⟨.i8, false⟩]⟩], imports := [.global ⟨.i32, false⟩] }

def boxedSpaces : Spaces :=
  ⟨boxed, [], [], [⟨.i32, false⟩], [], [], [], []⟩

theorem constExpr_boxed : Evaluates (fun _ => some boxed) boxed 0
    (constRuntime (fun _ _ => .error .terminated) fun _ => true) [.i32 7]
    [.globalGet 0, .structNew 0, .externConvertAny, .anyConvertExtern] (.ref ⟨true, .any⟩) .empty := by
  have hspaces : buildSpaces boxed = .ok boxedSpaces := rfl
  have hglobal : Constant boxedSpaces (.globalGet 0) := by
    rintro global ⟨⟩
    rfl
  have hconst : ∀ instr ∈ [Instr.globalGet 0, .structNew 0, .externConvertAny, .anyConvertExtern],
      Constant boxedSpaces instr :=
    List.forall_mem_cons.mpr ⟨hglobal, List.forall_mem_cons.mpr ⟨trivial,
      List.forall_mem_cons.mpr ⟨trivial, List.forall_mem_cons.mpr ⟨trivial, nofun⟩⟩⟩⟩
  have hover : ∀ global ∈ boxedSpaces.globals, global.value.Over boxed :=
    List.forall_mem_cons.mpr ⟨nofun, nofun⟩
  have hexpected : (ValType.ref ⟨true, .any⟩).Over boxed := nofun
  have hvalid : validateConstExpr boxedSpaces 1
      [.globalGet 0, .structNew 0, .externConvertAny, .anyConvertExtern] (.ref ⟨true, .any⟩) = .ok () := rfl
  have hboth := (constExpr_iff hspaces 1 hconst hover hexpected).mpr
    (.inl (noBareConvert_of_validated hvalid))
  exact hboth.2 hvalid _ 0 _ _ [.i32 7] .empty rfl (.cons .i32 .nil)

end Slag.Wasm.Linking
