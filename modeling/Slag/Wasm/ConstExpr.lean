import Slag.Lib.Returns
import Slag.Wasm.Subtyping
import Slag.Wasm.Validate

/-!
The second typing of constant expressions, with a stack of its own, and where it and
the machine for bodies agree.
-/

namespace Slag.Wasm

def extendedConstOp : NumOp → Bool
  | .i32Add | .i32Sub | .i32Mul | .i64Add | .i64Sub | .i64Mul => true
  | _ => false

def numOperand : NumOp → ValType
  | .i32Add | .i32Sub | .i32Mul => .i32
  | _ => .i64

def constRequired : Error := .invalid "constant expression required"

def popConstSub (m : Module) (stack : List ValType) (expected : ValType) :
    Except Error (List ValType) :=
  match stack with
  | [] => .error typeMismatch
  | actual :: stack => if valSub m expected actual then .ok stack else .error typeMismatch

def popConst (expected : ValType) : List ValType → Except Error (List ValType)
  | actual :: stack => if actual = expected then .ok stack else .error typeMismatch
  | [] => .error typeMismatch

section

variable (s : Spaces) (visible : Nat)

/-- The stack after one instruction, the top first. -/
def constType (stack : List ValType) : Instr → Except Error (List ValType)
  | .i32Const _ => .ok (.i32 :: stack)
  | .i64Const _ => .ok (.i64 :: stack)
  | .f32Const _ => .ok (.f32 :: stack)
  | .f64Const _ => .ok (.f64 :: stack)
  | .v128Const _ => .ok (.v128 :: stack)
  | .refNull heap => do return .ref ⟨true, ← s.heapChecked heap⟩ :: stack
  | .refFunc index => do
      if s.funcs.length ≤ index then throw (.invalid "unknown function")
      return typedRef (← Spaces.lookup s.funcTypes index "unknown function") :: stack
  | .globalGet index => do
      if visible ≤ index then throw (.invalid "unknown global")
      let global ← s.globalAt index
      if global.mutable then throw constRequired
      return global.value :: stack
  | .num op => do
      if !extendedConstOp op then throw constRequired
      let stack ← popConst (numOperand op) stack
      let stack ← popConst (numOperand op) stack
      return numOperand op :: stack
  | .refI31 => do
      return .ref ⟨false, .i31⟩ :: (← popConst .i32 stack)
  | .anyConvertExtern =>
      match stack with
      | .ref entry :: stack =>
          if entry.heap ≠ .external then .error typeMismatch
          else .ok (.ref ⟨entry.nullable, .any⟩ :: stack)
      | _ => .error typeMismatch
  | .externConvertAny =>
      match stack with
      | .ref entry :: stack =>
          if !heapSub s.module entry.heap .any then .error typeMismatch
          else .ok (.ref ⟨entry.nullable, .external⟩ :: stack)
      | _ => .error typeMismatch
  | .structNew ty => do
      let fields ← s.structFields ty
      let stack ← (fields.map fun field => field.ty.val).reverse.foldlM (popConstSub s.module) stack
      return typedRef ty :: stack
  | .structNewDefault ty => do
      let fields ← s.structFields ty
      if fields.any fun field => !isDefaultable field.ty.val then throw typeMismatch
      return typedRef ty :: stack
  | .arrayNew ty => do
      let field ← s.arrayField ty
      let stack ← popConst .i32 stack
      return typedRef ty :: (← popConstSub s.module stack field.ty.val)
  | .arrayNewDefault ty => do
      let field ← s.arrayField ty
      if !isDefaultable field.ty.val then throw typeMismatch
      return typedRef ty :: (← popConst .i32 stack)
  | .arrayNewFixed ty n => do
      if maxArrayNewFixed < n then throw (.invalid "array.new_fixed count too large")
      let field ← s.arrayField ty
      let stack ← (List.replicate n field.ty.val).foldlM (popConstSub s.module) stack
      return typedRef ty :: stack
  | _ => .error constRequired

/-- Exactly one value is left. -/
def constExprType (expr : List Instr) : Except Error ValType := do
  match ← expr.foldlM (constType s visible) [] with
  | [ty] => return ty
  | _ => throw typeMismatch

def validateConstExpr (expr : List Instr) (expected : ValType) : Except Error Unit := do
  let actual ← constExprType s visible expr
  if !valSub s.module expected actual then throw typeMismatch

/-! ## The same sequence as a body -/

/-- The globals that an initializer sees, and the functions, all of which it may name. -/
def Spaces.restricted (s : Spaces) (visible : Nat) : Spaces :=
  { s with globals := s.globals.take visible, declared := List.replicate s.funcs.length true }

def validateAsBody (expr : List Instr) (expected : ValType) : Except Error Unit :=
  (Machine.entry ⟨[], [expected]⟩ []).validateBody (s.restricted visible) expr ⟨[], [expected]⟩ []

/-- The instructions a constant expression is made of. -/
def Constant (s : Spaces) : Instr → Prop
  | .i32Const _ | .i64Const _ | .f32Const _ | .f64Const _ | .v128Const _ | .refNull _ | .refFunc _
  | .refI31 | .anyConvertExtern | .externConvertAny | .structNew _ | .structNewDefault _
  | .arrayNew _ | .arrayNewDefault _ | .arrayNewFixed _ _ => True
  | .globalGet index => ∀ global, s.globals[index]? = some global → global.mutable = false
  | .num op => extendedConstOp op = true
  | _ => False

/-- An instruction that leaves a reference to nothing external. -/
def Bare (s : Spaces) (instr : Instr) : Prop :=
  instr = .refNull .noExternal ∨ ∃ index global nullable, instr = .globalGet index ∧
    s.globals[index]? = some global ∧ global.value = .ref ⟨nullable, .noExternal⟩

/-- Such a reference is converted nowhere. -/
def NoBareConvert (s : Spaces) (expr : List Instr) : Prop :=
  ∀ before instr after, expr = before ++ instr :: .anyConvertExtern :: after → ¬ Bare s instr

end

/-! ## One instruction -/

variable {instr : Instr}

section steps

variable {s : Spaces} {visible : Nat} {expected : ValType}

/-- The machine that checks the body, with the same stack. -/
def machineOf (expected : ValType) (stack : List ValType) : Machine :=
  ⟨stack.map .known, [⟨.func, [], [expected], 0, false, []⟩], []⟩

theorem entry_eq (expected : ValType) : Machine.entry ⟨[], [expected]⟩ [] = machineOf expected [] := rfl

theorem popVal_cons (ty : ValType) (stack : List ValType) :
    (machineOf expected (ty :: stack)).popVal = .ok (.known ty, machineOf expected stack) := rfl

theorem popExpected_machineOf (spaces : Spaces) (stack : List ValType) (ty : ValType) :
    (machineOf expected stack).popExpected spaces ty =
      (popConstSub spaces.module stack ty).map (machineOf expected) := by
  cases stack with
  | nil => rfl
  | cons actual stack =>
      rw [Machine.popExpected, Machine.popValOf, popVal_cons, popConstSub]
      cases h : valSub spaces.module ty actual with
      | true =>
          change ((if valSub spaces.module ty actual = true then _ else _ : Except Error _) >>= _) = _
          rw [h]
          rfl
      | false =>
          change ((if valSub spaces.module ty actual = true then _ else _ : Except Error _) >>= _) = _
          rw [h]
          rfl

theorem popVals_machineOf (spaces : Spaces) (types stack : List ValType) :
    (machineOf expected stack).popVals spaces types =
      (types.reverse.foldlM (popConstSub spaces.module) stack).map (machineOf expected) := by
  rw [Machine.popVals]
  generalize types.reverse = popped
  induction popped generalizing stack with
  | nil => rfl
  | cons ty popped ih =>
      rw [List.foldlM_cons, List.foldlM_cons, popExpected_machineOf]
      cases popConstSub spaces.module stack ty with
      | error e => rfl
      | ok rest => exact ih rest

theorem valSub_i32 (m : Module) (actual : ValType) : valSub m .i32 actual = decide (actual = .i32) := by
  cases actual <;> rfl

theorem valSub_i64 (m : Module) (actual : ValType) : valSub m .i64 actual = decide (actual = .i64) := by
  cases actual <;> rfl

theorem popConstSub_num (m : Module) {ty : ValType} (hty : ty = .i32 ∨ ty = .i64) (stack : List ValType) :
    popConstSub m stack ty = popConst ty stack := by
  cases stack with
  | nil => rfl
  | cons actual stack =>
      rcases hty with rfl | rfl
      · rw [popConstSub, valSub_i32, popConst]
        simp only [decide_eq_true_iff]
      · rw [popConstSub, valSub_i64, popConst]
        simp only [decide_eq_true_iff]

theorem toOption_bind {ε α β : Type} (x : Except ε α) (f : α → Except ε β) :
    (x >>= f).toOption = x.toOption.bind fun a => (f a).toOption := by
  cases x <;> rfl

theorem toOption_eq_some {ε α : Type} {x : Except ε α} {a : α} : x.toOption = some a ↔ x = .ok a := by
  cases x with
  | error e => exact ⟨nofun, nofun⟩
  | ok b => exact ⟨fun h => congrArg Except.ok (Option.some.inj h), fun h => by cases h; rfl⟩

theorem numSignature_extended {op : NumOp} (h : extendedConstOp op = true) :
    numSignature op = ([numOperand op, numOperand op], [numOperand op]) := by
  cases op <;> first | rfl | cases h

theorem numOperand_cases (op : NumOp) : numOperand op = .i32 ∨ numOperand op = .i64 := by
  unfold numOperand
  split <;> simp

theorem module_restricted : (s.restricted visible).module = s.module := rfl

theorem lookup_eq_ok {α : Type} {entries : List α} {index : Nat} {message : String} {entry : α}
    (h : Spaces.lookup entries index message = .ok entry) : entries[index]? = some entry := by
  rw [Spaces.lookup] at h
  split at h
  · rename_i heq
    cases h
    exact heq
  · cases h

theorem bind_of_error {α β : Type} {x : Except Error α} {e : Error} (h : x = .error e)
    (f : α → Except Error β) : x >>= f = .error e := by
  rw [h]
  rfl

theorem bind_of_ok {α β : Type} {x : Except Error α} {a : α} (h : x = .ok a) (f : α → Except Error β) :
    x >>= f = f a := by
  rw [h]
  rfl

section plain

variable {types : Except Error (List ValType × List ValType)} {after : Except Error (List ValType)}
  {operands stack : List ValType} {result : ValType} {e e' : Error}

/-- Popping some types and pushing one, on either stack. -/
theorem plain_ok (h : types = .ok (operands, [result]))
    (hafter : after = operands.reverse.foldlM (popConstSub s.module) stack >>= fun stack =>
      pure (result :: stack)) :
    (do
      let (operands, results) ← types
      let m ← (machineOf expected stack).popVals (s.restricted visible) operands
      return m.pushVals results : Except Error Machine).toOption = after.toOption.map (machineOf expected) := by
  subst h hafter
  change ((machineOf expected stack).popVals (s.restricted visible) operands >>= fun m =>
    Except.ok (m.pushVals [result])).toOption = _
  rw [popVals_machineOf, module_restricted]
  cases operands.reverse.foldlM (popConstSub s.module) stack <;> rfl

theorem plain_error (h : types = .error e) (hafter : after = .error e') :
    (do
      let (operands, results) ← types
      let m ← (machineOf expected stack).popVals (s.restricted visible) operands
      return m.pushVals results : Except Error Machine).toOption = after.toOption.map (machineOf expected) := by
  subst h hafter
  rfl

end plain

theorem popI32_eq (stack : List ValType) :
    [ValType.i32].reverse.foldlM (popConstSub s.module) stack = popConst .i32 stack := by
  rw [List.reverse_singleton, List.foldlM_cons, popConstSub_num s.module (.inl rfl)]
  cases popConst .i32 stack <;> rfl

theorem valSub_ref_nullable (m : Module) (heap : HeapType) (r : RefType) :
    valSub m (.ref ⟨true, heap⟩) (.ref r) = heapSub m r.heap heap := by
  rw [valSub, valSub?, heapSub]
  split
  · rename_i heq
    cases heq
    simp [heapSub?]
  · rfl

theorem heapSub_external (m : Module) (heap : HeapType) :
    heapSub m heap .external = decide (heap = .external ∨ heap = .noExternal) := by
  cases heap with
  | type i =>
      unfold heapSub heapSub?
      rw [if_neg nofun]
      cases hst : m.types[i]? with
      | none => simp [hst]
      | some st =>
          obtain ⟨_, _, composite⟩ := st
          cases composite <;> simp [hst, CompositeType.kind, absSub]
  | _ => rfl

theorem popValOf_cons (spaces : Spaces) (ty actual : ValType) (stack : List ValType) :
    (machineOf expected (actual :: stack)).popValOf spaces ty =
      if valSub spaces.module ty actual then .ok (.known actual, machineOf expected stack)
      else .error typeMismatch := rfl

theorem valSub_ref_num (m : Module) (r : RefType) {actual : ValType} (h : ∀ a, actual ≠ .ref a) :
    valSub m (.ref r) actual = false := by
  cases actual with
  | ref a => exact absurd rfl (h a)
  | _ => rfl

/-- A conversion pops what is below a heap type, and pushes a reference that is null
where the operand may be. -/
theorem convert_machineOf (heap result : HeapType) (stack : List ValType) :
    ((machineOf expected stack).popValOf (s.restricted visible) (.ref ⟨true, heap⟩) >>= fun p =>
      .ok (p.2.pushVals [.ref ⟨match p.1 with
        | .known (.ref r) => r.nullable
        | _ => true, result⟩])).toOption =
      (match stack with
        | .ref entry :: rest =>
            if heapSub s.module entry.heap heap then some (ValType.ref ⟨entry.nullable, result⟩ :: rest)
            else none
        | _ => none).map (machineOf expected) := by
  cases stack with
  | nil => rfl
  | cons actual rest =>
      rw [popValOf_cons, module_restricted]
      cases actual with
      | ref entry =>
          rw [valSub_ref_nullable]
          dsimp only
          cases heapSub s.module entry.heap heap <;> rfl
      | _ =>
          rw [valSub_ref_num s.module _ (by intro a h; cases h)]
          rfl

theorem step_machineOf {stack : List ValType} (hconst : Constant s instr)
    (hbare : instr = .anyConvertExtern → ∀ r rest, stack = .ref r :: rest → r.heap ≠ .noExternal) :
    ((machineOf expected stack).step (s.restricted visible) ⟨[], [expected]⟩ [] instr).toOption =
      (constType s visible stack instr).toOption.map (machineOf expected) := by
  cases instr with
  | i32Const _ | i64Const _ | f32Const _ | f64Const _ | v128Const _ => rfl
  | refNull heap =>
      cases hheap : s.heapChecked heap with
      | error e => exact plain_error (bind_of_error hheap _) (bind_of_error hheap _)
      | ok heap' => exact plain_ok (bind_of_ok hheap _) (bind_of_ok hheap _)
  | refFunc index =>
      by_cases hindex : s.funcs.length ≤ index
      · exact plain_error (if_pos hindex) (if_pos hindex)
      · have hdeclared : (List.replicate s.funcs.length true)[index]?.getD false = true := by
          rw [List.getElem?_replicate, if_pos (by omega)]
          rfl
        have hundeclared : ¬ (!(List.replicate s.funcs.length true)[index]?.getD false) = true := by
          rw [hdeclared]
          decide
        cases htype : Spaces.lookup s.funcTypes index "unknown function" with
        | error e =>
            exact plain_error ((if_neg hindex).trans ((if_neg hundeclared).trans (bind_of_error htype _)))
              ((if_neg hindex).trans (bind_of_error htype _))
        | ok ty =>
            exact plain_ok ((if_neg hindex).trans ((if_neg hundeclared).trans (bind_of_ok htype _)))
              ((if_neg hindex).trans (bind_of_ok htype _))
  | globalGet index =>
      by_cases hindex : visible ≤ index
      · have hnone : Spaces.lookup (s.globals.take visible) index "unknown global" =
            .error (.invalid "unknown global") := by
          rw [Spaces.lookup, List.getElem?_eq_none (by rw [List.length_take]; omega)]
        exact plain_error (bind_of_error hnone _) (if_pos hindex)
      · have hseen : Spaces.lookup (s.globals.take visible) index "unknown global" = s.globalAt index := by
          rw [Spaces.lookup, List.getElem?_take_of_lt (by omega)]
          rfl
        cases hglobal : s.globalAt index with
        | error e =>
            exact plain_error (bind_of_error (hseen.trans hglobal) _)
              ((if_neg hindex).trans (bind_of_error hglobal _))
        | ok global =>
            have himmutable : ¬ global.mutable = true := by
              rw [hconst global (lookup_eq_ok hglobal)]
              decide
            exact plain_ok (bind_of_ok (hseen.trans hglobal) _)
              ((if_neg hindex).trans ((bind_of_ok hglobal _).trans (if_neg himmutable)))
  | num op =>
      have hop : extendedConstOp op = true := hconst
      refine plain_ok (congrArg Except.ok (numSignature_extended hop)) ?_
      rw [constType, hop]
      simp only [List.reverse_cons, List.reverse_nil, List.nil_append, List.cons_append, List.foldlM_cons,
        List.foldlM_nil, popConstSub_num s.module (numOperand_cases op), bind_pure, bind_assoc]
      rfl
  | refI31 =>
      refine plain_ok rfl ?_
      rw [popI32_eq]
      rfl
  | anyConvertExtern =>
      refine (convert_machineOf .external .any stack).trans ?_
      cases stack with
      | nil => rfl
      | cons actual rest =>
          cases actual with
          | ref entry =>
              have hheap := hbare rfl entry rest rfl
              rw [constType]
              dsimp only
              rw [heapSub_external]
              by_cases hext : entry.heap = .external
              · rw [if_pos (decide_eq_true (.inl hext)), if_neg (not_not.mpr hext)]
                rfl
              · rw [if_neg (by simp [hext, hheap]), if_pos hext]
                rfl
          | _ => rfl
  | externConvertAny =>
      refine (convert_machineOf .any .external stack).trans ?_
      cases stack with
      | nil => rfl
      | cons actual rest =>
          cases actual with
          | ref entry =>
              rw [constType]
              dsimp only
              cases heapSub s.module entry.heap .any <;> rfl
          | _ => rfl
  | structNew ty =>
      cases hfields : s.structFields ty with
      | error e => exact plain_error (bind_of_error hfields _) (bind_of_error hfields _)
      | ok fields => exact plain_ok (bind_of_ok hfields _) (bind_of_ok hfields _)
  | structNewDefault ty =>
      cases hfields : s.structFields ty with
      | error e => exact plain_error (bind_of_error hfields _) (bind_of_error hfields _)
      | ok fields =>
          by_cases hdefault : (fields.any fun field => !isDefaultable field.ty.val) = true
          · exact plain_error ((bind_of_ok hfields _).trans (if_pos hdefault))
              ((bind_of_ok hfields _).trans (if_pos hdefault))
          · exact plain_ok ((bind_of_ok hfields _).trans (if_neg hdefault))
              ((bind_of_ok hfields _).trans (if_neg hdefault))
  | arrayNew ty =>
      cases hfield : s.arrayField ty with
      | error e => exact plain_error (bind_of_error hfield _) (bind_of_error hfield _)
      | ok field =>
          refine plain_ok (bind_of_ok hfield _) ((bind_of_ok hfield _).trans ?_)
          simp only [List.reverse_cons, List.reverse_nil, List.nil_append, List.cons_append,
            List.foldlM_cons, List.foldlM_nil, popConstSub_num s.module (.inl rfl), bind_pure, bind_assoc]
  | arrayNewDefault ty =>
      cases hfield : s.arrayField ty with
      | error e => exact plain_error (bind_of_error hfield _) (bind_of_error hfield _)
      | ok field =>
          by_cases hdefault : (!isDefaultable field.ty.val) = true
          · exact plain_error ((bind_of_ok hfield _).trans (if_pos hdefault))
              ((bind_of_ok hfield _).trans (if_pos hdefault))
          · refine plain_ok ((bind_of_ok hfield _).trans (if_neg hdefault))
              (((bind_of_ok hfield _).trans (if_neg hdefault)).trans ?_)
            rw [popI32_eq]
  | arrayNewFixed ty n =>
      by_cases hn : maxArrayNewFixed < n
      · exact plain_error (if_pos hn) (if_pos hn)
      · cases hfield : s.arrayField ty with
        | error e =>
            exact plain_error ((if_neg hn).trans (bind_of_error hfield _))
              ((if_neg hn).trans (bind_of_error hfield _))
        | ok field =>
            refine plain_ok ((if_neg hn).trans (bind_of_ok hfield _))
              (((if_neg hn).trans (bind_of_ok hfield _)).trans ?_)
            rw [List.reverse_replicate]
  | _ => cases hconst

end steps

/-! ## What one instruction does to the types -/

/-- The instructions that are typed, with the stack before and after. -/
inductive ConstTyped (s : Spaces) (visible : Nat) : Instr → List ValType → List ValType → Prop where
  | i32Const {v : BitVec 32} {stack : List ValType} :
      ConstTyped s visible (.i32Const v) stack (.i32 :: stack)
  | i64Const {v : BitVec 64} {stack : List ValType} :
      ConstTyped s visible (.i64Const v) stack (.i64 :: stack)
  | f32Const {bits : BitVec 32} {stack : List ValType} :
      ConstTyped s visible (.f32Const bits) stack (.f32 :: stack)
  | f64Const {bits : BitVec 64} {stack : List ValType} :
      ConstTyped s visible (.f64Const bits) stack (.f64 :: stack)
  | v128Const {bits : BitVec 128} {stack : List ValType} :
      ConstTyped s visible (.v128Const bits) stack (.v128 :: stack)
  | refNull {heap : HeapType} {stack : List ValType} (hheap : heap.Over s.module) :
      ConstTyped s visible (.refNull heap) stack (.ref ⟨true, heap⟩ :: stack)
  | refFunc {index ty : Nat} {stack : List ValType} (hindex : index < s.funcs.length)
      (hty : s.funcTypes[index]? = some ty) :
      ConstTyped s visible (.refFunc index) stack (typedRef ty :: stack)
  | globalGet {index : Nat} {global : GlobalType} {stack : List ValType} (hindex : index < visible)
      (hglobal : s.globals[index]? = some global) :
      ConstTyped s visible (.globalGet index) stack (global.value :: stack)
  | num {op : NumOp} {stack : List ValType} (hop : extendedConstOp op = true) :
      ConstTyped s visible (.num op) (numOperand op :: numOperand op :: stack) (numOperand op :: stack)
  | refI31 {stack : List ValType} :
      ConstTyped s visible .refI31 (.i32 :: stack) (.ref ⟨false, .i31⟩ :: stack)
  | anyConvertExtern {nullable : Bool} {stack : List ValType} :
      ConstTyped s visible .anyConvertExtern (.ref ⟨nullable, .external⟩ :: stack)
        (.ref ⟨nullable, .any⟩ :: stack)
  | externConvertAny {r : RefType} {stack : List ValType}
      (hsub : heapSub s.module r.heap .any = true) :
      ConstTyped s visible .externConvertAny (.ref r :: stack) (.ref ⟨r.nullable, .external⟩ :: stack)
  | structNew {ty : Nat} {fields : List FieldType} {stack rest : List ValType}
      (hfields : s.structFields ty = .ok fields)
      (hpop : (fields.map fun field => field.ty.val).reverse.foldlM (popConstSub s.module) stack =
        .ok rest) :
      ConstTyped s visible (.structNew ty) stack (typedRef ty :: rest)
  | structNewDefault {ty : Nat} {fields : List FieldType} {stack : List ValType}
      (hfields : s.structFields ty = .ok fields)
      (hdefault : ∀ field ∈ fields, isDefaultable field.ty.val = true) :
      ConstTyped s visible (.structNewDefault ty) stack (typedRef ty :: stack)
  | arrayNew {ty : Nat} {field : FieldType} {stack rest : List ValType}
      (hfield : s.arrayField ty = .ok field)
      (hpop : popConstSub s.module stack field.ty.val = .ok rest) :
      ConstTyped s visible (.arrayNew ty) (.i32 :: stack) (typedRef ty :: rest)
  | arrayNewDefault {ty : Nat} {field : FieldType} {stack : List ValType}
      (hfield : s.arrayField ty = .ok field) (hdefault : isDefaultable field.ty.val = true) :
      ConstTyped s visible (.arrayNewDefault ty) (.i32 :: stack) (typedRef ty :: stack)
  | arrayNewFixed {ty n : Nat} {field : FieldType} {stack rest : List ValType}
      (hfield : s.arrayField ty = .ok field)
      (hpop : (List.replicate n field.ty.val).foldlM (popConstSub s.module) stack = .ok rest) :
      ConstTyped s visible (.arrayNewFixed ty n) stack (typedRef ty :: rest)

section typed

variable {s : Spaces} {visible : Nat}

theorem heapChecked_eq_ok {heap heap' : HeapType} (h : s.heapChecked heap = .ok heap') :
    heap' = heap ∧ heap.Over s.module := by
  cases heap with
  | type index =>
      rw [Spaces.heapChecked] at h
      split at h
      · rename_i hindex
        cases h
        refine ⟨rfl, fun x hx => ?_⟩
        rw [List.mem_singleton.mp hx]
        exact hindex
      · cases h
  | _ =>
      cases h
      exact ⟨rfl, nofun⟩

theorem popConst_eq_ok {ty : ValType} {stack rest : List ValType} (h : popConst ty stack = .ok rest) :
    stack = ty :: rest := by
  cases stack with
  | nil => cases h
  | cons actual stack =>
      rw [popConst] at h
      split at h
      · rename_i heq
        cases h
        rw [heq]
      · cases h

theorem guard_eq_ok {ε α : Type} {c : Prop} [Decidable c] {e : ε} {x : Except ε α} {a : α}
    (h : (if c then .error e else x) = .ok a) : ¬ c ∧ x = .ok a := by
  split at h
  · cases h
  · rename_i hc
    exact ⟨hc, h⟩

theorem constTyped_of_constType {stack stack' : List ValType}
    (h : constType s visible stack instr = .ok stack') : ConstTyped s visible instr stack stack' := by
  cases instr with
  | i32Const _ =>
      cases h
      exact .i32Const
  | i64Const _ =>
      cases h
      exact .i64Const
  | f32Const _ =>
      cases h
      exact .f32Const
  | f64Const _ =>
      cases h
      exact .f64Const
  | v128Const _ =>
      cases h
      exact .v128Const
  | refNull heap =>
      obtain ⟨heap', hheap, h⟩ := bind_eq_ok.mp h
      cases h
      obtain ⟨rfl, hover⟩ := heapChecked_eq_ok hheap
      exact .refNull hover
  | refFunc index =>
      obtain ⟨hindex, h⟩ := guard_eq_ok h
      obtain ⟨ty, hty, h⟩ := bind_eq_ok.mp h
      cases h
      exact .refFunc (Nat.lt_of_not_le hindex) (lookup_eq_ok hty)
  | globalGet index =>
      obtain ⟨hindex, h⟩ := guard_eq_ok h
      obtain ⟨global, hglobal, h⟩ := bind_eq_ok.mp h
      obtain ⟨-, h⟩ := guard_eq_ok h
      cases h
      exact .globalGet (Nat.lt_of_not_le hindex) (lookup_eq_ok hglobal)
  | num op =>
      obtain ⟨hop, h⟩ := guard_eq_ok h
      obtain ⟨rest, hfirst, h⟩ := bind_eq_ok.mp h
      obtain ⟨rest', hsecond, h⟩ := bind_eq_ok.mp h
      cases h
      rw [popConst_eq_ok hfirst, popConst_eq_ok hsecond]
      exact .num (by simpa using hop)
  | refI31 =>
      obtain ⟨rest, hpop, h⟩ := bind_eq_ok.mp h
      cases h
      rw [popConst_eq_ok hpop]
      exact .refI31
  | anyConvertExtern =>
      cases stack with
      | nil => cases h
      | cons actual rest =>
          cases actual with
          | ref entry =>
              obtain ⟨hheap, h⟩ := guard_eq_ok h
              cases h
              obtain ⟨nullable, heap⟩ := entry
              obtain rfl : heap = .external := not_not.mp hheap
              exact .anyConvertExtern
          | _ => cases h
  | externConvertAny =>
      cases stack with
      | nil => cases h
      | cons actual rest =>
          cases actual with
          | ref entry =>
              obtain ⟨hheap, h⟩ := guard_eq_ok h
              cases h
              exact .externConvertAny (by simpa using hheap)
          | _ => cases h
  | structNew ty =>
      obtain ⟨fields, hfields, h⟩ := bind_eq_ok.mp h
      obtain ⟨rest, hpop, h⟩ := bind_eq_ok.mp h
      cases h
      exact .structNew hfields hpop
  | structNewDefault ty =>
      obtain ⟨fields, hfields, h⟩ := bind_eq_ok.mp h
      obtain ⟨hdefault, h⟩ := guard_eq_ok h
      cases h
      refine .structNewDefault hfields fun field hfield => ?_
      by_contra hnot
      exact hdefault (List.any_eq_true.mpr ⟨field, hfield, by simpa using hnot⟩)
  | arrayNew ty =>
      obtain ⟨field, hfield, h⟩ := bind_eq_ok.mp h
      obtain ⟨rest, hlen, h⟩ := bind_eq_ok.mp h
      obtain ⟨rest', hpop, h⟩ := bind_eq_ok.mp h
      cases h
      rw [popConst_eq_ok hlen]
      exact .arrayNew hfield hpop
  | arrayNewDefault ty =>
      obtain ⟨field, hfield, h⟩ := bind_eq_ok.mp h
      obtain ⟨hdefault, h⟩ := guard_eq_ok h
      obtain ⟨rest, hlen, h⟩ := bind_eq_ok.mp h
      cases h
      rw [popConst_eq_ok hlen]
      exact .arrayNewDefault hfield (by simpa using hdefault)
  | arrayNewFixed ty n =>
      obtain ⟨-, h⟩ := guard_eq_ok h
      obtain ⟨field, hfield, h⟩ := bind_eq_ok.mp h
      obtain ⟨rest, hpop, h⟩ := bind_eq_ok.mp h
      cases h
      exact .arrayNewFixed hfield hpop
  | _ => cases h

/-- What leaves a reference to nothing external on top. -/
theorem ConstTyped.bare {stack rest : List ValType} {nullable : Bool}
    (h : ConstTyped s visible instr stack (.ref ⟨nullable, .noExternal⟩ :: rest)) : Bare s instr := by
  generalize hstack : ValType.ref ⟨nullable, .noExternal⟩ :: rest = stack' at h
  cases h with
  | refNull hheap =>
      obtain ⟨htop, -⟩ := List.cons.inj hstack
      cases htop
      exact .inl rfl
  | @globalGet index global _ _ hglobal =>
      obtain ⟨htop, -⟩ := List.cons.inj hstack
      exact .inr ⟨index, global, nullable, rfl, hglobal, htop.symm⟩
  | @num op =>
      obtain ⟨htop, -⟩ := List.cons.inj hstack
      rcases numOperand_cases op with hop | hop <;> rw [hop] at htop <;> cases htop
  | _ => cases (List.cons.inj hstack).1

theorem ConstTyped.leaves_bare {stack stack' : List ValType} (hbare : Bare s instr)
    (h : ConstTyped s visible instr stack stack') :
    ∃ nullable rest, stack' = .ref ⟨nullable, .noExternal⟩ :: rest := by
  rcases hbare with rfl | ⟨index, global, nullable, rfl, hglobal, hvalue⟩
  · cases h
    exact ⟨true, stack, rfl⟩
  · cases h with
    | globalGet _ hglobal' =>
        rw [hglobal] at hglobal'
        cases hglobal'
        exact ⟨nullable, stack, by rw [hvalue]⟩

end typed

/-! ## A whole sequence -/

section sequence

variable {s : Spaces} {visible : Nat} {expected : ValType}

theorem NoBareConvert.tail {before expr : List Instr} (h : NoBareConvert s (before ++ expr)) :
    NoBareConvert s expr := by
  intro before' instr after heq
  refine h (before ++ before') instr after ?_
  rw [heq, List.append_assoc]

theorem run_machineOf {previous : Option Instr} {stack : List ValType} {expr : List Instr}
    (htop : ∀ nullable rest, stack = .ref ⟨nullable, .noExternal⟩ :: rest →
      ∃ instr, previous = some instr ∧ Bare s instr)
    (hconst : ∀ instr ∈ expr, Constant s instr)
    (hbare : NoBareConvert s (previous.toList ++ expr)) :
    (expr.foldlM (fun (m : Machine) instr => m.step (s.restricted visible) ⟨[], [expected]⟩ [] instr)
      (machineOf expected stack)).toOption =
      (expr.foldlM (constType s visible) stack).toOption.map (machineOf expected) := by
  induction expr generalizing previous stack with
  | nil => rfl
  | cons instr expr ih =>
      obtain ⟨hfirst, hrest⟩ := List.forall_mem_cons.mp hconst
      rw [List.foldlM_cons, List.foldlM_cons, toOption_bind, toOption_bind, step_machineOf hfirst]
      · cases hstep : constType s visible stack instr with
        | error e => rfl
        | ok stack' =>
            have hnext : ∀ nullable rest, stack' = .ref ⟨nullable, .noExternal⟩ :: rest →
                ∃ instr', some instr = some instr' ∧ Bare s instr' := by
              rintro nullable rest rfl
              exact ⟨instr, rfl, (constTyped_of_constType hstep).bare⟩
            exact ih hnext hrest hbare.tail
      · -- A bare reference on top was left by the instruction before.
        rintro rfl ⟨nullable, heap⟩ rest rfl hheap
        dsimp only at hheap
        subst hheap
        obtain ⟨instr, rfl, hinstr⟩ := htop nullable rest rfl
        exact hbare [] instr expr rfl hinstr

theorem popFrame_machineOf (stack : List ValType) :
    ((machineOf expected stack).popFrame (s.restricted visible)).toOption =
      (match stack with
        | [ty] => if valSub s.module expected ty then
            some (⟨.func, [], [expected], 0, false, []⟩, ⟨[], [], []⟩) else none
        | _ => none) := by
  have hframes : (machineOf expected stack).frames = [⟨.func, [], [expected], 0, false, []⟩] := rfl
  simp only [Machine.popFrame, hframes]
  rw [popVals_machineOf, module_restricted]
  cases stack with
  | nil => rfl
  | cons ty stack =>
      rw [List.reverse_singleton, List.foldlM_cons, popConstSub]
      cases stack with
      | nil =>
          dsimp only
          cases valSub s.module expected ty <;> rfl
      | cons _ _ => cases valSub s.module expected ty <;> rfl

theorem validateAsBody_eq {expr : List Instr} (hconst : ∀ instr ∈ expr, Constant s instr)
    (hbare : NoBareConvert s expr) :
    (validateAsBody s visible expr expected).toOption =
      (validateConstExpr s visible expr expected).toOption := by
  have hrun : (expr.foldlM (fun (m : Machine) instr =>
        m.step (s.restricted visible) ⟨[], [expected]⟩ [] instr) (machineOf expected [])).toOption =
      (expr.foldlM (constType s visible) []).toOption.map (machineOf expected) :=
    @run_machineOf s visible expected none [] expr nofun hconst hbare
  rw [validateAsBody, Machine.validateBody, entry_eq, validateConstExpr, constExprType, toOption_bind,
    toOption_bind, toOption_bind, hrun]
  cases expr.foldlM (constType s visible) [] with
  | error e => rfl
  | ok stack =>
      change ((machineOf expected stack).popFrame (s.restricted visible) >>= fun p =>
        if p.1.ctrl ≠ .func ∨ p.2.frames ≠ [] ∨ p.2.vals ≠ [] then throw typeMismatch
        else pure ()).toOption = _
      rw [toOption_bind, popFrame_machineOf]
      match stack with
      | [] => rfl
      | [ty] =>
          change _ = ((if !valSub s.module expected ty then throw typeMismatch else pure () :
            Except Error Unit)).toOption
          dsimp only
          cases valSub s.module expected ty <;> rfl
      | _ :: _ :: _ => rfl

/-- A bare reference that is converted is never typed. -/
theorem noBareConvert_of_validated {expr : List Instr}
    (h : validateConstExpr s visible expr expected = .ok ()) : NoBareConvert s expr := by
  rintro before instr after rfl hbare
  obtain ⟨actual, h, -⟩ := bind_eq_ok.mp h
  obtain ⟨last, hrun, -⟩ := bind_eq_ok.mp h
  rw [List.foldlM_append] at hrun
  obtain ⟨stack, -, hrun⟩ := bind_eq_ok.mp hrun
  rw [List.foldlM_cons] at hrun
  obtain ⟨stack', hstep, hrun⟩ := bind_eq_ok.mp hrun
  rw [List.foldlM_cons] at hrun
  obtain ⟨stack'', hconvert, -⟩ := bind_eq_ok.mp hrun
  obtain ⟨nullable, rest, rfl⟩ := (constTyped_of_constType hstep).leaves_bare hbare
  cases constTyped_of_constType hconvert

theorem agrees_iff {expr : List Instr} (hconst : ∀ instr ∈ expr, Constant s instr) :
    (validateConstExpr s visible expr expected = .ok () ↔
        validateAsBody s visible expr expected = .ok ()) ↔
      NoBareConvert s expr ∨ validateAsBody s visible expr expected ≠ .ok () := by
  constructor
  · intro hiff
    by_cases hbody : validateAsBody s visible expr expected = .ok ()
    · exact .inl (noBareConvert_of_validated (hiff.mpr hbody))
    · exact .inr hbody
  · rintro (hbare | hbody)
    · rw [← toOption_eq_some, ← toOption_eq_some, validateAsBody_eq hconst hbare]
    · refine ⟨fun h => ?_, fun h => absurd h hbody⟩
      rw [← toOption_eq_some, validateAsBody_eq hconst (noBareConvert_of_validated h), h]
      rfl

end sequence

end Slag.Wasm
