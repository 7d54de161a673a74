import Slag.Regexp.Trail

/-!
What the engine hands to the tasks below each kind of node, without the
simple-atom path. Repeats are left to the next module.
-/

namespace Slag.Regexp

open Slag.Backtrack

namespace Matcher

open Ctx

variable {m : Matcher} {bad : Cfg → Bool} {dir : Direction} {x : MatchState} {s : Store}
  {T : List Task} {C : List Choice}

/-- The engine emits the outcomes of a node, whatever lies below it. -/
def NodeEmits (m : Matcher) (bad : Cfg → Bool) (node : Node) : Prop :=
  ∀ (addr : List Nat) (dir : Direction) (x : MatchState) (T : List Task) (C : List Choice)
    (s : Store), s.Stands dir x →
    Emits m.machine (reading dir bad) T C s (.running ⟨.node ⟨addr, node⟩ :: T, C, s⟩)
      (m.ctx.outcomes node dir x)

/-- A choice recorded at `s` and popped after `s` was extended. -/
theorem backtrack_restorable {t : Store} (h : s.Restorable t) (resume : Task) (T' : List Task)
    (d : Cfg) (hd : d.store = t) :
    backtrack ⟨s.pos, s.caps.mark, T', some resume⟩ d =
      ⟨resume :: T', d.choices, { s with memo := t.memo }⟩ := by
  subst hd
  simp only [backtrack, Option.toList_some, List.singleton_append, h.rollback, ← h.2]

/-- Failing back to a choice recorded at `s`. -/
theorem emits_pop {base : Store} {resume : Task} {T' : List Task} {C' : List Choice} {d : Cfg}
    {results : List MatchState}
    (hd : d.choices = ⟨s.pos, s.caps.mark, T', some resume⟩ :: C') (he : s.Restorable d.store)
    (h : ∀ memo, Emits m.machine (reading dir bad) T C base
      (.running ⟨resume :: T', C', { s with memo := memo }⟩) results) :
    Emits m.machine (reading dir bad) T C base (.failing d) results := by
  refine .pop hd ?_
  have hb : m.machine.restore ⟨s.pos, s.caps.mark, T', some resume⟩ { d with choices := C' } =
      ⟨resume :: T', C', { s with memo := d.store.memo }⟩ :=
    backtrack_restorable he resume T' _ rfl
  rw [hb]
  exact h _

theorem stands_memo (h : s.Stands dir x) (memo : List MemoEntry) :
    Store.Stands dir { s with memo := memo } x :=
  h

theorem restorable_memo (s : Store) (memo : List MemoEntry) :
    s.Restorable { s with memo := memo } :=
  ⟨.refl _, rfl⟩

theorem restorable_pos (s : Store) (pos : Nat) : s.Restorable { s with pos := pos } :=
  ⟨.refl _, rfl⟩

variable {task : Task} {node : Node} {nodes : List Node}

/-- A task that moves to an endpoint, or fails. -/
theorem emits_moveTo {stop : Option Nat} (h : s.Stands dir x)
    (hd : m.dispatch task ⟨T, C, s⟩ = moveTo ⟨T, C, s⟩ stop) :
    Emits m.machine (reading dir bad) T C s (.running ⟨task :: T, C, s⟩)
      (stop.toList.map fun pos => { x with endIndex := pos }) := by
  cases stop with
  | none => exact .fail hd (.nil rfl ((reading dir bad).refl s))
  | some pos => exact .succeed hd (.done (restorable_pos s pos) (h.setPos pos))

/-- A task that tests the position. -/
theorem emits_test {b : Bool} (h : s.Stands dir x) (hd : m.dispatch task ⟨T, C, s⟩ = (b, ⟨T, C, s⟩)) :
    Emits m.machine (reading dir bad) T C s (.running ⟨task :: T, C, s⟩)
      (if b then [x] else []) := by
  cases b with
  | false => exact .fail hd (.nil rfl ((reading dir bad).refl s))
  | true => exact .succeed hd (.done ((reading dir bad).refl s) h)

/-- The nodes without children. -/
def Leaf : Node → Prop
  | .sequence _ | .alternate _ | .repeated _ _ _ _ _ | .capture _ _ | .lookahead _ _
  | .lookbehind _ _ => False
  | _ => True

theorem pushChoices (resumes : List Task) :
    resumes.foldl Cfg.pushChoice ⟨T, C, s⟩ =
      ⟨T, (resumes.reverse.map fun resume => ⟨s.pos, s.caps.mark, T, some resume⟩) ++ C, s⟩ := by
  induction resumes generalizing C with
  | nil => rfl
  | cons resume resumes ih =>
      rw [List.foldl_cons, Cfg.pushChoice, ih]
      simp

/-- Choices recorded at one store are resumed in turn. -/
theorem emits_resumes {f : Task → List MatchState} {resumes : List Task}
    (hf : ∀ resume ∈ resumes, ∀ (C : List Choice) (memo : List MemoEntry),
      Emits m.machine (reading dir bad) T C { s with memo := memo }
        (.running ⟨resume :: T, C, { s with memo := memo }⟩) (f resume))
    (d : Cfg) (hd : d.choices =
      (resumes.map fun resume => ⟨s.pos, s.caps.mark, T, some resume⟩) ++ C)
    (he : s.Restorable d.store) :
    Emits m.machine (reading dir bad) T C s (.failing d) (resumes.flatMap f) := by
  have hflat : resumes.flatMap f = (resumes.map fun resume =>
      (⟨s.pos, s.caps.mark, T, some resume⟩ : Choice)).flatMap fun choice =>
        (choice.resume.map f).getD [] := by
    rw [List.flatMap_map]
    rfl
  rw [hflat]
  refine Emits.alternatives ?_ d hd he
  intro choice hc E d' he'
  obtain ⟨resume, hr, rfl⟩ := List.mem_map.mp hc
  have hb : m.machine.restore ⟨s.pos, s.caps.mark, T, some resume⟩ { d' with choices := E ++ C } =
      ⟨resume :: T, E ++ C, { s with memo := d'.store.memo }⟩ :=
    backtrack_restorable he' resume T _ rfl
  rw [hb]
  exact (hf resume hr (E ++ C) d'.store.memo).weaken (restorable_memo s _)

/-- The strings of a class: the first commits, the others are resumed last pushed first. -/
theorem emits_classStrings {len : Nat} {others : List Nat} (h : s.Stands dir x)
    (hd : m.dispatch task ⟨T, C, s⟩ = (true, ((others.map Task.classAdvance).foldl
      Cfg.pushChoice ⟨T, C, s⟩).setPos (Ctx.advance s.pos dir len))) :
    Emits m.machine (reading dir bad) T C s (.running ⟨task :: T, C, s⟩)
      (((len :: others.reverse).map (Ctx.advance x.endIndex dir)).map fun pos =>
        { x with endIndex := pos }) := by
  rw [pushChoices] at hd
  have hlist : (((len :: others.reverse).map (Ctx.advance x.endIndex dir)).map fun pos =>
      ({ x with endIndex := pos } : MatchState)) =
      [{ x with endIndex := Ctx.advance x.endIndex dir len }] ++
        ((others.map Task.classAdvance).reverse.flatMap fun task =>
          match task with
          | .classAdvance len => [{ x with endIndex := Ctx.advance x.endIndex dir len }]
          | _ => []) := by
    rw [← List.map_reverse, List.flatMap_map, ← List.map_eq_flatMap]
    simp
  rw [hlist]
  refine .succeed hd ?_
  refine Emits.append (Emits.done ?_ ?_) ((reading dir bad).refl s) ?_
  · exact restorable_pos s _
  · rw [h.1]
    exact h.setPos _
  · refine emits_resumes ?_
    intro resume hr C memo
    simp only [List.mem_reverse, List.mem_map] at hr
    obtain ⟨len, -, rfl⟩ := hr
    refine .succeed rfl (.done (restorable_pos _ _) ?_)
    rw [← h.1, ← h.2.2]
    exact ⟨rfl, h.2.1, rfl⟩

theorem map_ite_singleton (b : Bool) (captures : List (Option Span)) (pos : Nat) :
    ((if b then [pos] else []).map fun pos => (⟨pos, captures⟩ : MatchState)) =
      if b then [⟨pos, captures⟩] else [] := by
  cases b <;> rfl

theorem nodeEmits_leaf (hl : Leaf node) : NodeEmits m bad node := by
  intro addr dir x T C s h
  obtain ⟨pos, dir', caps, memo⟩ := s
  obtain ⟨_, _⟩ := x
  obtain ⟨rfl, rfl, rfl⟩ := h
  have hs : Store.Stands dir' ⟨pos, dir', caps, memo⟩ ⟨pos, caps.values⟩ := ⟨rfl, rfl, rfl⟩
  cases node with
  | sequence _ | alternate _ | repeated _ _ _ _ _ | capture _ _ | lookahead _ _
  | lookbehind _ _ => cases hl
  | empty => exact emits_test (b := true) hs rfl
  | char cp fold => exact emits_moveTo hs rfl
  | any dotAll => exact emits_moveTo hs rfl
  | backref indices fold => exact emits_moveTo hs rfl
  | start _ | finish _ | wordBoundary _ | notWordBoundary _ =>
      simp only [outcomes, leafEnds, map_ite_singleton]
      exact emits_test hs rfl
  | charClass cls =>
      simp only [outcomes, leafEnds]
      split
      · rename_i len others hc
        refine emits_classStrings hs ?_
        simp only [dispatch, stepNode, hc, List.foldl_map]
      · rename_i hc
        refine emits_moveTo hs ?_
        simp only [dispatch, stepNode, hc]

theorem seqIndex_lt {index : Nat} (h : index < nodes.length) (dir : Direction) :
    seqIndex nodes index dir < nodes.length := by
  cases dir <;> simp only [seqIndex] <;> omega

theorem ordered_drop {index : Nat} (h : index < nodes.length) (dir : Direction) :
    (ordered nodes dir).drop index =
      nodes.getD (seqIndex nodes index dir) .empty :: (ordered nodes dir).drop (index + 1) := by
  rw [List.drop_eq_getElem_cons (by rw [length_ordered]; exact h),
    ← List.getElem_eq_getD (h := seqIndex_lt h dir)]
  cases dir with
  | forward => rfl
  | backward => simp only [ordered, List.getElem_reverse, seqIndex]

theorem emits_seqElem (hn : ∀ node ∈ nodes, NodeEmits m bad node) (addr : List Nat) (index : Nat)
    (h : s.Stands dir x) :
    Emits m.machine (reading dir bad) T C s (.running ⟨.seqElem addr nodes index :: T, C, s⟩)
      (m.ctx.chain dir ((ordered nodes dir).drop index) x) := by
  induction hk : nodes.length - index generalizing index x s T C with
  | zero =>
      have hge : ¬ index < nodes.length := by omega
      rw [List.drop_eq_nil_of_le (by rw [length_ordered]; omega)]
      refine .succeed ?_ (.done ((reading dir bad).refl s) h)
      simp only [machine, dispatch, if_neg hge]
  | succ k ih =>
      have hlt : index < nodes.length := by omega
      have hd : m.machine.dispatch (.seqElem addr nodes index) ⟨T, C, s⟩ =
          (true, ⟨.node ⟨seqIndex nodes index dir :: addr,
            nodes.getD (seqIndex nodes index dir) .empty⟩ ::
              .seqElem addr nodes (index + 1) :: T, C, s⟩) := by
        simp only [machine, dispatch, if_pos hlt, Cfg.pushTask, h.2.2]
      have hmem : nodes.getD (seqIndex nodes index dir) .empty ∈ nodes := by
        rw [← List.getElem_eq_getD (h := seqIndex_lt hlt dir)]
        exact List.getElem_mem _
      rw [ordered_drop hlt, chain]
      refine .succeed hd (.bind (hn _ hmem _ dir x _ C s h) ?_)
      intro s' E y _ _ hy
      exact ih (index + 1) hy (by omega)

theorem nodeEmits_sequence (hn : ∀ node ∈ nodes, NodeEmits m bad node) :
    NodeEmits m bad (.sequence nodes) := by
  intro addr dir x T C s h
  rw [outcomes, outcomesSeq_eq_chain]
  exact .succeed rfl (emits_seqElem hn addr 0 h)

theorem nodeEmits_capture (index : Nat) (hn : NodeEmits m bad node) :
    NodeEmits m bad (.capture index node) := by
  intro addr dir x T C s h
  have hbody := hn (0 :: addr) dir _ (.captureClose index s.pos :: T) C _
    (h.setCapture index (s.pos, s.pos))
  rw [outcomes, List.map_eq_flatMap, ← h.1]
  refine .succeed rfl (.bind (hbody.weaken ⟨Caps.extends_set _ _ _, rfl⟩) ?_)
  intro s' E y _ _ hy
  refine .succeed rfl (.done ⟨Caps.extends_set _ _ _, rfl⟩ ?_)
  rw [← hy.1]
  exact hy.setCapture index _

/-- The alternatives after the first wait as choices, the second on top. -/
theorem nodeEmits_alternate {alts : List (List Node)} (hne : alts ≠ [])
    (hn : ∀ alt ∈ alts, ∀ node ∈ alt, NodeEmits m bad node) :
    NodeEmits m bad (.alternate alts) := by
  intro addr dir x T C s h
  obtain ⟨first, others, rfl⟩ := List.exists_cons_of_ne_nil hne
  have hd : m.machine.dispatch (.node ⟨addr, .alternate (first :: others)⟩) ⟨T, C, s⟩ =
      (true, ⟨.seqElem (0 :: addr) first 0 :: T, ((others.zipIdx 1).map fun alt =>
        ⟨s.pos, s.caps.mark, T, some (.seqElem (alt.2 :: addr) alt.1 0)⟩) ++ C, s⟩) := by
    have hpush := pushChoices (T := T) (C := C) (s := s)
      ((others.zipIdx 1).reverse.map fun alt => .seqElem (alt.2 :: addr) alt.1 0)
    rw [List.foldl_map, ← List.map_reverse, List.reverse_reverse, List.map_map] at hpush
    simp only [machine, dispatch, stepNode, List.zipIdx_cons, List.drop_succ_cons, List.drop_zero,
      hpush, Cfg.pushTask, List.headD_cons]
    rfl
  have hfirst := emits_seqElem (hn first List.mem_cons_self) (0 :: addr) 0 h (T := T)
    (C := ((others.zipIdx 1).map fun alt =>
      (⟨s.pos, s.caps.mark, T, some (.seqElem (alt.2 :: addr) alt.1 0)⟩ : Choice)) ++ C)
  rw [List.drop_zero, ← outcomesSeq_eq_chain] at hfirst
  have hflat : (others.flatMap fun alt => m.ctx.outcomesSeq alt dir x) =
      ((others.zipIdx 1).map fun alt => Task.seqElem (alt.2 :: addr) alt.1 0).flatMap fun task =>
        match task with
        | .seqElem _ nodes _ => m.ctx.outcomesSeq nodes dir x
        | _ => [] := by
    rw [List.flatMap_map]
    conv => lhs; rw [← List.zipIdx_map_fst 1 others, List.flatMap_map]
  rw [outcomes, outcomesAlts, outcomesAlts_eq, hflat]
  refine .succeed hd (hfirst.append ((reading dir bad).refl s) ?_)
  intro d hdc he
  refine emits_resumes ?_ d (by rw [hdc, List.map_map]; rfl) he
  intro resume hr C' memo
  obtain ⟨alt, halt, rfl⟩ := List.mem_map.mp hr
  have hmem : alt.1 ∈ others := by
    rw [← List.zipIdx_map_fst 1 others]
    exact List.mem_map_of_mem halt
  have hthen := emits_seqElem (hn alt.1 (List.mem_cons_of_mem _ hmem)) (alt.2 :: addr) 0
    (stands_memo h memo) (T := T) (C := C')
  rw [List.drop_zero, ← outcomesSeq_eq_chain] at hthen
  exact hthen

theorem truncate_append (E : List Choice) (choice : Choice) (tasks : List Task) :
    Cfg.truncate ⟨tasks, E ++ choice :: C, s⟩ C.length = ⟨tasks, C, s⟩ := by
  have hsplit : E ++ choice :: C = (E ++ [choice]) ++ C := by simp
  have hlen : ((E ++ [choice]) ++ C).length - C.length = (E ++ [choice]).length := by
    rw [List.length_append]
    omega
  simp only [Cfg.truncate, hsplit, hlen, List.drop_left]

/-- A lookaround commits to the first outcome of its body. -/
theorem emits_assert (hn : NodeEmits m bad node) (negate : Bool) (addr : List Nat) (sub : Direction)
    (h : s.Stands dir x) (task : Task)
    (hd : m.dispatch task ⟨T, C, s⟩ = assertStart negate ⟨addr, node⟩ sub ⟨T, C, s⟩) :
    Emits m.machine (reading dir bad) T C s (.running ⟨task :: T, C, s⟩)
      (assertOutcomes negate (m.ctx.outcomes node sub x) x) := by
  have hsub : Store.Stands sub { s with dir := sub } x := ⟨h.1, h.2.1, rfl⟩
  have hbody := hn addr sub x (.assertDone negate s.pos s.dir s.caps.mark C.length :: T)
    (⟨s.pos, s.caps.mark, T, some (.assertFailed negate s.pos s.dir)⟩ :: C) _ hsub
  refine .succeed hd (.commit hbody (fun _ hb => hb) ?_ ?_)
  · intro hnil d hdc he
    have hroll : d.store.caps.rollback s.caps.mark = s.caps := he.1.2
    refine .pop hdc ?_
    simp only [machine, backtrack, hroll, Option.toList_some, List.singleton_append]
    rw [hnil]
    cases negate with
    | false =>
        refine .fail rfl (.nil rfl ?_)
        exact ⟨.refl _, rfl⟩
    | true =>
        refine .succeed rfl (.done ⟨.refl _, rfl⟩ ?_)
        exact ⟨h.1, h.2.1, h.2.2⟩
  · intro first rest hfirst t E he ht
    rw [hfirst]
    have hroll : t.caps.rollback s.caps.mark = s.caps := he.1.2
    cases negate with
    | false =>
        refine .succeed rfl ?_
        simp only [Cfg.setDir, Cfg.setPos, truncate_append]
        refine .done ⟨he.1, rfl⟩ ?_
        exact ⟨h.1, ht.2.1, h.2.2⟩
    | true =>
        refine .fail rfl ?_
        simp only [Cfg.setDir, Cfg.setCaps, truncate_append, hroll]
        exact .nil rfl ⟨.refl _, rfl⟩

theorem nodeEmits_lookahead (negate : Bool) (hn : NodeEmits m bad node) :
    NodeEmits m bad (.lookahead negate node) := by
  intro addr dir x T C s h
  exact emits_assert hn negate (0 :: addr) .forward h _ rfl

theorem nodeEmits_lookbehind (negate : Bool) (hn : NodeEmits m bad node) :
    NodeEmits m bad (.lookbehind negate node) := by
  intro addr dir x T C s h
  exact emits_assert hn negate (0 :: addr) .backward h _ rfl

end Matcher

end Slag.Regexp
