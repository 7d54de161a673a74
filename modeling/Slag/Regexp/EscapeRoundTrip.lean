import Slag.Regexp.Backreference
import Slag.Regexp.Escape

/-!
The pattern that `RegExp.escape` makes of a text, compiled and run: it matches at
the start of the inputs that begin with the text.
-/

namespace Slag.Regexp

open Slag.Backtrack Slag.Utf16

/-- The sequence of some characters. -/
def textNode (cs : List Nat) : Node :=
  .sequence (cs.map fun c => .char c false)

variable {cs : List Nat}

section

open Escape

variable {env : Surroundings} {s : List UInt16} {flags : Flags}

theorem atomsOf_decode (unicode : Bool) (s : List UInt16) :
    atomsOf unicode (decode s) = if unicode then decode s else s.map UInt16.toNat := by
  cases unicode with
  | true => rfl
  | false => exact congrArg (List.map UInt16.toNat) (encode_decode s)

theorem length_atomsOf_le (unicode : Bool) {first : Bool} (hlt : ∀ c ∈ cs, c < 0x110000) :
    (atomsOf unicode cs).length ≤ 2 * (atomsOf unicode (escapeFrom first cs)).length := by
  induction cs generalizing first with
  | nil => cases unicode <;> exact Nat.zero_le _
  | cons c cs ih =>
      have hc := hlt c List.mem_cons_self
      have hrest : (atomsOf unicode cs).length ≤ 2 * (atomsOf unicode (escapeFrom false cs)).length :=
        ih fun d hd => hlt d (List.mem_cons_of_mem c hd)
      have hone : (atomsOf unicode [c]).length ≤ 2 := by
        cases unicode with
        | true => exact Nat.le_succ 1
        | false =>
            change (([c].flatMap encodeChar).map UInt16.toNat).length ≤ 2
            rw [List.flatMap_singleton, List.length_map, encodeChar]
            split
            · exact Nat.le_succ 1
            · exact Nat.le_refl 2
      have hsome : 0 < (atomsOf unicode (escapeChar first c)).length := by
        have hne : atomsOf unicode (escapeChar first c) ++ [] ≠ [] :=
          (escaped_escapeChar first hc).nonempty hc
        rw [List.append_nil] at hne
        exact List.length_pos_iff.mpr hne
      rw [escapeFrom, ← List.singleton_append, atomsOf_append, atomsOf_append, List.length_append,
        List.length_append]
      omega

/-- A pattern whose alternative is all of it. -/
theorem parseDisjunction_one {p q : Parser} {nodes : List Node} {fuel : Nat}
    (h : parseAlternative env fuel { p with altNames := [] :: p.altNames } = .ok (nodes, q))
    (hend : q.rest = []) :
    ∃ r, parseDisjunction env (fuel + 2) p = .ok (.sequence nodes, r) ∧ r.rest = [] ∧
      r.capturingGroups = q.capturingGroups := by
  have hbar : ¬ { q with altNames := q.altNames.tail }.peek = some 0x7C := by
    simp only [Parser.peek, hend]
    exact (absurd · (Option.some_ne_none _).symm)
  have halternatives : parseAlternatives env (fuel + 1) p =
      .ok ([nodes], q.altNames.headD [], { q with altNames := q.altNames.tail }) := by
    rw [parseAlternatives, h, ok_bind]
    exact if_neg hbar
  rw [parseDisjunction, halternatives, ok_bind]
  refine ⟨_, rfl, ?_, ?_⟩
  · dsimp only
    split <;> exact hend
  · dsimp only
    split <;> rfl

theorem parseDisjunction_error {p : Parser} {fuel : Nat} {failure : Failure}
    (h : parseAlternative env fuel { p with altNames := [] :: p.altNames } = .error failure) :
    parseDisjunction env (fuel + 2) p = .error failure := by
  rw [parseDisjunction, parseAlternatives, h]
  rfl

theorem coalesceSeq_text (cs : List Nat) :
    Node.coalesceSeq (cs.map fun c => .char c false) = cs.map fun c => .char c false := by
  induction cs with
  | nil => rfl
  | cons c cs ih =>
      rw [List.map_cons, Node.coalesceSeq, ih]
      rfl

theorem mergeRun_text (cs : List Nat) :
    Node.mergeRun (cs.map fun c => .char c false) = cs.map fun c => .char c false := by
  cases cs with
  | nil => rfl
  | cons c cs =>
      rw [List.map_cons, Node.mergeRun]
      induction cs generalizing c with
      | nil => rfl
      | cons d cs ih =>
          rw [List.map_cons, Node.mergeInto]
          exact congrArg (List.cons (.char c false)) (ih d)

theorem coalesce_text (cs : List Nat) : (textNode cs).coalesceRepeats = textNode cs := by
  rw [textNode, Node.coalesceRepeats, coalesceSeq_text, mergeRun_text]

/-- What an escaped text compiles to. -/
theorem compilePattern_escape (env : Surroundings) (s : List UInt16) (hcase : flags.i = false) :
    compilePattern env (encode (escape s)) flags =
      if flags.hasUnicode = true ∧ (decode s).any isLead = true then
        .error (.rejected "Invalid unicode escape")
      else
        .ok (Regex.compile env.tables flags.hasUnicode
          (textNode (if flags.hasUnicode then decode s else s.map UInt16.toNat)) 0) := by
  have hlt : ∀ c ∈ decode s, c < 0x110000 := fun _ hc => decode_lt hc
  have hlone : (decode s).IsChain fun c d => isLead c = true → ¬ (0xDC00 ≤ d ∧ d ≤ 0xDFFF) := by
    refine (decode_chain s).imp fun c d h hlead => h ?_
    simpa only [isLead, Bool.and_eq_true, decide_eq_true_eq] using hlead
  have hlength : (atomsOf flags.hasUnicode (decode s)).length ≤
      2 * (atomsOf flags.hasUnicode (escape s)).length := length_atomsOf_le flags.hasUnicode hlt
  let p := Parser.init (atomsOf flags.hasUnicode (escape s)) flags
  have hparse : parseAlternative env (8 * (atomsOf flags.hasUnicode (escape s)).length + 6)
        { p with altNames := [] :: p.altNames } =
      if flags.hasUnicode = true ∧ (decode s).any isLead = true then
        .error (.rejected "Invalid unicode escape")
      else .ok ((atomsOf flags.hasUnicode (decode s)).map fun c => .char c false,
        { p with altNames := [] :: p.altNames, rest := [] }) := by
    apply parseAlternative_escape (p := { p with altNames := [] :: p.altNames }) hlt hlone hcase rfl
    change (atomsOf flags.hasUnicode (decode s)).length + 3 ≤ _
    omega
  rw [← atomsOf_decode, compilePattern, parseAndValidate, patternAtoms_escape]
  by_cases hbad : flags.hasUnicode = true ∧ (decode s).any isLead = true
  · rw [if_pos hbad] at hparse ⊢
    rw [parseDisjunction_error hparse]
    rfl
  · rw [if_neg hbad] at hparse ⊢
    obtain ⟨r, hr, hend, hgroups⟩ := parseDisjunction_one hparse rfl
    rw [hr, ok_bind]
    dsimp only
    rw [if_neg fun h => h hend, ok_bind, hgroups]
    exact congrArg (fun node => Except.ok (Regex.compile env.tables flags.hasUnicode node 0))
      (coalesce_text _)

end

namespace Ctx

variable {ctx : Ctx} {pos c len : Nat}

theorem unit_eq_some {u : Nat} (h : ctx.unit pos = some u) :
    ∃ x : UInt16, x.toNat = u ∧ ctx.input.drop pos = x :: ctx.input.drop (pos + 1) := by
  obtain ⟨x, hx, rfl⟩ := Option.map_eq_some_iff.mp h
  obtain ⟨hlt, rfl⟩ := List.getElem?_eq_some_iff.mp hx
  exact ⟨_, rfl, List.drop_eq_getElem_cons hlt⟩

theorem drop_of_unit_none (h : ctx.unit pos = none) : ctx.input.drop pos = [] :=
  List.drop_eq_nil_of_le (List.getElem?_eq_none_iff.mp (Option.map_eq_none_iff.mp h))

theorem decode_codePointAt (h : ctx.codePointAt pos = some (c, len)) :
    decode (ctx.input.drop pos) = c :: decode (ctx.input.drop (pos + len)) := by
  unfold codePointAt at h
  cases hhi : ctx.unit pos with
  | none =>
      rw [hhi] at h
      cases h
  | some hi =>
      obtain ⟨x, rfl, hx⟩ := unit_eq_some hhi
      have halone : splits [x] (ctx.input.drop (pos + 1)) = false → c = x.toNat → len = 1 →
          decode (ctx.input.drop pos) = c :: decode (ctx.input.drop (pos + len)) := by
        intro hsplits hc hlen
        rw [hx, decode_unit hsplits, hc, hlen]
      simp only [hhi] at h
      split at h
      · rename_i hhigh
        cases hlo : ctx.unit (pos + 1) with
        | none =>
            simp only [hlo, Option.some.injEq, Prod.mk.injEq] at h
            refine halone ?_ h.1.symm h.2.symm
            rw [drop_of_unit_none hlo]
            exact Bool.and_false _
        | some lo =>
            obtain ⟨y, rfl, hy⟩ := unit_eq_some hlo
            simp only [hlo] at h
            split at h
            · rename_i hlow
              simp only [Option.some.injEq, Prod.mk.injEq] at h
              rw [hx, hy, decode_pair (isHigh_iff.mpr hhigh) (isLow_iff.mpr hlow), ← h.1, ← h.2]
              rfl
            · rename_i hlow
              simp only [Option.some.injEq, Prod.mk.injEq] at h
              refine halone ?_ h.1.symm h.2.symm
              have hnot : isLow y = false := Bool.eq_false_of_not_eq_true (mt isLow_iff.mp hlow)
              simp only [hy, splits, List.head?_cons, Option.any_some, hnot, Bool.and_false]
      · rename_i hhigh
        simp only [Option.some.injEq, Prod.mk.injEq] at h
        refine halone ?_ h.1.symm h.2.symm
        have hnot : isHigh x = false := Bool.eq_false_of_not_eq_true (mt isHigh_iff.mp hhigh)
        simp only [splits, List.getLast?_singleton, Option.any_some, hnot, Bool.false_and]

/-- The character read is the first of those from the position on. -/
theorem chars_readChar (h : ctx.readChar pos = some (c, len)) :
    ctx.chars (ctx.input.drop pos) = c :: ctx.chars (ctx.input.drop (pos + len)) := by
  unfold readChar at h
  unfold chars
  split at h
  · rename_i hunicode
    rw [if_pos hunicode, if_pos hunicode]
    exact decode_codePointAt h
  · rename_i hlegacy
    rw [if_neg hlegacy, if_neg hlegacy]
    obtain ⟨u, hu, heq⟩ := Option.map_eq_some_iff.mp h
    cases heq
    obtain ⟨x, rfl, hx⟩ := unit_eq_some hu
    rw [hx, List.map_cons]

theorem chars_readChar_none (h : ctx.readChar pos = none) :
    ctx.chars (ctx.input.drop pos) = [] := by
  have hunit : ctx.unit pos = none := by
    cases hu : ctx.unit pos with
    | none => rfl
    | some u =>
        unfold readChar codePointAt at h
        simp only [hu, Option.map_some] at h
        repeat' split at h
        all_goals cases h
  rw [drop_of_unit_none hunit, chars]
  split <;> rfl

/-- The characters of a text take its units. -/
theorem stringUnits_chars (s : List UInt16) : ctx.stringUnits (ctx.chars s) = s.length := by
  unfold stringUnits chars
  split
  · have hunits : (fun c => if c > 0xFFFF then 2 else 1) = fun c => (encodeChar c).length := by
      funext c
      rw [encodeChar]
      split <;> split <;> first | rfl | omega
    rw [hunits, ← List.length_flatMap]
    exact congrArg List.length (encode_decode s)
  · exact List.length_map _

end Ctx

namespace Matcher

variable {m : Matcher}

/-- An attempt at some position answers whether the input goes on with these characters. -/
def FindsText (m : Matcher) (cs : List Nat) (pos : Nat) :
    Backtracker.Answer Task Choice Store → Prop
  | .matched c => cs <+: m.ctx.chars (m.ctx.input.drop pos) ∧
      c.store.pos = pos + m.ctx.stringUnits cs
  | .failed _ => ¬ cs <+: m.ctx.chars (m.ctx.input.drop pos)
  | .exhausted _ => False

variable {s : Store} {T : List Task}

theorem run_succeed {task : Task} {next : Cfg} (hd : m.machine.dispatch task ⟨T, [], s⟩ = (true, next))
    (budget : Nat) :
    m.machine.run choiceLimit (budget + 1) ⟨task :: T, [], s⟩ =
      m.machine.run choiceLimit budget next := by
  rw [Backtracker.run]
  simp only [List.length_nil, Nat.not_lt_zero, if_false, hd]

theorem run_fail {task : Task} {next : Cfg} (hd : m.machine.dispatch task ⟨T, [], s⟩ = (false, next))
    (hnext : next.choices = []) (budget : Nat) :
    m.machine.run choiceLimit (budget + 1) ⟨task :: T, [], s⟩ = .failed next := by
  rw [Backtracker.run]
  simp only [List.length_nil, Nat.not_lt_zero, if_false, hd, Backtracker.resume, hnext]

theorem dispatch_char (addr : List Nat) (c : Nat) (hdir : s.dir = .forward) :
    m.machine.dispatch (.node ⟨addr, .char c false⟩) ⟨T, [], s⟩ =
      match m.ctx.readChar s.pos with
      | some (d, len) =>
          if d = c then (true, ⟨T, [], { s with pos := s.pos + len }⟩) else (false, ⟨T, [], s⟩)
      | none => (false, ⟨T, [], s⟩) := by
  obtain ⟨pos, dir, caps, memo⟩ := s
  cases hdir
  change moveTo _ (m.ctx.charEnd pos .forward (m.ctx.charTest c false)) = _
  rw [Ctx.charEnd, Ctx.readCharDir]
  cases m.ctx.readChar pos with
  | none => rfl
  | some found =>
      simp only [Ctx.charTest, Bool.false_eq_true, if_false, beq_iff_eq]
      split <;> rfl

theorem findsText_run {nodes : List Node} {i : Nat} {budget : Nat}
    (hnodes : nodes.drop i = cs.map fun c => .char c false) (hdir : s.dir = .forward)
    (hbudget : 2 * (m.ctx.input.length - s.pos) + 3 ≤ budget) :
    m.FindsText cs s.pos (m.machine.run choiceLimit budget ⟨[.seqElem [] nodes i], [], s⟩) := by
  induction cs generalizing i s budget with
  | nil =>
      obtain ⟨more, rfl⟩ := Nat.exists_eq_add_of_le' (Nat.le_trans (Nat.le_add_left 3 _) hbudget)
      have hend : ¬ i < nodes.length := Nat.not_lt.mpr (List.drop_eq_nil_iff.mp hnodes)
      have hd : m.machine.dispatch (.seqElem [] nodes i) ⟨[], [], s⟩ = (true, ⟨[], [], s⟩) :=
        if_neg hend
      rw [run_succeed hd]
      exact ⟨List.nil_prefix, by cases hu : m.ctx.unicode <;> simp [Ctx.stringUnits, hu]⟩
  | cons c cs ih =>
      obtain ⟨more, rfl⟩ := Nat.exists_eq_add_of_le' (Nat.le_trans (Nat.le_add_left 3 _) hbudget)
      have hlt : i < nodes.length := by
        refine Nat.lt_of_not_le fun hle => ?_
        rw [List.drop_eq_nil_of_le hle] at hnodes
        cases hnodes
      rw [List.drop_eq_getElem_cons hlt, List.map_cons, List.cons.injEq] at hnodes
      have hd : m.machine.dispatch (.seqElem [] nodes i) ⟨[], [], s⟩ =
          (true, ⟨[.node ⟨[i], .char c false⟩, .seqElem [] nodes (i + 1)], [], s⟩) := by
        change (if i < nodes.length then _ else _) = _
        rw [if_pos hlt, hdir]
        simp only [seqIndex, Cfg.pushTask, List.getD_eq_getElem?_getD,
          List.getElem?_eq_getElem hlt, Option.getD_some, hnodes.1]
      rw [run_succeed hd]
      have hchar := dispatch_char (m := m) [i] c (T := [.seqElem [] nodes (i + 1)]) hdir
      cases hread : m.ctx.readChar s.pos with
      | none =>
          simp only [hread] at hchar
          rw [run_fail hchar rfl]
          change ¬ _
          rw [Ctx.chars_readChar_none hread]
          exact fun h => List.cons_ne_nil _ _ (List.prefix_nil.mp h)
      | some found =>
          obtain ⟨d, len⟩ := found
          have hinside := Ctx.readChar_inside hread
          have hmoves := (Ctx.readChar_bounds hread).2
          simp only [hread] at hchar
          by_cases hd : d = c
          · subst hd
            rw [if_pos rfl] at hchar
            rw [run_succeed hchar]
            have hrest : m.FindsText cs (s.pos + len) (m.machine.run choiceLimit (more + 1)
                ⟨[.seqElem [] nodes (i + 1)], [], { s with pos := s.pos + len }⟩) := by
              apply ih (s := { s with pos := s.pos + len }) hnodes.2 hdir
              change 2 * (m.ctx.input.length - (s.pos + len)) + 3 ≤ _
              omega
            have hbegins : d :: cs <+: m.ctx.chars (m.ctx.input.drop s.pos) ↔
                cs <+: m.ctx.chars (m.ctx.input.drop (s.pos + len)) := by
              rw [Ctx.chars_readChar hread, List.cons_prefix_cons, and_iff_right rfl]
            generalize m.machine.run choiceLimit (more + 1) _ = answer at hrest ⊢
            cases answer with
            | exhausted _ => exact hrest
            | failed _ => exact fun h => hrest (hbegins.mp h)
            | matched e =>
                refine ⟨hbegins.mpr hrest.1, hrest.2.trans ?_⟩
                rw [Ctx.stringUnits_cons, ← Ctx.readChar_units hread, Nat.add_assoc]
          · rw [if_neg hd] at hchar
            rw [run_fail hchar rfl]
            change ¬ _
            rw [Ctx.chars_readChar hread, List.cons_prefix_cons]
            exact fun h => hd h.1.symm

/-- An attempt of a pattern that is a text. -/
theorem findsText_matchAt (hprogram : m.re.program = textNode cs) (start : Nat) (caps : Caps)
    (memo : List MemoEntry) :
    m.FindsText cs start (m.matchAt start caps memo) := by
  obtain ⟨more, hmore⟩ := Nat.exists_eq_add_of_le' (m := 1) (n := m.stepLimit) (by
    unfold stepLimit
    omega)
  have hd : m.machine.dispatch (.node ⟨[], m.re.program⟩)
        ⟨[], [], ⟨start, .forward, caps.rollback 0, memo⟩⟩ =
      (true, ⟨[.seqElem [] (cs.map fun c => .char c false) 0], [],
        ⟨start, .forward, caps.rollback 0, memo⟩⟩) := by
    rw [hprogram]
    rfl
  rw [matchAt, startAt, hmore, run_succeed hd]
  refine findsText_run (s := ⟨start, .forward, caps.rollback 0, memo⟩) rfl rfl ?_
  unfold stepLimit at hmore
  change 2 * (m.ctx.input.length - start) + 3 ≤ more
  omega

end Matcher

section

open Escape

/-- The escaped text compiles, and an attempt at the start of an input finds whether
the input begins with the text. A match ends where the text does. -/
def EscapeRoundTrips (env : Surroundings) (flags : Flags) (s : List UInt16) : Prop :=
  ∃ re, compilePattern env (encode (escape s)) flags = .ok re ∧
    ∀ (t : List UInt16) (options : Options) (caps : Caps) (memo : List MemoEntry),
      let m : Matcher := ⟨re, ⟨env.tables, t, re.unicode⟩, options⟩
      match m.matchAt 0 caps memo with
      | .matched c => m.ctx.chars s <+: m.ctx.chars t ∧ c.store.pos = s.length
      | .failed _ => ¬ m.ctx.chars s <+: m.ctx.chars t
      | .exhausted _ => False

/-- Escaped texts are taken back by the parser, unless in unicode mode a lead
surrogate stands alone. -/
theorem escapeRoundTrips_iff (env : Surroundings) (flags : Flags) (hcase : flags.i = false)
    (s : List UInt16) :
    EscapeRoundTrips env flags s ↔
      (flags.hasUnicode = true → ∀ c ∈ decode s, isLead c = false) := by
  have hcompile := compilePattern_escape env s hcase
  by_cases hbad : flags.hasUnicode = true ∧ (decode s).any isLead = true
  · rw [if_pos hbad] at hcompile
    refine iff_of_false ?_ ?_
    · rintro ⟨re, hre, -⟩
      rw [hcompile] at hre
      cases hre
    · intro h
      obtain ⟨c, hc, hlead⟩ := List.any_eq_true.mp hbad.2
      rw [h hbad.1 c hc] at hlead
      cases hlead
  · rw [if_neg hbad] at hcompile
    refine iff_of_true ⟨_, hcompile, ?_⟩ ?_
    · intro t options caps memo m
      have hfinds : m.FindsText (m.ctx.chars s) 0 (m.matchAt 0 caps memo) :=
        Matcher.findsText_matchAt rfl 0 caps memo
      have hlength : 0 + m.ctx.stringUnits (m.ctx.chars s) = s.length :=
        (Nat.zero_add _).trans (Ctx.stringUnits_chars s)
      generalize m.matchAt 0 caps memo = answer at hfinds ⊢
      cases answer with
      | exhausted _ => exact hfinds
      | failed _ => exact hfinds
      | matched c => exact ⟨hfinds.1, hfinds.2.trans hlength⟩
    · intro hunicode c hc
      rw [← Bool.not_eq_true]
      intro hlead
      exact hbad ⟨hunicode, List.any_eq_true.mpr ⟨c, hc, hlead⟩⟩

/-- The text `a.` without flags. -/
theorem escapeRoundTrips_dot : EscapeRoundTrips plainSurroundings {} [0x61, 0x2E] :=
  (escapeRoundTrips_iff plainSurroundings {} rfl [0x61, 0x2E]).mpr nofun

/-- A lone lead surrogate, escaped as `\ud800`, is no pattern of unicode mode. -/
theorem lone_lead_refused :
    compilePattern plainSurroundings (encode (escape [0xD800])) { u := true } =
        .error (.rejected "Invalid unicode escape") ∧
      ¬ EscapeRoundTrips plainSurroundings { u := true } [0xD800] := by
  have hlead : (decode [0xD800]).any isLead = true := by decide
  have hcompile : compilePattern plainSurroundings (encode (escape [0xD800])) { u := true } =
      .error (.rejected "Invalid unicode escape") :=
    (compilePattern_escape plainSurroundings [0xD800] rfl).trans (if_pos ⟨rfl, hlead⟩)
  refine ⟨hcompile, ?_⟩
  rintro ⟨re, hre, -⟩
  rw [hcompile] at hre
  cases hre

end

end Slag.Regexp
