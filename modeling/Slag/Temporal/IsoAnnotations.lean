import Slag.Temporal.IsoParts

/-!
The annotations after a date and time, and the loop over them.
-/

namespace Slag.Temporal

variable {l r w : Text} {s t : Annotated}

/-! Time zone names. -/

theorem zoneName_of_identifier {zone : Option Int} (h : parseTimeZoneIdentifier l = .ok zone) :
    ZoneName l := by
  cases l with
  | nil => cases h
  | cons c l =>
      simp only [parseTimeZoneIdentifier] at h
      split at h
      · rename_i hc
        rw [digits_bind_eq_ok] at h
        obtain ⟨hw, l, hdh, rfl, h⟩ := h
        simp only at h
        split at h
        · cases h
        rename_i hhour
        have hhour := Nat.le_of_not_lt hhour
        split at h
        · rename_i hnil
          rw [hnil, List.append_nil]
          exact .hour hc hdh hhour
        · cases hs : eat Cu.colon l with
          | mk separated l' =>
          simp only [hs] at h
          obtain ⟨rfl, -⟩ := eat_eq hs
          rw [digits_bind_eq_ok] at h
          obtain ⟨m, l, hdm, rfl, h⟩ := h
          simp only at h
          split at h
          · cases h
          rename_i hminute
          split at h
          · cases h
          · rename_i hnil
            rw [Decidable.not_not.mp hnil, List.append_nil]
            exact .minute separated hc hdh hdm hhour (Nat.le_of_not_lt hminute)
      · split at h
        · rename_i hn
          exact .named hn.1 hn.2
        · cases h

theorem ZoneName.identifier (h : ZoneName w) : ∃ zone, parseTimeZoneIdentifier w = .ok zone := by
  cases h with
  | @named c w hc hw =>
      have hsign : ¬(c = Cu.plus ∨ c = Cu.minus) := by
        rintro (rfl | rfl) <;> exact absurd hc (by decide)
      exact ⟨none, by simp only [parseTimeZoneIdentifier]; rw [if_neg hsign, if_pos ⟨hc, hw⟩]⟩
  | @hour c h hc hdh hhour =>
      refine ⟨some ((if c = Cu.minus then -1 else 1) * ((numberOf h * 60 + 0 : Nat) : Int) *
        60000000000), ?_⟩
      simp only [parseTimeZoneIdentifier]
      rw [if_pos (show c = Cu.plus ∨ c = Cu.minus from hc)]
      have hdigits := digits_append hdh []
      rw [List.append_nil] at hdigits
      refine bind_eq_ok.mpr ⟨_, hdigits, ?_⟩
      simp only
      rw [if_neg (by omega), if_pos trivial]
      exact bind_eq_ok.mpr ⟨_, rfl, rfl⟩
  | @minute c h m separated hc hdh hdm hhour hminute =>
      refine ⟨some ((if c = Cu.minus then -1 else 1) * ((numberOf h * 60 + numberOf m : Nat) : Int) *
        60000000000), ?_⟩
      simp only [parseTimeZoneIdentifier]
      rw [if_pos (show c = Cu.plus ∨ c = Cu.minus from hc)]
      have hdigits := digits_append hdm []
      rw [List.append_nil] at hdigits
      have hne : sep Cu.colon separated ++ m ≠ [] := fun he =>
        hdm.ne_nil (List.append_eq_nil_iff.mp he).2
      have hcolon := hdm.next_ne (c := Cu.colon) (by decide) []
      rw [List.append_nil] at hcolon
      refine digits_bind_eq_ok.mpr ⟨_, _, hdh, rfl, ?_⟩
      simp only [eat_sep hcolon]
      rw [if_neg (by omega), if_neg hne]
      refine bind_eq_ok.mpr ⟨_, hdigits, ?_⟩
      simp only
      rw [if_neg (by omega), if_neg (by simp)]

theorem parseTimeZoneIdentifier_ne_panic : parseTimeZoneIdentifier l ≠ .error .panic := by
  intro h
  cases l with
  | nil => cases h
  | cons c l =>
      simp only [parseTimeZoneIdentifier] at h
      split at h
      · rw [bind_eq_error] at h
        obtain h | ⟨⟨hour, l⟩, -, h⟩ := h
        · exact digits_ne_panic h
        simp only at h
        split at h
        · cases h
        split at h
        · rw [bind_eq_error] at h
          obtain h | ⟨⟨minute, l⟩, -, h⟩ := h
          · cases h
          · simp only at h
            split at h
            · cases h
            · split at h <;> cases h
        · rw [bind_eq_error] at h
          obtain h | ⟨⟨minute, l⟩, -, h⟩ := h
          · exact digits_ne_panic h
          · simp only at h
            split at h
            · cases h
            · split at h <;> cases h
      · split at h <;> cases h

/-! Collecting. -/

/-- Units that are characters and do not stop. -/
def Collects (stop : UInt16 → Bool) (w : Text) : Prop :=
  ∀ c ∈ w, stop c = false ∧ isSurrogate c = false

variable {stop : UInt16 → Bool} {critical : Bool} {fuel : Nat}

theorem collect_eq_ok {text : Text} :
    collect stop l = .ok (text, r) ↔
      Collects stop text ∧ l = text ++ r ∧ nextIs (fun c => !stop c) r = false := by
  induction l generalizing text with
  | nil =>
      constructor
      · intro h
        cases h
        exact ⟨fun _ h => absurd h List.not_mem_nil, rfl, rfl⟩
      · rintro ⟨-, h, -⟩
        obtain ⟨rfl, rfl⟩ := List.append_eq_nil_iff.mp h.symm
        rfl
  | cons c l ih =>
      rw [collect]
      split
      · rename_i hc
        constructor
        · intro h
          cases h
          exact ⟨fun _ h => absurd h List.not_mem_nil, rfl, by simp [nextIs, hc]⟩
        · rintro ⟨htext, hl, -⟩
          cases text with
          | nil => rw [List.nil_append] at hl; rw [hl]
          | cons d text =>
              obtain ⟨rfl, -⟩ := List.cons.inj hl
              exact absurd hc (Bool.eq_false_iff.mp (htext c List.mem_cons_self).1)
      · rename_i hc
        have hc := Bool.eq_false_iff.mpr hc
        split
        · rename_i hs
          refine ⟨by rintro ⟨⟩, ?_⟩
          rintro ⟨htext, hl, hr⟩
          cases text with
          | nil =>
              rw [List.nil_append] at hl
              subst hl
              simp [nextIs, hc] at hr
          | cons d text =>
              obtain ⟨rfl, -⟩ := List.cons.inj hl
              exact absurd hs (Bool.eq_false_iff.mp (htext c List.mem_cons_self).2)
        · rename_i hs
          have hs := Bool.eq_false_iff.mpr hs
          rw [bind_eq_ok]
          constructor
          · rintro ⟨⟨rest, r'⟩, hrest, h⟩
            cases h
            obtain ⟨hcol, rfl, hr⟩ := ih.mp hrest
            exact ⟨List.forall_mem_cons.mpr ⟨⟨hc, hs⟩, hcol⟩, rfl, hr⟩
          · rintro ⟨htext, hl, hr⟩
            cases text with
            | nil =>
                rw [List.nil_append] at hl
                subst hl
                simp [nextIs, hc] at hr
            | cons d text =>
                obtain ⟨rfl, rfl⟩ := List.cons.inj hl
                exact ⟨(text, r), ih.mpr ⟨(List.forall_mem_cons.mp htext).2, rfl, hr⟩, rfl⟩

theorem collect_panic : collect stop l = .error .panic ↔
    ∃ w c r, l = w ++ c :: r ∧ Collects stop w ∧ stop c = false ∧ isSurrogate c = true := by
  induction l with
  | nil => exact ⟨nofun, fun ⟨_, _, _, h, _⟩ => absurd h (by simp)⟩
  | cons c l ih =>
      rw [collect]
      split
      · rename_i hc
        refine ⟨nofun, ?_⟩
        rintro ⟨w, d, r, hl, hw, hd, -⟩
        cases w with
        | nil =>
            obtain ⟨rfl, -⟩ := List.cons.inj hl
            exact absurd hc (Bool.eq_false_iff.mp hd)
        | cons e w =>
            obtain ⟨rfl, -⟩ := List.cons.inj hl
            exact absurd hc (Bool.eq_false_iff.mp (hw c List.mem_cons_self).1)
      · rename_i hc
        split
        · rename_i hs
          exact iff_of_true rfl ⟨[], c, l, rfl, fun _ h => absurd h List.not_mem_nil,
            Bool.eq_false_iff.mpr hc, hs⟩
        · rename_i hs
          rw [bind_eq_error]
          constructor
          · rintro (h | ⟨_, -, h⟩)
            · obtain ⟨w, d, r, rfl, hw, hd⟩ := ih.mp h
              exact ⟨c :: w, d, r, rfl, List.forall_mem_cons.mpr
                ⟨⟨Bool.eq_false_iff.mpr hc, Bool.eq_false_iff.mpr hs⟩, hw⟩, hd⟩
            · cases h
          · rintro ⟨w, d, r, hl, hw, hd⟩
            cases w with
            | nil =>
                obtain ⟨rfl, -⟩ := List.cons.inj hl
                exact absurd hd.2 hs
            | cons e w =>
                obtain ⟨rfl, rfl⟩ := List.cons.inj hl
                exact .inl (ih.mpr ⟨w, d, r, rfl, (List.forall_mem_cons.mp hw).2, hd⟩)

/-! One annotation. -/

theorem collects_value (h : ValueUnits w) : Collects (fun c => c = Cu.rBracket) w :=
  fun c hc => ⟨decide_eq_false (h c hc).1, (h c hc).2⟩

theorem valueUnits_of_collects (h : Collects (fun c => c = Cu.rBracket) w) : ValueUnits w :=
  fun c hc => ⟨of_decide_eq_false (h c hc).1, (h c hc).2⟩

theorem isNameUnit_of_key {c : UInt16} (h : isKeyUnit c = true) : isNameUnit c = true := by
  simp only [isKeyUnit, Bool.or_eq_true, decide_eq_true_eq] at h
  simp only [isNameUnit, isNameStart, Bool.or_eq_true, decide_eq_true_eq]
  obtain ((h | h) | h) | h := h
  · exact .inl (.inl (.inl (.inl (.inl (.inl (.inl h))))))
  · exact .inl (.inl (.inl (.inr h)))
  · exact .inl (.inl (.inl (.inl (.inr h))))
  · exact .inl (.inl (.inr h))

theorem name_unit {c : UInt16} (h : isNameUnit c = true) :
    isSurrogate c = false ∧ ∀ d, isNameUnit d = false → c ≠ d := by
  refine ⟨?_, fun d hd he => Bool.false_ne_true (hd.symm.trans (he ▸ h))⟩
  simp only [isNameUnit, isNameStart, isLower, isUpper, isDigit, Bool.or_eq_true, Bool.and_eq_true,
    decide_eq_true_eq, UInt16.le_iff_toNat_le, ← UInt16.toNat_inj] at h
  have h1 : (0x7A : UInt16).toNat = 122 := rfl
  have h2 : (0x5A : UInt16).toNat = 90 := rfl
  have h3 : (0x39 : UInt16).toNat = 57 := rfl
  have h4 : (0xD800 : UInt16).toNat = 55296 := rfl
  have h5 : Cu.dot.toNat = 46 ∧ Cu.underscore.toNat = 95 ∧ Cu.minus.toNat = 45 ∧
    Cu.plus.toNat = 43 ∧ Cu.slash.toNat = 47 := ⟨rfl, rfl, rfl, rfl, rfl⟩
  simp only [isSurrogate, Bool.and_eq_false_iff, decide_eq_false_iff_not, UInt16.le_iff_toNat_le]
  omega

/-- Units a content is collected of. -/
abbrev ContentUnits (w : Text) : Prop := Collects (fun c => c = Cu.rBracket || c = Cu.eq) w

theorem contentUnits_of_names (h : ∀ c ∈ w, isNameUnit c = true) : ContentUnits w := fun c hc => by
  have hn := name_unit (h c hc)
  simp [hn.1, hn.2 Cu.rBracket (by decide), hn.2 Cu.eq (by decide)]

theorem contentUnits_of_digits {n : Nat} (h : Digits n w) : ContentUnits w :=
  contentUnits_of_names fun c hc => by simp [isNameUnit, h.2 c hc]

theorem contentUnits_append {u : Text} (hw : ContentUnits w) (hu : ContentUnits u) :
    ContentUnits (w ++ u) := fun c hc => (List.mem_append.mp hc).elim (hw c) (hu c)

theorem KeyText.units (h : KeyText w) : ContentUnits w ∧ nextIs (fun c => c = Cu.bang) w = false := by
  have hall : ∀ c ∈ w, isNameUnit c = true := fun c hc =>
    isNameUnit_of_key (List.all_eq_true.mp h.2 c hc)
  refine ⟨contentUnits_of_names hall, ?_⟩
  cases w with
  | nil => rfl
  | cons c w => exact decide_eq_false ((name_unit (hall c List.mem_cons_self)).2 _ (by decide))

theorem ZoneName.units (h : ZoneName w) :
    w ≠ [] ∧ ContentUnits w ∧ nextIs (fun c => c = Cu.bang) w = false := by
  have hsign : ∀ {c : UInt16}, IsSign c → isNameUnit c = true := by
    rintro c (rfl | rfl) <;> decide
  have hbang : ∀ {c : UInt16} {u : Text}, isNameUnit c = true →
      nextIs (fun c => c = Cu.bang) (c :: u) = false :=
    fun hc => decide_eq_false ((name_unit hc).2 _ (by decide))
  have hcons : ∀ {c : UInt16} {u : Text}, isNameUnit c = true → ContentUnits u →
      ContentUnits (c :: u) := fun hc hu =>
    contentUnits_append (contentUnits_of_names (List.forall_mem_singleton.mpr hc)) hu
  cases h with
  | @named c u hc hw =>
      have hn : isNameUnit c = true := by simp [isNameUnit, hc]
      exact ⟨List.cons_ne_nil _ _, hcons hn (contentUnits_of_names (List.all_eq_true.mp hw)), hbang hn⟩
  | hour hc hdh _ =>
      exact ⟨List.cons_ne_nil _ _, hcons (hsign hc) (contentUnits_of_digits hdh), hbang (hsign hc)⟩
  | minute separated hc hdh hdm _ _ =>
      have hsep : ContentUnits (sep Cu.colon separated) := by
        cases separated with
        | false => exact fun _ h => absurd h List.not_mem_nil
        | true => exact List.forall_mem_singleton.mpr (by decide)
      exact ⟨List.cons_ne_nil _ _, hcons (hsign hc) (contentUnits_append (contentUnits_of_digits hdh)
        (contentUnits_append hsep (contentUnits_of_digits hdm))), hbang (hsign hc)⟩

theorem annotateZone_eq_ok {name : Text} (h : annotateZone s name = .ok t) :
    s.zone = [] ∧ ZoneName name ∧ t = { s with zone := name } := by
  unfold annotateZone at h
  split at h
  · cases h
  · rename_i hz
    rw [bind_eq_ok] at h
    obtain ⟨zone, hzone, h⟩ := h
    cases h
    exact ⟨Decidable.not_not.mp hz, zoneName_of_identifier hzone, rfl⟩

theorem annotateZone_ne_panic {name : Text} : annotateZone s name ≠ .error .panic := by
  intro h
  unfold annotateZone at h
  split at h
  · cases h
  · rw [bind_eq_error] at h
    obtain h | ⟨_, -, h⟩ := h
    · exact parseTimeZoneIdentifier_ne_panic h
    · cases h

theorem annotate_eq_ok {key value : Text} :
    annotate s critical key value = .ok t ↔ Keyed s critical value key t := by
  unfold annotate
  constructor
  · intro h
    split at h
    · rename_i hkey
      subst hkey
      split at h
      · cases h
      rename_i hcount
      dsimp only at h
      split at h
      · cases h
      rename_i hcalendars
      cases h
      exact .calendar (by simpa [Nat.pos_iff_ne_zero, or_iff_not_imp_left] using hcalendars) hcount
    · rename_i hkey
      split at h
      · cases h
      · rename_i hcritical
        cases h
        exact .other hkey (Bool.not_eq_true _ ▸ hcritical)
  · rintro (⟨hone, hcount⟩ | ⟨hkey, rfl⟩)
    · rw [if_pos rfl, if_neg hcount]
      dsimp only
      rw [if_neg (by simpa [Nat.pos_iff_ne_zero, or_iff_not_imp_left] using hone)]
    · rw [if_neg hkey, if_neg Bool.false_ne_true]

theorem annotate_panic {key value : Text} :
    annotate s critical key value = .error .panic ↔ key = uca ∧ s.calendarCount + 1 = 2 ^ 32 := by
  unfold annotate
  constructor
  · intro h
    split at h
    · rename_i hkey
      split at h
      · exact ⟨hkey, ‹_›⟩
      · dsimp only at h
        split at h <;> cases h
    · split at h <;> cases h
  · rintro ⟨rfl, hcount⟩
    rw [if_pos rfl, if_pos hcount]

theorem parseKeyed_eq_ok {key : Text} (h : parseKeyed s critical key l = .ok (t, r)) :
    key.all isKeyUnit = true ∧ ∃ value,
      value ≠ [] ∧ ValueUnits value ∧ Keyed s critical value key t ∧ l = value ++ r := by
  unfold parseKeyed at h
  split at h
  · rename_i hk
    rw [bind_eq_ok] at h
    obtain ⟨⟨value, l'⟩, hv, h⟩ := h
    obtain ⟨hunits, rfl, -⟩ := collect_eq_ok.mp hv
    simp only at h
    split at h
    · cases h
    · rename_i hne
      rw [bind_eq_ok] at h
      obtain ⟨s', hs, h⟩ := h
      cases h
      exact ⟨hk, value, hne, valueUnits_of_collects hunits, annotate_eq_ok.mp hs, rfl⟩
  · cases h

theorem parseKeyed_panic {key : Text} :
    parseKeyed s critical key l = .error .panic ↔ key.all isKeyUnit = true ∧
      ((∃ w c r, l = w ++ c :: r ∧ ValueUnits w ∧ isSurrogate c = true) ∨
        ∃ value r, l = value ++ r ∧ value ≠ [] ∧ ValueUnits value ∧
          (key = uca ∧ s.calendarCount + 1 = 2 ^ 32) ∧ nextIs (fun c => c ≠ Cu.rBracket) r = false) := by
  unfold parseKeyed
  by_cases hk : key.all isKeyUnit = true
  · rw [if_pos hk, bind_eq_error, collect_panic]
    constructor
    · rintro (⟨w, c, r, rfl, hw, -, hc⟩ | ⟨⟨value, r⟩, hv, h⟩)
      · exact ⟨hk, .inl ⟨w, c, r, rfl, valueUnits_of_collects hw, hc⟩⟩
      · obtain ⟨hunits, rfl, hr⟩ := collect_eq_ok.mp hv
        simp only at h
        split at h
        · cases h
        · rename_i hne
          rw [bind_eq_error] at h
          obtain h | ⟨_, -, h⟩ := h
          · refine ⟨hk, .inr ⟨value, r, rfl, hne, valueUnits_of_collects hunits, annotate_panic.mp h, ?_⟩⟩
            simpa using hr
          · cases h
    · rintro ⟨-, ⟨w, c, r, rfl, hw, hc⟩ | ⟨value, r, rfl, hne, hv, hs, hr⟩⟩
      · refine .inl ⟨w, c, r, rfl, collects_value hw, decide_eq_false ?_, hc⟩
        rintro rfl
        exact absurd hc (by decide)
      · refine .inr ⟨(value, r), collect_eq_ok.mpr ⟨collects_value hv, rfl, by simpa using hr⟩, ?_⟩
        simp only
        rw [if_neg hne]
        exact bind_eq_error.mpr (.inl (annotate_panic.mpr hs))
  · rw [if_neg hk]
    exact ⟨nofun, fun h => absurd h.1 hk⟩

/-- What an annotation does: it names the zone, or it is a key and a value. -/
inductive Annotates (s : Annotated) : Text → Annotated → Prop
  | zone {name : Text} (critical : Bool) : s.zone = [] → ZoneName name →
      Annotates s (sep Cu.bang critical ++ (name ++ [Cu.rBracket])) { s with zone := name }
  | keyed {t : Annotated} {key value : Text} (critical : Bool) : KeyText key → value ≠ [] →
      ValueUnits value → Keyed s critical value key t →
      Annotates s (sep Cu.bang critical ++ (key ++ Cu.eq :: (value ++ [Cu.rBracket]))) t

theorem parseAnnotation_eq_ok (h : parseAnnotation s l = .ok (t, r)) :
    ∃ w, Annotates s w t ∧ l = w ++ r := by
  unfold parseAnnotation at h
  cases hb : eat Cu.bang l with
  | mk critical l' =>
  simp only [hb] at h
  obtain ⟨rfl, -⟩ := eat_eq hb
  rw [bind_eq_ok] at h
  obtain ⟨⟨content, l⟩, hcol, h⟩ := h
  obtain ⟨-, rfl, -⟩ := collect_eq_ok.mp hcol
  simp only at h
  split at h
  · cases h
  rename_i hne
  rw [bind_eq_ok] at h
  obtain ⟨⟨s', l'⟩, hcontent, h⟩ := h
  rw [bind_eq_ok] at h
  obtain ⟨l'', hclose, h⟩ := h
  obtain rfl := expect_eq_ok.mp hclose
  cases h
  unfold parseContent at hcontent
  cases eat_cases Cu.eq l with
  | inl he =>
      obtain ⟨rest, rfl, he⟩ := he
      simp only [he] at hcontent
      obtain ⟨hk, value, hv, hunits, hs, rfl⟩ := parseKeyed_eq_ok hcontent
      exact ⟨_, .keyed critical ⟨hne, hk⟩ hv hunits hs, by simp⟩
  | inr he =>
      simp only [he.2] at hcontent
      rw [bind_eq_ok] at hcontent
      obtain ⟨s'', hz, hcontent⟩ := hcontent
      cases hcontent
      obtain ⟨hempty, hname, rfl⟩ := annotateZone_eq_ok hz
      exact ⟨_, .zone critical hempty hname, by simp⟩

/-- The content of an annotation, up to its key or its bracket. -/
theorem parseAnnotation_content (critical : Bool) {content : Text} (hu : ContentUnits content)
    (hb : nextIs (fun c => c = Cu.bang) content = false) (hne : content ≠ [])
    (hr : nextIs (fun c => !(c = Cu.rBracket || c = Cu.eq)) r = false) :
    parseAnnotation s (sep Cu.bang critical ++ (content ++ r)) =
      (parseContent s critical content r >>= fun q =>
        expect Cu.rBracket q.2 >>= fun l => .ok (q.1, l)) := by
  have hbang : nextIs (fun c => c = Cu.bang) (content ++ r) = false := by
    rw [nextIs_append hne]
    exact hb
  have hcol : collect (fun c => c = Cu.rBracket || c = Cu.eq) (content ++ r) = .ok (content, r) :=
    collect_eq_ok.mpr ⟨hu, rfl, hr⟩
  unfold parseAnnotation
  simp only [eat_sep hbang, hcol]
  change (if content = [] then Except.error Failure.invalid else _) = _
  rw [if_neg hne]

theorem Annotates.parse (h : Annotates s w t) (r : Text) : parseAnnotation s (w ++ r) = .ok (t, r) := by
  cases h with
  | @zone name critical hempty hname =>
      obtain ⟨hne, hu, hb⟩ := hname.units
      obtain ⟨zone, hid⟩ := hname.identifier
      simp only [List.append_assoc, List.cons_append, List.nil_append]
      rw [parseAnnotation_content critical hu hb hne (by simp [nextIs])]
      refine bind_eq_ok.mpr ⟨({ s with zone := name }, Cu.rBracket :: r), ?_, ?_⟩
      · unfold parseContent
        rw [eat_of_next (show nextIs (fun c => c = Cu.eq) (Cu.rBracket :: r) = false by rfl)]
        refine bind_eq_ok.mpr ⟨{ s with zone := name }, ?_, rfl⟩
        unfold annotateZone
        rw [if_neg (by simpa using hempty)]
        exact bind_eq_ok.mpr ⟨zone, hid, rfl⟩
      · exact bind_eq_ok.mpr ⟨r, expect_eq_ok.mpr rfl, rfl⟩
  | @keyed _ key value critical hk hv hunits hs =>
      obtain ⟨hu, hb⟩ := hk.units
      simp only [List.append_assoc, List.cons_append, List.nil_append]
      rw [parseAnnotation_content critical hu hb hk.1 (by simp [nextIs])]
      refine bind_eq_ok.mpr ⟨(t, Cu.rBracket :: r), ?_, ?_⟩
      · unfold parseContent parseKeyed
        rw [eat_cons]
        simp only
        rw [if_pos hk.2]
        refine bind_eq_ok.mpr ⟨(value, Cu.rBracket :: r), collect_eq_ok.mpr
          ⟨collects_value hunits, rfl, by simp [nextIs]⟩, ?_⟩
        simp only
        rw [if_neg hv]
        exact bind_eq_ok.mpr ⟨t, annotate_eq_ok.mpr hs, rfl⟩
      · exact bind_eq_ok.mpr ⟨r, expect_eq_ok.mpr rfl, rfl⟩

theorem contentUnits_iff :
    ContentUnits w ↔ ∀ c ∈ w, c ≠ Cu.rBracket ∧ c ≠ Cu.eq ∧ isSurrogate c = false := by
  simp only [Collects, Bool.or_eq_false_iff, decide_eq_false_iff_not, and_assoc, ne_eq]

/-- A bang at the start of the content is taken for the flag. -/
theorem parseAnnotation_surrogate {c : UInt16} (critical : Bool) (hw : ContentUnits w)
    (hc : isSurrogate c = true) :
    parseAnnotation s (sep Cu.bang critical ++ (w ++ c :: r)) = .error .panic := by
  have hstop : (c = Cu.rBracket || c = Cu.eq) = false := by
    simp only [Bool.or_eq_false_iff, decide_eq_false_iff_not]
    constructor <;> rintro rfl <;> exact absurd hc (by decide)
  have hcol : ∀ {u : Text}, (∀ d ∈ u, d ∈ w) →
      collect (fun c => c = Cu.rBracket || c = Cu.eq) (u ++ c :: r) = .error .panic :=
    fun hsub => collect_panic.mpr ⟨_, c, r, rfl, fun d hd => hw d (hsub d hd), hstop, hc⟩
  unfold parseAnnotation
  cases critical with
  | true =>
      rw [show sep Cu.bang true ++ (w ++ c :: r) = Cu.bang :: (w ++ c :: r) from rfl, eat_cons]
      exact bind_eq_error.mpr (.inl (hcol fun _ h => h))
  | false =>
      rw [show sep Cu.bang false ++ (w ++ c :: r) = w ++ c :: r from rfl]
      cases eat_cases Cu.bang (w ++ c :: r) with
      | inr he =>
          rw [he.2]
          exact bind_eq_error.mpr (.inl (hcol fun _ h => h))
      | inl he =>
          obtain ⟨rest, hl, he⟩ := he
          cases w with
          | nil =>
              obtain ⟨rfl, -⟩ := List.cons.inj hl
              exact absurd hc (by decide)
          | cons d w =>
              obtain ⟨rfl, rfl⟩ := List.cons.inj hl
              rw [he]
              exact bind_eq_error.mpr (.inl (hcol fun _ h => List.mem_cons_of_mem _ h))

theorem parseAnnotation_keyed {key : Text} (critical : Bool) (hk : KeyText key)
    (hp : parseKeyed s critical key l = .error .panic) :
    parseAnnotation s (sep Cu.bang critical ++ (key ++ Cu.eq :: l)) = .error .panic := by
  obtain ⟨hu, hb⟩ := hk.units
  rw [parseAnnotation_content critical hu hb hk.1 (by simp [nextIs])]
  refine bind_eq_error.mpr (.inl ?_)
  unfold parseContent
  rw [eat_cons]
  exact hp

theorem badAnnotation_of_panic (h : parseAnnotation s l = .error .panic) : BadAnnotation s l := by
  unfold parseAnnotation at h
  cases hb : eat Cu.bang l with
  | mk critical l' =>
  simp only [hb] at h
  obtain ⟨rfl, -⟩ := eat_eq hb
  rw [bind_eq_error] at h
  obtain h | ⟨⟨content, l⟩, hcol, h⟩ := h
  · obtain ⟨w, c, r, rfl, hw, -, hc⟩ := collect_panic.mp h
    exact .content critical (contentUnits_iff.mp hw) hc
  obtain ⟨-, rfl, -⟩ := collect_eq_ok.mp hcol
  simp only at h
  split at h
  · cases h
  rename_i hne
  rw [bind_eq_error] at h
  obtain h | ⟨⟨s', l'⟩, -, h⟩ := h
  · unfold parseContent at h
    cases eat_cases Cu.eq l with
    | inl he =>
        obtain ⟨rest, rfl, he⟩ := he
        simp only [he] at h
        obtain ⟨hk, hbad⟩ := parseKeyed_panic.mp h
        obtain ⟨w, c, r, rfl, hw, hc⟩ | ⟨value, r, rfl, hv, hunits, ⟨rfl, hs⟩, hr⟩ := hbad
        · exact .value critical ⟨hne, hk⟩ hw hc
        · exact .count critical hs hv hunits hr
    | inr he =>
        simp only [he.2] at h
        rw [bind_eq_error] at h
        obtain h | ⟨_, -, h⟩ := h
        · exact absurd h annotateZone_ne_panic
        · cases h
  · simp only at h
    rw [bind_eq_error] at h
    obtain h | ⟨_, -, h⟩ := h
    · exact absurd h expect_ne_panic
    · cases h

theorem parseAnnotation_panic : parseAnnotation s l = .error .panic ↔ BadAnnotation s l := by
  refine ⟨badAnnotation_of_panic, fun h => ?_⟩
  cases h with
  | content critical hw hc => exact parseAnnotation_surrogate critical (contentUnits_iff.mpr hw) hc
  | value critical hk hw hc =>
      exact parseAnnotation_keyed critical hk
        (parseKeyed_panic.mpr ⟨hk.2, .inl ⟨_, _, _, rfl, hw, hc⟩⟩)
  | count critical hs hv hunits hr =>
      have hk : KeyText uca := ⟨by decide, by decide⟩
      exact parseAnnotation_keyed critical hk
        (parseKeyed_panic.mpr ⟨hk.2, .inr ⟨_, _, rfl, hv, hunits, ⟨rfl, hs⟩, hr⟩⟩)

/-! The loop. -/

theorem Annotates.annotations {u : Text} {s' : Annotated} (h : Annotates s w s')
    (hu : Annotations s' u t) : Annotations s (Cu.lBracket :: (w ++ u)) t := by
  cases h with
  | zone critical hempty hname => simpa using Annotations.zone critical hempty hname hu
  | keyed critical hk hv hunits hs => simpa using Annotations.keyed critical hk hv hunits hs hu

theorem Annotations.cases {v : Text} (h : Annotations s v t) :
    v = [] ∧ t = s ∨ ∃ w u s', v = Cu.lBracket :: (w ++ u) ∧ Annotates s w s' ∧ Annotations s' u t := by
  cases h with
  | nil => exact .inl ⟨rfl, rfl⟩
  | zone critical hempty hname hu =>
      exact .inr ⟨_, _, _, by simp, .zone critical hempty hname, hu⟩
  | keyed critical hk hv hunits hs hu =>
      exact .inr ⟨_, _, _, by simp, .keyed critical hk hv hunits hs, hu⟩

theorem parseAnnotations_eq_ok (hfuel : l.length ≤ fuel) (h : parseAnnotations fuel s l = .ok (t, r)) :
    ∃ w, Annotations s w t ∧ l = w ++ r ∧ nextIs (fun c => c = Cu.lBracket) r = false := by
  induction fuel generalizing s l with
  | zero =>
      cases h
      rw [List.length_eq_zero_iff.mp (Nat.le_zero.mp hfuel)]
      exact ⟨[], .nil, rfl, rfl⟩
  | succ fuel ih =>
      rw [parseAnnotations] at h
      cases eat_cases Cu.lBracket l with
      | inl he =>
          obtain ⟨rest, rfl, he⟩ := he
          simp only [he] at h
          rw [bind_eq_ok] at h
          obtain ⟨⟨s', l'⟩, hann, h⟩ := h
          obtain ⟨w, hw, rfl⟩ := parseAnnotation_eq_ok hann
          simp only [List.length_cons, List.length_append] at hfuel
          obtain ⟨u, hu, rfl, hr⟩ := ih (show l'.length ≤ fuel by omega) h
          exact ⟨_, hw.annotations hu, by simp, hr⟩
      | inr he =>
          simp only [he.2] at h
          cases h
          exact ⟨[], .nil, rfl, he.1⟩

theorem Annotations.parse (h : Annotations s w t) (hr : nextIs (fun c => c = Cu.lBracket) r = false)
    (hfuel : (w ++ r).length ≤ fuel) :
    parseAnnotations fuel s (w ++ r) = .ok (t, r) := by
  induction fuel generalizing s w with
  | zero =>
      obtain ⟨rfl, rfl⟩ := List.append_eq_nil_iff.mp (List.length_eq_zero_iff.mp (Nat.le_zero.mp hfuel))
      obtain ⟨-, rfl⟩ | ⟨_, _, _, he, _⟩ := h.cases
      · rfl
      · cases he
  | succ fuel ih =>
      rw [parseAnnotations]
      obtain ⟨rfl, rfl⟩ | ⟨v, u, s', rfl, hv, hu⟩ := h.cases
      · rw [List.nil_append, eat_of_next hr]
      · simp only [List.cons_append, eat_cons, List.append_assoc]
        simp only [List.cons_append, List.length_cons, List.length_append] at hfuel
        refine bind_eq_ok.mpr ⟨_, hv.parse _, ih hu ?_⟩
        rw [List.length_append]
        omega

theorem parseAnnotations_panic (hfuel : l.length ≤ fuel) :
    parseAnnotations fuel s l = .error .panic ↔
      ∃ w u t, l = w ++ Cu.lBracket :: u ∧ Annotations s w t ∧ BadAnnotation t u := by
  induction fuel generalizing s l with
  | zero =>
      rw [List.length_eq_zero_iff.mp (Nat.le_zero.mp hfuel)]
      exact ⟨nofun, fun ⟨_, _, _, h, _⟩ => absurd h (by simp)⟩
  | succ fuel ih =>
      rw [parseAnnotations]
      cases eat_cases Cu.lBracket l with
      | inl he =>
          obtain ⟨rest, rfl, he⟩ := he
          simp only [he]
          rw [bind_eq_error, parseAnnotation_panic]
          simp only [List.length_cons] at hfuel
          constructor
          · rintro (h | ⟨⟨s', l'⟩, hann, h⟩)
            · exact ⟨[], rest, s, rfl, .nil, h⟩
            · obtain ⟨w, hw, rfl⟩ := parseAnnotation_eq_ok hann
              rw [List.length_append] at hfuel
              obtain ⟨v, u, t, rfl, hv, hbad⟩ := (ih (show l'.length ≤ fuel by omega)).mp h
              exact ⟨_, u, t, by simp, hw.annotations hv, hbad⟩
          · rintro ⟨w, u, t, hl, hw, hbad⟩
            obtain ⟨rfl, rfl⟩ | ⟨v, x, s', rfl, hv, hx⟩ := hw.cases
            · obtain ⟨-, rfl⟩ := List.cons.inj hl
              exact .inl hbad
            · simp only [List.cons_append, List.cons.injEq, true_and, List.append_assoc] at hl
              subst hl
              rw [List.length_append] at hfuel
              have hle : (x ++ Cu.lBracket :: u).length ≤ fuel := by omega
              exact .inr ⟨_, hv.parse _, (ih hle).mpr ⟨x, u, t, rfl, hx, hbad⟩⟩
      | inr he =>
          simp only [he.2]
          refine ⟨nofun, ?_⟩
          rintro ⟨w, u, t, rfl, hw, -⟩
          obtain ⟨rfl, -⟩ | ⟨_, _, _, rfl, _⟩ := hw.cases
          · exact absurd he.1 (by simp [nextIs])
          · exact absurd he.1 (by simp [nextIs])

end Slag.Temporal
