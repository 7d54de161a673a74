import Slag.V8.Clone

/-!
The header of a stream, which a host may ask for any number of times, and which
is asked for again before every value.
-/

namespace Slag.V8

/-- A deserializer, as far as reading a header is concerned. The messages are
those of the errors thrown, last first. -/
structure Deserializer where
  input : Bytes
  position : Nat := 0
  version : Nat := 0
  headerRead : Bool := false
  supportsLegacyWireFormat : Bool := false
  thrown : List String := []

namespace Deserializer

/-- A deserializer of a host that has made its choice. -/
def new (data : Bytes) (legacy : Bool) : Deserializer where
  input := data
  supportsLegacyWireFormat := legacy

def take (d : Deserializer) (length : Nat) : Option Bytes × Deserializer :=
  let stop := d.position + length
  if stop ≤ d.input.length then
    (some ((d.input.drop d.position).take length), { d with position := stop })
  else (none, d)

def takeU8 (d : Deserializer) : Option UInt8 × Deserializer :=
  match d.take 1 with
  | (some bytes, d) => (bytes.head?, d)
  | (none, d) => (none, d)

def malformed {α : Type} (d : Deserializer) (message : String) : Option α × Deserializer :=
  (none, { d with thrown := message :: d.thrown })

def readHeader (d : Deserializer) : Option Bool × Deserializer :=
  if d.headerRead then (some true, d)
  else
    match d.takeU8 with
    | (none, d) => (none, d)
    | (some tag, d) =>
        if tag ≠ headerTag then
          -- A stream of version 0 has no header.
          if !d.supportsLegacyWireFormat then d.malformed "the bytes are not a serialized value"
          else (some true, { d with position := 0, version := 0, headerRead := true })
        else
          match d.takeU8 with
          | (none, d) => d.malformed "the header is truncated"
          | (some version, d) =>
              if wireFormatVersion < version then (some false, d)
              else (some true, { d with version := version.toNat, headerRead := true })

/-- The answers to so many calls. -/
def readHeaders : Nat → Deserializer → List (Option Bool) × Deserializer
  | 0, d => ([], d)
  | n + 1, d =>
      let first := d.readHeader
      let rest := readHeaders n first.2
      (first.1 :: rest.1, rest.2)

/-- Every call answers what the first one does, and only that one moves. -/
def Idempotent (d : Deserializer) : Prop :=
  ∀ n, (d.readHeaders (n + 1)).1 = List.replicate (n + 1) d.readHeader.1 ∧
    (d.readHeaders (n + 1)).2.position = d.readHeader.2.position

/-- The first call reads a header, or the whole input, or takes the stream as
one of version 0. -/
def settles (data : Bytes) (legacy : Bool) : Bool :=
  match data with
  | [] | [_] => true
  | tag :: version :: _ => if tag = headerTag then version ≤ wireFormatVersion else legacy

/-- A deserializer that answers without a move, and keeps to the answer. -/
structure Settled (d : Deserializer) (answer : Option Bool) : Prop where
  answers : d.readHeader.1 = answer
  stays : d.readHeader.2.position = d.position
  read : d.headerRead = true ∧ answer = some true ∨
    d.headerRead = false ∧ d.position = d.input.length ∧ answer = none

variable {d : Deserializer}

theorem settled_of_read (h : d.headerRead = true) : Settled d (some true) := by
  have hcall : d.readHeader = (some true, d) := by rw [readHeader, if_pos h]
  exact ⟨by rw [hcall], by rw [hcall], .inl ⟨h, rfl⟩⟩

theorem readHeader_at_end (h : d.headerRead = false) (hend : d.position = d.input.length) :
    d.readHeader = (none, d) := by
  have htake : d.takeU8 = (none, d) := by
    rw [takeU8, take, if_neg (by omega)]
  rw [readHeader, h, htake]
  rfl

theorem settled_of_end (h : d.headerRead = false) (hend : d.position = d.input.length) :
    Settled d none := by
  have hcall := readHeader_at_end h hend
  exact ⟨by rw [hcall], by rw [hcall], .inr ⟨h, hend, rfl⟩⟩

/-- A call leaves a settled deserializer settled. -/
theorem Settled.next {answer : Option Bool} (h : Settled d answer) :
    Settled d.readHeader.2 answer := by
  rcases h.read with ⟨hread, rfl⟩ | ⟨hread, hend, rfl⟩
  · have hcall : d.readHeader = (some true, d) := by rw [readHeader, if_pos hread]
    rw [hcall]
    exact h
  · rw [readHeader_at_end hread hend]
    exact h

theorem Settled.readHeaders {answer : Option Bool} (n : Nat) (h : Settled d answer) :
    (d.readHeaders n).1 = List.replicate n answer ∧
      (d.readHeaders n).2.position = d.position := by
  induction n generalizing d with
  | zero => exact ⟨rfl, rfl⟩
  | succ n ih =>
      obtain ⟨hanswers, hposition⟩ := ih h.next
      refine ⟨?_, ?_⟩
      · simp only [Deserializer.readHeaders, hanswers, h.answers, List.replicate_succ]
      · simp only [Deserializer.readHeaders, hposition, h.stays]

theorem idempotent_of_settled (h : Settled d.readHeader.2 d.readHeader.1) :
    Idempotent d := by
  intro n
  obtain ⟨hanswers, hposition⟩ := h.readHeaders n
  refine ⟨?_, ?_⟩
  · simp only [readHeaders, hanswers, List.replicate_succ]
  · simp only [readHeaders, hposition]

theorem takeU8_lt (h : d.position < d.input.length) :
    d.takeU8 = (some d.input[d.position], { d with position := d.position + 1 }) := by
  have hle : d.position + 1 ≤ d.input.length := h
  simp only [takeU8, take, if_pos hle, List.drop_eq_getElem_cons h]
  rfl

theorem takeU8_position (d : Deserializer) : d.position ≤ d.takeU8.2.position := by
  rw [takeU8, take]
  split
  · rename_i hlt
    split at hlt
    · cases hlt
      exact Nat.le_succ _
    · cases hlt
  · rename_i hlt
    split at hlt
    · cases hlt
    · cases hlt
      exact Nat.le_refl _

/-- A call that is not settled moves, or answers that there is a header. -/
theorem readHeader_moves (hread : d.headerRead = false) (hlt : d.position < d.input.length) :
    d.readHeader.1 = some true ∨ d.position < d.readHeader.2.position := by
  have hmoved := takeU8_position { d with position := d.position + 1 }
  rw [hread] at hmoved
  simp only [readHeader, hread, Bool.false_eq_true, if_false, takeU8_lt hlt]
  split
  · split
    · exact .inr (Nat.lt_succ_self _)
    · exact .inl rfl
  · split
    · rename_i htake
      rw [htake] at hmoved
      exact .inr hmoved
    · rename_i htake
      rw [htake] at hmoved
      split
      · exact .inr hmoved
      · exact .inl rfl

theorem Idempotent.second (h : Idempotent d) :
    d.readHeader.2.readHeader.1 = d.readHeader.1 ∧
      d.readHeader.2.readHeader.2.position = d.readHeader.2.position := by
  obtain ⟨hanswers, hposition⟩ := h 1
  exact ⟨(List.cons.inj (List.cons.inj hanswers).2).1, hposition⟩

/-- A refusal that leaves bytes is not kept to. -/
theorem not_idempotent (hfirst : d.readHeader.1 ≠ some true) (hread : d.readHeader.2.headerRead = false)
    (hlt : d.readHeader.2.position < d.readHeader.2.input.length) : ¬ Idempotent d := by
  intro h
  obtain ⟨hsecond, hposition⟩ := h.second
  rcases readHeader_moves hread hlt with htrue | hmoves
  · exact hfirst (hsecond.symm.trans htrue)
  · exact Nat.ne_of_gt hmoves hposition

/-- What the first call comes to. -/
theorem readHeader_first {tag : UInt8} {data : Bytes} {legacy : Bool} (h : d = new (tag :: data) legacy) :
    d.readHeader =
      if tag ≠ headerTag then
        if legacy then (some true, { d with headerRead := true })
        else { d with position := 1 }.malformed "the bytes are not a serialized value"
      else
        match data with
        | [] => { d with position := 1 }.malformed "the header is truncated"
        | version :: _ =>
            if wireFormatVersion < version then (some false, { d with position := 2 })
            else (some true, { d with position := 2, version := version.toNat, headerRead := true }) := by
  subst h
  have hfirst : (new (tag :: data) legacy).takeU8 =
      (some tag, { new (tag :: data) legacy with position := 1 }) := takeU8_lt (Nat.succ_pos _)
  have hread : (new (tag :: data) legacy).headerRead = false := rfl
  simp only [readHeader, hread, Bool.false_eq_true, if_false, hfirst]
  split
  · cases legacy <;> rfl
  · cases data <;> rfl

theorem header_idempotent_iff (data : Bytes) (legacy : Bool) :
    Idempotent (new data legacy) ↔ settles data legacy := by
  cases data with
  | nil => exact iff_of_true (idempotent_of_settled (settled_of_end rfl rfl)) rfl
  | cons tag data =>
      have hfirst := readHeader_first (rfl : new (tag :: data) legacy = _)
      by_cases htag : tag = headerTag
      · rw [if_neg (not_not_intro htag)] at hfirst
        cases data with
        | nil =>
            refine iff_of_true (idempotent_of_settled ?_) rfl
            rw [hfirst]
            exact settled_of_end rfl rfl
        | cons version data =>
            dsimp only at hfirst
            by_cases hversion : wireFormatVersion < version
            · rw [if_pos hversion] at hfirst
              have hle : ¬ version ≤ wireFormatVersion := UInt8.not_le.mpr hversion
              refine iff_of_false ?_ (by simp [settles, htag, hle])
              cases data with
              | nil =>
                  intro h
                  obtain ⟨hsecond, -⟩ := h.second
                  rw [hfirst, readHeader_at_end rfl rfl] at hsecond
                  cases hsecond
              | cons next data =>
                  refine not_idempotent ?_ ?_ ?_
                  · rw [hfirst]
                    exact nofun
                  · rw [hfirst]
                    rfl
                  · rw [hfirst]
                    exact Nat.succ_lt_succ (Nat.succ_lt_succ (Nat.succ_pos _))
            · rw [if_neg hversion] at hfirst
              have hle : version ≤ wireFormatVersion := UInt8.not_lt.mp hversion
              refine iff_of_true (idempotent_of_settled ?_) (by simp [settles, htag, hle])
              rw [hfirst]
              exact settled_of_read rfl
      · rw [if_pos htag] at hfirst
        cases legacy with
        | true =>
            refine iff_of_true (idempotent_of_settled ?_) ?_
            · rw [hfirst]
              exact settled_of_read rfl
            · cases data <;> simp [settles, htag]
        | false =>
            cases data with
            | nil =>
                refine iff_of_true (idempotent_of_settled ?_) rfl
                rw [hfirst]
                exact settled_of_end rfl rfl
            | cons version data =>
                refine iff_of_false (not_idempotent ?_ ?_ ?_) (by simp [settles, htag])
                · rw [hfirst]
                  exact nofun
                · rw [hfirst]
                  rfl
                · rw [hfirst]
                  exact Nat.succ_lt_succ (Nat.succ_pos _)

/-- A stream of a newer version is refused, then read from its third byte. -/
theorem newer_not_idempotent :
    ((new [headerTag, 2, headerTag, wireFormatVersion] false).readHeaders 2).1 =
      [some false, some true] ∧
    ¬ ∀ data legacy, Idempotent (new data legacy) := by
  refine ⟨by decide, fun h => ?_⟩
  obtain ⟨hsecond, -⟩ := (h [headerTag, 2, headerTag, wireFormatVersion] false).second
  exact absurd hsecond (by decide)

end Deserializer

end Slag.V8
