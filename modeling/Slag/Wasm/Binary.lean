import Mathlib.Data.List.Infix
import Mathlib.Tactic.Linarith
import Slag.Lib.Leb128
import Slag.Lib.Returns
import Slag.Wasm.Module

/-!
The integer readers of the binary decoder, and the type indices decoded with
them.
-/

namespace Slag.Wasm.Binary

open Slag.Leb128

inductive Error where
  | malformed (message : String)
  | unsupported (message : String)
  deriving DecidableEq, Repr

def tooLarge : Error := .malformed "integer too large"

def tooLong : Error := .malformed "integer representation too long"

def unexpectedEnd : Error := .malformed "unexpected end of section or function"

variable (bytes : List UInt8)

def readU8 (pos : Nat) : Except Error (UInt8 × Nat) :=
  match bytes[pos]? with
  | some byte => .ok (byte, pos + 1)
  | none => .error unexpectedEnd

/-- The seven bits of a byte, shifted, added to a value of 64 bits. -/
def orShifted (value : BitVec 64) (byte : UInt8) (shift : Nat) : BitVec 64 :=
  value ||| (BitVec.ofNat 64 (byte &&& 0x7f).toNat <<< shift)

def readLebLoop (maxBytes : Nat) : Nat → Nat → Nat → Nat → BitVec 64 →
    Except Error (BitVec 64 × Nat)
  | 0, _, _, _, _ => .error tooLong
  | left + 1, index, pos, shift, value => do
      let (byte, pos) ← readU8 bytes pos
      let value := orShifted value byte shift
      if byte &&& 0x80 = 0 then
        -- The tenth byte of a u64 carries only bit 63.
        if maxBytes = 10 ∧ index + 1 = 10 ∧ byte &&& 0x7e ≠ 0 then throw tooLarge
        else return (value, pos)
      else if index + 1 = maxBytes then throw tooLong
      else readLebLoop maxBytes left (index + 1) pos (shift + 7) value

/-- An unsigned LEB128 of at most so many bytes. -/
def readLeb (pos maxBytes : Nat) : Except Error (BitVec 64 × Nat) :=
  readLebLoop bytes maxBytes maxBytes 0 pos 0 0

def readU32 (pos : Nat) : Except Error (Nat × Nat) := do
  let (value, pos) ← readLeb bytes pos 5
  if 2 ^ 32 - 1 < value.toNat then throw tooLarge
  return (value.toNat, pos)

def readU64 (pos : Nat) : Except Error (Nat × Nat) := do
  let (value, pos) ← readLeb bytes pos 10
  return (value.toNat, pos)

def readSignedLoop (maxBytes : Nat) (strict : Bool) : Nat → Nat → Nat → Nat → BitVec 64 →
    Except Error (Int × Nat)
  | 0, _, _, _, _ => .error tooLong
  | left + 1, index, pos, shift, value => do
      let (byte, pos) ← readU8 bytes pos
      let value := orShifted value byte shift
      let shift := shift + 7
      if byte &&& 0x80 = 0 then
        -- The unused bits of the last byte must be copies of the sign.
        if strict ∧ index + 1 = maxBytes ∧ byte ≠ 0x00 ∧ byte ≠ 0x7f then throw tooLarge
        else if shift < 64 ∧ byte &&& 0x40 ≠ 0 then
          return ((value ||| (BitVec.allOnes 64 <<< shift)).toInt, pos)
        else return (value.toInt, pos)
      else if index + 1 = maxBytes then throw tooLong
      else readSignedLoop maxBytes strict left (index + 1) pos shift value

/-- The last of ten bytes is checked. -/
def readS64 (pos : Nat) : Except Error (Int × Nat) :=
  readSignedLoop bytes 10 true 10 0 pos 0 0

/-- At most five bytes, the last of which is not checked. -/
def readS33 (pos : Nat) : Except Error (Int × Nat) :=
  readSignedLoop bytes 5 false 5 0 pos 0 0

def readS32 (pos : Nat) : Except Error (Int × Nat) := do
  let (value, pos) ← readS33 bytes pos
  if ¬ (-2 ^ 31 ≤ value ∧ value ≤ 2 ^ 31 - 1) then throw tooLarge
  return (value, pos)

/-- The abstract heap type a negative index encodes. -/
def heapTypeFromS33 (index : Int) : Option HeapType :=
  if index = -0x10 then some .func
  else if index = -0x11 then some .external
  else if index = -0x12 then some .any
  else if index = -0x13 then some .eq
  else if index = -0x14 then some .i31
  else if index = -0x15 then some .struct
  else if index = -0x16 then some .array
  else if index = -0x17 then some .exn
  else if index = -0x0f then some .none
  else if index = -0x0e then some .noExternal
  else if index = -0x0d then some .noFunc
  else if index = -0x0c then some .noExn
  else none

/-- The cast of an index to 32 bits. -/
def asU32 (index : Int) : Nat :=
  (index % 2 ^ 32).toNat

def decodeHeapType (pos : Nat) : Except Error (HeapType × Nat) := do
  let (index, pos) ← readS33 bytes pos
  if index < 0 then
    match heapTypeFromS33 index with
    | some heap => return (heap, pos)
    | none => throw (.unsupported "abstract heap type")
  else return (.type (asU32 index), pos)

def abstractHeapByte (byte : UInt8) : Option HeapType :=
  if byte < 0x80 then
    heapTypeFromS33 (if byte &&& 0x40 ≠ 0 then (byte.toNat : Int) - 128 else byte.toNat)
  else none

def valTypeFromByte (byte : UInt8) : Option ValType :=
  match byte with
  | 0x7f => some .i32
  | 0x7e => some .i64
  | 0x7d => some .f32
  | 0x7c => some .f64
  | 0x7b => some .v128
  | 0x70 => some (.ref ⟨true, .func⟩)
  | 0x6f => some (.ref ⟨true, .external⟩)
  | 0x69 => some (.ref ⟨true, .exn⟩)
  | _ => none

def decodeValtype (pos : Nat) : Except Error (ValType × Nat) := do
  let (byte, pos) ← readU8 bytes pos
  if byte = 0x63 ∨ byte = 0x64 then
    let (heap, pos) ← decodeHeapType bytes pos
    return (.ref ⟨byte == 0x63, heap⟩, pos)
  else
    match abstractHeapByte byte with
    | some heap => return (.ref ⟨true, heap⟩, pos)
    | none =>
        match valTypeFromByte byte with
        | some ty => return (ty, pos)
        | none => throw (.malformed "malformed value type")

/-- The bytes of value types in a block type. -/
def startsValtype (byte : UInt8) : Bool :=
  decide ((0x7b ≤ byte ∧ byte ≤ 0x7f) ∨ (0x69 ≤ byte ∧ byte ≤ 0x74)) || byte == 0x63 || byte == 0x64

def decodeBlockType (pos : Nat) : Except Error (BlockType × Nat) :=
  match bytes[pos]? with
  | none => .error unexpectedEnd
  | some byte =>
      if byte = 0x40 then .ok (.empty, pos + 1)
      else if startsValtype byte then do
        let (ty, pos) ← decodeValtype bytes pos
        return (.val ty, pos)
      else do
        let (index, pos) ← readS33 bytes pos
        if index < 0 then throw (.malformed "malformed block type")
        return (.type (asU32 index), pos)

/-! ## The loops read the grammar -/

theorem and_low {byte : UInt8} : (byte &&& 0x7f).toNat = byte.toNat % 2 ^ 7 := by
  rw [UInt8.toNat_and]
  exact Nat.and_two_pow_sub_one_eq_mod _ 7

theorem bits_of_byte : ∀ n < 256, (n &&& 128 = 0 ↔ n < 2 ^ 7) ∧ (n < 2 ^ 7 →
    (n &&& 64 = 0 ↔ n < 2 ^ 6) ∧ (n &&& 126 = 0 ↔ n < 2)) := by
  decide +kernel

theorem and_eq_zero_iff {byte mask : UInt8} :
    byte &&& mask = 0 ↔ byte.toNat &&& mask.toNat = 0 := by
  rw [← UInt8.toNat_inj, UInt8.toNat_and]
  rfl

theorem top_clear_iff {byte : UInt8} : byte &&& 0x80 = 0 ↔ byte.toNat < 2 ^ 7 :=
  and_eq_zero_iff.trans (bits_of_byte _ byte.toNat_lt).1

theorem sign_clear_iff {byte : UInt8} (h : byte.toNat < 2 ^ 7) :
    byte &&& 0x40 = 0 ↔ byte.toNat < 2 ^ 6 :=
  and_eq_zero_iff.trans ((bits_of_byte _ byte.toNat_lt).2 h).1

theorem only_lowest_iff {byte : UInt8} (h : byte.toNat < 2 ^ 7) :
    byte &&& 0x7e = 0 ↔ byte.toNat < 2 :=
  and_eq_zero_iff.trans ((bits_of_byte _ byte.toNat_lt).2 h).2

/-- One iteration adds the next group. -/
theorem orShifted_magnitude {pre : List UInt8} {byte : UInt8} (h : pre.length ≤ 9) :
    orShifted (BitVec.ofNat 64 (magnitude pre)) byte (7 * pre.length) =
      BitVec.ofNat 64 (magnitude (pre ++ [byte])) := by
  have hpre := magnitude_lt pre
  have hpow : 2 ^ (7 * pre.length) < 2 ^ 64 := Nat.pow_lt_pow_right (by decide) (by omega)
  apply BitVec.eq_of_toNat_eq
  rw [orShifted, BitVec.toNat_or, BitVec.toNat_shiftLeft, BitVec.toNat_ofNat, BitVec.toNat_ofNat,
    BitVec.toNat_ofNat, and_low, magnitude_append, magnitude, magnitude, Nat.mul_zero, Nat.add_zero,
    Nat.mod_eq_of_lt (Nat.lt_trans hpre hpow)]
  have hlow : byte.toNat % 2 ^ 7 % 2 ^ 64 = byte.toNat % 2 ^ 7 :=
    Nat.mod_eq_of_lt (Nat.lt_trans (Nat.mod_lt _ (by decide)) (by decide))
  rw [hlow, Nat.shiftLeft_eq, Nat.mul_comm]
  generalize byte.toNat % 2 ^ 7 = low
  -- The shifted group cut to 64 bits is a multiple of the weight it starts at.
  have hsplit : 2 ^ 64 = 2 ^ (7 * pre.length) * 2 ^ (64 - 7 * pre.length) := by
    rw [← Nat.pow_add]
    congr 1
    omega
  have hcut : 2 ^ (7 * pre.length) * low % 2 ^ 64 =
      2 ^ (7 * pre.length) * (low % 2 ^ (64 - 7 * pre.length)) := by
    rw [hsplit, Nat.mul_mod_mul_left]
  have hor := Nat.two_pow_add_eq_or_of_lt hpre (low % 2 ^ (64 - 7 * pre.length))
  rw [hcut, Nat.or_comm, ← hor, ← hcut, Nat.add_comm, Nat.add_mod (magnitude pre)]
  have hsum : magnitude pre + 2 ^ (7 * pre.length) * low % 2 ^ 64 < 2 ^ 64 := by
    rw [hcut]
    have hlt : low % 2 ^ (64 - 7 * pre.length) + 1 ≤ 2 ^ (64 - 7 * pre.length) :=
      Nat.mod_lt _ (by positivity)
    have hmul := Nat.mul_le_mul_left (2 ^ (7 * pre.length)) hlt
    rw [← hsplit, Nat.mul_add, Nat.mul_one] at hmul
    omega
  rw [Nat.mod_eq_of_lt (Nat.lt_trans hpre hpow), Nat.mod_eq_of_lt hsum]

/-- The bytes begin with an encoding that satisfies a predicate. -/
def Begins (l : List UInt8) (p : List UInt8 → Prop) : Prop :=
  ∃ enc, Shape enc ∧ enc <+: l ∧ p enc

theorem not_begins_nil {p : List UInt8 → Prop} : ¬ Begins [] p := by
  rintro ⟨enc, hshape, hprefix, -⟩
  rw [List.prefix_nil.mp hprefix] at hshape
  cases hshape

theorem begins_last {b : UInt8} {l : List UInt8} {p : List UInt8 → Prop} (hb : b.toNat < 2 ^ 7) :
    Begins (b :: l) p ↔ p [b] := by
  constructor
  · rintro ⟨enc, hshape, hprefix, hp⟩
    cases hshape with
    | last _ =>
        obtain ⟨rfl, -⟩ := List.cons_prefix_cons.mp hprefix
        exact hp
    | more hmore _ =>
        obtain ⟨rfl, -⟩ := List.cons_prefix_cons.mp hprefix
        omega
  · intro hp
    exact ⟨[b], .last hb, List.cons_prefix_cons.mpr ⟨rfl, List.nil_prefix⟩, hp⟩

theorem begins_more {b : UInt8} {l : List UInt8} {p : List UInt8 → Prop} (hb : 2 ^ 7 ≤ b.toNat) :
    Begins (b :: l) p ↔ Begins l fun enc => p (b :: enc) := by
  constructor
  · rintro ⟨enc, hshape, hprefix, hp⟩
    cases hshape with
    | last hlast =>
        obtain ⟨rfl, -⟩ := List.cons_prefix_cons.mp hprefix
        omega
    | more _ hshape =>
        obtain ⟨rfl, htail⟩ := List.cons_prefix_cons.mp hprefix
        exact ⟨_, hshape, htail, hp⟩
  · rintro ⟨enc, hshape, hprefix, hp⟩
    exact ⟨b :: enc, .more hb hshape, List.cons_prefix_cons.mpr ⟨rfl, hprefix⟩, hp⟩

theorem drop_of_getElem {bytes : List UInt8} {pos : Nat} {byte : UInt8}
    (h : bytes[pos]? = some byte) : bytes.drop pos = byte :: bytes.drop (pos + 1) := by
  obtain ⟨hlt, rfl⟩ := List.getElem?_eq_some_iff.mp h
  exact List.drop_eq_getElem_cons hlt

theorem drop_of_end {bytes : List UInt8} {pos : Nat} (h : bytes[pos]? = none) :
    bytes.drop pos = [] :=
  List.drop_eq_nil_of_le (List.getElem?_eq_none_iff.mp h)

variable {bytes}

theorem magnitude_last {pre : List UInt8} {byte : UInt8} (hlast : byte.toNat < 2 ^ 7) :
    magnitude (pre ++ [byte]) = magnitude pre + 2 ^ (7 * pre.length) * byte.toNat := by
  rw [magnitude_append, magnitude, magnitude, Nat.mod_eq_of_lt hlast, Nat.mul_zero, Nat.add_zero]

/-- The loop reads the rest of an encoding of which some bytes were read. -/
theorem readLebLoop_iff {maxBytes left : Nat} {pre : List UInt8} {pos pos' : Nat} {v : BitVec 64}
    (hmax : maxBytes ≤ 10) (hleft : pre.length + left = maxBytes) :
    readLebLoop bytes maxBytes left pre.length pos (7 * pre.length)
        (BitVec.ofNat 64 (magnitude pre)) = .ok (v, pos') ↔
      Begins (bytes.drop pos) fun enc => pos' = pos + enc.length ∧
        pre.length + enc.length ≤ maxBytes ∧ (maxBytes = 10 → magnitude (pre ++ enc) < 2 ^ 64) ∧
        v = BitVec.ofNat 64 (magnitude (pre ++ enc)) := by
  induction left generalizing pre pos with
  | zero =>
      refine ⟨by rintro ⟨⟩, ?_⟩
      rintro ⟨enc, hshape, -, -, hlen, -⟩
      have := hshape.length_pos
      omega
  | succ left ih =>
      rw [readLebLoop, readU8]
      cases hbyte : bytes[pos]? with
      | none =>
          rw [drop_of_end hbyte]
          exact ⟨by rintro ⟨⟩, fun h => absurd h not_begins_nil⟩
      | some byte =>
          rw [drop_of_getElem hbyte]
          change (if byte &&& 0x80 = 0 then _ else _) = _ ↔ _
          rw [orShifted_magnitude (by omega)]
          by_cases hlast : byte.toNat < 2 ^ 7
          · rw [if_pos (top_clear_iff.mpr hlast), begins_last hlast]
            -- The check of the tenth byte is the bound on the number.
            have hfits : ¬ (maxBytes = 10 ∧ pre.length + 1 = 10 ∧ byte &&& 0x7e ≠ 0) ↔
                (maxBytes = 10 → magnitude (pre ++ [byte]) < 2 ^ 64) := by
              have hpre := magnitude_lt pre
              rw [magnitude_last hlast, ne_eq, only_lowest_iff hlast]
              by_cases hten : pre.length + 1 = 10
              · obtain hnine : pre.length = 9 := by omega
                rw [hnine] at hpre ⊢
                omega
              · refine ⟨fun _ hmax10 => ?_, fun _ h => hten h.2.1⟩
                have hpow : 2 ^ (7 * pre.length) ≤ 2 ^ 56 :=
                  Nat.pow_le_pow_right (by decide) (by omega)
                nlinarith
            by_cases hcheck : maxBytes = 10 ∧ pre.length + 1 = 10 ∧ byte &&& 0x7e ≠ 0
            · rw [if_pos hcheck]
              refine ⟨by rintro ⟨⟩, fun h => ?_⟩
              exact absurd hcheck (hfits.mpr h.2.2.1)
            · rw [if_neg hcheck]
              constructor
              · intro h
                cases h
                exact ⟨rfl, by simp only [List.length_singleton]; omega, hfits.mp hcheck, rfl⟩
              · rintro ⟨rfl, -, -, rfl⟩
                rfl
          · rw [if_neg (top_clear_iff.not.mpr hlast), begins_more (by omega)]
            by_cases hfull : pre.length + 1 = maxBytes
            · rw [if_pos hfull]
              refine ⟨by rintro ⟨⟩, ?_⟩
              rintro ⟨enc, hshape, -, -, hlen, -⟩
              have := hshape.length_pos
              simp only [List.length_cons] at hlen
              omega
            · rw [if_neg hfull]
              have hrest := @ih (pre ++ [byte]) (pos + 1) (by
                simp only [List.length_append, List.length_singleton]
                omega)
              simp only [List.length_append, List.length_singleton, Nat.mul_add, Nat.mul_one,
                List.append_assoc, List.singleton_append] at hrest
              rw [hrest]
              unfold Begins
              simp only [List.length_cons, Nat.add_assoc, Nat.add_comm 1]

theorem signedValue_append {pre : List UInt8} {byte : UInt8} (hlast : byte.toNat < 2 ^ 7) :
    signedValue (pre ++ [byte]) = if byte.toNat < 2 ^ 6 then (magnitude (pre ++ [byte]) : Int)
      else magnitude (pre ++ [byte]) - 2 ^ (7 * pre.length + 7) := by
  have hpre := magnitude_lt pre
  have hhalf : 2 ^ (7 * pre.length + 7 - 1) = 2 ^ (7 * pre.length) * 2 ^ 6 := Nat.pow_add _ _ _
  have hiff : magnitude (pre ++ [byte]) < 2 ^ (7 * pre.length + 7 - 1) ↔ byte.toNat < 2 ^ 6 := by
    rw [hhalf, magnitude_last hlast]
    constructor
    · intro h
      by_contra hge
      have := Nat.mul_le_mul_left (2 ^ (7 * pre.length)) (Nat.le_of_not_lt hge)
      omega
    · intro h
      have := Nat.mul_le_mul_left (2 ^ (7 * pre.length)) (Nat.succ_le_of_lt h)
      rw [Nat.mul_succ] at this
      omega
  simp only [signedValue, List.length_append, List.length_singleton, Nat.mul_add, Nat.mul_one, hiff]

/-- Extending the sign of at most nine groups. -/
theorem toInt_extended {pre : List UInt8} {byte : UInt8} (hlast : byte.toNat < 2 ^ 7)
    (hlen : pre.length ≤ 8) :
    (if 7 * pre.length + 7 < 64 ∧ byte &&& 0x40 ≠ 0 then
      (BitVec.ofNat 64 (magnitude (pre ++ [byte])) |||
        (BitVec.allOnes 64 <<< (7 * pre.length + 7))).toInt
    else (BitVec.ofNat 64 (magnitude (pre ++ [byte]))).toInt) = signedValue (pre ++ [byte]) := by
  have hmag := magnitude_lt (pre ++ [byte])
  simp only [List.length_append, List.length_singleton, Nat.mul_add, Nat.mul_one] at hmag
  have hpow : 2 ^ (7 * pre.length + 7) ≤ 2 ^ 63 := Nat.pow_le_pow_right (by decide) (by omega)
  have hsplit : 2 ^ 64 = 2 ^ (7 * pre.length + 7) * 2 ^ (64 - (7 * pre.length + 7)) := by
    rw [← Nat.pow_add]
    congr 1
    omega
  have hhalf : 2 ^ (7 * pre.length + 7) = 2 ^ (7 * pre.length) * 2 ^ 7 := Nat.pow_add _ _ _
  have htoNat : (BitVec.ofNat 64 (magnitude (pre ++ [byte]))).toNat = magnitude (pre ++ [byte]) := by
    rw [BitVec.toNat_ofNat]
    exact Nat.mod_eq_of_lt (by omega)
  rw [signedValue_append hlast]
  by_cases hsign : byte.toNat < 2 ^ 6
  · rw [if_neg fun h => h.2 ((sign_clear_iff hlast).mpr hsign), if_pos hsign, BitVec.toInt_eq_toNat_cond,
      htoNat, if_pos]
    have hless := Nat.mul_le_mul_left (2 ^ (7 * pre.length)) (Nat.succ_le_of_lt hsign)
    have hpre := magnitude_lt pre
    rw [magnitude_last hlast]
    rw [Nat.mul_succ] at hless
    omega
  · rw [if_pos ⟨by omega, (sign_clear_iff hlast).not.mpr hsign⟩, if_neg hsign,
      BitVec.toInt_eq_toNat_cond]
    have hones : (BitVec.allOnes 64 <<< (7 * pre.length + 7)).toNat =
        2 ^ (7 * pre.length + 7) * (2 ^ (64 - (7 * pre.length + 7)) - 1) := by
      rw [BitVec.toNat_shiftLeft, BitVec.toNat_allOnes, Nat.shiftLeft_eq, Nat.mul_comm]
      have hone : 1 ≤ 2 ^ (64 - (7 * pre.length + 7)) := Nat.one_le_two_pow
      have hless : 2 ^ (64 - (7 * pre.length + 7)) ≤ 2 ^ 64 := Nat.pow_le_pow_right (by decide) (by omega)
      conv_lhs => rw [hsplit, Nat.mul_mod_mul_left]
      congr 1
      generalize 2 ^ (7 * pre.length + 7) = weight at *
      generalize 2 ^ (64 - (7 * pre.length + 7)) = cut at *
      have hw : 1 ≤ weight := by
        rcases Nat.eq_zero_or_pos weight with h0 | h0
        · rw [h0] at hsplit
          omega
        · exact h0
      have hdecomp : weight * cut - 1 = (weight - 1) * cut + (cut - 1) := by
        rw [Nat.sub_mul, Nat.one_mul]
        have := Nat.le_mul_of_pos_left cut hw
        omega
      rw [hdecomp, Nat.add_comm, Nat.add_mul_mod_self_right, Nat.mod_eq_of_lt (by omega)]
    have hor : (BitVec.ofNat 64 (magnitude (pre ++ [byte])) |||
        (BitVec.allOnes 64 <<< (7 * pre.length + 7))).toNat =
        2 ^ 64 - 2 ^ (7 * pre.length + 7) + magnitude (pre ++ [byte]) := by
      rw [BitVec.toNat_or, htoNat, hones, Nat.or_comm, ← Nat.two_pow_add_eq_or_of_lt hmag,
        Nat.mul_sub, ← hsplit, Nat.mul_one]
    have hgreat := Nat.mul_le_mul_left (2 ^ (7 * pre.length)) (Nat.le_of_not_lt hsign)
    have hlarge : 2 ^ (7 * pre.length) * 2 ^ 6 ≤ magnitude (pre ++ [byte]) := by
      rw [magnitude_last hlast]
      omega
    have hcast : ((2 ^ (7 * pre.length + 7) : Nat) : Int) = 2 ^ (7 * pre.length + 7) := by
      push_cast
      rfl
    rw [hor, if_neg (by omega), ← hcast]
    omega

/-- The tenth group carries only the sign. -/
theorem toInt_tenth {pre : List UInt8} {byte : UInt8} (hlen : pre.length = 9)
    (hbyte : byte = 0x00 ∨ byte = 0x7f) :
    (BitVec.ofNat 64 (magnitude (pre ++ [byte]))).toInt = signedValue (pre ++ [byte]) := by
  have hpre := magnitude_lt pre
  have hlast : byte.toNat < 2 ^ 7 := by
    rcases hbyte with rfl | rfl <;> decide
  rw [hlen] at hpre
  have hvalue := @signedValue_append pre byte hlast
  rw [magnitude_last hlast, hlen] at hvalue
  rw [hvalue, magnitude_last hlast, hlen, BitVec.toInt_eq_toNat_cond, BitVec.toNat_ofNat]
  rcases hbyte with rfl | rfl
  · have hval : (0x00 : UInt8).toNat = 0 := rfl
    rw [hval, Nat.mod_eq_of_lt (by omega), if_pos (by omega)]
    rfl
  · have hval : (0x7f : UInt8).toNat = 127 := rfl
    rw [hval, show magnitude pre + 2 ^ (7 * 9) * 127 = magnitude pre + 2 ^ 63 + 2 ^ 64 * 63 by omega,
      Nat.add_mul_mod_self_left, Nat.mod_eq_of_lt (by omega), if_neg (by omega), if_neg (by decide)]
    push_cast
    omega

/-- The check of the tenth byte is the bound on the number. -/
theorem last_checked_iff {pre : List UInt8} {byte : UInt8} (hlast : byte.toNat < 2 ^ 7)
    (hlen : pre.length ≤ 9) :
    ¬ (pre.length + 1 = 10 ∧ byte ≠ 0x00 ∧ byte ≠ 0x7f) ↔
      -2 ^ 63 ≤ signedValue (pre ++ [byte]) ∧ signedValue (pre ++ [byte]) < 2 ^ 63 := by
  have hpre := magnitude_lt pre
  rw [signedValue_append hlast, magnitude_last hlast]
  by_cases hten : pre.length = 9
  · rw [hten] at hpre ⊢
    have hzero : byte = 0x00 ↔ byte.toNat = 0 := UInt8.toNat_inj.symm
    have hones : byte = 0x7f ↔ byte.toNat = 127 := UInt8.toNat_inj.symm
    rw [ne_eq, ne_eq, hzero, hones]
    have hcases : ¬ (9 + 1 = 10 ∧ ¬ byte.toNat = 0 ∧ ¬ byte.toNat = 127) ↔
        byte.toNat = 0 ∨ byte.toNat = 127 := by omega
    rw [hcases]
    split <;> constructor <;> intro h <;> push_cast at h ⊢ <;> omega
  · refine ⟨fun _ => ?_, fun _ h => hten (by omega)⟩
    have hpow : 2 ^ (7 * pre.length) ≤ 2 ^ 56 := Nat.pow_le_pow_right (by decide) (by omega)
    have hweight : ((2 ^ (7 * pre.length + 7) : Nat) : Int) = 2 ^ (7 * pre.length + 7) := by
      push_cast
      rfl
    have hsplit : 2 ^ (7 * pre.length + 7) = 2 ^ (7 * pre.length) * 2 ^ 7 := Nat.pow_add _ _ _
    rw [← hweight]
    split
    · rename_i hsmall
      have hgroup := Nat.mul_le_mul_left (2 ^ (7 * pre.length)) (Nat.succ_le_of_lt hsmall)
      rw [Nat.mul_succ] at hgroup
      omega
    · rename_i hlarge
      have hgroup := Nat.mul_le_mul_left (2 ^ (7 * pre.length)) (Nat.succ_le_of_lt hlast)
      have hsign := Nat.mul_le_mul_left (2 ^ (7 * pre.length)) (Nat.le_of_not_lt hlarge)
      rw [Nat.mul_succ] at hgroup
      omega

/-- The signed loop reads the rest of an encoding of which some bytes were read. -/
theorem readSignedLoop_iff {maxBytes left : Nat} {strict : Bool} {pre : List UInt8} {pos pos' : Nat}
    {v : Int} (hmax : maxBytes ≤ 9 ∧ strict = false ∨ maxBytes = 10 ∧ strict = true)
    (hleft : pre.length + left = maxBytes) :
    readSignedLoop bytes maxBytes strict left pre.length pos (7 * pre.length)
        (BitVec.ofNat 64 (magnitude pre)) = .ok (v, pos') ↔
      Begins (bytes.drop pos) fun enc => pos' = pos + enc.length ∧
        pre.length + enc.length ≤ maxBytes ∧
        (strict = true → -2 ^ 63 ≤ signedValue (pre ++ enc) ∧ signedValue (pre ++ enc) < 2 ^ 63) ∧
        v = signedValue (pre ++ enc) := by
  induction left generalizing pre pos with
  | zero =>
      refine ⟨nofun, ?_⟩
      rintro ⟨enc, hshape, -, -, hlen, -⟩
      have := hshape.length_pos
      omega
  | succ left ih =>
      rw [readSignedLoop, readU8]
      cases hbyte : bytes[pos]? with
      | none =>
          rw [drop_of_end hbyte]
          exact ⟨nofun, fun h => absurd h not_begins_nil⟩
      | some byte =>
          rw [drop_of_getElem hbyte]
          change (if byte &&& 0x80 = 0 then _ else _) = _ ↔ _
          rw [orShifted_magnitude (by omega)]
          by_cases hlast : byte.toNat < 2 ^ 7
          · rw [if_pos (top_clear_iff.mpr hlast), begins_last hlast]
            have hfits : ¬ (strict = true ∧ pre.length + 1 = maxBytes ∧ byte ≠ 0x00 ∧ byte ≠ 0x7f) ↔
                (strict = true → -2 ^ 63 ≤ signedValue (pre ++ [byte]) ∧
                  signedValue (pre ++ [byte]) < 2 ^ 63) := by
              rw [← last_checked_iff hlast (by omega)]
              rcases hmax with ⟨-, rfl⟩ | ⟨rfl, rfl⟩
              · simp only [Bool.false_eq_true, false_and, not_false_eq_true, false_imp_iff]
              · simp only [true_and, true_imp_iff]
            by_cases hcheck : strict = true ∧ pre.length + 1 = maxBytes ∧ byte ≠ 0x00 ∧ byte ≠ 0x7f
            · rw [if_pos hcheck]
              refine ⟨nofun, fun h => ?_⟩
              exact absurd hcheck (hfits.mpr h.2.2.1)
            · rw [if_neg hcheck]
              have hvalue : (if 7 * pre.length + 7 < 64 ∧ byte &&& 0x40 ≠ 0 then
                  (BitVec.ofNat 64 (magnitude (pre ++ [byte])) |||
                    (BitVec.allOnes 64 <<< (7 * pre.length + 7))).toInt
                else (BitVec.ofNat 64 (magnitude (pre ++ [byte]))).toInt) =
                  signedValue (pre ++ [byte]) := by
                by_cases hlen : pre.length ≤ 8
                · exact toInt_extended hlast hlen
                · rw [if_neg (by omega)]
                  refine toInt_tenth (by omega) ?_
                  by_contra hother
                  exact hcheck ⟨by rcases hmax with h | h; omega; exact h.2, by omega,
                    fun h => hother (.inl h), fun h => hother (.inr h)⟩
              have hpushed : (if 7 * pre.length + 7 < 64 ∧ byte &&& 0x40 ≠ 0 then
                  Except.ok ((BitVec.ofNat 64 (magnitude (pre ++ [byte])) |||
                    (BitVec.allOnes 64 <<< (7 * pre.length + 7))).toInt, pos + 1)
                else Except.ok ((BitVec.ofNat 64 (magnitude (pre ++ [byte]))).toInt, pos + 1)) =
                  (Except.ok (signedValue (pre ++ [byte]), pos + 1) : Except Error (Int × Nat)) := by
                rw [← hvalue]
                split <;> rfl
              refine (Eq.congr hpushed rfl).trans ⟨?_, ?_⟩
              · intro h
                cases h
                exact ⟨rfl, by simp only [List.length_singleton]; omega, hfits.mp hcheck, rfl⟩
              · rintro ⟨rfl, -, -, rfl⟩
                rfl
          · rw [if_neg (top_clear_iff.not.mpr hlast), begins_more (by omega)]
            by_cases hfull : pre.length + 1 = maxBytes
            · rw [if_pos hfull]
              refine ⟨nofun, ?_⟩
              rintro ⟨enc, hshape, -, -, hlen, -⟩
              have := hshape.length_pos
              simp only [List.length_cons] at hlen
              omega
            · rw [if_neg hfull]
              have hrest := @ih (pre ++ [byte]) (pos + 1) (by
                simp only [List.length_append, List.length_singleton]
                omega)
              simp only [List.length_append, List.length_singleton, Nat.mul_add, Nat.mul_one,
                List.append_assoc, List.singleton_append] at hrest
              rw [hrest]
              unfold Begins
              simp only [List.length_cons, Nat.add_assoc, Nat.add_comm 1]

/-! ## The readers are exact -/

/-- A reader gives a number, and goes behind it, exactly where an encoding of
the number begins. -/
def Exact {α : Type} (read : List UInt8 → Nat → Except Error (α × Nat))
    (grammar : List UInt8 → α → Prop) (bytes : List UInt8) (pos : Nat) : Prop :=
  ∀ v pos', read bytes pos = .ok (v, pos') ↔
    ∃ enc, grammar enc v ∧ enc <+: bytes.drop pos ∧ pos' = pos + enc.length

theorem readLeb_iff {maxBytes pos pos' : Nat} {v : BitVec 64} (hmax : maxBytes ≤ 10) :
    readLeb bytes pos maxBytes = .ok (v, pos') ↔
      Begins (bytes.drop pos) fun enc => pos' = pos + enc.length ∧ enc.length ≤ maxBytes ∧
        (maxBytes = 10 → magnitude enc < 2 ^ 64) ∧ v = BitVec.ofNat 64 (magnitude enc) := by
  have h := @readLebLoop_iff bytes maxBytes maxBytes [] pos pos' v hmax (Nat.zero_add maxBytes)
  simp only [List.length_nil, List.nil_append, Nat.zero_add] at h
  exact h

theorem readU32_exact (pos : Nat) : Exact readU32 (Unsigned 32) bytes pos := by
  intro v pos'
  unfold readU32
  rw [bind_eq_ok]
  constructor
  · rintro ⟨⟨w, p⟩, hread, hcheck⟩
    obtain ⟨enc, hshape, hprefix, rfl, hlen, -, rfl⟩ := (readLeb_iff (by decide)).mp hread
    have hlt := magnitude_lt enc
    have hpow : 2 ^ (7 * enc.length) ≤ 2 ^ 35 := Nat.pow_le_pow_right (by decide) (by omega)
    have hnat : (BitVec.ofNat 64 (magnitude enc)).toNat = magnitude enc := by
      rw [BitVec.toNat_ofNat]
      exact Nat.mod_eq_of_lt (by omega)
    simp only [hnat] at hcheck
    by_cases hbig : 2 ^ 32 - 1 < magnitude enc
    · rw [if_pos hbig] at hcheck
      cases hcheck
    · rw [if_neg hbig] at hcheck
      cases hcheck
      exact ⟨enc, unsigned_of_shape hshape (by omega) (by omega), hprefix, rfl⟩
  · rintro ⟨enc, hgrammar, hprefix, rfl⟩
    obtain ⟨hshape, rfl, hlen, hlt⟩ := hgrammar.spec (by decide)
    have hnat : (BitVec.ofNat 64 (magnitude enc)).toNat = magnitude enc := by
      rw [BitVec.toNat_ofNat]
      exact Nat.mod_eq_of_lt (by omega)
    refine ⟨_, (readLeb_iff (by decide)).mpr ⟨enc, hshape, hprefix, rfl, by omega, by omega, rfl⟩, ?_⟩
    simp only [hnat]
    rw [if_neg (by omega)]
    rfl

theorem readU64_exact (pos : Nat) : Exact readU64 (Unsigned 64) bytes pos := by
  intro v pos'
  unfold readU64
  rw [bind_eq_ok]
  constructor
  · rintro ⟨⟨w, p⟩, hread, hcheck⟩
    obtain ⟨enc, hshape, hprefix, rfl, hlen, hlt, rfl⟩ := (readLeb_iff (by decide)).mp hread
    cases hcheck
    rw [BitVec.toNat_ofNat, Nat.mod_eq_of_lt (hlt rfl)]
    exact ⟨enc, unsigned_of_shape hshape (by omega) (hlt rfl), hprefix, rfl⟩
  · rintro ⟨enc, hgrammar, hprefix, rfl⟩
    obtain ⟨hshape, rfl, hlen, hlt⟩ := hgrammar.spec (by decide)
    refine ⟨_, (readLeb_iff (by decide)).mpr
      ⟨enc, hshape, hprefix, rfl, by omega, fun _ => hlt, rfl⟩, ?_⟩
    simp only [BitVec.toNat_ofNat, Nat.mod_eq_of_lt hlt]
    rfl

theorem readS33_iff {pos pos' : Nat} {v : Int} :
    readS33 bytes pos = .ok (v, pos') ↔
      Begins (bytes.drop pos) fun enc => pos' = pos + enc.length ∧ enc.length ≤ 5 ∧
        v = signedValue enc := by
  have h := @readSignedLoop_iff bytes 5 5 false [] pos pos' v (.inl ⟨by decide, rfl⟩) (Nat.zero_add 5)
  simp only [List.length_nil, List.nil_append, Nat.zero_add, Bool.false_eq_true, false_imp_iff,
    true_and] at h
  exact h

theorem readS64_exact (pos : Nat) : Exact readS64 (Signed 64) bytes pos := by
  intro v pos'
  have h := @readSignedLoop_iff bytes 10 10 true [] pos pos' v (.inr ⟨rfl, rfl⟩) (Nat.zero_add 10)
  simp only [List.length_nil, List.nil_append, Nat.zero_add, true_imp_iff] at h
  refine h.trans ⟨?_, ?_⟩
  · rintro ⟨enc, hshape, hprefix, rfl, hlen, ⟨hlow, hhigh⟩, rfl⟩
    exact ⟨enc, signed_of_shape hshape (by omega) hlow hhigh, hprefix, rfl⟩
  · rintro ⟨enc, hgrammar, hprefix, rfl⟩
    obtain ⟨hshape, rfl, hlen, hlow, hhigh⟩ := hgrammar.spec (by decide)
    exact ⟨enc, hshape, hprefix, rfl, by omega, ⟨hlow, hhigh⟩, rfl⟩

theorem readS32_exact (pos : Nat) : Exact readS32 (Signed 32) bytes pos := by
  intro v pos'
  unfold readS32
  rw [bind_eq_ok]
  constructor
  · rintro ⟨⟨w, p⟩, hread, hcheck⟩
    obtain ⟨enc, hshape, hprefix, rfl, hlen, rfl⟩ := readS33_iff.mp hread
    by_cases hrange : -2 ^ 31 ≤ signedValue enc ∧ signedValue enc ≤ 2 ^ 31 - 1
    · simp only [hrange, not_true_eq_false, if_false, and_self] at hcheck
      cases hcheck
      exact ⟨enc, signed_of_shape hshape (by omega) hrange.1 (by omega), hprefix, rfl⟩
    · simp only [hrange, not_false_eq_true, if_true] at hcheck
      cases hcheck
  · rintro ⟨enc, hgrammar, hprefix, rfl⟩
    obtain ⟨hshape, rfl, hlen, hlow, hhigh⟩ := hgrammar.spec (by decide)
    refine ⟨_, readS33_iff.mpr ⟨enc, hshape, hprefix, rfl, by omega, rfl⟩, ?_⟩
    have hrange : -2 ^ 31 ≤ signedValue enc ∧ signedValue enc ≤ 2 ^ 31 - 1 := ⟨hlow, by omega⟩
    simp only [hrange, not_true_eq_false, if_false, and_self]
    rfl

/-! ## Where the fifth byte of an s33 is not checked -/

theorem signed33_range_iff {pre : List UInt8} {b : UInt8} (hb : b.toNat < 2 ^ 7)
    (hlen : pre.length ≤ 4) :
    -2 ^ 32 ≤ signedValue (pre ++ [b]) ∧ signedValue (pre ++ [b]) < 2 ^ 32 ↔
      ¬ (pre.length = 4 ∧ 0x10 ≤ b.toNat ∧ b.toNat < 0x70) := by
  have hpre := magnitude_lt pre
  have hweight : ((2 ^ (7 * pre.length + 7) : Nat) : Int) = 2 ^ (7 * pre.length + 7) := by
    push_cast
    rfl
  have hsplit : 2 ^ (7 * pre.length + 7) = 2 ^ (7 * pre.length) * 2 ^ 7 := Nat.pow_add _ _ _
  rw [signedValue_append hb, magnitude_last hb]
  by_cases hfour : pre.length = 4
  · rw [hfour] at hpre ⊢
    have hcases : ¬ (4 = 4 ∧ 0x10 ≤ b.toNat ∧ b.toNat < 0x70) ↔
        b.toNat < 0x10 ∨ 0x70 ≤ b.toNat := by omega
    rw [hcases]
    split <;> constructor <;> intro h <;> push_cast at h ⊢ <;> omega
  · refine ⟨fun _ h => hfour h.1, fun _ => ?_⟩
    have hpow : 2 ^ (7 * pre.length) ≤ 2 ^ 21 := Nat.pow_le_pow_right (by decide) (by omega)
    have hgroup := Nat.mul_le_mul_left (2 ^ (7 * pre.length)) (Nat.succ_le_of_lt hb)
    rw [Nat.mul_succ] at hgroup
    rw [← hweight]
    split <;> omega

/-- Four bytes that continue and a fifth with bits above the thirty-third that
are not copies of the sign. -/
def Overlong (bytes : List UInt8) (pos : Nat) : Prop :=
  ∃ pre b, pre ++ [b] <+: bytes.drop pos ∧ pre.length = 4 ∧ (∀ x ∈ pre, 2 ^ 7 ≤ x.toNat) ∧
    0x10 ≤ b.toNat ∧ b.toNat < 0x70

theorem readS33_exact_iff {pos : Nat} :
    Exact readS33 (Signed 33) bytes pos ↔ ¬ Overlong bytes pos := by
  constructor
  · rintro hexact ⟨pre, b, hprefix, hlen, hpre, hlow, hhigh⟩
    have hb : b.toNat < 2 ^ 7 := by omega
    have hread : readS33 bytes pos = .ok (signedValue (pre ++ [b]), pos + (pre ++ [b]).length) :=
      readS33_iff.mpr ⟨pre ++ [b], shape_append hpre hb, hprefix, rfl, by simp [hlen], rfl⟩
    obtain ⟨enc, hgrammar, -, -⟩ := (hexact _ _).mp hread
    obtain ⟨-, -, -, hrange⟩ := hgrammar.spec (by decide)
    exact (signed33_range_iff hb (by omega)).mp hrange ⟨hlen, hlow, hhigh⟩
  · intro hshort v pos'
    rw [readS33_iff]
    constructor
    · rintro ⟨enc, hshape, hprefix, rfl, hlen, rfl⟩
      obtain ⟨pre, b, rfl, hpre, hb⟩ := hshape.split
      simp only [List.length_append, List.length_singleton] at hlen
      have hrange := (signed33_range_iff hb (by omega)).mpr fun h =>
        hshort ⟨pre, b, hprefix, h.1, hpre, h.2⟩
      refine ⟨pre ++ [b], signed_of_shape hshape ?_ hrange.1 hrange.2, hprefix, rfl⟩
      simp only [List.length_append, List.length_singleton]
      omega
    · rintro ⟨enc, hgrammar, hprefix, rfl⟩
      obtain ⟨hshape, rfl, hlen, -⟩ := hgrammar.spec (by decide)
      exact ⟨enc, hshape, hprefix, rfl, by omega, rfl⟩

/-- The type index a decoder of types gives is the non-negative integer encoded
there. -/
def IndexExact {α : Type} (decode : List UInt8 → Nat → Except Error (α × Nat)) (index : Nat → α)
    (bytes : List UInt8) (pos : Nat) : Prop :=
  ∀ i pos', decode bytes pos = .ok (index i, pos') ↔
    ∃ enc, Signed 33 enc i ∧ enc <+: bytes.drop pos ∧ pos' = pos + enc.length

theorem ite_some_ne {α : Type} {c : Prop} [Decidable c] {a t : α} {rest : Option α} (ha : a ≠ t)
    (hrest : rest ≠ some t) : (if c then some a else rest) ≠ some t := by
  split
  · exact fun h => ha (Option.some.inj h)
  · exact hrest

theorem heapTypeFromS33_ne_type {index : Int} {i : Nat} :
    heapTypeFromS33 index ≠ some (.type i) := by
  unfold heapTypeFromS33
  repeat refine ite_some_ne nofun ?_
  nofun

theorem asU32_of_range {index : Int} (hlow : 0 ≤ index) (hhigh : index < 2 ^ 32) :
    (asU32 index : Int) = index := by
  unfold asU32
  omega

theorem decodeHeapType_iff {pos pos' i : Nat} :
    decodeHeapType bytes pos = .ok (.type i, pos') ↔
      ∃ index, readS33 bytes pos = .ok (index, pos') ∧ 0 ≤ index ∧ i = asU32 index := by
  unfold decodeHeapType
  rw [bind_eq_ok]
  constructor
  · rintro ⟨⟨index, p⟩, hread, hcase⟩
    dsimp only at hcase
    by_cases hneg : index < 0
    · rw [if_pos hneg] at hcase
      cases hheap : heapTypeFromS33 index with
      | none =>
          rw [hheap] at hcase
          cases hcase
      | some heap =>
          rw [hheap] at hcase
          cases hcase
          exact absurd hheap heapTypeFromS33_ne_type
    · rw [if_neg hneg] at hcase
      cases hcase
      exact ⟨index, hread, Int.not_lt.mp hneg, rfl⟩
  · rintro ⟨index, hread, hpos, rfl⟩
    refine ⟨_, hread, ?_⟩
    dsimp only
    rw [if_neg (Int.not_lt.mpr hpos)]
    rfl

/-- A non-negative index starts with no byte of another block type. -/
theorem first_byte_of_index {pos pos' : Nat} {index : Int}
    (h : readS33 bytes pos = .ok (index, pos')) (hpos : 0 ≤ index) :
    ∃ byte, bytes[pos]? = some byte ∧ byte ≠ 0x40 ∧ startsValtype byte = false := by
  obtain ⟨enc, hshape, ⟨rest, hrest⟩, -, -, rfl⟩ := readS33_iff.mp h
  have hhead : bytes[pos]? = enc.head? := by
    rw [← List.head?_drop, ← hrest, List.head?_append_of_ne_nil]
    exact List.ne_nil_of_length_pos hshape.length_pos
  have hfree : ∀ n < 256, n < 64 ∨ 128 ≤ n →
      UInt8.ofNat n ≠ 0x40 ∧ startsValtype (UInt8.ofNat n) = false := by
    decide +kernel
  have hbyte : ∀ b : UInt8, b.toNat < 64 ∨ 128 ≤ b.toNat → b ≠ 0x40 ∧ startsValtype b = false := by
    intro b hb
    have := hfree b.toNat b.toNat_lt hb
    rwa [UInt8.ofNat_toNat] at this
  cases hshape with
  | @last b hb =>
      refine ⟨b, hhead, hbyte b (.inl ?_)⟩
      rw [signedValue_last hb] at hpos
      split at hpos <;> omega
  | @more b enc hb _ => exact ⟨b, hhead, hbyte b (.inr hb)⟩

theorem decodeBlockType_iff {pos pos' i : Nat} :
    decodeBlockType bytes pos = .ok (.type i, pos') ↔
      ∃ index, readS33 bytes pos = .ok (index, pos') ∧ 0 ≤ index ∧ i = asU32 index := by
  unfold decodeBlockType
  constructor
  · intro h
    cases hbyte : bytes[pos]? with
    | none =>
        rw [hbyte] at h
        cases h
    | some byte =>
        rw [hbyte] at h
        dsimp only at h
        split at h
        · cases h
        split at h
        · obtain ⟨⟨ty, p⟩, -, hty⟩ := bind_eq_ok.mp h
          cases hty
        · obtain ⟨⟨index, p⟩, hread, hcase⟩ := bind_eq_ok.mp h
          dsimp only at hcase
          by_cases hneg : index < 0
          · rw [if_pos hneg] at hcase
            cases hcase
          · rw [if_neg hneg] at hcase
            cases hcase
            exact ⟨index, hread, Int.not_lt.mp hneg, rfl⟩
  · rintro ⟨index, hread, hpos, rfl⟩
    obtain ⟨byte, hbyte, hempty, hval⟩ := first_byte_of_index hread hpos
    simp only [hbyte, hempty, hval, if_false, Bool.false_eq_true]
    refine bind_eq_ok.mpr ⟨_, hread, ?_⟩
    dsimp only
    rw [if_neg (Int.not_lt.mpr hpos)]
    rfl

/-- A decoder of indices over an exact reader is exact. -/
theorem indexExact_of_readS33 {α : Type} {decode : List UInt8 → Nat → Except Error (α × Nat)}
    {index : Nat → α} {pos : Nat}
    (hdecode : ∀ {pos' i : Nat}, decode bytes pos = .ok (index i, pos') ↔
      ∃ n, readS33 bytes pos = .ok (n, pos') ∧ 0 ≤ n ∧ i = asU32 n)
    (h : Exact readS33 (Signed 33) bytes pos) : IndexExact decode index bytes pos := by
  intro i pos'
  rw [hdecode]
  constructor
  · rintro ⟨n, hread, hpos, rfl⟩
    obtain ⟨enc, hgrammar, hprefix, rfl⟩ := (h _ _).mp hread
    obtain ⟨-, -, -, -, hhigh⟩ := hgrammar.spec (by decide)
    refine ⟨enc, ?_, hprefix, rfl⟩
    rwa [asU32_of_range hpos hhigh]
  · rintro ⟨enc, hgrammar, hprefix, rfl⟩
    obtain ⟨-, -, -, -, hhigh⟩ := hgrammar.spec (by decide)
    refine ⟨i, (h _ _).mpr ⟨enc, hgrammar, hprefix, rfl⟩, Int.natCast_nonneg i, ?_⟩
    exact Int.ofNat.inj (asU32_of_range (Int.natCast_nonneg i) hhigh).symm

/-- What the readers and the decoders of indices promise at a position. -/
structure Decodes (bytes : List UInt8) (pos : Nat) : Prop where
  u32 : Exact readU32 (Unsigned 32) bytes pos
  u64 : Exact readU64 (Unsigned 64) bytes pos
  s32 : Exact readS32 (Signed 32) bytes pos
  s33 : Exact readS33 (Signed 33) bytes pos
  s64 : Exact readS64 (Signed 64) bytes pos
  heap : IndexExact decodeHeapType .type bytes pos
  block : IndexExact decodeBlockType .type bytes pos

theorem decodes_iff (bytes : List UInt8) (pos : Nat) :
    Decodes bytes pos ↔ ¬ Overlong bytes pos := by
  constructor
  · intro h
    exact readS33_exact_iff.mp h.s33
  · intro h
    have hs33 := readS33_exact_iff.mpr h
    exact ⟨readU32_exact pos, readU64_exact pos, readS32_exact pos, hs33, readS64_exact pos,
      indexExact_of_readS33 decodeHeapType_iff hs33, indexExact_of_readS33 decodeBlockType_iff hs33⟩

/-- Five bytes of a number outside of 33 bits, read as `2 ^ 32` and cut to the
type index 0. -/
theorem not_decodes_overlong : decodeHeapType [0x80, 0x80, 0x80, 0x80, 0x10] 0 = .ok (.type 0, 5) ∧
    ¬ Decodes [0x80, 0x80, 0x80, 0x80, 0x10] 0 := by
  have hread : decodeHeapType [0x80, 0x80, 0x80, 0x80, 0x10] 0 = .ok (.type 0, 5) := by
    rfl
  refine ⟨hread, fun h => ?_⟩
  refine readS33_exact_iff.mp h.s33 ⟨[0x80, 0x80, 0x80, 0x80], 0x10, ?_⟩
  simp

end Slag.Wasm.Binary
