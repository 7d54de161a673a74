import Slag.Lib.Fields
import Slag.Wasm.Linking

/-!
The words compiled code holds references in: a tag in the upper bits, and below it
the number of an object or the parts of an address.
-/

namespace Slag.Wasm.Tokens

open Linking (unwrapExternal wrapExternal)

def refNullToken : BitVec 64 := 0
def refFuncTag : BitVec 64 := 1 <<< 63
def refExternTag : BitVec 64 := 1 <<< 62
def refExternPayloadMask : BitVec 64 := (1 <<< 60) - 1
def refExternKindMask : BitVec 64 := 0b11 <<< 60
def kindHost : BitVec 64 := 0
def kindI31 : BitVec 64 := 1
def kindStruct : BitVec 64 := 2
def kindArray : BitVec 64 := 3
def refI31Tag : BitVec 64 := 1 <<< 60
def refI31ValueMask : BitVec 64 := 0x7fffffff
def refExnTag : BitVec 64 := 1 <<< 61
def refExnPayloadMask : BitVec 64 := (1 <<< 60) - 1
def refGcTag : BitVec 64 := 1 <<< 59
def refGcPayloadMask : BitVec 64 := (1 <<< 57) - 1
def gcStruct : BitVec 64 := 0
def gcArray : BitVec 64 := 1
def gcHost : BitVec 64 := 2

/-- Numbers of objects and instances are machine words. -/
def word (n : Nat) : BitVec 64 :=
  BitVec.ofNat 64 n

def structRefToken (id : Nat) : Option (BitVec 64) :=
  if refGcPayloadMask.toNat < id then none else some (refGcTag ||| gcStruct <<< 57 ||| word id)

def arrayRefToken (id : Nat) : Option (BitVec 64) :=
  if refGcPayloadMask.toNat < id then none else some (refGcTag ||| gcArray <<< 57 ||| word id)

def funcRefToken (inst index : Nat) : Option (BitVec 64) :=
  if 0x7fffffff < inst ∨ 2 ^ 32 - 1 < index then none
  else some (refFuncTag ||| word inst <<< 32 ||| word index)

def externRefToken (inner : ExternInner) : Option (BitVec 64) :=
  let (kind, payload) := match inner with
    | .host host => (kindHost, word host)
    | .i31 value => (kindI31, value.setWidth 64)
    | .struct id => (kindStruct, word id)
    | .array id => (kindArray, word id)
  if payload &&& ~~~refExternPayloadMask ≠ 0 then none
  else some (refExternTag ||| kind <<< 60 ||| payload)

def refToToken : Value → Option (BitVec 64)
  | .ref .null => some refNullToken
  | .ref (.func addr) => funcRefToken addr.inst addr.index
  | .ref (.external inner) => externRefToken inner
  | .ref (.i31 value) => some (refI31Tag ||| value.setWidth 64)
  | .ref (.exn id) => if refExnPayloadMask.toNat < id then none else some (refExnTag ||| word id)
  | .ref (.struct id) => structRefToken id
  | .ref (.array id) => arrayRefToken id
  | .ref (.host id) => some (refGcTag ||| gcHost <<< 57 ||| word id)
  | _ => none

def tokenToRef (token : BitVec 64) : Option Value :=
  if token = refNullToken then some (.ref .null)
  else if token &&& refFuncTag ≠ 0 then
    let inst := (token >>> 32 &&& 0x7fffffff).toNat
    let index := (token &&& 0xffffffff).toNat
    some (.ref (.func ⟨inst, index⟩))
  else if token &&& refExternTag ≠ 0 then
    let kind := (token &&& refExternKindMask) >>> 60
    if kind = kindHost then some (.ref (.external (.host (token.setWidth 32).toNat)))
    else if kind = kindI31 then some (.ref (.external (.i31 (token.setWidth 32))))
    else if kind = kindStruct then
      some (.ref (.external (.struct (token &&& refExternPayloadMask).toNat)))
    else if kind = kindArray then
      some (.ref (.external (.array (token &&& refExternPayloadMask).toNat)))
    else none
  else if token &&& refI31Tag ≠ 0 then
    some (.ref (.i31 ((token &&& refI31ValueMask).setWidth 32)))
  else if token &&& refExnTag ≠ 0 then
    some (.ref (.exn (token &&& refExnPayloadMask).toNat))
  else if token &&& refGcTag ≠ 0 then
    let id := (token &&& refGcPayloadMask).toNat
    let kind := token >>> 57 &&& 0b11
    if kind = gcStruct then some (.ref (.struct id))
    else if kind = gcArray then some (.ref (.array id))
    else some (.ref (.host ((token &&& refGcPayloadMask).setWidth 32).toNat))
  else none

/-! ## References that are made -/

/-- An `i31` keeps the low 31 bits of its operand. -/
def i31Ref (value : BitVec 32) : RefValue :=
  .i31 (value &&& 0x7fffffff)

/-- The references that the runtime makes. -/
inductive Created : RefValue → Prop where
  | null : Created .null
  | func (addr : FuncAddr) : Created (.func addr)
  | struct (id : Nat) : Created (.struct id)
  | array (id : Nat) : Created (.array id)
  | exn (id : Nat) : Created (.exn id)
  | i31 (value : BitVec 32) : Created (i31Ref value)
  | host (id : Nat) : Created (.external (.host id))
  | wrap {r : RefValue} {inner : ExternInner} (hr : Created r) (hinner : wrapExternal r = some inner) :
      Created (.external inner)
  | unwrap {r : RefValue} (hr : Created r) : Created (unwrapExternal r)

/-- Every number is within the field that the token has for it. -/
def Fits : RefValue → Prop
  | .func addr => addr.inst < 2 ^ 31 ∧ addr.index < 2 ^ 32
  | .struct id | .array id => id < 2 ^ 57
  | .exn id => id < 2 ^ 60
  | .host id | .external (.host id) => id < 2 ^ 32
  | .external (.struct id) | .external (.array id) => id < 2 ^ 60
  | .null | .i31 _ | .external (.i31 _) => True

/-- A scalar of 31 bits. -/
def Canonical : RefValue → Prop
  | .i31 value | .external (.i31 value) => value.toNat < 2 ^ 31
  | _ => True

theorem Created.canonical {r : RefValue} (h : Created r) : Canonical r := by
  induction h with
  | i31 value =>
      change (value &&& 0x7fffffff).toNat < 2 ^ 31
      rw [Fields.toNat_and_low value (show (0x7fffffff : BitVec 32).toNat = 2 ^ 31 - 1 from rfl)]
      exact Nat.mod_lt _ (Nat.pow_pos Nat.two_pos)
  | @wrap r inner hr hinner ih =>
      cases r with
      | i31 value =>
          cases hinner
          exact ih
      | host _ | struct _ | array _ =>
          cases hinner
          trivial
      | _ => cases hinner
  | @unwrap r hr ih =>
      cases r with
      | external inner =>
          cases inner with
          | i31 value => exact ih
          | _ => trivial
      | _ => exact ih
  | _ => trivial

/-! ## What the tokens are worth -/

theorem toNat_word {id k : Nat} (hid : id < 2 ^ k) (hk : k ≤ 64) : (word id).toNat = id := by
  have hlt : id < 2 ^ 64 := Nat.lt_of_lt_of_le hid (Nat.pow_le_pow_right Nat.two_pos hk)
  rw [word, BitVec.toNat_ofNat, Nat.mod_eq_of_lt hlt]

theorem toNat_extend (value : BitVec 32) : (value.setWidth 64).toNat = value.toNat :=
  BitVec.toNat_setWidth_of_le (by decide)

section values

variable {token : BitVec 64}

theorem eq_refNullToken_iff : token = refNullToken ↔ token.toNat = 0 :=
  BitVec.toNat_inj.symm

theorem refFuncTag_iff : token &&& refFuncTag ≠ 0 ↔ token.toNat / 2 ^ 63 % 2 = 1 :=
  Fields.and_flag_ne_zero token (by decide)

theorem refExternTag_iff : token &&& refExternTag ≠ 0 ↔ token.toNat / 2 ^ 62 % 2 = 1 :=
  Fields.and_flag_ne_zero token (by decide)

theorem refExnTag_iff : token &&& refExnTag ≠ 0 ↔ token.toNat / 2 ^ 61 % 2 = 1 :=
  Fields.and_flag_ne_zero token (by decide)

theorem refI31Tag_iff : token &&& refI31Tag ≠ 0 ↔ token.toNat / 2 ^ 60 % 2 = 1 :=
  Fields.and_flag_ne_zero token (by decide)

theorem refGcTag_iff : token &&& refGcTag ≠ 0 ↔ token.toNat / 2 ^ 59 % 2 = 1 :=
  Fields.and_flag_ne_zero token (by decide)

theorem toNat_payload : (token &&& refExternPayloadMask).toNat = token.toNat % 2 ^ 60 :=
  Fields.toNat_and_low token rfl

theorem toNat_gcPayload : (token &&& refGcPayloadMask).toNat = token.toNat % 2 ^ 57 :=
  Fields.toNat_and_low token rfl

theorem toNat_externKind : ((token &&& refExternKindMask) >>> 60).toNat = token.toNat / 2 ^ 60 % 4 := by
  have hmask : (token &&& refExternKindMask) >>> 60 = token >>> 60 &&& 0b11 := by
    rw [BitVec.ushiftRight_and_distrib]
    rfl
  rw [hmask, Fields.toNat_and_low _ (show (0b11 : BitVec 64).toNat = 2 ^ 2 - 1 from rfl),
    BitVec.toNat_ushiftRight, Nat.shiftRight_eq_div_pow]
  rfl

theorem toNat_gcKind : (token >>> 57 &&& 0b11).toNat = token.toNat / 2 ^ 57 % 4 := by
  rw [Fields.toNat_and_low _ (show (0b11 : BitVec 64).toNat = 2 ^ 2 - 1 from rfl),
    BitVec.toNat_ushiftRight, Nat.shiftRight_eq_div_pow]
  rfl

end values

/-! ## Encoding -/

theorem funcRefToken_value {inst index : Nat} (hinst : inst < 2 ^ 31) (hindex : index < 2 ^ 32) :
    ∃ token, funcRefToken inst index = some token ∧ token.toNat = 2 ^ 63 + inst * 2 ^ 32 + index := by
  refine ⟨_, if_neg (by omega), ?_⟩
  have hhigh : (word inst <<< 32).toNat = inst * 2 ^ 32 := by
    rw [BitVec.toNat_shiftLeft, toNat_word hinst (by decide), Nat.shiftLeft_eq]
    omega
  have htagged : (refFuncTag ||| word inst <<< 32).toNat = (2 ^ 31 + inst) * 2 ^ 32 := by
    rw [Fields.toNat_or (show refFuncTag.toNat = 1 * 2 ^ 63 from rfl) (by omega), hhigh]
    omega
  have hlow := toNat_word hindex (by decide)
  rw [Fields.toNat_or htagged (by omega), hlow]
  omega

/-- A tag, a kind below it and a payload below both. -/
theorem toNat_tagged {tag kind payload : BitVec 64} {high shift width : Nat}
    (htag : tag.toNat = 2 ^ high) (hkind : kind.toNat < 4) (hshift : shift + 2 = high) (hhigh : high < 64)
    (hpayload : payload.toNat < 2 ^ width) (hwidth : width ≤ shift) :
    (tag ||| kind <<< shift ||| payload).toNat =
      2 ^ high + kind.toNat * 2 ^ shift + payload.toNat := by
  have hpow : 2 ^ high = 4 * 2 ^ shift := by
    rw [← hshift, Nat.pow_add, Nat.mul_comm]
  have hfits : kind.toNat * 2 ^ shift < 2 ^ high := by
    rw [hpow]
    exact Nat.mul_lt_mul_of_pos_right hkind (Nat.pow_pos Nat.two_pos)
  have hless : (2 : Nat) ^ high ≤ 2 ^ 64 := Nat.pow_le_pow_right Nat.two_pos (Nat.le_of_lt hhigh)
  have hkinds : (kind <<< shift).toNat = kind.toNat * 2 ^ shift := by
    rw [BitVec.toNat_shiftLeft, Nat.shiftLeft_eq, Nat.mod_eq_of_lt (Nat.lt_of_lt_of_le hfits hless)]
  have htagged : (tag ||| kind <<< shift).toNat = (4 + kind.toNat) * 2 ^ shift := by
    rw [Fields.toNat_or (show tag.toNat = 1 * 2 ^ high by omega) (by omega), hkinds, hpow,
      Nat.one_mul, ← Nat.add_mul]
  have hbelow : payload.toNat < 2 ^ shift :=
    Nat.lt_of_lt_of_le hpayload (Nat.pow_le_pow_right Nat.two_pos hwidth)
  rw [Fields.toNat_or htagged hbelow, Nat.add_mul, hpow]

theorem toNat_flagged {tag payload : BitVec 64} {high : Nat} (htag : tag.toNat = 2 ^ high)
    (hpayload : payload.toNat < 2 ^ high) : (tag ||| payload).toNat = 2 ^ high + payload.toNat := by
  rw [Fields.toNat_or (show tag.toNat = 1 * 2 ^ high by omega) hpayload, Nat.one_mul]

theorem gcPayload_fits {id : Nat} (hid : id < 2 ^ 57) : ¬ refGcPayloadMask.toNat < id := by
  rw [show refGcPayloadMask.toNat = 2 ^ 57 - 1 from rfl]
  omega

theorem gcToken_value {id width : Nat} {kind : BitVec 64} (hid : id < 2 ^ width) (hwidth : width ≤ 57)
    (hkind : kind.toNat < 4) : id < 2 ^ 57 ∧
      (refGcTag ||| kind <<< 57 ||| word id).toNat = 2 ^ 59 + kind.toNat * 2 ^ 57 + id := by
  have hword := toNat_word hid (Nat.le_trans hwidth (by decide))
  refine ⟨Nat.lt_of_lt_of_le hid (Nat.pow_le_pow_right Nat.two_pos hwidth), ?_⟩
  rw [toNat_tagged rfl hkind rfl (by decide) (hword.symm ▸ hid) hwidth, hword]

theorem externToken_value {kind payload : BitVec 64} (hkind : kind.toNat < 4)
    (hpayload : payload.toNat < 2 ^ 60) :
    payload.toNat < 2 ^ 60 ∧
      (if payload &&& ~~~refExternPayloadMask ≠ 0 then none
        else some (refExternTag ||| kind <<< 60 ||| payload)) =
        some (refExternTag ||| kind <<< 60 ||| payload) ∧
      (refExternTag ||| kind <<< 60 ||| payload).toNat =
        2 ^ 62 + kind.toNat * 2 ^ 60 + payload.toNat := by
  refine ⟨hpayload, if_neg (not_not.mpr (Fields.and_not_low rfl hpayload)), ?_⟩
  exact toNat_tagged rfl hkind rfl (by decide) hpayload (Nat.le_refl 60)

/-! ## Decoding -/

section decoding

variable {token : BitVec 64}

theorem tokenToRef_func {inst index : Nat} (hinst : inst < 2 ^ 31) (hindex : index < 2 ^ 32)
    (h : token.toNat = 2 ^ 63 + inst * 2 ^ 32 + index) :
    tokenToRef token = some (.ref (.func ⟨inst, index⟩)) := by
  have hnull : ¬ token = refNullToken := by
    rw [eq_refNullToken_iff]
    omega
  have hinst' : (token >>> 32 &&& 0x7fffffff).toNat = inst := by
    rw [Fields.toNat_and_low _ (show (0x7fffffff : BitVec 64).toNat = 2 ^ 31 - 1 from rfl),
      BitVec.toNat_ushiftRight, Nat.shiftRight_eq_div_pow]
    omega
  have hindex' : (token &&& 0xffffffff).toNat = index := by
    rw [Fields.toNat_and_low _ (show (0xffffffff : BitVec 64).toNat = 2 ^ 32 - 1 from rfl)]
    omega
  rw [tokenToRef, if_neg hnull, if_pos (refFuncTag_iff.mpr (by omega)), hinst', hindex']

/-- What a word with a kind in bits 60 and 61 of an external reference stands for. -/
theorem tokenToRef_external {kind payload : Nat} (hkind : kind < 4) (hpayload : payload < 2 ^ 60)
    (h : token.toNat = 2 ^ 62 + kind * 2 ^ 60 + payload) :
    tokenToRef token =
      if kind = 0 then some (.ref (.external (.host (payload % 2 ^ 32))))
      else if kind = 1 then some (.ref (.external (.i31 (BitVec.ofNat 32 payload))))
      else if kind = 2 then some (.ref (.external (.struct payload)))
      else some (.ref (.external (.array payload))) := by
  have hnull : ¬ token = refNullToken := by
    rw [eq_refNullToken_iff]
    omega
  have hfunc : ¬ token &&& refFuncTag ≠ 0 := by
    rw [refFuncTag_iff]
    omega
  have hfield : ((token &&& refExternKindMask) >>> 60).toNat = kind := by
    rw [toNat_externKind]
    omega
  have hmasked : (token &&& refExternPayloadMask).toNat = payload := by
    rw [toNat_payload]
    omega
  have hlow : token.setWidth 32 = BitVec.ofNat 32 payload := by
    apply BitVec.eq_of_toNat_eq
    rw [BitVec.toNat_setWidth, BitVec.toNat_ofNat]
    omega
  have hkinds : ∀ {k : BitVec 64},
      (token &&& refExternKindMask) >>> 60 = k ↔ kind = k.toNat := by
    intro k
    rw [← BitVec.toNat_inj, hfield]
  rw [tokenToRef, if_neg hnull, if_neg hfunc, if_pos (refExternTag_iff.mpr (by omega))]
  simp only [hkinds, hlow, hmasked, BitVec.toNat_ofNat]
  change (if kind = 0 then _ else if kind = 1 then _ else if kind = 2 then _ else
    if kind = 3 then _ else _) = _
  by_cases h3 : kind = 3
  · rw [if_pos h3]
  · have hlow : kind = 0 ∨ kind = 1 ∨ kind = 2 := by omega
    rcases hlow with rfl | rfl | rfl <;> rfl

theorem tokenToRef_i31 {value : Nat} (hvalue : value < 2 ^ 31) (h : token.toNat = 2 ^ 60 + value) :
    tokenToRef token = some (.ref (.i31 (BitVec.ofNat 32 value))) := by
  have hnull : ¬ token = refNullToken := by
    rw [eq_refNullToken_iff]
    omega
  have hfunc : ¬ token &&& refFuncTag ≠ 0 := by
    rw [refFuncTag_iff]
    omega
  have hexternal : ¬ token &&& refExternTag ≠ 0 := by
    rw [refExternTag_iff]
    omega
  have hlow : (token &&& refI31ValueMask).setWidth 32 = BitVec.ofNat 32 value := by
    apply BitVec.eq_of_toNat_eq
    rw [BitVec.toNat_setWidth, BitVec.toNat_ofNat,
      Fields.toNat_and_low _ (show refI31ValueMask.toNat = 2 ^ 31 - 1 from rfl)]
    omega
  rw [tokenToRef, if_neg hnull, if_neg hfunc, if_neg hexternal,
    if_pos (refI31Tag_iff.mpr (by omega)), hlow]

theorem tokenToRef_exn {id : Nat} (hid : id < 2 ^ 60) (h : token.toNat = 2 ^ 61 + id) :
    tokenToRef token = some (.ref (.exn id)) := by
  have hnull : ¬ token = refNullToken := by
    rw [eq_refNullToken_iff]
    omega
  have hfunc : ¬ token &&& refFuncTag ≠ 0 := by
    rw [refFuncTag_iff]
    omega
  have hexternal : ¬ token &&& refExternTag ≠ 0 := by
    rw [refExternTag_iff]
    omega
  have hi31 : ¬ token &&& refI31Tag ≠ 0 := by
    rw [refI31Tag_iff]
    omega
  have hmasked : (token &&& refExnPayloadMask).toNat = id := by
    rw [Fields.toNat_and_low _ (show refExnPayloadMask.toNat = 2 ^ 60 - 1 from rfl)]
    omega
  rw [tokenToRef, if_neg hnull, if_neg hfunc, if_neg hexternal, if_neg hi31,
    if_pos (refExnTag_iff.mpr (by omega)), hmasked]

theorem tokenToRef_gc {kind id : Nat} (hkind : kind < 4) (hid : id < 2 ^ 57)
    (h : token.toNat = 2 ^ 59 + kind * 2 ^ 57 + id) :
    tokenToRef token =
      if kind = 0 then some (.ref (.struct id)) else if kind = 1 then some (.ref (.array id))
      else some (.ref (.host (id % 2 ^ 32))) := by
  have hnull : ¬ token = refNullToken := by
    rw [eq_refNullToken_iff]
    omega
  have hfunc : ¬ token &&& refFuncTag ≠ 0 := by
    rw [refFuncTag_iff]
    omega
  have hexternal : ¬ token &&& refExternTag ≠ 0 := by
    rw [refExternTag_iff]
    omega
  have hi31 : ¬ token &&& refI31Tag ≠ 0 := by
    rw [refI31Tag_iff]
    omega
  have hexn : ¬ token &&& refExnTag ≠ 0 := by
    rw [refExnTag_iff]
    omega
  have hmasked : (token &&& refGcPayloadMask).toNat = id := by
    rw [toNat_gcPayload]
    omega
  have hkinds : ∀ {k : BitVec 64}, token >>> 57 &&& 0b11 = k ↔ kind = k.toNat := by
    intro k
    rw [← BitVec.toNat_inj, toNat_gcKind]
    constructor <;> omega
  rw [tokenToRef, if_neg hnull, if_neg hfunc, if_neg hexternal, if_neg hi31, if_neg hexn,
    if_pos (refGcTag_iff.mpr (by omega))]
  simp only [hkinds, hmasked, BitVec.toNat_setWidth]
  rfl

end decoding

/-! ## The round trip -/

/-- The word of a reference that fits is decoded to it, and is null for null alone. -/
theorem tokenToRef_refToToken {r : RefValue} (hcanonical : Canonical r) (hfits : Fits r) :
    ∃ token, refToToken (.ref r) = some token ∧ tokenToRef token = some (.ref r) ∧
      (r ≠ .null → token ≠ refNullToken) := by
  -- A word that is decoded to something else than null is not the null word.
  suffices h : ∃ token, refToToken (.ref r) = some token ∧ tokenToRef token = some (.ref r) by
    obtain ⟨token, hencode, hdecode⟩ := h
    refine ⟨token, hencode, hdecode, fun hr hnull => hr ?_⟩
    rw [hnull] at hdecode
    cases hdecode
    rfl
  cases r with
  | null => exact ⟨refNullToken, rfl, rfl⟩
  | func addr =>
      obtain ⟨token, hencode, hvalue⟩ := funcRefToken_value hfits.1 hfits.2
      exact ⟨token, hencode, tokenToRef_func hfits.1 hfits.2 hvalue⟩
  | i31 value =>
      have hlow : (value.setWidth 64).toNat < 2 ^ 60 := by
        rw [toNat_extend]
        exact Nat.lt_trans hcanonical (by decide)
      have hvalue := toNat_flagged (show refI31Tag.toNat = 2 ^ 60 from rfl) hlow
      rw [toNat_extend] at hvalue
      refine ⟨_, rfl, ?_⟩
      rw [tokenToRef_i31 hcanonical hvalue, BitVec.ofNat_toNat, BitVec.setWidth_eq]
  | exn id =>
      have hid : id < 2 ^ 60 := hfits
      have hword := toNat_word hid (by decide)
      have hvalue := toNat_flagged (show refExnTag.toNat = 2 ^ 61 from rfl)
        (show (word id).toNat < 2 ^ 61 by omega)
      rw [hword] at hvalue
      have hnot : ¬ refExnPayloadMask.toNat < id := by
        rw [show refExnPayloadMask.toNat = 2 ^ 60 - 1 from rfl]
        omega
      exact ⟨_, if_neg hnot, tokenToRef_exn hid hvalue⟩
  | struct id =>
      obtain ⟨hid, hvalue⟩ := gcToken_value hfits (Nat.le_refl 57) (show gcStruct.toNat < 4 by decide)
      exact ⟨_, if_neg (gcPayload_fits hid), tokenToRef_gc (by decide) hid hvalue⟩
  | array id =>
      obtain ⟨hid, hvalue⟩ := gcToken_value hfits (Nat.le_refl 57) (show gcArray.toNat < 4 by decide)
      exact ⟨_, if_neg (gcPayload_fits hid), tokenToRef_gc (by decide) hid hvalue⟩
  | host id =>
      obtain ⟨hid, hvalue⟩ := gcToken_value hfits (by decide) (show gcHost.toNat < 4 by decide)
      refine ⟨_, rfl, ?_⟩
      rw [tokenToRef_gc (by decide) hid hvalue, Nat.mod_eq_of_lt hfits]
      rfl
  | external inner =>
      cases inner with
      | host id =>
          obtain ⟨hid, hencode, hvalue⟩ := externToken_value (show kindHost.toNat < 4 by decide)
            (show (word id).toNat < 2 ^ 60 by
              rw [toNat_word hfits (by decide)]
              exact Nat.lt_trans hfits (by decide))
          refine ⟨_, hencode, ?_⟩
          rw [tokenToRef_external (by decide) hid hvalue, toNat_word hfits (by decide),
            Nat.mod_eq_of_lt hfits]
          rfl
      | i31 value =>
          obtain ⟨hid, hencode, hvalue⟩ := externToken_value (show kindI31.toNat < 4 by decide)
            (show (value.setWidth 64).toNat < 2 ^ 60 by
              rw [toNat_extend]
              exact Nat.lt_trans hcanonical (by decide))
          refine ⟨_, hencode, ?_⟩
          rw [tokenToRef_external (by decide) hid hvalue, toNat_extend, BitVec.ofNat_toNat,
            BitVec.setWidth_eq]
          rfl
      | struct id =>
          have hid' : (word id).toNat = id := toNat_word hfits (by decide)
          obtain ⟨hid, hencode, hvalue⟩ := externToken_value (show kindStruct.toNat < 4 by decide)
            (show (word id).toNat < 2 ^ 60 from hid'.symm ▸ hfits)
          refine ⟨_, hencode, ?_⟩
          rw [tokenToRef_external (by decide) hid hvalue, hid']
          rfl
      | array id =>
          have hid' : (word id).toNat = id := toNat_word hfits (by decide)
          obtain ⟨hid, hencode, hvalue⟩ := externToken_value (show kindArray.toNat < 4 by decide)
            (show (word id).toNat < 2 ^ 60 from hid'.symm ▸ hfits)
          refine ⟨_, hencode, ?_⟩
          rw [tokenToRef_external (by decide) hid hvalue, hid']
          rfl

/-- Tokens are a faithful encoding of the references that the runtime makes, as far as
the fields are wide enough. -/
theorem refToken_faithful {r : RefValue} (hr : Created r) (hfits : Fits r) :
    ∃ token, refToToken (.ref r) = some token ∧ tokenToRef token = some (.ref r) ∧
      (r ≠ .null → token ≠ refNullToken) ∧
      ∀ r', Created r' → Fits r' → refToToken (.ref r') = some token → r' = r := by
  obtain ⟨token, hencode, hdecode, hnull⟩ := tokenToRef_refToToken hr.canonical hfits
  refine ⟨token, hencode, hdecode, hnull, fun r' hr' hfits' hencode' => ?_⟩
  obtain ⟨token', hsame, hdecode', -⟩ := tokenToRef_refToToken hr'.canonical hfits'
  rw [hencode'] at hsame
  cases hsame
  rw [hdecode] at hdecode'
  cases hdecode'
  rfl

/-- A negative scalar, wrapped. -/
theorem refToken_negative : ∃ token, refToToken (.ref (.external (.i31 0x7fffffff))) = some token ∧
    tokenToRef token = some (.ref (.external (.i31 0x7fffffff))) ∧
    (RefValue.external (.i31 0x7fffffff) ≠ .null → token ≠ refNullToken) ∧
    ∀ r', Created r' → Fits r' → refToToken (.ref r') = some token → r' = .external (.i31 0x7fffffff) :=
  refToken_faithful (.wrap (.i31 (-1)) rfl) trivial

end Slag.Wasm.Tokens
