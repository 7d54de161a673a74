import Slag.Crux.PlainObject

/-!
The JSON parser of `builtins/json.rs`. The cursor is what is left of the text, and
an error has the number of units left where the source has the position. The
objects and arrays a parse makes are cells of a heap; an array is dense.
-/

namespace Slag.Json

open Crux

abbrev Text := List UInt16

def maxJsonDepth : Nat := 1000

/-- The largest length of an array. -/
def maxArrayLength : Nat := 4294967295

inductive Failure where
  /-- `Unexpected token at position`, counted from the end. -/
  | unexpectedToken (unread : Nat)
  /-- `JSON nesting is too deep`. -/
  | tooDeep
  /-- `Invalid array length`. -/
  | arrayLength
  /-- The property cannot be created. -/
  | property
  /-- `Converting circular structure to JSON`. -/
  | circular
  /-- `Do not know how to serialize a BigInt`. -/
  | bigint
deriving DecidableEq, Repr

inductive Cell where
  | plain (o : PlainObject)
  | array (elements : List Value)

abbrev Heap := List Cell

/-- What the JSON functions call or read elsewhere: whether the native stack has
room for one more level, the Number conversions, the prototype of plain objects,
what prototypes answer for a key and what a function returns. -/
structure Host where
  hasHeadroom : Nat → Bool
  stringToNumber : Text → F64
  numberToString : F64 → Text
  objectProto : Option ObjId
  inherited : Value → JsString → Value
  call : Value → Value → JsString → Value

/-- One parsed value with the records the reviver reads. -/
inductive ParseRecord where
  | mk (value : Value) (source : Option Text) (elements : List ParseRecord)
      (entries : List (JsString × ParseRecord))

def ParseRecord.value : ParseRecord → Value
  | mk value _ _ _ => value

def uQuote : UInt16 := 0x22
def uLbrace : UInt16 := 0x7B
def uRbrace : UInt16 := 0x7D
def uLbrack : UInt16 := 0x5B
def uRbrack : UInt16 := 0x5D
def uBslash : UInt16 := 0x5C
def uSlash : UInt16 := 0x2F
def uBellB : UInt16 := 0x62
def uU : UInt16 := 0x75
def uColon : UInt16 := 0x3A
def uComma : UInt16 := 0x2C
def uMinus : UInt16 := 0x2D
def uPlus : UInt16 := 0x2B
def uDot : UInt16 := 0x2E
def uZero : UInt16 := 0x30
def uE : UInt16 := 0x65
def uEcap : UInt16 := 0x45
def uTrueT : UInt16 := 0x74
def uFalseF : UInt16 := 0x66
def uNullN : UInt16 := 0x6E
def uNl : UInt16 := 0x0A
def uCr : UInt16 := 0x0D
def uTab : UInt16 := 0x09
def uLetR : UInt16 := 0x72
def uSpace : UInt16 := 0x20

def trueWord : Text := [0x74, 0x72, 0x75, 0x65]
def falseWord : Text := [0x66, 0x61, 0x6C, 0x73, 0x65]
def nullWord : Text := [0x6E, 0x75, 0x6C, 0x6C]

/-! The cursor. -/

def unexpected {α : Type} (l : Text) : Except Failure α := .error (.unexpectedToken l.length)

def isWs (unit : UInt16) : Bool := unit = uSpace || unit = uTab || unit = uNl || unit = uCr

def skipWs (l : Text) : Text := l.dropWhile isWs

def eat (unit : UInt16) : Text → Option Text
  | c :: l => if c = unit then some l else none
  | [] => none

def eatWord (word l : Text) : Option Text :=
  if l.take word.length = word then some (l.drop word.length) else none

/-! Strings. -/

def isPlain (unit : UInt16) : Bool := !(unit = uQuote || unit = uBslash || unit ≤ 0x1F)

def isHigh (unit : UInt16) : Bool := 0xD800 ≤ unit && unit ≤ 0xDBFF

def isLow (unit : UInt16) : Bool := 0xDC00 ≤ unit && unit ≤ 0xDFFF

/-- The escapes of one letter. -/
def unescape (escape : UInt16) : Option UInt16 :=
  if escape = uQuote then some uQuote
  else if escape = uBslash then some uBslash
  else if escape = uSlash then some uSlash
  else if escape = uBellB then some 0x08
  else if escape = uFalseF then some 0x0C
  else if escape = uNullN then some uNl
  else if escape = uLetR then some uCr
  else if escape = uTrueT then some uTab
  else none

def hexValue (unit : UInt16) : Option Nat :=
  if 0x30 ≤ unit ∧ unit ≤ 0x39 then some (unit.toNat - 0x30)
  else if 0x61 ≤ unit ∧ unit ≤ 0x66 then some (unit.toNat - 0x61 + 10)
  else if 0x41 ≤ unit ∧ unit ≤ 0x46 then some (unit.toNat - 0x41 + 10)
  else none

/-- Four digits are a `u16`. -/
def hexLoop : Nat → Nat → Text → Except Failure (UInt16 × Text)
  | 0, value, l => .ok (UInt16.ofNat value, l)
  | _ + 1, _, [] => unexpected []
  | n + 1, value, unit :: l =>
      match hexValue unit with
      | some digit => hexLoop n (value * 16 + digit) l
      | none => unexpected l

def parseHex4 (l : Text) : Except Failure (UInt16 × Text) :=
  if l.length < 4 then unexpected l else hexLoop 4 0 l

/-- The slow path. A turn reads at least one unit, so a number of turns like that
of the units left is enough. -/
def stringLoop : Nat → Text → Text → Except Failure (JsString × Text)
  | 0, _, l => unexpected l
  | _ + 1, _, [] => unexpected []
  | turns + 1, units, unit :: l =>
      if unit = uQuote then .ok (units, l)
      else if unit = uBslash then
        match l with
        | [] => unexpected []
        | escape :: l =>
            match unescape escape with
            | some value => stringLoop turns (units ++ [value]) l
            | none =>
                if escape = uU then do
                  let (hi, l) ← parseHex4 l
                  if isHigh hi ∧ l.take 2 = [uBslash, uU] then
                    let (lo, l') ← parseHex4 (l.drop 2)
                    if isLow lo then stringLoop turns (units ++ [hi, lo]) l'
                    else stringLoop turns (units ++ [hi]) l
                  else stringLoop turns (units ++ [hi]) l
                else unexpected l
      else if unit ≤ 0x1F then unexpected l
      else stringLoop turns (units ++ [unit]) l

def parseString (l : Text) : Except Failure (JsString × Text) :=
  match eat uQuote (skipWs l) with
  | none => unexpected (skipWs l)
  | some l =>
      -- The fast path: a run of units up to a quote is the string.
      match eat uQuote (l.dropWhile isPlain) with
      | some r => .ok (l.takeWhile isPlain, r)
      | none => stringLoop l.length [] l

/-! Numbers. -/

def isDigit (unit : UInt16) : Bool := 0x30 ≤ unit && unit ≤ 0x39

def skipDigits (l : Text) : Text := l.dropWhile isDigit

def intPart (l : Text) : Except Failure Text :=
  match l with
  | [] => unexpected l
  | unit :: r =>
      if unit = uZero then .ok r
      else if isDigit unit then .ok (skipDigits l)
      else unexpected l

/-- One digit or more. -/
def someDigits (l : Text) : Except Failure Text :=
  if (skipDigits l).length = l.length then unexpected (skipDigits l) else .ok (skipDigits l)

def fracPart (l : Text) : Except Failure Text :=
  match eat uDot l with
  | some r => someDigits r
  | none => .ok l

def skipSign (l : Text) : Text :=
  match l with
  | unit :: r => if unit = uPlus ∨ unit = uMinus then r else l
  | [] => l

def expPart (l : Text) : Except Failure Text :=
  match l with
  | unit :: r => if unit = uE ∨ unit = uEcap then someDigits (skipSign r) else .ok l
  | [] => .ok l

/-- An integer of at most fifteen digits is read from its units. -/
def isShortInteger (token : Text) : Bool :=
  !token.contains uDot && !token.contains uE && !token.contains uEcap &&
    token.length - (if token.head? = some uMinus then 1 else 0) ≤ 15

def digitsValue (digits : Text) : Nat := digits.foldl (fun value unit => value * 10 + (unit.toNat - 0x30)) 0

def shortInteger (token : Text) : F64 :=
  if token.head? = some uMinus then (F64.ofNat (digitsValue token.tail)).neg
  else F64.ofNat (digitsValue token)

def Host.numberValue (host : Host) (token : Text) : F64 :=
  if isShortInteger token then shortInteger token else host.stringToNumber token

def numberEnd (l : Text) : Except Failure Text := do
  let l ← intPart ((eat uMinus l).getD l)
  let l ← fracPart l
  expPart l

def parseNumber (host : Host) (l : Text) : Except Failure (F64 × Text) := do
  let r ← numberEnd l
  return (host.numberValue (l.take (l.length - r.length)), r)

/-! Values. -/

abbrev ParseValue := Heap → Text → Except Failure (ParseRecord × Heap × Text)

def createDataPropertyOrThrow (heap : Heap) (id : ObjId) (key : JsString) (value : Value) :
    Except Failure Heap :=
  match heap[id]? with
  | some (.plain o) =>
      match o.createData (.string key) value with
      | (o, true) => .ok (heap.set id (.plain o))
      | (_, false) => .error .property
  | _ => .error .property

/-- `JsObject::ordinary_object_create`. -/
def Host.ordinaryObject (host : Host) : Cell := .plain ⟨[], true, host.objectProto⟩

/-- The members up to the closing brace. -/
def membersLoop (records : Bool) (parseValue : ParseValue) (id : ObjId) :
    Nat → List (JsString × ParseRecord) → ParseValue
  | 0, _, _, l => unexpected l
  | turns + 1, entries, heap, l => do
      let l := skipWs l
      if (eat uQuote l).isNone then unexpected l
      else
        let (key, l) ← parseString l
        let l := skipWs l
        match eat uColon l with
        | none => unexpected l
        | some l =>
            let (value, heap, l) ← parseValue heap l
            let heap ← createDataPropertyOrThrow heap id key value.value
            let entries := if records then entries ++ [(key, value)] else entries
            let l := skipWs l
            match eat uRbrace l with
            | some l => .ok (.mk (.object id) none [] entries, heap, l)
            | none =>
                match eat uComma l with
                | some l => membersLoop records parseValue id turns entries heap l
                | none => unexpected l

/-- After the opening brace. -/
def parseObjectRecord (host : Host) (records : Bool) (parseValue : ParseValue) : ParseValue :=
  fun heap l =>
    let id := heap.length
    let heap := heap ++ [host.ordinaryObject]
    let l := skipWs l
    match eat uRbrace l with
    | some l => .ok (.mk (.object id) none [] [], heap, l)
    | none => membersLoop records parseValue id l.length [] heap l

/-- `array_create` and the definition of each index. -/
def createArray (heap : Heap) (values : List Value) : Except Failure (ObjId × Heap) :=
  if maxArrayLength < values.length then .error .arrayLength
  else .ok (heap.length, heap ++ [.array values])

/-- The elements up to the closing bracket. -/
def elementsLoop (records : Bool) (parseValue : ParseValue) :
    Nat → List ParseRecord → List Value → ParseValue
  | 0, _, _, _, l => unexpected l
  | turns + 1, elements, values, heap, l => do
      let (record, heap, l) ← parseValue heap l
      let value := record.value
      let elements := if records then elements ++ [record] else elements
      let values := values ++ [value]
      let l := skipWs l
      match eat uRbrack l with
      | some l => do
          let (id, heap) ← createArray heap values
          return (.mk (.object id) none elements [], heap, l)
      | none =>
          match eat uComma l with
          | some l => elementsLoop records parseValue turns elements values heap l
          | none => unexpected l

/-- After the opening bracket. -/
def parseArrayRecord (records : Bool) (parseValue : ParseValue) : ParseValue := fun heap l =>
  let l := skipWs l
  match eat uRbrack l with
  | some l => do
      let (id, heap) ← createArray heap []
      return (.mk (.object id) none [] [], heap, l)
  | none => elementsLoop records parseValue l.length [] [] heap l

/-- The record of a primitive read from `l`, with `r` left. -/
def primitive (records : Bool) (value : Value) (heap : Heap) (l r : Text) :
    Except Failure (ParseRecord × Heap × Text) :=
  .ok (.mk value (if records then some (l.take (l.length - r.length)) else none) [] [], heap, r)

def parseWord (records : Bool) (word : Text) (value : Value) (heap : Heap) (l : Text) :
    Except Failure (ParseRecord × Heap × Text) :=
  match eatWord word l with
  | some r => primitive records value heap l r
  | none => unexpected l

def parseValueInner (host : Host) (records : Bool) (parseValue : ParseValue) : ParseValue :=
  fun heap l =>
    let l := skipWs l
    match l with
    | [] => unexpected l
    | unit :: r =>
        if unit = uQuote then do
          let (text, r) ← parseString l
          primitive records (.string text) heap l r
        else if unit = uLbrace then parseObjectRecord host records parseValue heap r
        else if unit = uLbrack then parseArrayRecord records parseValue heap r
        else if unit = uTrueT then parseWord records trueWord (.boolean true) heap l
        else if unit = uFalseF then parseWord records falseWord (.boolean false) heap l
        else if unit = uNullN then parseWord records nullWord .null heap l
        else if unit = uMinus ∨ isDigit unit then do
          let (number, r) ← parseNumber host l
          primitive records (.number number) heap l r
        else unexpected l

/-- `parse_value` where `room` levels are left of the depth. -/
def parseValue (host : Host) (records : Bool) : Nat → ParseValue
  | 0 => fun _ _ => .error .tooDeep
  | room + 1 => fun heap l =>
      if !host.hasHeadroom (maxJsonDepth - (room + 1)) then .error .tooDeep
      else parseValueInner host records (parseValue host records room) heap l

end Slag.Json
