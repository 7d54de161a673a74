import Slag.Lib.Returns
import Slag.Lib.Utf16
import Slag.Regexp.Coalesce

/-!
The parser's state, its cursor and the escapes and quantifiers that do not
nest. The names of Unicode properties, the identifier tables and what the stack
probe answers are a parameter.
-/

namespace Slag.Regexp

structure Flags where
  d : Bool := false
  g : Bool := false
  i : Bool := false
  m : Bool := false
  s : Bool := false
  u : Bool := false
  v : Bool := false
  y : Bool := false
  deriving DecidableEq, Repr

def Flags.hasUnicode (flags : Flags) : Bool :=
  flags.u || flags.v

/-- What a parse finds around it. The stack probe answers for what is left of
the pattern. -/
structure Surroundings where
  tables : UnicodeTables
  isIdentifierStart : Nat → Bool
  isIdentifierPart : Nat → Bool
  propertyOfStrings : String → Option (List (List Nat))
  categoryAbbreviation : String → Option String
  canonicalScriptName : String → Option String
  binaryPropertyName : String → Option String
  hasHeadroom : List Nat → Bool

inductive Failure where
  | rejected (message : String)
  | fuel
  deriving DecidableEq, Repr

/-- Group names with the indices of their groups. -/
abbrev Names := List (List Nat × List Nat)

def Names.get (names : Names) (name : List Nat) : Option (List Nat) :=
  (names.find? fun entry => entry.1 == name).map Prod.snd

def Names.push (name : List Nat) (index : Nat) : Names → Names
  | [] => [(name, [index])]
  | entry :: names =>
      if entry.1 = name then (name, entry.2 ++ [index]) :: names
      else entry :: push name index names

structure Parser where
  /-- The atoms from the cursor on: code points in unicode mode, otherwise code units. -/
  rest : List Nat
  flags : Flags
  ignoreCase : Bool
  multiline : Bool
  dotAll : Bool
  capturingGroups : Nat := 0
  /-- The groups of the whole pattern, as the pre-scan counts them. -/
  totalGroups : Nat
  totalNamedGroups : Names
  namedGroups : Names := []
  /-- The group names of the open alternatives, the innermost first. -/
  altNames : List (List (List Nat)) := []
  namedGroupOrder : List (List Nat) := []
  hasGroupNames : Bool
  depth : Nat := 0

def isDigit (a : Nat) : Bool :=
  0x30 ≤ a && a ≤ 0x39

def isOctalDigit (a : Nat) : Bool :=
  0x30 ≤ a && a ≤ 0x37

def hexValue (a : Nat) : Option Nat :=
  if 0x30 ≤ a ∧ a ≤ 0x39 then some (a - 0x30)
  else if 0x41 ≤ a ∧ a ≤ 0x46 then some (a - 0x41 + 10)
  else if 0x61 ≤ a ∧ a ≤ 0x66 then some (a - 0x61 + 10)
  else none

def isControlLetter (a : Nat) : Bool :=
  (0x41 ≤ a && a ≤ 0x5A) || (0x61 ≤ a && a ≤ 0x7A)

/-- `=` separates a property name from its value. -/
def isLetterOrUnderscoreOrDigit (a : Nat) : Bool :=
  isDigit a || a == 0x3D || isControlLetter a || a == 0x5F

/-- The syntax characters and `/`. -/
def isIdentityEscapeAllowed (a : Nat) : Bool :=
  [0x24, 0x28, 0x29, 0x2A, 0x2B, 0x2E, 0x2F, 0x3F, 0x5B, 0x5C, 0x5D, 0x5E, 0x7B, 0x7C,
    0x7D].contains a

namespace Parser

variable (p : Parser)

def peek : Option Nat :=
  p.rest.head?

def peekAt (offset : Nat) : Option Nat :=
  p.rest[offset]?

/-- The cursor moves over some atoms. -/
def skip (n : Nat) : Parser :=
  { p with rest := p.rest.drop n }

def unicode : Bool :=
  p.flags.hasUnicode

def hexAt (offset : Nat) : Option Nat :=
  (p.peekAt offset).bind hexValue

/-- Go over an atom that has to be there. -/
def expect (a : Nat) (message : String) : Except Failure Parser :=
  if p.peek = some a then .ok (p.skip 1) else .error (.rejected message)

variable {p} {q : Parser}

theorem expect_eq_ok {a : Nat} {message : String} (h : p.expect a message = .ok q) :
    p.peek = some a ∧ q = p.skip 1 := by
  unfold expect at h
  split at h
  · rename_i hpeek
    exact ⟨hpeek, (Except.ok.inj h).symm⟩
  · cases h

end Parser

/-- A literal character, canonicalized beforehand under ignore-case. -/
def charNode (tables : UnicodeTables) (p : Parser) (cp : Nat) : Node :=
  if p.ignoreCase then .char (tables.canonicalize p.unicode cp) true else .char cp false

/-- The digits from the cursor on, as long as their value is an integer that
floating point holds. -/
def decimalDigits (value : Nat) : List Nat → Except Failure (Nat × List Nat)
  | [] => .ok (value, [])
  | d :: rest =>
      if isDigit d then
        let value := value * 10 + (d - 0x30)
        if 0x1FFFFFFFFFFFFF < value then .error (.rejected "Quantifier number too large")
        else decimalDigits value rest
      else .ok (value, d :: rest)

/-- A run of decimal digits; what is above `u32::MAX` is clamped. -/
def parseDecimalDigits (p : Parser) : Except Failure (Nat × Parser) :=
  if p.peek.any isDigit then do
    let (value, rest) ← decimalDigits 0 p.rest
    .ok (min value u32Max, { p with rest := rest })
  else .error (.rejected "Expected decimal digits")

/-- `{n}`, `{n,}` or `{n,m}` at the cursor; anything else leaves the cursor where it is. -/
def tryParseBracedQuantifier (p : Parser) : Except Failure (Option (Nat × Option Nat) × Parser) :=
  let inner := p.skip 1
  if inner.peek.any isDigit then do
    let (low, q) ← parseDecimalDigits inner
    if q.peek = some 0x7D then .ok (some (low, some low), q.skip 1)
    else if q.peek = some 0x2C then
      let q := q.skip 1
      if q.peek = some 0x7D then .ok (some (low, none), q.skip 1)
      else if q.peek.any isDigit then
        let (high, q) ← parseDecimalDigits q
        if high < low then .error (.rejected "numbers out of order in \x7b\x7d quantifier")
        else
          let q ← q.expect 0x7D "Unterminated quantifier"
          .ok (some (low, some high), q)
      else .ok (none, p)
    else .ok (none, p)
  else .ok (none, p)

/-- The bounds of a quantifier and whether it is greedy, none where there is none. -/
def parseQuantifier (p : Parser) : Except Failure (Option (Nat × Option Nat × Bool) × Parser) := do
  let (bounds, q) ←
    if p.peek = some 0x2A then .ok (some (0, none), p.skip 1)
    else if p.peek = some 0x2B then .ok (some (1, none), p.skip 1)
    else if p.peek = some 0x3F then .ok (some (0, some 1), p.skip 1)
    else if p.peek = some 0x7B then do
      let (bounds, q) ← tryParseBracedQuantifier p
      if bounds.isNone && p.unicode then .error (.rejected "Invalid quantifier")
      else .ok (bounds, q)
    else .ok (none, p)
  match bounds with
  | none => .ok (none, q)
  | some (low, high) =>
      if q.peek = some 0x3F then .ok (some (low, high, false), q.skip 1)
      else .ok (some (low, high, true), q)

/-- The octal digits an escape goes on with. -/
def octalDigits (value : Nat) : Nat → List Nat → Nat × List Nat
  | remaining + 1, d :: rest =>
      if isOctalDigit d then octalDigits (value * 8 + (d - 0x30)) remaining rest
      else (value, d :: rest)
  | _, rest => (value, rest)

/-- Legacy octal escapes: up to two more digits after `0` to `3`, one after `4` to `7`. -/
def octalEscape (p : Parser) (first : Nat) : Nat × Parser :=
  let (value, rest) := octalDigits first (if first ≤ 3 then 2 else 1) p.rest
  (value, { p with rest := rest })

/-- The hexadecimal digits from the cursor on, with whether there are any, while
their value fits 32 bits. -/
def hexDigits (value : Nat) (found : Bool) :
    List Nat → Except Failure (Nat × Bool × List Nat)
  | [] => .ok (value, found, [])
  | a :: rest =>
      match hexValue a with
      | none => .ok (value, found, a :: rest)
      | some h =>
          if u32Size ≤ value * 16 + h then .error (.rejected "Invalid code point escape")
          else hexDigits (value * 16 + h) true rest

/-- The code point of `\u{…}`, from after the opening brace. -/
def codePointEscape (p : Parser) : Except Failure (Nat × Parser) := do
  let (value, found, rest) ← hexDigits 0 false p.rest
  let q := { p with rest := rest }
  if !found || q.peek != some 0x7D || 0x10FFFF < value then
    .error (.rejected "Invalid code point escape")
  else .ok (value, q.skip 1)

/-- The unit of four hexadecimal digits at some offset. -/
def codeUnitAt (p : Parser) (offset : Nat) : Option Nat :=
  match p.hexAt offset, p.hexAt (offset + 1), p.hexAt (offset + 2), p.hexAt (offset + 3) with
  | some h, some l, some h2, some l2 => some (h * 0x1000 + l * 0x100 + h2 * 0x10 + l2)
  | _, _, _, _ => none

/-- The byte of two hexadecimal digits at the cursor. -/
def byteAt (p : Parser) : Option Nat :=
  match p.hexAt 0, p.hexAt 1 with
  | some h, some l => some (h * 0x10 + l)
  | _, _ => none

/-- Consume a `\u` escape of a trail surrogate and give the code point the lead
pairs with. -/
def combineSurrogatePair (p : Parser) (lead : Nat) : Option (Nat × Parser) :=
  if p.peek = some 0x5C ∧ p.peekAt 1 = some 0x75 then
    match codeUnitAt p 2 with
    | some low =>
        if 0xDC00 ≤ low ∧ low ≤ 0xDFFF then
          some (0x10000 + (lead - 0xD800) * 0x400 + (low - 0xDC00), p.skip 6)
        else none
    | none => none
  else none

/-- A `\uXXXX` escape; in unicode mode a leading surrogate must form a pair. -/
def charFromCodeUnit (tables : UnicodeTables) (p : Parser) (unit : Nat) : Except Failure (Node × Parser) :=
  if p.unicode ∧ 0xD800 ≤ unit ∧ unit ≤ 0xDBFF then
    match combineSurrogatePair p unit with
    | some (cp, q) => .ok (charNode tables q cp, q)
    | none => .error (.rejected "Invalid unicode escape")
  else .ok (charNode tables p unit, p)

end Slag.Regexp
