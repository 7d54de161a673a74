import Slag.Regexp.Parser

/-!
Character classes: the escapes in them, the ranges of legacy and unicode mode,
and the set expressions of `v`.
-/

namespace Slag.Regexp

/-- Sort ranges and merge those that touch. -/
def mergeRanges (ranges : Ranges) : Ranges :=
  ((ranges.insertionSort rangeLe).foldl pushRange []).reverse

/-- The complement of sorted ranges from `next` on, over the code point space. -/
def complementFrom (next : Nat) : Ranges → Ranges
  | [] => if next ≤ 0x10FFFF then [(next, 0x10FFFF)] else []
  | (s, e) :: ranges =>
      if next < s then (next, s - 1) :: complementFrom (e + 1) ranges
      else complementFrom (e + 1) ranges

def complement (ranges : Ranges) : Ranges :=
  complementFrom 0 ranges

/-- Explicit ranges with the canonical forms of their members. -/
def foldRanges (tables : UnicodeTables) (ranges : Ranges) (unicode : Bool) : Ranges :=
  rangesOf (ranges.flatMap fun range =>
    (List.range' range.1 (range.2 + 1 - range.1)).flatMap fun cp =>
      [cp, tables.canonicalize unicode cp])

namespace CharClass

def fromPredicate (predicate : Predicate) (negated : Bool) : CharClass :=
  { negated := negated, predicate := some predicate }

def singleton (cp : Nat) : CharClass :=
  { ranges := [(cp, cp)] }

def addRange (cls : CharClass) (start stop : Nat) : CharClass :=
  { cls with ranges := mergeRanges (cls.ranges ++ [(start, stop)]) }

def negate (cls : CharClass) : CharClass :=
  { cls with ranges := complement cls.ranges }

/-- The one character of a class that is a single character. -/
def rangesSingleton (cls : CharClass) : Option Nat :=
  match cls.predicate, cls.strings, cls.ranges with
  | none, [], [(s, e)] => if s = e then some s else none
  | _, _, _ => none

/-- Union of two classes that are explicit. -/
def union (a b : CharClass) : CharClass :=
  { a with ranges := mergeRanges (a.ranges ++ b.ranges), strings := a.strings ++ b.strings }

def intersect (a b : CharClass) : CharClass :=
  let out : CharClass := a.ranges.foldl (fun out ra => b.ranges.foldl (fun out rb =>
    let s := max ra.1 rb.1
    let e := min ra.2 rb.2
    if s ≤ e then out.addRange s e else out) out) {}
  let out := a.strings.foldl (fun out sa =>
    let out := match sa with
      | [c] => if Ctx.rangesContain b.ranges c then out.addRange c c else out
      | _ => out
    if b.strings.contains sa then { out with strings := out.strings ++ [sa] } else out) out
  b.strings.foldl (fun out sb =>
    match sb with
    | [c] => if Ctx.rangesContain a.ranges c then out.addRange c c else out
    | _ => out) out

/-- What sorted ranges leave of `start` to `stop`. -/
def cutOut (out : CharClass) (start stop : Nat) : Ranges → CharClass
  | [] => if start ≤ stop then out.addRange start stop else out
  | (s, e) :: ranges =>
      if e < start then cutOut out start stop ranges
      else if stop < s then if start ≤ stop then out.addRange start stop else out
      else
        let out := if start < s then out.addRange start (s - 1) else out
        if stop ≤ e then out else cutOut out (max (e + 1) start) stop ranges

def difference (a b : CharClass) : CharClass :=
  let out : CharClass := a.ranges.foldl (fun out range => cutOut out range.1 range.2 b.ranges) {}
  { out with strings := a.strings.filter fun string => !b.strings.contains string }

end CharClass

section

variable (env : Surroundings)

/-- The class of a predicate: explicit under ignore-case and under `v`. -/
def predicateClass (p : Parser) (predicate : Predicate) (negated : Bool) : CharClass :=
  if p.ignoreCase then
    let ranges := env.tables.scanPredicate predicate false p.unicode
    let ranges := if negated then complement ranges else ranges
    { ranges := foldRanges env.tables ranges p.unicode, fold := true }
  else if p.flags.v then
    { ranges := env.tables.scanPredicate predicate false p.unicode, negated := negated }
  else .fromPredicate predicate negated

/-- `\d`, `\s` and `\w`: under ignore-case the folded set is complemented. -/
def escapeClass (p : Parser) (predicate : Predicate) (negated : Bool) : CharClass :=
  if p.ignoreCase then
    let ranges := env.tables.scanPredicate predicate true p.unicode
    { ranges := if negated then complement ranges else ranges, fold := true }
  else predicateClass env p predicate negated

/-- The predicate of `\d`, `\D`, `\s`, `\S`, `\w` and `\W`. -/
def escapePredicate (atom : Nat) : Option (Predicate × Bool) :=
  if atom = 0x64 ∨ atom = 0x44 then some (.digits, atom == 0x44)
  else if atom = 0x73 ∨ atom = 0x53 then some (.space, atom == 0x53)
  else if atom = 0x77 ∨ atom = 0x57 then some (.word, atom == 0x57)
  else none

def codePointsToString (cps : List Nat) : String :=
  String.ofList (cps.filterMap fun cp =>
    if cp < 0xD800 ∨ (0xDFFF < cp ∧ cp < 0x110000) then some (Char.ofNat cp) else none)

/-- The atoms of a property name up to its brace. -/
def propertyName : List Nat → Except Failure (List Nat × List Nat)
  | [] => .ok ([], [])
  | a :: rest =>
      if a = 0x7D then .ok ([], a :: rest)
      else if isLetterOrUnderscoreOrDigit a then do
        let (name, rest) ← propertyName rest
        .ok (a :: name, rest)
      else .error (.rejected "Invalid property escape")

/-- A property that takes a value. -/
def valuedProperty (value : Option (List Nat)) (lookup : String → Option String)
    (predicate : String → Predicate) : Except Failure Predicate :=
  match value.bind fun value => lookup (codePointsToString value) with
  | some name => .ok (predicate name)
  | none => .error (.rejected "Invalid property escape")

/-- `\p{…}` and `\P{…}`, from after the opening brace. -/
def parsePropertyEscape (p : Parser) (negated : Bool) : Except Failure (CharClass × Parser) := do
  let (name, rest) ← propertyName p.rest
  let q ← { p with rest := rest }.expect 0x7D "Unterminated property escape"
  let prop := codePointsToString (name.takeWhile (· != 0x3D))
  let value := if name.contains 0x3D then some ((name.dropWhile (· != 0x3D)).drop 1) else none
  if prop = "General_Category" ∨ prop = "gc" then
    let predicate ← valuedProperty value env.categoryAbbreviation .generalCategory
    .ok (predicateClass env q predicate negated, q)
  else if prop = "Script" ∨ prop = "sc" then
    let predicate ← valuedProperty value env.canonicalScriptName .script
    .ok (predicateClass env q predicate negated, q)
  else if prop = "Script_Extensions" ∨ prop = "scx" then
    let predicate ← valuedProperty value env.canonicalScriptName .scriptExtensions
    .ok (predicateClass env q predicate negated, q)
  else if value.isSome then .error (.rejected "Invalid property escape")
  else
    match env.propertyOfStrings prop with
    | some strings =>
        if !p.flags.v || negated then .error (.rejected "Invalid property escape")
        else .ok ({ strings := strings }, q)
    | none =>
        match env.binaryPropertyName prop, env.categoryAbbreviation prop with
        | some name, _ => .ok (predicateClass env q (.binary name) negated, q)
        | none, some abbr => .ok (predicateClass env q (.generalCategory abbr) negated, q)
        | none, none => .error (.rejected "Invalid property escape")

inductive ClassAtom where
  | char (c : Nat)
  | escape (cls : CharClass)

/-- One member of a class being assembled. -/
inductive ClassMember where
  | char (c : Nat)
  | range (start stop : Nat)
  | set (cls : CharClass)

def ClassMember.fromClassAtom : ClassAtom → ClassMember
  | .char c => .char c
  | .escape cls => .set cls

/-- The control escapes `\t`, `\n`, `\v`, `\f` and `\r`. -/
def controlEscape (atom : Nat) : Option Nat :=
  if atom = 0x74 then some 0x09
  else if atom = 0x6E then some 0x0A
  else if atom = 0x76 then some 0x0B
  else if atom = 0x66 then some 0x0C
  else if atom = 0x72 then some 0x0D
  else none

/-- An escape in a class, after the backslash and `atom`. -/
def parseClassEscape (p : Parser) (atom : Nat) : Except Failure (ClassAtom × Parser) :=
  match escapePredicate atom, controlEscape atom with
  | some (predicate, negated), _ => .ok (.escape (escapeClass env p predicate negated), p)
  | none, some c => .ok (.char c, p)
  | none, none =>
      if (atom = 0x70 ∨ atom = 0x50) ∧ p.unicode then do
        let q ← p.expect 0x7B "Invalid property escape"
        let (cls, q) ← parsePropertyEscape env q (atom == 0x50)
        .ok (.escape cls, q)
      else if atom = 0x62 then .ok (.char 0x08, p)
      else if atom = 0x78 then
        match byteAt p with
        | some value => .ok (.char value, p.skip 2)
        | none =>
            if p.unicode then .error (.rejected "Invalid \\x escape") else .ok (.char 0x78, p)
      else if atom = 0x75 then
        if p.unicode ∧ p.peek = some 0x7B then do
          let (value, q) ← codePointEscape (p.skip 1)
          .ok (.char value, q)
        else
          match codeUnitAt p 0 with
          | some unit =>
              let q := p.skip 4
              match if q.unicode ∧ 0xD800 ≤ unit ∧ unit ≤ 0xDBFF then
                combineSurrogatePair q unit else none with
              | some (cp, q) => .ok (.char cp, q)
              | none => .ok (.char unit, q)
          | none =>
              if p.unicode then .error (.rejected "Invalid \\u escape") else .ok (.char 0x75, p)
      else if atom = 0x63 then
        match p.peek with
        | some letter =>
            if isControlLetter letter ∨ (!p.unicode ∧ (isDigit letter ∨ letter = 0x5F)) then
              .ok (.char (letter % 32), p.skip 1)
            else if p.unicode then .error (.rejected "Invalid control escape")
            -- The cursor goes back over the `c`.
            else .ok (.char 0x5C, { p with rest := 0x63 :: p.rest })
        | none =>
            if p.unicode then .error (.rejected "Invalid control escape")
            else .ok (.char 0x5C, { p with rest := 0x63 :: p.rest })
      else if atom = 0x30 then
        if p.peek.any isDigit then
          if p.unicode then .error (.rejected "Invalid decimal escape")
          else
            let (value, q) := octalEscape p 0
            .ok (.char value, q)
        else .ok (.char 0, p)
      else if isDigit atom then
        if p.unicode then .error (.rejected "Invalid decimal escape")
        else if atom = 0x38 ∨ atom = 0x39 then .ok (.char atom, p)
        else
          let (value, q) := octalEscape p (atom - 0x30)
          .ok (.char value, q)
      else if p.unicode ∧ !isIdentityEscapeAllowed atom ∧ atom ≠ 0x2D then
        .error (.rejected "Invalid escape")
      else .ok (.char atom, p)

def parseClassAtom (p : Parser) : Except Failure (ClassAtom × Parser) :=
  match p.peek with
  | none => .error (.rejected "Unterminated character class")
  | some atom =>
      if atom = 0x5C then
        match p.peekAt 1 with
        | none => .error (.rejected "\\ at end of character class")
        | some atom => parseClassEscape env (p.skip 2) atom
      else .ok (.char atom, p.skip 1)

/-- The members of a class up to its closing bracket. -/
def classMembers : Nat → Parser → Bool → List ClassMember →
    Except Failure (List ClassMember × Parser)
  | 0, _, _, _ => .error .fuel
  | fuel + 1, p, first, members =>
      if p.peek = some 0x5D ∧ (!first ∨ p.unicode ∨ p.peekAt 1 ≠ some 0x5D) then
        .ok (members, p.skip 1)
      else if p.peek = some 0x5D then
        -- `[]]`: the first bracket is a literal.
        classMembers fuel (p.skip 1) false (members ++ [.char 0x5D])
      else do
        let (atom, q) ← parseClassAtom env p
        if q.peek = some 0x2D ∧ (q.peekAt 1).any (· != 0x5D) then
          let (stop, q) ← parseClassAtom env (q.skip 1)
          match atom, stop with
          | .char s, .char e =>
              if e < s then .error (.rejected "Range out of order in character class")
              else classMembers fuel q false (members ++ [.range s e])
          | _, _ =>
              if p.unicode then .error (.rejected "Invalid character class range")
              else
                let dashed := [.char 0x2D, .fromClassAtom atom, .fromClassAtom stop]
                classMembers fuel q false (members ++ dashed)
        else classMembers fuel q false (members ++ [.fromClassAtom atom])

end

/-- What the members of a class come to: a single predicate is kept as one. -/
structure Assembly where
  ranges : Ranges := []
  strings : List (List Nat) := []
  predicate : Option (Predicate × Bool) := none

section

variable (tables : UnicodeTables) (ignoreCase unicode : Bool)

/-- The explicit ranges of a predicate. -/
def enumerate (entry : Predicate × Bool) : Ranges :=
  let set := tables.scanPredicate entry.1 ignoreCase unicode
  if entry.2 then complement set else set

def Assembly.add (acc : Assembly) : ClassMember → Assembly
  | .char c => { acc with ranges := acc.ranges ++ [(c, c)] }
  | .range s e => { acc with ranges := acc.ranges ++ [(s, e)] }
  | .set cls =>
      match cls.predicate, acc.predicate with
      | some pred, none => { acc with predicate := some (pred, cls.negated) }
      | some pred, some existing =>
          if existing = (pred, cls.negated) then acc
          else
            { acc with
              ranges := acc.ranges ++ enumerate tables ignoreCase unicode (pred, cls.negated) ++
                enumerate tables ignoreCase unicode existing
              predicate := none }
      | none, _ =>
          { acc with
            ranges := acc.ranges ++ if cls.negated then complement cls.ranges else cls.ranges
            strings := acc.strings ++ cls.strings }

def assembleClass (members : List ClassMember) (negated : Bool) : CharClass :=
  let acc := members.foldl (Assembly.add tables ignoreCase unicode) {}
  let cls : CharClass :=
    match acc.predicate with
    | some (pred, predNegated) =>
        if acc.ranges.isEmpty && acc.strings.isEmpty then
          { CharClass.fromPredicate pred (predNegated != negated) with fold := ignoreCase }
        else
          { ranges := mergeRanges
              (acc.ranges ++ enumerate tables ignoreCase unicode (pred, predNegated))
            strings := acc.strings
            negated := negated
            fold := ignoreCase }
    | none =>
        { ranges := mergeRanges acc.ranges
          strings := acc.strings
          negated := negated
          fold := ignoreCase }
  if ignoreCase && cls.predicate.isNone then
    { cls with ranges := foldRanges tables cls.ranges unicode }
  else cls

end

/-- The doubled punctuators that are refused under `v`. -/
def isDoublePunctuator (atom : Nat) : Bool :=
  [0x21, 0x23, 0x24, 0x25, 0x2A, 0x2B, 0x2C, 0x2E, 0x3A, 0x3B, 0x3C, 0x3D, 0x3E, 0x3F, 0x40, 0x5E,
    0x60, 0x7E].contains atom

/-- The strings of `\q{…}` from the one being read on. -/
def qStrings : Nat → Parser → List Nat → Except Failure (List (List Nat) × Parser)
  | 0, _, _ => .error .fuel
  | fuel + 1, p, string =>
      match p.peek with
      | none => .error (.rejected "Unterminated \\q escape")
      | some atom =>
          if atom = 0x7D then .ok ([string], p.skip 1)
          else if atom = 0x7C then do
            let (strings, q) ← qStrings fuel (p.skip 1) []
            .ok (string :: strings, q)
          else if atom = 0x5C then
            let q := p.skip 2
            match p.peekAt 1 with
            | none => .error (.rejected "\\ at end of \\q escape")
            | some atom =>
                if atom = 0x78 then
                  match byteAt q with
                  | some value => qStrings fuel (q.skip 2) (string ++ [value])
                  | none => .error (.rejected "Invalid \\x escape")
                else if atom = 0x75 then
                  match codeUnitAt q 0, byteAt q with
                  | some value, _ => qStrings fuel (q.skip 4) (string ++ [value])
                  | none, some value => qStrings fuel (q.skip 2) (string ++ [value * 0x100])
                  | none, none => .error (.rejected "Invalid \\u escape")
                else qStrings fuel q (string ++ [atom])
          else qStrings fuel (p.skip 1) (string ++ [atom])

/-- `\q{…}`, from after the opening brace. -/
def parseQString (p : Parser) : Except Failure (CharClass × Parser) := do
  let (strings, q) ← qStrings (p.rest.length + 1) p []
  if strings.any List.isEmpty then .error (.rejected "Invalid \\q escape")
  else .ok ({ strings := strings, fold := p.ignoreCase }, q)

section

variable (env : Surroundings)

/-- One more level of nesting. -/
def Parser.pushDepth (p : Parser) : Except Failure Parser :=
  if 200 < p.depth + 1 ∨ !env.hasHeadroom p.rest then
    .error (.rejected "Regular expression too deeply nested")
  else .ok { p with depth := p.depth + 1 }

def Parser.popDepth (p : Parser) : Parser :=
  { p with depth := p.depth - 1 }

mutual

/-- A set expression, from after its bracket. -/
def parseClassSet : Nat → Parser → Bool → Except Failure (CharClass × Parser)
  | 0, _, _ => .error .fuel
  | fuel + 1, p, negated => do
      let (cls, q) ← parseClassSetOperand fuel p
      let (cls, q) ← classSetRest fuel q cls
      if negated ∧ !cls.strings.isEmpty then .error (.rejected "Invalid character class")
      else
        let cls := if negated then cls.negate else cls
        let cls := if p.ignoreCase then
          { cls with ranges := foldRanges env.tables cls.ranges p.unicode } else cls
        .ok (cls, q)

/-- The operators after the first operand, up to the closing bracket. -/
def classSetRest : Nat → Parser → CharClass → Except Failure (CharClass × Parser)
  | 0, _, _ => .error .fuel
  | fuel + 1, p, cls =>
      if p.peek = some 0x26 ∧ p.peekAt 1 = some 0x26 then do
        let (right, q) ← parseClassSetOperand fuel (p.skip 2)
        classSetRest fuel q (cls.intersect right)
      else if p.peek = some 0x2D ∧ p.peekAt 1 = some 0x2D then do
        let (right, q) ← parseClassSetOperand fuel (p.skip 2)
        classSetRest fuel q (cls.difference right)
      else if p.peek = some 0x2D ∧ p.peekAt 1 ≠ some 0x5D then
        match cls.rangesSingleton with
        | none => .error (.rejected "Invalid class set character")
        | some start => do
            let (right, q) ← parseClassSetOperand fuel (p.skip 1)
            match right.rangesSingleton with
            | none => .error (.rejected "Invalid class set character")
            | some stop =>
                if stop < start then .error (.rejected "Range out of order in character class")
                else classSetRest fuel q (({} : CharClass).addRange start stop)
      else if p.peek = some 0x5D then .ok (cls, p.skip 1)
      else do
        let (operand, q) ← parseClassSetOperand fuel p
        classSetRest fuel q (cls.union operand)

def parseClassSetOperand : Nat → Parser → Except Failure (CharClass × Parser)
  | 0, _ => .error .fuel
  | fuel + 1, p =>
      match p.peek with
      | none => .error (.rejected "Unterminated character class")
      | some atom =>
          if atom = 0x5B then do
            let q := p.skip 1
            let negated := q.peek == some 0x5E
            let q := if negated then q.skip 1 else q
            let q ← q.pushDepth env
            let (cls, q) ← parseClassSet fuel q negated
            .ok (cls, q.popDepth)
          else if atom = 0x5C then
            let q := p.skip 2
            match p.peekAt 1 with
            | none => .error (.rejected "\\ at end of character class")
            | some atom =>
                match escapePredicate atom with
                | some (predicate, negated) => .ok (escapeClass env q predicate negated, q)
                | none =>
                    if atom = 0x70 ∨ atom = 0x50 then do
                      let q ← q.expect 0x7B "Invalid property escape"
                      parsePropertyEscape env q (atom == 0x50)
                    else if atom = 0x71 then do
                      let q ← q.expect 0x7B "Invalid \\q escape"
                      parseQString q
                    else do
                      let (classAtom, q) ← parseClassEscape env q atom
                      match classAtom with
                      | .char c => .ok (.singleton c, q)
                      | .escape cls => .ok (cls, q)
          else if p.flags.v ∧ [0x28, 0x29, 0x7B, 0x7D, 0x2F, 0x2D, 0x5D, 0x7C].contains atom then
            .error (.rejected "Invalid class set character")
          else if p.flags.v ∧ isDoublePunctuator atom ∧ p.peekAt 1 = some atom then
            .error (.rejected "Invalid doubled punctuator")
          else if p.flags.v ∧ atom = 0x26 ∧ p.peekAt 1 = some 0x26 then
            .error (.rejected "Invalid class set intersection")
          else .ok (.singleton atom, p.skip 1)

end

/-- A character class, from its bracket on. -/
def parseCharacterClass (p : Parser) : Except Failure (Node × Parser) := do
  let q := p.skip 1
  let negated := q.peek == some 0x5E
  let q := if negated then q.skip 1 else q
  if p.flags.v then
    let (cls, q) ← parseClassSet env (2 * q.rest.length + 2) q negated
    .ok (.charClass cls, q)
  else
    let (members, q) ← classMembers env (q.rest.length + 1) q true []
    .ok (.charClass (assembleClass env.tables p.ignoreCase p.unicode members negated), q)

end

end Slag.Regexp
