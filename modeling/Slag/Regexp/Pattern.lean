import Slag.Regexp.ClassParser

/-!
The pattern parser: escapes, groups, terms and alternatives, and the pre-scan of
the whole pattern that counts its groups.
-/

namespace Slag.Regexp

/-- Surrogate pairs of a name as one code point each. -/
def combinePairs : List Nat → List Nat
  | hi :: lo :: rest =>
      if 0xD800 ≤ hi ∧ hi ≤ 0xDBFF ∧ 0xDC00 ≤ lo ∧ lo ≤ 0xDFFF then
        (0x10000 + (hi - 0xD800) * 0x400 + (lo - 0xDC00)) :: combinePairs rest
      else hi :: combinePairs (lo :: rest)
  | rest => rest

/-- The atoms of a group name, its escapes decoded. -/
def groupNameAtoms : Nat → Parser → Except Failure (List Nat × Parser)
  | 0, _ => .error .fuel
  | fuel + 1, p =>
      match p.peek with
      | none => .ok ([], p)
      | some a =>
          if a = 0x3E then .ok ([], p)
          else do
            let (value, q) ←
              if a = 0x5C then
                let q := p.skip 2
                if p.peekAt 1 ≠ some 0x75 then .error (.rejected "Invalid capture group name")
                else if q.peek = some 0x7B then codePointEscape (q.skip 1)
                else
                  match codeUnitAt q 0, byteAt q with
                  | some value, _ => .ok (value, q.skip 4)
                  | none, some value => .ok (value * 0x100, q.skip 2)
                  | none, none => .error (.rejected "Invalid \\u escape")
              else .ok (a, p.skip 1)
            let (name, q) ← groupNameAtoms fuel q
            .ok (value :: name, q)

/-- A group name up to its `>`; escapes decode into the name in both modes. -/
def parseGroupName (env : Surroundings) (p : Parser) : Except Failure (List Nat × Parser) := do
  let (name, q) ← groupNameAtoms (p.rest.length + 1) p
  match combinePairs name with
  | [] => .error (.rejected "Invalid capture group name")
  | first :: others =>
      if env.isIdentifierStart first && others.all env.isIdentifierPart then .ok (name, q)
      else .error (.rejected "Invalid capture group name")

/-- `\k<name>`, from its `<`. -/
def parseNamedBackreference (env : Surroundings) (p : Parser) : Except Failure (Node × Parser) := do
  let (name, q) ← parseGroupName env (p.skip 1)
  let q ← q.expect 0x3E "Invalid named capture reference"
  match q.namedGroups.get name, q.totalNamedGroups.get name with
  | some indices, _ => .ok (.backref indices q.ignoreCase, q)
  | none, some indices => .ok (.backref indices q.ignoreCase, q)
  | none, none => .error (.rejected "Invalid named capture reference")

/-- `\1` to `\9`: the group of one digit, or of two where there are so many. -/
def decimalEscape (env : Surroundings) (p : Parser) (atom : Nat) :
    Except Failure (Node × Parser) :=
  let group := atom - 0x30
  if group ≤ p.totalGroups then
    match p.peek with
    | some d =>
        if isDigit d ∧ group * 10 + (d - 0x30) ≤ p.totalGroups then
          .ok (.backref [group * 10 + (d - 0x30)] p.ignoreCase, p.skip 1)
        else .ok (.backref [group] p.ignoreCase, p)
    | none => .ok (.backref [group] p.ignoreCase, p)
  else if p.unicode then .error (.rejected "Invalid decimal escape")
  else if atom = 0x38 ∨ atom = 0x39 then .ok (charNode env.tables p atom, p)
  else
    let (value, q) := octalEscape p group
    .ok (charNode env.tables q value, q)

/-- An escape after the backslash and `atom`. -/
def parseAtomEscape (env : Surroundings) (p : Parser) (atom : Nat) :
    Except Failure (Node × Parser) :=
  if atom = 0x30 then
    if p.peek.any isDigit then
      if p.unicode then .error (.rejected "Invalid decimal escape")
      else
        let (value, q) := octalEscape p 0
        .ok (charNode env.tables q value, q)
    else .ok (charNode env.tables p 0, p)
  else if isDigit atom then decimalEscape env p atom
  else if atom = 0x78 then
    match byteAt p with
    | some value => .ok (charNode env.tables p value, p.skip 2)
    | none =>
        if p.unicode then .error (.rejected "Invalid \\x escape")
        else .ok (charNode env.tables p 0x78, p)
  else if atom = 0x75 then
    if p.unicode ∧ p.peek = some 0x7B then do
      let (value, q) ← codePointEscape (p.skip 1)
      .ok (charNode env.tables q value, q)
    else
      match codeUnitAt p 0 with
      | some unit => charFromCodeUnit env.tables (p.skip 4) unit
      | none =>
          if p.unicode then .error (.rejected "Invalid \\u escape")
          else .ok (charNode env.tables p 0x75, p)
  else if atom = 0x63 then
    match p.peek with
    | some letter =>
        if isControlLetter letter then .ok (charNode env.tables p (letter % 32), p.skip 1)
        else if p.unicode then .error (.rejected "Invalid control escape")
        -- The cursor goes back over the `c`.
        else .ok (charNode env.tables p 0x5C, { p with rest := 0x63 :: p.rest })
    | none =>
        if p.unicode then .error (.rejected "Invalid control escape")
        else .ok (charNode env.tables p 0x5C, { p with rest := 0x63 :: p.rest })
  else if atom = 0x6B then
    if p.peek = some 0x3C ∧ (p.unicode ∨ p.hasGroupNames) then parseNamedBackreference env p
    else if p.unicode ∨ p.hasGroupNames then .error (.rejected "Invalid named capture reference")
    else .ok (charNode env.tables p 0x6B, p)
  else
    match controlEscape atom with
    | some c => .ok (charNode env.tables p c, p)
    | none =>
        if p.unicode ∧ !isIdentityEscapeAllowed atom then .error (.rejected "Invalid escape")
        else .ok (charNode env.tables p atom, p)

/-- A term that begins with a backslash. -/
def parseBackslash (env : Surroundings) (p : Parser) : Except Failure (Node × Parser) :=
  let q := p.skip 2
  match p.peekAt 1 with
  | none => .error (.rejected "\\ at end of pattern")
  | some atom =>
      match escapePredicate atom with
      | some (predicate, negated) => .ok (.charClass (escapeClass env q predicate negated), q)
      | none =>
          if atom = 0x70 ∨ atom = 0x50 then
            if q.unicode then do
              let q ← q.expect 0x7B "Invalid regular expression: missing \x7b after \\p"
              let (cls, q) ← parsePropertyEscape env q (atom == 0x50)
              .ok (.charClass cls, q)
            else .ok (charNode env.tables q atom, q)
          else if atom = 0x62 then .ok (.wordBoundary (q.unicode && q.ignoreCase), q)
          else if atom = 0x42 then .ok (.notWordBoundary (q.unicode && q.ignoreCase), q)
          else parseAtomEscape env q atom

/-- The modifiers a group adds and removes, with what follows their `:` or `)`. -/
def scanModifiers (add remove : List Nat) (sawMinus : Bool) :
    List Nat → Except Failure (List Nat × List Nat × List Nat)
  | [] => .error (.rejected "Invalid group modifier")
  | a :: rest =>
      if a = 0x69 ∨ a = 0x6D ∨ a = 0x73 then
        if (if sawMinus then remove else add).contains a then
          .error (.rejected "Duplicate modifier")
        else if sawMinus then scanModifiers add (a :: remove) sawMinus rest
        else scanModifiers (a :: add) remove sawMinus rest
      else if a = 0x2D ∧ !sawMinus then scanModifiers add remove true rest
      else if a = 0x3A ∨ a = 0x29 then
        if add.any remove.contains then .error (.rejected "Modifier added and removed")
        else if sawMinus ∧ add = [] ∧ remove = [] then .error (.rejected "Empty modifiers")
        else .ok (add, remove, rest)
      else .error (.rejected "Invalid group modifier")

def Parser.applyModifiers (p : Parser) (add remove : List Nat) : Parser :=
  let apply (a : Nat) (old : Bool) : Bool :=
    if add.contains a || remove.contains a then add.contains a else old
  { p with
    ignoreCase := apply 0x69 p.ignoreCase
    multiline := apply 0x6D p.multiline
    dotAll := apply 0x73 p.dotAll }

namespace Node

def isLookbehind : Node → Bool
  | .lookbehind _ _ => true
  | _ => false

def isAssertion : Node → Bool
  | .start _ | .finish _ | .wordBoundary _ | .notWordBoundary _ | .lookahead _ _
  | .lookbehind _ _ => true
  | _ => false

end Node

/-- A capture group's index, with the parser that has counted it. -/
def Parser.openGroup (p : Parser) : Nat × Parser :=
  (p.capturingGroups + 1, { p with capturingGroups := p.capturingGroups + 1 })

/-- A named capture group's index. A name may come again only in another
alternative. -/
def Parser.openNamedGroup (p : Parser) (name : List Nat) : Except Failure (Nat × Parser) :=
  if p.altNames.any fun names => names.contains name then
    .error (.rejected "Duplicate named capture group")
  else
    let index := p.capturingGroups + 1
    .ok (index,
      { p with
        capturingGroups := index
        altNames := match p.altNames with
          | [] => []
          | names :: outer => (name :: names) :: outer
        namedGroups := p.namedGroups.push name index
        namedGroupOrder :=
          if (p.namedGroups.get name).isNone then p.namedGroupOrder ++ [name]
          else p.namedGroupOrder
        hasGroupNames := true })

section

variable (env : Surroundings)

mutual

def parseDisjunction : Nat → Parser → Except Failure (Node × Parser)
  | 0, _ => .error .fuel
  | fuel + 1, p => do
      let (alternatives, names, q) ← parseAlternatives fuel p
      let q := match q.altNames with
        | [] => q
        | parent :: outer => { q with altNames := (names ++ parent) :: outer }
      match alternatives with
      | [alt] => .ok (.sequence alt, q)
      | alternatives => .ok (.alternate alternatives, q)

/-- The alternatives from the cursor on, with the group names they use. -/
def parseAlternatives : Nat → Parser →
    Except Failure (List (List Node) × List (List Nat) × Parser)
  | 0, _ => .error .fuel
  | fuel + 1, p => do
      let (alt, q) ← parseAlternative fuel { p with altNames := [] :: p.altNames }
      let names := q.altNames.headD []
      let q := { q with altNames := q.altNames.tail }
      if q.peek = some 0x7C then
        let (alternatives, others, q) ← parseAlternatives fuel (q.skip 1)
        .ok (alt :: alternatives, names ++ others, q)
      else .ok ([alt], names, q)

def parseAlternative : Nat → Parser → Except Failure (List Node × Parser)
  | 0, _ => .error .fuel
  | fuel + 1, p =>
      if p.peek = none ∨ p.peek = some 0x29 ∨ p.peek = some 0x7C then .ok ([], p)
      else do
        let (node, q) ← parseTerm fuel p
        let (nodes, q) ← parseAlternative fuel q
        .ok (node :: nodes, q)

def parseTerm : Nat → Parser → Except Failure (Node × Parser)
  | 0, _ => .error .fuel
  | fuel + 1, p => do
      let (node, q) ← termNode fuel p
      let (quantifier, q) ← parseQuantifier q
      if quantifier.isSome ∧ (node.isLookbehind ∨ (q.unicode ∧ node.isAssertion)) then
        .error (.rejected "Assertion cannot be quantified")
      else
        match quantifier with
        | none => .ok (node, q)
        | some (low, high, greedy) =>
            .ok (.repeated node low high greedy node.collectCaptures, q)

/-- A term without its quantifier. -/
def termNode : Nat → Parser → Except Failure (Node × Parser)
  | 0, _ => .error .fuel
  | fuel + 1, p =>
      match p.peek with
      | none => .error (.rejected "Unexpected end of pattern")
      | some atom =>
          if atom = 0x5E then .ok (.start p.multiline, p.skip 1)
          else if atom = 0x24 then .ok (.finish p.multiline, p.skip 1)
          else if atom = 0x5C then parseBackslash env p
          else if atom = 0x5B then parseCharacterClass env p
          else if atom = 0x2E then .ok (.any p.dotAll, p.skip 1)
          else if atom = 0x28 then parseGroup fuel p
          -- A quantifier with nothing before it; a brace begins one where a digit follows.
          else if atom = 0x2A ∨ atom = 0x2B ∨ atom = 0x3F ∨
              (atom = 0x7B ∧ (p.peekAt 1).any isDigit) then
            .error (.rejected "Nothing to repeat")
          else if p.unicode ∧ (atom = 0x7B ∨ atom = 0x7D ∨ atom = 0x5D) then
            .error (.rejected "Invalid pattern character")
          else .ok (charNode env.tables p atom, p.skip 1)

def parseGroup : Nat → Parser → Except Failure (Node × Parser)
  | 0, _ => .error .fuel
  | fuel + 1, p => do
      let q ← (p.skip 1).pushDepth env
      let (node, q) ← parseGroupInner fuel q
      .ok (node, q.popDepth)

def parseGroupInner : Nat → Parser → Except Failure (Node × Parser)
  | 0, _ => .error .fuel
  | fuel + 1, p =>
      if p.peek = some 0x3F then
        let p := p.skip 1
        if p.peek = some 0x3A then parseGroupBody fuel (p.skip 1)
        else if p.peek = some 0x3D then do
          let (body, q) ← parseGroupBody fuel (p.skip 1)
          .ok (.lookahead false body, q)
        else if p.peek = some 0x21 then do
          let (body, q) ← parseGroupBody fuel (p.skip 1)
          .ok (.lookahead true body, q)
        else if p.peek = some 0x3C then
          let p := p.skip 1
          if p.peek = some 0x3D then do
            let (body, q) ← parseGroupBody fuel (p.skip 1)
            .ok (.lookbehind false body, q)
          else if p.peek = some 0x21 then do
            let (body, q) ← parseGroupBody fuel (p.skip 1)
            .ok (.lookbehind true body, q)
          else do
            let (name, q) ← parseGroupName env p
            let q ← q.expect 0x3E "Invalid capture group name"
            let (index, q) ← q.openNamedGroup name
            let (body, q) ← parseGroupBody fuel q
            .ok (.capture index body, q)
        else if p.peek = some 0x69 ∨ p.peek = some 0x6D ∨ p.peek = some 0x73 ∨
            p.peek = some 0x2D then do
          let (add, remove, rest) ← scanModifiers [] [] false p.rest
          let (body, q) ← parseGroupBody fuel ({ p with rest := rest }.applyModifiers add remove)
          .ok (body,
            { q with ignoreCase := p.ignoreCase, multiline := p.multiline, dotAll := p.dotAll })
        else .error (.rejected "Invalid group")
      else do
        let (index, q) := p.openGroup
        let (body, q) ← parseGroupBody fuel q
        .ok (.capture index body, q)

/-- The disjunction of a group up to its closing parenthesis. -/
def parseGroupBody : Nat → Parser → Except Failure (Node × Parser)
  | 0, _ => .error .fuel
  | fuel + 1, p => do
      let (body, q) ← parseDisjunction fuel p
      let q ← q.expect 0x29 "Unterminated group"
      .ok (body, q)

end

end

/-- What follows a class, from after its bracket, for the pre-scan. -/
def skipClass : List Nat → List Nat
  | [] => []
  | a :: rest =>
      if a = 0x5D then rest
      else if a = 0x5C then
        match rest with
        | [] => []
        | _ :: rest => skipClass rest
      else skipClass rest

/-- The pre-scan from some place on: the groups counted so far and their names. -/
def scanFrom : Nat → List Nat → Nat → Names → Nat × Names
  | 0, _, count, named => (count, named)
  | _, [], count, named => (count, named)
  | fuel + 1, a :: rest, count, named =>
      if a = 0x5C then scanFrom fuel (rest.drop 1) count named
      else if a = 0x5B then scanFrom fuel (skipClass rest) count named
      else if a = 0x28 then
        if rest[0]? = some 0x3F then
          if rest[1]? = some 0x3A ∨ rest[1]? = some 0x3D ∨ rest[1]? = some 0x21 then
            scanFrom fuel (rest.drop 2) count named
          else if rest[1]? = some 0x3C then
            if rest[2]? = some 0x3D ∨ rest[2]? = some 0x21 then
              scanFrom fuel (rest.drop 3) count named
            else
              let name := (rest.drop 2).takeWhile (· != 0x3E)
              scanFrom fuel ((rest.drop 2).drop (name.length + 1)) (count + 1)
                (named.push name (count + 1))
          else scanFrom fuel (rest.drop 1) count named
        else scanFrom fuel rest (count + 1) named
      else scanFrom fuel rest count named

/-- The number of capturing groups and the named ones. -/
def scanPattern (atoms : List Nat) : Nat × Names :=
  scanFrom atoms.length atoms 0 []

def patternAtoms (pattern : List UInt16) (flags : Flags) : List Nat :=
  if flags.hasUnicode then Utf16.decode pattern else pattern.map UInt16.toNat

/-- The parser a pattern is parsed with. -/
def Parser.init (atoms : List Nat) (flags : Flags) : Parser where
  rest := atoms
  flags := flags
  ignoreCase := flags.i
  multiline := flags.m
  dotAll := flags.s
  totalGroups := (scanPattern atoms).1
  totalNamedGroups := (scanPattern atoms).2
  hasGroupNames := !(scanPattern atoms).2.isEmpty

/-- A parsed pattern, with the names of its groups. -/
structure ParsedPattern where
  program : Node
  capturingGroups : Nat
  namedGroups : Names
  namedGroupOrder : List (List Nat)
  hasGroupNames : Bool

def parseAndValidate (env : Surroundings) (pattern : List UInt16) (flags : Flags) :
    Except Failure ParsedPattern := do
  let atoms := patternAtoms pattern flags
  let (program, q) ← parseDisjunction env (8 * atoms.length + 8) (.init atoms flags)
  if q.rest ≠ [] then .error (.rejected "Unmatched parentheses in regular expression")
  else .ok ⟨program, q.capturingGroups, q.namedGroups, q.namedGroupOrder, q.hasGroupNames⟩

def compilePattern (env : Surroundings) (pattern : List UInt16) (flags : Flags) :
    Except Failure Regex := do
  let parsed ← parseAndValidate env pattern flags
  .ok (Regex.compile env.tables flags.hasUnicode parsed.program.coalesceRepeats
    parsed.capturingGroups)

/-- Surroundings without property names, enough for plain patterns. -/
def plainSurroundings : Surroundings where
  tables := plainTables
  isIdentifierStart := isControlLetter
  isIdentifierPart := isControlLetter
  propertyOfStrings _ := none
  categoryAbbreviation _ := none
  canonicalScriptName _ := none
  binaryPropertyName _ := none
  hasHeadroom _ := true

end Slag.Regexp
