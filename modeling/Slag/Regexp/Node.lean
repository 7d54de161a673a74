import Mathlib.Algebra.GroupWithZero.Nat
import Mathlib.Data.List.Basic

/-!
The compiled pattern and the reading of input characters. The tables of the
`unicode` crate that come from generated data are a parameter.
-/

namespace Slag.Regexp

/-- The property tables of the `unicode` crate. -/
structure UnicodeTables where
  simpleCaseFold : Nat → Nat
  nonUnicodeCanonicalize : Nat → Nat
  generalCategory : Nat → String
  script : Nat → Option String
  scriptExtensions : Nat → List String
  binaryProperty : Nat → String → Option Bool

def isWhiteSpace (cp : Nat) : Bool :=
  cp == 0x0009 || cp == 0x000B || cp == 0x000C || cp == 0x0020 || cp == 0x00A0 ||
    cp == 0x1680 || (0x2000 ≤ cp && cp ≤ 0x200A) || cp == 0x202F || cp == 0x205F ||
    cp == 0x3000 || cp == 0xFEFF

def isLineTerminator (cp : Nat) : Bool :=
  cp == 0x000A || cp == 0x000D || cp == 0x2028 || cp == 0x2029

def isAsciiWordChar (cp : Nat) : Bool :=
  (0x30 ≤ cp && cp ≤ 0x39) || (0x41 ≤ cp && cp ≤ 0x5A) || (0x61 ≤ cp && cp ≤ 0x7A) || cp == 0x5F

inductive Predicate where
  | digits
  | word
  | space
  | generalCategory (abbr : String)
  | script (name : String)
  | scriptExtensions (name : String)
  | binary (name : String)
  deriving DecidableEq, Repr

structure CharClass where
  ranges : List (Nat × Nat) := []
  strings : List (List Nat) := []
  negated : Bool := false
  predicate : Option Predicate := none
  fold : Bool := false
  deriving DecidableEq, Repr

/-- A compiled pattern node. Character positions are code-unit indices. -/
inductive Node where
  | empty
  | char (cp : Nat) (fold : Bool)
  | any (dotAll : Bool)
  | start (multiline : Bool)
  | finish (multiline : Bool)
  | wordBoundary (extraFolded : Bool)
  | notWordBoundary (extraFolded : Bool)
  | charClass (cls : CharClass)
  | sequence (nodes : List Node)
  | alternate (alts : List (List Node))
  | repeated (node : Node) (min : Nat) (max : Option Nat) (greedy : Bool)
      (ownedCaptures : List Nat)
  | capture (index : Nat) (node : Node)
  | backref (indices : List Nat) (fold : Bool)
  | lookahead (negate : Bool) (node : Node)
  | lookbehind (negate : Bool) (node : Node)

namespace Node

mutual

/-- Capture indices within a node, nested groups and lookarounds included. -/
def collectCaptures : Node → List Nat
  | .capture index node => index :: node.collectCaptures
  | .sequence nodes => collectCapturesSeq nodes
  | .alternate alts => collectCapturesAlts alts
  | .repeated node _ _ _ _ => node.collectCaptures
  | .lookahead _ node => node.collectCaptures
  | .lookbehind _ node => node.collectCaptures
  | _ => []

def collectCapturesSeq : List Node → List Nat
  | [] => []
  | node :: nodes => node.collectCaptures ++ collectCapturesSeq nodes

def collectCapturesAlts : List (List Node) → List Nat
  | [] => []
  | alt :: alts => collectCapturesSeq alt ++ collectCapturesAlts alts

end

mutual

/-- No backreference anywhere in the pattern. -/
def isBackrefFree : Node → Bool
  | .sequence nodes => isBackrefFreeSeq nodes
  | .alternate alts => isBackrefFreeAlts alts
  | .repeated node _ _ _ _ => node.isBackrefFree
  | .capture _ node => node.isBackrefFree
  | .lookahead _ node => node.isBackrefFree
  | .lookbehind _ node => node.isBackrefFree
  | .backref _ _ => false
  | _ => true

def isBackrefFreeSeq : List Node → Bool
  | [] => true
  | node :: nodes => node.isBackrefFree && isBackrefFreeSeq nodes

def isBackrefFreeAlts : List (List Node) → Bool
  | [] => true
  | alt :: alts => isBackrefFreeSeq alt && isBackrefFreeAlts alts

end

/-- A single atom with at most one match endpoint per position. -/
def isLinearAtom : Node → Bool
  | .char _ _ => true
  | .any _ => true
  | .charClass cls => cls.strings.isEmpty
  | _ => false

end Node

/-- A place in the compiled tree: the path to a node stands for its address. -/
structure NodeRef where
  addr : List Nat
  node : Node

/-- The atom a greedy repeat can consume iteratively. -/
def simpleAtom (addr : List Nat) : Node → Option NodeRef
  | .char cp fold => some ⟨addr, .char cp fold⟩
  | .any dotAll => some ⟨addr, .any dotAll⟩
  | .charClass cls => if cls.strings.isEmpty then some ⟨addr, .charClass cls⟩ else none
  | .capture _ inner => simpleAtom (0 :: addr) inner
  | .sequence [node] => simpleAtom (0 :: addr) node
  | .sequence nodes =>
      if !nodes.isEmpty && nodes.all Node.isLinearAtom then some ⟨addr, .sequence nodes⟩ else none
  | _ => none

mutual

/-- The atoms of the repeats whose enclosing repeats all have `min ≤ 1`. -/
def memoSafeAtoms (addr : List Nat) (enclMinOk : Bool) : Node → List (List Nat)
  | .repeated node min _ _ _ =>
      (if enclMinOk then ((simpleAtom (0 :: addr) node).map NodeRef.addr).toList else []) ++
        memoSafeAtoms (0 :: addr) (enclMinOk && decide (min ≤ 1)) node
  | .sequence nodes => memoSafeAtomsSeq addr 0 enclMinOk nodes
  | .alternate alts => memoSafeAtomsAlts addr 0 enclMinOk alts
  | .capture _ node => memoSafeAtoms (0 :: addr) enclMinOk node
  | .lookahead _ node => memoSafeAtoms (0 :: addr) enclMinOk node
  | .lookbehind _ node => memoSafeAtoms (0 :: addr) enclMinOk node
  | _ => []

def memoSafeAtomsSeq (addr : List Nat) (i : Nat) (enclMinOk : Bool) : List Node → List (List Nat)
  | [] => []
  | node :: nodes =>
      memoSafeAtoms (i :: addr) enclMinOk node ++ memoSafeAtomsSeq addr (i + 1) enclMinOk nodes

def memoSafeAtomsAlts (addr : List Nat) (i : Nat) (enclMinOk : Bool) :
    List (List Node) → List (List Nat)
  | [] => []
  | alt :: alts =>
      memoSafeAtomsSeq (i :: addr) 0 enclMinOk alt ++ memoSafeAtomsAlts addr (i + 1) enclMinOk alts

end

inductive Direction where
  | forward
  | backward
  deriving DecidableEq, Repr

structure Ctx where
  tables : UnicodeTables
  input : List UInt16
  unicode : Bool

namespace Ctx

variable (ctx : Ctx)

def unit (pos : Nat) : Option Nat :=
  (ctx.input[pos]?).map UInt16.toNat

def canonicalize (unicode : Bool) (cp : Nat) : Nat :=
  if unicode then ctx.tables.simpleCaseFold cp else ctx.tables.nonUnicodeCanonicalize cp

/-- The code point at an index and the units it takes, none past the end. -/
def codePointAt (index : Nat) : Option (Nat × Nat) :=
  match ctx.unit index with
  | none => none
  | some hi =>
      if 0xD800 ≤ hi ∧ hi ≤ 0xDBFF then
        match ctx.unit (index + 1) with
        | some lo =>
            if 0xDC00 ≤ lo ∧ lo ≤ 0xDFFF then
              some (0x10000 + (hi - 0xD800) * 0x400 + (lo - 0xDC00), 2)
            else some (hi, 1)
        | none => some (hi, 1)
      else some (hi, 1)

/-- Read one input character at `pos`. -/
def readChar (pos : Nat) : Option (Nat × Nat) :=
  if ctx.unicode then ctx.codePointAt pos else (ctx.unit pos).map fun u => (u, 1)

/-- Read the input character that ends at `pos`. -/
def readCharBack (pos : Nat) : Option (Nat × Nat) :=
  if pos = 0 then none
  else
    match ctx.unit (pos - 1) with
    | none => none
    | some u =>
        if ctx.unicode ∧ 0xDC00 ≤ u ∧ u ≤ 0xDFFF ∧ 2 ≤ pos then
          match ctx.unit (pos - 2) with
          | some hi =>
              if 0xD800 ≤ hi ∧ hi ≤ 0xDBFF then
                some (0x10000 + (hi - 0xD800) * 0x400 + (u - 0xDC00), 2)
              else some (u, 1)
          | none => some (u, 1)
        else some (u, 1)

def readCharDir (pos : Nat) : Direction → Option (Nat × Nat)
  | .forward => ctx.readChar pos
  | .backward => ctx.readCharBack pos

/-- A position advanced by `len` units in the match direction. -/
def advance (pos : Nat) (dir : Direction) (len : Nat) : Nat :=
  match dir with
  | .forward => pos + len
  | .backward => pos - len

def isLineTerminatorAt (pos : Nat) : Bool :=
  match ctx.readChar pos with
  | some (c, _) => isLineTerminator c
  | none => false

def isWordCharAt (pos : Nat) (extraFolded : Bool) : Bool :=
  match ctx.readChar pos with
  | some (c, _) =>
      isAsciiWordChar c || (extraFolded && isAsciiWordChar (ctx.canonicalize true c))
  | none => false

def predicateMatches (pred : Predicate) (cp : Nat) : Bool :=
  match pred with
  | .digits => 0x30 ≤ cp && cp ≤ 0x39
  | .word => isAsciiWordChar cp
  | .space => isWhiteSpace cp || isLineTerminator cp
  | .generalCategory abbr =>
      let gc := ctx.tables.generalCategory cp
      if abbr = "LC" then gc == "Lu" || gc == "Ll" || gc == "Lt"
      else if abbr.length = 1 then abbr.toList.isPrefixOf gc.toList
      else gc == abbr
  | .script name => ctx.tables.script cp == some name
  | .scriptExtensions name => (ctx.tables.scriptExtensions cp).contains name
  | .binary name => (ctx.tables.binaryProperty cp name).getD false

def rangesContain (ranges : List (Nat × Nat)) (cp : Nat) : Bool :=
  ranges.any fun range => range.1 ≤ cp && cp ≤ range.2

/-- The code points from `pos` on are those of a class string. -/
def stringAt : List Nat → Nat → Bool
  | [], _ => true
  | want :: rest, pos =>
      match ctx.readChar pos with
      | some (c, len) => c == want && stringAt rest (pos + len)
      | none => false

/-- The code points that end at `pos`, last first, are those of a reversed class string. -/
def stringAtBack : List Nat → Nat → Bool
  | [], _ => true
  | want :: rest, pos =>
      match ctx.readCharBack pos with
      | some (c, len) => c == want && stringAtBack rest (pos - len)
      | none => false

def stringAtDir (pos : Nat) (string : List Nat) : Direction → Bool
  | .forward => ctx.stringAt string pos
  | .backward => ctx.stringAtBack string.reverse pos

/-- The code-unit length of a class string at match time. -/
def stringUnits (string : List Nat) : Nat :=
  if ctx.unicode then (string.map fun cp => if cp > 0xFFFF then 2 else 1).sum
  else string.length

/-- Whether the class matches the character `c` read at `pos`. -/
def classMatches (cls : CharClass) (pos : Nat) (c : Nat) (dir : Direction) : Bool :=
  let cc := if cls.fold then ctx.canonicalize ctx.unicode c else c
  let inSet :=
    (match cls.predicate with
      | some pred => ctx.predicateMatches pred cc
      | none => rangesContain cls.ranges cc) ||
    cls.strings.any fun string => ctx.stringAtDir pos string dir
  inSet != cls.negated

/-- Compare two windows of one length, canonicalizing under ignore-case. -/
def unitsEq (a b : List UInt16) (fold : Bool) : Bool :=
  if fold then
    (a.zip b).all fun pair =>
      ctx.canonicalize ctx.unicode pair.1.toNat == ctx.canonicalize ctx.unicode pair.2.toNat
  else a == b

end Ctx

end Slag.Regexp
