import Mathlib.Algebra.Group.Nat.Defs
import Mathlib.Data.Nat.Notation
import Mathlib.Data.List.Basic

/-!
The representations of a JavaScript string: inline and shared buffers, append
nodes, ropes and views of a parent, each in a box of the arena. A node computes
its contiguous form at the first read and keeps it.
-/

namespace Slag.Rope

abbrev Units := List UInt16

/-- The box a value points at. -/
abbrev Handle := Nat

def smallStringCap : Nat := 16

def concatFlatThreshold : Nat := 16

/-- What a machine word counts up to. -/
def wordSize : Nat := 2 ^ 64

/-- The cache of an append node or a rope is its own content, that of a view is
the content of the whole parent. -/
inductive JsString
  | flat (units : Units)
  | small (len : Nat) (units : Units)
  | consString (left right : Handle) (len : Nat) (flat : Option Units)
  | rope (left right : Option Handle) (len : Nat) (flat : Option Units)
  | sliced (parent : Handle) (offset len : Nat) (flat : Option Units)
deriving DecidableEq, Repr

/-- The boxes, in the order they were made. -/
abbrev Heap := List JsString

namespace JsString

/-- The inline form: a buffer of a fixed size, filled from the front. -/
def inline (units : Units) : JsString :=
  .small units.length (units ++ List.replicate (smallStringCap - units.length) 0)

def fromUtf16 (units : Units) : JsString :=
  if units.length ≤ smallStringCap then inline units else .flat units

/-- The inline buffer while it is filled; none when it would overflow. -/
def fillInline : Units → Units → Option Units
  | buf, [] => some buf
  | buf, unit :: units =>
      if smallStringCap ≤ buf.length then none else fillInline (buf ++ [unit]) units

def encodeChar (c : Char) : Units :=
  if c.toNat < 0x10000 then [.ofNat c.toNat]
  else
    [.ofNat (0xD800 + (c.toNat - 0x10000) / 0x400), .ofNat (0xDC00 + (c.toNat - 0x10000) % 0x400)]

def encodeUtf16 (text : List Char) : Units := text.flatMap encodeChar

def fromUtf8 (text : List Char) : JsString :=
  match fillInline [] (encodeUtf16 text) with
  | some buf => inline buf
  | none => .flat (encodeUtf16 text)

def isLeaf : JsString → Bool
  | .flat _ | .small .. => true
  | _ => false

def len : JsString → Nat
  | .flat units => units.length
  | .small len _ | .consString _ _ len _ | .rope _ _ len _ | .sliced _ _ len _ => len

/-- The flatten cache of a node. -/
def cache : JsString → Option Units
  | .consString _ _ _ cached | .rope _ _ _ cached | .sliced _ _ _ cached => cached
  | _ => none

/-- A cell is filled once. -/
def fill (units : Units) : JsString → JsString
  | .consString left right len none => .consString left right len (some units)
  | .rope left right len none => .rope left right len (some units)
  | .sliced parent offset len none => .sliced parent offset len (some units)
  | s => s

/-- A copy of a node starts with an empty cache. -/
def clone : JsString → JsString
  | .consString left right len _ => .consString left right len none
  | .rope left right len _ => .rope left right len none
  | .sliced parent offset len _ => .sliced parent offset len none
  | s => s

end JsString

/-- A range of a buffer; none where the index panics. -/
def window (units : Units) (offset len : Nat) : Option Units :=
  if offset + len ≤ units.length then some ((units.drop offset).take len) else none

def Heap.alloc (heap : Heap) (s : JsString) : Heap × Handle := (heap ++ [s], heap.length)

def Heap.len (heap : Heap) (h : Handle) : Nat := (heap[h]?.map JsString.len).getD 0

def Heap.isLeaf (heap : Heap) (h : Handle) : Bool := (heap[h]?.map JsString.isLeaf).getD false

/-- The buffer of a flat box. -/
def Heap.flatUnits (heap : Heap) (h : Handle) : Option Units :=
  match heap[h]? with
  | some (.flat units) => some units
  | _ => none

mutual

/-- The content of a box, and the boxes with what the read has cached. -/
def asSlice : Nat → Heap → Handle → Option (Heap × Units)
  | 0, _, _ => none
  | fuel + 1, heap, h =>
      match heap[h]? with
      | some (.flat units) => some (heap, units)
      | some (.small len units) => (window units 0 len).map (heap, ·)
      | some (.consString _ _ _ (some flat)) | some (.rope _ _ _ (some flat)) => some (heap, flat)
      | some (.consString _ _ _ none) | some (.rope _ _ _ none) => do
          let (heap, flat) ← flattenInto fuel heap [h] []
          return (heap.modify h (JsString.fill flat), flat)
      | some (.sliced _ offset len (some flat)) => (window flat offset len).map (heap, ·)
      | some (.sliced parent offset len none) => do
          let (heap, flat) ← (heap.flatUnits parent).elim (asSlice fuel heap parent)
            fun units => some (heap, units)
          return (heap.modify h (JsString.fill flat), ← window flat offset len)
      | none => none

/-- The leaves below the boxes of a stack, in order. -/
def flattenInto : Nat → Heap → List Handle → Units → Option (Heap × Units)
  | 0, _, _, _ => none
  | _ + 1, heap, [], units => some (heap, units)
  | fuel + 1, heap, h :: stack, units =>
      match heap[h]? with
      | some (.flat flat) => flattenInto fuel heap stack (units ++ flat)
      | some (.small len buf) => do flattenInto fuel heap stack (units ++ (← window buf 0 len))
      | some (.consString left right _ _) => flattenInto fuel heap (left :: right :: stack) units
      | some (.rope left right _ _) =>
          flattenInto fuel heap (left.toList ++ right.toList ++ stack) units
      | some (.sliced parent offset len _) => do
          let (heap, flat) ← asSlice fuel heap parent
          flattenInto fuel heap stack (units ++ (← window flat offset len))
      | none => none

end

/-- Two operands copied into one inline buffer; none where the copy panics. -/
def inlinePair (left right : Units) (len : Nat) : Option JsString :=
  if left.length + right.length = len ∧ len ≤ smallStringCap then
    some (JsString.inline (left ++ right))
  else none

def concatUnits (fuel : Nat) (heap : Heap) (left : Handle) (right : Units) :
    Option (Heap × Handle) := do
  if right.isEmpty then return (heap, left)
  let (heap, l) ← asSlice fuel heap left
  let len := (l.length + right.length) % wordSize
  if len ≤ concatFlatThreshold then return heap.alloc (← inlinePair l right len)
  return heap.alloc (.flat (l ++ right))

def concatUnitsLeft (fuel : Nat) (heap : Heap) (left : Units) (right : Handle) :
    Option (Heap × Handle) := do
  if left.isEmpty then return (heap, right)
  let (heap, r) ← asSlice fuel heap right
  let len := (left.length + r.length) % wordSize
  if len ≤ concatFlatThreshold then return heap.alloc (← inlinePair left r len)
  return heap.alloc (.flat (left ++ r))

def concat (fuel : Nat) (heap : Heap) (left right : Handle) : Option (Heap × Handle) := do
  if heap.len right = 0 then return (heap, left)
  if heap.len left = 0 then return (heap, right)
  -- a release build's addition, nothing checks the sum
  let len := (heap.len left + heap.len right) % wordSize
  if len ≤ concatFlatThreshold then
    let (heap, l) ← asSlice fuel heap left
    let (heap, r) ← asSlice fuel heap right
    return heap.alloc (← inlinePair l r len)
  if heap.isLeaf left && heap.isLeaf right then
    if len ≤ 128 then
      let (heap, l) ← asSlice fuel heap left
      let (heap, r) ← asSlice fuel heap right
      return heap.alloc (.flat (l ++ r))
    return heap.alloc (.rope (some left) (some right) len none)
  return heap.alloc (.consString left right len none)

def sliceView (fuel : Nat) (heap : Heap) (parent : Handle) (from_ to_ : Nat) :
    Option (Heap × Handle) := do
  if to_ - from_ ≤ smallStringCap then
    let (heap, units) ← asSlice fuel heap parent
    return heap.alloc (.fromUtf16 (← window units from_ (to_ - from_)))
  return heap.alloc (.sliced parent from_ (to_ - from_) none)

/-- An owned copy; a node's box is read first and its cache goes into the copy. -/
def ownedOf (fuel : Nat) (heap : Heap) (h : Handle) : Option (Heap × Handle) := do
  let s ← heap[h]?
  if s.isLeaf then return heap.alloc s
  let (heap, _) ← asSlice fuel heap h
  let boxed ← heap[h]?
  return heap.alloc (boxed.cache.elim boxed.clone (JsString.fill · boxed.clone))

/-- What is done with strings; a handle also stands for an owned value's place. -/
inductive Call
  | fromUtf16 (units : Units)
  | fromUtf8 (text : List Char)
  | concat (left right : Handle)
  | concatUnits (left : Handle) (right : Units)
  | concatUnitsLeft (left : Units) (right : Handle)
  | sliceView (parent : Handle) (from_ to_ : Nat)
  | clone (h : Handle)
  | ownedOf (h : Handle)
  | asSlice (h : Handle)
deriving DecidableEq, Repr

/-- The boxes after a call, and the string it answers. -/
def Call.run (fuel : Nat) (heap : Heap) : Call → Option (Heap × Handle)
  | .fromUtf16 units => some (heap.alloc (.fromUtf16 units))
  | .fromUtf8 text => some (heap.alloc (.fromUtf8 text))
  | .concat left right => Rope.concat fuel heap left right
  | .concatUnits left right => Rope.concatUnits fuel heap left right
  | .concatUnitsLeft left right => Rope.concatUnitsLeft fuel heap left right
  | .sliceView parent from_ to_ => Rope.sliceView fuel heap parent from_ to_
  | .clone h => heap[h]?.map fun s => heap.alloc s.clone
  | .ownedOf h => Rope.ownedOf fuel heap h
  | .asSlice h => (Rope.asSlice fuel heap h).map fun r => (r.1, h)

/-- A call on strings there are, with a range that is inside its parent. -/
def Call.Valid (heap : Heap) : Call → Prop
  | .fromUtf16 _ | .fromUtf8 _ => True
  | .concat left right => left < heap.length ∧ right < heap.length
  | .concatUnits h _ | .concatUnitsLeft _ h | .clone h | .ownedOf h | .asSlice h => h < heap.length
  | .sliceView parent from_ to_ => parent < heap.length ∧ from_ ≤ to_ ∧ to_ ≤ heap.len parent

/-- The length of a concatenation is a machine word. -/
def Call.Fits (heap : Heap) : Call → Prop
  | .concat left right => heap.len left + heap.len right < wordSize
  | .concatUnits h units | .concatUnitsLeft units h => heap.len h + units.length < wordSize
  | _ => True

end Slag.Rope
