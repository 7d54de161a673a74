import Slag.Crux.Value
import Slag.Lib.SlotRuns

/-!
The keyed collections (`builtins/keyed.rs`): the data of one Map or Set with
the iterators made over it, and the calls of their methods.
-/

namespace Slag.Keyed

open Slag.Crux Slag.Slots

/-- CanonicalizeKeyedCollectionKey: the two zeros are one key. -/
def canonicalizeKey : Value → Value
  | .number n => if n = F64.negZero then .number F64.zero else .number n
  | key => key

theorem canonicalizeKey_idem (key : Value) :
    canonicalizeKey (canonicalizeKey key) = canonicalizeKey key := by
  cases key with
  | number n =>
      by_cases hn : n = F64.negZero
      · subst hn
        rfl
      · simp only [canonicalizeKey, if_neg hn]
  | _ => rfl

/-! ## The word of a key -/

def signBit (neg : Bool) : UInt64 :=
  if neg then 0x8000000000000000 else 0

def toBits : F64 → UInt64
  | .nan => 0x7ff8000000000000
  | .infinity neg => signBit neg ||| 0x7ff0000000000000
  | .finite neg e m => signBit neg ||| UInt64.ofNat e.val <<< 52 ||| UInt64.ofNat m.val

/-- `hash` stands for the standard hasher on a BigInt. -/
def keyWord (hash : Int → UInt64) : Value → UInt64
  | .number n =>
      if n.isNaN then 0x7ff8000000000000
      else if n = F64.zero ∨ n = F64.negZero then 0x7ff8000000000001
      else toBits n
  | .string text =>
      text.foldl (fun acc unit => (acc ^^^ unit.toUInt64) * 0x100000001b3) 0xcbf29ce484222325 |||
        0x4000000000000000
  | .bigint n => hash n ||| 0x4000000000000000
  | .symbol id => UInt64.ofNat id ||| 0x2000000000000000
  | .object id | .function id => UInt64.ofNat id
  | .boolean true => 0x1000000000000001
  | .boolean false => 0x1000000000000002
  | .undefined => 0x1000000000000003
  | .null => 0x1000000000000004

/-- Keys that are the same value have one word. -/
def Consistent (word : Value → UInt64) : Prop :=
  ∀ a b, sameValue a b = true → word a = word b

theorem keyWord_consistent (hash : Int → UInt64) : Consistent (keyWord hash) := by
  intro a b h
  cases a <;> cases b <;> simp_all [sameValue, keyWord]

/-! ## Results and iterators -/

/-- What an iterator hands out; a pair is an array of the two. -/
inductive Item where
  | pair (key value : Value)
  | value (v : Value)
deriving DecidableEq, Repr

inductive Result where
  | receiver
  | undefined
  | value (v : Value)
  | boolean (b : Bool)
  | number (n : Nat)
  | iterator
  | item (i : Item)
  | done
  | typeError
deriving DecidableEq, Repr

/-- `next` of both kinds of iterators: go on from the next index, skipping empty
slots; the iterator that finds no entry lets go of its collection. -/
def iteratorNext {ε χ : Type} (item : χ → ε → Item) (s : State (Table ε UInt64) χ) (n : Nat) :
    State (Table ε UInt64) χ × Result :=
  match s.iters[n]? with
  | none => (s, .typeError)
  | some it =>
      if !it.active then (s, .done)
      else
        match nextLive (s.data.entries.drop it.next) it.next with
        | some (index, entry) =>
            ({ s with iters := s.iters.set n { it with next := index + 1 } },
              .item (item it.kind entry))
        | none => ({ s with iters := s.iters.set n { it with active := false } }, .done)

/-! ## Map -/

abbrev MapEntry := Value × Value

def mapKeying (word : Value → UInt64) : Keying MapEntry Value UInt64 :=
  ⟨Prod.fst, sameValue, word⟩

abbrev MapCollection := Table MapEntry UInt64

namespace MapCollection

variable (word : Value → UInt64) (c : MapCollection)

def slot (key : Value) : Option Nat :=
  Table.slot (mapKeying word) c key

def contains (key : Value) : Bool :=
  (slot word c key).isSome

/-- The value in a slot that was found. -/
def valueAt (index : Nat) : Value :=
  (c.entries[index]?.join.map Prod.snd).getD .undefined

def getValue (key : Value) : Value :=
  match slot word c key with
  | some index => valueAt c index
  | none => .undefined

def pushNew (key value : Value) : MapCollection :=
  Table.pushNew (mapKeying word) c (key, value)

def set (key value : Value) : MapCollection :=
  match slot word c key with
  | some index => c.update index fun entry => (entry.1, value)
  | none => pushNew word c key value

def remove (key : Value) : Bool × MapCollection :=
  Table.remove (mapKeying word) c key

def clear : MapCollection :=
  Table.clear c

end MapCollection

inductive MapIterationKind where
  | keyValue | key | value
deriving DecidableEq, Repr

def MapIterationKind.item : MapIterationKind → MapEntry → Item
  | .keyValue, entry => .pair entry.1 entry.2
  | .key, entry => .value entry.1
  | .value, entry => .value entry.2

/-- The methods of one Map; `next` is called on the iterator made as number `n`. -/
inductive MapCall where
  | set (key value : Value)
  | get (key : Value)
  | has (key : Value)
  | delete (key : Value)
  | clear
  | size
  | getOrInsert (key value : Value)
  | iterate (kind : MapIterationKind)
  | next (n : Nat)
deriving DecidableEq, Repr

abbrev MapState := State MapCollection MapIterationKind

def mapIteratorNext (s : MapState) (n : Nat) : MapState × Result :=
  iteratorNext MapIterationKind.item s n

def mapStep (word : Value → UInt64) (s : MapState) : MapCall → MapState × Result
  | .set key value =>
      ({ s with data := MapCollection.set word s.data (canonicalizeKey key) value }, .receiver)
  | .get key => (s, .value (MapCollection.getValue word s.data (canonicalizeKey key)))
  | .has key => (s, .boolean (MapCollection.contains word s.data (canonicalizeKey key)))
  | .delete key =>
      let (found, data) := MapCollection.remove word s.data (canonicalizeKey key)
      ({ s with data := data }, .boolean found)
  | .clear => ({ s with data := MapCollection.clear s.data }, .undefined)
  | .size => (s, .number (liveCount s.data.entries))
  | .getOrInsert key value =>
      match MapCollection.slot word s.data (canonicalizeKey key) with
      | some index => (s, .value (MapCollection.valueAt s.data index))
      | none =>
          ({ s with data := MapCollection.pushNew word s.data (canonicalizeKey key) value },
            .value value)
  | .iterate kind => ({ s with iters := s.iters ++ [⟨true, 0, kind⟩] }, .iterator)
  | .next n => mapIteratorNext s n

/-! ## Set -/

abbrev SetEntry := Value

def setKeying (word : Value → UInt64) : Keying SetEntry Value UInt64 :=
  ⟨id, sameValue, word⟩

abbrev SetCollection := Table SetEntry UInt64

namespace SetCollection

variable (word : Value → UInt64) (c : SetCollection)

def slot (value : Value) : Option Nat :=
  Table.slot (setKeying word) c value

def contains (value : Value) : Bool :=
  (slot word c value).isSome

def add (value : Value) : SetCollection :=
  match slot word c value with
  | some _ => c
  | none => Table.pushNew (setKeying word) c value

def remove (value : Value) : Bool × SetCollection :=
  Table.remove (setKeying word) c value

def clear : SetCollection :=
  Table.clear c

def fromEntries (entries : List (Option SetEntry)) : SetCollection :=
  Table.fromEntries (setKeying word) entries

end SetCollection

inductive SetIterationKind where
  | keyValue | value
deriving DecidableEq, Repr

def SetIterationKind.item : SetIterationKind → SetEntry → Item
  | .keyValue, v => .pair v v
  | .value, v => .value v

inductive SetCall where
  | add (value : Value)
  | has (value : Value)
  | delete (value : Value)
  | clear
  | size
  | iterate (kind : SetIterationKind)
  | next (n : Nat)
deriving DecidableEq, Repr

abbrev SetState := State SetCollection SetIterationKind

def setIteratorNext (s : SetState) (n : Nat) : SetState × Result :=
  iteratorNext SetIterationKind.item s n

def setStep (word : Value → UInt64) (s : SetState) : SetCall → SetState × Result
  | .add value =>
      ({ s with data := SetCollection.add word s.data (canonicalizeKey value) }, .receiver)
  | .has value => (s, .boolean (SetCollection.contains word s.data (canonicalizeKey value)))
  | .delete value =>
      let (found, data) := SetCollection.remove word s.data (canonicalizeKey value)
      ({ s with data := data }, .boolean found)
  | .clear => ({ s with data := SetCollection.clear s.data }, .undefined)
  | .size => (s, .number (liveCount s.data.entries))
  | .iterate kind => ({ s with iters := s.iters ++ [⟨true, 0, kind⟩] }, .iterator)
  | .next n => setIteratorNext s n

end Slag.Keyed
