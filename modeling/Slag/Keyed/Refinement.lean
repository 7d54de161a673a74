import Slag.Keyed.Collections

/-!
The indexed collections and the ordered lists they stand for. A method call is
one operation on the slots; the runs of the collections are the runs of a
linear scan.
-/

namespace Slag.Keyed

open Slag.Crux Slag.Slots Slag.Machine

variable {word : Value → UInt64}

theorem mapKeying_lawful (h : Consistent word) : (mapKeying word).Lawful :=
  ⟨sameValue_refl, sameValue_symm, sameValue_trans, fun hab => h _ _ hab⟩

theorem setKeying_lawful (h : Consistent word) : (setKeying word).Lawful :=
  ⟨sameValue_refl, sameValue_symm, sameValue_trans, fun hab => h _ _ hab⟩

/-! ## Calls as operations -/

variable (word : Value → UInt64)

def MapCall.op : MapCall → Op (mapKeying word) MapIterationKind
  | .set key value => .put (canonicalizeKey key, value) (fun entry => (entry.1, value)) fun _ => rfl
  | .get key => .get (canonicalizeKey key)
  | .has key => .get (canonicalizeKey key)
  | .delete key => .remove (canonicalizeKey key)
  | .clear => .clear
  | .size => .size
  | .getOrInsert key value => .put (canonicalizeKey key, value) id fun _ => rfl
  | .iterate kind => .iterate kind
  | .next n => .next n

def SetCall.op : SetCall → Op (setKeying word) SetIterationKind
  | .add value => .put (canonicalizeKey value) id fun _ => rfl
  | .has value => .get (canonicalizeKey value)
  | .delete value => .remove (canonicalizeKey value)
  | .clear => .clear
  | .size => .size
  | .iterate kind => .iterate kind
  | .next n => .next n

/-- The language value of what an operation gives. -/
def resultOf {ε χ : Type} (entry : Option ε → Result) (item : χ → ε → Item) : Out ε χ → Result
  | .entry e => entry e
  | .removed found => .boolean found
  | .cleared => .undefined
  | .size n => .number n
  | .iterator => .iterator
  | .item kind e => .item (item kind e)
  | .finished => .done
  | .refused => .typeError

def valueOf (entry : Option MapEntry) : Value :=
  (entry.map Prod.snd).getD .undefined

def MapCall.result (call : MapCall) : Out MapEntry MapIterationKind → Result :=
  resultOf
    (match call with
      | .set _ _ => fun _ => .receiver
      | .has _ => fun entry => .boolean entry.isSome
      | _ => fun entry => .value (valueOf entry))
    MapIterationKind.item

def SetCall.result (call : SetCall) : Out SetEntry SetIterationKind → Result :=
  resultOf
    (match call with
      | .add _ => fun _ => .receiver
      | _ => fun entry => .boolean entry.isSome)
    SetIterationKind.item

/-- A call on the list of entries, answered by a scan. -/
def mapScan (s : State (List (Option MapEntry)) MapIterationKind) (call : MapCall) :
    State (List (Option MapEntry)) MapIterationKind × Result :=
  ((scanStep (mapKeying word) s (call.op word)).1,
    call.result (scanStep (mapKeying word) s (call.op word)).2)

def setScan (s : State (List (Option SetEntry)) SetIterationKind) (call : SetCall) :
    State (List (Option SetEntry)) SetIterationKind × Result :=
  ((scanStep (setKeying word) s (call.op word)).1,
    call.result (scanStep (setKeying word) s (call.op word)).2)

/-- A slot that was found holds an entry. -/
theorem Table.slot_live {ε κ ω : Type} [DecidableEq ω] {K : Keying ε κ ω} {t : Table ε ω}
    {k : κ} {i : Nat} (h : t.slot K k = some i) : ∃ e, t.entries[i]?.join = some e := by
  have hscan : (if t.collided then find K t.entries k else none) = some i →
      ∃ e, t.entries[i]?.join = some e := by
    intro h
    split at h
    · obtain ⟨e, he, -⟩ := find_some h
      exact ⟨e, by rw [he, Option.join_some]⟩
    · cases h
  unfold Table.slot at h
  dsimp only at h
  split at h
  · split at h
    · rename_i e he
      split at h
      · cases h
        exact ⟨e, he⟩
      · exact hscan h
    · exact hscan h
  · exact hscan h

theorem set_same {α : Type} {l : List α} {n : Nat} {a : α} (h : l[n]? = some a) : l.set n a = l := by
  obtain ⟨hlt, rfl⟩ := List.getElem?_eq_some_iff.mp h
  exact List.set_getElem_self hlt

theorem iteratorNext_eq {ε χ : Type} {s : State (Table ε UInt64) χ} {n : Nat} {item : χ → ε → Item}
    {entry : Option ε → Result} :
    iteratorNext item s n = ({ s with iters := (advanceAt s.data.entries s.iters n).1 },
      resultOf entry item (advanceAt s.data.entries s.iters n).2) := by
  unfold iteratorNext advanceAt
  cases hn : s.iters[n]? with
  | none => rfl
  | some it =>
      dsimp only [Iter.advance]
      cases ha : it.active with
      | false =>
          simp only [Bool.not_false, if_true, Bool.false_eq_true, if_false, set_same hn]
          rfl
      | true =>
          simp only [Bool.not_true, Bool.false_eq_true, if_false, if_true]
          cases nextLive (s.data.entries.drop it.next) it.next with
          | none => rfl
          | some q => rfl

theorem mapStep_eq (s : MapState) (call : MapCall) :
    mapStep word s call = ((step (mapKeying word) s (call.op word)).1,
      call.result (step (mapKeying word) s (call.op word)).2) := by
  have hkey : ∀ key value, (mapKeying word).key (key, value) = key := fun _ _ => rfl
  cases call with
  | set key value =>
      simp only [mapStep, MapCall.op, step, MapCollection.set, MapCollection.slot, hkey]
      cases Table.slot (mapKeying word) s.data (canonicalizeKey key) <;> rfl
  | get key =>
      simp only [mapStep, MapCall.op, step, MapCollection.getValue, MapCollection.slot]
      cases Table.slot (mapKeying word) s.data (canonicalizeKey key) <;> rfl
  | has key =>
      simp only [mapStep, MapCall.op, step, MapCollection.contains, MapCollection.slot]
      cases hslot : Table.slot (mapKeying word) s.data (canonicalizeKey key) with
      | none => rfl
      | some i =>
          obtain ⟨e, he⟩ := Table.slot_live hslot
          rw [Option.bind_some, he]
          rfl
  | getOrInsert key value =>
      simp only [mapStep, MapCall.op, step, MapCollection.slot, hkey]
      cases hslot : Table.slot (mapKeying word) s.data (canonicalizeKey key) with
      | none => rfl
      | some i =>
          obtain ⟨e, he⟩ := Table.slot_live hslot
          have hsame : s.data.update i id = s.data := by
            simp [Table.update, List.modify_id]
          dsimp only
          rw [hsame, MapCollection.valueAt, he]
          rfl
  | next n => exact iteratorNext_eq
  | delete key => rfl
  | clear => rfl
  | size => rfl
  | iterate kind => rfl

theorem setStep_eq (s : SetState) (call : SetCall) :
    setStep word s call = ((step (setKeying word) s (call.op word)).1,
      call.result (step (setKeying word) s (call.op word)).2) := by
  have hkey : ∀ value, (setKeying word).key value = value := fun _ => rfl
  cases call with
  | add value =>
      simp only [setStep, SetCall.op, step, SetCollection.add, SetCollection.slot, hkey]
      cases Table.slot (setKeying word) s.data (canonicalizeKey value) with
      | none => rfl
      | some i =>
          have hsame : s.data.update i id = s.data := by
            simp [Table.update, List.modify_id]
          dsimp only
          rw [hsame]
          rfl
  | has value =>
      simp only [setStep, SetCall.op, step, SetCollection.contains, SetCollection.slot]
      cases hslot : Table.slot (setKeying word) s.data (canonicalizeKey value) with
      | none => rfl
      | some i =>
          obtain ⟨e, he⟩ := Table.slot_live hslot
          rw [Option.bind_some, he]
          rfl
  | next n => exact iteratorNext_eq
  | delete value => rfl
  | clear => rfl
  | size => rfl
  | iterate kind => rfl

/-! ## Runs -/

def MapCall.next? : MapCall → Option Nat
  | .next n => some n
  | _ => none

def SetCall.next? : SetCall → Option Nat
  | .next n => some n
  | _ => none

/-- What the calls of `next` on one iterator handed out. -/
def itemsOf {ι : Type} (next? : ι → Option Nat) (n : Nat) : List ι → List Result → List Item
  | call :: calls, .item i :: results =>
      if next? call = some n then i :: itemsOf next? n calls results else itemsOf next? n calls results
  | _ :: calls, _ :: results => itemsOf next? n calls results
  | _, _ => []

/-- A collection made from a list of entries, with no iterators yet. -/
def start {ε χ : Type} (K : Keying ε Value UInt64) (entries : List (Option ε)) :
    State (Table ε UInt64) χ :=
  ⟨Table.fromEntries K entries, []⟩

/-- The run of an indexed collection made from a list of entries is the run of a
linear scan over that list. -/
structure Faithful {ε χ ι : Type} (K : Keying ε Value UInt64) (item : χ → ε → Item)
    (op : ι → Op K χ) (next? : ι → Option Nat)
    (table : State (Table ε UInt64) χ → ι → State (Table ε UInt64) χ × Result)
    (scan : State (List (Option ε)) χ → ι → State (List (Option ε)) χ × Result)
    (entries : List (Option ε)) (calls : List ι) : Prop where
  results : (run table (start K entries) calls).2 = (run scan ⟨entries, []⟩ calls).2
  sameEntries : (run table (start K entries) calls).1.data.entries =
    (run scan ⟨entries, []⟩ calls).1.data
  distinct : Distinct K (run table (start K entries) calls).1.data.entries
  /-- Live entries keep their order; a changed one its place, a new one comes last. -/
  order : (run table (start K entries) calls).1.data.entries.reduceOption =
    (calls.map op).foldl (orderedStep K) entries.reduceOption
  /-- A slot is taken once: whatever lives in it later has been there all the time. -/
  kept : ∀ more (i : Nat) e,
    (run table (start K entries) (calls ++ more)).1.data.entries[i]? = some (some e) →
    i < (run table (start K entries) calls).1.data.entries.length →
    ∃ a, (run table (start K entries) calls).1.data.entries[i]? = some (some a) ∧
      K.key a = K.key e
  /-- An iterator reaches the slots 0, 1, 2, ... once each. -/
  reached : ∀ n, (passes K n ⟨entries, []⟩ (calls.map op)).map Prod.fst =
    List.range (passes K n ⟨entries, []⟩ (calls.map op)).length
  /-- It hands out the entries that are live when it reaches them. -/
  yielded : ∀ n it,
    (run table (start K entries) calls).1.iters[n]? = some it →
    itemsOf next? n calls (run table (start K entries) calls).2 =
      (passes K n ⟨entries, []⟩ (calls.map op)).filterMap fun p => p.2.map (item it.kind)

def MapFaithful (entries : List (Option MapEntry)) (calls : List MapCall) : Prop :=
  Faithful (mapKeying word) MapIterationKind.item (MapCall.op word) MapCall.next? (mapStep word)
    (mapScan word) entries calls

def SetFaithful (entries : List (Option SetEntry)) (calls : List SetCall) : Prop :=
  Faithful (setKeying word) SetIterationKind.item (SetCall.op word) SetCall.next? (setStep word)
    (setScan word) entries calls

section Generic

variable {ε χ ι : Type} {K : Keying ε Value UInt64} {item : χ → ε → Item} {op : ι → Op K χ}
  {next? : ι → Option Nat} {result : ι → Out ε χ → Result}

/-- The items of the results are what the iterator yields. -/
theorem itemsOf_eq (hitem : ∀ call kind e, result call (.item kind e) = .item (item kind e))
    (hother : ∀ call out, (∀ kind e, out ≠ .item kind e) → ∀ i, result call out ≠ .item i)
    (hnext : ∀ call n, next? call = some n ↔ op call = .next n) (n : Nat) (calls : List ι)
    (outs : List (Out ε χ)) :
    itemsOf next? n calls (List.zipWith result calls outs) =
      (yields n (calls.map op) outs).map fun p => item p.1 p.2 := by
  induction calls generalizing outs with
  | nil => rfl
  | cons call calls ih =>
      cases outs with
      | nil =>
          rw [List.zipWith_nil_right]
          cases hop : op call <;> simp [itemsOf, yields, hop]
      | cons out outs =>
          rw [List.zipWith_cons_cons, List.map_cons]
          by_cases hout : ∃ kind e, out = .item kind e
          · obtain ⟨kind, e, rfl⟩ := hout
            rw [hitem, itemsOf]
            by_cases hn : next? call = some n
            · rw [if_pos hn, (hnext call n).mp hn, yields, if_pos rfl, List.map_cons, ih]
            · have hop : op call ≠ .next n := fun h => hn ((hnext call n).mpr h)
              rw [if_neg hn, yields_other hop, ih]
          · have hnot : ∀ kind e, out ≠ .item kind e := fun kind e h => hout ⟨kind, e, h⟩
            have hskip : itemsOf next? n (call :: calls) (result call out :: List.zipWith result calls outs) =
                itemsOf next? n calls (List.zipWith result calls outs) := by
              cases hr : result call out with
              | item i => exact absurd hr (hother call out hnot i)
              | _ => rfl
            have hskip' : yields n (op call :: calls.map op) (out :: outs) = yields n (calls.map op) outs := by
              cases out with
              | item kind e => exact absurd rfl (hnot kind e)
              | _ => cases op call <;> rfl
            rw [hskip, hskip', ih]

variable {table : State (Table ε UInt64) χ → ι → State (Table ε UInt64) χ × Result}
  {entries : List (Option ε)}

theorem faithful (hK : K.Lawful)
    {scan : State (List (Option ε)) χ → ι → State (List (Option ε)) χ × Result}
    (htable : ∀ s call, table s call = ((step K s (op call)).1, result call (step K s (op call)).2))
    (hscan : ∀ s call,
      scan s call = ((scanStep K s (op call)).1, result call (scanStep K s (op call)).2))
    (hitem : ∀ call kind e, result call (.item kind e) = .item (item kind e))
    (hother : ∀ call out, (∀ kind e, out ≠ .item kind e) → ∀ i, result call out ≠ .item i)
    (hnext : ∀ call n, next? call = some n ↔ op call = .next n) (hd : Distinct K entries)
    (calls : List ι) :
    Faithful K item op next? table scan entries calls := by
  have hrun : ∀ ops : List (Op K χ),
      (run (step K) (start K entries) ops).2 = (run (scanStep K) ⟨entries, []⟩ ops).2 ∧ Refines K (run (step K) (start K entries) ops).1 (run (scanStep K) ⟨entries, []⟩ ops).1 :=
    fun ops => run_refines hK (refines_start hd) ops
  have hcode : ∀ calls : List ι, run table (start K entries) calls =
      ((run (step K) (start K entries) (calls.map op)).1,
        List.zipWith result calls (run (step K) (start K entries) (calls.map op)).2) :=
    fun calls => run_translate htable _ calls
  have hlist : run scan ⟨entries, []⟩ calls = ((run (scanStep K) ⟨entries, []⟩ (calls.map op)).1,
      List.zipWith result calls (run (scanStep K) ⟨entries, []⟩ (calls.map op)).2) :=
    run_translate hscan _ calls
  obtain ⟨houts, href⟩ := hrun (calls.map op)
  have hcreated := fun n => @created_run ε Value UInt64 χ K (calls.map op) ⟨entries, []⟩ n (Nat.zero_le n)
  constructor
  case results => rw [hcode, hlist, houts]
  case sameEntries => rw [hcode, hlist, href.entries]
  case distinct =>
    rw [hcode, href.entries]
    exact href.distinct
  case order =>
    rw [hcode, href.entries]
    exact run_live hK fun ops => (hrun ops).2.distinct
  case kept =>
    intro more i e he hi
    rw [hcode, (hrun _).2.entries, List.map_append, run_append] at he
    rw [hcode, href.entries] at hi ⊢
    exact run_keys he hi
  case reached => exact fun n => (hcreated n).1
  case yielded =>
    intro n it hit
    rw [hcode, href.iters] at hit
    rw [hcode, houts, itemsOf_eq hitem hother hnext, (hcreated n).2 it hit, List.map_filterMap]
    refine List.filterMap_congr fun p _ => ?_
    cases p.2 <;> rfl

/-- The index of a collection in a run answers what a scan does. -/
theorem run_sound (hK : K.Lawful)
    (htable : ∀ s call, table s call = ((step K s (op call)).1, result call (step K s (op call)).2))
    (hd : Distinct K entries) (calls : List ι) :
    (run table (start K entries) calls).1.data.Sound K := by
  have hcode : run table (start K entries) calls =
      ((run (step K) (start K entries) (calls.map op)).1,
        List.zipWith result calls (run (step K) (start K entries) (calls.map op)).2) :=
    run_translate htable _ calls
  have hrefines := (run_refines hK (refines_start hd) (calls.map op)).2
  rw [hcode]
  exact hrefines.sound

end Generic

theorem resultOf_item {ε χ : Type} {entry : Option ε → Result} {item : χ → ε → Item}
    (hentry : ∀ e i, entry e ≠ .item i) {out : Out ε χ} (hout : ∀ kind e, out ≠ .item kind e)
    (i : Item) : resultOf entry item out ≠ .item i := by
  cases out with
  | entry e => exact hentry e i
  | item kind e => exact absurd rfl (hout kind e)
  | _ => nofun

theorem map_faithful {word : Value → UInt64} (hword : Consistent word)
    {entries : List (Option MapEntry)} (hd : Distinct (mapKeying word) entries)
    (calls : List MapCall) : MapFaithful word entries calls := by
  refine faithful (mapKeying_lawful hword) (mapStep_eq word) (fun _ _ => rfl)
    (fun _ _ _ => rfl) (fun call _ hout => ?_) (fun call n => ?_) hd calls
  · exact resultOf_item (fun _ _ => by cases call <;> nofun) hout
  · cases call <;> simp [MapCall.next?, MapCall.op]

theorem set_faithful {word : Value → UInt64} (hword : Consistent word)
    {entries : List (Option SetEntry)} (hd : Distinct (setKeying word) entries)
    (calls : List SetCall) : SetFaithful word entries calls := by
  refine faithful (setKeying_lawful hword) (setStep_eq word) (fun _ _ => rfl)
    (fun _ _ _ => rfl) (fun call _ hout => ?_) (fun call n => ?_) hd calls
  · exact resultOf_item (fun _ _ => by cases call <;> nofun) hout
  · cases call <;> simp [SetCall.next?, SetCall.op]

/-- Map and Set are the lists of their entries, whatever the words of the keys. -/
theorem refines_list (word : Value → UInt64) (hword : Consistent word) :
    (∀ entries, Distinct (mapKeying word) entries → ∀ calls, MapFaithful word entries calls) ∧
      ∀ entries, Distinct (setKeying word) entries → ∀ calls, SetFaithful word entries calls :=
  ⟨fun _ hd calls => map_faithful hword hd calls, fun _ hd calls => set_faithful hword hd calls⟩

/-- One word for all keys, an empty slot, a deleted and re-inserted key. -/
theorem refines_list_collisions :
    MapFaithful (fun _ => 0) [none, some (.null, .undefined)]
        [.iterate .key, .set (.boolean true) .null, .delete .null, .set .null .null, .next 0, .next 0,
          .next 0] ∧
      SetFaithful (fun _ => 0) [] [.add .null, .add .undefined, .delete .null, .has .undefined] := by
  have hword : Consistent fun _ => 0 := fun _ _ _ => rfl
  refine ⟨(refines_list _ hword).1 _ (fun i j a b ha hb _ => ?_) _,
    (refines_list _ hword).2 _ (fun _ _ _ _ ha => by cases ha) _⟩
  have hone : ∀ {i : Nat} {e : MapEntry}, [none, some (Value.null, Value.undefined)][i]? = some (some e) → i = 1 := by
    intro i e he
    match i, he with
    | 1, _ => rfl
  rw [hone ha, hone hb]

end Slag.Keyed
