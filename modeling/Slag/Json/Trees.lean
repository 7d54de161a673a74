import Slag.Json.Made
import Slag.Crux.Refinement

/-!
Value trees: what a value on the heap stands for, and the tree that is left of one
after its text is read back.
-/

namespace Slag.Json

open Crux AssocList

namespace Tree

/-- Members as an object lists its keys: integer-like ones first, ascending. -/
def ordered (ms : List (JsString × Tree)) : List (JsString × Tree) :=
  (orderKeys (ms.map fun m => .string m.1)).filterMap fun key =>
    ms.find? fun m => .string m.1 = key

/-! Minus zero becomes zero, and members are in key order. -/

mutual

def normal : Tree → Tree
  | .number n => .number (if n = F64.negZero then F64.zero else n)
  | .array ts => .array (normalAll ts)
  | .object ms => .object (ordered (normalMembers ms))
  | t => t

def normalAll : List Tree → List Tree
  | [] => []
  | t :: ts => t.normal :: normalAll ts

def normalMembers : List (JsString × Tree) → List (JsString × Tree)
  | [] => []
  | m :: ms => (m.1, m.2.normal) :: normalMembers ms

end

theorem normalAll_eq (ts : List Tree) : normalAll ts = ts.map normal := by
  induction ts with
  | nil => rfl
  | cons t ts ih => rw [normalAll, ih, List.map_cons]

theorem normalMembers_eq (ms : List (JsString × Tree)) :
    normalMembers ms = ms.map fun m => (m.1, m.2.normal) := by
  induction ms with
  | nil => rfl
  | cons m ms ih => rw [normalMembers, ih, List.map_cons]

theorem keys_normalMembers (ms : List (JsString × Tree)) : keys (normalMembers ms) = keys ms := by
  rw [normalMembers_eq, keys, List.map_map]
  rfl

end Tree

/-- The value stands for the tree: numbers are finite, an array has the length one
can have, and an object has data properties with distinct keys. -/
inductive Represents (heap : Heap) : Value → Tree → Prop
  | null : Represents heap .null .null
  | boolean {b : Bool} : Represents heap (.boolean b) (.boolean b)
  | number {n : F64} : n.isFinite = true → Represents heap (.number n) (.number n)
  | string {s : JsString} : Represents heap (.string s) (.string s)
  | array {id : Nat} {vs : List Value} {ts : List Tree} : heap[id]? = some (.array vs) →
      vs.length ≤ maxArrayLength → List.Forall₂ (Represents heap) vs ts →
      Represents heap (.object id) (.array ts)
  | object {id : Nat} {o : PlainObject} {vs : List Value} {ms : List (JsString × Tree)} :
      heap[id]? = some (.plain o) → (keys ms).Nodup →
      o.properties = ((keys ms).zip vs).map (fun e => (.string e.1, dataProperty e.2)) →
      List.Forall₂ (Represents heap) vs (ms.map Prod.snd) → Represents heap (.object id) (.object ms)

variable {heap : Heap} {v : Value} {t : Tree}

variable {α β : Type} {vs : List Value} {heap' : Heap}

theorem forall₂_unique {R S : α → β → Prop} {as : List α} {bs cs : List β} (h : List.Forall₂ R as bs)
    (h' : List.Forall₂ S as cs) (hu : ∀ a, ∀ b ∈ bs, ∀ c, R a b → S a c → b = c) : bs = cs := by
  induction h generalizing cs with
  | nil =>
      cases h'
      rfl
  | cons hab _ ih =>
      cases h' with
      | cons hac h' =>
          rw [hu _ _ List.mem_cons_self _ hab hac,
            ih h' fun a b hb => hu a b (List.mem_cons_of_mem _ hb)]

theorem eq_of_parts {ms ns : List (α × β)} (hk : keys ms = keys ns)
    (hv : ms.map Prod.snd = ns.map Prod.snd) : ms = ns := by
  have hms := List.zip_unzip ms
  have hns := List.zip_unzip ns
  rw [List.unzip_eq_map] at hms hns
  rw [← hms, ← hns]
  exact congrArg₂ List.zip hk hv

/-- The properties tell the keys and the values. -/
theorem entries_inj {ks ks' : List JsString} {vs vs' : List Value} (hlen : ks.length = vs.length)
    (hlen' : ks'.length = vs'.length)
    (h : (ks.zip vs).map (fun e => ((.string e.1 : PropertyKey), dataProperty e.2)) =
      (ks'.zip vs').map fun e => (.string e.1, dataProperty e.2)) : ks = ks' ∧ vs = vs' := by
  have hinj : Function.Injective fun e : JsString × Value =>
      ((.string e.1 : PropertyKey), dataProperty e.2) := by
    rintro ⟨k, v⟩ ⟨k', v'⟩ he
    simp only [dataProperty, Prod.mk.injEq, PropertyKey.string.injEq, Property.mk.injEq,
      PropertyKind.data.injEq, and_true] at he
    rw [he.1, he.2]
  have hzip := List.map_injective_iff.mpr hinj h
  have hfst := congrArg (List.map Prod.fst) hzip
  have hsnd := congrArg (List.map Prod.snd) hzip
  rw [List.map_fst_zip hlen.le, List.map_fst_zip hlen'.le] at hfst
  rw [List.map_snd_zip hlen.ge, List.map_snd_zip hlen'.ge] at hsnd
  exact ⟨hfst, hsnd⟩

variable {ms : List (JsString × Tree)} {m : JsString × Tree}

theorem length_keys_eq {R : α → Tree → Prop} {vs : List α} (h : List.Forall₂ R vs (ms.map Prod.snd)) :
    (keys ms).length = vs.length := by
  rw [h.length_eq, List.length_map, List.length_map]

/-- A value stands for one tree. -/
theorem Represents.unique (h : Represents heap v t) {t' : Tree} (h' : Represents heap v t') :
    t = t' := by
  obtain ⟨n, hn⟩ : ∃ n, t.nesting < n := ⟨_, Nat.lt_succ_self _⟩
  induction n generalizing v t t' with
  | zero => cases hn
  | succ n ih =>
      cases h with
      | null | boolean | number _ | string =>
          cases h'
          rfl
      | array hcell _ hvs =>
          cases h' with
          | array hcell' _ hvs' =>
              obtain rfl := Cell.array.inj (Option.some.inj (hcell.symm.trans hcell'))
              rw [forall₂_unique hvs hvs' fun v t ht t' hv hv' => ih hv hv' (nesting_lt_of_mem hn ht)]
          | object hcell' _ _ _ => cases hcell.symm.trans hcell'
      | object hcell _ hprops hvs =>
          cases h' with
          | array hcell' _ _ => cases hcell.symm.trans hcell'
          | object hcell' _ hprops' hvs' =>
              obtain rfl := Cell.plain.inj (Option.some.inj (hcell.symm.trans hcell'))
              obtain ⟨hk, rfl⟩ := entries_inj (length_keys_eq hvs) (length_keys_eq hvs')
                (hprops.symm.trans hprops')
              refine congrArg Tree.object (eq_of_parts hk ?_)
              refine forall₂_unique hvs hvs' fun v t ht t' hv hv' => ih hv hv' ?_
              obtain ⟨m, hm, rfl⟩ := List.mem_map.mp ht
              exact nesting_lt_of_member hn hm

theorem Represents.extend (h : Represents heap v t) (hheap : heap <+: heap') :
    Represents heap' v t := by
  have hkeep : ∀ {i : Nat} {c : Cell}, heap[i]? = some c → heap'[i]? = some c := by
    intro i c hc
    obtain ⟨rest, rfl⟩ := hheap
    exact (List.getElem?_append_left (List.getElem?_eq_some_iff.mp hc).1).trans hc
  obtain ⟨n, hn⟩ : ∃ n, t.nesting < n := ⟨_, Nat.lt_succ_self _⟩
  induction n generalizing v t with
  | zero => cases hn
  | succ n ih =>
      cases h with
      | null => exact .null
      | boolean => exact .boolean
      | number h => exact .number h
      | string => exact .string
      | array hcell hlen hvs =>
          exact .array (hkeep hcell) hlen
            (forall₂_mono_of_mem hvs fun v t ht hv => ih hv (nesting_lt_of_mem hn ht))
      | object hcell hnodup hprops hvs =>
          refine .object (hkeep hcell) hnodup hprops
            (forall₂_mono_of_mem hvs fun v t ht hv => ih hv ?_)
          obtain ⟨m, hm, rfl⟩ := List.mem_map.mp ht
          exact nesting_lt_of_member hn hm

/-! The order of keys. -/

theorem forall₂_filterMap {α β γ : Type} {R : β → γ → Prop} {f : α → Option β} {g : α → Option γ}
    {l : List α} (h : ∀ x ∈ l, ∃ b c, f x = some b ∧ g x = some c ∧ R b c) :
    List.Forall₂ R (l.filterMap f) (l.filterMap g) := by
  induction l with
  | nil => exact .nil
  | cons x l ih =>
      obtain ⟨b, c, hb, hc, hR⟩ := h x List.mem_cons_self
      rw [List.filterMap_cons_some hb, List.filterMap_cons_some hc]
      exact .cons hR (ih fun y hy => h y (List.mem_cons_of_mem _ hy))

theorem find?_member (hn : (keys ms).Nodup) (hm : m ∈ ms) :
    ms.find? (fun m' => (.string m'.1 : PropertyKey) = .string m.1) = some m := by
  have hget := (get?_eq_some_iff_mem hn).mpr hm
  rw [get?, Option.map_eq_some_iff] at hget
  obtain ⟨m', hfind, hsnd⟩ := hget
  have hfst : m'.1 = m.1 := by simpa using List.find?_some hfind
  rw [← Prod.ext hfst hsnd, ← hfind]
  congr 1
  funext e
  simp [hfst]

/-- Members listed by key are the members. -/
theorem forall₂_ordered (hn : (keys ms).Nodup) {R : β → JsString × Tree → Prop}
    {f : PropertyKey → Option β} (h : ∀ m ∈ ms, ∃ b, f (.string m.1) = some b ∧ R b m) :
    List.Forall₂ R ((orderKeys (ms.map fun m => .string m.1)).filterMap f) (Tree.ordered ms) := by
  refine forall₂_filterMap fun key hkey => ?_
  obtain ⟨m, hm, rfl⟩ := List.mem_map.mp (mem_orderKeys.mp hkey)
  obtain ⟨b, hb, hR⟩ := h m hm
  exact ⟨b, m, hb, find?_member hn hm, hR⟩

theorem keys_ordered (hn : (keys ms).Nodup) :
    (keys (Tree.ordered ms)).map .string = orderKeys (ms.map fun m => .string m.1) := by
  have hall := forall₂_ordered hn (R := fun key m => key = .string m.1) (f := some)
    fun m _ => ⟨_, rfl, rfl⟩
  rw [List.filterMap_some] at hall
  rw [keys, List.map_map]
  exact (List.forall₂_eq_eq_eq ▸ List.forall₂_map_right_iff.mpr hall : _ = _).symm

theorem nodup_ordered (hn : (keys ms).Nodup) :
    (keys (Tree.ordered ms)).Nodup := by
  refine List.Nodup.of_map (PropertyKey.string) ?_
  rw [keys_ordered hn, (orderKeys_perm _).nodup_iff]
  have hmap : (ms.map fun m => PropertyKey.string m.1) = (keys ms).map .string := by
    rw [keys, List.map_map]
    rfl
  rw [hmap]
  exact hn.map fun _ _ => PropertyKey.string.inj

theorem mem_ordered (h : m ∈ Tree.ordered ms) :
    m ∈ ms := by
  obtain ⟨key, -, hfind⟩ := List.mem_filterMap.mp h
  exact List.mem_of_find?_eq_some hfind

/-! What a parse makes of a normal tree stands for it. -/

theorem exists_of_mem_right {R : α → β → Prop} {as : List α} {bs : List β} {b : β}
    (h : List.Forall₂ R as bs) (hb : b ∈ bs) : ∃ a, R a b := by
  induction h with
  | nil => cases hb
  | cons hab _ ih =>
      obtain rfl | hb := List.mem_cons.mp hb
      · exact ⟨_, hab⟩
      · exact ih hb

theorem Made.represents {proto : Option ObjId} {base : Nat} {v' : Value} (hs : Represents heap v t)
    (hm : Made proto base heap' v' t.normal) :
    Represents heap' v' t.normal := by
  obtain ⟨n, hn⟩ : ∃ n, t.nesting < n := ⟨_, Nat.lt_succ_self _⟩
  induction n generalizing v t v' with
  | zero => cases hn
  | succ n ih =>
      cases hs with
      | null =>
          cases hm
          exact .null
      | boolean =>
          cases hm
          exact .boolean
      | string =>
          cases hm
          exact .string
      | number hfin =>
          rw [Tree.normal] at hm ⊢
          cases hm
          refine .number ?_
          split
          · rfl
          · exact hfin
      | @array _ vs ts _ hlen hvs =>
          rw [Tree.normal, Tree.normalAll_eq] at hm ⊢
          cases hm with
          | array _ hcell hvs' =>
              refine .array hcell ?_ (forall₂_mono_of_mem hvs' fun v' t' ht' hv' => ?_)
              · rwa [hvs'.length_eq, List.length_map, ← hvs.length_eq]
              · obtain ⟨t, ht, rfl⟩ := List.mem_map.mp ht'
                obtain ⟨v, hv⟩ := exists_of_mem_right hvs ht
                exact ih hv hv' (nesting_lt_of_mem hn ht)
      | @object _ o vs ms _ hnodup _ hvs =>
          rw [Tree.normal] at hm ⊢
          have hkeys : (keys (Tree.normalMembers ms)).Nodup := by rwa [Tree.keys_normalMembers]
          cases hm with
          | @object _ vs' _ _ hcell hvs' =>
              have hfst : keys ((keys (Tree.ordered (Tree.normalMembers ms))).zip vs') =
                  keys (Tree.ordered (Tree.normalMembers ms)) :=
                List.map_fst_zip (length_keys_eq hvs').le
              have hordered := nodup_ordered hkeys
              refine .object hcell hordered (objectOf_distinct proto (hfst.symm ▸ hordered))
                (forall₂_mono_of_mem hvs' fun v' t' ht' hv' => ?_)
              obtain ⟨m', hm', rfl⟩ := List.mem_map.mp ht'
              have hmem := mem_ordered hm'
              rw [Tree.normalMembers_eq] at hmem
              obtain ⟨m, hm, rfl⟩ := List.mem_map.mp hmem
              obtain ⟨v, hv⟩ := exists_of_mem_right hvs (List.mem_map_of_mem hm)
              exact ih hv hv' (nesting_lt_of_member hn hm)

end Slag.Json
