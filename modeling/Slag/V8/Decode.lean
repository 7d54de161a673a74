import Slag.V8.Graph

/-!
The readers on the bytes a writer has put: each takes its own bytes and leaves
those after them.
-/

namespace Slag.V8

open LittleEndian

/-- What a reader has built. -/
structure Built where
  memo : List (Option Value)
  heap : Heap

/-- The reader that has built so much and has these bytes before it. -/
def Built.at (b : Built) (rest : Bytes) : Reader := ⟨rest, b.memo, b.heap⟩

variable {F α β : Type} (P : Policy F)

theorem take_at (b : Built) (bytes rest : Bytes) :
    take P bytes.length (b.at (bytes ++ rest)) = (.ok bytes, b.at rest) := by
  have hle : bytes.length ≤ (b.at (bytes ++ rest)).rest.length := by
    change bytes.length ≤ (bytes ++ rest).length
    rw [List.length_append]
    exact Nat.le_add_right _ _
  rw [take, if_pos hle]
  change (Except.ok (List.take bytes.length (bytes ++ rest)),
    b.at (List.drop bytes.length (bytes ++ rest))) = _
  rw [List.take_left, List.drop_left]

theorem take_put_at (b : Built) (width n : Nat) (rest : Bytes) :
    take P width (b.at (put width n ++ rest)) = (.ok (put width n), b.at rest) := by
  have h := take_at P b (put width n) rest
  rwa [length_put] at h

theorem takeU8_at (b : Built) (byte : UInt8) (rest : Bytes) :
    takeU8 P (b.at (byte :: rest)) = (.ok byte, b.at rest) :=
  bind_ok (take_at P b [byte] rest)

theorem takeU32_at (b : Built) {n : Nat} (h : n < 2 ^ 32) (rest : Bytes) :
    takeU32 P (b.at (put 4 n ++ rest)) = (.ok n, b.at rest) := by
  rw [takeU32, bind_ok (take_put_at P b 4 n rest), get_put h]
  rfl

theorem takeU64_at (b : Built) {n : Nat} (h : n < 2 ^ 64) (rest : Bytes) :
    takeU64 P (b.at (put 8 n ++ rest)) = (.ok n, b.at rest) := by
  rw [takeU64, bind_ok (take_put_at P b 8 n rest), get_put h]
  rfl

theorem takeUnits_at (b : Built) (units : Units) (rest : Bytes) :
    takeUnits P units.length (b.at ((units.flatMap fun unit => put 2 unit.toNat) ++ rest)) =
      (.ok units, b.at rest) := by
  induction units with
  | nil => rfl
  | cons unit units ih =>
      have hget : UInt16.ofNat (get (put 2 unit.toNat)) = unit := by
        rw [get_put unit.toNat_lt, UInt16.ofNat_toNat]
      rw [List.flatMap_cons, List.append_assoc, List.length_cons, takeUnits,
        bind_ok (take_put_at P b 2 unit.toNat _), bind_ok ih, hget]
      rfl

theorem takeWords_at (b : Built) (words : List Nat) (h : ∀ w ∈ words, w < 2 ^ 64) (rest : Bytes) :
    takeWords P words.length (b.at (words.flatMap (put 8) ++ rest)) = (.ok words, b.at rest) := by
  induction words with
  | nil => rfl
  | cons word words ih =>
      have hword := h word (List.mem_cons_self ..)
      have hwords := ih fun w hw => h w (List.mem_cons_of_mem _ hw)
      rw [List.flatMap_cons, List.append_assoc, List.length_cons, takeWords,
        bind_ok (takeU64_at P b hword _), bind_ok hwords]
      rfl

/-- What `word` answers. -/
theorem word_eq_some {n : Nat} {bytes : Bytes} (h : word n = some bytes) :
    n < 2 ^ 32 ∧ bytes = put 4 n := by
  rw [word] at h
  by_cases hn : n < 2 ^ 32
  · rw [if_pos hn] at h
    exact ⟨hn, (Option.some.inj h).symm⟩
  · rw [if_neg hn] at h
    cases h

theorem putString_eq_some {units : Units} {bytes : Bytes} (h : putString units = some bytes) :
    units.length < 2 ^ 32 ∧
      bytes = tagString :: (put 4 units.length ++ units.flatMap fun unit => put 2 unit.toNat) := by
  obtain ⟨length, hword, h⟩ := Option.bind_eq_some_iff.mp h
  obtain ⟨hlt, rfl⟩ := word_eq_some hword
  exact ⟨hlt, (Option.some.inj h).symm⟩

theorem writeBigInt_eq_some {n : Int} {bytes : Bytes} (h : writeBigInt n = some bytes) :
    (Nat.digits (2 ^ 64) n.natAbs).length < 2 ^ 32 ∧
      bytes = tagBigInt :: (if n < 0 then 1 else 0) ::
        (put 4 (Nat.digits (2 ^ 64) n.natAbs).length ++
          (Nat.digits (2 ^ 64) n.natAbs).flatMap (put 8)) := by
  obtain ⟨length, hword, h⟩ := Option.bind_eq_some_iff.mp h
  obtain ⟨hlt, rfl⟩ := word_eq_some hword
  exact ⟨hlt, (Option.some.inj h).symm⟩

theorem readString_at (b : Built) {units : Units} (h : units.length < 2 ^ 32) (rest : Bytes) :
    readString P (b.at (put 4 units.length ++
      (units.flatMap fun unit => put 2 unit.toNat) ++ rest)) =
      (.ok (.string units), b.at rest) := by
  rw [List.append_assoc, readString, bind_ok (takeU32_at P b h _), bind_ok (takeUnits_at P b _ _)]
  rfl

theorem readBigInt_at (b : Built) {n : Int}
    (h : (Nat.digits (2 ^ 64) n.natAbs).length < 2 ^ 32) (rest : Bytes) :
    readBigInt P (b.at ((if n < 0 then 1 else 0) ::
      (put 4 (Nat.digits (2 ^ 64) n.natAbs).length ++
        (Nat.digits (2 ^ 64) n.natAbs).flatMap (put 8)) ++ rest)) =
      (.ok (.bigInt n), b.at rest) := by
  have hdigits : ∀ w ∈ Nat.digits (2 ^ 64) n.natAbs, w < 2 ^ 64 := fun w hw =>
    Nat.digits_lt_base (by decide) hw
  rw [List.cons_append, List.append_assoc, readBigInt, bind_ok (takeU8_at P b _ _),
    bind_ok (takeU32_at P b h _), bind_ok (takeWords_at P b _ hdigits _), Nat.ofDigits_digits]
  by_cases hn : n < 0
  · have habs : -((n.natAbs : Int)) = n := by omega
    rw [if_pos hn]
    simp only [ne_eq, habs]
    rfl
  · have habs : ((n.natAbs : Int)) = n := by omega
    rw [if_neg hn]
    simp only [ne_eq, not_true_eq_false, if_false, habs]
    rfl

theorem box_val (n : Double) : Double.box n.val = n := by
  obtain ⟨bits, h⟩ := n
  exact dif_neg h

end Slag.V8
