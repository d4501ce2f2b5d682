import Mathlib.Data.List.Basic

/-!
Memory, as a loop that fills a buffer sees it.

A memory is total: what has not been written yet has some contents, and a
theorem about every memory makes no use of them.
-/

namespace Incremental

variable {β : Type}

/-- The `n` elements at `p`. -/
def load (mem : ℕ → β) (p n : ℕ) : List β := (List.range' p n).map mem

/-- Writes `bs` at `p`. -/
def store (mem : ℕ → β) (p : ℕ) (bs : List β) : ℕ → β :=
  fun i => if i < p then mem i else bs[i - p]?.getD (mem i)

section

variable {mem : ℕ → β} {p q m n : ℕ} {bs : List β}

@[simp] theorem length_load : (load mem p n).length = n := by
  rw [load, List.length_map, List.length_range']

theorem load_add : load mem p (m + n) = load mem p m ++ load mem (p + m) n := by
  rw [load, load, load, ← List.map_append, List.range'_append_1]

theorem take_load (h : m ≤ n) : (load mem p n).take m = load mem p m := by
  obtain ⟨k, rfl⟩ := Nat.exists_eq_add_of_le h
  conv_lhs => rw [load_add]
  exact List.take_left' length_load

theorem drop_load (h : m ≤ n) : (load mem p n).drop m = load mem (p + m) (n - m) := by
  obtain ⟨k, rfl⟩ := Nat.exists_eq_add_of_le h
  rw [load_add, Nat.add_sub_cancel_left]
  exact List.drop_left' length_load

/-- What is in front of a write is not changed by it. -/
theorem load_store_of_le (h : p + n ≤ q) : load (store mem q bs) p n = load mem p n := by
  refine List.map_congr_left fun i hi => ?_
  obtain ⟨-, hlt⟩ := List.mem_range'_1.mp hi
  exact if_pos (Nat.lt_of_lt_of_le hlt h)

/-- What has been written is read back. -/
theorem load_store : load (store mem p bs) p bs.length = bs := by
  unfold load
  apply List.ext_getElem (by rw [List.length_map, List.length_range'])
  intro i hi hi'
  rw [List.getElem_map, List.getElem_range', Nat.one_mul, store,
    if_neg (Nat.not_lt.mpr (Nat.le_add_right p i)), Nat.add_sub_cancel_left,
    List.getElem?_eq_getElem hi', Option.getD_some]

/-- So is a part of it. -/
theorem load_store_part (h : m + n ≤ bs.length) :
    load (store mem p bs) (p + m) n = (bs.drop m).take n := by
  have hall := @load_store β mem p bs
  conv_rhs => rw [← hall]
  rw [drop_load (Nat.le_of_add_right_le h), take_load (by omega)]

/-- What was in front of a write, and the beginning of what was written. -/
theorem load_store_front (h : n ≤ bs.length) :
    load (store mem p bs) 0 (p + n) = load mem 0 p ++ bs.take n := by
  rw [load_add, load_store_of_le (Nat.le_of_eq (Nat.zero_add p)), Nat.zero_add]
  exact congrArg _ (load_store_part (m := 0) ((Nat.zero_add n).symm ▸ h))

end

end Incremental
