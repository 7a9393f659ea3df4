import CoolPotOS.Lib.Bytes

namespace Ring

open Bytes List

variable {α : Type*}

/-- The `n` elements of the ring from place `head` on. -/
def contents (mem : ℕ → α) (size head n : ℕ) : List α :=
  (List.range n).map fun i => mem ((head + i) % size)

/-- Reads up to the end of the ring, and then from its start. -/
def load (mem : ℕ → α) (size head n : ℕ) : List α :=
  let first := min n (size - head)
  slice mem head first ++ slice mem 0 (n - first)

/-- Writes up to the end of the ring, and then from its start. -/
def store (mem : ℕ → α) (size tail : ℕ) (elements : List α) : ℕ → α :=
  let first := min elements.length (size - tail)
  overwrite (overwrite mem tail (elements.take first)) 0 (elements.drop first)

variable (mem : ℕ → α) (size : ℕ)

@[simp] theorem length_contents (head n : ℕ) : (contents mem size head n).length = n := by
  simp [contents]

@[simp] theorem contents_zero (head : ℕ) : contents mem size head 0 = [] := rfl

theorem contents_add (head m n : ℕ) : contents mem size head (m + n) =
    contents mem size head m ++ contents mem size ((head + m) % size) n := by
  unfold contents
  rw [range_add, map_append, map_map]
  congr 1
  apply map_congr_left
  intro i _
  rw [Function.comp_apply, Nat.mod_add_mod, Nat.add_assoc]

variable {mem size}

theorem take_contents {head m n : ℕ} (h : m ≤ n) :
    (contents mem size head n).take m = contents mem size head m := by
  obtain ⟨k, rfl⟩ := Nat.exists_eq_add_of_le h
  rw [contents_add, take_left' (length_contents mem size head m)]

theorem drop_contents {head m n : ℕ} (h : m ≤ n) :
    (contents mem size head n).drop m = contents mem size ((head + m) % size) (n - m) := by
  obtain ⟨k, rfl⟩ := Nat.exists_eq_add_of_le h
  rw [contents_add, drop_left' (length_contents mem size head m), Nat.add_sub_cancel_left]

theorem contents_eq_slice {head n : ℕ} (h : head + n ≤ size) :
    contents mem size head n = slice mem head n := by
  unfold contents slice
  apply map_congr_left
  intro i hi
  rw [Nat.mod_eq_of_lt (by have := mem_range.mp hi; omega)]

theorem load_eq_contents {head n : ℕ} (hhead : head < size) (hn : n ≤ size) :
    load mem size head n = contents mem size head n := by
  unfold load
  dsimp only
  rcases le_total n (size - head) with hle | hle
  · rw [Nat.min_eq_left hle, Nat.sub_self, slice_zero, append_nil, contents_eq_slice (by omega)]
  · obtain ⟨k, rfl⟩ := Nat.exists_eq_add_of_le hle
    have hend : (head + (size - head)) % size = 0 := by
      rw [Nat.add_sub_cancel' hhead.le, Nat.mod_self]
    rw [Nat.min_eq_right hle, Nat.add_sub_cancel_left, contents_add, hend,
      contents_eq_slice (by omega), contents_eq_slice (by omega)]

theorem store_apply {tail j : ℕ} {elements : List α} (htail : tail < size) (hj : j < size)
    (hlen : elements.length ≤ size) : store mem size tail elements j =
      elements[(j + size - tail) % size]?.getD (mem j) := by
  unfold store
  by_cases hlt : j < tail
  · -- behind the end of the ring
    have hmod : (j + size - tail) % size = j + size - tail := Nat.mod_eq_of_lt (by omega)
    rw [hmod]
    unfold overwrite
    rw [if_neg (Nat.not_lt_zero j), if_pos hlt, List.getElem?_drop, Nat.sub_zero]
    rcases le_total elements.length (size - tail) with hle | hle
    · rw [List.getElem?_eq_none (by omega), List.getElem?_eq_none (by omega)]
    · rw [Nat.min_eq_right hle]
      congr 2
      omega
  · have hmod : (j + size - tail) % size = j - tail := by
      rw [show j + size - tail = j - tail + size by omega, Nat.add_mod_right, Nat.mod_eq_of_lt (by omega)]
    rw [hmod]
    unfold overwrite
    rw [if_neg (Nat.not_lt_zero j), if_neg hlt, List.getElem?_drop, Nat.sub_zero, List.getElem?_take]
    -- the second piece ends before the place where the first one starts
    rw [List.getElem?_eq_none (by omega), Option.getD_none]
    split_ifs with hin
    · rfl
    · rw [Option.getD_none, List.getElem?_eq_none (by omega), Option.getD_none]

theorem contents_store {head n : ℕ} {elements : List α} (hhead : head < size)
    (hlen : n + elements.length ≤ size) :
    contents (store mem size ((head + n) % size) elements) size head (n + elements.length) =
      contents mem size head n ++ elements := by
  have hsize : 0 < size := by omega
  have hmod : ∀ k, k < 2 * size → k % size = if k < size then k else k - size := by
    intro k hk
    split_ifs with hlt
    · exact Nat.mod_eq_of_lt hlt
    · rw [Nat.mod_eq_sub_mod (by omega), Nat.mod_eq_of_lt (by omega)]
  rw [contents_add]
  congr 1
  · unfold contents
    apply map_congr_left
    intro i hi
    have hi' := mem_range.mp hi
    rw [store_apply (Nat.mod_lt _ hsize) (Nat.mod_lt _ hsize) (by omega),
      List.getElem?_eq_none, Option.getD_none]
    -- the distance from the tail to an old place is at least the free room
    rw [hmod (head + n) (by omega), hmod (head + i) (by omega)]
    split_ifs
    all_goals
      rw [hmod _ (by omega)]
      split_ifs <;> omega
  · apply ext_getElem
    · simp
    · intro i hi hi'
      simp only [contents, getElem_map, getElem_range]
      rw [store_apply (Nat.mod_lt _ hsize) (Nat.mod_lt _ hsize) (by omega)]
      have hdist : (((head + n) % size + i) % size + size - (head + n) % size) % size = i := by
        have htail : (head + n) % size < size := Nat.mod_lt _ hsize
        generalize (head + n) % size = tail at htail ⊢
        rw [hmod (tail + i) (by omega)]
        split_ifs
        · rw [hmod _ (by omega)]
          split_ifs <;> omega
        · rw [hmod _ (by omega)]
          split_ifs <;> omega
      rw [hdist, List.getElem?_eq_getElem hi', Option.getD_some]

theorem contents_update {head n : ℕ} (x : α) (hn : n < size) :
    contents (Function.update mem ((head + n) % size) x) size head (n + 1) =
      contents mem size head n ++ [x] := by
  rw [contents_add]
  congr 1
  · unfold contents
    apply map_congr_left
    intro i hi
    have hi' := mem_range.mp hi
    apply Function.update_of_ne
    intro heq
    have hmod : head + i ≡ head + n [MOD size] := heq
    have hin := Nat.ModEq.add_left_cancel' head hmod
    have : i = n := Nat.ModEq.eq_of_lt_of_lt hin (by omega) hn
    omega
  · simp [contents]

end Ring
