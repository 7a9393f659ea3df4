import Mathlib

namespace Bytes

open List

variable {α : Type*}

/-- The `n` elements from address `start` on. -/
def slice (mem : ℕ → α) (start n : ℕ) : List α := (List.range n).map fun i => mem (start + i)

/-- The memory with `elements` from address `start` on. -/
def overwrite (mem : ℕ → α) (start : ℕ) (elements : List α) : ℕ → α :=
  fun i => if i < start then mem i else elements[i - start]?.getD (mem i)

@[simp]
theorem length_slice (mem : ℕ → α) (start n : ℕ) : (slice mem start n).length = n := by
  simp [slice]

@[simp]
theorem slice_zero (mem : ℕ → α) (start : ℕ) : slice mem start 0 = [] := rfl

variable {n i start : ℕ} {elements : List α}

theorem getElem?_slice (mem : ℕ → α) (start : ℕ) (h : i < n) :
    (slice mem start n)[i]? = some (mem (start + i)) := by
  unfold slice
  rw [List.getElem?_map, List.getElem?_range h, Option.map_some]

theorem slice_add (mem : ℕ → α) (start m n : ℕ) :
    slice mem start (m + n) = slice mem start m ++ slice mem (start + m) n := by
  unfold slice
  rw [range_add, map_append, map_map]
  congr 1
  apply map_congr_left
  intro i _
  simp [Nat.add_assoc]

theorem slice_congr {mem mem' : ℕ → α} {start' : ℕ} (h : ∀ i < n, mem (start + i) = mem' (start' + i)) :
    slice mem start n = slice mem' start' n := by
  unfold slice
  apply map_congr_left
  intro i hi
  exact h i (mem_range.mp hi)

theorem take_slice (mem : ℕ → α) (start : ℕ) {m : ℕ} (h : m ≤ n) :
    (slice mem start n).take m = slice mem start m := by
  unfold slice
  rw [← map_take, take_range, Nat.min_eq_left h]

theorem drop_slice (mem : ℕ → α) (start m n : ℕ) :
    (slice mem start n).drop m = slice mem (start + m) (n - m) := by
  rcases le_total m n with h | h
  · obtain ⟨k, rfl⟩ := Nat.exists_eq_add_of_le h
    rw [slice_add, drop_left' (length_slice mem start m), Nat.add_sub_cancel_left]
  · rw [drop_of_length_le (by simpa using h), Nat.sub_eq_zero_of_le h, slice_zero]

@[simp]
theorem overwrite_nil (mem : ℕ → α) (start : ℕ) : overwrite mem start [] = mem := by
  funext i
  simp [overwrite]

theorem overwrite_of_lt (mem : ℕ → α) (elements : List α) (h : i < start) :
    overwrite mem start elements i = mem i := if_pos h

theorem overwrite_of_le (mem : ℕ → α) (h : start + elements.length ≤ i) :
    overwrite mem start elements i = mem i := by
  unfold overwrite
  rw [List.getElem?_eq_none (by omega), Option.getD_none, ite_self]

theorem overwrite_add (mem : ℕ → α) (start : ℕ) (h : i < elements.length) :
    overwrite mem start elements (start + i) = elements[i] := by
  unfold overwrite
  rw [if_neg (by omega), Nat.add_sub_cancel_left, List.getElem?_eq_getElem h, Option.getD_some]

theorem overwrite_slice (mem src : ℕ → α) (start start' n i : ℕ) :
    overwrite mem start (slice src start' n) i =
      if start ≤ i ∧ i < start + n then src (start' + (i - start)) else mem i := by
  by_cases hlt : i < start
  · rw [overwrite_of_lt _ _ hlt, if_neg (by omega)]
  · by_cases hin : i < start + n
    · obtain ⟨k, rfl⟩ := Nat.exists_eq_add_of_le (not_lt.mp hlt)
      have hk : k < (slice src start' n).length := by simpa using hin
      rw [overwrite_add _ _ hk, if_pos ⟨Nat.le_add_right _ _, hin⟩, Nat.add_sub_cancel_left]
      simp [slice]
    · rw [overwrite_of_le _ (by simpa using hin), if_neg (by omega)]

theorem slice_overwrite_self (mem : ℕ → α) (start : ℕ) (elements : List α) :
    slice (overwrite mem start elements) start elements.length = elements := by
  apply ext_getElem
  · simp
  · intro i hi hi'
    simp only [slice, getElem_map, getElem_range]
    exact overwrite_add mem start hi'

/-- A range is copied out, part of the copy is changed, and the copy is put back: only that part
changes. -/
theorem overwrite_modified_copy (mem copy : ℕ → α) (start n : ℕ) {k : ℕ} (h : k + elements.length ≤ n) :
    overwrite mem start (slice (overwrite (overwrite copy 0 (slice mem start n)) k elements) 0 n) =
      overwrite mem (start + k) elements := by
  funext i
  rw [overwrite_slice]
  by_cases hin : start ≤ i ∧ i < start + n
  · obtain ⟨j, rfl⟩ := Nat.exists_eq_add_of_le hin.1
    rw [if_pos hin, Nat.add_sub_cancel_left, Nat.zero_add]
    have hcopy : overwrite copy 0 (slice mem start n) j = mem (start + j) := by
      rw [overwrite_slice, if_pos (by omega), Nat.sub_zero]
    generalize overwrite copy 0 (slice mem start n) = copied at hcopy ⊢
    unfold overwrite
    rw [hcopy, show start + j - (start + k) = j - k by omega]
    simp only [Nat.add_lt_add_iff_left]
  · rw [if_neg hin]
    by_cases hlt : i < start
    · rw [overwrite_of_lt _ _ (by omega)]
    · rw [overwrite_of_le _ (by omega)]

theorem overwrite_append (mem : ℕ → α) (start : ℕ) (elements elements' : List α) :
    overwrite (overwrite mem start elements) (start + elements.length) elements' =
      overwrite mem start (elements ++ elements') := by
  funext i
  unfold overwrite
  by_cases hlt : i < start
  · rw [if_pos (by omega), if_pos hlt, if_pos hlt]
  · by_cases hin : i < start + elements.length
    · rw [if_pos hin, if_neg hlt, if_neg hlt, List.getElem?_append_left (by omega)]
    · rw [if_neg hin, if_neg hlt, if_neg hlt, List.getElem?_append_right (by omega),
        List.getElem?_eq_none (l := elements) (by omega), Option.getD_none]
      congr 2
      omega

end Bytes
