import Mathlib

namespace CoolPotOS

def pageSize : ℕ := 4096

def wrap (n : ℕ) : ℕ := n % 2 ^ 64

def wrapSub (a b : ℕ) : ℕ := (a + (2 ^ 64 - b)) % 2 ^ 64

def paddingDown (n : ℕ) : ℕ := n / pageSize * pageSize

/-- `PADDING_UP(size, PAGE_SIZE)`; the sum before the division may wrap. -/
def paddingUp (n : ℕ) : ℕ := paddingDown (wrap (n + pageSize - 1))

/-- The outcome of the next allocation. When the list of outcomes has run out, all
further allocations succeed. -/
def malloc : List Bool → Bool × List Bool
  | [] => (true, [])
  | ok :: heap => (ok, heap)

def forRange {α : Type*} (a b : ℕ) (f : ℕ → α → α) (s : α) : α :=
  (List.range' a (b - a)).foldl (fun s i => f i s) s

section Loops

variable {α : Type*} (f : ℕ → α → α)

theorem forRange_of_le {a b : ℕ} (h : b ≤ a) (s : α) : forRange a b f s = s := by
  simp [forRange, Nat.sub_eq_zero_of_le h]

theorem forRange_succ {a b : ℕ} (h : a ≤ b) (s : α) : forRange a (b + 1) f s = f b (forRange a b f s) := by
  have hl : b + 1 - a = (b - a) + 1 := by omega
  simp only [forRange, hl, List.range'_concat, List.foldl_append, List.foldl_cons, List.foldl_nil]
  congr 1
  omega

theorem forRange_invariant {a b : ℕ} (P : ℕ → α → Prop) (s : α) (hab : a ≤ b) (h0 : P a s)
    (hstep : ∀ i s, a ≤ i → i < b → P i s → P (i + 1) (f i s)) : P b (forRange a b f s) := by
  induction b, hab using Nat.le_induction with
  | base => rwa [forRange_of_le f le_rfl]
  | succ b hb ih =>
    rw [forRange_succ f hb]
    exact hstep b _ hb (Nat.lt_succ_self b)
      (ih fun i s hi hib => hstep i s hi (hib.trans (Nat.lt_succ_self b)))

end Loops

theorem wrap_of_lt {n : ℕ} (h : n < 2 ^ 64) : wrap n = n := Nat.mod_eq_of_lt h

theorem wrap_lt (n : ℕ) : wrap n < 2 ^ 64 := Nat.mod_lt _ (by norm_num)

theorem paddingDown_of_dvd {n : ℕ} (h : pageSize ∣ n) : paddingDown n = n := Nat.div_mul_cancel h

theorem paddingUp_of_dvd {n : ℕ} (h : pageSize ∣ n) (hn : n < 2 ^ 64) : paddingUp n = n := by
  obtain ⟨k, rfl⟩ := h
  simp only [paddingUp, paddingDown, wrap, pageSize] at hn ⊢
  omega

theorem malloc_of_ok {heap : List Bool} (h : false ∉ heap) :
    ∃ heap', malloc heap = (true, heap') ∧ false ∉ heap' := by
  cases heap with
  | nil => exact ⟨[], rfl, h⟩
  | cons ok heap =>
    rw [List.mem_cons, not_or] at h
    refine ⟨heap, ?_, h.2⟩
    rw [malloc, Bool.eq_true_of_not_eq_false fun hok => h.1 hok.symm]

end CoolPotOS
