import Mathlib.Order.Interval.Set.Basic
import Mathlib.Tactic.Common

namespace RunScan

variable {p : ℕ → Prop} {length a s pos q : ℕ}

/-- `length` places from `i` on have the property. -/
def RunAt (p : ℕ → Prop) (length i : ℕ) : Prop := ∀ j, i ≤ j → j < i + length → p j

/-- The places from `a` to `pos` have been scanned: a run too short to stop stands at `s`, and every
run from `a` on begins at `s` or later. -/
structure Scanned (p : ℕ → Prop) (length a s pos : ℕ) : Prop where
  from_le : a ≤ s
  le_pos : s ≤ pos
  short : pos < s + length
  holds : ∀ j, s ≤ j → j < pos → p j
  later : ∀ i, a ≤ i → RunAt p length i → s ≤ i

theorem Scanned.start (h : 0 < length) : Scanned p length a a a where
  from_le := le_rfl
  le_pos := le_rfl
  short := by omega
  holds := by omega
  later := fun _ hi _ => hi

theorem Scanned.extend (h : Scanned p length a s pos) (hq : pos ≤ q) (hshort : q < s + length)
    (hp : ∀ j, pos ≤ j → j < q → p j) : Scanned p length a s q where
  from_le := h.from_le
  le_pos := h.le_pos.trans hq
  short := hshort
  holds := by
    intro j hsj hjq
    by_cases hj : j < pos
    · exact h.holds j hsj hj
    · exact hp j (by omega) hjq
  later := h.later

theorem Scanned.found (h : Scanned p length a s pos) (hlong : s + length ≤ q)
    (hp : ∀ j, pos ≤ j → j < q → p j) : a ≤ s ∧ RunAt p length s := by
  refine ⟨h.from_le, fun j hsj hj => ?_⟩
  by_cases hpos : j < pos
  · exact h.holds j hsj hpos
  · exact hp j (by omega) (by omega)

theorem Scanned.restart (h : Scanned p length a s pos) (hq : pos < q)
    (hp : ∀ j, pos ≤ j → j < q → ¬p j) : Scanned p length a q q where
  from_le := h.from_le.trans (h.le_pos.trans hq.le)
  le_pos := le_rfl
  short := by
    have := h.short
    have := h.le_pos
    omega
  holds := by omega
  later := by
    intro i hi hrun
    have hsi := h.later i hi hrun
    have hshort := h.short
    by_contra hiq
    -- the run would contain a place without the property
    by_cases hip : i ≤ pos
    · exact hp pos le_rfl hq (hrun pos hip (by omega))
    · exact hp i (by omega) (by omega) (hrun i le_rfl (by have := h.le_pos; omega))

theorem Scanned.none (h : Scanned p length a s pos) {i : ℕ} (hi : a ≤ i) (hend : i + length ≤ pos) :
    ¬RunAt p length i := by
  intro hrun
  have hsi := h.later i hi hrun
  have hshort := h.short
  omega

end RunScan
