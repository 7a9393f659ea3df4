import Mathlib

namespace Custody

open Function

variable {ι κ π S : Type*}

/-- The program counters and the things agree on who holds what. -/
structure Held (holds : π → Option (ι × S)) (busy : S → Bool) (pc : κ → π) (life : ι → S × Option κ) :
    Prop where
  of_pc : ∀ {c i s}, holds (pc c) = some (i, s) → life i = (s, some c)
  of_life : ∀ {c i s}, life i = (s, some c) → holds (pc c) = some (i, s)
  isSome : ∀ i, (life i).2.isSome = busy (life i).1

namespace Held

variable {holds : π → Option (ι × S)} {busy : S → Bool} {pc : κ → π} {life : ι → S × Option κ} {c : κ} {i : ι} {s s' : S}
  {p : π} [DecidableEq κ]

omit [DecidableEq κ] in
theorem holder_eq_none (h : Held holds busy pc life) (hi : busy (life i).1 = false) : (life i).2 = none := by
  rw [← h.isSome] at hi
  exact Option.not_isSome_iff_eq_none.mp (Bool.not_eq_true _ ▸ hi)

omit [DecidableEq κ] in
theorem exists_holder (h : Held holds busy pc life) (hi : busy (life i).1 = true) :
    ∃ c, holds (pc c) = some (i, (life i).1) := by
  rw [← h.isSome] at hi
  obtain ⟨c, hc⟩ := Option.isSome_iff_exists.mp hi
  exact ⟨c, h.of_life (Prod.ext rfl hc)⟩

theorem keep (h : Held holds busy pc life) (heq : holds p = holds (pc c)) :
    Held holds busy (Function.update pc c p) life := by
  have hsame : ∀ d, holds (Function.update pc c p d) = holds (pc d) := by
    intro d
    by_cases hd : d = c
    · rw [hd, update_self, heq]
    · rw [update_of_ne hd]
  refine ⟨?_, ?_, h.isSome⟩
  · intro d j r hj
    rw [hsame] at hj
    exact h.of_pc hj
  · intro d j r hj
    rw [hsame]
    exact h.of_life hj

variable [DecidableEq ι]

theorem update (h : Held holds busy pc life) (hi : ∀ d r, life i = (r, some d) → d = c)
    (hc : ∀ j r, holds (pc c) = some (j, r) → j = i) {l : S × Option κ}
    (hnew : ∀ j r, holds p = some (j, r) → j = i ∧ l = (r, some c))
    (hl : ∀ d r, l = (r, some d) → d = c ∧ holds p = some (i, r)) (hbusy : l.2.isSome = busy l.1) :
    Held holds busy (Function.update pc c p) (Function.update life i l) := by
  refine ⟨?_, ?_, ?_⟩
  · intro d j r hj
    by_cases hd : d = c
    · rw [hd, update_self] at hj
      obtain ⟨hji, hlr⟩ := hnew j r hj
      rw [hji, hd, update_self, hlr]
    · rw [update_of_ne hd] at hj
      have hlife := h.of_pc hj
      have hji : j ≠ i := by
        rintro rfl
        exact hd (hi d r hlife)
      rw [update_of_ne hji, hlife]
  · intro d j r hj
    by_cases hji : j = i
    · rw [hji, update_self] at hj
      obtain ⟨hd, hp⟩ := hl d r hj
      rw [hd, hji, update_self, hp]
    · rw [update_of_ne hji] at hj
      have hold := h.of_life hj
      have hd : d ≠ c := by
        rintro rfl
        exact hji (hc j r hold)
      rw [update_of_ne hd, hold]
  · intro j
    by_cases hji : j = i
    · rw [hji, update_self, hbusy]
    · rw [update_of_ne hji, h.isSome]

theorem take (h : Held holds busy pc life) (hc : holds (pc c) = none) (hi : busy (life i).1 = false)
    (hp : holds p = some (i, s)) (hs : busy s = true) :
    Held holds busy (Function.update pc c p) (Function.update life i (s, some c)) := by
  apply h.update
  · intro d r hr
    have hnone := h.holder_eq_none hi
    rw [hr] at hnone
    cases hnone
  · intro j r hj
    rw [hc] at hj
    cases hj
  · intro j r hj
    rw [hp] at hj
    cases hj
    exact ⟨rfl, rfl⟩
  · intro d r hr
    cases hr
    exact ⟨rfl, hp⟩
  · rw [hs]
    rfl

theorem move (h : Held holds busy pc life) (hc : holds (pc c) = some (i, s')) (hp : holds p = some (i, s))
    (hs : busy s = true) : Held holds busy (Function.update pc c p) (Function.update life i (s, some c)) := by
  apply h.update
  · intro d r hr
    rw [h.of_pc hc] at hr
    cases hr
    rfl
  · intro j r hj
    rw [hc] at hj
    cases hj
    rfl
  · intro j r hj
    rw [hp] at hj
    cases hj
    exact ⟨rfl, rfl⟩
  · intro d r hr
    cases hr
    exact ⟨rfl, hp⟩
  · rw [hs]
    rfl

theorem drop (h : Held holds busy pc life) (hc : holds (pc c) = some (i, s')) (hp : holds p = none)
    (hs : busy s = false) : Held holds busy (Function.update pc c p) (Function.update life i (s, none)) := by
  apply h.update
  · intro d r hr
    rw [h.of_pc hc] at hr
    cases hr
    rfl
  · intro j r hj
    rw [hc] at hj
    cases hj
    rfl
  · intro j r hj
    rw [hp] at hj
    cases hj
  · intro d r hr
    cases hr
  · rw [hs]
    rfl

end Held

/-- The list has the things whose stage meets `q`, each of them once. -/
structure Tracks (l : List ι) (q : S → Bool) (life : ι → S × Option κ) : Prop where
  nodup : l.Nodup
  mem_iff : ∀ i, i ∈ l ↔ q (life i).1 = true

namespace Tracks

variable {l : List ι} {q : S → Bool} {life : ι → S × Option κ} {i : ι} {v : S × Option κ} [DecidableEq ι]

theorem keep (h : Tracks l q life) (heq : q v.1 = q (life i).1) : Tracks l q (update life i v) where
  nodup := h.nodup
  mem_iff j := by
    by_cases hj : j = i
    · rw [hj, update_self, heq, h.mem_iff]
    · rw [update_of_ne hj, h.mem_iff]

theorem add (h : Tracks l q life) (hold : q (life i).1 = false) (hnew : q v.1 = true) :
    Tracks (i :: l) q (update life i v) where
  nodup := by
    refine List.nodup_cons.mpr ⟨fun hmem => ?_, h.nodup⟩
    rw [h.mem_iff, hold] at hmem
    cases hmem
  mem_iff j := by
    rw [List.mem_cons]
    by_cases hj : j = i
    · rw [hj, update_self, hnew]
      simp
    · rw [update_of_ne hj, ← h.mem_iff]
      simp [hj]

theorem erase (h : Tracks l q life) (hnew : q v.1 = false) : Tracks (l.erase i) q (update life i v) where
  nodup := h.nodup.erase i
  mem_iff j := by
    rw [h.nodup.mem_erase_iff]
    by_cases hj : j = i
    · rw [hj, update_self, hnew]
      simp
    · rw [update_of_ne hj, ← h.mem_iff]
      simp [hj]

end Tracks

end Custody
