import Mathlib

namespace Machines

variable {σ τ ι ο : Type*} (step : σ → ι → σ × ο) (step' : τ → ι → τ × ο)

def outputs : List ι → σ → List ο
  | [], _ => []
  | i :: is, s => (step s i).2 :: outputs is (step s i).1

def final : List ι → σ → σ
  | [], s => s
  | i :: is, s => final is (step s i).1

/-- Each input meets `ok` in the state that it is given in. -/
def Accepts (ok : σ → ι → Prop) : List ι → σ → Prop
  | [], _ => True
  | i :: is, s => ok s i ∧ Accepts ok is (step s i).1

instance Accepts.decidable (ok : σ → ι → Prop) [∀ s i, Decidable (ok s i)] :
    ∀ is s, Decidable (Accepts step ok is s)
  | [], _ => .isTrue trivial
  | i :: is, s =>
    have := Accepts.decidable ok is (step s i).1
    inferInstanceAs (Decidable (ok s i ∧ Accepts step ok is (step s i).1))

/-- Related states have related successors, and give equal outputs. -/
def Simulates (ok : τ → ι → Prop) (R : σ → τ → Prop) : Prop :=
  ∀ s t i, R s t → ok t i → R (step s i).1 (step' t i).1 ∧ (step s i).2 = (step' t i).2

variable {step step'} {ok : τ → ι → Prop} {R : σ → τ → Prop}

theorem accepts_of_forall {is : List ι} {t : τ} (h : ∀ i ∈ is, ∀ t, ok t i) : Accepts step' ok is t := by
  induction is generalizing t with
  | nil => trivial
  | cons i is ih =>
    exact ⟨h i List.mem_cons_self t, ih fun j hj => h j (List.mem_cons_of_mem i hj)⟩

theorem Simulates.run (h : Simulates step step' ok R) {is : List ι} {s : σ} {t : τ} (hR : R s t)
    (hok : Accepts step' ok is t) :
    outputs step is s = outputs step' is t ∧ R (final step is s) (final step' is t) := by
  induction is generalizing s t with
  | nil => exact ⟨rfl, hR⟩
  | cons i is ih =>
    obtain ⟨hnext, hout⟩ := h s t i hR hok.1
    obtain ⟨houts, hfinal⟩ := ih hnext hok.2
    refine ⟨?_, hfinal⟩
    rw [outputs, outputs, hout, houts]

section Specification

variable (step : σ → ι → σ × ο) (next : τ → ι → ο → τ) (allows : τ → ι → ο → Prop)

/-- Every output is allowed, and the states are related after every step. -/
def Conforms (R : σ → τ → Prop) : List ι → σ → τ → Prop
  | [], _, _ => True
  | i :: is, s, t =>
    (allows t i (step s i).2 ∧ R (step s i).1 (next t i (step s i).2)) ∧
      Conforms R is (step s i).1 (next t i (step s i).2)

/-- Each input meets `ok` in the states that it is given in. -/
def Along (ok : σ → τ → ι → Prop) : List ι → σ → τ → Prop
  | [], _, _ => True
  | i :: is, s, t => ok s t i ∧ Along ok is (step s i).1 (next t i (step s i).2)

instance Along.decidable (ok : σ → τ → ι → Prop) [∀ s t i, Decidable (ok s t i)] :
    ∀ is s t, Decidable (Along step next ok is s t)
  | [], _, _ => .isTrue trivial
  | i :: is, s, t =>
    have := Along.decidable ok is (step s i).1 (next t i (step s i).2)
    inferInstanceAs (Decidable (ok s t i ∧ Along step next ok is _ _))

variable {step next allows} {R : σ → τ → Prop} {ok : σ → τ → ι → Prop}

theorem conforms_iff
    (h : ∀ s t i, R s t → (allows t i (step s i).2 ∧ R (step s i).1 (next t i (step s i).2) ↔ ok s t i))
    {is : List ι} {s : σ} {t : τ} (hR : R s t) :
    Conforms step next allows R is s t ↔ Along step next ok is s t := by
  induction is generalizing s t with
  | nil => exact Iff.rfl
  | cons i is ih =>
    have hstep := h s t i hR
    constructor
    · intro hconforms
      exact ⟨hstep.mp hconforms.1, (ih hconforms.1.2).mp hconforms.2⟩
    · intro halong
      have hnext := hstep.mpr halong.1
      exact ⟨hnext, (ih hnext.2).mpr halong.2⟩

end Specification

end Machines
