import Mathlib

namespace Acyclic

open Relation

variable {α : Type*} {r : α → α → Prop} {a : α}

theorem induction_on {P : α → Prop} (hfinite : {b | ReflTransGen r a b}.Finite)
    (hacyclic : ∀ b, ReflTransGen r a b → ¬ TransGen r b b)
    (step : ∀ b, ReflTransGen r a b → (∀ c, r b c → P c) → P b) : P a := by
  have := hfinite.to_subtype
  let later : {b | ReflTransGen r a b} → {b | ReflTransGen r a b} → Prop := fun x y => TransGen r y.1 x.1
  have htrans : IsTrans _ later := ⟨fun x y z hxy hyz => hyz.trans hxy⟩
  have hirrefl : Std.Irrefl later := ⟨fun x hx => hacyclic x.1 x.2 hx⟩
  have hwf : WellFounded later := Finite.wellFounded_of_trans_of_irrefl later
  have hall : ∀ x : {b | ReflTransGen r a b}, P x.1 := by
    intro x
    induction x using hwf.induction with
    | _ x ih => exact step x.1 x.2 fun c hc => ih ⟨c, x.2.tail hc⟩ (.single hc)
  exact hall ⟨a, .refl⟩

/-- When each step leads to a point of a lower rank, all points behind `a` have a rank and are on no cycle. -/
theorem no_cycle {P : ℕ → α → Prop} (hstep : ∀ d b c, P d b → r b c → ∃ d' < d, P d' c) {d : ℕ}
    (h : P d a) : ∀ b, ReflTransGen r a b → (∃ d', P d' b) ∧ ¬ TransGen r b b := by
  have hdown : ∀ d b c, P d b → TransGen r b c → ∃ d' < d, P d' c := by
    intro d b c hb hbc
    induction hbc with
    | single hc => exact hstep d b _ hb hc
    | tail _ hc ih =>
      obtain ⟨d1, hlt1, h1⟩ := ih
      obtain ⟨d2, hlt2, h2⟩ := hstep d1 _ _ h1 hc
      exact ⟨d2, hlt2.trans hlt1, h2⟩
  have hloop : ∀ d b, P d b → ¬ TransGen r b b := by
    intro d
    induction d using Nat.strong_induction_on with
    | _ d ih =>
      intro b hb hcycle
      obtain ⟨d', hlt, hb'⟩ := hdown d b b hb hcycle
      exact ih d' hlt b hb' hcycle
  intro b hab
  have hrank : ∃ d', P d' b := by
    rcases reflTransGen_iff_eq_or_transGen.mp hab with rfl | hab
    · exact ⟨d, h⟩
    · obtain ⟨d', -, hb⟩ := hdown d a b h hab
      exact ⟨d', hb⟩
  obtain ⟨d', hb⟩ := hrank
  exact ⟨⟨d', hb⟩, hloop d' b hb⟩

/-- A further step from `p` to `q` closes no cycle where `q` does not lead to `p`. -/
theorem add_step {r' : α → α → Prop} {p q : α} (hacyclic : ∀ b, ¬ TransGen r b b)
    (hsub : ∀ b c, r' b c → r b c ∨ b = p ∧ c = q) (hapart : ¬ ReflTransGen r q p) :
    ∀ b, ¬ TransGen r' b b := by
  have hpath : ∀ b c, TransGen r' b c → TransGen r b c ∨ ReflTransGen r b p ∧ ReflTransGen r q c := by
    intro b c hbc
    induction hbc with
    | single hstep =>
      rcases hsub _ _ hstep with hold | ⟨rfl, rfl⟩
      · exact .inl (.single hold)
      · exact .inr ⟨.refl, .refl⟩
    | tail _ hstep ih =>
      rcases hsub _ _ hstep with hold | ⟨rfl, rfl⟩
      · exact ih.imp (fun h => h.tail hold) fun h => ⟨h.1, h.2.tail hold⟩
      · exact .inr ⟨ih.elim (fun h => h.to_reflTransGen) And.left, .refl⟩
  intro b hloop
  rcases hpath b b hloop with hold | ⟨hbp, hqb⟩
  · exact hacyclic b hold
  · exact hapart (hqb.trans hbp)

end Acyclic
