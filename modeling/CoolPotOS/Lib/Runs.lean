import Mathlib

namespace Runs

variable {σ ι : Type*} (step : σ → ι → Option σ)

def run : List ι → σ → Option σ
  | [], s => some s
  | op :: ops, s => (step s op).bind (run ops)

def Meets (ok : σ → ι → Prop) : List ι → σ → Prop
  | [], _ => True
  | op :: ops, s => ok s op ∧ ∀ s' ∈ step s op, Meets ok ops s'

instance Meets.decidable (ok : σ → ι → Prop) [∀ s op, Decidable (ok s op)] :
    ∀ ops s, Decidable (Meets step ok ops s)
  | [], _ => .isTrue trivial
  | op :: ops, s =>
    have := fun s' => Meets.decidable ok ops s'
    inferInstanceAs (Decidable (ok s op ∧ ∀ s' ∈ step s op, Meets step ok ops s'))

variable {step} {ok : σ → ι → Prop} {Inv : σ → Prop}

theorem meets_of_forall {ops : List ι} {s : σ} (h : ∀ op ∈ ops, ∀ s, ok s op) : Meets step ok ops s := by
  induction ops generalizing s with
  | nil => trivial
  | cons op ops ih =>
    exact ⟨h op List.mem_cons_self s, fun s' _ => ih fun op' hop' => h op' (List.mem_cons_of_mem _ hop')⟩

theorem meets_true (ops : List ι) (s : σ) : Meets step (fun _ _ => True) ops s :=
  meets_of_forall fun _ _ _ => trivial

theorem Meets.cons {op : ι} {ops : List ι} {s s' : σ} (hop : ok s op) (hstep : step s op = some s')
    (h : Meets step ok ops s') : Meets step ok (op :: ops) s := by
  refine ⟨hop, fun s1 hs1 => ?_⟩
  obtain rfl := Option.some.inj (hstep.symm.trans hs1)
  exact h

theorem run_append (ops ops' : List ι) (s : σ) :
    run step (ops ++ ops') s = (run step ops s).bind (run step ops') := by
  induction ops generalizing s with
  | nil => rfl
  | cons op ops ih =>
    rw [List.cons_append, run, run]
    cases step s op with
    | none => rfl
    | some s' => exact ih s'

theorem Meets.append {ops ops' : List ι} {s : σ} (h : Meets step ok ops s)
    (h' : ∀ s' ∈ run step ops s, Meets step ok ops' s') : Meets step ok (ops ++ ops') s := by
  induction ops generalizing s with
  | nil => exact h' s rfl
  | cons op ops ih =>
    refine ⟨h.1, fun s1 hs1 => ih (h.2 s1 hs1) fun s' hs' => h' s' ?_⟩
    exact Option.bind_eq_some_iff.mpr ⟨s1, hs1, hs'⟩

theorem Meets.and {ok' : σ → ι → Prop} {ops : List ι} {s : σ} (h : Meets step ok ops s)
    (h' : Meets step ok' ops s) : Meets step (fun s op => ok s op ∧ ok' s op) ops s := by
  induction ops generalizing s with
  | nil => trivial
  | cons op ops ih => exact ⟨⟨h.1, h'.1⟩, fun s' hs' => ih (h.2 s' hs') (h'.2 s' hs')⟩

theorem Meets.of_isPrefix {ops done : List ι} {s : σ} (h : Meets step ok ops s) (hp : done <+: ops) :
    Meets step ok done s := by
  induction done generalizing ops s with
  | nil => trivial
  | cons op done ih =>
    obtain ⟨rest, rfl⟩ := hp
    exact ⟨h.1, fun s' hs' => ih (h.2 s' hs') (List.prefix_append done rest)⟩

theorem Meets.last {ops : List ι} {op : ι} {s s' : σ} (h : Meets step ok (ops ++ [op]) s)
    (hrun : run step ops s = some s') : ok s' op := by
  induction ops generalizing s with
  | nil =>
    cases hrun
    exact h.1
  | cons op' ops ih =>
    obtain ⟨s1, hs1, hrun⟩ := Option.bind_eq_some_iff.mp hrun
    exact ih (h.2 s1 hs1) hrun

theorem run_keeps (hstep : ∀ s op s', Inv s → ok s op → step s op = some s' → Inv s')
    {ops : List ι} {s s' : σ} (h : Inv s) (hok : Meets step ok ops s)
    (hrun : run step ops s = some s') : Inv s' := by
  induction ops generalizing s with
  | nil =>
    cases hrun
    exact h
  | cons op ops ih =>
    obtain ⟨s1, hs1, hrun⟩ := Option.bind_eq_some_iff.mp hrun
    exact ih (hstep s op s1 h hok.1 hs1) (hok.2 s1 hs1) hrun

theorem run_total (hstep : ∀ s op, Inv s → ok s op → ∃ s', step s op = some s' ∧ Inv s')
    {ops : List ι} {s : σ} (h : Inv s) (hok : Meets step ok ops s) :
    ∃ s', run step ops s = some s' ∧ Inv s' := by
  induction ops generalizing s with
  | nil => exact ⟨s, rfl, h⟩
  | cons op ops ih =>
    obtain ⟨s1, hs1, h1⟩ := hstep s op h hok.1
    obtain ⟨s', hrun, h'⟩ := ih h1 (hok.2 s1 hs1)
    refine ⟨s', ?_, h'⟩
    rw [run, hs1, Option.bind_some, hrun]

/-- What a run gains or loses step by step: if a step keeps `Good` exactly when its input meets `ok`, so
does a run when all of its inputs do. -/
theorem meets_iff {Good : σ → Prop}
    (hstep : ∀ s op s', Inv s → step s op = some s' → Inv s' ∧ (Good s' ↔ Good s ∧ ok s op))
    {ops : List ι} {s s' : σ} (h : Inv s) (hrun : run step ops s = some s') :
    Good s' ↔ Good s ∧ Meets step ok ops s := by
  induction ops generalizing s with
  | nil =>
    cases hrun
    exact (and_iff_left trivial).symm
  | cons op ops ih =>
    obtain ⟨s1, hs1, hrun⟩ := Option.bind_eq_some_iff.mp hrun
    obtain ⟨h1, hgood⟩ := hstep s op s1 h hs1
    rw [ih h1 hrun, hgood, and_assoc]
    refine and_congr_right fun _ => and_congr_right fun _ => ⟨fun hmeets s2 hs2 => ?_, fun hall => hall s1 hs1⟩
    obtain rfl := Option.some.inj (hs1.symm.trans hs2)
    exact hmeets

end Runs
