import CoolPotOS.Task.EevdfRun

namespace CoolPotOS

open RbTree Option

variable {P : Prop} {s s' : Eevdf}

/-- The accounts after `now` has been read: the current entity is charged. -/
def charged (s : Eevdf) (now j : ℕ) : Option (Bool × ℕ × ℕ × ℕ) :=
  (s.entities j).map fun se =>
    if s.current = some j then (updateCurrSe se now).2.kept else se.kept

theorem entities_requeueSchedEntity {id : ℕ} (h : requeueSchedEntity s id = some s') :
    s'.entities = s.entities ∧ s'.waitQueue = s.waitQueue := by
  unfold requeueSchedEntity eraseSchedEntity at h
  obtain ⟨t, ht, rfl⟩ := map_eq_some_iff.mp h
  obtain ⟨root, -, rfl⟩ := map_eq_some_iff.mp ht
  exact ⟨rfl, rfl⟩

theorem charged_of_set {c now : ℕ} {se se' : SchedEntity} (hcur : s.current = some c)
    (hse : s.entities c = some se) (hkept : se'.kept = (updateCurrSe se now).2.kept) (j : ℕ) :
    ((s.set c se').entities j).map SchedEntity.kept = charged s now j := by
  unfold charged
  by_cases hj : j = c
  · subst hj
    simp [hcur, hse, hkept]
  · rw [Eevdf.set_entities, Function.update_of_ne hj]
    simp [hcur, Ne.symm hj]

theorem settleCurrentTask_charged {now : ℕ} {passed : Bool} (hinv : EevdfInv P s)
    (h : settleCurrentTask s now = some (passed, s')) :
    s'.waitQueue = s.waitQueue ∧ ∀ j, (s'.entities j).map SchedEntity.kept = charged s now j := by
  cases hcur : s.current with
  | none =>
    rw [settleCurrentTask, hcur] at h
    cases h
    refine ⟨rfl, fun j => ?_⟩
    unfold charged
    simp [hcur]
  | some c =>
    obtain ⟨se, hse, -⟩ := hinv.entity (hinv.current_mem c hcur)
    obtain ⟨passed', m, a, se', hkept, -, hcase⟩ := settleCurrentTask_cases now hcur hse
    have hset := charged_of_set hcur hse hkept
    rcases hcase with ⟨hrun, -⟩ | hrun
    · rw [hrun] at h
      cases h
      exact ⟨rfl, hset⟩
    · rw [hrun] at h
      obtain ⟨t, ht, heq⟩ := map_eq_some_iff.mp h
      cases heq
      obtain ⟨hent, hq⟩ := entities_requeueSchedEntity ht
      exact ⟨hq, fun j => by rw [hent]; exact hset j⟩

theorem kept_wrapVruntime (hinv : EevdfInv P s) : (wrapVruntime s).waitQueue = s.waitQueue ∧
      ∀ j, ((wrapVruntime s).entities j).map SchedEntity.kept = (s.entities j).map SchedEntity.kept := by
  unfold wrapVruntime
  split
  · exact ⟨rfl, fun _ => rfl⟩
  generalize vruntimeOffsetThreshold = offset
  obtain ⟨m, a, heq⟩ := wrapVruntimeBy_eq offset hinv.nodup hinv.current_mem
  rw [heq]
  refine ⟨rfl, fun j => ?_⟩
  by_cases hj : j ∈ inorder s.root
  · obtain ⟨se, hse, -⟩ := hinv.entity hj
    simp [hj, hse, kept_wrapped, Eevdf.get_eq hse]
  · simp [hj]

/-- All that a pick does to the accounts and to the wait queue: the entity that has been
running is charged, and the clock of the chosen one starts. -/
theorem eevdfPickNextTask_charged {now now' t : ℕ} (hinv : EevdfInv False s)
    (h : eevdfPickNextTask s now now' = some (s', t)) :
    s'.waitQueue = s.waitQueue ∧ (∀ j, (s'.entities j).map SchedEntity.kept = charged s now j) ∧
      ∃ c se, s'.current = some c ∧ s'.entities c = some se ∧ se.execStart = now' := by
  unfold eevdfPickNextTask at h
  obtain ⟨s2, h2, h⟩ := bind_eq_some_iff.mp h
  obtain ⟨c, hc, h⟩ := bind_eq_some_iff.mp h
  obtain ⟨se, hse, h⟩ := bind_eq_some_iff.mp h
  cases h
  obtain ⟨⟨passed, s1⟩, h1, rfl⟩ := map_eq_some_iff.mp h2
  obtain ⟨passed', s1', hsettle, hinv1, -⟩ := hinv.settle now
  obtain ⟨rfl, rfl⟩ : passed' = passed ∧ s1' = s1 := by
    rw [hsettle] at h1
    cases h1
    exact ⟨rfl, rfl⟩
  obtain ⟨hq1, hk1⟩ := settleCurrentTask_charged hinv h1
  -- the wrap and the new clock change no account
  have hwrap : (if passed' = true then wrapVruntime s1' else s1').waitQueue = s.waitQueue ∧
      ∀ j, ((if passed' = true then wrapVruntime s1' else s1').entities j).map SchedEntity.kept =
        charged s now j := by
    split
    · obtain ⟨hq, hk⟩ := kept_wrapVruntime hinv1
      exact ⟨hq.trans hq1, fun j => (hk j).trans (hk1 j)⟩
    · exact ⟨hq1, hk1⟩
  refine ⟨hwrap.1, fun j => ?_, c, { se with execStart := now' }, rfl, by simp, rfl⟩
  rw [← hwrap.2 j]
  by_cases hj : j = c
  · subst hj
    simp [hse, SchedEntity.kept]
  · simp [hj]

end CoolPotOS
