import CoolPotOS.Task.EevdfQueue

namespace CoolPotOS

open RbTree List

variable {s s' : Eevdf} {c id : ℕ}

/-- Charging the current entity changes no other one, and leaves the tree with the same entities in order. -/
theorem RunQueue.settle (h : RunQueue True s) (hc : c ∈ inorder s.root) (hcur : s.current = some c) (now : ℕ) :
    ∃ passed m a se root, settleCurrentTask s now = some (passed, ((s.atTime m a).set c se).withRoot root) ∧
      se.onRq = true ∧ RunQueue True (((s.atTime m a).set c se).withRoot root) := by
  obtain ⟨se, hse, hrq⟩ := h.entity hc
  obtain ⟨passed, m, a, se', hkept, -, hcase⟩ := settleCurrentTask_cases now hcur hse
  have hrq' : se'.onRq = true := by
    rw [SchedEntity.onRq_of_kept hkept, ← hrq]
    exact congrArg Prod.fst (kept_updateCurrSe se now)
  have ht := h.atTime m a
  rcases hcase with ⟨hrun, hdeadline⟩ | hrun
  · exact ⟨passed, m, a, se', s.root, hrun, hrq', ht.set hse (hrq'.trans hrq.symm) hdeadline⟩
  · obtain ⟨root, hroot, hqueue⟩ := ht.requeue hc hrq'
    exact ⟨passed, m, a, se', root, by rw [hrun, hroot]; rfl, hrq', hqueue⟩

theorem RunQueue.perm (h : RunQueue True s) (h' : RunQueue True s')
    (hent : ∀ j, (∃ se, s'.entities j = some se ∧ se.onRq = true) ↔ ∃ se, s.entities j = some se ∧ se.onRq = true) :
    (inorder s'.root).Perm (inorder s.root) := by
  rw [perm_ext_iff_of_nodup h'.nodup h.nodup]
  intro j
  rw [h'.mem_iff, h.mem_iff, hent]

theorem entityBefore_of_lt {x y : SchedEntity} (hx : x.deadline < 2 ^ 63) (hy : y.deadline < 2 ^ 63) :
    entityBefore x y = decide (x.deadline < y.deadline) := by
  unfold entityBefore signed wrapSub
  apply decide_eq_decide.mpr
  split_ifs
  · omega
  · omega

theorem RunQueue.pickEevdf (h : RunQueue True s) (havg : s.avgLoad = 0) (hcur : s.current = some c)
    (hc : c ∈ inorder s.root) (hsmall : ∀ id ∈ inorder s.root, (s.get id).deadline < 2 ^ 63) :
    ∃ e, CoolPotOS.pickEevdf s = some e ∧ e ∈ inorder s.root ∧
      ∀ j ∈ inorder s.root, (s.get e).deadline ≤ (s.get j).deadline := by
  obtain ⟨e, rest, hlist⟩ := exists_cons_of_ne_nil (ne_nil_of_mem hc)
  have hmem : e ∈ inorder s.root := by simp [hlist]
  have hleast : ∀ j ∈ inorder s.root, (s.get e).deadline ≤ (s.get j).deadline := by
    have hsorted := h.sorted trivial
    rw [hlist] at hsorted ⊢
    intro j hj
    rcases mem_cons.mp hj with rfl | hj
    · exact le_rfl
    · exact rel_of_pairwise_cons hsorted hj
  refine ⟨e, ?_, hmem, hleast⟩
  have hnot : entityBefore (s.get c) (s.get e) = false := by
    rw [entityBefore_of_lt (hsmall c hc) (hsmall e hmem), decide_eq_false_iff_not]
    exact (hleast c hc).not_gt
  rw [pickEevdf_eq havg, first_eq, hlist, hcur]
  dsimp only [head?_cons]
  rw [hnot]
  rfl

/-- The times after the current entity is charged stay below the half of the range, and below the offset. -/
def SmallTimes (s : Eevdf) (now : ℕ) : Prop :=
  ∀ x ∈ settleCurrentTask s now, x.2.minVruntime < vruntimeOffsetThreshold ∧
    ∀ id ∈ inorder x.2.root, (x.2.get id).vruntime < 2 ^ 63 ∧ (x.2.get id).deadline < 2 ^ 63

/-- What a pick leaves when `c` was the current entity before. -/
structure EarliestPicked (s s' : Eevdf) (c t : ℕ) : Prop where
  same : (inorder s'.root).Perm (inorder s.root)
  sorted : (inorder s'.root).Pairwise fun a b => (s'.get a).deadline ≤ (s'.get b).deadline
  earliest : ∃ e ∈ inorder s'.root, s'.current = some e ∧ (s'.get e).thread = t ∧
    ∀ j ∈ inorder s'.root, (s'.get e).deadline ≤ (s'.get j).deadline
  others : ∀ j, j ≠ c → (s'.get j).vruntime = (s.get j).vruntime ∧ (s'.get j).deadline = (s.get j).deadline

/-- `eevdf_pick_next_task` picks the entity with the least deadline, and charges the one before only. -/
theorem eevdfPickNextTask_earliest (h : RunQueue True s) (havg : s.avgLoad = 0) (hcur : s.current = some c)
    (hc : c ∈ inorder s.root) (now now' : ℕ) (hsmall : SmallTimes s now) :
    ∃ s' t, eevdfPickNextTask s now now' = some (s', t) ∧ EarliestPicked s s' c t := by
  obtain ⟨passed, m, a, se, root, hsettle, hrq, hqueue⟩ := h.settle hc hcur now
  obtain ⟨hmin, htimes⟩ := hsmall _ hsettle
  have hothers : ∀ j, j ≠ c → (((s.atTime m a).set c se).withRoot root).get j = s.get j := fun j hj =>
    Eevdf.get_set_of_ne (s.atTime m a) se hj
  have hent : ∀ j, (∃ x, (((s.atTime m a).set c se).withRoot root).entities j = some x ∧ x.onRq = true) ↔
      ∃ x, s.entities j = some x ∧ x.onRq = true := by
    intro j
    by_cases hj : j = c
    · subst hj
      have hnew : (((s.atTime m a).set j se).withRoot root).entities j = some se := Function.update_self ..
      rw [hnew]
      exact ⟨fun _ => h.entity hc, fun _ => ⟨se, rfl, hrq⟩⟩
    · have hold : (((s.atTime m a).set c se).withRoot root).entities j = s.entities j := Function.update_of_ne hj ..
      rw [hold]
  have hperm := h.perm hqueue hent
  have hc' : c ∈ inorder (((s.atTime m a).set c se).withRoot root).root := hperm.mem_iff.mpr hc
  have hupdate : updateCurrentTask s now = some (((s.atTime m a).set c se).withRoot root) := by
    unfold updateCurrentTask
    rw [hsettle]
    cases passed with
    | false => rfl
    | true => exact congrArg some (if_pos hmin)
  have havg' : (((s.atTime m a).set c se).withRoot root).avgLoad = 0 := havg
  have hcur' : (((s.atTime m a).set c se).withRoot root).current = some c := hcur
  generalize ((s.atTime m a).set c se).withRoot root = s₁ at *
  obtain ⟨e, hpick, hmem, hleast⟩ := hqueue.pickEevdf havg' hcur' hc' fun id hid => (htimes id hid).2
  obtain ⟨x, hx, -⟩ := hqueue.entity hmem
  have hget : ∀ j, (s₁.set e { x with execStart := now' }).get j =
      { s₁.get j with execStart := if j = e then now' else (s₁.get j).execStart } := by
    intro j
    by_cases hj : j = e
    · subst hj
      rw [Eevdf.get_set, Eevdf.get_eq hx, if_pos rfl]
    · rw [Eevdf.get_set_of_ne s₁ _ hj, if_neg hj]
  have hget' : ∀ j, ((s₁.set e { x with execStart := now' }).select (some e)).get j =
      (s₁.set e { x with execStart := now' }).get j := fun j => rfl
  refine ⟨(s₁.set e { x with execStart := now' }).select (some e), x.thread, ?_, hperm, ?_, ?_, ?_⟩
  · unfold eevdfPickNextTask
    rw [hupdate]
    simp only [Option.bind_eq_bind, Option.bind_some, hpick, hx]
    rfl
  · apply (hqueue.sorted trivial).imp
    intro a b hab
    rw [hget', hget', hget, hget]
    exact hab
  · refine ⟨e, hmem, rfl, ?_, fun j hj => ?_⟩
    · rw [hget', Eevdf.get_set]
    · rw [hget', hget', hget, hget]
      exact hleast j hj
  · intro j hj
    rw [hget', hget, hothers j hj]
    exact ⟨rfl, rfl⟩

instance decidableSmallTimes (s : Eevdf) (now : ℕ) : Decidable (SmallTimes s now) :=
  inferInstanceAs (Decidable (∀ x ∈ settleCurrentTask s now, x.2.minVruntime < vruntimeOffsetThreshold ∧
    ∀ id ∈ inorder x.2.root, (x.2.get id).vruntime < 2 ^ 63 ∧ (x.2.get id).deadline < 2 ^ 63))

/-- Two entities; the first one is current and has run past its deadline when the clock is at 900. -/
def twoRunnable : Eevdf where
  entities := fun id =>
    if id < 2 then
      some { (default : SchedEntity) with
        vruntime := 10
        deadline := 100 + 200 * id
        slice := 700
        load := ⟨nice0Load, 4194304⟩
        onRq := true
        thread := 5 + id }
    else none
  schedHandle := fun _ => none
  root := .node .black .nil 0 (.node .red .nil 1 .nil)
  current := some 0
  waitQueue := CowList.empty
  taskCount := 2
  avgLoad := 0
  avgVruntime := 0
  minVruntime := 0

theorem runQueue_twoRunnable : RunQueue True twoRunnable where
  nodup := by decide
  mem_iff := by
    intro id
    have hroot : inorder twoRunnable.root = [0, 1] := by decide
    rw [hroot]
    unfold twoRunnable
    dsimp only
    split_ifs with hid
    · have hmem : id ∈ [0, 1] := by
        simp only [mem_cons, not_mem_nil, or_false]
        omega
      exact ⟨fun _ => ⟨_, rfl, rfl⟩, fun _ => hmem⟩
    · refine ⟨fun hmem => ?_, fun ⟨se, hse, _⟩ => ?_⟩
      · simp only [mem_cons, not_mem_nil, or_false] at hmem
        omega
      · cases hse
  sorted _ := by decide

theorem eevdfPickNextTask_earliest_twoRunnable :
    ∃ s' t, eevdfPickNextTask twoRunnable 900 901 = some (s', t) ∧ EarliestPicked twoRunnable s' 0 t :=
  eevdfPickNextTask_earliest runQueue_twoRunnable rfl rfl (by decide) 900 901 (by decide)

end CoolPotOS
