import CoolPotOS.Lib.Runs
import CoolPotOS.Task.EevdfQueue

namespace CoolPotOS

open RbTree Option

/-- An operation of the scheduler. A new entity gets the address `id` and memory with the
contents `raw`; the clock shows `now`. -/
inductive EevdfOp
  | add (task prio now id : ℕ) (raw : SchedEntity)
  | block (thread : ℕ) (heap : List Bool)
  | wake (thread : ℕ) (heap : List Bool)
  | reweight (thread prio : ℕ)
  | yield (thread : ℕ)
  | pick (now now' : ℕ)
  | remove (thread : ℕ) (status : TaskStatus) (sleepDeadline : ℕ) (heap : List Bool)

def EevdfOp.run (s : Eevdf) : EevdfOp → Option Eevdf
  | .add task prio now id raw => addEevdfEntityWithPrio s task prio now id raw
  | .block thread heap => waitEevdfEntity s thread heap
  | .wake thread heap => futexEevdfEntity s thread heap
  | .reweight thread prio => changeEntityWeight s thread prio
  | .yield thread => setEntityYield s thread
  | .pick now now' => (eevdfPickNextTask s now now').map Prod.fst
  | .remove thread status sleepDeadline heap => removeTask s thread status sleepDeadline heap

/-- The priorities of the tables and the one of the idle thread. -/
def ValidPrio (prio : ℕ) : Prop := maxRtPrio ≤ prio ∧ prio ≤ niceToPrio 20

instance (prio : ℕ) : Decidable (ValidPrio prio) := inferInstanceAs (Decidable (_ ∧ _))

/-- An operation that breaks off nowhere: an entity that is not in the tree gets no new weight
and is removed only by a call that takes it for waiting, and there is an entity to pick. -/
def EevdfOp.Regular (s : Eevdf) : EevdfOp → Prop
  | .add _ prio _ id _ => s.entities id = none ∧ ValidPrio prio
  | .block _ _ => True
  | .wake _ _ => True
  | .reweight thread prio => ∃ id ∈ s.schedHandle thread, ∃ se ∈ s.entities id,
      se.prio = prio ∨ se.onRq = true ∧ ValidPrio prio
  | .yield thread => s.schedHandle thread ≠ none
  | .pick _ _ => inorder s.root ≠ []
  | .remove thread status sleepDeadline _ => ∀ id ∈ s.schedHandle thread, ∀ se ∈ s.entities id,
      se.onRq = true ∨ takenForWaiting status sleepDeadline = true

/-- The virtual time does not wrap around in the middle of the queue. -/
def EevdfOp.KeepsOrder (s : Eevdf) : EevdfOp → Prop
  | .pick now _ => ∀ x ∈ settleCurrentTask s now, x.1 = true → WrapSafe x.2
  | _ => True

instance (s : Eevdf) : (op : EevdfOp) → Decidable (op.Regular s)
  | .add _ prio _ id _ => inferInstanceAs (Decidable (s.entities id = none ∧ ValidPrio prio))
  | .block _ _ => inferInstanceAs (Decidable True)
  | .wake _ _ => inferInstanceAs (Decidable True)
  | .reweight thread prio => inferInstanceAs (Decidable (∃ id ∈ s.schedHandle thread,
      ∃ se ∈ s.entities id, se.prio = prio ∨ se.onRq = true ∧ ValidPrio prio))
  | .yield thread => inferInstanceAs (Decidable (s.schedHandle thread ≠ none))
  | .pick _ _ => inferInstanceAs (Decidable (inorder s.root ≠ []))
  | .remove thread status sleepDeadline _ =>
    inferInstanceAs (Decidable (∀ id ∈ s.schedHandle thread, ∀ se ∈ s.entities id,
      se.onRq = true ∨ takenForWaiting status sleepDeadline = true))

instance (s : Eevdf) : (op : EevdfOp) → Decidable (op.KeepsOrder s)
  | .pick now _ => inferInstanceAs (Decidable (∀ x ∈ settleCurrentTask s now,
      x.1 = true → WrapSafe x.2))
  | .add .. => inferInstanceAs (Decidable True)
  | .block .. => inferInstanceAs (Decidable True)
  | .wake .. => inferInstanceAs (Decidable True)
  | .reweight .. => inferInstanceAs (Decidable True)
  | .yield .. => inferInstanceAs (Decidable True)
  | .remove .. => inferInstanceAs (Decidable True)

section RunSteps

variable {P : Prop} {s : Eevdf}

theorem EevdfInv.keeps_add (h : EevdfInv P s) {prio id : ℕ} (task now : ℕ) (raw : SchedEntity)
    (hfree : s.entities id = none) (hprio : ValidPrio prio) :
    ∃ s', addEevdfEntityWithPrio s task prio now id raw = some s' ∧ EevdfInv P s' := by
  obtain ⟨se, hse, hrq, hword, -⟩ := newEntity_spec raw task s.minVruntime now hprio.1 hprio.2
  have hid : id ∉ inorder s.root := by
    intro hmem
    obtain ⟨x, hx, -⟩ := h.entity hmem
    rw [hfree] at hx
    cases hx
  have hins := h.insert hid hrq hword
  have hunused : ∀ t, s.schedHandle t ≠ some id := by
    intro t ht
    obtain ⟨x, hx⟩ := h.handle t id ht
    rw [hfree] at hx
    cases hx
  refine ⟨{ insertSchedEntity (s.set id se) id with
      schedHandle := Function.update s.schedHandle task (some id)
      taskCount := s.taskCount + 1 }, by rw [addEevdfEntityWithPrio, hse]; rfl,
    ⟨hins.nodup, hins.mem_iff, hins.sorted⟩, hins.current_mem, fun t j hj => ?_,
    fun t1 t2 j h1 h2 => ?_, h.avgLoad, hins.word⟩
  · by_cases ht : t = task
    · have : id = j := by simpa [ht] using hj
      subst this
      exact ⟨se, by simp [insertSchedEntity]⟩
    · exact hins.handle t j (by simpa [insertSchedEntity, ht] using hj)
  · by_cases ht1 : t1 = task <;> by_cases ht2 : t2 = task
    · rw [ht1, ht2]
    · have hj : id = j := by simpa [ht1] using h1
      exact absurd (by simpa [ht2, hj] using h2) (hj ▸ hunused t2)
    · have hj : id = j := by simpa [ht2] using h2
      exact absurd (by simpa [ht1, hj] using h1) (hj ▸ hunused t1)
    · exact h.handle_inj t1 t2 j (by simpa [ht1] using h1) (by simpa [ht2] using h2)

theorem EevdfInv.keeps_block (h : EevdfInv P s) (thread : ℕ) (heap : List Bool) :
    ∃ s', waitEevdfEntity s thread heap = some s' ∧ EevdfInv P s' := by
  unfold waitEevdfEntity
  cases ht : s.schedHandle thread with
  | none => exact ⟨s, rfl, h⟩
  | some id =>
    obtain ⟨se, hse⟩ := h.handle thread id ht
    simp only [hse, bind_eq_bind, bind_some, pure_def]
    by_cases hrq : se.onRq = true
    · obtain ⟨s1, v, hrun, h1, -, hent, -, -⟩ := h.remove ((h.mem_iff id).mpr ⟨se, hse, hrq⟩)
      have hid : s1.entities id = some { s.get id with onRq := false, minVruntime := v } := by
        rw [hent]
        simp
      simp only [hrq, hrun, Bool.not_true, Bool.false_eq_true, if_false, bind_some]
      refine ⟨_, rfl, EevdfInv.withQueue (h1.set hid ?_ ?_) _ _⟩
      · rw [Eevdf.get_eq hid]
      · rw [Eevdf.get_eq hid]
    · refine ⟨s, ?_, h⟩
      simp [hrq]

theorem EevdfInv.keeps_wake (h : EevdfInv P s) (thread : ℕ) (heap : List Bool) :
    ∃ s', futexEevdfEntity s thread heap = some s' ∧ EevdfInv P s' ∧ s'.schedHandle = s.schedHandle ∧
      ∀ id, s.schedHandle thread = some id → id ∈ inorder s'.root := by
  unfold futexEevdfEntity
  cases ht : s.schedHandle thread with
  | none => exact ⟨s, rfl, h, rfl, by simp⟩
  | some id =>
    obtain ⟨se, hse⟩ := h.handle thread id ht
    simp only [hse, bind_eq_bind, bind_some, pure_def]
    by_cases hrq : se.onRq = true
    · refine ⟨s, by simp [hrq], h, rfl, ?_⟩
      rintro j ⟨⟩
      exact (h.mem_iff id).mpr ⟨se, hse, hrq⟩
    · have hid : id ∉ inorder s.root := by
        intro hmem
        obtain ⟨x, hx, hx'⟩ := h.entity hmem
        rw [hse] at hx
        exact hrq (Option.some.inj hx ▸ hx')
      have hins : EevdfInv P (insertSchedEntity (s.set id { se with onRq := true }) id) :=
        h.insert hid rfl (h.word id se hse)
      refine ⟨_, if_neg hrq, EevdfInv.withQueue hins _ _, rfl, ?_⟩
      rintro j ⟨⟩
      exact (hins.mem_iff id).mpr ⟨{ se with onRq := true }, by simp [insertSchedEntity], rfl⟩

theorem EevdfInv.keeps_reweight (h : EevdfInv P s) {thread prio id : ℕ} {se : SchedEntity}
    (ht : s.schedHandle thread = some id) (hse : s.entities id = some se)
    (hok : se.prio = prio ∨ se.onRq = true ∧ ValidPrio prio) :
    ∃ s', changeEntityWeight s thread prio = some s' ∧ EevdfInv P s' := by
  unfold changeEntityWeight
  simp only [ht, hse, bind_eq_bind, bind_some, pure_def]
  by_cases hp : se.prio = prio
  · exact ⟨s, if_pos hp, h⟩
  · obtain ⟨hrq, hprio⟩ := hok.resolve_left hp
    obtain ⟨se', hse', hkept, hd⟩ := @setLoadWeight_spec
      { se with isIdle := decide (prio = niceToPrio 20), prio := prio } hprio.1 hprio.2
    obtain ⟨root, hrun, hinv⟩ := h.requeue ((h.mem_iff id).mpr ⟨se, hse, hrq⟩)
      ((SchedEntity.onRq_of_kept hkept).trans hrq) (hd ▸ h.word id se hse)
    refine ⟨_, ?_, hinv⟩
    rw [if_neg hp, hse']
    exact hrun

theorem EevdfInv.keeps_yield (h : EevdfInv P s) {thread : ℕ} (ht : s.schedHandle thread ≠ none) :
    ∃ s', setEntityYield s thread = some s' ∧ EevdfInv P s' := by
  obtain ⟨id, hid⟩ := ne_none_iff_exists'.mp ht
  obtain ⟨se, hse⟩ := h.handle thread id hid
  have hset : EevdfInv P (s.set id { se with isYield := true }) := h.set hse rfl rfl
  refine ⟨_, ?_, hset⟩
  unfold setEntityYield
  simp only [hid, hse, bind_eq_bind, bind_some]
  rfl

theorem EevdfInv.keeps_removeEntity (h : EevdfInv P s) {thread : ℕ}
    (hrq : ∀ id, s.schedHandle thread = some id → id ∈ inorder s.root) :
    ∃ s', removeEevdfEntity s thread = some s' ∧ EevdfInv P s' := by
  unfold removeEevdfEntity
  cases ht : s.schedHandle thread with
  | none => exact ⟨s, rfl, h⟩
  | some id =>
    obtain ⟨s1, v, hrun, h1, hnot, -, hhandle, -⟩ := h.remove (hrq id ht)
    simp only [hrun, bind_eq_bind, bind_some]
    exact ⟨_, rfl, h1.free hnot (by rw [hhandle, ht]) _⟩

theorem EevdfInv.keeps_remove (h : EevdfInv P s) {thread sleepDeadline : ℕ} {status : TaskStatus}
    (heap : List Bool) (hok : ∀ id ∈ s.schedHandle thread, ∀ se ∈ s.entities id,
      se.onRq = true ∨ takenForWaiting status sleepDeadline = true) :
    ∃ s', removeTask s thread status sleepDeadline heap = some s' ∧ EevdfInv P s' := by
  unfold removeTask
  by_cases hw : takenForWaiting status sleepDeadline = true
  · -- the entity is put back into the tree first
    obtain ⟨s1, hrun, h1, hhandle, hmem⟩ := h.keeps_wake thread heap
    rw [if_pos hw, hrun]
    exact h1.keeps_removeEntity fun id hid => hmem id (hhandle ▸ hid)
  · rw [if_neg hw]
    apply h.keeps_removeEntity
    intro id hid
    obtain ⟨se, hse⟩ := h.handle thread id hid
    exact (h.mem_iff id).mpr ⟨se, hse, (hok id hid se hse).resolve_right hw⟩

theorem EevdfInv.keeps_run (h : EevdfInv P s) (op : EevdfOp) (hok : op.Regular s)
    (horder : P → op.KeepsOrder s) : ∃ s', op.run s = some s' ∧ EevdfInv P s' := by
  cases op with
  | add task prio now id raw => exact h.keeps_add task now raw hok.1 hok.2
  | block thread heap => exact h.keeps_block thread heap
  | wake thread heap =>
    obtain ⟨s', hrun, h', -⟩ := h.keeps_wake thread heap
    exact ⟨s', hrun, h'⟩
  | reweight thread prio =>
    obtain ⟨id, ht, se, hse, hok⟩ := hok
    exact h.keeps_reweight ht hse hok
  | yield thread => exact h.keeps_yield hok
  | pick now now' =>
    obtain ⟨s', t, hrun, h'⟩ := h.pick now' hok horder
    exact ⟨s', by rw [EevdfOp.run, hrun]; rfl, h'⟩
  | remove thread status sleepDeadline heap => exact h.keeps_remove heap hok

theorem eevdfInv_initCpuIdle (apIdle now id : ℕ) (raw : SchedEntity) :
    ∃ s, initCpuIdle apIdle now id raw = some s ∧ EevdfInv P s := by
  obtain ⟨se, hse, hrq, hword, -⟩ := @newEntity_spec raw apIdle 0 now (niceToPrio 20) (by decide) le_rfl
  -- the idle entity is put into an empty scheduler
  have hempty : EevdfInv P ⟨fun _ => none, fun _ => none, .nil, none, .empty, 0, 0, 0, 0⟩ :=
    ⟨⟨by simp, by simp, by simp⟩, by simp, by simp, by simp, rfl, by simp⟩
  have hins := @EevdfInv.insert P _ id se hempty (by simp) hrq hword
  have hid : id ∈ inorder (insertSchedEntity (Eevdf.set
      ⟨fun _ => none, fun _ => none, .nil, none, .empty, 0, 0, 0, 0⟩ id se) id).root :=
    (hins.mem_iff id).mpr ⟨se, by simp [insertSchedEntity], hrq⟩
  refine ⟨_, by rw [initCpuIdle, hse]; rfl, ?_⟩
  refine ⟨⟨hins.nodup, hins.mem_iff, hins.sorted⟩, ?_, ?_, ?_, rfl, hins.word⟩
  · rintro c ⟨⟩
    exact hid
  · intro t j hj
    by_cases ht : t = apIdle
    · obtain rfl : id = j := by simpa [insertSchedEntity, ht] using hj
      exact ⟨se, by simp [insertSchedEntity]⟩
    · simp [insertSchedEntity, ht] at hj
  · intro t1 t2 j h1 h2
    have hcase : ∀ t, Function.update (fun _ => none) apIdle (some id) t = some j → t = apIdle := by
      intro t ht
      by_contra hne
      simp [hne] at ht
    rw [hcase t1 h1, hcase t2 h2]

end RunSteps

/-- In every run that changes the queue in order, no operation erases an entity that is not in
the tree, and after every operation the tree holds the entities with `on_rq` set, each once
and in order of their deadlines. -/
theorem runQueueOk_of_regular (apIdle now id : ℕ) (raw : SchedEntity) :
    ∃ s, initCpuIdle apIdle now id raw = some s ∧ ∀ ops done : List EevdfOp,
      Runs.Meets EevdfOp.run (fun s op => op.Regular s ∧ op.KeepsOrder s) ops s → done <+: ops →
      ∃ s', Runs.run EevdfOp.run done s = some s' ∧ RunQueueOk s' := by
  obtain ⟨s, hs, h⟩ := @eevdfInv_initCpuIdle True apIdle now id raw
  refine ⟨s, hs, fun ops done hok hdone => ?_⟩
  obtain ⟨s', hrun, h'⟩ := Runs.run_total
    (fun s op hinv hsafe => hinv.keeps_run op hsafe.1 fun _ => hsafe.2) h (hok.of_isPrefix hdone)
  exact ⟨s', hrun, h'.nodup, h'.mem_iff, h'.sorted trivial⟩

/-- A thread is added, runs, sleeps, wakes up and is killed. -/
def smallSchedule : List EevdfOp :=
  [.add 2 120 10 20 default, .pick 100 110, .pick 900000 900010, .block 2 [], .pick 900100 900110,
    .wake 2 [], .reweight 2 130, .pick 2000000 2000010, .remove 2 .death 0 []]

theorem runQueueOk_of_smallSchedule :
    ∃ s s', initCpuIdle 1 0 10 default = some s ∧
      Runs.run EevdfOp.run smallSchedule s = some s' ∧ RunQueueOk s' := by
  obtain ⟨s, hs, hrun⟩ := runQueueOk_of_regular 1 0 10 default
  have hok : ∀ s ∈ initCpuIdle 1 0 10 default,
      Runs.Meets EevdfOp.run (fun s op => op.Regular s ∧ op.KeepsOrder s) smallSchedule s := by
    decide
  obtain ⟨s', hs', hq⟩ := hrun smallSchedule smallSchedule (hok s hs) List.prefix_rfl
  exact ⟨s, s', hs, hs', hq⟩

/-- A thread is killed while it sleeps: its status is `T_DEATH` by then, so that its entity is
erased from the tree it has left. -/
theorem erase_of_blocked_thread :
    ∃ s s', initCpuIdle 1 0 10 default = some s ∧
      Runs.run EevdfOp.run [.add 2 120 10 20 default, .pick 100 110, .block 2 []] s = some s' ∧
      s'.schedHandle 2 = some 20 ∧ 20 ∉ inorder s'.root ∧
      EevdfOp.run s' (.remove 2 .death 0 []) = none := by
  obtain ⟨s, hs, -⟩ := @eevdfInv_initCpuIdle True 1 0 10 default
  obtain ⟨s', hs'⟩ : ∃ s', Runs.run EevdfOp.run
      [.add 2 120 10 20 default, .pick 100 110, .block 2 []] s = some s' := by
    apply Option.isSome_iff_exists.mp
    revert s
    decide
  refine ⟨s, s', hs, hs', ?_⟩
  revert s s'
  decide

end CoolPotOS
