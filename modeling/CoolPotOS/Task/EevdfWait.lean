import CoolPotOS.Task.EevdfTick

namespace CoolPotOS

open RbTree Function Option Eevdf

def Eevdf.blockedAt (s : Eevdf) (id : ℕ) : Option ℕ :=
  (s.entities id).bind fun se => if se.onRq then none else some se.waitIndex

/-- The wait queue holds the blocked entities, each once and at the position it has noted. -/
structure WaitQueueOk (s : Eevdf) : Prop where
  nodup : s.waitQueue.toList.Nodup
  mem_iff : ∀ x, x ∈ s.waitQueue.toList ↔
    ∃ id se, x = some id ∧ s.entities id = some se ∧ se.onRq = false
  index : ∀ id se, s.entities id = some se → se.onRq = false →
    s.waitQueue.toList[se.waitIndex]? = some (some id)

/-- The same from the side of the positions: an entity stands where it has noted. -/
structure WaitPlaces (s : Eevdf) : Prop where
  no_null : none ∉ s.waitQueue.toList
  place_iff : ∀ id i, s.waitQueue.toList[i]? = some (some id) ↔ s.blockedAt id = some i

variable {s s' : Eevdf} {id i : ℕ}

theorem Eevdf.blockedAt_eq_some_iff :
    s.blockedAt id = some i ↔ ∃ se, s.entities id = some se ∧ se.onRq = false ∧ se.waitIndex = i := by
  unfold blockedAt
  cases s.entities id with
  | none => simp
  | some se => cases h : se.onRq <;> simp [h]

theorem Eevdf.blockedAt_congr (h : (s'.entities id).map (fun se => (se.onRq, se.waitIndex)) =
    (s.entities id).map fun se => (se.onRq, se.waitIndex)) : s'.blockedAt id = s.blockedAt id := by
  unfold blockedAt
  cases h1 : s'.entities id <;> cases h2 : s.entities id <;> simp_all

theorem Eevdf.blockedAt_set (se : SchedEntity) : (s.set id se).blockedAt = update s.blockedAt id
      (if se.onRq then none else some se.waitIndex) := by
  funext j
  by_cases hj : j = id
  · subst hj
    simp [blockedAt]
  · simp [blockedAt, hj]

namespace WaitPlaces

theorem mem_iff (h : WaitPlaces s) : some id ∈ s.waitQueue.toList ↔ s.blockedAt id ≠ none := by
  rw [List.mem_iff_getElem?, ne_none_iff_exists']
  exact exists_congr fun i => h.place_iff id i

theorem waitQueueOk (h : WaitPlaces s) : WaitQueueOk s where
  nodup := by
    rw [List.nodup_iff_injective_getElem]
    intro a b hab
    have hentry : ∀ a : Fin s.waitQueue.toList.length,
        s.waitQueue.toList[a.1]? = some s.waitQueue.toList[a] := fun a =>
      List.getElem?_eq_getElem a.2
    cases hx : s.waitQueue.toList[a] with
    | none => exact absurd (hx ▸ List.getElem_mem a.2) h.no_null
    | some id =>
      have ha := (h.place_iff id a).mp (by rw [hentry, hx])
      have hb := (h.place_iff id b).mp (by rw [hentry, ← hx]; exact congrArg some hab.symm)
      rw [ha] at hb
      exact Fin.ext (Option.some.inj hb)
  mem_iff := by
    intro x
    cases x with
    | none => simp [h.no_null]
    | some id =>
      rw [h.mem_iff, ne_none_iff_exists']
      simp [blockedAt_eq_some_iff]
  index := by
    intro id se hse hrq
    exact (h.place_iff id _).mpr (blockedAt_eq_some_iff.mpr ⟨se, hse, hrq, rfl⟩)

theorem congr (h : WaitPlaces s) (hq : s'.waitQueue = s.waitQueue)
    (hb : s'.blockedAt = s.blockedAt) : WaitPlaces s' :=
  ⟨hq ▸ h.no_null, by rw [hq, hb]; exact h.place_iff⟩

theorem append (h : WaitPlaces s) (hid : s.blockedAt id = none)
    (hq : s'.waitQueue.toList = s.waitQueue.toList ++ [some id])
    (hb : s'.blockedAt = update s.blockedAt id (some s.waitQueue.size)) : WaitPlaces s' := by
  refine ⟨by simp [hq, h.no_null], fun j i => ?_⟩
  have hold := h.place_iff j i
  have hlt : s.blockedAt j = some i → i < s.waitQueue.size := by
    intro hj
    simpa using (List.getElem?_eq_some_iff.mp (hold.mpr hj)).1
  rw [hq, hb]
  rcases lt_trichotomy i s.waitQueue.size with hi | rfl | hi
  · rw [List.getElem?_append_left (by simpa using hi), hold]
    by_cases hj : j = id
    · simp [hj, hid, hi.ne']
    · rw [update_of_ne hj]
  · rw [List.getElem?_append_right (by simp)]
    by_cases hj : j = id
    · simp [hj]
    · rw [update_of_ne hj]
      simp only [CowList.length_toList, Nat.sub_self, List.getElem?_cons_zero, Option.some.injEq]
      exact ⟨fun h => absurd h.symm hj, fun h => absurd (hlt h) (lt_irrefl _)⟩
  · rw [List.getElem?_eq_none (by simpa using hi)]
    by_cases hj : j = id
    · simp [hj, hi.ne]
    · rw [update_of_ne hj]
      simp only [reduceCtorEq, false_iff]
      exact fun h => absurd (hlt h) hi.le.not_gt

theorem dropLast (h : WaitPlaces s) (hid : s.blockedAt id = some i) (hi : i + 1 = s.waitQueue.size)
    (hq : s'.waitQueue.toList = s.waitQueue.toList.dropLast)
    (hb : s'.blockedAt = update s.blockedAt id none) : WaitPlaces s' := by
  refine ⟨fun hmem => h.no_null (List.dropLast_subset _ (hq ▸ hmem)), fun j k => ?_⟩
  have hold := h.place_iff j k
  have hplace := (h.place_iff id i).mpr hid
  rw [hq, hb, List.getElem?_dropLast, CowList.length_toList]
  by_cases hk : k < s.waitQueue.size - 1
  · rw [if_pos hk, hold]
    by_cases hj : j = id
    · rw [hj, update_self, hid, Option.some.injEq]
      simp only [reduceCtorEq, iff_false]
      omega
    · rw [update_of_ne hj]
  · rw [if_neg hk]
    by_cases hj : j = id
    · simp [hj]
    · rw [update_of_ne hj]
      simp only [reduceCtorEq, false_iff]
      intro hjk
      have hlt : k < s.waitQueue.size := by
        simpa using (List.getElem?_eq_some_iff.mp (hold.mpr hjk)).1
      obtain rfl : k = i := by omega
      rw [hold.mpr hjk] at hplace
      exact hj (Option.some.inj (Option.some.inj hplace))

end WaitPlaces

/-- The operations that take an entity out of the wait queue. -/
def EevdfOp.woken : EevdfOp → Option ℕ
  | .wake thread _ => some thread
  | .remove thread _ _ _ => some thread
  | _ => none

/-- The entity of the thread, if it is blocked, has blocked last. -/
def LastToBlock (s : Eevdf) (thread : ℕ) : Prop :=
  ∀ id ∈ s.schedHandle thread, ∀ i ∈ s.blockedAt id, i + 1 = s.waitQueue.size

instance (s : Eevdf) (thread : ℕ) : Decidable (LastToBlock s thread) :=
  inferInstanceAs (Decidable (∀ id ∈ s.schedHandle thread, ∀ i ∈ s.blockedAt id, _))

/-- There is memory to block, and the entity that wakes up has blocked last. -/
def EevdfOp.WakesLast (s : Eevdf) : EevdfOp → Prop
  | .block _ heap => false ∉ heap
  | .wake thread _ => LastToBlock s thread
  | .remove thread _ _ _ => LastToBlock s thread
  | _ => True

instance (s : Eevdf) : (op : EevdfOp) → Decidable (op.WakesLast s)
  | .block _ heap => inferInstanceAs (Decidable (false ∉ heap))
  | .wake thread _ => inferInstanceAs (Decidable (LastToBlock s thread))
  | .remove thread _ _ _ => inferInstanceAs (Decidable (LastToBlock s thread))
  | .add .. => inferInstanceAs (Decidable True)
  | .reweight .. => inferInstanceAs (Decidable True)
  | .yield .. => inferInstanceAs (Decidable True)
  | .pick .. => inferInstanceAs (Decidable True)

section WaitSteps

variable {P : Prop} {thread : ℕ} {heap : List Bool}

theorem blockedAt_of_mem (hinv : EevdfInv P s) (hid : id ∈ inorder s.root) : s.blockedAt id = none := by
  obtain ⟨se, hse, hrq⟩ := hinv.entity hid
  simp [blockedAt, hse, hrq]

theorem WaitPlaces.add (h : WaitPlaces s) {prio now : ℕ} {raw : SchedEntity}
    (hfree : s.entities id = none) (hprio : ValidPrio prio)
    (hrun : addEevdfEntityWithPrio s thread prio now id raw = some s') :
    WaitPlaces s' ∧ s'.blockedAt = s.blockedAt := by
  obtain ⟨se, hse, hrq, -⟩ := newEntity_spec raw thread s.minVruntime now hprio.1 hprio.2
  rw [addEevdfEntityWithPrio, hse] at hrun
  have hb : s'.blockedAt = s.blockedAt := by
    cases hrun
    refine (blockedAt_set se).trans ?_
    rw [update_eq_self_iff, hrq]
    simp [blockedAt, hfree]
  refine ⟨h.congr ?_ hb, hb⟩
  cases hrun
  rfl

theorem WaitPlaces.block (h : WaitPlaces s) (hinv : EevdfInv P s) (hheap : false ∉ heap)
    (hrun : waitEevdfEntity s thread heap = some s') :
    WaitPlaces s' ∧ ∀ j, s.blockedAt j ≠ none → s'.blockedAt j ≠ none := by
  unfold waitEevdfEntity at hrun
  cases ht : s.schedHandle thread with
  | none =>
    rw [ht] at hrun
    cases hrun
    exact ⟨h, fun _ hj => hj⟩
  | some id =>
    obtain ⟨se, hse⟩ := hinv.handle thread id ht
    simp only [ht, hse, bind_eq_bind, bind_some, pure_def] at hrun
    by_cases hrq : se.onRq = true
    · have hid := (hinv.mem_iff id).mpr ⟨se, hse, hrq⟩
      obtain ⟨s1, v, hrem, -, -, hent, -, hqueue⟩ := hinv.remove hid
      obtain ⟨q, heap', hadd, hq, -⟩ := cowListAdd_spec s1.waitQueue id hheap
      have hb1 : ∀ j, j ≠ id → s1.blockedAt j = s.blockedAt j := by
        intro j hj
        unfold blockedAt
        rw [hent, set_entities, update_of_ne hj]
      simp only [hrq, hrem, hadd, Bool.not_true, Bool.false_eq_true, if_false, bind_some,
        Option.some.injEq] at hrun
      have hget : (s1.get id).onRq = false := by
        simp [Eevdf.get, hent]
      have hb : s'.blockedAt = update s.blockedAt id (some s.waitQueue.size) := by
        rw [← hrun]
        refine (blockedAt_set { s1.get id with waitIndex := s1.waitQueue.size }).trans ?_
        funext j
        by_cases hj : j = id
        · simp [hj, hget, hqueue]
        · rw [update_of_ne hj, update_of_ne hj, hb1 j hj]
      refine ⟨h.append (blockedAt_of_mem hinv hid) ?_ hb, fun j hj => ?_⟩
      · rw [← hrun, ← hqueue]
        exact hq
      · rw [hb]
        by_cases hji : j = id
        · simp [hji]
        · rwa [update_of_ne hji]
    · rw [if_pos (by simpa using hrq)] at hrun
      cases hrun
      exact ⟨h, fun _ hj => hj⟩

theorem WaitPlaces.wake (h : WaitPlaces s) (hinv : EevdfInv P s) (hlast : LastToBlock s thread)
    (hrun : futexEevdfEntity s thread heap = some s') : WaitPlaces s' ∧ s'.schedHandle = s.schedHandle ∧
      ∀ j, s.schedHandle thread ≠ some j → s'.blockedAt j = s.blockedAt j := by
  unfold futexEevdfEntity at hrun
  cases ht : s.schedHandle thread with
  | none =>
    rw [ht] at hrun
    cases hrun
    exact ⟨h, rfl, fun _ _ => rfl⟩
  | some id =>
    obtain ⟨se, hse⟩ := hinv.handle thread id ht
    simp only [ht, hse, bind_eq_bind, bind_some, pure_def] at hrun
    by_cases hrq : se.onRq = true
    · rw [if_pos hrq] at hrun
      cases hrun
      exact ⟨h, rfl, fun _ _ => rfl⟩
    · rw [if_neg hrq] at hrun
      have hplace : s.blockedAt id = some se.waitIndex := by
        simp [blockedAt, hse, hrq]
      have hsize := hlast id ht _ hplace
      have hq := cowListRemove_last s.waitQueue heap hsize
      have hb : s'.blockedAt = update s.blockedAt id none := by
        cases hrun
        exact blockedAt_set { se with onRq := true }
      refine ⟨h.dropLast hplace hsize ?_ hb, ?_, fun j hj => ?_⟩
      · cases hrun
        exact hq
      · cases hrun
        rfl
      · have hji : j ≠ id := fun hji => hj (hji ▸ rfl)
        rw [hb, update_of_ne hji]

theorem WaitPlaces.removeEntity (h : WaitPlaces s) (hinv : EevdfInv P s)
    (hrun : removeEevdfEntity s thread = some s') : WaitPlaces s' ∧ s'.blockedAt = s.blockedAt := by
  unfold removeEevdfEntity at hrun
  cases ht : s.schedHandle thread with
  | none =>
    rw [ht] at hrun
    cases hrun
    exact ⟨h, rfl⟩
  | some id =>
    simp only [ht] at hrun
    obtain ⟨s1, hrem, hrun⟩ := bind_eq_some_iff.mp hrun
    have hid : id ∈ inorder s.root := by
      by_contra hid
      rw [removeSchedEntity_eq_none hid] at hrem
      cases hrem
    obtain ⟨s1', v, hrem', -, -, hent, -, hqueue⟩ := hinv.remove hid
    obtain rfl : s1' = s1 := Option.some.inj (hrem'.symm.trans hrem)
    cases hrun
    have hb : blockedAt { s1' with
        entities := update s1'.entities id none
        schedHandle := update s1'.schedHandle thread none
        taskCount := s1'.taskCount - 1 } = s.blockedAt := by
      funext j
      by_cases hj : j = id
      · rw [hj, blockedAt_of_mem hinv hid]
        simp [blockedAt]
      · unfold blockedAt
        dsimp only
        rw [update_of_ne hj, hent, set_entities, update_of_ne hj]
    exact ⟨h.congr hqueue hb, hb⟩

theorem WaitPlaces.remove (h : WaitPlaces s) (hinv : EevdfInv P s) {status : TaskStatus}
    {sleepDeadline : ℕ} (hlast : LastToBlock s thread)
    (hrun : removeTask s thread status sleepDeadline heap = some s') :
    WaitPlaces s' ∧ ∀ j, s.schedHandle thread ≠ some j → s'.blockedAt j = s.blockedAt j := by
  unfold removeTask at hrun
  split at hrun
  · obtain ⟨s1, hwake, hrem⟩ := bind_eq_some_iff.mp hrun
    obtain ⟨s1', hwake', hinv1, -⟩ := hinv.keeps_wake thread heap
    obtain rfl : s1' = s1 := Option.some.inj (hwake'.symm.trans hwake)
    obtain ⟨h1, -, hkeep⟩ := h.wake hinv hlast hwake
    obtain ⟨h', hb⟩ := h1.removeEntity hinv1 hrem
    exact ⟨h', fun j hj => hb ▸ hkeep j hj⟩
  · obtain ⟨h', hb⟩ := h.removeEntity hinv hrun
    exact ⟨h', fun j _ => hb ▸ rfl⟩

theorem WaitPlaces.reweight (h : WaitPlaces s) {prio : ℕ} (hvalid : ∃ id ∈ s.schedHandle thread,
      ∃ se ∈ s.entities id, se.prio = prio ∨ se.onRq = true ∧ ValidPrio prio)
    (hrun : changeEntityWeight s thread prio = some s') : WaitPlaces s' ∧ s'.blockedAt = s.blockedAt := by
  obtain ⟨id, ht, se, hse, hok⟩ := hvalid
  rw [mem_def] at ht hse
  unfold changeEntityWeight at hrun
  simp only [ht, hse, bind_eq_bind, bind_some, pure_def] at hrun
  by_cases hp : se.prio = prio
  · rw [if_pos hp] at hrun
    cases hrun
    exact ⟨h, rfl⟩
  · rw [if_neg hp] at hrun
    obtain ⟨se', hse', hrun⟩ := bind_eq_some_iff.mp hrun
    obtain ⟨hent, hq⟩ := entities_requeueSchedEntity hrun
    have hprio := (hok.resolve_left hp).2
    obtain ⟨se'', hse'', hkept, -⟩ := @setLoadWeight_spec
      { se with isIdle := decide (prio = niceToPrio 20), prio := prio } hprio.1 hprio.2
    obtain rfl : se'' = se' := Option.some.inj (hse''.symm.trans hse')
    have hb : s'.blockedAt = s.blockedAt := by
      funext j
      apply blockedAt_congr
      rw [hent]
      by_cases hj : j = id
      · have hrq : se''.onRq = se.onRq := congrArg (fun x => x.1) hkept
        have hindex : se''.waitIndex = se.waitIndex := congrArg (fun x => x.2.2.1) hkept
        simp [hj, hse, hrq, hindex]
      · simp [hj]
    exact ⟨h.congr hq hb, hb⟩

theorem WaitPlaces.yield (h : WaitPlaces s) (hrun : setEntityYield s thread = some s') :
    WaitPlaces s' ∧ s'.blockedAt = s.blockedAt := by
  obtain ⟨id, -, hrun⟩ := bind_eq_some_iff.mp hrun
  obtain ⟨se, hse, hrun⟩ := bind_eq_some_iff.mp hrun
  have hb : s'.blockedAt = s.blockedAt := by
    cases hrun
    rw [blockedAt_set, update_eq_self_iff]
    simp [blockedAt, hse]
  refine ⟨h.congr ?_ hb, hb⟩
  cases hrun
  rfl

theorem WaitPlaces.pick (h : WaitPlaces s) (hinv : EevdfInv False s) {now now' t : ℕ}
    (hrun : eevdfPickNextTask s now now' = some (s', t)) : WaitPlaces s' ∧ s'.blockedAt = s.blockedAt := by
  obtain ⟨hq, hk, -⟩ := eevdfPickNextTask_charged hinv hrun
  have hb : s'.blockedAt = s.blockedAt := by
    funext j
    apply blockedAt_congr
    have hproj := congrArg (Option.map fun x : Bool × ℕ × ℕ × ℕ => (x.1, x.2.2.1)) (hk j)
    rw [map_map, charged, map_map] at hproj
    refine hproj.trans ?_
    congr 1
    funext se
    simp only [comp_apply]
    split
    · rw [kept_updateCurrSe]
    · rfl
  exact ⟨h.congr hq hb, hb⟩

/-- One operation keeps the wait queue right, and only the entity that wakes up or is removed
leaves it. -/
theorem WaitPlaces.run (h : WaitPlaces s) (hinv : EevdfInv False s) {op : EevdfOp}
    (hok : op.Regular s) (hlast : op.WakesLast s) (hrun : op.run s = some s') :
    WaitPlaces s' ∧ ∀ j, s.blockedAt j ≠ none → s'.blockedAt j = none →
      ∃ thread, op.woken = some thread ∧ s.schedHandle thread = some j := by
  -- most operations leave all entities where they are
  have hsame : WaitPlaces s' ∧ s'.blockedAt = s.blockedAt →
      WaitPlaces s' ∧ ∀ j, s.blockedAt j ≠ none → s'.blockedAt j = none →
        ∃ thread, op.woken = some thread ∧ s.schedHandle thread = some j :=
    fun h => ⟨h.1, fun j hj hj' => absurd (h.2 ▸ hj') hj⟩
  have hother : ∀ thread, op.woken = some thread → WaitPlaces s' →
      (∀ j, s.schedHandle thread ≠ some j → s'.blockedAt j = s.blockedAt j) →
      WaitPlaces s' ∧ ∀ j, s.blockedAt j ≠ none → s'.blockedAt j = none →
        ∃ thread, op.woken = some thread ∧ s.schedHandle thread = some j := by
    intro thread hop h' hkeep
    refine ⟨h', fun j hj hj' => ⟨thread, hop, ?_⟩⟩
    by_contra hne
    exact hj (hkeep j hne ▸ hj')
  cases op with
  | add task prio now id raw => exact hsame (h.add hok.1 hok.2 hrun)
  | block thread heap =>
    obtain ⟨h', hkeep⟩ := h.block hinv hlast hrun
    exact ⟨h', fun j hj hj' => absurd hj' (hkeep j hj)⟩
  | wake thread heap =>
    obtain ⟨h', -, hkeep⟩ := h.wake hinv hlast hrun
    exact hother thread rfl h' hkeep
  | reweight thread prio => exact hsame (h.reweight hok hrun)
  | yield thread => exact hsame (h.yield hrun)
  | pick now now' =>
    obtain ⟨⟨s1, t⟩, hpick, rfl⟩ := map_eq_some_iff.mp hrun
    exact hsame (h.pick hinv hpick)
  | remove thread status sleepDeadline heap =>
    obtain ⟨h', hkeep⟩ := h.remove hinv hlast hrun
    exact hother thread rfl h' hkeep

theorem waitPlaces_initCpuIdle {apIdle now : ℕ} {raw : SchedEntity}
    (h : initCpuIdle apIdle now id raw = some s) : WaitPlaces s := by
  obtain ⟨se, hse, hrq, -⟩ := @newEntity_spec raw apIdle 0 now (niceToPrio 20) (by decide) le_rfl
  rw [initCpuIdle, hse] at h
  cases h
  refine ⟨by simp [insertSchedEntity], fun j i => ?_⟩
  have hb : blockedAt ((insertSchedEntity (set
      ⟨fun _ => none, update (fun _ => none) apIdle (some id), .nil, none, .empty, 0, 0, 0,
        0⟩ id se) id).select (some id)) j = none := by
    by_cases hj : j = id
    · simp [blockedAt, insertSchedEntity, hj, hrq]
    · simp [blockedAt, insertSchedEntity, hj]
  constructor
  · intro hi
    simp [insertSchedEntity] at hi
  · intro hi
    exact absurd (hb.symm.trans hi) (by simp)

end WaitSteps

/-- In every run that wakes and removes blocked entities in the reverse order of their
blocking, the wait queue is right after every operation, and an operation takes no entity out
of it but the one it is called for. -/
theorem waitQueueOk_of_wakesLast (apIdle now id : ℕ) (raw : SchedEntity) :
    ∃ s, initCpuIdle apIdle now id raw = some s ∧ ∀ ops : List EevdfOp,
      Runs.Meets EevdfOp.run (fun s op => op.Regular s ∧ op.WakesLast s) ops s →
      (∀ done, done <+: ops → ∃ s₁, Runs.run EevdfOp.run done s = some s₁ ∧ WaitQueueOk s₁) ∧
      ∀ done op, done ++ [op] <+: ops →
        ∃ s₁ s₂, Runs.run EevdfOp.run done s = some s₁ ∧ op.run s₁ = some s₂ ∧
          ∀ id, some id ∈ s₁.waitQueue.toList → some id ∉ s₂.waitQueue.toList →
            ∃ thread, op.woken = some thread ∧ s₁.schedHandle thread = some id := by
  obtain ⟨s, hs, hinv⟩ := @eevdfInv_initCpuIdle False apIdle now id raw
  have hstep : ∀ s op, EevdfInv False s ∧ WaitPlaces s → op.Regular s ∧ op.WakesLast s →
      ∃ s', EevdfOp.run s op = some s' ∧ EevdfInv False s' ∧ WaitPlaces s' := by
    intro s op hinv hok
    obtain ⟨s', hrun, hinv'⟩ := hinv.1.keeps_run op hok.1 False.elim
    exact ⟨s', hrun, hinv', (hinv.2.run hinv.1 hok.1 hok.2 hrun).1⟩
  refine ⟨s, hs, fun ops hok => ⟨fun done hdone => ?_, fun done op hdone => ?_⟩⟩
  · obtain ⟨s₁, hrun, -, h₁⟩ :=
      Runs.run_total hstep ⟨hinv, waitPlaces_initCpuIdle hs⟩ (hok.of_isPrefix hdone)
    exact ⟨s₁, hrun, h₁.waitQueueOk⟩
  · have hok' := hok.of_isPrefix hdone
    obtain ⟨s₁, hrun, hinv₁, h₁⟩ := Runs.run_total hstep ⟨hinv, waitPlaces_initCpuIdle hs⟩
      (hok'.of_isPrefix (List.prefix_append done [op]))
    have hop := hok'.last hrun
    obtain ⟨s₂, hrun₂, -⟩ := hstep s₁ op ⟨hinv₁, h₁⟩ hop
    obtain ⟨h₂, hwoken⟩ := h₁.run hinv₁ hop.1 hop.2 hrun₂
    refine ⟨s₁, s₂, hrun, hrun₂, fun id hmem hnot => ?_⟩
    rw [h₁.mem_iff] at hmem
    rw [h₂.mem_iff, not_not] at hnot
    exact hwoken id hmem hnot

/-- Two threads block and wake up again, the second one first. -/
def nestedWaits : List EevdfOp :=
  [.add 2 120 10 20 default, .add 3 120 10 30 default, .block 2 [], .block 3 [], .wake 3 [],
    .wake 2 []]

theorem waitQueueOk_of_nestedWaits :
    ∃ s s', initCpuIdle 1 0 10 default = some s ∧
      Runs.run EevdfOp.run nestedWaits s = some s' ∧ WaitQueueOk s' := by
  obtain ⟨s, hs, hrun⟩ := waitQueueOk_of_wakesLast 1 0 10 default
  have hok : ∀ s ∈ initCpuIdle 1 0 10 default,
      Runs.Meets EevdfOp.run (fun s op => op.Regular s ∧ op.WakesLast s) nestedWaits s := by
    decide
  obtain ⟨s', hs', hq⟩ := (hrun nestedWaits (hok s hs)).1 nestedWaits List.prefix_rfl
  exact ⟨s, s', hs, hs', hq⟩

/-- Two threads block and the first one wakes up first. The second one stands at position 0
then and has noted position 1; when it wakes up after a third one has blocked, the third one
is taken out in its place. -/
theorem stale_waitIndex :
    ∃ s s₁ s₂, initCpuIdle 1 0 10 default = some s ∧
      Runs.run EevdfOp.run [.add 2 120 10 20 default, .add 3 120 10 30 default,
        .add 4 120 10 40 default, .block 2 [], .block 3 [], .wake 2 []] s = some s₁ ∧
      ¬ WaitQueueOk s₁ ∧ Runs.run EevdfOp.run [.block 4 [], .wake 3 []] s₁ = some s₂ ∧
      (s₂.get 30).onRq = true ∧ (s₂.get 40).onRq = false ∧ s₂.waitQueue.toList = [some 30] := by
  obtain ⟨s, hs, -⟩ := @eevdfInv_initCpuIdle False 1 0 10 default
  obtain ⟨s₁, hs₁⟩ : ∃ s₁, Runs.run EevdfOp.run [.add 2 120 10 20 default,
      .add 3 120 10 30 default, .add 4 120 10 40 default, .block 2 [], .block 3 [],
      .wake 2 []] s = some s₁ := by
    apply Option.isSome_iff_exists.mp
    revert s
    decide
  have hnoted : (s₁.entities 30).map (fun se => (se.onRq, se.waitIndex)) = some (false, 1) ∧
      s₁.waitQueue.toList = [some 30] := by
    revert s s₁
    decide
  obtain ⟨s₂, hs₂⟩ : ∃ s₂, Runs.run EevdfOp.run [.block 4 [], .wake 3 []] s₁ = some s₂ := by
    apply Option.isSome_iff_exists.mp
    clear hnoted
    revert s s₁
    decide
  refine ⟨s, s₁, s₂, hs, hs₁, fun hok => ?_, hs₂, ?_⟩
  · obtain ⟨se, hse, hnote⟩ := Option.map_eq_some_iff.mp hnoted.1
    obtain ⟨hrq, hindex⟩ := Prod.mk.inj hnote
    have hplace := hok.index 30 se hse hrq
    rw [hindex, hnoted.2] at hplace
    cases hplace
  · clear hnoted
    revert s s₁ s₂
    decide

end CoolPotOS
