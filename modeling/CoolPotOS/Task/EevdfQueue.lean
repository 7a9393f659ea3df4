import CoolPotOS.Task.Eevdf

namespace CoolPotOS

open RbTree List Option

/-- The fields that the updates of the virtual time leave alone. -/
def SchedEntity.kept (se : SchedEntity) : Bool × ℕ × ℕ × ℕ :=
  (se.onRq, se.thread, se.waitIndex, se.sumExecRuntime)

theorem SchedEntity.onRq_of_kept {a b : SchedEntity} (h : a.kept = b.kept) : a.onRq = b.onRq :=
  congrArg Prod.fst h

@[simp]
theorem kept_calcDeltaFair (delta : ℕ) (se : SchedEntity) : (calcDeltaFair delta se).2.kept = se.kept := by
  unfold calcDeltaFair
  split <;> rfl

@[simp]
theorem deadline_calcDeltaFair (delta : ℕ) (se : SchedEntity) :
    (calcDeltaFair delta se).2.deadline = se.deadline := by
  unfold calcDeltaFair
  split <;> rfl

@[simp]
theorem kept_updateVlag (s : Eevdf) (se : SchedEntity) : (updateVlag s se).kept = se.kept :=
  kept_calcDeltaFair _ se

@[simp]
theorem deadline_updateVlag (s : Eevdf) (se : SchedEntity) : (updateVlag s se).deadline = se.deadline :=
  deadline_calcDeltaFair _ se

@[simp]
theorem kept_yieldDeadline (se : SchedEntity) : (yieldDeadline se).kept = se.kept := kept_calcDeltaFair _ se

theorem deadline_yieldDeadline_lt (se : SchedEntity) : (yieldDeadline se).deadline < 2 ^ 64 := wrap_lt _

@[simp]
theorem kept_updateDeadline (se : SchedEntity) : (updateDeadline se).2.kept = se.kept := by
  unfold updateDeadline
  split
  · rfl
  · split
    · exact kept_calcDeltaFair _ { se with slice := sysctlSchedBaseSlice }
    · exact kept_calcDeltaFair _ se

theorem deadline_updateDeadline (se : SchedEntity) :
    (updateDeadline se).1 = false ∧ (updateDeadline se).2.deadline = se.deadline ∨
      (updateDeadline se).1 = true ∧ (updateDeadline se).2.deadline < 2 ^ 64 := by
  unfold updateDeadline
  split
  · exact .inl ⟨rfl, rfl⟩
  · exact .inr ⟨rfl, wrap_lt _⟩

@[simp]
theorem kept_advanceEntity (s : Eevdf) (se : SchedEntity) (ran : ℕ) :
    (advanceEntity s se ran).2.kept = se.kept := by
  unfold advanceEntity
  rw [kept_updateDeadline, kept_updateVlag]
  exact kept_calcDeltaFair ran se

theorem deadline_advanceEntity (s : Eevdf) (se : SchedEntity) (ran : ℕ) :
    (advanceEntity s se ran).1 = false ∧ (advanceEntity s se ran).2.deadline = se.deadline ∨
      (advanceEntity s se ran).1 = true ∧ (advanceEntity s se ran).2.deadline < 2 ^ 64 := by
  unfold advanceEntity
  have h := deadline_updateDeadline (updateVlag s { (calcDeltaFair ran se).2 with
    vruntime := wrap ((calcDeltaFair ran se).2.vruntime + (calcDeltaFair ran se).1) })
  rw [deadline_updateVlag] at h
  simpa only [deadline_calcDeltaFair] using h

@[simp]
theorem deadline_updateCurrSe (se : SchedEntity) (now : ℕ) :
    (updateCurrSe se now).2.deadline = se.deadline := by
  unfold updateCurrSe
  dsimp only
  split <;> rfl

theorem kept_updateCurrSe (se : SchedEntity) (now : ℕ) : (updateCurrSe se now).2.kept =
      (se.onRq, se.thread, se.waitIndex, (updateCurrSe se now).2.sumExecRuntime) := by
  unfold updateCurrSe
  dsimp only
  split <;> rfl

namespace Eevdf

@[simp]
theorem get_set (s : Eevdf) (id : ℕ) (se : SchedEntity) : (s.set id se).get id = se := by
  simp [get]

theorem get_set_of_ne (s : Eevdf) {id j : ℕ} (se : SchedEntity) (h : j ≠ id) :
    (s.set id se).get j = s.get j := by
  simp [get, h]

theorem get_eq {s : Eevdf} {id : ℕ} {se : SchedEntity} (h : s.entities id = some se) : s.get id = se := by
  simp [get, h]

@[simp]
theorem set_set (s : Eevdf) (id : ℕ) (a b : SchedEntity) : (s.set id a).set id b = s.set id b := by
  simp [set]

@[simps]
def atTime (s : Eevdf) (m a : ℕ) : Eevdf := { s with minVruntime := m, avgVruntime := a }

end Eevdf

theorem updateMinVruntimeTo_eq (s : Eevdf) (v : ℕ) :
    ∃ a, (updateMinVruntimeTo s v).2 = s.atTime s.minVruntime a := by
  unfold updateMinVruntimeTo
  dsimp only
  split
  · exact ⟨_, rfl⟩
  · exact ⟨_, rfl⟩

theorem updateMinVruntime_eq (s : Eevdf) : ∃ m a, updateMinVruntime s = s.atTime m a := by
  unfold updateMinVruntime
  dsimp only
  generalize minVruntimeTarget s = v
  obtain ⟨a, ha⟩ := updateMinVruntimeTo_eq s v
  split
  · obtain ⟨a', ha'⟩ := updateMinVruntimeTo_eq (updateMinVruntimeTo s v).2 v
    rw [ha', ha]
    exact ⟨_, _, rfl⟩
  · rw [ha]
    exact ⟨_, _, rfl⟩

theorem minVruntimeChild_eq (s : Eevdf) (se : SchedEntity) (node : Option ℕ) :
    ∃ m, minVruntimeChild s se node = { se with minVruntime := m } := by
  unfold minVruntimeChild
  split
  · exact ⟨_, rfl⟩
  · split
    · exact ⟨_, rfl⟩
    · exact ⟨_, rfl⟩

theorem minVruntimeUpdate_eq (s : Eevdf) (id : ℕ) (links : Option ℕ × Option ℕ) :
    ∃ m, minVruntimeUpdate s id links = s.set id { s.get id with minVruntime := m } := by
  unfold minVruntimeUpdate
  dsimp only
  obtain ⟨m, hm⟩ := minVruntimeChild_eq s { s.get id with minVruntime := (s.get id).vruntime } links.2
  obtain ⟨m', hm'⟩ := minVruntimeChild_eq s { s.get id with minVruntime := m } links.1
  rw [hm, hm']
  exact ⟨m', rfl⟩

theorem requeueCurrent_set (s : Eevdf) (c : ℕ) (se : SchedEntity) :
    ∃ se', se'.kept = se.kept ∧ se'.deadline = se.deadline ∧
      requeueCurrent (s.set c se) c = requeueSchedEntity (s.set c se') c := by
  obtain ⟨m, hm⟩ := minVruntimeUpdate_eq (s.set c se) c (children c (s.set c se).root)
  refine ⟨{ se with minVruntime := m }, rfl, rfl, ?_⟩
  unfold requeueCurrent
  rw [hm, Eevdf.get_set, Eevdf.set_set]

/-- All that `update_current_task` can do to the entity it charges: it stays where it is
with its deadline, or it is queued again. -/
theorem settleCurrentTask_cases {s : Eevdf} {c : ℕ} {se : SchedEntity} (now : ℕ)
    (hcur : s.current = some c) (hse : s.entities c = some se) :
    ∃ passed m a se', se'.kept = (updateCurrSe se now).2.kept ∧
      (se.deadline < 2 ^ 64 → se'.deadline < 2 ^ 64) ∧
      (settleCurrentTask s now = some (passed, (s.atTime m a).set c se') ∧ se'.deadline = se.deadline ∨
        settleCurrentTask s now =
          (requeueSchedEntity ((s.atTime m a).set c se') c).map fun s => (passed, s)) := by
  have hdl := deadline_updateCurrSe se now
  unfold settleCurrentTask
  rw [hcur]
  simp only [hse, bind_eq_bind, bind_some, Option.pure_def]
  generalize (updateCurrSe se now).1 = delta
  generalize (updateCurrSe se now).2 = se0 at *
  by_cases hdelta : delta ≤ 0
  · rw [if_pos hdelta]
    by_cases hy : se0.isYield
    · obtain ⟨se', hkept, hd, hrequeue⟩ := requeueCurrent_set s c (yieldDeadline se0)
      refine ⟨false, s.minVruntime, s.avgVruntime, se', ?_, ?_, .inr ?_⟩
      · rw [hkept, kept_yieldDeadline]
      · rw [hd]
        exact fun _ => deadline_yieldDeadline_lt se0
      · rw [if_pos hy, hrequeue, map_eq_bind]
        rfl
    · rw [if_neg hy]
      exact ⟨false, s.minVruntime, s.avgVruntime, se0, rfl, fun h => hdl ▸ h, .inl ⟨rfl, hdl⟩⟩
  · rw [if_neg hdelta]
    have hkept := kept_advanceEntity s se0 delta.toNat
    have hadv := deadline_advanceEntity s se0 delta.toNat
    rw [hdl] at hadv
    generalize (advanceEntity s se0 delta.toNat).1 = resche at *
    generalize (advanceEntity s se0 delta.toNat).2 = se1 at *
    obtain ⟨m, a, hmin⟩ := updateMinVruntime_eq (s.set c se1)
    rw [hmin]
    have hget : ((s.set c se1).atTime m a).get c = se1 := Eevdf.get_set s c se1
    have hset : ∀ se', ((s.set c se1).atTime m a).set c se' = (s.atTime m a).set c se' :=
      fun se' => Eevdf.set_set (s.atTime m a) c se1 se'
    rw [hget]
    simp only [hset]
    by_cases hy : se1.isYield
    · obtain ⟨se', hkept', hd, hrequeue⟩ := requeueCurrent_set (s.atTime m a) c
        (yieldDeadline { se1 with minVruntime := ((s.set c se1).atTime m a).minVruntime })
      refine ⟨true, m, a, se', ?_, ?_, .inr ?_⟩
      · rw [hkept', kept_yieldDeadline, ← hkept]
        rfl
      · rw [hd]
        exact fun _ => deadline_yieldDeadline_lt _
      · rw [if_pos hy]
        simp only [Bool.true_or, if_true]
        rw [hrequeue, map_eq_bind]
        rfl
    · rw [if_neg hy]
      by_cases hq : (resche || se1.isIdle) = true
      · obtain ⟨se', hkept', hd, hrequeue⟩ := requeueCurrent_set (s.atTime m a) c
          { se1 with minVruntime := ((s.set c se1).atTime m a).minVruntime }
        refine ⟨true, m, a, se', ?_, ?_, .inr ?_⟩
        · rw [hkept', ← hkept]
          rfl
        · rw [hd]
          intro h
          rcases hadv with hadv | hadv
          · exact hadv.2 ▸ h
          · exact hadv.2
        · simp only [if_pos hq]
          rw [hrequeue, map_eq_bind]
          rfl
      · simp only [if_neg hq]
        rcases hadv with hadv | hadv
        · exact ⟨true, m, a, { se1 with minVruntime := m }, hkept, fun h => hadv.2 ▸ h,
            .inl ⟨rfl, hadv.2⟩⟩
        · rw [hadv.1] at hq
          exact absurd rfl hq

/-- The tree holds the entities with `on_rq` set, each once, in order of their deadlines. -/
structure RunQueueOk (s : Eevdf) : Prop where
  nodup : (inorder s.root).Nodup
  mem_iff : ∀ id, id ∈ inorder s.root ↔ ∃ se, s.entities id = some se ∧ se.onRq = true
  sorted : (inorder s.root).Pairwise fun a b => (s.get a).deadline ≤ (s.get b).deadline

variable {P : Prop}

/-- The same with the order of the deadlines only where `P` holds. The elements of the tree do
not depend on the order. -/
structure RunQueue (P : Prop) (s : Eevdf) : Prop where
  nodup : (inorder s.root).Nodup
  mem_iff : ∀ id, id ∈ inorder s.root ↔ ∃ se, s.entities id = some se ∧ se.onRq = true
  sorted : P → (inorder s.root).Pairwise fun a b => (s.get a).deadline ≤ (s.get b).deadline

namespace RunQueue

variable {s : Eevdf} {id : ℕ} {se se' : SchedEntity}

theorem entity (h : RunQueue P s) (hid : id ∈ inorder s.root) :
    ∃ se, s.entities id = some se ∧ se.onRq = true :=
  (h.mem_iff id).mp hid

theorem atTime (h : RunQueue P s) (m a : ℕ) : RunQueue P (s.atTime m a) := ⟨h.nodup, h.mem_iff, h.sorted⟩

theorem congr (h : RunQueue P s) (s' : Eevdf) (hroot : s'.root = s.root)
    (hent : ∀ id, (s'.entities id).map (fun se => (se.onRq, se.deadline)) =
      (s.entities id).map fun se => (se.onRq, se.deadline)) : RunQueue P s' := by
  have hmem : ∀ id, (∃ se, s'.entities id = some se ∧ se.onRq = true) ↔
      ∃ se, s.entities id = some se ∧ se.onRq = true := by
    intro id
    have := hent id
    cases h1 : s'.entities id <;> cases h2 : s.entities id <;> simp_all
  refine ⟨hroot ▸ h.nodup, fun id => ?_, ?_⟩
  · rw [hroot, h.mem_iff, hmem]
  · intro hP
    rw [hroot]
    refine (h.sorted hP).imp_of_mem fun {a b} ha hb hab => ?_
    have hget : ∀ id ∈ inorder s.root, (s'.get id).deadline = (s.get id).deadline := by
      intro id hid
      obtain ⟨se, hse, -⟩ := h.entity hid
      have := hent id
      cases h1 : s'.entities id <;> simp_all [Eevdf.get]
    rw [hget a ha, hget b hb]
    exact hab

theorem set (h : RunQueue P s) (hse : s.entities id = some se) (hrq : se'.onRq = se.onRq)
    (hd : se'.deadline = se.deadline) : RunQueue P (s.set id se') := by
  refine h.congr (s.set id se') rfl fun j => ?_
  by_cases hj : j = id
  · subst hj
    simp [hse, hrq, hd]
  · simp [hj]

end RunQueue

/-- A tree with all entities that have `on_rq` set, but for the one at `id`. -/
structure QueueBut (P : Prop) (s : Eevdf) (root : RbTree.Tree ℕ) (id : ℕ) : Prop where
  nodup : (inorder root).Nodup
  mem_iff : ∀ j, j ∈ inorder root ↔ j ≠ id ∧ ∃ se, s.entities j = some se ∧ se.onRq = true
  sorted : P → (inorder root).Pairwise fun a b => (s.get a).deadline ≤ (s.get b).deadline

section Queue

variable {s : Eevdf} {id : ℕ} {root : RbTree.Tree ℕ}

theorem QueueBut.set (h : QueueBut P s root id) (se : SchedEntity) : QueueBut P (s.set id se) root id := by
  refine ⟨h.nodup, fun j => ?_, ?_⟩
  · rw [h.mem_iff]
    refine and_congr_right fun hj => ?_
    simp [hj]
  · intro hP
    refine (h.sorted hP).imp_of_mem fun {a b} ha hb hab => ?_
    rw [Eevdf.get_set_of_ne s se ((h.mem_iff a).mp ha).1, Eevdf.get_set_of_ne s se ((h.mem_iff b).mp hb).1]
    exact hab

theorem RunQueue.but (h : RunQueue P s) (hid : id ∉ inorder s.root) : QueueBut P s s.root id := by
  refine ⟨h.nodup, fun j => ?_, h.sorted⟩
  rw [h.mem_iff]
  refine ⟨fun hj => ⟨?_, hj⟩, And.right⟩
  rintro rfl
  exact hid ((h.mem_iff j).mpr hj)

theorem RunQueue.erase (h : RunQueue P s) (hid : id ∈ inorder s.root) :
    ∃ root, eraseSchedEntity s id = some (s.withRoot root) ∧ QueueBut P s root id := by
  obtain ⟨root, a, b, herase, hold, hnew⟩ := erase_spec hid
  have hnodup := h.nodup
  rw [hold] at hnodup
  refine ⟨root, by rw [eraseSchedEntity, herase]; rfl, ?_, fun j => ?_, ?_⟩
  · rw [hnew]
    exact (nodup_middle.mp hnodup).of_cons
  · have hnot := (nodup_cons.mp (nodup_middle.mp hnodup)).1
    rw [hnew, ← h.mem_iff, hold]
    constructor
    · intro hj
      refine ⟨?_, by simpa using Or.imp_right Or.inr (mem_append.mp hj)⟩
      rintro rfl
      exact hnot hj
    · rintro ⟨hne, hj⟩
      simpa [hne] using hj
  · intro hP
    rw [hnew]
    exact (hold ▸ h.sorted hP).sublist (List.Sublist.append_left (sublist_cons_self id b) a)

theorem QueueBut.detached (h : QueueBut P s root id) (hid : ∀ se, s.entities id = some se → se.onRq = false) :
    RunQueue P (s.withRoot root) := by
  refine ⟨h.nodup, fun j => ?_, h.sorted⟩
  rw [Eevdf.withRoot_root, h.mem_iff]
  refine ⟨And.right, fun hj => ⟨?_, hj⟩⟩
  rintro rfl
  obtain ⟨se, hse, hrq⟩ := hj
  rw [hid se hse] at hrq
  cases hrq

theorem QueueBut.inserted (h : QueueBut P s root id) {se : SchedEntity}
    (hse : s.entities id = some se) (hrq : se.onRq = true) :
    RunQueue P (insertSchedEntity (s.withRoot root) id) := by
  obtain ⟨a, b, hold, hnew⟩ := inorder_insert_perm
    (fun d => decide ((s.get id).deadline < (s.get d).deadline)) id root
  have hnew' : inorder (insertSchedEntity (s.withRoot root) id).root = a ++ id :: b := hnew
  have hnodup := h.nodup
  rw [hold] at hnodup
  have hnot : id ∉ a ++ b := by
    rw [← hold]
    exact fun hmem => ((h.mem_iff id).mp hmem).1 rfl
  refine ⟨?_, fun j => ?_, fun hP => ?_⟩
  · rw [hnew']
    exact nodup_middle.mpr (nodup_cons.mpr ⟨hnot, hnodup⟩)
  · rw [hnew']
    have hj := h.mem_iff j
    rw [hold] at hj
    have hsplit : j ∈ a ++ id :: b ↔ j = id ∨ j ∈ a ++ b := by
      simp only [mem_append, mem_cons]
      tauto
    rw [hsplit, hj]
    constructor
    · rintro (rfl | hj)
      · exact ⟨se, hse, hrq⟩
      · exact hj.2
    · intro hj
      by_cases hji : j = id
      · exact .inl hji
      · exact .inr ⟨hji, hj⟩
  · obtain ⟨a, b, hold, hnew, hbefore, hafter⟩ :=
      @insert_spec ℕ (fun d => (s.get d).deadline) id root (h.sorted hP)
    have hsorted := hold ▸ h.sorted hP
    rw [show inorder (insertSchedEntity (s.withRoot root) id).root = a ++ id :: b from hnew]
    rw [pairwise_append] at hsorted ⊢
    refine ⟨hsorted.1, pairwise_cons.mpr ⟨hafter, hsorted.2.1⟩, fun y hy z hz => ?_⟩
    rcases mem_cons.mp hz with rfl | hz
    · exact hbefore y hy
    · exact hsorted.2.2 y hy z hz

theorem RunQueue.requeue (h : RunQueue P s) (hid : id ∈ inorder s.root) {se : SchedEntity}
    (hrq : se.onRq = true) :
    ∃ root, requeueSchedEntity (s.set id se) id = some ((s.set id se).withRoot root) ∧
      RunQueue P ((s.set id se).withRoot root) := by
  obtain ⟨root, herase, hbut⟩ := h.erase hid
  have hset : eraseSchedEntity (s.set id se) id = some ((s.set id se).withRoot root) := by
    unfold eraseSchedEntity at herase ⊢
    obtain ⟨t, ht, heq⟩ := map_eq_some_iff.mp herase
    have hroot : t = root := congrArg Eevdf.root heq
    rw [show (s.set id se).root = s.root from rfl, ht, hroot]
    rfl
  have hget : (s.set id se).entities id = some se := by simp
  have hins := (hbut.set se).inserted hget hrq
  refine ⟨(insertSchedEntity ((s.set id se).withRoot root) id).root, ?_, hins⟩
  unfold requeueSchedEntity
  rw [hset]
  rfl

end Queue

/-- What holds between the operations of the scheduler. -/
structure EevdfInv (P : Prop) (s : Eevdf) : Prop extends RunQueue P s where
  current_mem : ∀ c, s.current = some c → c ∈ inorder s.root
  handle : ∀ t id, s.schedHandle t = some id → ∃ se, s.entities id = some se
  handle_inj : ∀ t t' id, s.schedHandle t = some id → s.schedHandle t' = some id → t = t'
  avgLoad : s.avgLoad = 0
  word : ∀ id se, s.entities id = some se → se.deadline < 2 ^ 64

section Steps

variable {s : Eevdf} {id : ℕ} {se se' : SchedEntity}

theorem vruntimeEligible_of_avgLoad (h : s.avgLoad = 0) (v : ℕ) : vruntimeEligible s v = true := by
  simp [vruntimeEligible, h, signed]

theorem pickEevdf_eq (h : s.avgLoad = 0) : pickEevdf s = match first s.root, s.current with
      | none, curr => curr
      | some best, none => some best
      | some best, some curr =>
        if entityBefore (s.get curr) (s.get best) then some curr else some best := by
  unfold pickEevdf
  cases hf : first s.root with
  | none =>
    have hnil : s.root = .nil := by
      cases hr : s.root with
      | nil => rfl
      | node c l d r =>
        rw [first_eq, hr] at hf
        simp at hf
    simp [hnil, pickWalk]
  | some best =>
    cases s.current <;> simp only [vruntimeEligible_of_avgLoad h, if_true]

theorem pickEevdf_mem (havg : s.avgLoad = 0)
    (hcur : ∀ c, s.current = some c → c ∈ inorder s.root) (h : pickEevdf s = some id) :
    id ∈ inorder s.root := by
  rw [pickEevdf_eq havg] at h
  have hfirst : ∀ x, first s.root = some x → x ∈ inorder s.root := by
    intro x hx
    rw [first_eq] at hx
    exact List.mem_of_mem_head? hx
  split at h
  · exact hcur id h
  · exact hfirst id (by simp_all)
  · split at h
    · exact hcur id (by simp_all)
    · exact hfirst id (by simp_all)

theorem pickEevdf_isSome (havg : s.avgLoad = 0) (hne : inorder s.root ≠ []) :
    ∃ id, pickEevdf s = some id := by
  rw [pickEevdf_eq havg, first_eq]
  cases hl : inorder s.root with
  | nil => exact absurd hl hne
  | cons x l =>
    simp only [head?_cons]
    split <;> simp_all
    split <;> simp

theorem EevdfInv.of_write (h : EevdfInv P s) {s' : Eevdf} (id : ℕ) (se : SchedEntity)
    (hok : RunQueue P s') (hent : s'.entities = (s.set id se).entities) (hword : se.deadline < 2 ^ 64)
    (hhandle : s'.schedHandle = s.schedHandle) (havg : s'.avgLoad = s.avgLoad)
    (hcur : ∀ c, s'.current = some c → c ∈ inorder s'.root) : EevdfInv P s' where
  toRunQueue := hok
  current_mem := hcur
  handle := by
    intro t j hj
    rw [hhandle] at hj
    rw [hent]
    by_cases hji : j = id
    · exact ⟨se, by simp [hji]⟩
    · obtain ⟨x, hx⟩ := h.handle t j hj
      exact ⟨x, by simpa [hji] using hx⟩
  handle_inj := hhandle ▸ h.handle_inj
  avgLoad := havg.trans h.avgLoad
  word := by
    intro j x hx
    rw [hent] at hx
    by_cases hji : j = id
    · have : x = se := by simpa [hji, eq_comm] using hx
      rw [this]
      exact hword
    · exact h.word j x (by simpa [hji] using hx)

theorem EevdfInv.set (h : EevdfInv P s) (hse : s.entities id = some se) (hrq : se'.onRq = se.onRq)
    (hd : se'.deadline = se.deadline) : EevdfInv P (s.set id se') :=
  h.of_write id se' (h.toRunQueue.set hse hrq hd) rfl (hd ▸ h.word id se hse) rfl rfl h.current_mem

theorem EevdfInv.atTime (h : EevdfInv P s) (m a : ℕ) : EevdfInv P (s.atTime m a) :=
  ⟨h.toRunQueue.atTime m a, h.current_mem, h.handle, h.handle_inj, h.avgLoad, h.word⟩

theorem EevdfInv.requeue (h : EevdfInv P s) (hid : id ∈ inorder s.root) (hrq : se.onRq = true)
    (hword : se.deadline < 2 ^ 64) :
    ∃ root, requeueSchedEntity (s.set id se) id = some ((s.set id se).withRoot root) ∧
      EevdfInv P ((s.set id se).withRoot root) := by
  obtain ⟨root, hrun, hok⟩ := h.toRunQueue.requeue hid hrq
  refine ⟨root, hrun, h.of_write id se hok rfl hword rfl rfl fun c hc => ?_⟩
  rw [hok.mem_iff]
  by_cases hci : c = id
  · exact ⟨se, by simp [hci], hrq⟩
  · obtain ⟨x, hx, hx'⟩ := h.entity (h.current_mem c hc)
    exact ⟨x, by simpa [hci] using hx, hx'⟩

/-- Whether `wrap_vruntime` keeps the deadlines in order: it does nothing, or it moves every
deadline of the queue down. -/
def WrapSafe (s : Eevdf) : Prop :=
  s.minVruntime < vruntimeOffsetThreshold ∨
    ∀ id ∈ inorder s.root, vruntimeOffsetThreshold < (s.get id).deadline

instance (s : Eevdf) : Decidable (WrapSafe s) := inferInstanceAs (Decidable (_ ∨ _))

theorem foldl_set (f : SchedEntity → SchedEntity) {l : List ℕ} (hl : l.Nodup) (s : Eevdf) :
    l.foldl (fun (s : Eevdf) node => s.set node (f (s.get node))) s =
      { s with entities := fun j => if j ∈ l then some (f (s.get j)) else s.entities j } := by
  induction l generalizing s with
  | nil => simp
  | cons x l ih =>
    obtain ⟨hx, hl⟩ := nodup_cons.mp hl
    rw [foldl_cons, ih hl]
    simp only [Eevdf.set, Eevdf.mk.injEq, and_true]
    funext j
    by_cases hj : j = x
    · subst hj
      simp [hx]
    · by_cases hjl : j ∈ l
      · simp [hj, hjl, Eevdf.get]
      · simp [hj, hjl]

/-- What `wrap_vruntime` makes of an entity of the queue. -/
def wrapped (offset : ℕ) (s : Eevdf) (id : ℕ) : SchedEntity :=
  wrapEntity offset
    (if s.current = some id then wrapCurrentEntity offset (s.get id) else s.get id)

theorem kept_wrapped (offset : ℕ) (s : Eevdf) (id : ℕ) : (wrapped offset s id).kept = (s.get id).kept := by
  unfold wrapped
  by_cases h : s.current = some id
  · rw [if_pos h]
    rfl
  · rw [if_neg h]
    rfl

theorem get_wrapCurrent (offset : ℕ) (s : Eevdf) (id : ℕ) : (wrapCurrent offset s).get id =
      if s.current = some id then wrapCurrentEntity offset (s.get id) else s.get id := by
  unfold wrapCurrent
  cases hc : s.current with
  | none => simp
  | some c =>
    by_cases hid : id = c
    · subst hid
      simp
    · rw [if_neg (by simpa [eq_comm] using hid)]
      exact Eevdf.get_set_of_ne s _ hid

theorem wrapCurrent_eq (offset : ℕ) (s : Eevdf) : ∃ ents, wrapCurrent offset s = { s with entities := ents } ∧
      ∀ j, s.current ≠ some j → ents j = s.entities j := by
  unfold wrapCurrent
  split
  case h_1 => exact ⟨s.entities, rfl, fun _ _ => rfl⟩
  case h_2 c hc =>
    refine ⟨(s.set c (wrapCurrentEntity offset (s.get c))).entities, rfl, fun j hj => ?_⟩
    have hj' : j ≠ c := fun h => hj (by rw [hc, h])
    simp [hj']

theorem wrapVruntimeBy_eq (offset : ℕ) (hnodup : (inorder s.root).Nodup)
    (hcur : ∀ c, s.current = some c → c ∈ inorder s.root) :
    ∃ m a, wrapVruntimeBy offset s = { s with
      entities := fun j => if j ∈ inorder s.root then some (wrapped offset s j) else s.entities j
      minVruntime := m
      avgVruntime := a } := by
  refine ⟨s.minVruntime - offset,
    if s.avgLoad ≠ 0 then wrapSub s.avgVruntime (wrap (s.avgLoad * offset)) else 0, ?_⟩
  unfold wrapVruntimeBy
  generalize s.minVruntime - offset = m
  obtain ⟨ents, hwrap, hent⟩ := wrapCurrent_eq offset { s with minVruntime := m }
  have hget := get_wrapCurrent offset { s with minVruntime := m }
  rw [hwrap] at hget ⊢
  dsimp only
  rw [foldl_set (wrapEntity offset) hnodup]
  simp only [Eevdf.mk.injEq, and_true]
  funext j
  by_cases hj : j ∈ inorder s.root
  · rw [if_pos hj, if_pos hj, hget j]
    rfl
  · rw [if_neg hj, if_neg hj]
    exact hent j fun h => hj (hcur j h)

theorem deadline_wrapped {offset : ℕ} (hoffset : 2 ^ 63 ≤ offset)
    (hlt : offset < (s.get id).deadline) (hword : (s.get id).deadline < 2 ^ 64) :
    (wrapped offset s id).deadline = (s.get id).deadline - offset := by
  unfold wrapped wrapEntity
  by_cases h : s.current = some id
  · have hsub : wrapSub (s.get id).deadline offset = (s.get id).deadline - offset := by
      unfold wrapSub
      rw [show (s.get id).deadline + (2 ^ 64 - offset) = (s.get id).deadline - offset + 2 ^ 64 by
        omega, Nat.add_mod_right, Nat.mod_eq_of_lt (by omega)]
    rw [if_pos h]
    simp only [wrapCurrentEntity, hsub]
    exact if_neg (by omega)
  · rw [if_neg h]
    exact if_pos hlt

theorem deadline_wrapped_lt (offset : ℕ) (hword : (s.get id).deadline < 2 ^ 64) :
    (wrapped offset s id).deadline < 2 ^ 64 := by
  have hle : ∀ se, (wrapEntity offset se).deadline ≤ se.deadline := by
    intro se
    unfold wrapEntity
    dsimp only
    split
    · exact Nat.sub_le _ _
    · exact le_rfl
  unfold wrapped
  refine (hle _).trans_lt ?_
  split
  · exact Nat.mod_lt _ (Nat.two_pow_pos 64)
  · exact hword

theorem le_vruntimeOffsetThreshold : 2 ^ 63 ≤ vruntimeOffsetThreshold := by
  norm_num [vruntimeOffsetThreshold]

theorem EevdfInv.wrapVruntime (h : EevdfInv P s) (hsafe : P → WrapSafe s) :
    EevdfInv P (CoolPotOS.wrapVruntime s) := by
  unfold CoolPotOS.wrapVruntime
  by_cases hmin : s.minVruntime < vruntimeOffsetThreshold
  · rw [if_pos hmin]
    exact h
  rw [if_neg hmin]
  have hlt := fun hP => (hsafe hP).resolve_left hmin
  have hoffset := le_vruntimeOffsetThreshold
  generalize vruntimeOffsetThreshold = offset at *
  have hword : ∀ id ∈ inorder s.root, (s.get id).deadline < 2 ^ 64 := by
    intro id hid
    obtain ⟨se, hse, -⟩ := h.entity hid
    rw [Eevdf.get_eq hse]
    exact h.word id se hse
  obtain ⟨m, a, heq⟩ := wrapVruntimeBy_eq offset h.nodup h.current_mem
  rw [heq]
  refine ⟨⟨h.nodup, fun j => ?_, ?_⟩, h.current_mem, fun t j hj => ?_, h.handle_inj, h.avgLoad,
    fun j se hse => ?_⟩
  · by_cases hj : j ∈ inorder s.root
    · obtain ⟨se, hse, hrq⟩ := h.entity hj
      have hk := SchedEntity.onRq_of_kept (kept_wrapped offset s j)
      rw [Eevdf.get_eq hse, hrq] at hk
      simp [hj, hk]
    · simp [hj, ← h.mem_iff]
  · intro hP
    refine (h.sorted hP).imp_of_mem fun {x y} hx hy hxy => ?_
    simp only [Eevdf.get, hx, hy, if_true, getD_some]
    rw [deadline_wrapped hoffset (hlt hP x hx) (hword x hx),
      deadline_wrapped hoffset (hlt hP y hy) (hword y hy)]
    exact Nat.sub_le_sub_right hxy _
  · obtain ⟨se, hse⟩ := h.handle t j hj
    by_cases hj : j ∈ inorder s.root
    · exact ⟨wrapped offset s j, if_pos hj⟩
    · exact ⟨se, (if_neg hj).trans hse⟩
  · by_cases hj : j ∈ inorder s.root
    · have : se = wrapped offset s j := by simpa [hj, eq_comm] using hse
      rw [this]
      exact deadline_wrapped_lt offset (hword j hj)
    · exact h.word j se (by simpa [hj] using hse)

theorem EevdfInv.settle (h : EevdfInv P s) (now : ℕ) :
    ∃ passed s', settleCurrentTask s now = some (passed, s') ∧ EevdfInv P s' ∧
      s'.current = s.current ∧ (inorder s.root ≠ [] → inorder s'.root ≠ []) := by
  cases hcur : s.current with
  | none => exact ⟨false, s, by rw [settleCurrentTask, hcur], h, hcur, id⟩
  | some c =>
    obtain ⟨se, hse, hrq⟩ := h.entity (h.current_mem c hcur)
    obtain ⟨passed, m, a, se', hkept, hword, hcase⟩ := settleCurrentTask_cases now hcur hse
    have hrq' : se'.onRq = se.onRq := by
      rw [SchedEntity.onRq_of_kept hkept]
      exact congrArg Prod.fst (kept_updateCurrSe se now)
    have ht := h.atTime m a
    rcases hcase with ⟨hrun, hd⟩ | hrun
    · exact ⟨passed, _, hrun, ht.set hse hrq' hd, hcur, id⟩
    · obtain ⟨root, hroot, hinv⟩ := ht.requeue (h.current_mem c hcur) (hrq'.trans hrq)
        (hword (h.word c se hse))
      refine ⟨passed, _, by rw [hrun, hroot]; rfl, hinv, hcur, fun _ => ?_⟩
      exact ne_nil_of_mem (hinv.current_mem c hcur)

theorem EevdfInv.pick (h : EevdfInv P s) {now : ℕ} (now' : ℕ) (hne : inorder s.root ≠ [])
    (hsafe : P → ∀ x ∈ settleCurrentTask s now, x.1 = true → WrapSafe x.2) :
    ∃ s' t, eevdfPickNextTask s now now' = some (s', t) ∧ EevdfInv P s' := by
  obtain ⟨passed, s1, hsettle, h1, -, hne'⟩ := h.settle now
  -- after a wrap the tree is the same
  have hwrap : ∃ s2, updateCurrentTask s now = some s2 ∧ EevdfInv P s2 ∧ s2.root = s1.root := by
    unfold updateCurrentTask
    rw [hsettle]
    cases passed with
    | false => exact ⟨s1, rfl, h1, rfl⟩
    | true =>
      refine ⟨_, rfl, h1.wrapVruntime fun hP => hsafe hP _ hsettle rfl, ?_⟩
      change (CoolPotOS.wrapVruntime s1).root = s1.root
      unfold CoolPotOS.wrapVruntime
      split
      · rfl
      · obtain ⟨m, a, heq⟩ := wrapVruntimeBy_eq vruntimeOffsetThreshold h1.nodup h1.current_mem
        rw [heq]
  obtain ⟨s2, hupdate, h2, hroot⟩ := hwrap
  obtain ⟨c, hc⟩ := pickEevdf_isSome h2.avgLoad (hroot ▸ hne' hne)
  have hmem := pickEevdf_mem h2.avgLoad h2.current_mem hc
  obtain ⟨se, hse, -⟩ := h2.entity hmem
  have hset : EevdfInv P (s2.set c { se with execStart := now' }) := h2.set hse rfl rfl
  refine ⟨(s2.set c { se with execStart := now' }).select (some c), se.thread, ?_,
    ⟨hset.nodup, hset.mem_iff, hset.sorted⟩, ?_, hset.handle,
    hset.handle_inj, hset.avgLoad, hset.word⟩
  · unfold eevdfPickNextTask
    simp only [hupdate, hc, hse, bind_eq_bind, bind_some]
    rfl
  · intro c' hc'
    cases hc'
    exact hmem

/-- The current entity after `remove_sched_entity`, when `root` is left of the tree. -/
def repick (s : Eevdf) (id : ℕ) (root : RbTree.Tree ℕ) : Option ℕ :=
  pickEevdf (((s.withRoot root).set id { s.get id with onRq := false }).select
    (if s.current = some id then none else s.current))

theorem removeSchedEntity_eq (s : Eevdf) (id : ℕ) {root : RbTree.Tree ℕ} (h : erase id s.root = some root) :
    ∃ m a v, removeSchedEntity s id = some ((((s.withRoot root).select (repick s id root)).set id
        { s.get id with onRq := false, minVruntime := v }).atTime m a) := by
  have hdetach : detachSchedEntity s id = some (((s.withRoot root).select (repick s id root)).set id
        { s.get id with onRq := false }) := by
    unfold detachSchedEntity eraseSchedEntity
    rw [h]
    rfl
  generalize ((s.withRoot root).select (repick s id root)) = t at hdetach
  obtain ⟨v, hv⟩ := minVruntimeUpdate_eq (t.set id { s.get id with onRq := false }) id
    (children id s.root)
  rw [Eevdf.get_set, Eevdf.set_set] at hv
  obtain ⟨m, a, hm⟩ := updateMinVruntime_eq (t.set id { s.get id with onRq := false, minVruntime := v })
  refine ⟨m, a, v, ?_⟩
  unfold removeSchedEntity
  rw [hdetach]
  exact congrArg some ((congrArg updateMinVruntime hv).trans hm)

theorem removeSchedEntity_eq_none (h : id ∉ inorder s.root) : removeSchedEntity s id = none := by
  unfold removeSchedEntity detachSchedEntity eraseSchedEntity
  rw [RbTree.erase_eq_none h]
  rfl

theorem EevdfInv.remove (h : EevdfInv P s) (hid : id ∈ inorder s.root) :
    ∃ s' v, removeSchedEntity s id = some s' ∧ EevdfInv P s' ∧ id ∉ inorder s'.root ∧
      s'.entities = (s.set id { s.get id with onRq := false, minVruntime := v }).entities ∧
      s'.schedHandle = s.schedHandle ∧ s'.waitQueue = s.waitQueue := by
  obtain ⟨root, herase, hbut⟩ := h.toRunQueue.erase hid
  obtain ⟨t, ht, hroot⟩ := map_eq_some_iff.mp herase
  obtain rfl : t = root := congrArg Eevdf.root hroot
  obtain ⟨m, a, v, hrun⟩ := removeSchedEntity_eq s id ht
  obtain ⟨se, hse, -⟩ := h.entity hid
  have hnot : id ∉ inorder t := fun hmem => ((hbut.mem_iff id).mp hmem).1 rfl
  refine ⟨_, v, hrun, ?_, hnot, rfl, rfl, rfl⟩
  refine h.of_write id { s.get id with onRq := false, minVruntime := v } ?_ rfl ?_ rfl rfl ?_
  · apply RunQueue.atTime
    have hdet := (hbut.set { s.get id with onRq := false, minVruntime := v }).detached
      (fun x hx => by
        rw [show x = { s.get id with onRq := false, minVruntime := v } by
          simpa [eq_comm] using hx])
    exact ⟨hdet.nodup, hdet.mem_iff, hdet.sorted⟩
  · rw [Eevdf.get_eq hse]
    exact h.word id se hse
  · intro c hc
    -- the new current entity is chosen from what is left of the tree
    refine pickEevdf_mem (s := ((s.withRoot t).set id { s.get id with onRq := false }).select
      (if s.current = some id then none else s.current)) h.avgLoad ?_ hc
    intro c' hc'
    change (if s.current = some id then none else s.current) = some c' at hc'
    split at hc'
    · cases hc'
    · rename_i hne
      rw [Eevdf.select_root, Eevdf.set_root, Eevdf.withRoot_root, hbut.mem_iff, ← h.mem_iff]
      refine ⟨?_, h.current_mem c' hc'⟩
      rintro rfl
      exact hne hc'

theorem EevdfInv.insert (h : EevdfInv P s) (hid : id ∉ inorder s.root) (hrq : se.onRq = true)
    (hword : se.deadline < 2 ^ 64) : EevdfInv P (insertSchedEntity (s.set id se) id) := by
  have hget : (s.set id se).entities id = some se := by simp
  have hok : RunQueue P (insertSchedEntity (s.set id se) id) :=
    ((h.toRunQueue.but hid).set se).inserted hget hrq
  refine h.of_write id se hok rfl hword rfl rfl fun c hc => ?_
  obtain ⟨x, hx, hx'⟩ := h.entity (h.current_mem c hc)
  have hci : c ≠ id := fun hci => hid (hci ▸ h.current_mem c hc)
  rw [hok.mem_iff]
  exact ⟨x, by simpa [insertSchedEntity, hci] using hx, hx'⟩

theorem EevdfInv.withQueue (h : EevdfInv P s) (q : CowList ℕ) (n : ℕ) :
    EevdfInv P { s with waitQueue := q, taskCount := n } :=
  ⟨⟨h.nodup, h.mem_iff, h.sorted⟩, h.current_mem, h.handle, h.handle_inj, h.avgLoad, h.word⟩

theorem setLoadWeight_spec (hlow : maxRtPrio ≤ se.prio) (hhigh : se.prio ≤ niceToPrio 20) :
    ∃ se', setLoadWeight se = some se' ∧ se'.kept = se.kept ∧ se'.deadline = se.deadline := by
  unfold setLoadWeight
  by_cases hidle : se.prio = niceToPrio 20
  · rw [if_pos hidle]
    exact ⟨_, rfl, rfl, rfl⟩
  · have hlt : se.prio - maxRtPrio < 40 := by
      have h20 : niceToPrio 20 = 140 := rfl
      have h100 : maxRtPrio = 100 := rfl
      omega
    rw [if_neg hidle, if_neg (not_lt.mpr hlow),
      List.getElem?_eq_getElem (show _ < schedPrioToWeight.length from hlt),
      List.getElem?_eq_getElem (show _ < schedPrioToWmult.length from hlt)]
    exact ⟨_, rfl, rfl, rfl⟩

theorem newEntity_spec (raw : SchedEntity) (task minVruntime now : ℕ) {prio : ℕ}
    (hlow : maxRtPrio ≤ prio) (hhigh : prio ≤ niceToPrio 20) :
    ∃ se, newEntity raw task prio minVruntime now = some se ∧ se.onRq = true ∧
      se.deadline < 2 ^ 64 ∧ se.sumExecRuntime = raw.sumExecRuntime := by
  obtain ⟨se, hse, hkept, hd⟩ := @setLoadWeight_spec (blankEntity raw prio minVruntime now) hlow hhigh
  have hkept' := (kept_updateDeadline se).trans hkept
  refine ⟨{ (updateDeadline se).2 with thread := task }, by rw [newEntity, hse]; rfl, ?_, ?_, ?_⟩
  · exact congrArg Prod.fst hkept'
  · change (updateDeadline se).2.deadline < 2 ^ 64
    rcases deadline_updateDeadline se with h | h
    · rw [h.2, hd]
      exact Nat.two_pow_pos 64
    · exact h.2
  · exact congrArg (fun x => x.2.2.2) hkept'

theorem EevdfInv.free (h : EevdfInv P s) (hid : id ∉ inorder s.root) {t : ℕ}
    (hhandle : s.schedHandle t = some id) (n : ℕ) :
    EevdfInv P { s with
      entities := Function.update s.entities id none
      schedHandle := Function.update s.schedHandle t none
      taskCount := n } := by
  have hne : ∀ j ∈ inorder s.root, j ≠ id := fun j hj hji => hid (hji ▸ hj)
  refine ⟨⟨h.nodup, fun j => ?_, ?_⟩, h.current_mem, fun t' j hj => ?_, fun t1 t2 j h1 h2 => ?_,
    h.avgLoad, fun j x hx => ?_⟩
  · by_cases hj : j = id
    · simp [hj, hid]
    · simp [hj, h.mem_iff]
  · intro hP
    refine (h.sorted hP).imp_of_mem fun {x y} hx hy hxy => ?_
    simpa [Eevdf.get, hne x hx, hne y hy] using hxy
  · by_cases ht : t' = t
    · simp [ht] at hj
    · have hj' : s.schedHandle t' = some j := by simpa [ht] using hj
      have hji : j ≠ id := fun hji => ht (h.handle_inj t' t j hj' (hji ▸ hhandle))
      obtain ⟨x, hx⟩ := h.handle t' j hj'
      exact ⟨x, by simpa [hji] using hx⟩
  · by_cases ht1 : t1 = t
    · simp [ht1] at h1
    · by_cases ht2 : t2 = t
      · simp [ht2] at h2
      · exact h.handle_inj t1 t2 j (by simpa [ht1] using h1) (by simpa [ht2] using h2)
  · by_cases hj : j = id
    · simp [hj] at hx
    · exact h.word j x (by simpa [hj] using hx)

end Steps

end CoolPotOS
