import CoolPotOS.Task.Rrs

namespace CoolPotOS

open Function List

/-- What holds of the run queues between the operations. -/
structure RrsInv (s : System) : Prop where
  fresh : s.Fresh
  idle_lt : ∀ cpu, (s.rrs cpu).idle < s.allocated
  head : ∀ cpu, (s.rrs cpu).schedQueue.head? = some (s.rrs cpu).idle
  nodup : ∀ cpu, (s.rrs cpu).schedQueue.Nodup
  queued : ∀ cpu, ∀ id ∈ (s.rrs cpu).schedQueue, id = (s.rrs cpu).idle ∨
    (s.tcb (s.entities id).thread).schedHandle = some id ∧
      (s.tcb (s.entities id).thread).cpuId = cpu
  handle : ∀ t id, (s.tcb t).schedHandle = some id →
    s.entities id = ⟨t, true⟩ ∧ id < s.allocated ∧ ∀ cpu, id ≠ (s.rrs cpu).idle

namespace RrsInv

variable {s s' : System} {thread : ℕ}

theorem congr (h : RrsInv s) (hent : s'.entities = s.entities) (hall : s'.allocated = s.allocated)
    (hrrs : ∀ cpu, (s'.rrs cpu).schedQueue = (s.rrs cpu).schedQueue ∧ (s'.rrs cpu).idle = (s.rrs cpu).idle)
    (htcb : ∀ t, (s'.tcb t).schedHandle = (s.tcb t).schedHandle ∧
      ((s.tcb t).schedHandle ≠ none → (s'.tcb t).cpuId = (s.tcb t).cpuId)) : RrsInv s' where
  fresh := by
    intro cpu id hid
    rw [(hrrs cpu).1] at hid
    rw [hall]
    exact h.fresh cpu id hid
  idle_lt := by
    intro cpu
    rw [(hrrs cpu).2, hall]
    exact h.idle_lt cpu
  head := by
    intro cpu
    rw [(hrrs cpu).1, (hrrs cpu).2]
    exact h.head cpu
  nodup := by
    intro cpu
    rw [(hrrs cpu).1]
    exact h.nodup cpu
  queued := by
    intro cpu id hid
    rw [(hrrs cpu).1] at hid
    rw [(hrrs cpu).2, hent]
    refine (h.queued cpu id hid).imp_right fun hold => ?_
    obtain ⟨hhandle, hcpu⟩ := htcb (s.entities id).thread
    refine ⟨hhandle.trans hold.1, (hcpu ?_).trans hold.2⟩
    rw [hold.1]
    exact Option.some_ne_none id
  handle := by
    intro t id ht
    rw [(htcb t).1] at ht
    rw [hent, hall]
    refine ⟨(h.handle t id ht).1, (h.handle t id ht).2.1, fun cpu => ?_⟩
    rw [(hrrs cpu).2]
    exact (h.handle t id ht).2.2 cpu

theorem enqueue (h : RrsInv s) (hoff : (s.tcb thread).schedHandle = none) :
    RrsInv (enqueueRrsEntity s thread true) := by
  have hidle : ∀ cpu, ((enqueueRrsEntity s thread true).rrs cpu).idle = (s.rrs cpu).idle := by
    intro cpu
    by_cases hcpu : cpu = (s.tcb thread).cpuId
    · simp [enqueueRrsEntity, hcpu]
    · simp [enqueueRrsEntity, hcpu]
  have hqueue : ∀ cpu, ((enqueueRrsEntity s thread true).rrs cpu).schedQueue =
      if cpu = (s.tcb thread).cpuId then (s.rrs cpu).schedQueue ++ [s.allocated]
      else (s.rrs cpu).schedQueue := by
    intro cpu
    by_cases hcpu : cpu = (s.tcb thread).cpuId
    · simp [enqueueRrsEntity, hcpu]
    · simp [enqueueRrsEntity, hcpu]
  refine ⟨fresh_enqueue thread h.fresh, fun cpu => ?_, fun cpu => ?_, fun cpu => ?_,
    fun cpu id hid => ?_, fun t id ht => ?_⟩
  · rw [hidle]
    exact (h.idle_lt cpu).trans (Nat.lt_succ_self _)
  · rw [hqueue, hidle]
    split
    · rw [List.head?_append, h.head cpu]
      rfl
    · exact h.head cpu
  · rw [hqueue]
    split
    · refine nodup_append.mpr ⟨h.nodup cpu, nodup_singleton _, fun a ha b hb => ?_⟩
      rw [mem_singleton.mp hb]
      exact (h.fresh cpu a ha).ne
    · exact h.nodup cpu
  · rw [hidle]
    by_cases hnew : id = s.allocated
    · -- the new entity is in the queue of its thread
      right
      have hcpu : cpu = (s.tcb thread).cpuId := by
        by_contra hcpu
        rw [hqueue, if_neg hcpu] at hid
        exact absurd (h.fresh cpu id hid) (by omega)
      simp [enqueueRrsEntity, hnew, hcpu]
    · have hold : id ∈ (s.rrs cpu).schedQueue := by
        rw [hqueue] at hid
        split at hid
        · exact (mem_append.mp hid).resolve_right fun hid => hnew (mem_singleton.mp hid)
        · exact hid
      have hent : (enqueueRrsEntity s thread true).entities id = s.entities id := by
        simp [enqueueRrsEntity, hnew]
      rw [hent]
      refine (h.queued cpu id hold).imp_right fun hq => ?_
      have hne : (s.entities id).thread ≠ thread := by
        intro heq
        rw [heq, hoff] at hq
        cases hq.1
      have htcb : (enqueueRrsEntity s thread true).tcb (s.entities id).thread =
          s.tcb (s.entities id).thread := by
        simp [enqueueRrsEntity, hne]
      rw [htcb]
      exact hq
  · by_cases ht' : t = thread
    · have hid : s.allocated = id := by simpa [enqueueRrsEntity, ht'] using ht
      subst hid
      refine ⟨by simp [enqueueRrsEntity, ht'], Nat.lt_succ_self _, fun cpu => ?_⟩
      rw [hidle]
      exact (h.idle_lt cpu).ne'
    · have hold : (s.tcb t).schedHandle = some id := by
        simpa [enqueueRrsEntity, ht'] using ht
      obtain ⟨hent, hlt, hnot⟩ := h.handle t id hold
      refine ⟨?_, hlt.trans (Nat.lt_succ_self _), fun cpu => ?_⟩
      · simpa [enqueueRrsEntity, hlt.ne] using hent
      · rw [hidle]
        exact hnot cpu

theorem notMem_runQueue (h : RrsInv s) (hoff : (s.tcb thread).schedHandle = none)
    (hidle : ∀ cpu, (s.entities (s.rrs cpu).idle).thread ≠ thread) (cpu : ℕ) : thread ∉ s.runQueue cpu := by
  intro hmem
  obtain ⟨id, hid, hthread⟩ := mem_map.mp hmem
  rcases h.queued cpu id hid with rfl | hq
  · exact hidle cpu hthread
  · rw [hthread, hoff] at hq
    cases hq.1

theorem remove (h : RrsInv s) : RrsInv (removeRrsEntity s thread) := by
  unfold removeRrsEntity
  split
  · exact h
  rename_i id hid
  obtain ⟨hent, -, hnot⟩ := h.handle thread id hid
  have hnode : (s.entities id).node = true := by rw [hent]
  simp only [hnode, if_true]
  -- the queues of the other processors do not hold the entity
  have hqueue : ∀ cpu, (update s.rrs (s.tcb thread).cpuId { s.rrs (s.tcb thread).cpuId with
        schedQueue := (s.rrs (s.tcb thread).cpuId).schedQueue.erase id
        curr := if (s.rrs (s.tcb thread).cpuId).curr = id then (s.rrs (s.tcb thread).cpuId).idle
          else (s.rrs (s.tcb thread).cpuId).curr } cpu).schedQueue =
        (s.rrs cpu).schedQueue.erase id := by
    intro cpu
    by_cases hcpu : cpu = (s.tcb thread).cpuId
    · rw [hcpu, update_self]
    · rw [update_of_ne hcpu, erase_of_not_mem]
      intro hmem
      rcases h.queued cpu id hmem with hi | hq
      · exact hnot cpu hi
      · rw [hent] at hq
        exact hcpu hq.2.symm
  have hidle : ∀ cpu, (update s.rrs (s.tcb thread).cpuId { s.rrs (s.tcb thread).cpuId with
        schedQueue := (s.rrs (s.tcb thread).cpuId).schedQueue.erase id
        curr := if (s.rrs (s.tcb thread).cpuId).curr = id then (s.rrs (s.tcb thread).cpuId).idle
          else (s.rrs (s.tcb thread).cpuId).curr } cpu).idle = (s.rrs cpu).idle := by
    intro cpu
    by_cases hcpu : cpu = (s.tcb thread).cpuId
    · rw [hcpu, update_self]
    · rw [update_of_ne hcpu]
  refine ⟨fun cpu j hj => ?_, fun cpu => ?_, fun cpu => ?_, fun cpu => ?_, fun cpu j hj => ?_,
    fun t j hj => ?_⟩
  · rw [hqueue] at hj
    exact h.fresh cpu j (mem_of_mem_erase hj)
  · rw [hidle]
    exact h.idle_lt cpu
  · rw [hqueue, hidle]
    have hhead := h.head cpu
    cases hq : (s.rrs cpu).schedQueue with
    | nil =>
      rw [hq] at hhead
      cases hhead
    | cons x l =>
      rw [hq] at hhead
      have hx : x ≠ id := by
        rw [Option.some.inj hhead]
        exact (hnot cpu).symm
      rw [erase_cons_tail (by simpa using hx)]
      exact hhead
  · rw [hqueue]
    exact (h.nodup cpu).erase id
  · rw [hqueue] at hj
    rw [hidle]
    obtain ⟨hji, hj⟩ := (h.nodup cpu).mem_erase_iff.mp hj
    refine (h.queued cpu j hj).imp_right fun hq => ?_
    have hne : (s.entities j).thread ≠ thread := by
      intro heq
      rw [heq, hid] at hq
      exact hji (Option.some.inj hq.1).symm
    dsimp only
    rw [update_of_ne hne]
    exact hq
  · by_cases ht : t = thread
    · simp [ht] at hj
    · dsimp only at hj
      rw [update_of_ne ht] at hj
      obtain ⟨hentj, hlt, hnotj⟩ := h.handle t j hj
      refine ⟨hentj, hlt, fun cpu => ?_⟩
      rw [hidle]
      exact hnotj cpu

end RrsInv

@[simp]
theorem schedHandle_removeRrsEntity (s : System) (thread : ℕ) :
    ((removeRrsEntity s thread).tcb thread).schedHandle = none := by
  unfold removeRrsEntity
  split
  · assumption
  · simp

theorem removeRrsEntity_frame (s : System) (thread : ℕ) : (removeRrsEntity s thread).sleepList = s.sleepList ∧
      (removeRrsEntity s thread).futexMap = s.futexMap ∧ (removeRrsEntity s thread).entities = s.entities ∧
      (∀ cpu, ((removeRrsEntity s thread).rrs cpu).idle = (s.rrs cpu).idle) ∧
      ∀ t, t ≠ thread → (removeRrsEntity s thread).tcb t = s.tcb t := by
  unfold removeRrsEntity
  split
  · exact ⟨rfl, rfl, rfl, fun _ => rfl, fun _ _ => rfl⟩
  · refine ⟨rfl, rfl, rfl, fun cpu => ?_, fun t ht => ?_⟩
    · by_cases hcpu : cpu = (s.tcb thread).cpuId
      · simp [hcpu]
      · simp [hcpu]
    · simp [ht]

theorem mem_of_nextEntity {queue : List ℕ} {id next : ℕ} (h : nextEntity queue id = some next) :
    next ∈ queue := by
  have hmem := List.mem_of_mem_head? h
  exact dropWhile_subset _ (mem_of_mem_tail hmem)

theorem rrsResche_spec {r : Rrs} {rest : List ℕ} (hqueue : r.schedQueue = r.idle :: rest)
    (hnodup : r.schedQueue.Nodup) (hrest : rest ≠ []) (fuel : ℕ) :
    ∃ next, rrsResche (fuel + 2) r = some ({ r with curr := next }, next) ∧
      next ∈ r.schedQueue ∧ next ≠ r.idle := by
  unfold rrsResche
  by_cases hnext : (nextEntity r.schedQueue r.curr).getD r.idle = r.idle
  · -- after the idle entity comes the first one of the rest
    obtain ⟨first, tail, rfl⟩ := exists_cons_of_ne_nil hrest
    have hfirst : nextEntity r.schedQueue r.idle = some first := by
      rw [hqueue]
      simp [nextEntity]
    have hne : first ≠ r.idle := by
      rintro rfl
      rw [hqueue] at hnodup
      simp at hnodup
    refine ⟨first, ?_, by simp [hqueue], hne⟩
    simp only [hnext, if_true]
    unfold rrsResche
    simp only [hfirst, Option.getD_some, if_neg hne]
  · simp only [if_neg hnext]
    refine ⟨_, rfl, ?_, hnext⟩
    cases hn : nextEntity r.schedQueue r.curr with
    | none => simp [hn] at hnext
    | some next => exact mem_of_nextEntity hn

theorem rrsPickNextTask_spec {s : System} (h : RrsInv s) (cpu : ℕ) :
    ∃ curr t, rrsPickNextTask s cpu = some ({ s with
        rrs := update s.rrs cpu { s.rrs cpu with curr := curr } }, t) ∧
      t ∈ s.runQueue cpu := by
  have hhead := h.head cpu
  obtain ⟨rest, hqueue⟩ : ∃ rest, (s.rrs cpu).schedQueue = (s.rrs cpu).idle :: rest := by
    cases hq : (s.rrs cpu).schedQueue with
    | nil =>
      rw [hq] at hhead
      cases hhead
    | cons x l =>
      rw [hq] at hhead
      exact ⟨l, by rw [← Option.some.inj hhead]⟩
  unfold rrsPickNextTask
  by_cases hone : (s.rrs cpu).schedQueue.length = 1
  · refine ⟨(s.rrs cpu).curr, (s.entities (s.rrs cpu).idle).thread, ?_, ?_⟩
    · simp only [if_pos hone, update_eq_self]
    · apply mem_map_of_mem
      simp [hqueue]
  · have hrest : rest ≠ [] := by
      rintro rfl
      exact hone (by rw [hqueue]; rfl)
    have hlen : (s.rrs cpu).schedQueue.length + 1 = rest.length + 2 := by
      rw [hqueue, length_cons]
    obtain ⟨next, hrun, hmem, -⟩ := rrsResche_spec hqueue (h.nodup cpu) hrest rest.length
    refine ⟨next, (s.entities next).thread, ?_, mem_map_of_mem hmem⟩
    simp only [if_neg hone, hlen, hrun, Option.map_some]

end CoolPotOS
