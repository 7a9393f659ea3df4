import CoolPotOS.Task.Futex

namespace CoolPotOS

open List Option

def queueAt (m : HashMap (CowList ℕ)) (addr : ℕ) : List (Option ℕ) :=
  ((mapGet m addr).map CowList.toList).getD []

theorem queueAt_of_get {m : HashMap (CowList ℕ)} {addr : ℕ} {queue : CowList ℕ}
    (h : mapGet m addr = some queue) : queueAt m addr = queue.toList := by
  simp [queueAt, h]

theorem queueAt_of_none {m : HashMap (CowList ℕ)} {addr : ℕ} (h : mapGet m addr = none) :
    queueAt m addr = [] := by
  simp [queueAt, h]

theorem CowList.toList_eq_nil {α : Type*} {list : CowList α} (h : list.size = 0) : list.toList = [] :=
  eq_nil_of_length_eq_zero (by simpa using h)

theorem queueAt_replace {m : HashMap (CowList ℕ)} {addr : ℕ} (h : mapGet m addr ≠ none)
    (queue : CowList ℕ) (a : ℕ) :
    queueAt (mapReplace m addr queue) a = if a = addr then queue.toList else queueAt m a := by
  unfold queueAt
  rw [mapGet_replace h]
  split <;> rfl

theorem queueAt_storeQueue {m : HashMap (CowList ℕ)} {addr : ℕ} (h : mapGet m addr ≠ none)
    (queue : CowList ℕ) (a : ℕ) :
    queueAt (storeQueue m addr queue) a = if a = addr then queue.toList else queueAt m a := by
  unfold storeQueue
  split
  · rename_i hsize
    unfold queueAt
    rw [mapGet_remove]
    split
    · rw [CowList.toList_eq_nil hsize]
      rfl
    · rfl
  · exact queueAt_replace h queue a

def wakeThread (s : System) (thread : ℕ) : System :=
  enqueueRrsEntity (s.setTcb thread { s.tcb thread with status := .start }) thread true

def wakeAll (s : System) (threads : List ℕ) : System := threads.foldl wakeThread s

theorem futexStart_eq (s : System) (thread : ℕ) {heap : List Bool} (h : false ∉ heap) :
    ∃ heap', futexStart s thread heap = some (wakeThread s thread, heap') ∧ false ∉ heap' :=
  addRrsEntity_eq (s.setTcb thread { s.tcb thread with status := .start }) thread h

section WakeThread

variable (s : System) (thread : ℕ)

theorem tcb_wakeThread_of_ne {t : ℕ} (h : t ≠ thread) : (wakeThread s thread).tcb t = s.tcb t := by
  simp [wakeThread, enqueueRrsEntity, h]

theorem tcb_wakeThread_self : (wakeThread s thread).tcb thread =
    { s.tcb thread with status := .start, schedHandle := some s.allocated } := by
  simp [wakeThread, enqueueRrsEntity]

theorem cpuId_wakeThread (t : ℕ) : ((wakeThread s thread).tcb t).cpuId = (s.tcb t).cpuId := by
  by_cases h : t = thread
  · rw [h, tcb_wakeThread_self]
  · rw [tcb_wakeThread_of_ne s thread h]

theorem fresh_wakeThread {s : System} (h : s.Fresh) : (wakeThread s thread).Fresh := fresh_enqueue thread h

theorem runQueue_wakeThread {s : System} (h : s.Fresh) (cpu : ℕ) : (wakeThread s thread).runQueue cpu =
      if (s.tcb thread).cpuId = cpu then s.runQueue cpu ++ [thread] else s.runQueue cpu := by
  have hsame : (s.setTcb thread { s.tcb thread with status := .start }).Fresh := h
  refine (runQueue_enqueue thread hsame cpu).trans ?_
  simp [System.runQueue]

end WakeThread

theorem wakeAll_spec {s : System} (hfresh : s.Fresh) (threads : List ℕ) : (wakeAll s threads).Fresh ∧
      (∀ cpu, (wakeAll s threads).runQueue cpu =
        s.runQueue cpu ++ threads.filter fun t => (s.tcb t).cpuId = cpu) ∧
      (∀ t ∈ threads, ((wakeAll s threads).tcb t).status = .start) ∧
      ∀ t, t ∉ threads → (wakeAll s threads).tcb t = s.tcb t := by
  induction threads generalizing s with
  | nil => exact ⟨hfresh, by simp [wakeAll], by simp, fun _ _ => rfl⟩
  | cons thread threads ih =>
    obtain ⟨hfresh', hqueue, hstart, hother⟩ := ih (fresh_wakeThread thread hfresh)
    refine ⟨hfresh', fun cpu => ?_, fun t ht => ?_, fun t ht => ?_⟩
    · refine (hqueue cpu).trans ?_
      simp only [cpuId_wakeThread]
      rw [runQueue_wakeThread thread hfresh, filter_cons]
      by_cases hcpu : (s.tcb thread).cpuId = cpu
      · simp [hcpu]
      · simp [hcpu]
    · by_cases hmem : t ∈ threads
      · exact hstart t hmem
      · obtain rfl : t = thread := (mem_cons.mp ht).resolve_right hmem
        refine (congrArg Tcb.status (hother t hmem)).trans ?_
        rw [tcb_wakeThread_self]
    · rw [mem_cons, not_or] at ht
      exact (hother t ht.2).trans (tcb_wakeThread_of_ne s thread ht.1)

theorem futexMap_wakeAll (s : System) (threads : List ℕ) : (wakeAll s threads).futexMap = s.futexMap := by
  induction threads generalizing s with
  | nil => rfl
  | cons thread threads ih => exact ih (wakeThread s thread)

theorem cowListGet_zero {queue : CowList ℕ} {t : ℕ} {ids : List ℕ}
    (h : queue.toList = (t :: ids).map some) : cowListGet queue 0 = some t := by
  rw [CowList.get_eq, h]
  rfl

theorem futexWakeLoop_spec {queue : CowList ℕ} {ids : List ℕ} {heap : List Bool}
    (count : ℕ) (s : System) (woken fuel : ℕ) (hqueue : queue.toList = ids.map some) (hheap : false ∉ heap)
    (hfuel : min (count - woken) ids.length ≤ fuel) :
    ∃ queue' heap', futexWakeLoop count fuel s queue 0 woken heap =
        some (wakeAll s (ids.take (count - woken)), queue', woken + min (count - woken) ids.length, heap') ∧
      queue'.toList = (ids.drop (count - woken)).map some ∧ false ∉ heap' := by
  have hsize : queue.size = ids.length := by
    rw [← queue.length_toList, hqueue, length_map]
  induction fuel generalizing s queue ids woken heap with
  | zero =>
    have hzero : min (count - woken) ids.length = 0 := Nat.le_zero.mp hfuel
    refine ⟨queue, heap, ?_, ?_, hheap⟩
    · have htake : ids.take (count - woken) = [] := by
        apply eq_nil_of_length_eq_zero
        rw [length_take, hzero]
      rw [htake, hzero]
      rfl
    · rcases Nat.min_eq_zero_iff.mp hzero with h | h
      · rw [h, hqueue, drop_zero]
      · rw [hqueue, eq_nil_of_length_eq_zero h, drop_nil]
  | succ fuel ih =>
    unfold futexWakeLoop
    by_cases hgo : 0 < queue.size ∧ woken < count
    · rw [if_pos hgo]
      cases ids with
      | nil =>
        rw [hsize] at hgo
        exact absurd hgo.1 (lt_irrefl _)
      | cons t ids =>
        obtain ⟨queue1, heap1, hremove, hlist1, hheap1⟩ := cowListRemove_spec queue hgo.1 hheap
        obtain ⟨heap2, hstart, hheap2⟩ := futexStart_eq s t hheap1
        have hlist : queue1.toList = ids.map some := by
          rw [hlist1, hqueue]
          rfl
        have hn : count - woken = (count - (woken + 1)) + 1 := by omega
        obtain ⟨queue', heap', hloop, hlist', hheap'⟩ := ih (wakeThread s t) (woken + 1) hlist hheap2
          (by rw [hn, length_cons] at hfuel; omega)
          (by rw [← queue1.length_toList, hlist, length_map])
        refine ⟨queue', heap', ?_, ?_, hheap'⟩
        · simp only [cowListGet_zero hqueue, hremove, hstart, bind_eq_bind, bind_some]
          rw [hloop, hn, take_succ_cons, length_cons]
          have hmin : woken + 1 + min (count - (woken + 1)) ids.length =
              woken + min (count - (woken + 1) + 1) (ids.length + 1) := by omega
          rw [hmin]
          rfl
        · rw [hlist', hn, drop_succ_cons]
    · rw [if_neg hgo]
      have hzero : count - woken = 0 ∨ ids = [] := by
        by_cases hids : ids = []
        · exact .inr hids
        · left
          have := length_pos_iff.mpr hids
          omega
      refine ⟨queue, heap, ?_, ?_, hheap⟩
      · rcases hzero with h | h
        · rw [h]
          simp [wakeAll]
        · rw [h]
          simp [wakeAll]
      · rcases hzero with h | h
        · rw [h, hqueue, drop_zero]
        · rw [hqueue, h, drop_nil]

theorem futexWake_spec (s : System) {addr : ℕ} {ids : List ℕ} (count : ℤ) {heap : List Bool}
    (hqueue : queueAt s.futexMap addr = ids.map some) (hheap : false ∉ heap) :
    ∃ m heap', futexWake s addr count heap = some ({ wakeAll s (ids.take count.toNat) with futexMap := m },
          min count.toNat ids.length, heap') ∧ false ∉ heap' ∧
      ∀ a, queueAt m a =
        if a = addr then (ids.drop count.toNat).map some else queueAt s.futexMap a := by
  -- nobody waits, or nobody is to be woken
  have hnone : ids.take count.toNat = [] → ∃ m heap', some (s, 0, heap) =
      some (({ wakeAll s (ids.take count.toNat) with futexMap := m } : System),
          min count.toNat ids.length, heap') ∧ false ∉ heap' ∧
      ∀ a, queueAt m a =
        if a = addr then (ids.drop count.toNat).map some else queueAt s.futexMap a := by
    intro htake
    refine ⟨s.futexMap, heap, ?_, hheap, fun a => ?_⟩
    · rw [← length_take, htake]
      rfl
    · split
      · rename_i ha
        rw [ha, hqueue]
        congr 1
        simpa [htake] using (take_append_drop count.toNat ids).symm
      · rfl
  unfold futexWake
  cases hget : mapGet s.futexMap addr with
  | none =>
    rw [queueAt_of_none hget] at hqueue
    exact hnone (by simp [map_eq_nil_iff.mp hqueue.symm])
  | some queue =>
    by_cases hcount : count ≤ 0
    · simp only [if_pos hcount]
      exact hnone (by simp [Int.toNat_of_nonpos hcount])
    · simp only [if_neg hcount]
      have hlist : queue.toList = ids.map some := (queueAt_of_get hget).symm.trans hqueue
      obtain ⟨queue', heap', hloop, hlist', hheap'⟩ := futexWakeLoop_spec count.toNat s 0
        (queue.size + count.toNat) hlist hheap (by omega)
      rw [Nat.sub_zero, Nat.zero_add] at hloop
      rw [hloop]
      refine ⟨storeQueue s.futexMap addr queue', heap', ?_, hheap', fun a => ?_⟩
      · have hmap : (wakeAll s (ids.take count.toNat)).futexMap = s.futexMap := futexMap_wakeAll s _
        simp only [bind_eq_bind, bind_some, Option.pure_def, hmap]
      · rw [queueAt_storeQueue (by rw [hget]; simp), hlist', Nat.sub_zero]

@[simp]
theorem futexMap_removeRrsEntity (s : System) (thread : ℕ) :
    (removeRrsEntity s thread).futexMap = s.futexMap := by
  unfold removeRrsEntity
  split <;> rfl

theorem cowListCreate_spec {α : Type*} {heap : List Bool} (h : false ∉ heap) :
    ∃ heap', cowListCreate heap = (some (CowList.empty : CowList α), heap') ∧ false ∉ heap' := by
  obtain ⟨heap1, hmalloc1, h1⟩ := malloc_of_ok h
  obtain ⟨heap2, hmalloc2, h2⟩ := malloc_of_ok h1
  refine ⟨heap2, ?_, h2⟩
  unfold cowListCreate
  rw [hmalloc1]
  simp only [hmalloc2]

theorem futexQueue_spec (m : HashMap (CowList ℕ)) (addr : ℕ) {heap : List Bool} (h : false ∉ heap) :
    ∃ m' queue heap', futexQueue m addr heap = some (m', queue, heap') ∧ false ∉ heap' ∧
      queue.toList = queueAt m addr ∧ mapGet m' addr ≠ none ∧ ∀ a, a ≠ addr → queueAt m' a = queueAt m a := by
  unfold futexQueue
  cases hget : mapGet m addr with
  | some queue =>
    exact ⟨m, queue, heap, rfl, h, (queueAt_of_get hget).symm, by rw [hget]; simp, fun _ _ => rfl⟩
  | none =>
    obtain ⟨heap1, hcreate, h1⟩ := @cowListCreate_spec ℕ heap h
    obtain ⟨m', heap2, hset, h2, hget'⟩ := mapSet_spec m addr (CowList.empty : CowList ℕ) h1
    refine ⟨m', CowList.empty, heap2, ?_, h2, ?_, ?_, fun a ha => ?_⟩
    · simp only [hcreate, hset, map_some]
    · rw [queueAt_of_none hget, CowList.toList_empty]
    · rw [hget', if_pos rfl]
      simp
    · unfold queueAt
      rw [hget', if_neg ha]

theorem futexAdd_spec (s : System) (addr thread : ℕ) {heap : List Bool} (h : false ∉ heap) :
    ∃ m index heap', futexAdd s addr thread heap =
        some (removeRrsEntity (({ s with futexMap := m } : System).setTcb thread
          { s.tcb thread with futexIndex := index }) thread, heap') ∧ false ∉ heap' ∧
      ∀ a, queueAt m a = if a = addr then queueAt s.futexMap addr ++ [some thread]
        else queueAt s.futexMap a := by
  obtain ⟨m, queue, heap1, hqueue, h1, hlist, hkey, hother⟩ := futexQueue_spec s.futexMap addr h
  obtain ⟨queue', heap2, hadd, hlist', h2⟩ := cowListAdd_spec queue thread h1
  refine ⟨mapReplace m addr queue', queue.size, heap2, ?_, h2, fun a => ?_⟩
  · unfold futexAdd
    simp only [hqueue, hadd, bind_eq_bind, bind_some, Option.pure_def]
  · rw [queueAt_replace hkey]
    split
    · rw [hlist', hlist]
    · rename_i ha
      exact hother a ha

theorem futexLeave_spec (s : System) (thread : ℕ) {addr index : ℕ} {queue : CowList ℕ} {heap : List Bool}
    (hget : mapGet s.futexMap addr = some queue) (hindex : index < queue.size)
    (hheap : false ∉ heap) :
    ∃ m heap', futexLeave s addr thread index queue heap =
        some ({ (if (s.tcb thread).status = .futex then wakeThread s thread else s) with
          futexMap := m }, heap') ∧ false ∉ heap' ∧
      ∀ a, queueAt m a =
        if a = addr then queue.toList.eraseIdx index else queueAt s.futexMap a := by
  obtain ⟨queue', heap1, hremove, hlist, h1⟩ := cowListRemove_spec queue hindex hheap
  obtain ⟨heap2, hstart, h2⟩ := futexStart_eq s thread h1
  have hstore : ∀ a, queueAt (storeQueue s.futexMap addr queue') a =
      if a = addr then queue.toList.eraseIdx index else queueAt s.futexMap a := by
    intro a
    rw [queueAt_storeQueue (by rw [hget]; simp), hlist]
  unfold futexLeave
  by_cases hstatus : (s.tcb thread).status = .futex
  · refine ⟨storeQueue s.futexMap addr queue', heap2, ?_, h2, hstore⟩
    simp only [hremove, hstatus, if_true, hstart, bind_eq_bind, bind_some, Option.pure_def]
    rfl
  · refine ⟨storeQueue s.futexMap addr queue', heap1, ?_, h1, hstore⟩
    simp only [hremove, hstatus, if_false, bind_eq_bind, bind_some, Option.pure_def]

theorem futexUnblock_spec (s : System) {addr : ℕ} (thread : ℕ) {ids : List ℕ} {heap : List Bool}
    (hqueue : queueAt s.futexMap addr = ids.map some) (hnodup : ids.Nodup) (hheap : false ∉ heap) :
    (thread ∉ ids ∧ futexUnblock s addr thread heap = some (s, false, heap)) ∨
    thread ∈ ids ∧ ∃ m heap', futexUnblock s addr thread heap =
        some ({ (if (s.tcb thread).status = .futex then wakeThread s thread else s) with
          futexMap := m }, true, heap') ∧ false ∉ heap' ∧
      ∀ a, queueAt m a =
        if a = addr then (ids.erase thread).map some else queueAt s.futexMap a := by
  unfold futexUnblock
  cases hget : mapGet s.futexMap addr with
  | none =>
    rw [queueAt_of_none hget] at hqueue
    exact .inl ⟨by simp [map_eq_nil_iff.mp hqueue.symm], rfl⟩
  | some queue =>
    have hlist : queue.toList = ids.map some := (queueAt_of_get hget).symm.trans hqueue
    rcases queue.find_entry thread hlist hnodup with ⟨hnot, hfind⟩ | ⟨hmem, index, hfind, hlt, herase⟩
    · exact .inl ⟨hnot, by simp only [hfind]⟩
    · obtain ⟨m, heap', hleave, hheap', hqueues⟩ := futexLeave_spec s thread hget hlt hheap
      refine .inr ⟨hmem, m, heap', ?_, hheap', fun a => ?_⟩
      · simp only [hfind, hleave, map_some]
      · rw [hqueues a, herase]

theorem futexFreeLoop_spec (thread fuel index : ℕ) (queue : CowList ℕ) {heap : List Bool}
    (hheap : false ∉ heap) (hfuel : queue.size - index ≤ fuel) :
    ∃ queue' heap', futexFreeLoop thread fuel queue index heap = (queue', heap') ∧
      queue'.toList = queue.toList.take index ++
        (queue.toList.drop index).filter (· ≠ some thread) ∧ false ∉ heap' := by
  have hend : ∀ {queue : CowList ℕ} {index : ℕ}, queue.size ≤ index →
      queue.toList = queue.toList.take index ++ (queue.toList.drop index).filter (· ≠ some thread) := by
    intro queue index hle
    rw [take_of_length_le (by simpa using hle), drop_of_length_le (by simpa using hle)]
    simp
  induction fuel generalizing queue index heap with
  | zero => exact ⟨queue, heap, rfl, hend (by omega), hheap⟩
  | succ fuel ih =>
    unfold futexFreeLoop
    by_cases hlt : index < queue.size
    · rw [if_pos hlt]
      have hlen : index < queue.toList.length := by simpa using hlt
      have hsplit : queue.toList.drop index = queue.at index :: queue.toList.drop (index + 1) := by
        rw [← getElem_cons_drop hlen, queue.toList_getElem]
      have hat : cowListGet queue index = queue.at index := if_neg (by omega)
      by_cases hthread : cowListGet queue index = some thread
      · obtain ⟨queue1, heap1, hremove, hlist1, hheap1⟩ := cowListRemove_spec queue hlt hheap
        have hsize1 : queue1.size = queue.size - 1 := by
          rw [← queue1.length_toList, hlist1, length_eraseIdx_of_lt hlen, queue.length_toList]
        obtain ⟨queue', heap', hloop, hlist', hheap'⟩ := ih index queue1 hheap1
          (show queue1.size - index ≤ fuel by omega)
        refine ⟨queue', heap', ?_, ?_, hheap'⟩
        · rw [if_pos hthread]
          simp only [hremove]
          exact hloop
        · have hlen' : (queue.toList.take index).length = index := length_take_of_le hlen.le
          rw [hlist', hlist1, hsplit, filter_cons_of_neg (by simp [← hat, hthread]),
            eraseIdx_eq_take_drop_succ, take_left' hlen', drop_left' hlen']
      · obtain ⟨queue', heap', hloop, hlist', hheap'⟩ := ih (index + 1) queue hheap
          (show queue.size - (index + 1) ≤ fuel by omega)
        refine ⟨queue', heap', ?_, ?_, hheap'⟩
        · rw [if_neg hthread]
          exact hloop
        · rw [hlist', hsplit, filter_cons_of_pos (by simpa [← hat] using hthread),
            take_succ_eq_append_getElem hlen, queue.toList_getElem]
          simp
    · rw [if_neg hlt]
      exact ⟨queue, heap, rfl, hend (by omega), hheap⟩

def dropThread (thread : ℕ) (queue : List (Option ℕ)) : List (Option ℕ) :=
  queue.filter (· ≠ some thread)

theorem futexFreeEntry_spec (thread : ℕ) {m : HashMap (CowList ℕ)} {heap : List Bool}
    {e : ℕ × CowList ℕ} (he : mapGet m e.1 = some e.2) (hheap : false ∉ heap) :
    ∃ m' heap', futexFreeEntry thread (m, heap) e = (m', heap') ∧ false ∉ heap' ∧
      m'.capacity = m.capacity ∧ (∀ k, k ≠ e.1 → mapGet m' k = mapGet m k) ∧
      ∀ a, queueAt m' a = if a = e.1 then dropThread thread (queueAt m a) else queueAt m a := by
  obtain ⟨queue, heap', hloop, hlist, hheap'⟩ := futexFreeLoop_spec thread
    (e.2.size + heap.length) 0 e.2 hheap (by omega)
  refine ⟨storeQueue m e.1 queue, heap', ?_, hheap', ?_, fun k hk => ?_, fun a => ?_⟩
  · unfold futexFreeEntry
    simp only [hloop]
  · unfold storeQueue
    split
    · exact capacity_mapRemove m e.1
    · rfl
  · unfold storeQueue
    split
    · rw [mapGet_remove, if_neg hk]
    · rw [mapGet_replace (by rw [he]; simp), if_neg hk]
  · rw [queueAt_storeQueue (by rw [he]; simp), hlist, take_zero, drop_zero]
    split
    · rename_i ha
      rw [ha, queueAt_of_get he]
      rfl
    · rfl

theorem foldl_futexFreeEntry (thread : ℕ) (chain : List (ℕ × CowList ℕ)) {m : HashMap (CowList ℕ)}
    {heap : List Bool} (hkeys : (chain.map Prod.fst).Nodup)
    (hchain : ∀ e ∈ chain, mapGet m e.1 = some e.2) (hheap : false ∉ heap) :
    ∃ m' heap', chain.foldl (futexFreeEntry thread) (m, heap) = (m', heap') ∧ false ∉ heap' ∧
      m'.capacity = m.capacity ∧ (∀ k, k ∉ chain.map Prod.fst → mapGet m' k = mapGet m k) ∧
      ∀ a, queueAt m' a =
        if a ∈ chain.map Prod.fst then dropThread thread (queueAt m a) else queueAt m a := by
  induction chain generalizing m heap with
  | nil => exact ⟨m, heap, rfl, hheap, rfl, fun _ _ => rfl, fun _ => rfl⟩
  | cons e chain ih =>
    obtain ⟨hnot, hkeys⟩ := nodup_cons.mp hkeys
    obtain ⟨m1, heap1, hentry, hheap1, hcap1, hget1, hqueue1⟩ :=
      futexFreeEntry_spec thread (hchain e mem_cons_self) hheap
    have hchain1 : ∀ e' ∈ chain, mapGet m1 e'.1 = some e'.2 := by
      intro e' he'
      rw [hget1 e'.1 fun h => hnot (h ▸ List.mem_map.mpr ⟨e', he', rfl⟩)]
      exact hchain e' (mem_cons_of_mem _ he')
    obtain ⟨m', heap', hfold, hheap', hcap', hget', hqueue'⟩ := ih hkeys hchain1 hheap1
    refine ⟨m', heap', ?_, hheap', hcap'.trans hcap1, fun k hk => ?_, fun a => ?_⟩
    · rw [foldl_cons, hentry]
      exact hfold
    · rw [map_cons, mem_cons, not_or] at hk
      rw [hget' k hk.2, hget1 k hk.1]
    · rw [hqueue' a, hqueue1 a, map_cons]
      by_cases ha : a = e.1
      · rw [ha, if_neg hnot, if_pos rfl, if_pos mem_cons_self]
      · rw [if_neg ha]
        simp only [mem_cons, ha, false_or]

theorem foldl_futexFreeChain (thread : ℕ) {buckets : List ℕ} (hbuckets : buckets.Nodup)
    {m : HashMap (CowList ℕ)} {heap : List Bool} (hheap : false ∉ heap) :
    ∃ m' heap', buckets.foldl (fun x bucket =>
        (x.1.buckets bucket).foldl (futexFreeEntry thread) x) (m, heap) = (m', heap') ∧
      false ∉ heap' ∧ ∀ a, queueAt m' a =
        if hashPtr a % m.capacity ∈ buckets then dropThread thread (queueAt m a) else queueAt m a := by
  induction buckets generalizing m heap with
  | nil => exact ⟨m, heap, rfl, hheap, fun a => by simp⟩
  | cons b buckets ih =>
    obtain ⟨hb, hbuckets⟩ := nodup_cons.mp hbuckets
    have hchain : ∀ e ∈ m.buckets b, mapGet m e.1 = some e.2 := by
      intro e he
      rw [HashMap.get_eq_some_iff, HashMap.mem_entries, m.placed b e he]
      exact he
    obtain ⟨m1, heap1, hfold1, hheap1, hcap1, -, hqueue1⟩ :=
      foldl_futexFreeEntry thread (m.buckets b) (m.nodup b) hchain hheap
    obtain ⟨m', heap', hfold', hheap', hqueue'⟩ := ih hbuckets (m := m1) hheap1
    refine ⟨m', heap', ?_, hheap', fun a => ?_⟩
    · rw [foldl_cons]
      simp only [hfold1]
      exact hfold'
    · -- a key that is not in its chain has no queue
      have hnone : hashPtr a % m.capacity = b → a ∉ (m.buckets b).map Prod.fst →
          queueAt m a = [] := by
        intro hab hnot
        apply queueAt_of_none
        unfold mapGet
        rw [hab, lookup_eq_none_iff_notMem]
        exact hnot
      have hplace : a ∈ (m.buckets b).map Prod.fst → hashPtr a % m.capacity = b := by
        intro hmem
        obtain ⟨e, he, rfl⟩ := List.mem_map.mp hmem
        exact m.placed b e he
      rw [hqueue' a, hcap1, hqueue1 a]
      by_cases hab : hashPtr a % m.capacity = b
      · rw [hab, if_neg hb, if_pos mem_cons_self]
        split
        · rfl
        · rename_i hnot
          rw [hnone hab hnot]
          rfl
      · rw [if_neg fun hmem => hab (hplace hmem)]
        simp only [mem_cons, hab, false_or]

theorem futexFree_spec (s : System) (thread : ℕ) {heap : List Bool} (h : false ∉ heap) :
    ∃ m heap', futexFree s thread heap = ({ s with futexMap := m }, heap') ∧ false ∉ heap' ∧
      ∀ a, queueAt m a = dropThread thread (queueAt s.futexMap a) := by
  obtain ⟨m, heap', hfold, hheap', hqueue⟩ :=
    foldl_futexFreeChain thread (nodup_range (n := s.futexMap.capacity)) (m := s.futexMap) h
  refine ⟨m, heap', ?_, hheap', fun a => ?_⟩
  · unfold futexFree
    simp only [hfold]
  · rw [hqueue a, if_pos]
    exact mem_range.mpr (Nat.mod_lt _ s.futexMap.capacity_pos)

end CoolPotOS
