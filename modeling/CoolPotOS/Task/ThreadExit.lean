import CoolPotOS.Task.RrsQueue
import CoolPotOS.Task.FutexRun
import CoolPotOS.Task.Scheduler

namespace CoolPotOS

open Function List Option

def System.sleepers (s : System) : List (Option ℕ) := (s.sleepList.map CowList.toList).getD []

/-- The operations on threads. The clock shows `now`, and `pending` tells which threads have
signals. -/
inductive ThreadOp
  | addTask (thread cpu : ℕ) (heap : List Bool)
  | nanoSleep (thread now nano : ℕ) (heap : List Bool)
  | blockCurrent (thread now timeout : ℕ) (heap : List Bool)
  | unblock (thread : ℕ) (code : ℤ) (heap : List Bool)
  | checkSleep (now : ℕ) (pending : ℕ → Bool) (heap : List Bool)
  | futexWait (addr thread : ℕ) (heap : List Bool)
  | futexWake (addr : ℕ) (count : ℤ) (heap : List Bool)
  | futexUnblock (addr thread : ℕ) (heap : List Bool)
  | kill (thread : ℕ) (heap : List Bool)
  | handler (cpu now : ℕ) (pending : ℕ → Bool) (heap : List Bool)

def ThreadOp.run (s : System) : ThreadOp → Option System
  | .addTask thread cpu heap => (schedulerAddTaskCpu s thread cpu heap).map Prod.fst
  | .nanoSleep thread now nano heap => (schedulerNanoSleep s thread now nano heap).map Prod.fst
  | .blockCurrent thread now timeout heap =>
    (schedulerBlockCurrent s thread now timeout heap).map Prod.fst
  | .unblock thread code heap => (schedulerUnblock s thread code heap).map Prod.fst
  | .checkSleep now pending heap => (schedulerCheckSleep s now pending heap).map Prod.fst
  | .futexWait addr thread heap => (CoolPotOS.futexWait s addr thread heap).map Prod.fst
  | .futexWake addr count heap => (CoolPotOS.futexWake s addr count heap).map Prod.fst
  | .futexUnblock addr thread heap => (CoolPotOS.futexUnblock s addr thread heap).map Prod.fst
  | .kill thread heap => (killThread s thread heap).map Prod.fst
  | .handler cpu now pending heap => (schedulerHandler s cpu now pending heap).map Prod.fst

/-- The threads for which `kill_thread` has been carried out. The memory of a dead thread may
become a new thread. -/
def ThreadOp.exited (s : System) (exited : ℕ → Bool) : ThreadOp → ℕ → Bool
  | .addTask thread _ _ => Function.update exited thread false
  | .kill thread _ =>
    if (s.tcb thread).status = .death ∨ (s.tcb thread).status = .out then exited
    else Function.update exited thread true
  | _ => exited

/-- The kernel and the threads that have exited. -/
structure ExitState where
  sys : System
  exited : ℕ → Bool

def ExitState.step (x : ExitState) (op : ThreadOp) : Option ExitState :=
  (op.run x.sys).map fun s => ⟨s, op.exited x.sys x.exited⟩

def System.NotIdle (s : System) (thread : ℕ) : Prop :=
  ∀ cpu, (s.entities (s.rrs cpu).idle).thread ≠ thread

/-- There is memory, a new thread is really new, only threads with an entity start to wait, and a
thread that is killed does not sleep. -/
def ThreadOp.Safe (s : System) : ThreadOp → Prop
  | .addTask thread _ heap => false ∉ heap ∧ (s.tcb thread).schedHandle = none ∧
      some thread ∉ s.sleepers ∧ (∀ a, some thread ∉ queueAt s.futexMap a) ∧ s.NotIdle thread
  | .nanoSleep thread _ _ heap => false ∉ heap ∧ (s.tcb thread).schedHandle ≠ none
  | .blockCurrent thread _ _ heap => false ∉ heap ∧ (s.tcb thread).schedHandle ≠ none
  | .unblock _ _ heap => false ∉ heap
  | .checkSleep _ _ heap => false ∉ heap
  | .futexWait _ thread heap => false ∉ heap ∧ (s.tcb thread).schedHandle ≠ none
  | .futexWake _ _ heap => false ∉ heap
  | .futexUnblock _ _ heap => false ∉ heap
  | .kill thread heap => false ∉ heap ∧ some thread ∉ s.sleepers ∧ s.NotIdle thread
  | .handler _ _ _ heap => false ∉ heap

/-- The threads that sleep, the threads that wait and the threads that have exited are different
ones, and none of them has an entity. -/
structure Parked (s : System) (exited : ℕ → Bool) (sleepers : List ℕ) (waits : ℕ → List ℕ) :
    Prop where
  sleep : s.sleepers = sleepers.map some
  nodup : sleepers.Nodup
  futex : FutexOk ⟨s, waits⟩
  off : ∀ t, t ∈ sleepers ∨ (∃ a, t ∈ waits a) ∨ exited t = true → (s.tcb t).schedHandle = none
  apart : ∀ t ∈ sleepers, ∀ a, t ∉ waits a
  gone : ∀ t, exited t = true → t ∉ sleepers ∧ (∀ a, t ∉ waits a) ∧ s.NotIdle t

structure ExitInv (x : ExitState) : Prop where
  rrs : RrsInv x.sys
  parked : ∃ sleepers waits, Parked x.sys x.exited sleepers waits

section Parked

variable {s s' : System} {exited : ℕ → Bool} {sleepers sleepers' : List ℕ} {waits waits' : ℕ → List ℕ}
  {thread : ℕ}

theorem Parked.mono (h : Parked s exited sleepers waits) (hsleep : s'.sleepers = sleepers'.map some)
    (hsub : sleepers'.Sublist sleepers) (hfutex : ∀ a, queueAt s'.futexMap a = (waits' a).map some)
    (hwaits : ∀ a, (waits' a).Sublist (waits a))
    (hidle : ∀ cpu, (s'.entities (s'.rrs cpu).idle).thread = (s.entities (s.rrs cpu).idle).thread)
    (hoff : ∀ t, t ∈ sleepers' ∨ (∃ a, t ∈ waits' a) ∨ exited t = true →
      (s.tcb t).schedHandle = none → (s'.tcb t).schedHandle = none) :
    Parked s' exited sleepers' waits' where
  sleep := hsleep
  nodup := h.nodup.sublist hsub
  futex := h.futex.leave hwaits hfutex
  off := by
    intro t ht
    refine hoff t ht (h.off t ?_)
    refine ht.imp (fun ht => hsub.subset ht) (Or.imp_left ?_)
    rintro ⟨a, ha⟩
    exact ⟨a, (hwaits a).subset ha⟩
  apart := fun t ht a ha => h.apart t (hsub.subset ht) a ((hwaits a).subset ha)
  gone := by
    intro t ht
    obtain ⟨hs, hw, hi⟩ := h.gone t ht
    refine ⟨fun h => hs (hsub.subset h), fun a h => hw a ((hwaits a).subset h), fun cpu => ?_⟩
    rw [hidle]
    exact hi cpu

theorem Parked.congr (h : Parked s exited sleepers waits) (hsleep : s'.sleepList = s.sleepList)
    (hfutex : s'.futexMap = s.futexMap)
    (hidle : ∀ cpu, (s'.entities (s'.rrs cpu).idle).thread = (s.entities (s.rrs cpu).idle).thread)
    (hoff : ∀ t, t ∈ sleepers ∨ (∃ a, t ∈ waits a) ∨ exited t = true →
      (s.tcb t).schedHandle = none → (s'.tcb t).schedHandle = none) :
    Parked s' exited sleepers waits := by
  refine h.mono ?_ (List.Sublist.refl _) (fun a => ?_) (fun a => List.Sublist.refl _) hidle hoff
  · rw [System.sleepers, hsleep]
    exact h.sleep
  · rw [hfutex]
    exact h.futex.queue a

theorem Parked.enqueue (h : Parked s exited sleepers waits) (hinv : RrsInv s)
    (hs : thread ∉ sleepers) (hw : ∀ a, thread ∉ waits a) (he : exited thread = false) :
    Parked (enqueueRrsEntity s thread true) exited sleepers waits := by
  refine h.congr rfl rfl (fun cpu => ?_) fun t ht hoff => ?_
  · have hne : (s.rrs cpu).idle ≠ s.allocated := (hinv.idle_lt cpu).ne
    by_cases hcpu : cpu = (s.tcb thread).cpuId
    · subst hcpu
      simp [enqueueRrsEntity, hne]
    · simp [enqueueRrsEntity, hcpu, hne]
  · have hne : t ≠ thread := by
      rintro rfl
      rcases ht with ht | ⟨a, ht⟩ | ht
      · exact hs ht
      · exact hw a ht
      · rw [he] at ht
        cases ht
    simpa [enqueueRrsEntity, hne] using hoff

theorem Parked.setTcb (h : Parked s exited sleepers waits) {tcb : Tcb}
    (htcb : tcb.schedHandle = (s.tcb thread).schedHandle) :
    Parked (s.setTcb thread tcb) exited sleepers waits := by
  refine h.congr rfl rfl (fun _ => rfl) fun t _ hoff => ?_
  by_cases ht : t = thread
  · subst ht
    simpa [htcb] using hoff
  · simpa [ht] using hoff

theorem RrsInv.setTcb (h : RrsInv s) {tcb : Tcb} (htcb : tcb.schedHandle = (s.tcb thread).schedHandle)
    (hcpu : (s.tcb thread).schedHandle ≠ none → tcb.cpuId = (s.tcb thread).cpuId) :
    RrsInv (s.setTcb thread tcb) := by
  refine h.congr rfl rfl (fun _ => ⟨rfl, rfl⟩) fun t => ?_
  by_cases ht : t = thread
  · subst ht
    simpa using ⟨htcb, hcpu⟩
  · simp [ht]

theorem Parked.remove (h : Parked s exited sleepers waits) :
    Parked (removeRrsEntity s thread) exited sleepers waits := by
  obtain ⟨hsleep, hfutex, hent, hidle, hother⟩ := removeRrsEntity_frame s thread
  refine h.congr hsleep hfutex (fun cpu => by rw [hent, hidle]) fun t _ hoff => ?_
  by_cases ht : t = thread
  · rw [ht, schedHandle_removeRrsEntity]
  · rw [hother t ht]
    exact hoff

theorem Parked.notParked (h : Parked s exited sleepers waits) (hon : (s.tcb thread).schedHandle ≠ none) :
    thread ∉ sleepers ∧ (∀ a, thread ∉ waits a) ∧ exited thread = false := by
  refine ⟨fun ht => hon (h.off thread (.inl ht)),
    fun a ht => hon (h.off thread (.inr (.inl ⟨a, ht⟩))), ?_⟩
  rw [← Bool.not_eq_true]
  exact fun ht => hon (h.off thread (.inr (.inr ht)))

theorem ExitInv.wakeThread (hinv : RrsInv s) (h : Parked s exited sleepers waits) (tcb : Tcb)
    (htcb : tcb.schedHandle = none) (hoff : (s.tcb thread).schedHandle = none)
    (hs : thread ∉ sleepers) (hw : ∀ a, thread ∉ waits a) (he : exited thread = false) :
    RrsInv (enqueueRrsEntity (s.setTcb thread tcb) thread true) ∧
      Parked (enqueueRrsEntity (s.setTcb thread tcb) thread true) exited sleepers waits := by
  have hinv' : RrsInv (s.setTcb thread tcb) :=
    hinv.setTcb (htcb.trans hoff.symm) fun hne => absurd hoff hne
  refine ⟨hinv'.enqueue (by simpa using htcb), (h.setTcb (htcb.trans hoff.symm)).enqueue hinv' hs hw he⟩

end Parked

section Operations

variable {s : System} {exited : ℕ → Bool} {sleepers : List ℕ} {waits : ℕ → List ℕ} {thread : ℕ}
  {heap : List Bool}

theorem RrsInv.withSleepList (h : RrsInv s) (list : Option (CowList ℕ)) :
    RrsInv { s with sleepList := list } :=
  h.congr rfl rfl (fun _ => ⟨rfl, rfl⟩) fun _ => ⟨rfl, fun _ => rfl⟩

theorem RrsInv.withFutexMap (h : RrsInv s) (m : HashMap (CowList ℕ)) : RrsInv { s with futexMap := m } :=
  h.congr rfl rfl (fun _ => ⟨rfl, rfl⟩) fun _ => ⟨rfl, fun _ => rfl⟩

theorem sleepListCreate_spec (s : System) (h : false ∉ heap) :
    ∃ list heap', sleepListCreate s heap = (some list, heap') ∧ list.toList = s.sleepers ∧ false ∉ heap' := by
  unfold sleepListCreate
  cases hlist : s.sleepList with
  | some list => exact ⟨list, heap, rfl, by simp [System.sleepers, hlist], h⟩
  | none =>
    obtain ⟨heap', hcreate, hheap'⟩ := @cowListCreate_spec ℕ heap h
    exact ⟨CowList.empty, heap', hcreate, by simp [System.sleepers, hlist], hheap'⟩

theorem ExitInv.sleepUntil (h : ExitInv ⟨s, exited⟩) (hheap : false ∉ heap)
    (hon : (s.tcb thread).schedHandle ≠ none) (deadline : ℕ) :
    ∃ s' heap', CoolPotOS.sleepUntil s thread deadline heap = some (s', heap') ∧ ExitInv ⟨s', exited⟩ := by
  obtain ⟨hrrs, sleepers, waits, hp⟩ := h
  obtain ⟨hs, hw, he⟩ := hp.notParked hon
  obtain ⟨list, heap1, hcreate, hlist, hheap1⟩ := sleepListCreate_spec s hheap
  obtain ⟨list', heap2, hadd, hlist', -⟩ := cowListAdd_spec list thread hheap1
  unfold CoolPotOS.sleepUntil
  simp only [hcreate, hadd]
  refine ⟨_, _, rfl, ?_, sleepers ++ [thread], waits, ?_⟩
  · apply RrsInv.remove
    apply RrsInv.withSleepList
    exact RrsInv.setTcb hrrs rfl fun _ => rfl
  · generalize hs1 : ({ s.setTcb thread { s.tcb thread with
      blockCode := schedulerBlockPending, sleepDeadline := deadline, status := .wait } with
        sleepList := some list' } : System) = s1
    obtain ⟨hsleep, hfutex, hent, hidle, hother⟩ := removeRrsEntity_frame s1 thread
    have hmap : s1.futexMap = s.futexMap := by rw [← hs1]; rfl
    refine ⟨?_, ?_, ⟨fun a => ?_, hp.futex.nodup, hp.futex.one⟩, fun t ht => ?_, fun t ht a => ?_,
      fun t ht => ?_⟩
    · rw [System.sleepers, hsleep, ← hs1]
      simp [hlist', hlist, hp.sleep]
    · refine nodup_append.mpr ⟨hp.nodup, nodup_singleton _, fun a ha b hb => ?_⟩
      rw [mem_singleton.mp hb]
      exact fun hab => hs (hab ▸ ha)
    · refine (congrArg (queueAt · a) (hfutex.trans hmap)).trans ?_
      exact hp.futex.queue a
    · by_cases htt : t = thread
      · rw [htt, schedHandle_removeRrsEntity]
      · rw [hother t htt, ← hs1]
        have hold := hp.off t (by simpa [htt] using ht)
        simpa [htt] using hold
    · rcases mem_append.mp ht with ht | ht
      · exact hp.apart t ht a
      · rw [mem_singleton.mp ht]
        exact hw a
    · obtain ⟨hts, htw, hti⟩ := hp.gone t ht
      have htt : t ≠ thread := by
        rintro rfl
        rw [he] at ht
        cases ht
      refine ⟨by simp [hts, htt], htw, fun cpu => ?_⟩
      rw [hent, hidle, ← hs1]
      exact hti cpu

theorem sleepRemoveTaskLocked_spec (hp : Parked s exited sleepers waits) (thread : ℕ)
    (hheap : false ∉ heap) :
    (thread ∉ sleepers ∧ sleepRemoveTaskLocked s thread heap = ((s, false), heap)) ∨
    thread ∈ sleepers ∧ ∃ list heap', sleepRemoveTaskLocked s thread heap =
        (({ s with sleepList := some list }, true), heap') ∧ false ∉ heap' ∧
      list.toList = (sleepers.erase thread).map some := by
  have hsleep := hp.sleep
  unfold sleepRemoveTaskLocked
  unfold System.sleepers at hsleep
  cases hlist : s.sleepList with
  | none =>
    rw [hlist] at hsleep
    exact .inl ⟨by simp [map_eq_nil_iff.mp hsleep.symm], rfl⟩
  | some list =>
    rw [hlist] at hsleep
    have hlist' : list.toList = sleepers.map some := hsleep
    rcases list.find_entry thread hlist' hp.nodup with ⟨hnot, hfind⟩ | ⟨hmem, i, hfind, hlt, herase⟩
    · exact .inl ⟨hnot, by simp only [hfind]⟩
    · obtain ⟨list1, heap1, hremove, hlist1, hheap1⟩ := cowListRemove_spec list hlt hheap
      refine .inr ⟨hmem, list1, heap1, ?_, hheap1, hlist1.trans herase⟩
      simp only [hfind, hremove]

theorem Parked.withSleepList (hp : Parked s exited sleepers waits) {list : CowList ℕ}
    {sleepers' : List ℕ} (hlist : list.toList = sleepers'.map some) (hsub : sleepers'.Sublist sleepers) :
    Parked { s with sleepList := some list } exited sleepers' waits :=
  hp.mono hlist hsub hp.futex.queue (fun _ => List.Sublist.refl _) (fun _ => rfl) fun _ _ h => h

theorem Parked.sleeper (hp : Parked s exited sleepers waits) (ht : thread ∈ sleepers) :
    (s.tcb thread).schedHandle = none ∧ (∀ a, thread ∉ waits a) ∧ exited thread = false := by
  refine ⟨hp.off thread (.inl ht), hp.apart thread ht, ?_⟩
  rw [← Bool.not_eq_true]
  exact fun he => (hp.gone thread he).1 ht

theorem ExitInv.unblock (h : ExitInv ⟨s, exited⟩) (thread : ℕ) (code : ℤ) (hheap : false ∉ heap) :
    ∃ s' heap', schedulerUnblock s thread code heap = some (s', heap') ∧ ExitInv ⟨s', exited⟩ := by
  obtain ⟨hrrs, sleepers, waits, hp⟩ := h
  unfold schedulerUnblock
  rcases sleepRemoveTaskLocked_spec hp thread hheap with
    ⟨-, hrun⟩ | ⟨hmem, list, heap1, hrun, hheap1, hlist⟩
  · rw [hrun]
    exact ⟨s, heap, rfl, hrrs, sleepers, waits, hp⟩
  · obtain ⟨hoff, hw, he⟩ := hp.sleeper hmem
    rw [hrun]
    obtain ⟨heap2, hadd, -⟩ := addRrsEntity_eq (({ s with sleepList := some list } : System).setTcb
      thread { s.tcb thread with sleepDeadline := 0, blockCode := code, status := .start }) thread
      hheap1
    refine ⟨_, heap2, hadd, ?_⟩
    obtain ⟨hrrs', hp'⟩ := ExitInv.wakeThread (hrrs.withSleepList (some list))
      (hp.withSleepList hlist erase_sublist)
      { s.tcb thread with sleepDeadline := 0, blockCode := code, status := .start }
      hoff hoff (fun hmem' => ((hp.nodup.mem_erase_iff).mp hmem').1 rfl) hw he
    exact ⟨hrrs', _, waits, hp'⟩

theorem ExitInv.checkSleepLoop (now : ℕ) (pending : ℕ → Bool) (fuel : ℕ) {list : CowList ℕ} (i : ℕ)
    (h : ExitInv ⟨{ s with sleepList := some list }, exited⟩) (hheap : false ∉ heap) :
    ∃ s' list' heap', CoolPotOS.checkSleepLoop now pending fuel s list i heap =
        some (s', list', heap') ∧ false ∉ heap' ∧
      ExitInv ⟨{ s' with sleepList := some list' }, exited⟩ := by
  induction fuel generalizing s list i heap with
  | zero => exact ⟨s, list, heap, rfl, hheap, h⟩
  | succ fuel ih =>
    obtain ⟨hrrs, sleepers, waits, hp⟩ := h
    have hlist : list.toList = sleepers.map some := hp.sleep
    unfold CoolPotOS.checkSleepLoop
    by_cases hlt : i < list.size
    · rw [if_pos hlt]
      have hsize : list.size = sleepers.length := by
        rw [← list.length_toList, hlist, length_map]
      have hget : cowListGet list i = some sleepers[i] := by
        rw [CowList.get_eq, hlist, List.getElem?_map, List.getElem?_eq_getElem (hsize ▸ hlt)]
        rfl
      generalize hthread : sleepers[i] = thread at hget
      have hmem : thread ∈ sleepers := hthread ▸ getElem_mem _
      simp only [hget]
      by_cases hwake : now ≥ (s.tcb thread).sleepDeadline ∨ pending thread = true
      · obtain ⟨list1, heap1, hremove, hlist1, hheap1⟩ := cowListRemove_spec list hlt hheap
        obtain ⟨hoff, hw, he⟩ := hp.sleeper hmem
        have hlist' : list1.toList = (sleepers.erase thread).map some := by
          rw [hlist1, hlist, eraseIdx_map, ← hthread, hp.nodup.erase_getElem]
        generalize htcb : ({ s.tcb thread with
          sleepDeadline := 0
          blockCode := if (s.tcb thread).blockCode = schedulerBlockPending then
            (if pending thread then -eintr else etimedout) else (s.tcb thread).blockCode
          status := .start } : Tcb) = tcb
        have hnone : tcb.schedHandle = none := by
          rw [← htcb]
          exact hoff
        obtain ⟨heap2, hadd, hheap2⟩ := addRrsEntity_eq (s.setTcb thread tcb) thread hheap1
        obtain ⟨hrrs', hp'⟩ := ExitInv.wakeThread (hrrs.withSleepList (some list1))
          (hp.withSleepList hlist' erase_sublist) tcb hnone hoff
          (fun hmem' => (hp.nodup.mem_erase_iff.mp hmem').1 rfl) hw he
        rw [if_pos hwake]
        simp only [hremove, hadd, bind_eq_bind, bind_some]
        exact ih i ⟨hrrs', _, waits, hp'⟩ hheap2
      · rw [if_neg hwake]
        exact ih (i + 1) ⟨hrrs, sleepers, waits, hp⟩ hheap
    · rw [if_neg hlt]
      exact ⟨s, list, heap, rfl, hheap, hrrs, sleepers, waits, hp⟩

theorem ExitInv.checkSleep (h : ExitInv ⟨s, exited⟩) (now : ℕ) (pending : ℕ → Bool) (hheap : false ∉ heap) :
    ∃ s' heap', schedulerCheckSleep s now pending heap = some (s', heap') ∧ false ∉ heap' ∧
      ExitInv ⟨s', exited⟩ := by
  unfold schedulerCheckSleep
  cases hlist : s.sleepList with
  | none => exact ⟨s, heap, rfl, hheap, h⟩
  | some list =>
    have hsame : ({ s with sleepList := some list } : System) = s := by
      rw [← hlist]
    obtain ⟨s', list', heap', hloop, hheap', h'⟩ := ExitInv.checkSleepLoop now pending
      (list.size + heap.length) 0 (hsame.symm ▸ h) hheap
    refine ⟨{ s' with sleepList := some list' }, heap', ?_, hheap', h'⟩
    simp only [hloop, bind_eq_bind, bind_some, Option.pure_def]

theorem ExitInv.futexWait (h : ExitInv ⟨s, exited⟩) (addr : ℕ) (hheap : false ∉ heap)
    (hon : (s.tcb thread).schedHandle ≠ none) :
    ∃ s' heap', CoolPotOS.futexWait s addr thread heap = some (s', heap') ∧ ExitInv ⟨s', exited⟩ := by
  obtain ⟨hrrs, sleepers, waits, hp⟩ := h
  obtain ⟨hs, hw, he⟩ := hp.notParked hon
  have hrrs1 : RrsInv (s.setTcb thread { s.tcb thread with status := .futex }) :=
    hrrs.setTcb rfl fun _ => rfl
  have hp1 : Parked (s.setTcb thread { s.tcb thread with status := .futex }) exited sleepers waits :=
    hp.setTcb rfl
  unfold CoolPotOS.futexWait
  generalize hs1 : s.setTcb thread { s.tcb thread with status := .futex } = s1 at hrrs1 hp1
  obtain ⟨m, index, heap', hadd, -, -⟩ := futexAdd_spec s1 addr thread hheap
  obtain ⟨x', hstep, hok, -⟩ := hp1.futex.add addr hrrs1.fresh hheap hw
  refine ⟨_, heap', hadd, ?_, sleepers, FutexOp.waits waits (.add addr thread heap), ?_⟩
  · apply RrsInv.remove
    exact (hrrs1.withFutexMap m).setTcb rfl fun _ => rfl
  · rw [FutexState.step, FutexOp.run, hadd] at hstep
    cases hstep
    generalize hs2 : (({ s1 with futexMap := m } : System).setTcb thread
      { s1.tcb thread with futexIndex := index }) = s2
    rw [hs2] at hok
    obtain ⟨hsleep, hfutex, hent, hidle, hother⟩ := removeRrsEntity_frame s2 thread
    have hwaits : ∀ t a, t ∈ FutexOp.waits waits (.add addr thread heap) a →
        t ∈ waits a ∨ t = thread := by
      intro t a ha
      by_cases haa : a = addr
      · subst haa
        simpa [FutexOp.waits] using ha
      · left
        simpa [FutexOp.waits, haa] using ha
    refine ⟨?_, hp1.nodup, hok, fun t ht => ?_, fun t ht a ha => ?_, fun t ht => ?_⟩
    · rw [System.sleepers, hsleep, ← hs2]
      exact hp1.sleep
    · by_cases htt : t = thread
      · rw [htt, schedHandle_removeRrsEntity]
      · rw [hother t htt, ← hs2]
        have hold := hp1.off t (ht.imp_right (Or.imp_left (Exists.imp fun a ha =>
          (hwaits t a ha).resolve_right htt)))
        simpa [htt] using hold
    · rcases hwaits t a ha with ha | rfl
      · exact hp1.apart t ht a ha
      · exact hs ht
    · obtain ⟨hts, htw, hti⟩ := hp1.gone t ht
      refine ⟨hts, fun a ha => ?_, fun cpu => ?_⟩
      · rcases hwaits t a ha with ha | rfl
        · exact htw a ha
        · rw [he] at ht
          cases ht
      · rw [hent, hidle, ← hs2]
        exact hti cpu

theorem ExitInv.wakeAll {threads : List ℕ} (hrrs : RrsInv s) (hp : Parked s exited sleepers waits)
    (hnodup : threads.Nodup)
    (hfree : ∀ t ∈ threads, (s.tcb t).schedHandle = none ∧ t ∉ sleepers ∧ (∀ a, t ∉ waits a) ∧
      exited t = false) :
    RrsInv (CoolPotOS.wakeAll s threads) ∧ Parked (CoolPotOS.wakeAll s threads) exited sleepers waits := by
  induction threads generalizing s with
  | nil => exact ⟨hrrs, hp⟩
  | cons t threads ih =>
    obtain ⟨hnot, hnodup⟩ := nodup_cons.mp hnodup
    obtain ⟨hoff, hs, hw, he⟩ := hfree t mem_cons_self
    obtain ⟨hrrs', hp'⟩ := ExitInv.wakeThread hrrs hp
      { s.tcb t with status := .start } hoff hoff hs hw he
    refine ih hrrs' hp' hnodup fun t' ht' => ?_
    obtain ⟨hoff', hrest⟩ := hfree t' (mem_cons_of_mem t ht')
    refine ⟨?_, hrest⟩
    have htcb := tcb_wakeThread_of_ne s t (fun htt : t' = t => hnot (htt ▸ ht'))
    exact (congrArg Tcb.schedHandle htcb).trans hoff'

theorem wakeAll_withFutexMap (s : System) (threads : List ℕ) (m : HashMap (CowList ℕ)) :
    ({ CoolPotOS.wakeAll s threads with futexMap := m } : System) =
      CoolPotOS.wakeAll { s with futexMap := m } threads := by
  induction threads generalizing s with
  | nil => rfl
  | cons t threads ih => exact ih (CoolPotOS.wakeThread s t)

theorem Parked.withFutexMap (hp : Parked s exited sleepers waits) {m : HashMap (CowList ℕ)}
    {waits' : ℕ → List ℕ} (hm : ∀ a, queueAt m a = (waits' a).map some)
    (hsub : ∀ a, (waits' a).Sublist (waits a)) : Parked { s with futexMap := m } exited sleepers waits' :=
  hp.mono hp.sleep (List.Sublist.refl _) hm hsub (fun _ => rfl) fun _ _ h => h

theorem Parked.waiter (hp : Parked s exited sleepers waits) {a : ℕ} (ht : thread ∈ waits a) :
    (s.tcb thread).schedHandle = none ∧ thread ∉ sleepers ∧ exited thread = false := by
  refine ⟨hp.off thread (.inr (.inl ⟨a, ht⟩)), fun hs => hp.apart thread hs a ht, ?_⟩
  rw [← Bool.not_eq_true]
  exact fun he => (hp.gone thread he).2.1 a ht

theorem ExitInv.futexWake (h : ExitInv ⟨s, exited⟩) (addr : ℕ) (count : ℤ) (hheap : false ∉ heap) :
    ∃ s' n heap', CoolPotOS.futexWake s addr count heap = some (s', n, heap') ∧ ExitInv ⟨s', exited⟩ := by
  obtain ⟨hrrs, sleepers, waits, hp⟩ := h
  obtain ⟨m, heap', hrun, -, hqueue⟩ := futexWake_spec s count (hp.futex.queue addr) hheap
  have hm : ∀ a, queueAt m a =
      (update waits addr ((waits addr).drop count.toNat) a).map some := by
    intro a
    rw [hqueue a]
    by_cases ha : a = addr
    · simp [ha]
    · simpa [ha] using hp.futex.queue a
  have hsub : ∀ a, (update waits addr ((waits addr).drop count.toNat) a).Sublist
      (waits a) := by
    intro a
    by_cases ha : a = addr
    · subst ha
      simpa using drop_sublist _ _
    · simp [ha]
  refine ⟨_, _, heap', hrun, ?_⟩
  rw [wakeAll_withFutexMap]
  obtain ⟨hrrs', hp'⟩ := ExitInv.wakeAll (hrrs.withFutexMap m) (hp.withFutexMap hm hsub)
    ((hp.futex.nodup addr).sublist (take_sublist count.toNat _)) (fun t ht => by
      -- a thread of the front is not in the rest, and it waits nowhere else
      have hmem := mem_of_mem_take ht
      obtain ⟨hoff, hs, he⟩ := hp.waiter hmem
      refine ⟨hoff, hs, fun a ha => ?_, he⟩
      obtain rfl := hp.futex.one t a addr ((hsub a).subset ha) hmem
      rw [update_self] at ha
      have hnodup : (waits a).Nodup := hp.futex.nodup a
      rw [← take_append_drop count.toNat (waits a)] at hnodup
      exact disjoint_of_nodup_append hnodup ht ha)
  exact ⟨hrrs', sleepers, _, hp'⟩

theorem ExitInv.futexUnblock (h : ExitInv ⟨s, exited⟩) (addr thread : ℕ) (hheap : false ∉ heap) :
    ∃ s' b heap', CoolPotOS.futexUnblock s addr thread heap = some (s', b, heap') ∧ ExitInv ⟨s', exited⟩ := by
  obtain ⟨hrrs, sleepers, waits, hp⟩ := h
  rcases futexUnblock_spec s thread (hp.futex.queue addr) (hp.futex.nodup addr) hheap with
    ⟨-, hrun⟩ | ⟨hmem, m, heap', hrun, -, hqueue⟩
  · exact ⟨s, false, heap, hrun, hrrs, sleepers, waits, hp⟩
  · have hm : ∀ a, queueAt m a =
        (update waits addr ((waits addr).erase thread) a).map some := by
      intro a
      rw [hqueue a]
      by_cases ha : a = addr
      · simp [ha]
      · simpa [ha] using hp.futex.queue a
    have hsub : ∀ a, (update waits addr ((waits addr).erase thread) a).Sublist
        (waits a) := by
      intro a
      by_cases ha : a = addr
      · subst ha
        simpa using erase_sublist
      · simp [ha]
    obtain ⟨hoff, hs, he⟩ := hp.waiter hmem
    refine ⟨_, true, heap', hrun, ?_⟩
    by_cases hstatus : (s.tcb thread).status = .futex
    · simp only [hstatus, if_true]
      obtain ⟨hrrs', hp'⟩ := ExitInv.wakeThread (hrrs.withFutexMap m) (hp.withFutexMap hm hsub)
        { s.tcb thread with status := .start } hoff hoff hs (fun a ha => by
          obtain rfl := hp.futex.one thread a addr ((hsub a).subset ha) hmem
          rw [update_self] at ha
          exact ((hp.futex.nodup a).mem_erase_iff.mp ha).1 rfl) he
      exact ⟨hrrs', sleepers, _, hp'⟩
    · simp only [hstatus, if_false]
      exact ⟨hrrs.withFutexMap m, sleepers, _, hp.withFutexMap hm hsub⟩

theorem ExitInv.kill (h : ExitInv ⟨s, exited⟩) (hheap : false ∉ heap)
    (hsleep : some thread ∉ s.sleepers) (hidle : s.NotIdle thread) :
    ∃ s' heap', killThread s thread heap = some (s', heap') ∧
      ExitInv ⟨s', ThreadOp.exited s exited (.kill thread heap)⟩ := by
  obtain ⟨hrrs, sleepers, waits, hp⟩ := h
  unfold killThread ThreadOp.exited
  by_cases hstatus : (s.tcb thread).status = .death ∨ (s.tcb thread).status = .out
  · simp only [if_pos hstatus]
    exact ⟨s, heap, rfl, hrrs, sleepers, waits, hp⟩
  simp only [if_neg hstatus]
  have hrrs1 : RrsInv (s.setTcb thread { s.tcb thread with status := .death }) :=
    hrrs.setTcb rfl fun _ => rfl
  have hp1 : Parked (s.setTcb thread { s.tcb thread with status := .death }) exited sleepers waits :=
    hp.setTcb rfl
  have hdeath : ((s.setTcb thread { s.tcb thread with status := .death }).tcb thread).status =
      .death := by simp
  have hidle1 : (s.setTcb thread { s.tcb thread with status := .death }).NotIdle thread := hidle
  generalize s.setTcb thread { s.tcb thread with status := .death } = s1 at hrrs1 hp1 hdeath hidle1
  obtain ⟨m, heap1, hfree, hheap1, hqueue⟩ := futexFree_spec s1 thread hheap
  -- out of the futex queues
  have hp2 : Parked { s1 with futexMap := m } exited sleepers
      fun a => (waits a).filter (· ≠ thread) := by
    refine hp1.withFutexMap (fun a => ?_) fun a => filter_sublist
    rw [hqueue a, show queueAt s1.futexMap a = (waits a).map some from hp1.futex.queue a,
      dropThread, List.filter_map]
    congr 1
    apply filter_congr
    intro t _
    simp
  have hrrs2 := hrrs1.withFutexMap m
  -- out of the run queue
  have hremove : ∃ s3 heap2, (if (s1.tcb thread).schedHandle = none then
        some (({ s1 with futexMap := m } : System), heap1)
      else schedulerRemoveTask { s1 with futexMap := m } thread heap1) = some (s3, heap2) ∧
      RrsInv s3 ∧ Parked s3 exited sleepers (fun a => (waits a).filter (· ≠ thread)) ∧
      (s3.tcb thread).schedHandle = none ∧ s3.NotIdle thread := by
    by_cases hnone : (s1.tcb thread).schedHandle = none
    · rw [if_pos hnone]
      exact ⟨_, _, rfl, hrrs2, hp2, hnone, hidle1⟩
    · rw [if_neg hnone]
      unfold schedulerRemoveTask
      simp only [hdeath, reduceCtorEq, false_and, if_false]
      refine ⟨_, _, rfl, ?_, ?_, schedHandle_removeRrsEntity _ _, fun cpu => ?_⟩
      · apply RrsInv.remove
        exact hrrs2.congr rfl rfl (fun _ => ⟨rfl, rfl⟩) fun _ => ⟨rfl, fun _ => rfl⟩
      · apply Parked.remove
        exact hp2.congr rfl rfl (fun _ => rfl) fun _ _ h => h
      · obtain ⟨-, -, hent, hidle', -⟩ := removeRrsEntity_frame
          { s1 with
            taskCount := update s1.taskCount (s1.tcb thread).cpuId
              (s1.taskCount (s1.tcb thread).cpuId - 1)
            futexMap := m } thread
        rw [hent, hidle']
        exact hidle1 cpu
  obtain ⟨s3, heap2, hrun, hrrs3, hp3, hnone, hidle3⟩ := hremove
  refine ⟨s3.setTcb thread { s3.tcb thread with status := .out }, heap2, ?_, ?_⟩
  · simp only [hfree, bind_eq_bind, bind_some, Option.pure_def]
    by_cases hn : (s1.tcb thread).schedHandle = none
    · rw [if_pos hn] at hrun ⊢
      cases hrun
      rfl
    · rw [if_neg hn] at hrun ⊢
      rw [hrun]
      rfl
  · refine ⟨hrrs3.setTcb rfl fun _ => rfl, sleepers, fun a => (waits a).filter (· ≠ thread), ?_⟩
    have hp4 : Parked (s3.setTcb thread { s3.tcb thread with status := .out }) exited sleepers
        fun a => (waits a).filter (· ≠ thread) := hp3.setTcb rfl
    have hnot : thread ∉ sleepers := by
      intro hmem
      apply hsleep
      rw [show s.sleepers = sleepers.map some from hp.sleep]
      exact List.mem_map.mpr ⟨thread, hmem, rfl⟩
    refine ⟨hp4.sleep, hp4.nodup, hp4.futex, fun t ht => ?_, hp4.apart, fun t ht => ?_⟩
    · by_cases htt : t = thread
      · simpa [htt] using hnone
      · exact hp4.off t (by simpa [htt] using ht)
    · by_cases htt : t = thread
      · subst htt
        exact ⟨hnot, by simp, hidle3⟩
      · exact hp4.gone t (by simpa [htt] using ht)

theorem ExitInv.addTask (h : ExitInv ⟨s, exited⟩) (cpu : ℕ)
    (hok : (ThreadOp.addTask thread cpu heap).Safe s) :
    ∃ s' heap', schedulerAddTaskCpu s thread cpu heap = some (s', heap') ∧
      ExitInv ⟨s', update exited thread false⟩ := by
  obtain ⟨hheap, hoff, hs, hw, hidle⟩ := hok
  obtain ⟨hrrs, sleepers, waits, hp⟩ := h
  have hs' : thread ∉ sleepers := by
    intro hmem
    apply hs
    rw [show s.sleepers = sleepers.map some from hp.sleep]
    exact List.mem_map.mpr ⟨thread, hmem, rfl⟩
  have hw' : ∀ a, thread ∉ waits a := by
    intro a hmem
    apply hw a
    rw [show queueAt s.futexMap a = (waits a).map some from hp.futex.queue a]
    exact List.mem_map.mpr ⟨thread, hmem, rfl⟩
  -- the memory is no longer that of a dead thread
  have hp' : Parked s (update exited thread false) sleepers waits := by
    have hex : ∀ t, update exited thread false t = true → exited t = true := by
      intro t ht
      by_cases htt : t = thread
      · simp [htt] at ht
      · simpa [htt] using ht
    exact ⟨hp.sleep, hp.nodup, hp.futex, fun t ht => hp.off t (ht.imp_right (Or.imp_right (hex t))),
      hp.apart, fun t ht => hp.gone t (hex t ht)⟩
  unfold schedulerAddTaskCpu
  obtain ⟨heap', hadd, -⟩ := addRrsEntity_eq (System.setTcb
    { s with taskCount := update s.taskCount cpu (s.taskCount cpu + 1) } thread
    { s.tcb thread with cpuId := cpu }) thread hheap
  refine ⟨_, heap', hadd, ?_⟩
  obtain ⟨hrrs1, hp1⟩ := ExitInv.wakeThread
    (s := { s with taskCount := update s.taskCount cpu (s.taskCount cpu + 1) })
    (hrrs.congr rfl rfl (fun _ => ⟨rfl, rfl⟩) fun _ => ⟨rfl, fun _ => rfl⟩)
    (hp'.congr rfl rfl (fun _ => rfl) fun _ _ h => h)
    { s.tcb thread with cpuId := cpu } hoff hoff hs' hw' (by simp)
  exact ⟨hrrs1, sleepers, waits, hp1⟩

theorem ExitInv.switchTask (h : ExitInv ⟨s, exited⟩) (cpu next : ℕ) :
    ExitInv ⟨CoolPotOS.switchTask s cpu next, exited⟩ := by
  obtain ⟨hrrs, sleepers, waits, hp⟩ := h
  unfold CoolPotOS.switchTask
  dsimp only
  split
  · exact ⟨hrrs, sleepers, waits, hp⟩
  · have hrrs1 : RrsInv (s.setTcb (s.currentTask cpu)
        { s.tcb (s.currentTask cpu) with status := .running }) := hrrs.setTcb rfl fun _ => rfl
    have hp1 : Parked (s.setTcb (s.currentTask cpu)
        { s.tcb (s.currentTask cpu) with status := .running }) exited sleepers waits :=
      hp.setTcb rfl
    generalize s.setTcb (s.currentTask cpu)
      { s.tcb (s.currentTask cpu) with status := .running } = s1 at hrrs1 hp1 ⊢
    have hrrs2 : RrsInv (s1.setTcb next { s1.tcb next with status := .start }) :=
      hrrs1.setTcb rfl fun _ => rfl
    have hp2 : Parked (s1.setTcb next { s1.tcb next with status := .start }) exited sleepers waits :=
      hp1.setTcb rfl
    exact ⟨hrrs2.congr rfl rfl (fun _ => ⟨rfl, rfl⟩) fun _ => ⟨rfl, fun _ => rfl⟩, sleepers, waits,
      hp2.congr rfl rfl (fun _ => rfl) fun _ _ h => h⟩

theorem ExitInv.handler (h : ExitInv ⟨s, exited⟩) (cpu now : ℕ) (pending : ℕ → Bool) (hheap : false ∉ heap) :
    ∃ s' heap', schedulerHandler s cpu now pending heap = some (s', heap') ∧ ExitInv ⟨s', exited⟩ := by
  obtain ⟨s1, heap1, hcheck, -, h1⟩ := h.checkSleep now pending hheap
  obtain ⟨hrrs, sleepers, waits, hp⟩ := h1
  obtain ⟨curr, next, hpick, -⟩ := rrsPickNextTask_spec hrrs cpu
  -- the pick changes the current entity only
  have hkeep : ∀ c, ((update s1.rrs cpu { s1.rrs cpu with curr := curr }) c).schedQueue =
      (s1.rrs c).schedQueue ∧
      ((update s1.rrs cpu { s1.rrs cpu with curr := curr }) c).idle = (s1.rrs c).idle := by
    intro c
    by_cases hc : c = cpu
    · subst hc
      simp
    · simp [hc]
  have hrrs2 : RrsInv { s1 with
      rrs := update s1.rrs cpu { s1.rrs cpu with curr := curr } } :=
    hrrs.congr rfl rfl hkeep fun _ => ⟨rfl, fun _ => rfl⟩
  have hp2 : Parked { s1 with
      rrs := update s1.rrs cpu { s1.rrs cpu with curr := curr } } exited sleepers waits :=
    hp.congr rfl rfl (fun c => by dsimp only; rw [(hkeep c).2]) fun _ _ h => h
  refine ⟨_, heap1, ?_, ExitInv.switchTask ⟨hrrs2, sleepers, waits, hp2⟩ cpu next⟩
  unfold schedulerHandler
  simp only [hcheck, hpick, bind_eq_bind, bind_some, Option.pure_def]

end Operations

theorem ExitInv.step {x : ExitState} (h : ExitInv x) {op : ThreadOp} (hok : op.Safe x.sys) :
    ∃ x', x.step op = some x' ∧ ExitInv x' := by
  unfold ExitState.step
  cases op with
  | addTask thread cpu heap =>
    obtain ⟨s', heap', hrun, h'⟩ := h.addTask cpu hok
    exact ⟨_, by rw [ThreadOp.run, hrun]; rfl, h'⟩
  | nanoSleep thread now nano heap =>
    obtain ⟨s', heap', hrun, h'⟩ := h.sleepUntil hok.1 hok.2 (wrap (now + nano))
    exact ⟨_, by rw [ThreadOp.run, schedulerNanoSleep, hrun]; rfl, h'⟩
  | blockCurrent thread now timeout heap =>
    obtain ⟨s', heap', hrun, h'⟩ := h.sleepUntil hok.1 hok.2
      (if timeout = 2 ^ 64 - 1 then 2 ^ 64 - 1 else wrap (now + timeout))
    exact ⟨_, by rw [ThreadOp.run, schedulerBlockCurrent, hrun]; rfl, h'⟩
  | unblock thread code heap =>
    obtain ⟨s', heap', hrun, h'⟩ := h.unblock thread code hok
    exact ⟨_, by rw [ThreadOp.run, hrun]; rfl, h'⟩
  | checkSleep now pending heap =>
    obtain ⟨s', heap', hrun, -, h'⟩ := h.checkSleep now pending hok
    exact ⟨_, by rw [ThreadOp.run, hrun]; rfl, h'⟩
  | futexWait addr thread heap =>
    obtain ⟨s', heap', hrun, h'⟩ := h.futexWait addr hok.1 hok.2
    exact ⟨_, by rw [ThreadOp.run, hrun]; rfl, h'⟩
  | futexWake addr count heap =>
    obtain ⟨s', n, heap', hrun, h'⟩ := h.futexWake addr count hok
    exact ⟨_, by rw [ThreadOp.run, hrun]; rfl, h'⟩
  | futexUnblock addr thread heap =>
    obtain ⟨s', b, heap', hrun, h'⟩ := h.futexUnblock addr thread hok
    exact ⟨_, by rw [ThreadOp.run, hrun]; rfl, h'⟩
  | kill thread heap =>
    obtain ⟨s', heap', hrun, h'⟩ := h.kill hok.1 hok.2.1 hok.2.2
    exact ⟨_, by rw [ThreadOp.run, hrun]; rfl, h'⟩
  | handler cpu now pending heap =>
    obtain ⟨s', heap', hrun, h'⟩ := h.handler cpu now pending hok
    exact ⟨_, by rw [ThreadOp.run, hrun]; rfl, h'⟩

/-- After the start of the processors: only the idle threads are there. -/
structure Booted (s : System) : Prop where
  queue : ∀ cpu, (s.rrs cpu).schedQueue = [(s.rrs cpu).idle]
  idle_lt : ∀ cpu, (s.rrs cpu).idle < s.allocated
  handle : ∀ t, (s.tcb t).schedHandle = none
  sleep : s.sleepList = none
  futex : ∀ a, mapGet s.futexMap a = none

theorem Booted.exitInv {s : System} (h : Booted s) : ExitInv ⟨s, fun _ => false⟩ where
  rrs :=
    { fresh := by
        intro cpu id hid
        rw [h.queue, mem_singleton] at hid
        rw [hid]
        exact h.idle_lt cpu
      idle_lt := h.idle_lt
      head := by
        intro cpu
        rw [h.queue]
        rfl
      nodup := by
        intro cpu
        rw [h.queue]
        exact nodup_singleton _
      queued := by
        intro cpu id hid
        rw [h.queue, mem_singleton] at hid
        exact .inl hid
      handle := by
        intro t id ht
        rw [h.handle t] at ht
        cases ht }
  parked := by
    refine ⟨[], fun _ => [], ⟨by simp [System.sleepers, h.sleep], nodup_nil,
      ⟨fun a => queueAt_of_none (h.futex a), by simp, by simp⟩, by simp, by simp, by simp⟩⟩

/-- A thread that is in no run queue and not in the sleep list, and that no pick returns. -/
structure Gone (s : System) (thread : ℕ) : Prop where
  runQueue : ∀ cpu, thread ∉ s.runQueue cpu
  sleep : some thread ∉ s.sleepers
  pick : ∀ cpu s' next, rrsPickNextTask s cpu = some (s', next) → next ≠ thread

theorem ExitInv.gone {x : ExitState} (h : ExitInv x) {t : ℕ} (ht : x.exited t = true) : Gone x.sys t := by
  obtain ⟨hrrs, sleepers, waits, hp⟩ := h
  obtain ⟨hs, -, hidle⟩ := hp.gone t ht
  have hqueue := hrrs.notMem_runQueue (hp.off t (.inr (.inr ht))) hidle
  refine ⟨hqueue, ?_, fun cpu s' next hpick => ?_⟩
  · rw [hp.sleep]
    simpa using hs
  · obtain ⟨curr, t', hrun, hmem⟩ := rrsPickNextTask_spec hrrs cpu
    rw [hrun] at hpick
    cases hpick
    rintro rfl
    exact hqueue cpu hmem

/-- In every run with memory that kills no sleeping thread, and in which only threads on a run
queue go to sleep or wait, a thread that has exited never comes back. -/
theorem exited_never_runs (s : System) (hboot : Booted s) (ops : List ThreadOp)
    (hok : Runs.Meets ExitState.step (fun x op => op.Safe x.sys) ops ⟨s, fun _ => false⟩)
    (done : List ThreadOp) (hdone : done <+: ops) :
    ∃ x, Runs.run ExitState.step done ⟨s, fun _ => false⟩ = some x ∧
      ∀ t, x.exited t = true → Gone x.sys t := by
  obtain ⟨x, hrun, h⟩ := Runs.run_total (fun x op hinv hsafe => ExitInv.step hinv hsafe)
    hboot.exitInv (hok.of_isPrefix hdone)
  exact ⟨x, hrun, fun t ht => h.gone ht⟩

def bootSystem : System where
  tcb := fun _ => ⟨.create, 0, 0, 0, none, 0⟩
  entities := fun _ => ⟨1, true⟩
  allocated := 1
  rrs := fun _ => ⟨[0], 0, 0⟩
  taskCount := fun _ => 1
  currentTask := fun _ => 1
  sleepList := none
  futexMap := .empty 20 (Nat.succ_pos _)

theorem booted_bootSystem : Booted bootSystem :=
  ⟨fun _ => rfl, fun _ => Nat.zero_lt_one, fun _ => rfl, rfl, fun _ => rfl⟩

/-- A thread is created, killed, and the processor goes on. -/
theorem killed_thread_never_runs :
    ∃ x, Runs.run ExitState.step [.addTask 5 0 [], .kill 5 [], .handler 0 100 (fun _ => false) []]
        ⟨bootSystem, fun _ => false⟩ = some x ∧ ∀ t, x.exited t = true → Gone x.sys t := by
  refine exited_never_runs bootSystem booted_bootSystem _ ?_ _ List.prefix_rfl
  refine ⟨?_, fun x hx => ⟨?_, fun _ _ => ⟨by simp [ThreadOp.Safe], fun _ _ => trivial⟩⟩⟩
  · exact ⟨by simp, rfl, by simp [System.sleepers, bootSystem], fun a => by
      rw [queueAt_of_none (booted_bootSystem.futex a)]
      simp, fun cpu => by simp [bootSystem]⟩
  · cases hx
    refine ⟨by simp, by simp [System.sleepers, bootSystem, enqueueRrsEntity], fun cpu => ?_⟩
    by_cases hcpu : cpu = 0
    · simp [bootSystem, enqueueRrsEntity, hcpu]
    · simp [bootSystem, enqueueRrsEntity, hcpu]

/-- A thread sleeps until 1200 and is killed before. It has no entity, so that it stays in the
sleep list, and the timer check puts it into the run queue, where it is picked. -/
theorem killed_sleeper_runs_again :
    ∃ x x', Runs.run ExitState.step [.addTask 5 0 [], .nanoSleep 5 200 1000 [], .kill 5 []]
        ⟨bootSystem, fun _ => false⟩ = some x ∧ x.exited 5 = true ∧ some 5 ∈ x.sys.sleepers ∧
      Runs.run ExitState.step [.checkSleep 5000 (fun _ => false) []] x = some x' ∧
      5 ∈ x'.sys.runQueue 0 ∧ (rrsPickNextTask x'.sys 0).map Prod.snd = some 5 := by
  obtain ⟨x, hx⟩ : ∃ x, Runs.run ExitState.step
      [.addTask 5 0 [], .nanoSleep 5 200 1000 [], .kill 5 []] ⟨bootSystem, fun _ => false⟩ =
        some x := by
    apply Option.isSome_iff_exists.mp
    decide
  obtain ⟨x', hx'⟩ : ∃ x', Runs.run ExitState.step [.checkSleep 5000 (fun _ => false) []] x =
      some x' := by
    apply Option.isSome_iff_exists.mp
    revert x
    decide
  refine ⟨x, x', hx, ?_, ?_, hx', ?_⟩
  · clear hx'
    revert x
    decide
  · clear hx'
    revert x
    decide
  · revert x x'
    decide

inductive Place
  | runQueue (cpu : ℕ)
  | sleepList
  | futexQueue (addr : ℕ)

/-- The idle thread of a processor is in its run queue all the time. -/
def System.At (s : System) (thread : ℕ) : Place → Prop
  | .runQueue cpu => ∃ id ∈ (s.rrs cpu).schedQueue, id ≠ (s.rrs cpu).idle ∧ (s.entities id).thread = thread
  | .sleepList => some thread ∈ s.sleepers
  | .futexQueue addr => some thread ∈ queueAt s.futexMap addr

/-- In every run with memory that kills no sleeping thread, and in which only threads on a run
queue go to sleep or wait, no thread is ever in two of the queues. -/
theorem thread_in_one_place {s : System} (hboot : Booted s) (ops : List ThreadOp)
    (hok : Runs.Meets ExitState.step (fun x op => op.Safe x.sys) ops ⟨s, fun _ => false⟩) :
    ∃ x, Runs.run ExitState.step ops ⟨s, fun _ => false⟩ = some x ∧
      ∀ t p p', x.sys.At t p → x.sys.At t p' → p = p' := by
  obtain ⟨x, hrun, hrrs, sleepers, waits, h⟩ :=
    Runs.run_total (fun x op hinv hsafe => ExitInv.step hinv hsafe) hboot.exitInv hok
  refine ⟨x, hrun, fun t => ?_⟩
  have hsleep : some t ∈ x.sys.sleepers → t ∈ sleepers := by simp [h.sleep]
  have hwait : ∀ a, some t ∈ queueAt x.sys.futexMap a → t ∈ waits a := fun a => by simp [h.futex.queue a]
  have hqueued : ∀ cpu, x.sys.At t (.runQueue cpu) → (x.sys.tcb t).schedHandle ≠ none ∧ (x.sys.tcb t).cpuId = cpu := by
    rintro cpu ⟨id, hid, hidle, rfl⟩
    obtain ⟨hhandle, hcpu⟩ := (hrrs.queued cpu id hid).resolve_left hidle
    exact ⟨by simp [hhandle], hcpu⟩
  -- a thread with an entity neither sleeps nor waits
  have hoff : ∀ cpu, x.sys.At t (.runQueue cpu) → t ∉ sleepers ∧ ∀ a, t ∉ waits a := fun cpu hq =>
    ⟨fun hs => (hqueued cpu hq).1 (h.off t (.inl hs)), fun a ha => (hqueued cpu hq).1 (h.off t (.inr (.inl ⟨a, ha⟩)))⟩
  rintro (cpu | - | a) (cpu' | - | a') hp hp'
  · rw [← (hqueued cpu hp).2, (hqueued cpu' hp').2]
  · exact absurd (hsleep hp') (hoff cpu hp).1
  · exact absurd (hwait a' hp') ((hoff cpu hp).2 a')
  · exact absurd (hsleep hp) (hoff cpu' hp').1
  · rfl
  · exact absurd (hwait a' hp') (h.apart t (hsleep hp) a')
  · exact absurd (hwait a hp) ((hoff cpu' hp').2 a)
  · exact absurd (hwait a hp) (h.apart t (hsleep hp') a)
  · rw [h.futex.one t a a' (hwait a hp) (hwait a' hp')]

theorem thread_in_one_place_sleeping :
    ∃ x, Runs.run ExitState.step [.addTask 5 0 [], .nanoSleep 5 200 1000 []] ⟨bootSystem, fun _ => false⟩ = some x ∧
      ∀ t p p', x.sys.At t p → x.sys.At t p' → p = p' := by
  refine thread_in_one_place booted_bootSystem _ ⟨?_, fun x hx => ⟨?_, fun _ _ => trivial⟩⟩
  · exact ⟨by simp, rfl, by simp [System.sleepers, bootSystem], fun a => by
      rw [queueAt_of_none (booted_bootSystem.futex a)]
      simp, fun cpu => by simp [bootSystem]⟩
  · cases hx
    exact ⟨by simp, by simp [enqueueRrsEntity, bootSystem]⟩

end CoolPotOS
